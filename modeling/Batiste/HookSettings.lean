import Batiste.HookUninstall
import Batiste.JsonReader
import Batiste.JsString

/-! The settings file of Claude Code under `batiste-fm install hooks`: installs and uninstalls, one
after another, over whatever the operator wrote there. -/
namespace Batiste
namespace HookSettings

open HookConfig JsonReader

/-! ## The file -/

section File

variable (js : Numbers)

/-- `none` where it throws. -/
def readSettingsFile : Option (List Char) → Option (Dict Json)
  | none => some []
  | some raw =>
    if JsString.trim raw = [] then some []
    else
      match parse js raw with
      | some (.object fields) => some fields
      | _ => none

def writeSettingsFile (settings : Dict Json) : List Char :=
  stringify js (.object settings) ++ ['\n']

end File

/-! ## The commands -/

def SESSION_HOOK : String := "atrium-session-start.sh"
def PROMPT_HOOK : String := "atrium-user-prompt.sh"
def TOOL_MAPPING_HOOK : String := "atrium-tool-mapping.sh"

def hookScripts : List String := [SESSION_HOOK, PROMPT_HOOK, TOOL_MAPPING_HOOK]

/-- The events that an uninstall looks at. -/
def managedEvents : List String := ["SessionStart", "UserPromptSubmit", "PreToolUse"]

/-- `join`: the path of a file in a directory ends with its name. -/
structure Paths where
  join : String → String → String
  join_name : ∀ dir, ∀ name ∈ hookScripts, name.toList <:+ (join dir name).toList

/-- The events with a script of Atrium's. -/
inductive Hook
  | session
  | prompt
  | toolMapping

def Hook.event : Hook → String
  | .session => "SessionStart"
  | .prompt => "UserPromptSubmit"
  | .toolMapping => "PreToolUse"

def Hook.script : Hook → String
  | .session => SESSION_HOOK
  | .prompt => PROMPT_HOOK
  | .toolMapping => TOOL_MAPPING_HOOK

structure InstallArgs where
  hooksDir : String
  enablePromptAugment : Bool
  enableToolMapping : Bool

def InstallArgs.hooks (args : InstallArgs) : List Hook :=
  [.session] ++ (if args.enablePromptAugment then [.prompt] else []) ++
    (if args.enableToolMapping then [.toolMapping] else [])

inductive Command
  | install (args : InstallArgs)
  | uninstall (hooksDir : String)

structure State where
  settings : Option (List Char)
  /-- The hook scripts that exist. -/
  scripts : List String

section Commands

variable (paths : Paths) (js : Numbers)

def mergePlan (hooksDir : String) (hook : Hook) : MergePlan where
  event := hook.event
  command := paths.join hooksDir hook.script
  matcher := some "*"
  timeout := none
  own := by cases hook <;> decide

/-- The scripts are copied before the settings are read. -/
def runInstall (args : InstallArgs) (s : State) : State :=
  let copied := { s with
    scripts := s.scripts ∪ args.hooks.map fun hook => paths.join args.hooksDir hook.script }
  match readSettingsFile js s.settings with
  | none => copied
  | some before =>
    match mergeHooks before (args.hooks.map (mergePlan paths args.hooksDir)) with
    | .error _ => copied
    | .ok after => { copied with settings := some (writeSettingsFile js after) }

def runUninstall (hooksDir : String) (s : State) : State :=
  match readSettingsFile js s.settings with
  | none => s
  | some before =>
    { settings := some (writeSettingsFile js (removeHooks before managedEvents))
      scripts := s.scripts.filter fun p => p ∉ hookScripts.map (paths.join hooksDir) }

def runCommand (s : State) : Command → State
  | .install args => runInstall paths js args s
  | .uninstall hooksDir => runUninstall paths js hooksDir s

end Commands

/-! ## What is written is read back -/

section Valid

variable {js : Numbers}

/-- A record that can be written and read back. -/
def ValidDict (js : Numbers) (d : Dict Json) : Prop :=
  (d.map Prod.fst).Nodup ∧ ∀ e ∈ d, Valid js e.2

theorem valid_object {d : Dict Json} : Valid js (.object d) ↔ ValidDict js d := by
  rw [Valid, validFields_iff, ValidDict]

theorem valid_array {items : List Json} : Valid js (.array items) ↔ ∀ e ∈ items, Valid js e := by
  rw [Valid, validItems_iff]

theorem ValidDict.nil : ValidDict js [] := ⟨List.nodup_nil, by simp⟩

theorem ValidDict.get {d : Dict Json} (h : ValidDict js d) {key : String} {value : Json}
    (hvalue : d.get? key = some value) : Valid js value := h.2 _ (Dict.mem_of_get? hvalue)

theorem ValidDict.set {d : Dict Json} (h : ValidDict js d) (key : String) {value : Json}
    (hvalue : Valid js value) : ValidDict js (d.set key value) := by
  refine ⟨Dict.nodup_set h.1 _ _, fun e he => ?_⟩
  rcases Dict.mem_set he with ⟨hmem, -⟩ | rfl
  · exact h.2 e hmem
  · exact hvalue

theorem trim_ne_nil {c : Char} (hc : JsString.isSpace c = false) (cs : List Char) :
    JsString.trim (c :: cs) ≠ [] := by
  intro h
  rw [JsString.trim, List.dropWhile_cons_of_neg (by simp [hc]), List.rdropWhile_eq_nil_iff] at h
  exact absurd (h c List.mem_cons_self) (by simp [hc])

theorem read_write {settings : Dict Json} (h : ValidDict js settings) :
    readSettingsFile js (some (writeSettingsFile js settings)) = some settings := by
  have hparse : parse js (writeSettingsFile js settings) = some (.object settings) :=
    parse_write (indented 2) (valid_object.mpr h) [] ['\n'] (by simp) (by simp [isSpace])
  have htrim : JsString.trim (writeSettingsFile js settings) ≠ [] := by
    have hhead : ∃ rest, writeSettingsFile js settings = '\x7b' :: rest := by
      rw [writeSettingsFile, stringify, write, enclose]
      split_ifs <;> exact ⟨_, rfl⟩
    obtain ⟨rest, hrest⟩ := hhead
    rw [hrest]
    exact trim_ne_nil (by decide) rest
  rw [readSettingsFile, if_neg htrim, hparse]

theorem toString_injective : Function.Injective fun n : ℕ => toString n := by
  intro n m h
  have hn : ∀ k : ℕ, Nat.ofDigitChars 10 (toString k).toList 0 = k := fun k => by
    change Nat.ofDigitChars 10 (Nat.repr k).toList 0 = k
    rw [Nat.toList_repr, Nat.ofDigitChars_ten_toDigits]
  have htext : toString n = toString m := h
  rw [← hn n, htext, hn]

theorem valid_spreadFields {value : Json} (h : Valid js value) :
    ValidDict js (spreadFields value) := by
  have hkeys : ∀ {α : Type} (f : α → Json) (xs : List α), (∀ x ∈ xs, Valid js (f x)) →
      ValidDict js (xs.zipIdx.map fun p => (toString p.2, f p.1)) := by
    intro α f xs hxs
    constructor
    · rw [List.map_map]
      have hcomp : (Prod.fst ∘ fun p : α × ℕ => (toString p.2, f p.1)) =
          (fun n : ℕ => toString n) ∘ Prod.snd := rfl
      rw [hcomp, ← List.map_map, List.zipIdx_map_snd]
      exact List.Nodup.map toString_injective List.nodup_range'
    · intro e he
      obtain ⟨p, hp, rfl⟩ := List.mem_map.mp he
      exact hxs p.1 (List.fst_mem_of_mem_zipIdx hp)
  cases value with
  | object fields => exact valid_object.mp h
  | array items => exact hkeys id items (valid_array.mp h)
  | string text => exact hkeys (fun c => .string c.toString) text.toList fun _ _ => by simp [Valid]
  | _ => exact ValidDict.nil

theorem ValidDict.hooksOf {settings : Dict Json} (h : ValidDict js settings) :
    ValidDict js (hooksOf settings) := by
  unfold HookConfig.hooksOf
  cases hvalue : settings.get? "hooks" with
  | none => exact ValidDict.nil
  | some value => exact valid_spreadFields (h.get hvalue)

theorem valid_hookEntry {plan : MergePlan} (hplan : plan.timeout = none) {hooks : List Json}
    (h : ∀ x ∈ hooks, Valid js x) : Valid js (hookEntry plan (hooks ++ [newHook plan])) := by
  have hnew : Valid js (newHook plan) := by
    simp [newHook, hplan, Valid, ValidFields]
  have hall : Valid js (.array (hooks ++ [newHook plan])) := by
    rw [valid_array]
    intro x hx
    rcases List.mem_append.mp hx with hx | hx
    · exact h x hx
    · rwa [List.mem_singleton.mp hx]
  simp [hookEntry, Valid, ValidFields] at hall ⊢
  exact hall

theorem valid_commandsOf {e : Json} (h : Valid js e) :
    ∀ x ∈ (commandsOf e).getD [], Valid js x := by
  intro x hx
  cases e with
  | object fields =>
    rw [commandsOf] at hx
    split at hx
    · rename_i hooks hhooks
      exact valid_array.mp ((valid_object.mp h).get hhooks) x hx
    · cases hx
  | _ => cases hx

theorem valid_extend {plan : MergePlan} (hplan : plan.timeout = none) {list : List Json}
    (h : ∀ e ∈ list, Valid js e) : ∀ e ∈ extend plan list, Valid js e := by
  induction list with
  | nil =>
    intro e he
    rw [extend, List.mem_singleton] at he
    rw [he]
    have hnew : Valid js (hookEntry plan ([] ++ [newHook plan])) := valid_hookEntry hplan (by simp)
    exact hnew
  | cons first list ih =>
    rw [List.forall_mem_cons] at h
    rw [extend]
    split_ifs
    · exact List.forall_mem_cons.mpr ⟨h.1, h.2⟩
    · exact List.forall_mem_cons.mpr ⟨valid_hookEntry hplan (valid_commandsOf h.1), h.2⟩
    · exact List.forall_mem_cons.mpr ⟨h.1, ih h.2⟩

theorem valid_itemsAt {hooks : Dict Json} (h : ValidDict js hooks) (event : String) :
    ∀ e ∈ itemsAt hooks event, Valid js e := by
  intro e he
  rw [itemsAt] at he
  cases hvalue : hooks.get? event with
  | none =>
    rw [hvalue] at he
    cases he
  | some value =>
    rw [hvalue] at he
    cases value with
    | array items => exact valid_array.mp (h.get hvalue) e he
    | string text =>
      obtain ⟨c, -, rfl⟩ := List.mem_map.mp (show e ∈ text.toList.map _ from he)
      simp [Valid]
    | _ => cases he

theorem ValidDict.foldl_mergeStep {hooks : Dict Json} (h : ValidDict js hooks)
    {plans : List MergePlan} (hplans : ∀ plan ∈ plans, plan.timeout = none) :
    ValidDict js (plans.foldl mergeStep hooks) := by
  induction plans generalizing hooks with
  | nil => exact h
  | cons plan plans ih =>
    rw [List.forall_mem_cons] at hplans
    refine ih (h.set _ ?_) hplans.2
    exact valid_array.mpr (valid_extend hplans.1 (valid_itemsAt h _))

theorem valid_cleanEntry {e r : Json} (h : Valid js e) (hr : cleanEntry e = some r) :
    Valid js r := by
  obtain ⟨fields, hooks, rfl, hhooks, -, rfl⟩ := cleanEntry_some hr
  have hdict := valid_object.mp h
  have hkept : Valid js (.array (hooks.filter fun h => !isOwned h)) :=
    valid_array.mpr fun x hx => valid_array.mp (hdict.get hhooks) x (List.mem_of_mem_filter hx)
  rw [rebuilt, rebuiltFields, valid_object]
  cases hmatcher : Dict.get? fields "matcher" with
  | none => exact ⟨by simp, by simpa using hkept⟩
  | some m => exact ⟨by simp, by simpa using ⟨hdict.get hmatcher, hkept⟩⟩

theorem ValidDict.foldl_cleanEvent {hooks : Dict Json} (h : ValidDict js hooks)
    (events : List String) : ValidDict js (events.foldl cleanEvent hooks) := by
  induction events generalizing hooks with
  | nil => exact h
  | cons event events ih =>
    refine ih ?_
    rw [cleanEvent]
    split
    · rename_i list hlist
      refine h.set _ (valid_array.mpr fun r hr => ?_)
      obtain ⟨e, he, hclean⟩ := List.mem_filterMap.mp hr
      exact valid_cleanEntry (valid_array.mp (h.get hlist) e he) hclean
    · exact h

end Valid

/-! ## The commands of the operator -/

def matcherOf : Json → Option Json
  | .object fields => Dict.get? fields "matcher"
  | _ => none

/-- The commands of an entry that are not Atrium's, each with the matcher. -/
def foreignOf (e : Json) : List (Option Json × Json) :=
  (((commandsOf e).getD []).filter fun h => !isOwned h).map fun h => (matcherOf e, h)

def foreign (hooks : Dict Json) (event : String) : List (Option Json × Json) :=
  (entriesAt hooks event).flatMap foreignOf

theorem foreign_eq (hooks : Dict Json) (event : String) :
    foreign hooks event = (itemsAt hooks event).flatMap foreignOf := by
  rw [foreign, entriesAt, itemsAt]
  cases hooks.get? event with
  | none => rfl
  | some value =>
    cases value with
    | string text =>
      refine (List.flatMap_eq_nil_iff.mpr fun e he => ?_).symm
      obtain ⟨c, -, rfl⟩ := List.mem_map.mp (show e ∈ text.toList.map _ from he)
      rfl
    | _ => rfl

theorem foreignOf_hookEntry {plan : MergePlan} (howned : isOwned (newHook plan) = true)
    (hooks : List Json) : foreignOf (hookEntry plan (hooks ++ [newHook plan])) =
      (hooks.filter fun h => !isOwned h).map fun h => (some (.string plan.matcherText), h) := by
  have hcommands : commandsOf (hookEntry plan (hooks ++ [newHook plan])) =
      some (hooks ++ [newHook plan]) := rfl
  rw [foreignOf, hcommands, Option.getD_some, List.filter_append,
    List.filter_singleton, howned, Bool.not_true, cond_false, List.append_nil]
  rfl

theorem matcherOf_of_hasMatcher {matcher : String} {e : Json} (h : hasMatcher matcher e = true) :
    matcherOf e = some (.string matcher) := by
  cases e with
  | object fields =>
    rw [hasMatcher, beq_iff_eq] at h
    exact h
  | _ => cases h

/-- A merge adds none and takes none away. -/
theorem foreign_extend {plan : MergePlan} (howned : isOwned (newHook plan) = true)
    (list : List Json) : (extend plan list).flatMap foreignOf = list.flatMap foreignOf := by
  induction list with
  | nil => rw [extend, List.flatMap_singleton, ← List.nil_append [newHook plan],
      foreignOf_hookEntry howned, List.filter_nil, List.map_nil, List.flatMap_nil]
  | cons e list ih =>
    rw [extend]
    split_ifs with hmatch hholds
    · rfl
    · rw [List.flatMap_cons, List.flatMap_cons, foreignOf_hookEntry howned, foreignOf,
        matcherOf_of_hasMatcher hmatch]
    · rw [List.flatMap_cons, List.flatMap_cons, ih]

theorem foreign_foldl_mergeStep {plans : List MergePlan}
    (howned : ∀ plan ∈ plans, isOwned (newHook plan) = true) (hooks : Dict Json) (event : String) :
    foreign (plans.foldl mergeStep hooks) event = foreign hooks event := by
  induction plans generalizing hooks with
  | nil => rfl
  | cons plan plans ih =>
    rw [List.forall_mem_cons] at howned
    rw [List.foldl_cons, ih howned.2, foreign_eq, foreign_eq, itemsAt_mergeStep]
    split_ifs
    · exact foreign_extend howned.1 _
    · rfl

theorem foreignOf_rebuilt (fields : Dict Json) {hooks : List Json}
    (h : Dict.get? fields "hooks" = some (.array hooks)) :
    foreignOf (rebuilt fields (hooks.filter fun h => !isOwned h)) = foreignOf (.object fields) := by
  have hcommands : commandsOf (.object fields) = some hooks := by rw [commandsOf, h]
  have hmatcher : matcherOf (rebuilt fields (hooks.filter fun h => !isOwned h)) =
      Dict.get? fields "matcher" := get?_matcher_rebuiltFields _ _
  rw [foreignOf, commandsOf_rebuilt, foreignOf, hcommands, Option.getD_some, Option.getD_some,
    List.filter_filter, hmatcher]
  simp only [Bool.and_self, matcherOf]

theorem foreignOf_dropped {e : Json} (h : cleanEntry e = none) : foreignOf e = [] := by
  cases e with
  | object fields =>
    rw [foreignOf, commandsOf]
    cases hhooks : Dict.get? fields "hooks" with
    | none => rfl
    | some value =>
      cases value with
      | array hooks =>
        rw [cleanEntry_object hhooks] at h
        split_ifs at h with hempty
        simp only [Option.getD_some, hempty, List.map_nil]
      | _ => rfl
  | _ => rfl

/-- A removal leaves all of them. -/
theorem foreign_filterMap (list : List Json) :
    (list.filterMap cleanEntry).flatMap foreignOf = list.flatMap foreignOf := by
  induction list with
  | nil => rfl
  | cons e list ih =>
    rw [List.filterMap_cons, List.flatMap_cons]
    cases hclean : cleanEntry e with
    | none =>
      simp only
      rw [ih, foreignOf_dropped hclean, List.nil_append]
    | some r =>
      obtain ⟨fields, hooks, rfl, hhooks, -, rfl⟩ := cleanEntry_some hclean
      simp only
      rw [List.flatMap_cons, ih, foreignOf_rebuilt fields hhooks]

theorem entriesAt_cleanValue {before after : Dict Json} {event : String}
    (h : after.get? event = cleanValue (before.get? event)) :
    entriesAt after event = (entriesAt before event).filterMap cleanEntry := by
  rw [entriesAt, entriesAt, h]
  cases before.get? event with
  | none => rfl
  | some value => cases value <;> rfl

/-! ## What the commands keep -/

/-- The settings that are not about Atrium. -/
structure Kept (before after : Dict Json) : Prop where
  keys : ∀ key, key ≠ "hooks" → after.get? key = before.get? key
  events : ∀ event, event ∉ managedEvents →
    (hooksOf after).get? event = (hooksOf before).get? event
  foreign : ∀ event ∈ managedEvents, foreign (hooksOf after) event = foreign (hooksOf before) event

theorem Kept.refl (d : Dict Json) : Kept d d :=
  ⟨fun _ _ => rfl, fun _ _ => rfl, fun _ _ => rfl⟩

theorem Kept.trans {a b c : Dict Json} (hab : Kept a b) (hbc : Kept b c) : Kept a c where
  keys := fun key h => (hbc.keys key h).trans (hab.keys key h)
  events := fun event h => (hbc.events event h).trans (hab.events event h)
  foreign := fun event h => (hbc.foreign event h).trans (hab.foreign event h)

section Runs

variable {paths : Paths} {js : Numbers}

theorem Hook.event_mem (hook : Hook) : hook.event ∈ managedEvents := by cases hook <;> decide

theorem Hook.script_mem (hook : Hook) : hook.script ∈ hookScripts := by cases hook <;> decide

/-- The paths of the scripts bear Atrium's mark. -/
theorem owned_mergePlan (hooksDir : String) (hook : Hook) :
    isOwned (newHook (mergePlan paths hooksDir hook)) = true := by
  refine isOwned_newHook ?_
  have hmark : ∀ name ∈ hookScripts, ATRIUM_MARKER.toList <:+: name.toList := by decide
  exact (hmark _ hook.script_mem).trans (paths.join_name hooksDir _ hook.script_mem).isInfix

theorem kept_mergeHooks {before after : Dict Json} {args : InstallArgs}
    (h : mergeHooks before (args.hooks.map (mergePlan paths args.hooksDir)) = .ok after) :
    Kept before after ∧ (ValidDict js before → ValidDict js after) := by
  rw [mergeHooks, foldlM_mergePlan] at h
  split_ifs at h with hreadable
  · obtain rfl := Except.ok.inj h
    have hplans : ∀ plan ∈ args.hooks.map (mergePlan paths args.hooksDir),
        isOwned (newHook plan) = true ∧ plan.event ∈ managedEvents ∧ plan.timeout = none := by
      intro plan hplan
      obtain ⟨hook, -, rfl⟩ := List.mem_map.mp hplan
      exact ⟨owned_mergePlan _ hook, hook.event_mem, rfl⟩
    refine ⟨⟨fun key hkey => ?_, fun event hevent => ?_, fun event _ => ?_⟩, fun hvalid => ?_⟩
    · rw [Dict.get?_set, if_neg hkey]
    · rw [hooksOf_set]
      refine foldl_mergeStep_other fun plan hplan heq => hevent ?_
      rw [← heq]
      exact (hplans plan hplan).2.1
    · rw [hooksOf_set]
      exact foreign_foldl_mergeStep (fun plan hplan => (hplans plan hplan).1) _ _
    · refine hvalid.set _ (valid_object.mpr ?_)
      exact hvalid.hooksOf.foldl_mergeStep fun plan hplan => (hplans plan hplan).2.2
  · cases h

theorem kept_removeHooks (before : Dict Json) :
    Kept before (removeHooks before managedEvents) := by
  refine ⟨fun key hkey => removeHooks_other before managedEvents hkey, fun event hevent => ?_,
    fun event hevent => ?_⟩
  · rw [get?_hooksOf_removeHooks, if_neg hevent]
  · have hvalue := get?_hooksOf_removeHooks before managedEvents event
    rw [if_pos hevent] at hvalue
    rw [HookSettings.foreign, entriesAt_cleanValue hvalue, foreign_filterMap]
    rfl

theorem valid_removeHooks {before : Dict Json} (h : ValidDict js before) :
    ValidDict js (removeHooks before managedEvents) := by
  rw [removeHooks]
  split
  · exact h
  · rename_i value hvalue
    split_ifs
    · refine h.set _ (valid_object.mpr ?_)
      exact (valid_spreadFields (h.get hvalue)).foldl_cleanEvent _
    · exact h

variable (paths js) in
/-- One command: a file that cannot be read stays as it is, another is read back. -/
theorem command_settings (s : State) (command : Command) :
    (readSettingsFile js s.settings = none →
      (runCommand paths js s command).settings = s.settings) ∧
    ∀ before, readSettingsFile js s.settings = some before → ValidDict js before →
      ∃ after, readSettingsFile js (runCommand paths js s command).settings = some after ∧
        ValidDict js after ∧ Kept before after := by
  cases command with
  | install args =>
    rw [runCommand, runInstall]
    constructor
    · intro hnone
      simp only [hnone]
    · intro before hread hvalid
      simp only [hread]
      cases hmerge : mergeHooks before (args.hooks.map (mergePlan paths args.hooksDir)) with
      | error message => exact ⟨before, hread, hvalid, Kept.refl before⟩
      | ok after =>
        obtain ⟨hkept, hafter⟩ := kept_mergeHooks hmerge
        exact ⟨after, read_write (hafter hvalid), hafter hvalid, hkept⟩
  | uninstall hooksDir =>
    rw [runCommand, runUninstall]
    constructor
    · intro hnone
      simp only [hnone]
    · intro before hread hvalid
      simp only [hread]
      exact ⟨_, read_write (valid_removeHooks hvalid), valid_removeHooks hvalid,
        kept_removeHooks before⟩

variable (paths js) in
theorem run_settings (commands : List Command) (s : State) :
    (readSettingsFile js s.settings = none →
      (commands.foldl (runCommand paths js) s).settings = s.settings) ∧
    ∀ before, readSettingsFile js s.settings = some before → ValidDict js before →
      ∃ after, readSettingsFile js (commands.foldl (runCommand paths js) s).settings = some after ∧
        ValidDict js after ∧ Kept before after := by
  induction commands generalizing s with
  | nil => exact ⟨fun _ => rfl, fun before hread hvalid => ⟨before, hread, hvalid, Kept.refl before⟩⟩
  | cons command commands ih =>
    obtain ⟨hunread, hread⟩ := command_settings paths js s command
    obtain ⟨ihunread, ihread⟩ := ih (runCommand paths js s command)
    constructor
    · intro hnone
      have hsame := hunread hnone
      rw [← hsame] at hnone
      exact (ihunread hnone).trans hsame
    · intro before hbefore hvalid
      obtain ⟨middle, hmiddle, hmiddleValid, hfirst⟩ := hread before hbefore hvalid
      obtain ⟨after, hafter, hafterValid, hrest⟩ := ihread middle hmiddle hmiddleValid
      exact ⟨after, hafter, hafterValid, hfirst.trans hrest⟩

/-- Nothing of Atrium's is left at the events that an uninstall looks at. -/
theorem isForeign_removeHooks {settings : Dict Json} {event : String} (h : event ∈ managedEvents) :
    ∀ e ∈ entriesAt (hooksOf (removeHooks settings managedEvents)) event, isForeign e = true := by
  have hvalue := get?_hooksOf_removeHooks settings managedEvents event
  rw [if_pos h] at hvalue
  rw [entriesAt_cleanValue hvalue]
  intro r hr
  obtain ⟨e, -, hclean⟩ := List.mem_filterMap.mp hr
  obtain ⟨fields, hooks, -, -, -, rfl⟩ := cleanEntry_some hclean
  exact isForeign_rebuilt fields hooks

end Runs

end HookSettings
end Batiste
