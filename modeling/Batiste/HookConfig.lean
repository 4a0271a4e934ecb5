import Batiste.Json

/-! The merge of Atrium's hooks into the settings of Claude Code, and their removal. -/
namespace Batiste
namespace HookConfig

/-! ## Settings -/

def ATRIUM_MARKER : String := "atrium-"

/-- The names of what every plain object inherits. -/
def inheritedNames : List String :=
  ["__proto__", "__defineGetter__", "__defineSetter__", "__lookupGetter__", "__lookupSetter__",
    "constructor", "hasOwnProperty", "isPrototypeOf", "propertyIsEnumerable", "toLocaleString",
    "toString", "valueOf"]

/-- A command for an event of Claude Code. -/
structure MergePlan where
  event : String
  command : String
  matcher : Option String
  timeout : Option ℚ
  own : event ∉ inheritedNames

/-- `plan.matcher ?? '*'` -/
def MergePlan.matcherText (plan : MergePlan) : String := plan.matcher.getD "*"

/-- `{ ...value }` -/
def spreadFields : Json → Dict Json
  | .object fields => fields
  | .array items => items.zipIdx.map fun p => (toString p.2, p.1)
  | .string text => text.toList.zipIdx.map fun p => (toString p.2, .string p.1.toString)
  | _ => []

/-- `[...(value ?? [])]` -/
def spreadItems : Option Json → Except String (List Json)
  | none => .ok []
  | some .null => .ok []
  | some (.array items) => .ok items
  | some (.string text) => .ok (text.toList.map fun c => .string c.toString)
  | some _ => .error "TypeError"

/-- `{ ...(settings.hooks ?? {}) }` -/
def hooksOf (settings : Dict Json) : Dict Json :=
  (settings.get? "hooks").elim [] spreadFields

/-- `value[key]` -/
def property (value : Json) (key : String) : Except String (Option Json) :=
  match value with
  | .null => .error "TypeError"
  | .object fields => .ok (Dict.get? fields key)
  | _ => .ok none

/-! ## The merge -/

/-- `list.findIndex((e) => e.matcher === matcher)` -/
def findMatcher (matcher : String) : List Json → Except String (Option ℕ)
  | [] => .ok none
  | e :: list =>
    match property e "matcher" with
    | .error message => .error message
    | .ok value =>
      if value = some (.string matcher) then .ok (some 0)
      else (findMatcher matcher list).map fun found => found.map Nat.succ

/-- `hooks.some((h) => h.command === command)` -/
def someCommand (command : String) : List Json → Except String Bool
  | [] => .ok false
  | h :: hooks =>
    match property h "command" with
    | .error message => .error message
    | .ok value => if value = some (.string command) then .ok true else someCommand command hooks

def newHook (plan : MergePlan) : Json :=
  .object ([("type", .string "command"), ("command", .string plan.command)] ++
    plan.timeout.toList.map fun ms => ("timeout", .number ms))

def hookEntry (plan : MergePlan) (hooks : List Json) : Json :=
  .object [("matcher", .string plan.matcherText), ("hooks", .array hooks)]

/-- The entries of an event with the command of a plan. -/
def mergeList (plan : MergePlan) (list : List Json) : Except String (List Json) :=
  match findMatcher plan.matcherText list with
  | .error message => .error message
  | .ok none => .ok (list ++ [hookEntry plan [newHook plan]])
  | .ok (some existingIdx) =>
    match property (list.getD existingIdx .null) "hooks" with
    | .ok (some (.array hooks)) =>
      match someCommand plan.command hooks with
      | .error message => .error message
      | .ok true => .ok list
      | .ok false => .ok (list.set existingIdx (hookEntry plan (hooks ++ [newHook plan])))
    | .ok _ => .error "TypeError"
    | .error message => .error message

def mergePlan (hooks : Dict Json) (plan : MergePlan) : Except String (Dict Json) := do
  let list ← spreadItems (hooks.get? plan.event)
  let list ← mergeList plan list
  return hooks.set plan.event (.array list)

def mergeHooks (settings : Dict Json) (plans : List MergePlan) : Except String (Dict Json) := do
  let hooks ← plans.foldlM mergePlan (hooksOf settings)
  return settings.set "hooks" (.object hooks)

/-! ## The removal -/

/-- `typeof h?.command === 'string' && h.command.includes(marker)` -/
def isOwned : Json → Bool
  | .object fields =>
    match Dict.get? fields "command" with
    | some (.string command) => decide (ATRIUM_MARKER.toList <:+: command.toList)
    | _ => false
  | _ => false

/-- What is left of an entry; one without a list of commands, or without any command left, is
dropped. -/
def cleanEntry : Json → Option Json
  | .object fields =>
    match Dict.get? fields "hooks" with
    | some (.array hooks) =>
      let remainingCommands := hooks.filter fun h => !isOwned h
      if remainingCommands = [] then none
      else some (.object (((Dict.get? fields "matcher").toList.map fun m => ("matcher", m)) ++
        [("hooks", .array remainingCommands)]))
    | _ => none
  | _ => none

def cleanEvent (hooks : Dict Json) (event : String) : Dict Json :=
  match hooks.get? event with
  | some (.array list) => hooks.set event (.array (list.filterMap cleanEntry))
  | _ => hooks

def removeHooks (settings : Dict Json) (events : List String) : Dict Json :=
  match settings.get? "hooks" with
  | none => settings
  | some hooks =>
    if hooks.truthy then
      settings.set "hooks" (.object (events.foldl cleanEvent (spreadFields hooks)))
    else settings

/-! ## The merge of one list -/

def hasMatcher (matcher : String) : Json → Bool
  | .object fields => Dict.get? fields "matcher" == some (.string matcher)
  | _ => false

def hasCommand (command : String) : Json → Bool
  | .object fields => Dict.get? fields "command" == some (.string command)
  | _ => false

/-- The commands of an entry that has a list of them. -/
def commandsOf : Json → Option (List Json)
  | .object fields =>
    match Dict.get? fields "hooks" with
    | some (.array hooks) => some hooks
    | _ => none
  | _ => none

/-- No `null` stands before the command. -/
def readableCommands (command : String) : List Json → Bool
  | [] => true
  | h :: hooks => hasCommand command h || (h != .null && readableCommands command hooks)

/-- No `null` stands before the first entry with the matcher, and its commands can be read. -/
def readable (plan : MergePlan) : List Json → Bool
  | [] => true
  | e :: list =>
    if hasMatcher plan.matcherText e then (commandsOf e).any (readableCommands plan.command)
    else e != .null && readable plan list

def holds (plan : MergePlan) (e : Json) : Bool :=
  ((commandsOf e).getD []).any (hasCommand plan.command)

/-- The first entry with the matcher gets the command unless it has it; where no entry has the
matcher a new one is added. -/
def extend (plan : MergePlan) : List Json → List Json
  | [] => [hookEntry plan [newHook plan]]
  | e :: list =>
    if hasMatcher plan.matcherText e then
      (if holds plan e then e else hookEntry plan ((commandsOf e).getD [] ++ [newHook plan])) :: list
    else e :: extend plan list

section List

variable {plan : MergePlan}

theorem property_matcher {e : Json} (h : e ≠ .null) (matcher : String) :
    ∃ value, property e "matcher" = .ok value ∧
      (value = some (.string matcher) ↔ hasMatcher matcher e = true) := by
  cases e with
  | null => exact absurd rfl h
  | object fields => exact ⟨_, rfl, by rw [hasMatcher, beq_iff_eq]⟩
  | _ => exact ⟨none, rfl, by simp [hasMatcher]⟩

theorem property_command {e : Json} (h : e ≠ .null) (command : String) :
    ∃ value, property e "command" = .ok value ∧
      (value = some (.string command) ↔ hasCommand command e = true) := by
  cases e with
  | null => exact absurd rfl h
  | object fields => exact ⟨_, rfl, by rw [hasCommand, beq_iff_eq]⟩
  | _ => exact ⟨none, rfl, by simp [hasCommand]⟩

theorem someCommand_eq (command : String) (hooks : List Json) : someCommand command hooks =
    if readableCommands command hooks then .ok (hooks.any (hasCommand command))
    else .error "TypeError" := by
  induction hooks with
  | nil => rfl
  | cons h hooks ih =>
    by_cases hnull : h = .null
    · subst hnull
      rfl
    · obtain ⟨value, hvalue, hhas⟩ := property_command hnull command
      rw [someCommand, hvalue]
      dsimp only
      by_cases hfound : hasCommand command h = true
      · rw [if_pos (hhas.mpr hfound)]
        simp [readableCommands, hfound]
      · rw [if_neg (mt hhas.mp hfound), ih]
        simp [readableCommands, hfound, hnull]

theorem mergeList_null (list : List Json) :
    mergeList plan (.null :: list) = .error "TypeError" := rfl

/-- An entry with another matcher is passed over. -/
theorem mergeList_skip {e : Json} (hnull : e ≠ .null)
    (hother : hasMatcher plan.matcherText e = false) (list : List Json) :
    mergeList plan (e :: list) = (mergeList plan list).map (e :: ·) := by
  obtain ⟨value, hvalue, hhas⟩ := property_matcher hnull plan.matcherText
  have hfind : findMatcher plan.matcherText (e :: list) =
      (findMatcher plan.matcherText list).map fun found => found.map Nat.succ := by
    rw [findMatcher, hvalue]
    exact if_neg (mt hhas.mp (by simp [hother]))
  rw [mergeList, mergeList, hfind]
  cases findMatcher plan.matcherText list with
  | error message => rfl
  | ok found =>
    cases found with
    | none => rfl
    | some i =>
      simp only [Except.map, Option.map_some, Nat.succ_eq_add_one, List.getD_cons_succ,
        List.set_cons_succ]
      split <;> try rfl
      split <;> rfl

theorem mergeList_match {e : Json} (hmatch : hasMatcher plan.matcherText e = true)
    (list : List Json) : mergeList plan (e :: list) =
      if (commandsOf e).any (readableCommands plan.command) then .ok (extend plan (e :: list))
      else .error "TypeError" := by
  have hnull : e ≠ .null := by
    rintro rfl
    cases hmatch
  obtain ⟨value, hvalue, hhas⟩ := property_matcher hnull plan.matcherText
  have hfind : findMatcher plan.matcherText (e :: list) = .ok (some 0) := by
    rw [findMatcher, hvalue]
    exact if_pos (hhas.mpr hmatch)
  cases e with
  | object fields =>
    have hmerge : mergeList plan (.object fields :: list) =
        match Dict.get? fields "hooks" with
        | some (.array hooks) =>
          match someCommand plan.command hooks with
          | .error message => .error message
          | .ok true => .ok (.object fields :: list)
          | .ok false => .ok (hookEntry plan (hooks ++ [newHook plan]) :: list)
        | _ => .error "TypeError" := by
      rw [mergeList, hfind]
      simp only [List.getD_cons_zero, property, List.set_cons_zero]
      cases Dict.get? fields "hooks" with
      | none => rfl
      | some value => cases value <;> rfl
    rw [hmerge, extend, if_pos hmatch, holds, commandsOf]
    cases Dict.get? fields "hooks" with
    | none => rfl
    | some value =>
      cases value with
      | array hooks =>
        simp only [someCommand_eq, Option.any_some, Option.getD_some]
        cases readableCommands plan.command hooks with
        | false => rfl
        | true => cases hooks.any (hasCommand plan.command) <;> rfl
      | _ => rfl
  | _ => cases hmatch

/-- The merge of a list that can be read extends it. -/
theorem mergeList_eq (plan : MergePlan) (list : List Json) : mergeList plan list =
    if readable plan list then .ok (extend plan list) else .error "TypeError" := by
  induction list with
  | nil => rfl
  | cons e list ih =>
    cases hmatch : hasMatcher plan.matcherText e with
    | true =>
      rw [mergeList_match hmatch, readable, if_pos hmatch]
    | false =>
      rw [readable, extend, hmatch]
      by_cases hnull : e = .null
      · rw [hnull, mergeList_null]
        rfl
      · rw [mergeList_skip hnull hmatch, ih]
        cases readable plan list <;> simp [hnull, Except.map]

@[simp] theorem hasMatcher_hookEntry (matcher : String) (hooks : List Json) :
    hasMatcher matcher (hookEntry plan hooks) = (plan.matcherText == matcher) := by
  simp [hasMatcher, hookEntry, Dict.get?_cons]

@[simp] theorem commandsOf_hookEntry (hooks : List Json) :
    commandsOf (hookEntry plan hooks) = some hooks := by
  simp [commandsOf, hookEntry, Dict.get?_cons]

@[simp] theorem hasCommand_newHook (command : String) :
    hasCommand command (newHook plan) = (plan.command == command) := by
  simp [hasCommand, newHook, Dict.get?_cons]

theorem hookEntry_ne_null (hooks : List Json) : hookEntry plan hooks ≠ .null := by
  simp [hookEntry]

theorem newHook_ne_null : newHook plan ≠ .null := by
  simp [newHook]

/-- Where a command was looked for in vain there was no `null`. -/
theorem forall_ne_null {command : String} {hooks : List Json}
    (h : readableCommands command hooks = true) (hnot : hooks.any (hasCommand command) = false) :
    ∀ x ∈ hooks, x ≠ .null := by
  induction hooks with
  | nil => simp
  | cons x hooks ih =>
    rw [List.any_cons, Bool.or_eq_false_iff] at hnot
    rw [readableCommands, hnot.1, Bool.false_or, Bool.and_eq_true, bne_iff_ne] at h
    exact List.forall_mem_cons.mpr ⟨h.1, ih h.2 hnot.2⟩

theorem readableCommands_of_ne_null {hooks : List Json} (h : ∀ x ∈ hooks, x ≠ .null)
    (command : String) : readableCommands command hooks = true := by
  induction hooks with
  | nil => rfl
  | cons x hooks ih =>
    rw [List.forall_mem_cons] at h
    simp [readableCommands, h.1, ih h.2]

/-- An entry has one matcher. -/
theorem hasMatcher_eq {matcher : String} {e : Json} (h : hasMatcher matcher e = true)
    (other : String) : hasMatcher other e = (matcher == other) := by
  cases e with
  | object fields =>
    rw [hasMatcher, beq_iff_eq] at h
    rw [hasMatcher, h, Bool.eq_iff_iff]
    simp
  | _ => cases h

/-- A merge changes nothing for what another plan reads. -/
theorem readable_extend {list : List Json} (h : readable plan list = true) (other : MergePlan) :
    readable other (extend plan list) = readable other list := by
  induction list with
  | nil =>
    simp [extend, readable, hookEntry_ne_null, readableCommands, newHook_ne_null]
  | cons e list ih =>
    rw [readable] at h
    rw [extend]
    cases hmatch : hasMatcher plan.matcherText e with
    | false =>
      rw [hmatch, if_neg Bool.false_ne_true, Bool.and_eq_true] at h
      rw [if_neg Bool.false_ne_true, readable, readable, ih h.2]
    | true =>
      rw [hmatch, if_pos rfl] at h
      rw [if_pos rfl]
      cases hholds : holds plan e with
      | true => rw [if_pos rfl]
      | false =>
        obtain ⟨hooks, hhooks, hread⟩ := (Option.any_eq_true _ _).mp h
        rw [holds, hhooks, Option.getD_some] at hholds
        have hnull := forall_ne_null hread hholds
        have hnull' : ∀ x ∈ hooks ++ [newHook plan], x ≠ .null := by
          intro x hx
          rcases List.mem_append.mp hx with hold | hnew
          · exact hnull x hold
          · rw [List.mem_singleton.mp hnew]
            exact newHook_ne_null
        have hentry : e ≠ .null := by
          rintro rfl
          cases hmatch
        rw [if_neg Bool.false_ne_true, readable, readable, hasMatcher_hookEntry,
          commandsOf_hookEntry, hhooks, Option.getD_some, hasMatcher_eq hmatch,
          bne_iff_ne.mpr hentry, bne_iff_ne.mpr (hookEntry_ne_null _), Option.any_some,
          Option.any_some, readableCommands_of_ne_null hnull, readableCommands_of_ne_null hnull']

end List

/-! ## The merge of a whole -/

def itemsAt (hooks : Dict Json) (event : String) : List Json :=
  (spreadItems (hooks.get? event)).toOption.getD []

/-- The list of the event can be made and read. -/
def planReadable (hooks : Dict Json) (plan : MergePlan) : Bool :=
  (spreadItems (hooks.get? plan.event)).isOk && readable plan (itemsAt hooks plan.event)

def mergeStep (hooks : Dict Json) (plan : MergePlan) : Dict Json :=
  hooks.set plan.event (.array (extend plan (itemsAt hooks plan.event)))

@[simp] theorem itemsAt_mergeStep (hooks : Dict Json) (plan : MergePlan) (event : String) :
    itemsAt (mergeStep hooks plan) event =
      if event = plan.event then extend plan (itemsAt hooks event) else itemsAt hooks event := by
  rw [itemsAt, mergeStep, Dict.get?_set]
  split_ifs with h
  · rw [h]
    rfl
  · rfl

theorem mergePlan_eq (hooks : Dict Json) (plan : MergePlan) : mergePlan hooks plan =
    if planReadable hooks plan then .ok (mergeStep hooks plan) else .error "TypeError" := by
  unfold mergePlan planReadable mergeStep itemsAt
  cases hlist : spreadItems (hooks.get? plan.event) with
  | error message =>
    have hmessage : message = "TypeError" := by
      unfold spreadItems at hlist
      split at hlist <;> cases hlist
      rfl
    rw [hmessage]
    rfl
  | ok list =>
    simp only [bind, Except.bind, mergeList_eq, Except.isOk, Except.toBool, Bool.true_and,
      Except.toOption, Option.getD_some]
    cases readable plan list <;> rfl

theorem planReadable_mergeStep {hooks : Dict Json} {plan : MergePlan}
    (h : planReadable hooks plan = true) (other : MergePlan) :
    planReadable (mergeStep hooks plan) other = planReadable hooks other := by
  rw [planReadable, Bool.and_eq_true] at h
  rw [planReadable, planReadable, itemsAt_mergeStep, mergeStep, Dict.get?_set]
  split_ifs with hevent
  · rw [hevent, readable_extend h.2, h.1]
    rfl
  · rfl

/-- The plans are merged one after the other if each can be read in the settings as they were. -/
theorem foldlM_mergePlan (hooks : Dict Json) (plans : List MergePlan) :
    plans.foldlM mergePlan hooks =
      if plans.all (planReadable hooks) then .ok (plans.foldl mergeStep hooks)
      else .error "TypeError" := by
  induction plans generalizing hooks with
  | nil => rfl
  | cons plan plans ih =>
    rw [List.foldlM_cons, mergePlan_eq, List.all_cons]
    cases hplan : planReadable hooks plan with
    | false => rfl
    | true =>
      have hrest : plans.all (planReadable (mergeStep hooks plan)) =
          plans.all (planReadable hooks) := by
        congr 1
        funext other
        exact planReadable_mergeStep hplan other
      rw [if_pos rfl, Bool.true_and, ← hrest]
      exact ih (mergeStep hooks plan)

/-! ## Duplicates -/

/-- Some entry has the matcher and the command of a plan. -/
def present (plan : MergePlan) (list : List Json) : Bool :=
  list.any fun e => hasMatcher plan.matcherText e && holds plan e

/-- The first entry with the matcher has the command. -/
def firstHolds (plan : MergePlan) (list : List Json) : Bool :=
  (list.find? (hasMatcher plan.matcherText)).any (holds plan)

/-- Two plans for one command of one event. -/
def SameHook (p q : MergePlan) : Prop :=
  p.event = q.event ∧ p.matcherText = q.matcherText ∧ p.command = q.command

instance (p q : MergePlan) : Decidable (SameHook p q) :=
  inferInstanceAs (Decidable (_ ∧ _ ∧ _))

section Duplicates

variable {plan other : MergePlan} {list : List Json}

theorem SameHook.lists_eq (h : SameHook plan other) (list : List Json) :
    present plan list = present other list ∧ firstHolds plan list = firstHolds other list := by
  have hholds : holds plan = holds other := by
    funext e
    rw [holds, holds, h.2.2]
  rw [present, present, firstHolds, firstHolds, h.2.1, hholds]
  exact ⟨rfl, rfl⟩

theorem firstHolds_cons (e : Json) (list : List Json) : firstHolds plan (e :: list) =
    if hasMatcher plan.matcherText e then holds plan e else firstHolds plan list := by
  rw [firstHolds, List.find?_cons]
  cases hasMatcher plan.matcherText e <;> rfl

theorem present_cons (e : Json) (list : List Json) : present plan (e :: list) =
    ((hasMatcher plan.matcherText e && holds plan e) || present plan list) := rfl

@[simp] theorem holds_hookEntry (hooks : List Json) :
    holds other (hookEntry plan hooks) = hooks.any (hasCommand other.command) := by
  rw [holds, commandsOf_hookEntry, Option.getD_some]

theorem present_of_firstHolds (h : firstHolds plan list = true) : present plan list = true := by
  induction list with
  | nil => cases h
  | cons e list ih =>
    rw [firstHolds_cons] at h
    rw [present_cons]
    cases hmatch : hasMatcher plan.matcherText e with
    | true =>
      rw [hmatch, if_pos rfl] at h
      rw [h]
      rfl
    | false =>
      rw [hmatch, if_neg Bool.false_ne_true] at h
      rw [ih h, Bool.or_true]

theorem extend_of_firstHolds (h : firstHolds plan list = true) : extend plan list = list := by
  induction list with
  | nil => cases h
  | cons e list ih =>
    rw [firstHolds_cons] at h
    rw [extend]
    cases hmatch : hasMatcher plan.matcherText e with
    | true =>
      rw [hmatch, if_pos rfl] at h
      rw [if_pos rfl, h, if_pos rfl]
    | false =>
      rw [hmatch, if_neg Bool.false_ne_true] at h
      rw [if_neg Bool.false_ne_true, ih h]

theorem firstHolds_extend (hmatcher : plan.matcherText = other.matcherText)
    (hcommand : plan.command = other.command) (list : List Json) :
    firstHolds other (extend plan list) = true := by
  induction list with
  | nil => simp [extend, firstHolds_cons, hmatcher, hcommand]
  | cons e list ih =>
    rw [extend]
    cases hmatch : hasMatcher plan.matcherText e with
    | false =>
      rw [if_neg Bool.false_ne_true, firstHolds_cons, ← hmatcher, hmatch,
        if_neg Bool.false_ne_true]
      exact ih
    | true =>
      rw [if_pos rfl, firstHolds_cons]
      cases hholds : holds plan e with
      | true =>
        rw [if_pos rfl, ← hmatcher, hmatch, if_pos rfl, holds, ← hcommand]
        exact hholds
      | false => simp [hmatcher, hcommand]

/-- What the merge of another command says of a plan: nothing. -/
theorem extend_other
    (h : ¬ (plan.matcherText = other.matcherText ∧ plan.command = other.command))
    (list : List Json) :
    firstHolds other (extend plan list) = firstHolds other list ∧
      present other (extend plan list) = present other list := by
  induction list with
  | nil =>
    rw [extend, firstHolds_cons, present_cons, hasMatcher_hookEntry, holds_hookEntry]
    by_cases hmatcher : plan.matcherText = other.matcherText
    · have hcommand : plan.command ≠ other.command := fun heq => h ⟨hmatcher, heq⟩
      simp [hcommand, firstHolds, present]
    · simp [hmatcher, firstHolds, present]
  | cons e list ih =>
    rw [extend]
    cases hmatch : hasMatcher plan.matcherText e with
    | false =>
      rw [if_neg Bool.false_ne_true, firstHolds_cons, firstHolds_cons, present_cons, present_cons,
        ih.1, ih.2]
      exact ⟨rfl, rfl⟩
    | true =>
      cases hholds : holds plan e with
      | true => exact ⟨rfl, rfl⟩
      | false =>
        rw [if_pos rfl, if_neg Bool.false_ne_true, firstHolds_cons, firstHolds_cons, present_cons,
          present_cons, hasMatcher_hookEntry, hasMatcher_eq hmatch, holds_hookEntry]
        by_cases hmatcher : plan.matcherText = other.matcherText
        · have hcommand : plan.command ≠ other.command := fun heq => h ⟨hmatcher, heq⟩
          simp [hmatcher, beq_eq_false_iff_ne.mpr hcommand, holds]
        · simp [beq_eq_false_iff_ne.mpr hmatcher]

end Duplicates

/-- The event has a list, whose first entry with the matcher has the command. -/
def Merged (hooks : Dict Json) (plan : MergePlan) : Prop :=
  ∃ list, hooks.get? plan.event = some (.array list) ∧ firstHolds plan list = true

theorem merged_mergeStep (hooks : Dict Json) (plan : MergePlan) :
    Merged (mergeStep hooks plan) plan := by
  refine ⟨_, ?_, firstHolds_extend rfl rfl (itemsAt hooks plan.event)⟩
  rw [mergeStep, Dict.get?_set, if_pos rfl]

theorem Merged.step {hooks : Dict Json} {plan : MergePlan} (h : Merged hooks plan)
    (other : MergePlan) : Merged (mergeStep hooks other) plan := by
  obtain ⟨list, hlist, hfirst⟩ := h
  by_cases hevent : plan.event = other.event
  · have hitems : itemsAt hooks other.event = list := by
      rw [itemsAt, ← hevent, hlist]
      rfl
    refine ⟨extend other list, by rw [mergeStep, Dict.get?_set, if_pos hevent, hitems], ?_⟩
    by_cases hsame : other.matcherText = plan.matcherText ∧ other.command = plan.command
    · exact firstHolds_extend hsame.1 hsame.2 list
    · rw [(extend_other hsame list).1, hfirst]
  · exact ⟨list, by rw [mergeStep, Dict.get?_set, if_neg hevent, hlist], hfirst⟩

theorem Merged.foldl {hooks : Dict Json} {plan : MergePlan} (h : Merged hooks plan)
    (plans : List MergePlan) : Merged (plans.foldl mergeStep hooks) plan := by
  induction plans generalizing hooks with
  | nil => exact h
  | cons other plans ih => exact ih (h.step other)

theorem merged_of_mem {plans : List MergePlan} {plan : MergePlan} (h : plan ∈ plans)
    (hooks : Dict Json) : Merged (plans.foldl mergeStep hooks) plan := by
  induction plans generalizing hooks with
  | nil => exact absurd h List.not_mem_nil
  | cons other plans ih =>
    rcases List.mem_cons.mp h with rfl | hmem
    · exact (merged_mergeStep hooks plan).foldl plans
    · exact ih hmem (mergeStep hooks other)

theorem set_eq_self {d : Dict Json} {key : String} {value : Json}
    (hkey : key ∈ d.map Prod.fst) (h : ∀ e ∈ d, e.1 = key → e.2 = value) :
    d.set key value = d := by
  have hany : (d.any fun e => e.1 == key) = true := by
    simpa [List.any_eq_true, List.mem_map] using hkey
  rw [Dict.set, if_pos hany]
  refine (List.map_congr_left fun e he => ?_).trans (List.map_id d)
  split_ifs with heq
  · rw [← heq, ← h e he heq]
    rfl
  · rfl

theorem set_get_self {d : Dict Json} (hd : (d.map Prod.fst).Nodup) {key : String} {value : Json}
    (h : d.get? key = some value) : d.set key value = d := by
  have hmem := Dict.mem_of_get? h
  refine set_eq_self (List.mem_map_of_mem hmem) fun e he heq => ?_
  have hother : d.get? e.1 = some e.2 := Dict.get?_of_mem hd he
  rw [heq, h] at hother
  exact (Option.some.inj hother).symm

theorem Merged.mergeStep_eq {hooks : Dict Json} (hd : (hooks.map Prod.fst).Nodup)
    {plan : MergePlan} (h : Merged hooks plan) : mergeStep hooks plan = hooks := by
  obtain ⟨list, hlist, hfirst⟩ := h
  have hitems : itemsAt hooks plan.event = list := by
    rw [itemsAt, hlist]
    rfl
  rw [mergeStep, hitems, extend_of_firstHolds hfirst]
  exact set_get_self hd hlist

/-! ## Settings of the declared shape -/

def DeclaredHook (h : Json) : Prop :=
  ∃ fields command, h = .object fields ∧ Dict.get? fields "command" = some (.string command)

def DeclaredEntry (e : Json) : Prop :=
  ∃ fields matcher hooks, e = .object fields ∧
    Dict.get? fields "matcher" = some (.string matcher) ∧
    Dict.get? fields "hooks" = some (.array hooks) ∧ ∀ h ∈ hooks, DeclaredHook h

/-- Settings whose hooks, where there are any, are lists of entries by event. -/
structure ClaudeSettings where
  fields : Dict Json
  declared : ∀ value, fields.get? "hooks" = some value →
    ∃ events, value = .object events ∧ (events.map Prod.fst).Nodup ∧
      ∀ e ∈ events, ∃ list, e.2 = .array list ∧ ∀ entry ∈ list, DeclaredEntry entry

theorem DeclaredEntry.readable {list : List Json} (h : ∀ e ∈ list, DeclaredEntry e)
    (plan : MergePlan) : readable plan list = true := by
  induction list with
  | nil => rfl
  | cons e list ih =>
    rw [List.forall_mem_cons] at h
    obtain ⟨fields, matcher, hooks, rfl, hmatcher, hhooks, hdeclared⟩ := h.1
    have hnull : ∀ x ∈ hooks, x ≠ .null := by
      rintro x hx rfl
      obtain ⟨_, _, hobject, -⟩ := hdeclared _ hx
      cases hobject
    have hcommands : commandsOf (.object fields) = some hooks := by
      rw [commandsOf, hhooks]
    rw [HookConfig.readable, hcommands, ih h.2]
    split_ifs
    · exact readableCommands_of_ne_null hnull plan.command
    · rfl

theorem ClaudeSettings.nodup (s : ClaudeSettings) : ((hooksOf s.fields).map Prod.fst).Nodup := by
  rw [hooksOf]
  cases hhooks : s.fields.get? "hooks" with
  | none => exact List.nodup_nil
  | some value =>
    obtain ⟨events, rfl, hnodup, -⟩ := s.declared value hhooks
    exact hnodup

theorem ClaudeSettings.lists (s : ClaudeSettings) {event : String} {value : Json}
    (h : (hooksOf s.fields).get? event = some value) :
    ∃ list, value = .array list ∧ ∀ entry ∈ list, DeclaredEntry entry := by
  rw [hooksOf] at h
  cases hhooks : s.fields.get? "hooks" with
  | none =>
    rw [hhooks] at h
    cases h
  | some hooks =>
    obtain ⟨events, rfl, -, hentries⟩ := s.declared hooks hhooks
    rw [hhooks] at h
    exact hentries _ (Dict.mem_of_get? h)

theorem ClaudeSettings.planReadable (s : ClaudeSettings) (plan : MergePlan) :
    planReadable (hooksOf s.fields) plan = true := by
  rw [HookConfig.planReadable, itemsAt]
  cases hvalue : (hooksOf s.fields).get? plan.event with
  | none => rfl
  | some value =>
    obtain ⟨list, rfl, hentries⟩ := s.lists hvalue
    exact DeclaredEntry.readable hentries plan

/-- Every event has a list. -/
def Lists (hooks : Dict Json) : Prop :=
  ∀ event value, hooks.get? event = some value → ∃ list, value = .array list

theorem Lists.foldl {hooks : Dict Json} (h : Lists hooks) (plans : List MergePlan) :
    Lists (plans.foldl mergeStep hooks) := by
  induction plans generalizing hooks with
  | nil => exact h
  | cons plan plans ih =>
    refine ih fun event value hvalue => ?_
    rw [mergeStep, Dict.get?_set] at hvalue
    split_ifs at hvalue
    · exact ⟨_, (Option.some.inj hvalue).symm⟩
    · exact h event value hvalue

theorem nodup_foldl {hooks : Dict Json} (h : (hooks.map Prod.fst).Nodup) (plans : List MergePlan) :
    ((plans.foldl mergeStep hooks).map Prod.fst).Nodup := by
  induction plans generalizing hooks with
  | nil => exact h
  | cons plan plans ih => exact ih (Dict.nodup_set h _ _)

section Run

variable (s : ClaudeSettings)

theorem ClaudeSettings.foldlM (plans : List MergePlan) :
    plans.foldlM mergePlan (hooksOf s.fields) = .ok (plans.foldl mergeStep (hooksOf s.fields)) := by
  rw [foldlM_mergePlan, if_pos]
  exact List.all_eq_true.mpr fun plan _ => s.planReadable plan

/-- The settings after a merge. -/
theorem ClaudeSettings.mergeHooks (plans : List MergePlan) : mergeHooks s.fields plans =
    .ok (s.fields.set "hooks" (.object (plans.foldl mergeStep (hooksOf s.fields)))) := by
  rw [HookConfig.mergeHooks, s.foldlM]
  rfl

theorem planReadable_foldl {hooks : Dict Json} (h : ∀ plan, planReadable hooks plan = true)
    (plans : List MergePlan) (plan : MergePlan) :
    planReadable (plans.foldl mergeStep hooks) plan = true := by
  induction plans generalizing hooks with
  | nil => exact h plan
  | cons first plans ih =>
    exact ih fun other => (planReadable_mergeStep (h first) other).trans (h other)

theorem foldl_merged {hooks : Dict Json} (hd : (hooks.map Prod.fst).Nodup) {plans : List MergePlan}
    (h : ∀ plan ∈ plans, Merged hooks plan) : plans.foldl mergeStep hooks = hooks := by
  induction plans with
  | nil => rfl
  | cons plan plans ih =>
    rw [List.forall_mem_cons] at h
    rw [List.foldl_cons, h.1.mergeStep_eq hd, ih h.2]

/-- A second merge of the same plans changes nothing. -/
theorem ClaudeSettings.mergeHooks_twice (plans : List MergePlan) :
    ∃ merged, HookConfig.mergeHooks s.fields plans = .ok merged ∧
      HookConfig.mergeHooks merged plans = .ok merged := by
  refine ⟨_, s.mergeHooks plans, ?_⟩
  have hhooks : hooksOf (s.fields.set "hooks"
      (.object (plans.foldl mergeStep (hooksOf s.fields)))) =
      plans.foldl mergeStep (hooksOf s.fields) := by
    rw [hooksOf, Dict.get?_set, if_pos rfl]
    rfl
  have hread : plans.all (HookConfig.planReadable (plans.foldl mergeStep (hooksOf s.fields))) =
      true :=
    List.all_eq_true.mpr fun plan _ => planReadable_foldl s.planReadable plans plan
  rw [HookConfig.mergeHooks, hhooks, foldlM_mergePlan, if_pos hread,
    foldl_merged (nodup_foldl s.nodup plans) fun plan hplan => merged_of_mem hplan _]
  refine congrArg Except.ok (set_eq_self ?_ fun e he hkey => ?_)
  · exact Dict.mem_keys_set.mpr (.inl rfl)
  · rcases Dict.mem_set he with hold | rfl
    · exact absurd hkey hold.2
    · rfl

end Run

/-- A plan whose command some entry with its matcher already has adds nothing at its turn, and a
second merge changes nothing. -/
structure AddsNoDuplicate (fields : Dict Json) (plans : List MergePlan) : Prop where
  nothing : ∀ before plan after hooks, plans = before ++ plan :: after →
    before.foldlM mergePlan (hooksOf fields) = .ok hooks →
    present plan (itemsAt hooks plan.event) = true → mergePlan hooks plan = .ok hooks
  again : ∃ merged, mergeHooks fields plans = .ok merged ∧ mergeHooks merged plans = .ok merged

/-- Where some entry has the matcher and the command of a plan, the first with the matcher does. -/
def FirstEntriesHold (fields : Dict Json) (plans : List MergePlan) : Prop :=
  ∀ plan ∈ plans, present plan (itemsAt (hooksOf fields) plan.event) = true →
    firstHolds plan (itemsAt (hooksOf fields) plan.event) = true

section Turns

variable {hooks : Dict Json} {plan : MergePlan}

/-- One step, for a plan that waits. -/
theorem firstHolds_step (other : MergePlan)
    (h : present plan (itemsAt hooks plan.event) = true →
      firstHolds plan (itemsAt hooks plan.event) = true)
    (hpresent : present plan (itemsAt (mergeStep hooks other) plan.event) = true) :
    firstHolds plan (itemsAt (mergeStep hooks other) plan.event) = true := by
  rw [itemsAt_mergeStep] at hpresent ⊢
  split_ifs at hpresent ⊢ with hevent
  · by_cases hsame : other.matcherText = plan.matcherText ∧ other.command = plan.command
    · exact firstHolds_extend hsame.1 hsame.2 _
    · rw [(extend_other hsame _).2] at hpresent
      rw [(extend_other hsame _).1]
      exact h hpresent
  · exact h hpresent

theorem firstHolds_foldl (before : List MergePlan)
    (h : present plan (itemsAt hooks plan.event) = true →
      firstHolds plan (itemsAt hooks plan.event) = true)
    (hpresent : present plan (itemsAt (before.foldl mergeStep hooks) plan.event) = true) :
    firstHolds plan (itemsAt (before.foldl mergeStep hooks) plan.event) = true := by
  induction before generalizing hooks with
  | nil => exact h hpresent
  | cons other before ih => exact ih (firstHolds_step other h) hpresent

variable (hooks) in
/-- Plans for other commands leave it as it is whether the first entry has the command, and whether
any has. -/
theorem foldl_other {before : List MergePlan} (h : ∀ other ∈ before, ¬ SameHook other plan) :
    firstHolds plan (itemsAt (before.foldl mergeStep hooks) plan.event) =
        firstHolds plan (itemsAt hooks plan.event) ∧
      present plan (itemsAt (before.foldl mergeStep hooks) plan.event) =
        present plan (itemsAt hooks plan.event) := by
  induction before generalizing hooks with
  | nil => exact ⟨rfl, rfl⟩
  | cons other before ih =>
    rw [List.forall_mem_cons] at h
    rw [List.foldl_cons, (ih _ h.2).1, (ih _ h.2).2, itemsAt_mergeStep]
    split_ifs with hevent
    · exact extend_other (fun hsame => h.1 ⟨hevent.symm, hsame⟩) _
    · exact ⟨rfl, rfl⟩

/-- A plan that adds nothing finds its command in the first entry. -/
theorem firstHolds_of_mergePlan (hread : planReadable hooks plan = true)
    (h : mergePlan hooks plan = .ok hooks) : firstHolds plan (itemsAt hooks plan.event) = true := by
  rw [mergePlan_eq, if_pos hread] at h
  have hitems := itemsAt_mergeStep hooks plan plan.event
  rw [Except.ok.inj h, if_pos rfl] at hitems
  rw [hitems]
  exact firstHolds_extend rfl rfl _

theorem mergePlan_of_firstHolds (hd : (hooks.map Prod.fst).Nodup) (hlists : Lists hooks)
    (hread : planReadable hooks plan = true)
    (h : firstHolds plan (itemsAt hooks plan.event) = true) : mergePlan hooks plan = .ok hooks := by
  have hmerged : Merged hooks plan := by
    rw [itemsAt] at h
    cases hvalue : hooks.get? plan.event with
    | none =>
      rw [hvalue] at h
      cases h
    | some value =>
      obtain ⟨list, rfl⟩ := hlists _ _ hvalue
      rw [hvalue] at h
      exact ⟨list, hvalue, h⟩
  rw [mergePlan_eq, if_pos hread, hmerged.mergeStep_eq hd]

end Turns

/-- No duplicate is added exactly where the command that some entry has is the first's too. -/
theorem addsNoDuplicate_iff (s : ClaudeSettings) (plans : List MergePlan) :
    AddsNoDuplicate s.fields plans ↔ FirstEntriesHold s.fields plans := by
  constructor
  · intro h plan hplan hpresent
    -- the first plan for this command finds the lists as they were
    have hfound : (plans.find? fun p => SameHook p plan).isSome := by
      rw [List.find?_isSome]
      exact ⟨plan, hplan, by simp [SameHook]⟩
    obtain ⟨first, hfirst⟩ := Option.isSome_iff_exists.mp hfound
    obtain ⟨hsame, before, after, hsplit, hbefore⟩ := List.find?_eq_some_iff_append.mp hfirst
    have hsame : SameHook first plan := of_decide_eq_true hsame
    have hother : ∀ p ∈ before, ¬ SameHook p first := by
      intro p hp hp'
      have hnot := hbefore p hp
      rw [Bool.not_eq_true', decide_eq_false_iff_not] at hnot
      exact hnot ⟨hp'.1.trans hsame.1, hp'.2.1.trans hsame.2.1, hp'.2.2.trans hsame.2.2⟩
    obtain ⟨hfirstHolds, hpresentAt⟩ := foldl_other (hooksOf s.fields) hother
    rw [← hsame.1, ← (hsame.lists_eq _).1] at hpresent
    rw [← hsame.1, ← (hsame.lists_eq _).2, ← hfirstHolds]
    refine firstHolds_of_mergePlan (planReadable_foldl s.planReadable before first)
      (h.nothing before first after _ hsplit (s.foldlM before) ?_)
    rw [hpresentAt]
    exact hpresent
  · intro h
    refine ⟨?_, s.mergeHooks_twice plans⟩
    intro before plan after hooks hsplit hbefore hpresent
    rw [s.foldlM] at hbefore
    obtain rfl := Except.ok.inj hbefore
    have hmem : plan ∈ plans := by
      rw [hsplit]
      simp
    have hlists : Lists (hooksOf s.fields) := fun event value hvalue =>
      (s.lists hvalue).imp fun _ hlist => hlist.1
    exact mergePlan_of_firstHolds (nodup_foldl s.nodup before) (hlists.foldl before)
      (planReadable_foldl s.planReadable before plan)
      (firstHolds_foldl before (h plan hmem) hpresent)

/-- Two entries for all tools, of which the second has the command. -/
def secondEntry : ClaudeSettings where
  fields := [("hooks", .object [("PreToolUse", .array [
    .object [("matcher", .string "*"), ("hooks", .array [
      .object [("type", .string "command"), ("command", .string "/opt/lint.sh")]])],
    .object [("matcher", .string "*"), ("hooks", .array [
      .object [("type", .string "command"), ("command", .string "/opt/atrium-tool.sh")]])]])])]
  declared := by
    intro value h
    obtain rfl := Option.some.inj h
    refine ⟨_, rfl, by decide, ?_⟩
    intro e he
    rw [List.mem_singleton.mp he]
    refine ⟨_, rfl, ?_⟩
    intro entry hentry
    simp only [List.mem_cons, List.not_mem_nil, or_false] at hentry
    rcases hentry with rfl | rfl
    all_goals
      refine ⟨_, "*", _, rfl, rfl, rfl, ?_⟩
      intro hook hhook
      rw [List.mem_singleton.mp hhook]
      exact ⟨_, _, rfl, rfl⟩

def toolPlan : MergePlan where
  event := "PreToolUse"
  command := "/opt/atrium-tool.sh"
  matcher := none
  timeout := none
  own := by decide

/-- The command is added to the first entry, though the second has it. -/
theorem secondEntry_duplicated : ¬ AddsNoDuplicate secondEntry.fields [toolPlan] := by
  intro h
  have hsame := h.nothing [] toolPlan [] _ rfl rfl (by decide)
  revert hsame
  decide

end HookConfig
end Batiste
