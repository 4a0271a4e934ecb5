import Batiste.HookConfig

/-! An uninstall of Atrium's hooks after an install: what happened to the hooks of the operator. -/
namespace Batiste
namespace HookConfig

/-! ## Entries -/

/-- No command of the entry is Atrium's. -/
def isForeign (e : Json) : Bool := !((commandsOf e).getD []).any isOwned

/-- An object with the same fields, in whatever order. -/
def SameFields (a b : Json) : Prop :=
  ∃ fields fields', a = .object fields ∧ b = .object fields' ∧
    ∀ key, Dict.get? fields key = Dict.get? fields' key

/-- An entry of which a rebuilt one keeps everything: it has a matcher at most and a command at
least. -/
def Plain (e : Json) : Prop :=
  ∃ fields hooks, e = .object fields ∧ Dict.get? fields "hooks" = some (.array hooks) ∧
    hooks ≠ [] ∧ ∀ key, key ≠ "matcher" → key ≠ "hooks" → Dict.get? fields key = none

def rebuiltFields (fields : Dict Json) (hooks : List Json) : Dict Json :=
  ((Dict.get? fields "matcher").toList.map fun m => ("matcher", m)) ++ [("hooks", .array hooks)]

/-- What a removal builds of an entry with some commands. -/
def rebuilt (fields : Dict Json) (hooks : List Json) : Json := .object (rebuiltFields fields hooks)

theorem get?_rebuiltFields (fields : Dict Json) (hooks : List Json) (key : String) :
    (rebuiltFields fields hooks).get? key =
      if key = "matcher" then Dict.get? fields "matcher"
      else if key = "hooks" then some (.array hooks) else none := by
  rw [rebuiltFields, Dict.get?_append]
  by_cases hmatcher : key = "matcher"
  · subst hmatcher
    cases Dict.get? fields "matcher" <;> simp [Dict.get?_cons]
  · have hnone : Dict.get? ((Dict.get? fields "matcher").toList.map fun m => ("matcher", m)) key =
        none := by
      cases Dict.get? fields "matcher" <;> simp [Dict.get?_cons, Ne.symm hmatcher]
    rw [hnone, if_neg hmatcher, Option.none_or, Dict.get?_cons, Dict.get?_nil]
    by_cases hhooks : key = "hooks"
    · simp [hhooks]
    · simp [hhooks, Ne.symm hhooks]

@[simp] theorem get?_hooks_rebuiltFields (fields : Dict Json) (hooks : List Json) :
    (rebuiltFields fields hooks).get? "hooks" = some (.array hooks) := by
  rw [get?_rebuiltFields]
  rfl

@[simp] theorem get?_matcher_rebuiltFields (fields : Dict Json) (hooks : List Json) :
    (rebuiltFields fields hooks).get? "matcher" = Dict.get? fields "matcher" := by
  rw [get?_rebuiltFields, if_pos rfl]

theorem cleanEntry_object {fields : Dict Json} {hooks : List Json}
    (h : Dict.get? fields "hooks" = some (.array hooks)) : cleanEntry (.object fields) =
      if hooks.filter (fun h => !isOwned h) = [] then none
      else some (rebuilt fields (hooks.filter fun h => !isOwned h)) := by
  rw [cleanEntry, h]
  rfl

/-- An entry that is kept is an object with a list of commands. -/
theorem cleanEntry_some {e r : Json} (h : cleanEntry e = some r) :
    ∃ fields hooks, e = .object fields ∧ Dict.get? fields "hooks" = some (.array hooks) ∧
      hooks.filter (fun h => !isOwned h) ≠ [] ∧
      r = rebuilt fields (hooks.filter fun h => !isOwned h) := by
  cases e with
  | object fields =>
    cases hhooks : Dict.get? fields "hooks" with
    | none =>
      rw [cleanEntry, hhooks] at h
      cases h
    | some value =>
      cases value with
      | array hooks =>
        rw [cleanEntry_object hhooks] at h
        split_ifs at h with hempty
        exact ⟨fields, hooks, rfl, hhooks, hempty, (Option.some.inj h).symm⟩
      | _ =>
        rw [cleanEntry, hhooks] at h
        cases h
  | _ => cases h

theorem plain_rebuilt (fields : Dict Json) {hooks : List Json} (h : hooks ≠ []) :
    Plain (rebuilt fields hooks) := by
  refine ⟨_, hooks, rfl, get?_hooks_rebuiltFields fields hooks, h, fun key hmatcher hhooks => ?_⟩
  rw [get?_rebuiltFields, if_neg hmatcher, if_neg hhooks]

theorem commandsOf_rebuilt (fields : Dict Json) (hooks : List Json) :
    commandsOf (rebuilt fields hooks) = some hooks := by
  rw [rebuilt, commandsOf, get?_hooks_rebuiltFields]

theorem isForeign_rebuilt (fields : Dict Json) (hooks : List Json) :
    isForeign (rebuilt fields (hooks.filter fun h => !isOwned h)) = true := by
  rw [isForeign, commandsOf_rebuilt, Option.getD_some, Bool.not_eq_true', List.any_eq_false]
  intro h hmem
  simpa using (List.mem_filter.mp hmem).2

theorem rebuilt_rebuiltFields (fields : Dict Json) (hooks hooks' : List Json) :
    rebuilt (rebuiltFields fields hooks) hooks' = rebuilt fields hooks' := by
  rw [rebuilt, rebuiltFields, get?_matcher_rebuiltFields]
  rfl

/-- A second removal of the same event changes nothing. -/
theorem cleanEntry_idem {e r : Json} (h : cleanEntry e = some r) : cleanEntry r = some r := by
  obtain ⟨fields, hooks, -, -, hne, rfl⟩ := cleanEntry_some h
  have hfilter : (hooks.filter fun h => !isOwned h).filter (fun h => !isOwned h) =
      hooks.filter fun h => !isOwned h := by
    rw [List.filter_filter]
    simp
  rw [rebuilt, cleanEntry_object (get?_hooks_rebuiltFields _ _), hfilter, if_neg hne,
    rebuilt_rebuiltFields]
  rfl

theorem SameFields.plain {a b : Json} (h : SameFields a b) (hb : Plain b) : Plain a := by
  obtain ⟨fields, fields', rfl, rfl, hsame⟩ := h
  obtain ⟨other, hooks, hother, hhooks, hne, hrest⟩ := hb
  cases hother
  refine ⟨fields, hooks, rfl, by rw [hsame, hhooks], hne, fun key hmatcher hkey => ?_⟩
  rw [hsame, hrest key hmatcher hkey]

/-- A plain entry is rebuilt with all its fields from all its commands. -/
theorem sameFields_rebuilt {fields fields' : Dict Json} {hooks : List Json}
    (hhooks : Dict.get? fields "hooks" = some (.array hooks))
    (hrest : ∀ key, key ≠ "matcher" → key ≠ "hooks" → Dict.get? fields key = none)
    (hmatcher : Dict.get? fields' "matcher" = Dict.get? fields "matcher") :
    SameFields (.object fields) (rebuilt fields' hooks) := by
  refine ⟨fields, _, rfl, rfl, fun key => ?_⟩
  rw [get?_rebuiltFields, hmatcher]
  split_ifs with hkey hkey'
  · rw [hkey]
  · rw [hkey', hhooks]
  · exact hrest key hkey hkey'

/-! ## The list after the merge -/

/-- An entry as a merge leaves it: as it was, or with more of Atrium's commands. -/
def Grown (a b : Json) : Prop :=
  b = a ∨ ∃ fields matcher hooks new, a = .object fields ∧
    Dict.get? fields "matcher" = some matcher ∧ Dict.get? fields "hooks" = some (.array hooks) ∧
    (∀ h ∈ new, isOwned h = true) ∧
    b = .object [("matcher", matcher), ("hooks", .array (hooks ++ new))]

/-- An entry with commands of Atrium's only. -/
def AllOwned (e : Json) : Prop := ∃ hooks, commandsOf e = some hooks ∧ ∀ h ∈ hooks, isOwned h = true

/-- The entries that were there, grown, and behind them Atrium's own. -/
inductive Evolved : List Json → List Json → Prop
  | added {after : List Json} (h : ∀ e ∈ after, AllOwned e) : Evolved [] after
  | grown {a b : Json} {as bs : List Json} (h : Grown a b) (hrest : Evolved as bs) :
      Evolved (a :: as) (b :: bs)

theorem Grown.trans {a b c : Json} (hab : Grown a b) (hbc : Grown b c) : Grown a c := by
  rcases hab with rfl | ⟨fields, matcher, hooks, new, rfl, hmatcher, hhooks, hnew, rfl⟩
  · exact hbc
  · rcases hbc with rfl | ⟨fields', matcher', hooks', new', hobject, hmatcher', hhooks', hnew', rfl⟩
    · exact .inr ⟨fields, matcher, hooks, new, rfl, hmatcher, hhooks, hnew, rfl⟩
    · cases hobject
      simp only [Dict.get?_cons, if_true, Option.some.injEq] at hmatcher'
      simp [Dict.get?_cons] at hhooks'
      subst hmatcher'
      subst hhooks'
      refine .inr ⟨fields, matcher, hooks, new ++ new', rfl, hmatcher, hhooks, ?_, ?_⟩
      · intro h hmem
        exact (List.mem_append.mp hmem).elim (hnew h) (hnew' h)
      · rw [List.append_assoc]

theorem Grown.allOwned {a b : Json} (hab : Grown a b) (ha : AllOwned a) : AllOwned b := by
  rcases hab with rfl | ⟨fields, matcher, hooks, new, rfl, -, hhooks, hnew, rfl⟩
  · exact ha
  · obtain ⟨hooks', hcommands, howned⟩ := ha
    rw [commandsOf, hhooks] at hcommands
    cases hcommands
    refine ⟨hooks ++ new, by simp [commandsOf, Dict.get?_cons], fun h hmem => ?_⟩
    exact (List.mem_append.mp hmem).elim (howned h) (hnew h)

theorem Evolved.refl (list : List Json) : Evolved list list := by
  induction list with
  | nil => exact .added (by simp)
  | cons e list ih => exact .grown (.inl rfl) ih

theorem Evolved.allOwned {a b : List Json} (h : Evolved a b) (ha : ∀ e ∈ a, AllOwned e) :
    ∀ e ∈ b, AllOwned e := by
  induction h with
  | added hafter => exact hafter
  | grown hgrown _ ih =>
    rw [List.forall_mem_cons] at ha ⊢
    exact ⟨hgrown.allOwned ha.1, ih ha.2⟩

theorem Evolved.trans {a b c : List Json} (hab : Evolved a b) (hbc : Evolved b c) :
    Evolved a c := by
  induction hab generalizing c with
  | added hafter => exact .added (hbc.allOwned hafter)
  | grown hgrown _ ih =>
    cases hbc with
    | grown hgrown' hrest => exact .grown (hgrown.trans hgrown') (ih hrest)

section Plan

variable {plan : MergePlan}

theorem isOwned_newHook (h : ATRIUM_MARKER.toList <:+: plan.command.toList) :
    isOwned (newHook plan) = true := by
  simp [isOwned, newHook, Dict.get?_cons, h]

theorem commandsOf_some {e : Json} {hooks : List Json} (h : commandsOf e = some hooks) :
    ∃ fields, e = .object fields ∧ Dict.get? fields "hooks" = some (.array hooks) := by
  cases e with
  | object fields =>
    refine ⟨fields, rfl, ?_⟩
    rw [commandsOf] at h
    split at h
    · rename_i found hfound
      rw [hfound, Option.some.inj h]
    · cases h
  | _ => cases h

/-- The merge of one plan of Atrium's. -/
theorem evolved_extend (howned : ATRIUM_MARKER.toList <:+: plan.command.toList)
    {list : List Json} (h : readable plan list = true) : Evolved list (extend plan list) := by
  have hnew : ∀ x ∈ [newHook plan], isOwned x = true := by
    intro x hx
    rw [List.mem_singleton.mp hx]
    exact isOwned_newHook howned
  induction list with
  | nil =>
    refine .added fun e he => ?_
    rw [List.mem_singleton.mp he]
    exact ⟨_, commandsOf_hookEntry _, hnew⟩
  | cons e list ih =>
    rw [readable] at h
    rw [extend]
    cases hmatch : hasMatcher plan.matcherText e with
    | false =>
      rw [hmatch, if_neg Bool.false_ne_true, Bool.and_eq_true] at h
      exact .grown (.inl rfl) (ih h.2)
    | true =>
      rw [hmatch, if_pos rfl] at h
      rw [if_pos rfl]
      refine .grown ?_ (.refl list)
      split_ifs
      · exact .inl rfl
      · obtain ⟨hooks, hhooks, -⟩ := (Option.any_eq_true _ _).mp h
        obtain ⟨fields, rfl, hfield⟩ := commandsOf_some hhooks
        rw [hasMatcher, beq_iff_eq] at hmatch
        rw [hhooks]
        exact .inr ⟨fields, _, hooks, _, rfl, hmatch, hfield, hnew, rfl⟩

end Plan

/-! ## The removal -/

theorem cleanEntry_allOwned {e : Json} (h : AllOwned e) : cleanEntry e = none := by
  obtain ⟨hooks, hcommands, howned⟩ := h
  obtain ⟨fields, rfl, hhooks⟩ := commandsOf_some hcommands
  rw [cleanEntry_object hhooks, if_pos]
  rw [List.filter_eq_nil_iff]
  intro h hmem
  simp [howned h hmem]

/-- A plain foreign entry comes back with all its fields. -/
theorem cleanEntry_grown {a b : Json} (hgrown : Grown a b) (hforeign : isForeign a = true)
    (hplain : Plain a) : ∃ r, cleanEntry b = some r ∧ SameFields a r := by
  obtain ⟨fields, hooks, rfl, hhooks, hne, hrest⟩ := hplain
  have hkept : hooks.filter (fun h => !isOwned h) = hooks := by
    rw [isForeign, commandsOf, hhooks, Option.getD_some, Bool.not_eq_true', List.any_eq_false]
      at hforeign
    rw [List.filter_eq_self]
    intro h hmem
    simpa using hforeign h hmem
  rcases hgrown with rfl | ⟨fields', matcher, hooks', new, hobject, hmatcher, hhooks', hnew, rfl⟩
  · refine ⟨_, (cleanEntry_object hhooks).trans (if_neg (by rwa [hkept])), ?_⟩
    rw [hkept]
    exact sameFields_rebuilt hhooks hrest rfl
  · cases hobject
    obtain rfl : hooks' = hooks := Json.array.inj (Option.some.inj (hhooks'.symm.trans hhooks))
    have hcleaned : (hooks' ++ new).filter (fun h => !isOwned h) = hooks' := by
      have hnone : new.filter (fun h => !isOwned h) = [] := by
        rw [List.filter_eq_nil_iff]
        intro h hmem
        simp [hnew h hmem]
      rw [List.filter_append, hkept, hnone, List.append_nil]
    have hget : Dict.get? [("matcher", matcher), ("hooks", .array (hooks' ++ new))] "hooks" =
        some (.array (hooks' ++ new)) := by simp [Dict.get?_cons]
    refine ⟨_, (cleanEntry_object hget).trans (if_neg (by rwa [hcleaned])), ?_⟩
    rw [hcleaned]
    exact sameFields_rebuilt hhooks hrest (by simp [Dict.get?_cons, hmatcher])

theorem clean_evolved {list list' : List Json} (h : Evolved list list')
    (hplain : ∀ e ∈ list, isForeign e = true → Plain e) :
    List.SublistForall₂ SameFields (list.filter isForeign) (list'.filterMap cleanEntry) := by
  induction h with
  | added => exact .nil
  | @grown a b as bs hgrown _ ih =>
    rw [List.forall_mem_cons] at hplain
    have hrest := ih hplain.2
    rw [List.filterMap_cons]
    cases hforeign : isForeign a with
    | true =>
      obtain ⟨r, hr, hsame⟩ := cleanEntry_grown hgrown hforeign (hplain.1 hforeign)
      rw [List.filter_cons_of_pos hforeign, hr]
      exact .cons hsame hrest
    | false =>
      rw [List.filter_cons_of_neg (by simp [hforeign])]
      cases cleanEntry b with
      | none => exact hrest
      | some r => exact .cons_right hrest

def cleanValue : Option Json → Option Json
  | some (.array list) => some (.array (list.filterMap cleanEntry))
  | value => value

theorem cleanValue_idem (value : Option Json) : cleanValue (cleanValue value) = cleanValue value := by
  cases value with
  | none => rfl
  | some value =>
    cases value with
    | array list =>
      have hclean : (list.filterMap cleanEntry).filterMap cleanEntry = list.filterMap cleanEntry := by
        rw [List.filterMap_filterMap]
        refine List.filterMap_congr fun e _ => ?_
        cases hclean : cleanEntry e with
        | none => rfl
        | some r => exact cleanEntry_idem hclean
      simp only [cleanValue, hclean]
    | _ => rfl

theorem get?_cleanEvent (hooks : Dict Json) (event key : String) :
    (cleanEvent hooks event).get? key =
      if key = event then cleanValue (hooks.get? key) else hooks.get? key := by
  rw [cleanEvent]
  cases hvalue : hooks.get? event with
  | none =>
    split_ifs with hkey
    · rw [hkey, hvalue]
      rfl
    · rfl
  | some value =>
    cases value with
    | array list =>
      dsimp only
      rw [Dict.get?_set]
      split_ifs with hkey
      · rw [hkey, hvalue]
        rfl
      · rfl
    | _ =>
      split_ifs with hkey
      · rw [hkey, hvalue]
        rfl
      · rfl

theorem get?_foldl_cleanEvent (events : List String) (hooks : Dict Json) (key : String) :
    (events.foldl cleanEvent hooks).get? key =
      if key ∈ events then cleanValue (hooks.get? key) else hooks.get? key := by
  induction events generalizing hooks with
  | nil => simp
  | cons event events ih =>
    rw [List.foldl_cons, ih, get?_cleanEvent]
    by_cases hkey : key = event
    · simp [hkey, cleanValue_idem]
    · simp [hkey]

theorem hooksOf_set (settings : Dict Json) (hooks : Dict Json) :
    hooksOf (settings.set "hooks" (.object hooks)) = hooks := by
  rw [hooksOf, Dict.get?_set, if_pos rfl]
  rfl

theorem spreadFields_falsy {value : Json} (h : value.truthy = false) : spreadFields value = [] := by
  cases value with
  | string text =>
    rw [Json.truthy, bne_eq_false_iff_eq] at h
    rw [h]
    rfl
  | array items => cases h
  | object fields => cases h
  | _ => rfl

/-- What a removal leaves of every event. -/
theorem get?_hooksOf_removeHooks (settings : Dict Json) (events : List String) (key : String) :
    (hooksOf (removeHooks settings events)).get? key =
      if key ∈ events then cleanValue ((hooksOf settings).get? key)
      else (hooksOf settings).get? key := by
  rw [removeHooks]
  cases hvalue : settings.get? "hooks" with
  | none =>
    rw [hooksOf, hvalue]
    simp [cleanValue]
  | some value =>
    have hhooks : hooksOf settings = spreadFields value := by rw [hooksOf, hvalue, Option.elim_some]
    dsimp only
    split_ifs with htruthy hkey hkey
    · rw [hooksOf_set, get?_foldl_cleanEvent, if_pos hkey, hhooks]
    · rw [hooksOf_set, get?_foldl_cleanEvent, if_neg hkey, hhooks]
    · -- nothing can be spread of a value that counts as none
      have hnone : (hooksOf settings).get? key = none := by
        rw [hhooks, spreadFields_falsy (Bool.eq_false_iff.mpr htruthy)]
        rfl
      rw [hnone]
      rfl
    · rfl

theorem removeHooks_other (settings : Dict Json) (events : List String) {key : String}
    (h : key ≠ "hooks") : (removeHooks settings events).get? key = settings.get? key := by
  rw [removeHooks]
  split
  · rfl
  · split_ifs
    · rw [Dict.get?_set, if_neg h]
    · rfl

/-! ## Install and uninstall -/

/-- Plans with commands of Atrium's, and events that hold those of the plans. -/
structure Install where
  plans : List MergePlan
  events : List String
  managed : ∀ plan ∈ plans, plan.event ∈ events
  owned : ∀ plan ∈ plans, ATRIUM_MARKER.toList <:+: plan.command.toList

/-- The entries of an event that has a list of them. -/
def entriesAt (hooks : Dict Json) (event : String) : List Json :=
  match hooks.get? event with
  | some (.array list) => list
  | _ => []

/-- A removal after the merge leaves the foreign entries of the managed events with all their
fields in their order, none of Atrium's commands there, and the rest of the settings. -/
structure Undone (settings result : Dict Json) (events : List String) : Prop where
  foreign : ∀ event ∈ events, List.SublistForall₂ SameFields
    ((entriesAt (hooksOf settings) event).filter isForeign) (entriesAt (hooksOf result) event)
  own : ∀ event ∈ events, ∀ e ∈ entriesAt (hooksOf result) event, isForeign e = true
  keys : ∀ key, key ≠ "hooks" → result.get? key = settings.get? key
  others : ∀ event, event ∉ events →
    (hooksOf result).get? event = (hooksOf settings).get? event

/-- The merge reads the lists of its events, and every foreign entry there is plain. -/
structure Restorable (settings : Dict Json) (i : Install) : Prop where
  readable : ∀ plan ∈ i.plans, planReadable (hooksOf settings) plan = true
  plain : ∀ event ∈ i.events, ∀ e ∈ entriesAt (hooksOf settings) event,
    isForeign e = true → Plain e

section Events

variable {hooks : Dict Json} {plans : List MergePlan}

/-- A list of entries that has gone through the merge. -/
theorem evolved_foldl (howned : ∀ plan ∈ plans, ATRIUM_MARKER.toList <:+: plan.command.toList)
    (hread : ∀ plan ∈ plans, planReadable hooks plan = true) {event : String} {list : List Json}
    (hlist : hooks.get? event = some (.array list)) :
    ∃ list', (plans.foldl mergeStep hooks).get? event = some (.array list') ∧
      Evolved list list' := by
  induction plans generalizing hooks list with
  | nil => exact ⟨list, hlist, .refl list⟩
  | cons plan plans ih =>
    rw [List.forall_mem_cons] at howned hread
    have hrest : ∀ other ∈ plans, planReadable (mergeStep hooks plan) other = true :=
      fun other hmem => (planReadable_mergeStep hread.1 other).trans (hread.2 other hmem)
    by_cases hevent : event = plan.event
    · have hitems : itemsAt hooks plan.event = list := by
        rw [itemsAt, ← hevent, hlist]
        rfl
      have hreadable := hread.1
      rw [planReadable, Bool.and_eq_true, hitems] at hreadable
      have hstep : (mergeStep hooks plan).get? event = some (.array (extend plan list)) := by
        rw [mergeStep, Dict.get?_set, if_pos hevent, hitems]
      obtain ⟨list', hlist', hevolved⟩ := ih howned.2 hrest hstep
      exact ⟨list', hlist', (evolved_extend howned.1 hreadable.2).trans hevolved⟩
    · exact ih howned.2 hrest (by rw [mergeStep, Dict.get?_set, if_neg hevent, hlist])

theorem foldl_mergeStep_other {event : String} (h : ∀ plan ∈ plans, plan.event ≠ event) :
    (plans.foldl mergeStep hooks).get? event = hooks.get? event := by
  induction plans generalizing hooks with
  | nil => rfl
  | cons plan plans ih =>
    rw [List.forall_mem_cons] at h
    rw [List.foldl_cons, ih h.2, mergeStep, Dict.get?_set, if_neg h.1.symm]

end Events

theorem entriesAt_removeHooks {settings : Dict Json} {events : List String} {event : String}
    (h : event ∈ events) : entriesAt (hooksOf (removeHooks settings events)) event =
      (entriesAt (hooksOf settings) event).filterMap cleanEntry := by
  rw [entriesAt, entriesAt, get?_hooksOf_removeHooks, if_pos h]
  cases (hooksOf settings).get? event with
  | none => rfl
  | some value => cases value <;> rfl

/-- Entries that a removal leaves. -/
theorem plain_of_removeHooks {settings : Dict Json} {events : List String} {event : String}
    (h : event ∈ events) {r : Json}
    (hr : r ∈ entriesAt (hooksOf (removeHooks settings events)) event) :
    Plain r ∧ isForeign r = true := by
  rw [entriesAt_removeHooks h, List.mem_filterMap] at hr
  obtain ⟨e, -, hclean⟩ := hr
  obtain ⟨fields, hooks, -, -, hne, rfl⟩ := cleanEntry_some hclean
  exact ⟨plain_rebuilt fields hne, isForeign_rebuilt fields hooks⟩

theorem undone_of_restorable {settings : Dict Json} {i : Install} (h : Restorable settings i) :
    ∃ merged, mergeHooks settings i.plans = .ok merged ∧
      Undone settings (removeHooks merged i.events) i.events := by
  have hmerge : mergeHooks settings i.plans =
      .ok (settings.set "hooks" (.object (i.plans.foldl mergeStep (hooksOf settings)))) := by
    rw [mergeHooks, foldlM_mergePlan, if_pos (List.all_eq_true.mpr h.readable)]
    rfl
  refine ⟨_, hmerge, ?_, fun event hevent e he => (plain_of_removeHooks hevent he).2, ?_, ?_⟩
  · intro event hevent
    rw [entriesAt_removeHooks hevent, hooksOf_set]
    cases hvalue : (hooksOf settings).get? event with
    | none =>
      rw [entriesAt, hvalue]
      exact .nil
    | some value =>
      cases value with
      | array list =>
        obtain ⟨list', hlist', hevolved⟩ := evolved_foldl i.owned h.readable hvalue
        have hplain := h.plain event hevent
        rw [entriesAt, hvalue] at hplain ⊢
        rw [entriesAt, hlist']
        exact clean_evolved hevolved hplain
      | _ =>
        rw [entriesAt, hvalue]
        exact .nil
  · intro key hkey
    rw [removeHooks_other _ _ hkey, Dict.get?_set, if_neg hkey]
  · intro event hevent
    rw [get?_hooksOf_removeHooks, if_neg hevent, hooksOf_set]
    exact foldl_mergeStep_other fun plan hplan heq => hevent (heq ▸ i.managed plan hplan)

theorem exists_of_sublistForall₂ {α β : Type} {R : α → β → Prop} {as : List α} {bs : List β}
    (h : List.SublistForall₂ R as bs) {a : α} (ha : a ∈ as) : ∃ b ∈ bs, R a b := by
  induction h with
  | nil => exact absurd ha List.not_mem_nil
  | @cons a' b as bs hab _ ih =>
    rcases List.mem_cons.mp ha with rfl | hmem
    · exact ⟨b, List.mem_cons_self, hab⟩
    · exact (ih hmem).imp fun _ h => ⟨List.mem_cons_of_mem _ h.1, h.2⟩
  | cons_right _ ih => exact (ih ha).imp fun _ h => ⟨List.mem_cons_of_mem _ h.1, h.2⟩

/-- An uninstall undoes the install exactly where the merge can read the lists of its events and
every foreign entry of them is plain. -/
theorem undone_iff (settings : Dict Json) (i : Install) :
    (∃ merged, mergeHooks settings i.plans = .ok merged ∧
      Undone settings (removeHooks merged i.events) i.events) ↔ Restorable settings i := by
  refine ⟨?_, undone_of_restorable⟩
  rintro ⟨merged, hmerge, hundone⟩
  constructor
  · rw [mergeHooks, foldlM_mergePlan] at hmerge
    split_ifs at hmerge with hread
    · exact List.all_eq_true.mp hread
    · cases hmerge
  · intro event hevent e he hforeign
    obtain ⟨r, hr, hsame⟩ :=
      exists_of_sublistForall₂ (hundone.foreign event hevent) (List.mem_filter.mpr ⟨he, hforeign⟩)
    exact hsame.plain (plain_of_removeHooks hevent hr).1

/-- An entry of the operator's with a note. -/
def annotated : Dict Json :=
  [("hooks", .object [("PreToolUse", .array [
    .object [("matcher", .string "Bash"), ("note", .string "keep"), ("hooks", .array [
      .object [("type", .string "command"), ("command", .string "/opt/lint.sh")]])]])])]

/-- The plan of an install for one event. -/
def toolInstall : Install where
  plans := [toolPlan]
  events := ["SessionStart", "UserPromptSubmit", "PreToolUse"]
  managed := by decide
  owned := by decide

/-- The note is gone after an uninstall. -/
theorem annotated_not_undone :
    ¬ ∃ merged, mergeHooks annotated toolInstall.plans = .ok merged ∧
      Undone annotated (removeHooks merged toolInstall.events) toolInstall.events := by
  rintro ⟨merged, hmerge, hundone⟩
  obtain ⟨r, hr, hsame⟩ := exists_of_sublistForall₂
    (hundone.foreign "PreToolUse" (by decide))
    (a := .object [("matcher", .string "Bash"), ("note", .string "keep"), ("hooks", .array [
      .object [("type", .string "command"), ("command", .string "/opt/lint.sh")]])]) (by decide)
  have hplain := hsame.plain (plain_of_removeHooks (by decide) hr).1
  obtain ⟨fields, hooks, hobject, -, -, hrest⟩ := hplain
  cases hobject
  exact absurd (hrest "note" (by decide) (by decide)) (by decide)

end HookConfig
end Batiste
