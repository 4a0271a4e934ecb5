import Batiste.MergeEffects

/-! What a merge hands over from the source to the target: its notes, tags, refs, and the values of
its links and its state. -/
namespace Batiste
namespace TaskMerge

open JsonText TaskActions

/-! ## Unions of fields -/

section Unite

variable (keeps : Json → Bool) (same : Json → Json → Bool) (lost : String → Json → String)

/-- One field of the source. -/
def uniteField (acc : Dict Json × List String) (e : String × Json) : Dict Json × List String :=
  match acc.1.get? e.1 with
  | none => (acc.1.set e.1 e.2, acc.2)
  | some value =>
    if !keeps value then (acc.1.set e.1 e.2, acc.2)
    else if same value e.2 then acc
    else (acc.1, acc.2 ++ [lost e.1 e.2])

theorem unite_eq (source target : Dict Json) :
    unite keeps same lost source target =
      source.foldl (uniteField keeps same lost) (target, []) := rfl

/-- What one more field leaves in place. -/
structure Grows (acc next : Dict Json × List String) : Prop where
  values : ∀ key value, acc.1.get? key = some value → keeps value = true →
    next.1.get? key = some value
  texts : ∀ text ∈ acc.2, text ∈ next.2

variable {keeps same lost}

theorem Grows.trans {a b c : Dict Json × List String} (h : Grows keeps a b) (h' : Grows keeps b c) :
    Grows keeps a c :=
  ⟨fun key value hvalue hkeeps => h'.values key value (h.values key value hvalue hkeeps) hkeeps,
    fun text htext => h'.texts text (h.texts text htext)⟩

theorem set_grows {acc : Dict Json × List String} {e : String × Json}
    (hgives : ∀ value, acc.1.get? e.1 = some value → keeps value = false) :
    Grows keeps acc (acc.1.set e.1 e.2, acc.2) := by
  refine ⟨fun key value hvalue hkeeps => ?_, fun text htext => htext⟩
  have hne : key ≠ e.1 := by
    rintro rfl
    rw [hgives value hvalue] at hkeeps
    cases hkeeps
  show (acc.1.set e.1 e.2).get? key = some value
  rwa [Dict.get?_set, if_neg hne]

variable (keeps same lost)

theorem uniteField_grows (acc : Dict Json × List String) (e : String × Json) :
    Grows keeps acc (uniteField keeps same lost acc e) := by
  unfold uniteField
  split
  · next hnone => exact set_grows fun value hvalue => by rw [hnone] at hvalue; cases hvalue
  · next old hold =>
    split
    · next hgives =>
      refine set_grows fun value hvalue => ?_
      obtain rfl := Option.some.inj (hold.symm.trans hvalue)
      simpa using hgives
    · split
      · exact ⟨fun _ _ hvalue _ => hvalue, fun _ htext => htext⟩
      · exact ⟨fun _ _ hvalue _ => hvalue, fun _ htext => List.mem_append_left _ htext⟩

theorem uniteFields_grows (source : Dict Json) (acc : Dict Json × List String) :
    Grows keeps acc (source.foldl (uniteField keeps same lost) acc) := by
  induction source generalizing acc with
  | nil => exact ⟨fun _ _ hvalue _ => hvalue, fun _ htext => htext⟩
  | cons e source ih => exact (uniteField_grows keeps same lost acc e).trans (ih _)

/-- A field that gives way, that is the one in the union, or that is noted. -/
def Covers (next : Dict Json × List String) (e : String × Json) : Prop :=
  keeps e.2 = false ∨
    (∃ value, next.1.get? e.1 = some value ∧ keeps value = true ∧
      (value = e.2 ∨ same value e.2 = true)) ∨
    lost e.1 e.2 ∈ next.2

theorem uniteField_covers (acc : Dict Json × List String) (e : String × Json) :
    Covers keeps same lost (uniteField keeps same lost acc e) e := by
  have hset : Covers keeps same lost (acc.1.set e.1 e.2, acc.2) e := by
    by_cases hkeeps : keeps e.2 = true
    · exact .inr (.inl ⟨e.2, by rw [Dict.get?_set, if_pos rfl], hkeeps, .inl rfl⟩)
    · exact .inl (by simpa using hkeeps)
  unfold uniteField
  split
  · exact hset
  · next value hvalue =>
    split
    · exact hset
    · next hkeeps =>
      split
      · next hsame => exact .inr (.inl ⟨value, hvalue, by simpa using hkeeps, .inr hsame⟩)
      · exact .inr (.inr (List.mem_append_right _ (List.mem_singleton.mpr rfl)))

theorem Covers.grows {acc next : Dict Json × List String} {e : String × Json}
    (h : Covers keeps same lost acc e) (hgrows : Grows keeps acc next) :
    Covers keeps same lost next e := by
  rcases h with hgives | ⟨value, hvalue, hkeeps, hsame⟩ | hlost
  · exact .inl hgives
  · exact .inr (.inl ⟨value, hgrows.values _ _ hvalue hkeeps, hkeeps, hsame⟩)
  · exact .inr (.inr (hgrows.texts _ hlost))

theorem uniteFields_covers (source : Dict Json) (acc : Dict Json × List String) :
    ∀ e ∈ source, Covers keeps same lost (source.foldl (uniteField keeps same lost) acc) e := by
  induction source generalizing acc with
  | nil => simp
  | cons e source ih =>
    intro e' he'
    rcases List.mem_cons.mp he' with rfl | hmem
    · exact (uniteField_covers keeps same lost acc e').grows keeps same lost
        (uniteFields_grows keeps same lost source _)
    · exact ih _ e' hmem

/-- A union has fields of the source and of the target only. -/
theorem uniteFields_mem (source : Dict Json) (acc : Dict Json × List String) :
    ∀ e ∈ (source.foldl (uniteField keeps same lost) acc).1, e ∈ source ∨ e ∈ acc.1 := by
  induction source generalizing acc with
  | nil => simp
  | cons e source ih =>
    intro e' he'
    rcases ih _ e' he' with hmem | hmem
    · exact .inl (List.mem_cons_of_mem e hmem)
    · have hset : e' ∈ acc.1.set e.1 e.2 → e' ∈ e :: source ∨ e' ∈ acc.1 := by
        intro h
        rcases Dict.mem_set h with ⟨hold, -⟩ | rfl
        · exact .inr hold
        · exact .inl List.mem_cons_self
      unfold uniteField at hmem
      split at hmem
      · exact hset hmem
      · split at hmem
        · exact hset hmem
        · split at hmem <;> exact .inr hmem

/-- Only two empty records have an empty union. -/
theorem uniteFields_ne_nil (source : Dict Json) {acc : Dict Json × List String}
    (hacc : acc.1 ≠ []) : (source.foldl (uniteField keeps same lost) acc).1 ≠ [] := by
  induction source generalizing acc with
  | nil => exact hacc
  | cons e source ih =>
    have hset : acc.1.set e.1 e.2 ≠ [] := by
      intro hnil
      have hkeys : e.1 ∈ (acc.1.set e.1 e.2).map Prod.fst := Dict.mem_keys_set.mpr (.inl rfl)
      rw [hnil] at hkeys
      simp at hkeys
    refine ih ?_
    unfold uniteField
    split
    · exact hset
    · split
      · exact hset
      · split <;> exact hacc

theorem unite_mem {source target : Dict Json} {e : String × Json}
    (he : e ∈ (unite keeps same lost source target).1) : e ∈ source ∨ e ∈ target :=
  uniteFields_mem keeps same lost source _ e he

theorem unite_ne_nil (source : Dict Json) {target : Dict Json} (h : target ≠ []) :
    (unite keeps same lost source target).1 ≠ [] :=
  uniteFields_ne_nil keeps same lost source h

end Unite

/-- What is noted of a state value that loses. -/
def lostState (numberText : ℚ → String) (key : String) (value : Json) : String :=
  "state." ++ key ++ " da origem: " ++ match value with
    | .string text => text
    | value => stringify numberText value

/-! ## The patched target -/

theorem infix_intercalate {sep x : List Char} (xs : List (List Char)) (hx : x ∈ xs) :
    x <:+: sep.intercalate xs := by
  induction xs with
  | nil => cases hx
  | cons y ys ih =>
    cases ys with
    | nil =>
      obtain rfl := List.mem_singleton.mp hx
      simp
    | cons z zs =>
      rw [List.intercalate_cons_cons]
      rcases List.mem_cons.mp hx with rfl | hmem
      · exact ⟨[], sep ++ sep.intercalate (z :: zs), by simp⟩
      · exact (ih hmem).trans List.infix_append_right

theorem strictEquals_eq {a b : Json} (h : a.strictEquals b = true) : a = b := by
  unfold Json.strictEquals at h
  split at h
  · cases h
  · cases h
  · exact beq_iff_eq.mp h

/-- The values of the state and of the links are texts. -/
def Textual (task : Task) : Prop :=
  ∀ key ∈ ["state", "links"], ∀ e ∈ fieldsOf (metaAt task key), ∃ text, e.2 = .string text

/-- The text stands in a note of the task. -/
def Noted (task : Task) (text : String) : Prop :=
  ∃ n ∈ textNotes task, text.toList <:+: n.2.toList

/-- A field of a record of the task, or a text in one of its notes. -/
def Kept (task : Task) (key : String) (e : String × Json) : Prop :=
  Dict.get? (fieldsOf (metaAt task key)) e.1 = some e.2 ∨
    ∃ text, e.2 = .string text ∧ Noted task text

/-- What the merged target has of the target and of the source. -/
structure Absorbed (source target merged : Task) : Prop where
  notes : itemsOf (metaAt target "notes") <+: itemsOf (metaAt merged "notes")
  texts : ∀ n ∈ textNotes source, Noted merged n.2
  tags : ∀ tag ∈ itemsOf (metaAt source "tags"), tag ∈ itemsOf (metaAt merged "tags")
  refs : ∀ ref ∈ itemsOf (metaAt source "refs"), ref ∈ itemsOf (metaAt merged "refs")
  links : ∀ e ∈ fieldsOf (metaAt source "links"), Kept merged "links" e
  state : ∀ e ∈ fieldsOf (metaAt source "state"), Kept merged "state" e

theorem get?_field (key key' : String) (value : Option Json) :
    Dict.get? (field key value) key' = if key = key' then value else none := by
  cases value <;> simp [field, Dict.get?_cons]

theorem get?_unlessEmpty {α : Type} [DecidableEq α] (key key' : String) (value : List α → Json)
    (xs : List α) : Dict.get? (unlessEmpty key value xs) key' =
      if key = key' ∧ xs ≠ [] then some (value xs) else none := by
  by_cases hxs : xs = [] <;> simp [unlessEmpty, hxs, Dict.get?_cons]

section Patched

variable {numberText : ℚ → String} {inp : MergeInput} {merged : Task}

theorem unlessEmpty_keys {α : Type} [DecidableEq α] (key : String) (value : List α → Json)
    (xs : List α) : ((unlessEmpty key value xs).map Prod.fst).Sublist [key] := by
  unfold unlessEmpty
  split <;> simp

theorem targetPatch_nodup (numberText : ℚ → String) (inp : MergeInput) :
    ((targetPatch numberText inp).map Prod.fst).Nodup := by
  have hkeys : ((targetPatch numberText inp).map Prod.fst).Sublist
      ["notes", "mergedFrom", "state", "links", "tags", "refs", "phase"] := by
    simp only [targetPatch, List.map_append]
    exact (((((List.Sublist.refl ["notes", "mergedFrom"]).append
      (unlessEmpty_keys _ _ _)).append (unlessEmpty_keys _ _ _)).append
      (unlessEmpty_keys _ _ _)).append (unlessEmpty_keys _ _ _)).append
      (ManageTask.field_keys _ _)
  exact List.Nodup.sublist hkeys (by decide)

/-- A field of the patched target. -/
theorem metaAt_merged
    (hmerged : metaOf merged = (metaOf inp.target).spread (targetPatch numberText inp))
    (key : String) : metaAt merged key =
      ((targetPatch numberText inp).get? key).or (metaAt inp.target key) := by
  unfold metaAt
  rw [hmerged, Dict.get?_spread_of_nodup _ (targetPatch_nodup numberText inp)]

variable (hmerged : metaOf merged = (metaOf inp.target).spread (targetPatch numberText inp))

include hmerged

theorem merged_notes : itemsOf (metaAt merged "notes") =
    itemsOf (metaAt inp.target "notes") ++ header inp :: movedNotes numberText inp := by
  rw [metaAt_merged hmerged]
  simp [targetPatch, Dict.get?_cons, itemsOf]

/-- The tags and the refs of both tasks. -/
theorem merged_items {key : String} (hkey : key = "tags" ∨ key = "refs") :
    ∀ item ∈ itemsOf (metaAt inp.source key), item ∈ itemsOf (metaAt merged key) := by
  intro item hitem
  have hunion : item ∈ unionAt inp key := by
    simp only [unionAt, uniq, List.mem_reverse, List.mem_dedup, List.mem_append]
    exact .inr hitem
  have hpatch : Dict.get? (targetPatch numberText inp) key = some (.array (unionAt inp key)) := by
    have hne := List.ne_nil_of_mem hunion
    rcases hkey with rfl | rfl <;>
      simp [targetPatch, Dict.get?_append, Dict.get?_cons, get?_unlessEmpty, get?_field, hne]
  rw [metaAt_merged hmerged, hpatch]
  exact hunion

/-- The united records. -/
theorem merged_fields :
    fieldsOf (metaAt merged "state") = (stateOf numberText inp).1 ∧
      fieldsOf (metaAt merged "links") = (linksOf numberText inp).1 := by
  have hfields : ∀ (key : String) (union : Dict Json),
      Dict.get? (targetPatch numberText inp) key =
        (if union ≠ [] then some (.object union) else none) →
      (fieldsOf (metaAt inp.target key) ≠ [] → union ≠ []) →
      fieldsOf (metaAt merged key) = union := by
    intro key union hpatch hempty
    rw [metaAt_merged hmerged, hpatch]
    split
    · rfl
    · next hnil =>
      rw [not_not.mp hnil, Option.none_or]
      by_contra hne
      exact hnil (hempty hne)
  constructor
  · refine hfields "state" _ ?_ fun hne => ?_
    · simp [targetPatch, Dict.get?_append, Dict.get?_cons, get?_unlessEmpty, get?_field]
    · unfold stateOf uniteState
      exact unite_ne_nil _ _ _ _ hne
  · refine hfields "links" _ ?_ fun hne => ?_
    · simp [targetPatch, Dict.get?_append, Dict.get?_cons, get?_unlessEmpty, get?_field]
    · unfold linksOf uniteLinks
      exact unite_ne_nil _ _ _ _ hne

/-- A text in an appended note. -/
theorem noted_of_appended {text noteText : String}
    (hmem : note inp noteText ∈ header inp :: movedNotes numberText inp)
    (htext : text.toList <:+: noteText.toList) : Noted merged text := by
  refine ⟨(some (.string inp.nowIso), noteText), ?_, htext⟩
  rw [textNotes, merged_notes hmerged]
  refine List.mem_filterMap.mpr ⟨note inp noteText, List.mem_append_right _ hmem, ?_⟩
  simp [note, Dict.get?_cons]

/-- The texts of the notes of the source. -/
theorem merged_texts : ∀ n ∈ textNotes inp.source, Noted merged n.2 := by
  intro n hn
  have hmoved : movedNote numberText inp n ∈ header inp :: movedNotes numberText inp :=
    List.mem_cons_of_mem _ (List.mem_append_left _ (List.mem_map_of_mem hn))
  refine noted_of_appended hmerged hmoved ?_
  rw [String.toList_append]
  exact List.infix_append_right

/-- The values that lost against the target's own. -/
theorem merged_extra {line text : String}
    (hline : line ∈ (stateOf numberText inp).2 ++ (linksOf numberText inp).2)
    (htext : text.toList <:+: line.toList) : Noted merged text := by
  have hne := List.ne_nil_of_mem hline
  have hkept : note inp ("[de " ++ shortId inp.source.id ++ "] valores divergentes preservados: " ++
      "; ".intercalate ((stateOf numberText inp).2 ++ (linksOf numberText inp).2)) ∈
        header inp :: movedNotes numberText inp := by
    refine List.mem_cons_of_mem _ (List.mem_append_right _ ?_)
    simp only [if_neg hne]
    exact List.mem_singleton.mpr rfl
  refine noted_of_appended hmerged hkept (htext.trans ?_)
  rw [String.toList_append, String.toList_intercalate]
  exact (infix_intercalate _ (List.mem_map_of_mem hline)).trans List.infix_append_right

theorem noted_empty : Noted merged "" :=
  noted_of_appended hmerged List.mem_cons_self (by simp)

omit hmerged in
theorem state_covers {e : String × Json} (he : e ∈ fieldsOf (metaAt inp.source "state")) :
    e.2 = .string "" ∨
      (∃ value, Dict.get? (stateOf numberText inp).1 e.1 = some value ∧
        (value = e.2 ∨ stringify numberText value = stringify numberText e.2)) ∨
      ∀ text, e.2 = .string text →
        "state." ++ e.1 ++ " da origem: " ++ text ∈ (stateOf numberText inp).2 := by
  rcases uniteFields_covers (fun value => decide (value ≠ .string ""))
      (fun a b => stringify numberText a = stringify numberText b)
      (lostState numberText) (fieldsOf (metaAt inp.source "state"))
      (fieldsOf (metaAt inp.target "state"), []) e he with
    hgives | ⟨value, hvalue, -, hsame⟩ | hlost
  · exact .inl (by simpa using hgives)
  · exact .inr (.inl ⟨value, hvalue, by simpa using hsame⟩)
  · refine .inr (.inr fun text htext => ?_)
    rw [htext] at hlost
    exact hlost

omit hmerged in
theorem union_mem {e : String × Json} :
    (e ∈ (stateOf numberText inp).1 → e ∈ fieldsOf (metaAt inp.source "state") ∨
        e ∈ fieldsOf (metaAt inp.target "state")) ∧
      (e ∈ (linksOf numberText inp).1 → e ∈ fieldsOf (metaAt inp.source "links") ∨
        e ∈ fieldsOf (metaAt inp.target "links")) := by
  unfold stateOf linksOf uniteState uniteLinks
  exact ⟨unite_mem _ _ _, unite_mem _ _ _⟩

omit hmerged in
theorem links_covers {e : String × Json} (he : e ∈ fieldsOf (metaAt inp.source "links")) :
    Dict.get? (linksOf numberText inp).1 e.1 = some e.2 ∨
      "links." ++ e.1 ++ " da origem: " ++ valueText numberText e.2 ∈ (linksOf numberText inp).2 := by
  rcases uniteFields_covers (fun _ => true) Json.strictEquals
      (fun key value => "links." ++ key ++ " da origem: " ++ valueText numberText value)
      (fieldsOf (metaAt inp.source "links")) (fieldsOf (metaAt inp.target "links"), []) e he with
    hgives | ⟨value, hvalue, -, hsame⟩ | hlost
  · cases hgives
  · refine .inl (hvalue.trans (congrArg some ?_))
    rcases hsame with rfl | hsame
    · rfl
    · exact strictEquals_eq hsame
  · exact .inr hlost

theorem merged_links : ∀ e ∈ fieldsOf (metaAt inp.source "links"),
    (∃ text, e.2 = .string text) → Kept merged "links" e := by
  intro e he ⟨text, htext⟩
  rcases links_covers he with hvalue | hlost
  · left
    rw [(merged_fields hmerged).2]
    exact hvalue
  · refine .inr ⟨text, htext, merged_extra hmerged (List.mem_append_right _ hlost) ?_⟩
    rw [htext, String.toList_append]
    exact List.infix_append_right

/-- A state value of the target stands for one with the same JSON text. -/
theorem merged_state (htarget : Textual inp.target) (hsource : Textual inp.source) :
    ∀ e ∈ fieldsOf (metaAt inp.source "state"), Kept merged "state" e := by
  intro e he
  obtain ⟨text, htext⟩ := hsource "state" (by simp) e he
  rcases state_covers he with hgives | ⟨value, hvalue, hsame⟩ | hlost
  · exact .inr ⟨"", hgives, noted_empty hmerged⟩
  · left
    rw [(merged_fields hmerged).1, hvalue]
    refine congrArg some ?_
    rcases hsame with rfl | hsame
    · rfl
    · obtain ⟨own, hown⟩ : ∃ text, value = .string text := by
        rcases union_mem.1 (Dict.mem_of_get? hvalue) with hmem | hmem
        · exact hsource "state" (by simp) _ hmem
        · exact htarget "state" (by simp) _ hmem
      rw [hown, htext] at hsame ⊢
      rw [quote_injective hsame]
  · refine .inr ⟨text, htext, merged_extra hmerged (List.mem_append_left _ (hlost text htext)) ?_⟩
    rw [String.toList_append]
    exact List.infix_append_right

/-- A merge keeps the notes of the target and hands over what the source has. -/
theorem merged_absorbed (htarget : Textual inp.target) (hsource : Textual inp.source) :
    Absorbed inp.source inp.target merged where
  notes := merged_notes hmerged ▸ List.prefix_append _ _
  texts := merged_texts hmerged
  tags := merged_items hmerged (.inl rfl)
  refs := merged_items hmerged (.inr rfl)
  links := fun e he => merged_links hmerged e he (hsource "links" (by simp) e he)
  state := merged_state hmerged htarget hsource

theorem merged_textual (htarget : Textual inp.target) (hsource : Textual inp.source) :
    Textual merged := by
  intro key hkey e he
  have hfields := merged_fields hmerged
  have hmem : e ∈ fieldsOf (metaAt inp.source key) ∨ e ∈ fieldsOf (metaAt inp.target key) := by
    rcases List.mem_pair.mp hkey with rfl | rfl
    · rw [hfields.1] at he
      exact union_mem.1 he
    · rw [hfields.2] at he
      exact union_mem.2 he
  exact hmem.elim (hsource key hkey e) (htarget key hkey e)

end Patched

end TaskMerge
end Batiste
