import Mathlib.Data.List.TakeWhile
import Mathlib.Data.String.Basic
import Mathlib.Tactic

/-! Collecting without repetition, where an element is looked up as it comes and stored in another
form.  Which elements are stored, and how often. -/
namespace Batiste
namespace StoredForms

variable {α : Type*} [DecidableEq α] (form : α → α)

def store (stored : List α) (a : α) : List α := if a ∈ stored then stored else stored ++ [form a]

def collect (incoming : List α) : List α := incoming.foldl (store form) []

variable {form} {stored incoming earlier : List α} {a x : α}

theorem collect_concat (incoming : List α) (a : α) :
    collect form (incoming ++ [a]) = store form (collect form incoming) a := by
  rw [collect, List.foldl_append]
  rfl

theorem mem_store : x ∈ store form stored a ↔ x ∈ stored ∨ (a ∉ stored ∧ x = form a) := by
  rw [store]
  split
  · rename_i ha
    simp [ha]
  · rename_i ha
    simp [ha]

theorem exists_of_mem_collect (h : x ∈ collect form incoming) : ∃ a ∈ incoming, form a = x := by
  induction incoming using List.reverseRecOn with
  | nil => cases h
  | append_singleton incoming b ih =>
    rw [collect_concat, mem_store] at h
    rcases h with h | ⟨-, rfl⟩
    · obtain ⟨a, ha, rfl⟩ := ih h
      exact ⟨a, List.mem_append_left [b] ha, rfl⟩
    · exact ⟨b, List.mem_append_right incoming (List.mem_singleton_self b), rfl⟩

/-- An element is left out only when it is taken for a stored one. -/
theorem mem_or_form_mem (h : a ∈ incoming) :
    a ∈ collect form incoming ∨ form a ∈ collect form incoming := by
  induction incoming using List.reverseRecOn with
  | nil => cases h
  | append_singleton incoming b ih =>
    rw [collect_concat, mem_store, mem_store]
    rcases List.mem_append.mp h with h | h
    · exact (ih h).imp .inl .inl
    · obtain rfl := List.mem_singleton.mp h
      by_cases ha : a ∈ collect form incoming
      · exact .inl (.inl ha)
      · exact .inr (.inr ⟨ha, rfl⟩)

/-- As long as an element is taken for a stored one, its form is not stored. -/
theorem form_notMem_foldl (hform : Function.Injective form) (ha : a ∈ stored)
    (hnot : form a ∉ stored) : form a ∉ incoming.foldl (store form) stored := by
  induction incoming generalizing stored with
  | nil => exact hnot
  | cons b incoming ih =>
    refine ih (mem_store.mpr (.inl ha)) fun h => ?_
    rcases mem_store.mp h with h | ⟨hb, heq⟩
    · exact hnot h
    · obtain rfl := hform heq
      exact hb ha

/-- An element that is stored at all is stored when it first comes. -/
theorem form_mem_earlier (hform : Function.Injective form) (hearlier : earlier <+: incoming)
    (ha : a ∈ earlier) (h : form a ∈ collect form incoming) : form a ∈ collect form earlier := by
  obtain ⟨later, rfl⟩ := hearlier
  have hmem : a ∈ collect form earlier ∨ form a ∈ collect form earlier := mem_or_form_mem ha
  rcases hmem with hmem | hmem
  · by_contra hnot
    rw [collect, List.foldl_append] at h
    exact form_notMem_foldl hform hmem hnot h
  · exact hmem

/-- Those that come before an element that is stored as `a`. -/
def before (form : α → α) (a : α) (incoming : List α) : List α :=
  incoming.takeWhile fun b => decide (form b ≠ a)

theorem before_eq_self (h : ¬∃ b ∈ incoming, form b = a) : before form a incoming = incoming := by
  refine List.takeWhile_eq_self_iff.mpr fun b hb => decide_eq_true ?_
  exact fun heq => h ⟨b, hb, heq⟩

theorem before_concat_of_mem (h : ∃ b ∈ incoming, form b = a) (c : α) :
    before form a (incoming ++ [c]) = before form a incoming := by
  obtain ⟨b, hb, heq⟩ := h
  rw [before, List.takeWhile_append, if_neg, before]
  intro hlength
  have hself := (List.takeWhile_prefix _).eq_of_length hlength
  exact of_decide_eq_true (List.takeWhile_eq_self_iff.mp hself b hb) heq

theorem count_before_concat_of_ne {c : α} (hc : c ≠ a) :
    (before form a (incoming ++ [c])).count a = (before form a incoming).count a := by
  by_cases h : ∃ b ∈ incoming, form b = a
  · rw [before_concat_of_mem h]
  · have hself := before_eq_self h
    have hlength : (incoming.takeWhile fun b => decide (form b ≠ a)).length = incoming.length :=
      congrArg List.length hself
    rw [hself, before, List.takeWhile_append, if_pos hlength, List.count_append]
    have hlast : a ∉ [c].takeWhile fun b => decide (form b ≠ a) := fun hmem =>
      hc (List.mem_singleton.mp ((List.takeWhile_prefix _).subset hmem)).symm
    rw [List.count_eq_zero.mpr hlast, Nat.add_zero]

theorem count_store_of_ne (hform : Function.Injective form) {c : α} (hc : c ≠ a) :
    (store form stored c).count (form a) = stored.count (form a) := by
  rw [store]
  split
  · rfl
  · have hne : form a ∉ [form c] := fun hmem => hc (hform (List.mem_singleton.mp hmem)).symm
    rw [List.count_append, List.count_eq_zero.mpr hne, Nat.add_zero]

/-- If `a` is taken for a stored element as soon as one that is stored as `a` has come, its form is
stored once for each time that `a` comes before. -/
theorem count_collect (hform : Function.Injective form) (hne : form a ≠ a)
    (h : ∀ earlier, earlier <+: incoming → (∃ b ∈ earlier, form b = a) → a ∈ collect form earlier) :
    (collect form incoming).count (form a) = (before form a incoming).count a := by
  induction incoming using List.reverseRecOn with
  | nil => rfl
  | append_singleton incoming c ih =>
    have hprefix := List.prefix_append incoming [c]
    have ih := ih fun earlier hearlier => h earlier (hearlier.trans hprefix)
    rw [collect_concat]
    by_cases hc : c = a
    · subst hc
      by_cases hseen : ∃ b ∈ incoming, form b = c
      · rw [before_concat_of_mem hseen, ← ih, store, if_pos (h incoming hprefix hseen)]
      · have hnot : c ∉ collect form incoming := fun hmem => hseen (exists_of_mem_collect hmem)
        have hnone : ¬∃ b ∈ incoming ++ [c], form b = c := by
          rintro ⟨b, hb, heq⟩
          rcases List.mem_append.mp hb with hb | hb
          · exact hseen ⟨b, hb, heq⟩
          · exact hne (List.mem_singleton.mp hb ▸ heq)
        rw [before_eq_self hseen] at ih
        rw [before_eq_self hnone, store, if_neg hnot, List.count_append, List.count_append, ih,
          List.count_singleton_self, List.count_singleton_self]
    · rw [count_before_concat_of_ne hc, count_store_of_ne hform hc, ih]

/-- Each element comes once before the first that is stored as it. -/
def OnceBefore (form : α → α) (incoming : List α) : Prop :=
  ∀ a ∈ incoming, (before form a incoming).count a = 1

instance (form : α → α) (incoming : List α) : Decidable (OnceBefore form incoming) :=
  inferInstanceAs (Decidable (∀ a ∈ incoming, (before form a incoming).count a = 1))

/-- The condition of `count_collect` holds when what is stored as `a` is stored at all. -/
theorem count_collect_of_stored (hform : Function.Injective form) (hne : form a ≠ a)
    (h : ∀ b ∈ incoming, form b = a → a ∈ collect form incoming) :
    (collect form incoming).count (form a) = (before form a incoming).count a := by
  refine count_collect hform hne ?_
  rintro earlier hearlier ⟨b, hb, rfl⟩
  exact form_mem_earlier hform hearlier hb (h b (hearlier.subset hb) rfl)

/-- Every element is stored exactly once if and only if each comes once before the first that is
stored as it. -/
theorem collect_once_iff (hform : Function.Injective form) {rank : α → ℕ}
    (hrank : ∀ a, rank a < rank (form a)) :
    (∀ a ∈ incoming, (collect form incoming).count (form a) = 1) ↔ OnceBefore form incoming := by
  have hne : ∀ a, form a ≠ a := fun a heq => absurd (hrank a) (by rw [heq]; exact lt_irrefl _)
  have hmem : ∀ b, (collect form incoming).count (form b) = 1 → form b ∈ collect form incoming :=
    fun b hb => List.count_pos_iff.mp (hb ▸ Nat.one_pos)
  constructor
  · intro h a ha
    rw [← count_collect_of_stored hform (hne a), h a ha]
    rintro b hb rfl
    exact hmem b (h b hb)
  · intro h a ha
    -- on the rank: what is stored as `a` comes below it
    induction hr : rank a using Nat.strong_induction_on generalizing a with
    | _ r ih =>
      subst hr
      rw [count_collect_of_stored hform (hne a), h a ha]
      rintro b hb rfl
      exact hmem b (ih (rank b) (hrank b) b hb rfl)

/-- The second of two neighbours is taken for the first. -/
example : collect Nat.succ [4, 5] = [5] ∧ ¬OnceBefore Nat.succ [4, 5] := by decide

end StoredForms
end Batiste
