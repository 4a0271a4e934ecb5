import Batiste.JsNumber

/-! Sorting with a comparator: the comparators that order a list, and what a sort makes of them.
What a sort does with any other comparator is not said, apart from which elements it returns. -/
namespace Batiste
namespace ArraySort

/-! ## Strict weak orders -/

section Weak

variable {α : Type*} {r : α → α → Prop} {xs : List α}

/-- A strict weak order among the elements of a list. -/
structure StrictWeakOn (r : α → α → Prop) (xs : List α) : Prop where
  irrefl : ∀ a ∈ xs, ¬ r a a
  trans : ∀ a ∈ xs, ∀ b ∈ xs, ∀ c ∈ xs, r a b → r b c → r a c
  incomparable : ∀ a ∈ xs, ∀ b ∈ xs, ∀ c ∈ xs,
    ¬ r a b → ¬ r b a → ¬ r b c → ¬ r c b → ¬ r a c ∧ ¬ r c a

/-- Where one is before another, a third one is behind the first or before the other. -/
theorem StrictWeakOn.between (h : StrictWeakOn r xs) {a b c : α} (ha : a ∈ xs) (hb : b ∈ xs)
    (hc : c ∈ xs) (hac : r a c) : r a b ∨ r b c := by
  by_contra hnone
  obtain ⟨hab, hbc⟩ := not_or.mp hnone
  have hba : ¬ r b a := fun hba => hbc (h.trans b hb a ha c hc hba hac)
  have hcb : ¬ r c b := fun hcb => hab (h.trans a ha c hc b hb hac hcb)
  exact (h.incomparable a ha b hb c hc hab hba hbc hcb).1 hac

theorem strictWeakOn_of_between (hasymm : ∀ a ∈ xs, ∀ b ∈ xs, r a b → ¬ r b a)
    (hbetween : ∀ a ∈ xs, ∀ b ∈ xs, ∀ c ∈ xs, r a c → r a b ∨ r b c) : StrictWeakOn r xs where
  irrefl := fun a ha haa => hasymm a ha a ha haa haa
  trans := by
    intro a ha b hb c hc hab hbc
    rcases hbetween a ha c hc b hb hab with hac | hcb
    · exact hac
    · exact absurd hcb (hasymm b hb c hc hbc)
  incomparable := by
    intro a ha b hb c hc hab hba hbc hcb
    exact ⟨fun hac => (hbetween a ha b hb c hc hac).elim hab hbc,
      fun hca => (hbetween c hc b hb a ha hca).elim hcb hba⟩

end Weak

/-! ## Comparators -/

section Comparators

variable {α : Type*} (cmp : α → α → JsNumber)

def Less (a b : α) : Prop := (cmp a b).ltNat 0 = true

def Greater (a b : α) : Prop := (cmp a b).natLt 0 = true

/-- Neither less nor greater, as for `NaN`. -/
def Equal (a b : α) : Prop := ¬ Less cmp a b ∧ ¬ Greater cmp a b

instance : DecidableRel (Less cmp) := fun a b => inferInstanceAs (Decidable ((cmp a b).ltNat 0 = true))

/-- A consistent comparator for the elements of a list. -/
structure Consistent (xs : List α) : Prop where
  refl : ∀ a ∈ xs, Equal cmp a a
  symm : ∀ a ∈ xs, ∀ b ∈ xs, Equal cmp a b → Equal cmp b a
  equal : ∀ a ∈ xs, ∀ b ∈ xs, ∀ c ∈ xs, Equal cmp a b → Equal cmp b c → Equal cmp a c
  less : ∀ a ∈ xs, ∀ b ∈ xs, ∀ c ∈ xs, Less cmp a b → Less cmp b c → Less cmp a c
  greater : ∀ a ∈ xs, ∀ b ∈ xs, ∀ c ∈ xs, Greater cmp a b → Greater cmp b c → Greater cmp a c

variable {cmp} {xs : List α}

/-- A strict weak order that turns round with its arguments is consistent. -/
theorem StrictWeakOn.consistent (h : StrictWeakOn (Less cmp) xs)
    (hflip : ∀ a b, Greater cmp a b ↔ Less cmp b a) : Consistent cmp xs where
  refl := fun a ha => ⟨h.irrefl a ha, (hflip a a).not.mpr (h.irrefl a ha)⟩
  symm := fun a _ b _ hab => ⟨(hflip a b).not.mp hab.2, (hflip b a).not.mpr hab.1⟩
  equal := by
    intro a ha b hb c hc hab hbc
    obtain ⟨hac, hca⟩ := h.incomparable a ha b hb c hc hab.1 ((hflip a b).not.mp hab.2) hbc.1
      ((hflip b c).not.mp hbc.2)
    exact ⟨hac, (hflip a c).not.mpr hca⟩
  less := h.trans
  greater := by
    intro a ha b hb c hc hab hbc
    rw [hflip] at hab hbc ⊢
    exact h.trans c hc b hb a ha hbc hab

namespace Consistent

variable (h : Consistent cmp xs) {a b c : α}

include h

theorem greater_iff (ha : a ∈ xs) (hb : b ∈ xs) : Greater cmp a b ↔ Less cmp b a := by
  have hself : ∀ {a : α}, a ∈ xs → ¬ Less cmp a a ∧ ¬ Greater cmp a a := fun ha => h.refl _ ha
  constructor
  · intro hab
    by_contra hba
    have hgreater : ¬ Greater cmp b a := fun hba => (hself ha).2 (h.greater a ha b hb a ha hab hba)
    exact (h.symm b hb a ha ⟨hba, hgreater⟩).2 hab
  · intro hba
    by_contra hab
    have hless : ¬ Less cmp a b := fun hless => (hself ha).1 (h.less a ha b hb a ha hless hba)
    exact (h.symm a ha b hb ⟨hless, hab⟩).1 hba

theorem equal_of_not (ha : a ∈ xs) (hb : b ∈ xs) (hab : ¬ Less cmp a b) (hba : ¬ Less cmp b a) :
    Equal cmp a b := ⟨hab, (h.greater_iff ha hb).not.mpr hba⟩

theorem not_less_total (ha : a ∈ xs) (hb : b ∈ xs) : ¬ Less cmp b a ∨ ¬ Less cmp a b := by
  by_contra hnone
  obtain ⟨hba, hab⟩ := not_or.mp hnone
  exact (h.refl a ha).1 (h.less a ha b hb a ha (not_not.mp hab) (not_not.mp hba))

theorem not_less_trans (ha : a ∈ xs) (hb : b ∈ xs) (hc : c ∈ xs) (hba : ¬ Less cmp b a)
    (hcb : ¬ Less cmp c b) : ¬ Less cmp c a := by
  intro hca
  have hab : ¬ Less cmp a b := fun hab => hcb (h.less c hc a ha b hb hca hab)
  have hbc : ¬ Less cmp b c := fun hbc => hba (h.less b hb c hc a ha hbc hca)
  have hequal := h.equal c hc b hb a ha (h.equal_of_not hc hb hcb hbc)
    (h.equal_of_not hb ha hba hab)
  exact hequal.1 hca

end Consistent

end Comparators

/-! ## Sorts -/

/-- A sort returns the elements, and where the comparator is consistent for them, none is less than
one before it. -/
structure Sorter where
  sort : {α : Type} → (α → α → JsNumber) → List α → List α
  perm : ∀ {α : Type} (cmp : α → α → JsNumber) (xs : List α), (sort cmp xs).Perm xs
  sorted : ∀ {α : Type} (cmp : α → α → JsNumber) (xs : List α), Consistent cmp xs →
    (sort cmp xs).Pairwise fun a b => ¬ Less cmp b a

theorem Sorter.mem_sort (s : Sorter) {α : Type} {cmp : α → α → JsNumber} {xs : List α} {a : α} :
    a ∈ s.sort cmp xs ↔ a ∈ xs := (s.perm cmp xs).mem_iff

/-- The first element of a sorted list: none is less. -/
theorem Sorter.head_sort (s : Sorter) {α : Type} {cmp : α → α → JsNumber} {xs : List α} {a : α}
    (hcmp : Consistent cmp xs) (h : (s.sort cmp xs).head? = some a) :
    a ∈ xs ∧ ∀ b ∈ xs, ¬ Less cmp b a := by
  obtain ⟨rest, hrest⟩ := List.head?_eq_some_iff.mp h
  have hsorted := s.sorted cmp xs hcmp
  have ha := s.mem_sort.mp (List.mem_of_mem_head? h)
  refine ⟨ha, fun b hb => ?_⟩
  have hin := (@Sorter.mem_sort s _ cmp _ _).mpr hb
  rw [hrest] at hin hsorted
  rcases List.mem_cons.mp hin with rfl | hin
  · exact (hcmp.refl b ha).1
  · exact List.rel_of_pairwise_cons hsorted hin

theorem pairwise_insertionSort_on {α : Type*} {r : α → α → Prop} [DecidableRel r] {xs : List α}
    (htotal : ∀ a ∈ xs, ∀ b ∈ xs, r a b ∨ r b a)
    (htrans : ∀ a ∈ xs, ∀ b ∈ xs, ∀ c ∈ xs, r a b → r b c → r a c) :
    (xs.insertionSort r).Pairwise r := by
  let s : {a // a ∈ xs} → {a // a ∈ xs} → Prop := fun a b => r a b
  have htotal' : Std.Total s := ⟨fun a b => htotal a a.2 b b.2⟩
  have htrans' : IsTrans _ s := ⟨fun a b c => htrans a a.2 b b.2 c c.2⟩
  have hsorted : (xs.attach.insertionSort s).Pairwise s := List.pairwise_insertionSort s _
  have hmap := List.map_insertionSort s r Subtype.val xs.attach fun a _ b _ => Iff.rfl
  rw [List.attach_map_subtype_val] at hmap
  rw [← hmap, List.pairwise_map]
  exact hsorted

/-- The sort by insertion. -/
def insertion : Sorter where
  sort := fun cmp xs => xs.insertionSort fun a b => ¬ Less cmp b a
  perm := fun _ xs => List.perm_insertionSort _ xs
  sorted := fun _ _ h => pairwise_insertionSort_on (fun _ ha _ hb => h.not_less_total ha hb)
    fun _ ha _ hb _ hc => h.not_less_trans ha hb hc

end ArraySort
end Batiste
