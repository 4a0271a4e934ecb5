import Mathlib

/-! Linear interpolation between the values of a sequence, and between the elements of a sorted
list. -/
namespace Batiste
namespace Interpolation

variable {α : Type*} [Field α] [LinearOrder α] [IsStrictOrderedRing α] [FloorRing α]

/-- The value at a position between two indices. -/
def between (f : ℤ → α) (x : α) : α := f ⌊x⌋ * (1 - (x - ⌊x⌋)) + f ⌈x⌉ * (x - ⌊x⌋)

theorem between_intCast (f : ℤ → α) (k : ℤ) : between f k = f k := by
  simp [between]

omit [IsStrictOrderedRing α] in
/-- At a whole position the second value has no weight, so its index does not matter. -/
theorem between_eq (f : ℤ → α) (x : α) :
    between f x = f ⌊x⌋ + (f (⌊x⌋ + 1) - f ⌊x⌋) * (x - ⌊x⌋) := by
  by_cases hx : (⌊x⌋ : α) = x
  · rw [between, hx, sub_self]
    ring
  · have hceil : ⌈x⌉ = ⌊x⌋ + 1 := by
      refine Int.ceil_eq_iff.mpr ⟨?_, ?_⟩
      · push_cast
        rw [add_sub_cancel_right]
        exact lt_of_le_of_ne (Int.floor_le x) hx
      · push_cast
        exact (Int.lt_floor_add_one x).le
    rw [between, hceil]
    ring

theorem weight_nonneg (x : α) : 0 ≤ x - ⌊x⌋ := sub_nonneg.mpr (Int.floor_le x)

theorem weight_lt_one (x : α) : x - ⌊x⌋ < 1 := by
  linarith [Int.lt_floor_add_one x]

variable {f : ℤ → α}

theorem le_between (hf : Monotone f) (x : α) : f ⌊x⌋ ≤ between f x := by
  rw [between_eq]
  have hstep : f ⌊x⌋ ≤ f (⌊x⌋ + 1) := hf (by omega)
  have hprod := mul_nonneg (sub_nonneg.mpr hstep) (weight_nonneg x)
  linarith

theorem between_le (hf : Monotone f) (x : α) : between f x ≤ f (⌊x⌋ + 1) := by
  rw [between_eq]
  have hstep : f ⌊x⌋ ≤ f (⌊x⌋ + 1) := hf (by omega)
  have hprod := mul_le_mul_of_nonneg_left (weight_lt_one x).le (sub_nonneg.mpr hstep)
  rw [mul_one] at hprod
  linarith

theorem between_mono (hf : Monotone f) : Monotone (between f) := by
  intro x y hxy
  rcases (Int.floor_le_floor hxy).eq_or_lt with hfloor | hfloor
  · have hstep : f ⌊y⌋ ≤ f (⌊y⌋ + 1) := hf (by omega)
    have hweight : x - ⌊y⌋ ≤ y - ⌊y⌋ := sub_le_sub_right hxy _
    have hprod := mul_le_mul_of_nonneg_left hweight (sub_nonneg.mpr hstep)
    rw [between_eq, between_eq, hfloor]
    linarith
  · calc between f x ≤ f (⌊x⌋ + 1) := between_le hf x
      _ ≤ f ⌊y⌋ := hf hfloor
      _ ≤ between f y := le_between hf y

/-! ## The elements of a list -/

/-- The element at an index, the first or the last one outside the list. -/
def clamped (xs : List α) (h : xs ≠ []) (k : ℤ) : α :=
  xs.get ⟨min k.toNat (xs.length - 1), by
    have := List.length_pos_of_ne_nil h
    omega⟩

omit [Field α] [LinearOrder α] [IsStrictOrderedRing α] [FloorRing α] in
theorem clamped_mem (xs : List α) (h : xs ≠ []) (k : ℤ) : clamped xs h k ∈ xs := List.get_mem _ _

omit [Field α] [LinearOrder α] [IsStrictOrderedRing α] [FloorRing α] in
theorem getElem?_eq_clamped {xs : List α} (h : xs ≠ []) {k : ℤ} (hk : k < xs.length) :
    xs[k.toNat]? = some (clamped xs h k) := by
  have hpos := List.length_pos_of_ne_nil h
  have hmin : min k.toNat (xs.length - 1) = k.toNat := by omega
  rw [List.getElem?_eq_getElem (by omega)]
  simp only [clamped, List.get_eq_getElem, hmin]

omit [Field α] [IsStrictOrderedRing α] [FloorRing α] in
theorem clamped_mono {xs : List α} (hxs : xs.SortedLE) (h : xs ≠ []) :
    Monotone (clamped xs h) := by
  intro j k hjk
  refine hxs.monotone_get ?_
  rw [Fin.mk_le_mk]
  exact min_le_min_right _ (Int.toNat_le_toNat hjk)

omit [Field α] [IsStrictOrderedRing α] [FloorRing α] in
theorem clamped_zero_le {xs : List α} (hxs : xs.SortedLE) (h : xs ≠ []) {a : α}
    (ha : a ∈ xs) : clamped xs h 0 ≤ a := by
  obtain ⟨i, rfl⟩ := List.mem_iff_get.mp ha
  refine hxs.monotone_get ?_
  rw [Fin.le_def]
  exact (min_le_left _ _).trans (Nat.zero_le _)

omit [Field α] [IsStrictOrderedRing α] [FloorRing α] in
theorem le_clamped_last {xs : List α} (hxs : xs.SortedLE) (h : xs ≠ []) {a : α}
    (ha : a ∈ xs) : a ≤ clamped xs h ((xs.length : ℤ) - 1) := by
  obtain ⟨i, rfl⟩ := List.mem_iff_get.mp ha
  refine hxs.monotone_get ?_
  rw [Fin.le_def]
  have := i.isLt
  dsimp only
  omega

omit [IsStrictOrderedRing α] in
/-- No element lies strictly between the two around a position. -/
theorem clamped_split {xs : List α} (hxs : xs.SortedLE) (h : xs ≠ []) (x : α) {a : α}
    (ha : a ∈ xs) : a ≤ clamped xs h ⌊x⌋ ∨ clamped xs h ⌈x⌉ ≤ a := by
  obtain ⟨i, rfl⟩ := List.mem_iff_get.mp ha
  by_cases hi : (i : ℤ) ≤ ⌊x⌋
  · left
    refine hxs.monotone_get ?_
    rw [Fin.le_def]
    have := i.isLt
    dsimp only
    omega
  · right
    refine hxs.monotone_get ?_
    rw [Fin.le_def]
    have hceil : ⌈x⌉ ≤ ⌊x⌋ + 1 := Int.ceil_le_floor_add_one x
    dsimp only
    omega

end Interpolation
end Batiste
