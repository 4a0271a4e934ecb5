import Batiste.Raster
import Mathlib.Algebra.Order.Floor.Ring
import Mathlib.Algebra.Order.Ring.Abs
import Mathlib.Data.List.Dedup
import Mathlib.Data.Nat.Sqrt
import Mathlib.Data.Rat.Floor
import Mathlib.Tactic.Ring

/-! The dilation of a bit grid by a disc, row by row. -/
namespace Batiste
namespace Layers

variable {W H : ℕ}

/-- `pre`: at `k`, the number of set bits before the column `k` of a row. -/
def prefixSums (m : BitGrid W H) (r : ℕ) : List ℕ :=
  (List.range W).scanl (fun s c => s + (m.pixel r c).toNat) 0

/-- The grid whose rows are widened by a number of columns on both sides. -/
def widen (m : BitGrid W H) (w : ℕ) : BitGrid W H :=
  BitGrid.blank.paint ((List.range H).flatMap fun r =>
    let pre := prefixSums m r
    if pre[W]?.getD 0 = 0 then []
    else ((List.range W).filter fun c =>
      pre[min (c + w + 1) W]?.getD 0 - pre[c - w]?.getD 0 > 0).map fun c => r * W + c)

variable {K : Type*} [Field K] [LinearOrder K] [FloorRing K]

/-- The radius of a disc, in pixels. -/
structure Radius (K : Type*) [Field K] [LinearOrder K] where
  R : K
  nonneg : 0 ≤ R

/-- `Math.floor(Math.sqrt(R * R - dy * dy))` -/
def Radius.halfWidth (ρ : Radius K) (dy : ℕ) : ℕ := Nat.sqrt ⌊ρ.R * ρ.R - (dy : K) * dy⌋₊

def Radius.hw (ρ : Radius K) : List ℕ := (List.range (⌊ρ.R⌋₊ + 1)).map ρ.halfWidth

def dilate (m : BitGrid W H) (ρ : Radius K) : BitGrid W H :=
  let Ri : ℤ := ⌊ρ.R⌋₊
  let hd := ρ.hw.dedup.map fun w => (w, widen m w)
  BitGrid.blank.paint ((upTo (-Ri) Ri).flatMap fun dy =>
    let src := (hd.lookup (ρ.hw[dy.natAbs]?.getD 0)).getD .blank
    (List.range H).flatMap fun r : ℕ =>
      let rs : ℤ := r + dy
      if rs < 0 ∨ H ≤ rs then []
      else ((List.range W).filter fun c => src.bit (rs.toNat * W + c)).map fun c => r * W + c)

/-! ## One row -/

theorem prefixSums_getElem? (m : BitGrid W H) (r : ℕ) {k : ℕ} (hk : k ≤ W) :
    (prefixSums m r)[k]? = some ((List.range k).countP (m.pixel r)) := by
  have hfold : ∀ l : List ℕ, ∀ s, l.foldl (fun s c => s + (m.pixel r c).toNat) s =
      s + l.countP (m.pixel r) := by
    intro l
    induction l with
    | nil => intro s; rfl
    | cons c l ih =>
      intro s
      rw [List.foldl_cons, ih, List.countP_cons]
      cases m.pixel r c <;> simp [add_assoc, add_comm]
  rw [prefixSums, List.getElem?_scanl, List.length_range, if_pos hk, hfold, zero_add,
    List.take_range, min_eq_left hk]

/-- The sums differ where a bit between them is set. -/
theorem count_lt_iff (m : BitGrid W H) (r : ℕ) {a b : ℕ} (hab : a ≤ b) :
    (List.range b).countP (m.pixel r) - (List.range a).countP (m.pixel r) > 0 ↔
      ∃ c, a ≤ c ∧ c < b ∧ m.pixel r c = true := by
  obtain ⟨n, rfl⟩ := Nat.exists_eq_add_of_le hab
  rw [List.range_add, List.countP_append, Nat.add_sub_cancel_left, gt_iff_lt, List.countP_pos_iff]
  constructor
  · rintro ⟨c, hc, hset⟩
    obtain ⟨k, hk, rfl⟩ := List.mem_map.mp hc
    exact ⟨a + k, by omega, by have := List.mem_range.mp hk; omega, hset⟩
  · rintro ⟨c, hac, hcb, hset⟩
    exact ⟨c, List.mem_map.mpr ⟨c - a, List.mem_range.mpr (by omega), by omega⟩, hset⟩

theorem pixel_widen (m : BitGrid W H) (w : ℕ) {r c : ℕ} (hr : r < H) (hc : c < W) :
    (widen m w).pixel r c = true ↔ ∃ c' < W, c' ≤ c + w ∧ c ≤ c' + w ∧ m.pixel r c' = true := by
  have hrow : (widen m w).pixel r c = true ↔ (prefixSums m r)[W]?.getD 0 ≠ 0 ∧
      (prefixSums m r)[min (c + w + 1) W]?.getD 0 - (prefixSums m r)[c - w]?.getD 0 > 0 := by
    rw [BitGrid.pixel, widen, BitGrid.bit_paint_blank, List.mem_flatMap]
    constructor
    · rintro ⟨⟨r', -, hmem⟩, -⟩
      dsimp only at hmem
      split at hmem
      · cases hmem
      · next hsome =>
        obtain ⟨c', hc', hplace⟩ := List.mem_map.mp hmem
        obtain ⟨hlt, hset⟩ := List.mem_filter.mp hc'
        obtain ⟨rfl, rfl⟩ := (BitGrid.place_inj (List.mem_range.mp hlt) hc).mp hplace
        exact ⟨hsome, of_decide_eq_true hset⟩
    · rintro ⟨hsome, hset⟩
      refine ⟨⟨r, List.mem_range.mpr hr, ?_⟩, BitGrid.place_lt hr hc⟩
      rw [if_neg hsome]
      exact List.mem_map.mpr ⟨c, List.mem_filter.mpr ⟨List.mem_range.mpr hc, decide_eq_true hset⟩, rfl⟩
  rw [hrow, prefixSums_getElem? m r le_rfl, prefixSums_getElem? m r (min_le_right _ _),
    prefixSums_getElem? m r (by omega), Option.getD_some, Option.getD_some, Option.getD_some,
    count_lt_iff m r (by omega)]
  constructor
  · rintro ⟨-, c', hfrom, hto, hset⟩
    exact ⟨c', by omega, by omega, by omega, hset⟩
  · rintro ⟨c', hlt, hto, hfrom, hset⟩
    refine ⟨?_, c', by omega, by omega, hset⟩
    exact (List.countP_pos_iff.mpr ⟨c', List.mem_range.mpr hlt, hset⟩).ne'

theorem lookup_map_self {β : Type*} (f : ℕ → β) {ws : List ℕ} {w : ℕ} (hw : w ∈ ws) :
    (ws.map fun w => (w, f w)).lookup w = some (f w) := by
  induction ws with
  | nil => cases hw
  | cons w' ws ih =>
    rw [List.map_cons, List.lookup_cons]
    by_cases heq : w = w'
    · simp [heq]
    · rcases List.mem_cons.mp hw with h | h
      · exact absurd h heq
      · simp [beq_false_of_ne heq, ih h]

/-- The rows within the radius, each widened by its half width. -/
theorem pixel_dilate_rows (m : BitGrid W H) (ρ : Radius K) {r c : ℕ} (hr : r < H) (hc : c < W) :
    (dilate m ρ).pixel r c = true ↔ ∃ r' < H, ((r' : ℤ) - r).natAbs ≤ ⌊ρ.R⌋₊ ∧
      (widen m (ρ.halfWidth ((r' : ℤ) - r).natAbs)).pixel r' c = true := by
  have hsrc : ∀ dy : ℤ, dy.natAbs ≤ ⌊ρ.R⌋₊ →
      ((ρ.hw.dedup.map fun w => (w, widen m w)).lookup (ρ.hw[dy.natAbs]?.getD 0)).getD .blank =
        widen m (ρ.halfWidth dy.natAbs) := by
    intro dy hdy
    have hget : ρ.hw[dy.natAbs]? = some (ρ.halfWidth dy.natAbs) := by
      simp [Radius.hw, Nat.lt_succ_iff.mpr hdy]
    rw [hget, Option.getD_some, lookup_map_self, Option.getD_some]
    exact List.mem_dedup.mpr (List.mem_of_getElem? hget)
  rw [BitGrid.pixel, dilate, BitGrid.bit_paint_blank, List.mem_flatMap]
  constructor
  · rintro ⟨⟨dy, hdy, hmem⟩, -⟩
    obtain ⟨r', hr', hmem⟩ := List.mem_flatMap.mp hmem
    rw [mem_upTo] at hdy
    rw [hsrc dy (by omega)] at hmem
    dsimp only at hmem
    split at hmem
    · cases hmem
    · next hrow =>
      obtain ⟨c', hc', hplace⟩ := List.mem_map.mp hmem
      obtain ⟨hlt, hset⟩ := List.mem_filter.mp hc'
      obtain ⟨rfl, rfl⟩ := (BitGrid.place_inj (List.mem_range.mp hlt) hc).mp hplace
      obtain ⟨rs, hrs⟩ := Int.eq_ofNat_of_zero_le (not_lt.mp fun h => hrow (Or.inl h))
      have hdist : ((rs : ℤ) - r').natAbs = dy.natAbs := by omega
      rw [hrs, Int.toNat_natCast] at hset
      exact ⟨rs, by omega, by omega, by rw [hdist]; exact hset⟩
  · rintro ⟨rs, hrs, hdist, hset⟩
    refine ⟨⟨(rs : ℤ) - r, mem_upTo.mpr (by omega), ?_⟩, BitGrid.place_lt hr hc⟩
    refine List.mem_flatMap.mpr ⟨r, List.mem_range.mpr hr, ?_⟩
    rw [hsrc _ hdist, if_neg (by omega)]
    refine List.mem_map.mpr ⟨c, List.mem_filter.mpr ⟨List.mem_range.mpr hc, ?_⟩, rfl⟩
    rw [add_sub_cancel, Int.toNat_natCast]
    exact hset

/-! ## The disc -/

theorem natAbs_sub_mul_self {L : Type*} [Ring L] (a b : ℕ) :
    ((((a : ℤ) - b).natAbs : ℕ) : L) * (((a : ℤ) - b).natAbs : ℕ) = ((a : L) - b) * (a - b) := by
  rw [Nat.cast_natAbs, ← Int.cast_mul, abs_mul_abs_self]
  push_cast
  rfl

variable [IsStrictOrderedRing K]

/-- `|dx| ≤ √(R² - dy²)` in whole numbers. -/
theorem Radius.le_halfWidth_iff (ρ : Radius K) {dx dy : ℕ} (hdy : dy ≤ ⌊ρ.R⌋₊) :
    dx ≤ ρ.halfWidth dy ↔ (dx : K) * dx + (dy : K) * dy ≤ ρ.R * ρ.R := by
  have hle : (dy : K) ≤ ρ.R := (Nat.le_floor_iff ρ.nonneg).mp hdy
  have hrest : 0 ≤ ρ.R * ρ.R - (dy : K) * dy :=
    sub_nonneg.mpr (mul_self_le_mul_self (Nat.cast_nonneg dy) hle)
  rw [Radius.halfWidth, Nat.le_sqrt, Nat.le_floor_iff hrest, Nat.cast_mul, le_sub_iff_add_le]

theorem Radius.le_floor_of_disc (ρ : Radius K) {dx dy : ℕ}
    (h : (dx : K) * dx + (dy : K) * dy ≤ ρ.R * ρ.R) : dy ≤ ⌊ρ.R⌋₊ := by
  rw [Nat.le_floor_iff ρ.nonneg, mul_self_le_mul_self_iff (Nat.cast_nonneg dy) ρ.nonneg]
  exact (le_add_of_nonneg_left (mul_self_nonneg _)).trans h

/-- The row distance is within the radius and the column distance within its half width. -/
theorem Radius.disc_iff (ρ : Radius K) (dx dy : ℕ) :
    (dx : K) * dx + (dy : K) * dy ≤ ρ.R * ρ.R ↔ dy ≤ ⌊ρ.R⌋₊ ∧ dx ≤ ρ.halfWidth dy := by
  constructor
  · intro h
    have hdy := ρ.le_floor_of_disc h
    exact ⟨hdy, (ρ.le_halfWidth_iff hdy).mpr h⟩
  · rintro ⟨hdy, hdx⟩
    exact (ρ.le_halfWidth_iff hdy).mp hdx

/-- A pixel is set exactly where some set pixel lies in the disc around it. -/
theorem pixel_dilate (m : BitGrid W H) (ρ : Radius K) {r c : ℕ} (hr : r < H) (hc : c < W) :
    (dilate m ρ).pixel r c = true ↔ ∃ r' < H, ∃ c' < W, m.pixel r' c' = true ∧
      ((c' : K) - c) * (c' - c) + ((r' : K) - r) * (r' - r) ≤ ρ.R * ρ.R := by
  rw [pixel_dilate_rows m ρ hr hc]
  constructor
  · rintro ⟨r', hr', hdy, hset⟩
    obtain ⟨c', hc', hto, hfrom, hset⟩ := (pixel_widen m _ hr' hc).mp hset
    refine ⟨r', hr', c', hc', hset, ?_⟩
    rw [← natAbs_sub_mul_self, ← natAbs_sub_mul_self, ρ.disc_iff]
    exact ⟨hdy, by omega⟩
  · rintro ⟨r', hr', c', hc', hset, hdisc⟩
    rw [← natAbs_sub_mul_self, ← natAbs_sub_mul_self, ρ.disc_iff] at hdisc
    exact ⟨r', hr', hdisc.1, (pixel_widen m _ hr' hc).mpr ⟨c', hc', by omega, by omega, hset⟩⟩

def unitDisc : Radius ℚ := ⟨1, zero_le_one⟩

/-- The last pixel of a row does not reach the first one of the next. -/
theorem pixel_dilate_corner : (dilate (BitGrid.blank.paint [2] : BitGrid 3 2) unitDisc).pixel 1 0 =
    true ↔ ∃ r' < 2, ∃ c' < 3, (BitGrid.blank.paint [2] : BitGrid 3 2).pixel r' c' = true ∧
      ((c' : ℚ) - 0) * (c' - 0) + ((r' : ℚ) - 1) * (r' - 1) ≤ 1 * 1 :=
  pixel_dilate _ unitDisc (r := 1) (c := 0) (by decide) (by decide)

example : (dilate (BitGrid.blank.paint [2] : BitGrid 3 2) unitDisc).toList =
    [false, true, true, false, false, true] := by decide +kernel

end Layers
end Batiste
