import Mathlib

/-! Rectangles, and cells of one size laid out row by row with a gap between them. -/
namespace Batiste
namespace CellGrid

/-- A rectangle by its upper left corner and its size. -/
structure Rect (K : Type) where
  x : K
  y : K
  w : K
  h : K
  deriving DecidableEq, Repr

/-- Where the cells begin, their size, the gap between two of them and how many make a row. -/
structure Grid (K : Type) where
  left : K
  top : K
  cellW : K
  cellH : K
  gap : K
  cols : ℕ

namespace Grid

variable {K : Type} [CommRing K] (g : Grid K)

def cell (i : ℕ) : Rect K where
  x := g.left + (i % g.cols : ℕ) * (g.cellW + g.gap)
  y := g.top + (i / g.cols : ℕ) * (g.cellH + g.gap)
  w := g.cellW
  h := g.cellH

@[simp] theorem cell_w (i : ℕ) : (g.cell i).w = g.cellW := rfl

@[simp] theorem cell_h (i : ℕ) : (g.cell i).h = g.cellH := rfl

end Grid

section Order

variable {K : Type} [CommRing K] [LinearOrder K]

namespace Rect

def right (r : Rect K) : K := r.x + r.w

def bottom (r : Rect K) : K := r.y + r.h

/-- The points of a rectangle; those on its right and on its lower edge are not its own. -/
def area (r : Rect K) : Set (K × K) := Set.Ico r.x r.right ×ˢ Set.Ico r.y r.bottom

theorem disjoint_of_right_le {a b : Rect K} (h : a.right ≤ b.x) : Disjoint a.area b.area := by
  rw [area, area, Set.disjoint_prod]
  left
  rw [Set.Ico_disjoint_Ico]
  exact (min_le_left _ _).trans (h.trans (le_max_right _ _))

theorem disjoint_of_bottom_le {a b : Rect K} (h : a.bottom ≤ b.y) : Disjoint a.area b.area := by
  rw [area, area, Set.disjoint_prod]
  right
  rw [Set.Ico_disjoint_Ico]
  exact (min_le_left _ _).trans (h.trans (le_max_right _ _))

end Rect

/-- Rectangles of positive size, no two of which share a point, inside a canvas. -/
structure Tidy (width height : K) (rects : List (Rect K)) : Prop where
  sized : ∀ r ∈ rects, 0 < r.w ∧ 0 < r.h
  apart : rects.Pairwise fun a b => Disjoint a.area b.area
  inside : ∀ r ∈ rects, 0 ≤ r.x ∧ 0 ≤ r.y ∧ r.right ≤ width ∧ r.bottom ≤ height

theorem tidy_nil (width height : K) : Tidy width height [] where
  sized := by simp
  apart := List.Pairwise.nil
  inside := by simp

namespace Grid

variable [IsStrictOrderedRing K] {g : Grid K}

/-- A later step along a row or a column begins behind an earlier one. -/
theorem step_le {size gap : K} (hsize : 0 ≤ size) (hgap : 0 ≤ gap) {a b : ℕ} (h : a < b) :
    (a : K) * (size + gap) + size ≤ (b : K) * (size + gap) := by
  have hab : (a : K) + 1 ≤ b := by exact_mod_cast h
  calc (a : K) * (size + gap) + size ≤ (a : K) * (size + gap) + (size + gap) := by
        linarith
    _ = ((a : K) + 1) * (size + gap) := by rw [add_mul, one_mul]
    _ ≤ (b : K) * (size + gap) := mul_le_mul_of_nonneg_right hab (add_nonneg hsize hgap)

/-- The end of the last of `count` steps. -/
theorem step_end_le {size gap : K} (hsize : 0 ≤ size) (hgap : 0 ≤ gap) {a count : ℕ}
    (h : a < count) : (a : K) * (size + gap) + size ≤ count * (size + gap) - gap := by
  have hac : (a : K) + 1 ≤ count := by exact_mod_cast h
  have hmul := mul_le_mul_of_nonneg_right hac (add_nonneg hsize hgap)
  rw [add_mul, one_mul] at hmul
  linarith

theorem cell_disjoint (hw : 0 ≤ g.cellW) (hh : 0 ≤ g.cellH) (hgap : 0 ≤ g.gap) {i j : ℕ}
    (hij : i < j) : Disjoint (g.cell i).area (g.cell j).area := by
  have hrow : i / g.cols ≤ j / g.cols := Nat.div_le_div_right hij.le
  rcases hrow.lt_or_eq with hrow | hrow
  · apply Rect.disjoint_of_bottom_le
    have hstep := step_le hh hgap hrow
    simp only [Rect.bottom, cell]
    linarith
  · -- in one row the columns differ, in the order of the cells
    have hcol : i % g.cols < j % g.cols := by
      have hi := Nat.div_add_mod i g.cols
      have hj := Nat.div_add_mod j g.cols
      rw [hrow] at hi
      omega
    apply Rect.disjoint_of_right_le
    have hstep := step_le hw hgap hcol
    simp only [Rect.right, cell]
    linarith

/-- The first cells of a grid are tidy when its rows and columns fit the canvas. -/
theorem tidy_cells {width height : K} {n rows : ℕ} (hw : 0 < g.cellW) (hh : 0 < g.cellH)
    (hgap : 0 ≤ g.gap) (hleft : 0 ≤ g.left) (htop : 0 ≤ g.top) (hcols : 0 < g.cols)
    (hn : n ≤ g.cols * rows)
    (hright : g.left + g.cols * (g.cellW + g.gap) - g.gap ≤ width)
    (hbottom : g.top + rows * (g.cellH + g.gap) - g.gap ≤ height) :
    Tidy width height ((List.range n).map g.cell) where
  sized := by
    intro r hr
    obtain ⟨i, -, rfl⟩ := List.mem_map.mp hr
    exact ⟨hw, hh⟩
  apart := by
    rw [List.pairwise_map]
    exact List.pairwise_lt_range.imp fun hij => cell_disjoint hw.le hh.le hgap hij
  inside := by
    intro r hr
    obtain ⟨i, hi, rfl⟩ := List.mem_map.mp hr
    have hcol : i % g.cols < g.cols := Nat.mod_lt _ hcols
    have hrow : i / g.cols < rows := by
      rw [Nat.div_lt_iff_lt_mul hcols]
      have := List.mem_range.mp hi
      nlinarith
    refine ⟨?_, ?_, ?_, ?_⟩
    · exact add_nonneg hleft (mul_nonneg (Nat.cast_nonneg _) (add_nonneg hw.le hgap))
    · exact add_nonneg htop (mul_nonneg (Nat.cast_nonneg _) (add_nonneg hh.le hgap))
    · have hstep := step_end_le hw.le hgap hcol
      simp only [Rect.right, cell]
      linarith
    · have hstep := step_end_le hh.le hgap hrow
      simp only [Rect.bottom, cell]
      linarith

end Grid

end Order

section Rounding

variable {K : Type} [CommRing K] [LinearOrder K] [FloorRing K]

namespace Rect

/-- The whole numbers below a rectangle's own. -/
def floor (r : Rect K) : Rect ℤ where
  x := ⌊r.x⌋
  y := ⌊r.y⌋
  w := ⌊r.w⌋
  h := ⌊r.h⌋

end Rect

/-- Rounding the size of a step first loses a fraction for every step made. -/
theorem floor_step [IsStrictOrderedRing K] (origin gap : ℤ) (size : K) (k : ℕ) :
    ⌊(origin : K) + k * (size + gap)⌋ = origin + k * (⌊size⌋ + gap) ↔ k * Int.fract size < 1 := by
  have hsplit : (origin : K) + k * (size + gap) =
      ((origin + k * (⌊size⌋ + gap) : ℤ) : K) + k * Int.fract size := by
    have hsize := Int.floor_add_fract size
    push_cast
    rw [← sub_eq_zero]
    nth_rewrite 1 [← hsize]
    noncomm_ring
  have hnonneg : 0 ≤ (k : K) * Int.fract size :=
    mul_nonneg (Nat.cast_nonneg _) (Int.fract_nonneg _)
  rw [hsplit, Int.floor_intCast_add, add_eq_left, Int.floor_eq_zero_iff]
  simp [hnonneg]

end Rounding

/-- The steps of a row whose cells share `room` equally come out whole exactly when no more than one
unit is left over. -/
theorem fract_steps_lt_one {room : ℤ} {count : ℕ} (hcount : 0 < count) :
    (∀ k < count, (k : ℚ) * Int.fract ((room : ℚ) / count) < 1) ↔ room % count ≤ 1 := by
  have hq : (0 : ℚ) < count := by exact_mod_cast hcount
  have hfract : Int.fract ((room : ℚ) / count) = ((room % count : ℤ) : ℚ) / count := by
    exact Int.fract_div_intCast_eq_div_intCast_mod
  have hstep : ∀ k : ℕ, (k : ℚ) * Int.fract ((room : ℚ) / count) < 1 ↔
      (k : ℤ) * (room % count) < count := by
    intro k
    rw [hfract, ← mul_div_assoc, div_lt_one hq]
    exact_mod_cast Iff.rfl
  simp only [hstep]
  have hmod : 0 ≤ room % count := Int.emod_nonneg _ (by omega)
  have hlt : room % count < count := Int.emod_lt_of_pos _ (by omega)
  constructor
  · intro h
    by_contra hmore
    have hlast := h (count - 1) (by omega)
    have hcast : ((count - 1 : ℕ) : ℤ) = count - 1 := by omega
    rw [hcast] at hlast
    nlinarith
  · intro h k hk
    have hk' : (k : ℤ) < count := by exact_mod_cast hk
    nlinarith

end CellGrid
end Batiste
