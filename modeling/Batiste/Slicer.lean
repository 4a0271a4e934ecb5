import Batiste.Raster
import Mathlib.Data.List.Sort
import Mathlib.Data.Rat.Floor
import Mathlib.Tactic.FieldSimp
import Mathlib.Tactic.NormNum

/-! The raster slicer of a mesh: one bit mask a layer, filled by winding numbers. Numbers are exact
rationals. -/
namespace Batiste
namespace Layers

structure Point where
  x : ℚ
  y : ℚ
  z : ℚ
  deriving DecidableEq

structure Triangle where
  a : Point
  b : Point
  c : Point
  deriving DecidableEq

structure Bounds where
  minX : ℚ
  minY : ℚ
  minZ : ℚ
  maxX : ℚ
  maxY : ℚ
  maxZ : ℚ

def Triangle.points (t : Triangle) : List Point := [t.a, t.b, t.c]

def Bounds.extend (b : Bounds) (p : Point) : Bounds :=
  ⟨min b.minX p.x, min b.minY p.y, min b.minZ p.z, max b.maxX p.x, max b.maxY p.y, max b.maxZ p.z⟩

/-- The infinite bounds of no triangles are none. -/
def bounds (tris : List Triangle) : Option Bounds :=
  match tris.flatMap Triangle.points with
  | [] => none
  | p :: ps => some (ps.foldl Bounds.extend ⟨p.x, p.y, p.z, p.x, p.y, p.z⟩)

structure Grid where
  px : ℚ
  x0 : ℚ
  y0 : ℚ
  W : ℕ
  H : ℕ
  px_pos : 0 < px

def Grid.ofBounds (b : Bounds) (px margin : ℚ) (hpx : 0 < px) : Grid where
  px
  x0 := b.minX - margin
  y0 := b.minY - margin
  W := (⌈(b.maxX - b.minX + 2 * margin) / px⌉ + 1).toNat
  H := (⌈(b.maxY - b.minY + 2 * margin) / px⌉ + 1).toNat
  px_pos := hpx

def Grid.cx (g : Grid) (c : ℚ) : ℚ := g.x0 + (c + 1 / 2) * g.px

def Grid.cy (g : Grid) (r : ℚ) : ℚ := g.y0 + (r + 1 / 2) * g.px

/-! ## The cut of a plane -/

/-- A piece of the boundary of a layer, from the lower end to the upper one. -/
structure Piece where
  xa : ℚ
  ya : ℚ
  xb : ℚ
  yb : ℚ
  sgn : ℤ

def cutEdge (z : ℚ) (a c : Point) : Option (ℚ × ℚ) :=
  if decide (a.z < z) != decide (c.z < z) then
    let u := (z - a.z) / (c.z - a.z)
    some (a.x + u * (c.x - a.x), a.y + u * (c.y - a.y))
  else none

def Triangle.cut (t : Triangle) (z : ℚ) : List (ℚ × ℚ) :=
  [(t.a, t.b), (t.b, t.c), (t.c, t.a)].filterMap fun e => cutEdge z e.1 e.2

/-- The first coordinate of the normal. -/
def Triangle.nx (t : Triangle) : ℚ :=
  (t.b.y - t.a.y) * (t.c.z - t.a.z) - (t.b.z - t.a.z) * (t.c.y - t.a.y)

def Triangle.piece (z : ℚ) (t : Triangle) : Option Piece :=
  match t.cut z with
  | [p, q] =>
    if t.nx = 0 then none
    else
      let sgn : ℤ := if t.nx < 0 then 1 else -1
      if p.2 = q.2 then none
      else if p.2 > q.2 then some ⟨q.1, q.2, p.1, p.2, sgn⟩
      else some ⟨p.1, p.2, q.1, q.2, sgn⟩
  | _ => none

/-! ## Filling the rows -/

structure Crossing where
  x : ℚ
  sgn : ℤ

def Grid.rowsOf (g : Grid) (e : Piece) : List ℕ :=
  (upTo (max 0 ⌈(e.ya - g.y0) / g.px - 1 / 2⌉)
    (min (g.H - 1) (⌈(e.yb - g.y0) / g.px - 1 / 2⌉ - 1))).map Int.toNat

def Grid.crossing (g : Grid) (e : Piece) (r : ℕ) : Crossing :=
  ⟨e.xa + (g.cy r - e.ya) / (e.yb - e.ya) * (e.xb - e.xa), e.sgn⟩

def Grid.rows (g : Grid) (z : ℚ) (tris : List Triangle) : List (List Crossing) :=
  scatter g.H g.rowsOf g.crossing (tris.filterMap (Triangle.piece z))

/-- The first column whose centre is not left of a place. -/
def Grid.column (g : Grid) (x : ℚ) : ℤ := ⌈(x - g.x0) / g.px - 1 / 2⌉

/-- The columns between neighbouring crossings where the winding number is not zero. -/
def Grid.fill (g : Grid) : ℤ → List Crossing → List ℕ
  | w, a :: b :: cr =>
    let w := w + a.sgn
    (if w ≠ 0 then
      (upTo (max 0 (g.column a.x)) (min (g.W - 1) (g.column b.x - 1))).map Int.toNat
    else []) ++ g.fill w (b :: cr)
  | _, _ => []

def Grid.mask (g : Grid) (z : ℚ) (tris : List Triangle) : BitGrid g.W g.H :=
  BitGrid.blank.paint ((List.range g.H).flatMap fun r =>
    let cr := ((g.rows z tris)[r]?.getD []).insertionSort fun a b => a.x ≤ b.x
    (g.fill 0 cr).map fun c => r * g.W + c)

/-! ## The slicer -/

structure SliceOptions where
  layer : ℚ
  px : ℚ
  layer_pos : 0 < layer
  px_pos : 0 < px
  zmin : Option ℚ
  zmax : Option ℚ
  grid : Option Grid

structure Slicer where
  tris : List Triangle
  grid : Grid
  nLayers : ℕ
  z0 : ℚ
  layer : ℚ
  layer_pos : 0 < layer

def makeSlicer (tris : List Triangle) (o : SliceOptions) : Option Slicer := do
  let b := bounds tris
  let z0 ← o.zmin <|> b.map Bounds.minZ
  let z1 ← o.zmax <|> b.map Bounds.maxZ
  let grid ← o.grid <|> b.map fun b => Grid.ofBounds b o.px 2 o.px_pos
  return {
    tris
    grid
    nLayers := (max 1 ⌈(z1 - z0) / o.layer - 1 / 1000000000⌉).toNat
    z0
    layer := o.layer
    layer_pos := o.layer_pos }

def Triangle.lo (t : Triangle) : ℚ := min (min t.a.z t.b.z) t.c.z

def Triangle.hi (t : Triangle) : ℚ := max (max t.a.z t.b.z) t.c.z

/-- The layers `i0` to `i1` of a triangle that is not flat. -/
def Slicer.layersOf (s : Slicer) (t : Triangle) : List ℕ :=
  if t.hi = t.lo then []
  else (upTo (max 0 ⌈(t.lo - s.z0) / s.layer - 1 / 2⌉)
    (min (s.nLayers - 1) ⌊(t.hi - s.z0) / s.layer - 1 / 2⌋)).map Int.toNat

def Slicer.buckets (s : Slicer) : List (List Triangle) :=
  scatter s.nLayers s.layersOf (fun t _ => t) s.tris

def Slicer.zOf (s : Slicer) (i : ℤ) : ℚ := s.z0 + (i + 1 / 2) * s.layer

/-- `zOf(i) + 1e-5` -/
def Slicer.plane (s : Slicer) (i : ℤ) : ℚ := s.zOf i + 1 / 100000

def Slicer.slice (s : Slicer) (i : ℤ) : BitGrid s.grid.W s.grid.H :=
  if i < 0 ∨ s.nLayers ≤ i then .blank
  else s.grid.mask (s.plane i) (s.buckets[i.toNat]?.getD [])

/-- The layer from all the triangles. -/
def Slicer.slicePlain (s : Slicer) (i : ℤ) : BitGrid s.grid.W s.grid.H :=
  if i < 0 ∨ s.nLayers ≤ i then .blank else s.grid.mask (s.plane i) s.tris

/-! A pixel of a layer is set by the winding number of the boundary left of its centre; so the layer
from a bucket is the layer from all triangles where the triangles the bucket lacks do not count. -/

/-- The crossings of a row, in the order of the triangles. -/
def Grid.crossings (g : Grid) (z : ℚ) (tris : List Triangle) (r : ℕ) : List Crossing :=
  ((tris.filterMap (Triangle.piece z)).filter fun e => r ∈ g.rowsOf e).map fun e => g.crossing e r

def Grid.windingOf (g : Grid) (cr : List Crossing) (c : ℕ) : ℤ :=
  ((cr.filter fun a => g.column a.x ≤ c).map Crossing.sgn).sum

/-- The signed count of the crossings up to the centre of a pixel. -/
def Grid.winding (g : Grid) (z : ℚ) (tris : List Triangle) (r c : ℕ) : ℤ :=
  g.windingOf (g.crossings z tris r) c

/-- The boundary crosses the row after the centre of a pixel. -/
def Grid.Beyond (g : Grid) (z : ℚ) (tris : List Triangle) (r c : ℕ) : Prop :=
  ∃ a ∈ g.crossings z tris r, c < g.column a.x

instance (g : Grid) (z : ℚ) (tris : List Triangle) (r c : ℕ) : Decidable (g.Beyond z tris r c) :=
  inferInstanceAs (Decidable (∃ a ∈ g.crossings z tris r, c < g.column a.x))

/-! ## One row -/

theorem nodup_map_toNat {a b : ℤ} (ha : 0 ≤ a) : ((upTo a b).map Int.toNat).Nodup := by
  refine (List.nodup_map_iff_inj_on (nodup_upTo a b)).mpr ?_
  intro x hx y hy h
  have hx0 := (mem_upTo.mp hx).1
  have hy0 := (mem_upTo.mp hy).1
  omega

theorem mem_map_toNat {a b : ℤ} (ha : 0 ≤ a) {k : ℕ} :
    k ∈ (upTo a b).map Int.toNat ↔ a ≤ k ∧ k ≤ b := by
  rw [List.mem_map]
  constructor
  · rintro ⟨x, hx, rfl⟩
    rw [mem_upTo] at hx
    omega
  · rintro ⟨hk, hkb⟩
    exact ⟨k, mem_upTo.mpr ⟨hk, hkb⟩, Int.toNat_natCast k⟩

theorem Grid.rows_getElem? (g : Grid) (z : ℚ) (tris : List Triangle) {r : ℕ} (hr : r < g.H) :
    (g.rows z tris)[r]? = some (g.crossings z tris r) :=
  scatter_getElem? (fun _ => nodup_map_toNat (le_max_left _ _)) _ _ hr

theorem Grid.column_mono (g : Grid) {x x' : ℚ} (h : x ≤ x') : g.column x ≤ g.column x' := by
  have hpx := g.px_pos
  unfold Grid.column
  gcongr

theorem Grid.windingOf_cons (g : Grid) (a : Crossing) (cr : List Crossing) (c : ℕ) :
    g.windingOf (a :: cr) c = (if g.column a.x ≤ c then a.sgn else 0) + g.windingOf cr c := by
  unfold Grid.windingOf
  by_cases ha : g.column a.x ≤ c <;> simp [ha]

/-- Where all crossings are after the centre none is counted. -/
theorem Grid.windingOf_eq_zero (g : Grid) {cr : List Crossing} {c : ℕ}
    (h : ∀ a ∈ cr, c < g.column a.x) : g.windingOf cr c = 0 := by
  unfold Grid.windingOf
  rw [List.filter_eq_nil_iff.mpr]
  · rfl
  · intro a ha
    simpa using h a ha

/-- The fill of a sorted row, with a winding number carried to its first crossing. -/
theorem Grid.mem_fill (g : Grid) (w : ℤ) {cr : List Crossing}
    (hsorted : cr.Pairwise fun a b => a.x ≤ b.x) {c : ℕ} (hc : c < g.W) :
    c ∈ g.fill w cr ↔ (∃ a ∈ cr.head?, g.column a.x ≤ c) ∧ w + g.windingOf cr c ≠ 0 ∧
      ∃ a ∈ cr, c < g.column a.x := by
  induction w, cr using Grid.fill.induct with
  | case1 w a b cr w' ih =>
    obtain ⟨hfirst, hrest⟩ := List.pairwise_cons.mp hsorted
    have hcolumns : c ∈ (if w + a.sgn ≠ 0 then
        (upTo (max 0 (g.column a.x)) (min (g.W - 1) (g.column b.x - 1))).map Int.toNat else []) ↔
        w + a.sgn ≠ 0 ∧ g.column a.x ≤ c ∧ c < g.column b.x := by
      split
      · next hw =>
        rw [mem_map_toNat (le_max_left _ _)]
        simp only [hw, ne_eq, not_false_eq_true, true_and]
        omega
      · next hw => simp [hw]
    rw [Grid.fill, List.mem_append, hcolumns, ih hrest, g.windingOf_cons a]
    have hab : g.column a.x ≤ g.column b.x := g.column_mono (hfirst b List.mem_cons_self)
    by_cases ha : g.column a.x ≤ c
    · by_cases hb : c < g.column b.x
      · -- The centre lies between the two: everything later is after it.
        have hall : ∀ d ∈ b :: cr, c < g.column d.x := by
          intro d hd
          rcases List.mem_cons.mp hd with rfl | hd
          · exact hb
          · exact lt_of_lt_of_le hb (g.column_mono ((List.pairwise_cons.mp hrest).1 d hd))
        simp [ha, hb, g.windingOf_eq_zero hall]
      · simp [ha, hb, not_lt.mp hb, w', add_assoc]
    · have hb : ¬g.column b.x ≤ c := fun hb => ha (hab.trans hb)
      simp [ha, hb]
  | case2 cr w hcr =>
    rcases cr with _ | ⟨a, _ | ⟨b, cr⟩⟩
    · simp [Grid.fill]
    · have hone : ¬(g.column a.x ≤ c ∧ c < g.column a.x) := fun h => absurd h.2 (not_lt.mpr h.1)
      simp only [Grid.fill, List.not_mem_nil, List.head?_cons, Option.mem_some_iff,
        exists_eq_left', List.mem_singleton, exists_eq_left, false_iff]
      exact fun h => hone ⟨h.1, h.2.2⟩
    · exact (hcr a b cr rfl).elim

theorem Grid.lt_of_mem_fill (g : Grid) {w : ℤ} {cr : List Crossing} {c : ℕ} (h : c ∈ g.fill w cr) :
    c < g.W := by
  induction w, cr using Grid.fill.induct with
  | case1 w a b cr w' ih =>
    rw [Grid.fill, List.mem_append] at h
    rcases h with h | h
    · split at h
      · have hlast := ((mem_map_toNat (le_max_left _ _)).mp h).2
        omega
      · cases h
    · exact ih h
  | case2 cr w hcr =>
    rcases cr with _ | ⟨a, _ | ⟨b, cr⟩⟩
    · cases h
    · cases h
    · exact (hcr a b cr rfl).elim

theorem Grid.windingOf_perm (g : Grid) {cr cr' : List Crossing} (h : cr.Perm cr') (c : ℕ) :
    g.windingOf cr c = g.windingOf cr' c := ((h.filter _).map _).sum_eq

/-- A pixel is set where the winding number is not zero and the boundary goes on after it. -/
theorem Grid.pixel_mask (g : Grid) (z : ℚ) (tris : List Triangle) {r c : ℕ} (hr : r < g.H)
    (hc : c < g.W) :
    (g.mask z tris).pixel r c = true ↔ g.winding z tris r c ≠ 0 ∧ g.Beyond z tris r c := by
  have hplace : (g.mask z tris).pixel r c = true ↔
      c ∈ g.fill 0 ((g.crossings z tris r).insertionSort fun a b => a.x ≤ b.x) := by
    rw [BitGrid.pixel, Grid.mask, BitGrid.bit_paint_blank, List.mem_flatMap]
    constructor
    · rintro ⟨⟨r', hr', hmem⟩, -⟩
      obtain ⟨c', hc', hplace⟩ := List.mem_map.mp hmem
      rw [g.rows_getElem? z tris (List.mem_range.mp hr')] at hc'
      obtain ⟨rfl, rfl⟩ := (BitGrid.place_inj (g.lt_of_mem_fill hc') hc).mp hplace
      exact hc'
    · intro hmem
      refine ⟨⟨r, List.mem_range.mpr hr, List.mem_map.mpr ⟨c, ?_, rfl⟩⟩, BitGrid.place_lt hr hc⟩
      rw [g.rows_getElem? z tris hr]
      exact hmem
  have hperm := List.perm_insertionSort (fun a b : Crossing => a.x ≤ b.x) (g.crossings z tris r)
  have hsorted : ((g.crossings z tris r).insertionSort fun a b => a.x ≤ b.x).Pairwise
      fun a b => a.x ≤ b.x := by
    have : Std.Total fun a b : Crossing => a.x ≤ b.x := ⟨fun a b => le_total a.x b.x⟩
    have : IsTrans Crossing fun a b => a.x ≤ b.x := ⟨fun _ _ _ hab hbc => hab.trans hbc⟩
    exact List.pairwise_insertionSort _ _
  rw [hplace, g.mem_fill 0 hsorted hc, zero_add, g.windingOf_perm hperm]
  constructor
  · rintro ⟨-, hwinding, a, ha, hbeyond⟩
    exact ⟨hwinding, a, hperm.mem_iff.mp ha, hbeyond⟩
  · rintro ⟨hwinding, a, ha, hbeyond⟩
    refine ⟨?_, hwinding, a, hperm.mem_iff.mpr ha, hbeyond⟩
    -- A count that is not zero counts some crossing, and the first one is not after it.
    by_contra hfirst
    refine hwinding (g.windingOf_eq_zero fun d hd => ?_)
    have hd' := hperm.mem_iff.mpr hd
    cases hcr : (g.crossings z tris r).insertionSort fun a b => a.x ≤ b.x with
    | nil => rw [hcr] at hd'; cases hd'
    | cons first cr =>
      rw [hcr] at hd' hfirst hsorted
      have hcolumn : c < g.column first.x := not_le.mp fun h => hfirst ⟨first, rfl, h⟩
      rcases List.mem_cons.mp hd' with rfl | hd'
      · exact hcolumn
      · exact lt_of_lt_of_le hcolumn (g.column_mono ((List.pairwise_cons.mp hsorted).1 d hd'))

/-! ## Several lists of triangles -/

theorem Grid.crossings_append (g : Grid) (z : ℚ) (ts ts' : List Triangle) (r : ℕ) :
    g.crossings z (ts ++ ts') r = g.crossings z ts r ++ g.crossings z ts' r := by
  simp [Grid.crossings]

theorem Grid.crossings_split (g : Grid) (z : ℚ) (p : Triangle → Bool) (tris : List Triangle)
    (r : ℕ) : (g.crossings z (tris.filter p) r ++ g.crossings z (tris.filter fun t => !p t) r).Perm
      (g.crossings z tris r) := by
  rw [← g.crossings_append]
  exact (((List.filter_append_perm p tris).filterMap _).filter _).map _

theorem Grid.winding_split (g : Grid) (z : ℚ) (p : Triangle → Bool) (tris : List Triangle)
    (r c : ℕ) : g.winding z tris r c =
      g.winding z (tris.filter p) r c + g.winding z (tris.filter fun t => !p t) r c := by
  rw [Grid.winding, ← g.windingOf_perm (g.crossings_split z p tris r)]
  simp [Grid.winding, Grid.windingOf]

theorem Grid.beyond_split (g : Grid) (z : ℚ) (p : Triangle → Bool) (tris : List Triangle)
    (r c : ℕ) : g.Beyond z tris r c ↔
      g.Beyond z (tris.filter p) r c ∨ g.Beyond z (tris.filter fun t => !p t) r c := by
  simp only [Grid.Beyond, ← (g.crossings_split z p tris r).mem_iff, List.mem_append, or_and_right,
    exists_or]

/-- Only the triangles that the plane cuts count. -/
theorem Grid.crossings_congr (g : Grid) (z : ℚ) {p q : Triangle → Bool} {tris : List Triangle}
    (h : ∀ t ∈ tris, t.piece z ≠ none → p t = q t) (r : ℕ) :
    g.crossings z (tris.filter p) r = g.crossings z (tris.filter q) r := by
  have hpieces : (tris.filter p).filterMap (Triangle.piece z) =
      (tris.filter q).filterMap (Triangle.piece z) := by
    induction tris with
    | nil => rfl
    | cons t tris ih =>
      have ih := ih fun t' ht' => h t' (List.mem_cons_of_mem _ ht')
      by_cases hpiece : t.piece z = none
      · simp only [List.filter_cons]
        split <;> split <;> simp [hpiece, ih]
      · simp only [List.filter_cons, h t List.mem_cons_self hpiece]
        split
        · simp only [List.filterMap_cons, ih]
        · exact ih
  rw [Grid.crossings, hpieces, ← Grid.crossings]

/-! ## The buckets -/

theorem Triangle.lo_lt_of_cut {t : Triangle} {z : ℚ} (h : t.piece z ≠ none) :
    t.lo < z ∧ z ≤ t.hi := by
  constructor
  · by_contra hlo
    simp only [Triangle.lo, min_lt_iff, not_or] at hlo
    exact h (by simp [Triangle.piece, Triangle.cut, cutEdge, hlo.1.1, hlo.1.2, hlo.2])
  · by_contra hhi
    simp only [Triangle.hi, le_max_iff, not_or, not_le] at hhi
    exact h (by simp [Triangle.piece, Triangle.cut, cutEdge, hhi.1.1, hhi.1.2, hhi.2])

/-- `i0` to `i1` are the layers whose middle the triangle meets. -/
theorem Slicer.mem_layersOf (s : Slicer) (t : Triangle) {i : ℕ} (hi : i < s.nLayers) :
    i ∈ s.layersOf t ↔ t.hi ≠ t.lo ∧ t.lo ≤ s.zOf i ∧ s.zOf i ≤ t.hi := by
  have hlayer := s.layer_pos
  have hlo : ⌈(t.lo - s.z0) / s.layer - 1 / 2⌉ ≤ (i : ℤ) ↔ t.lo ≤ s.zOf i := by
    rw [Int.ceil_le, sub_le_iff_le_add, div_le_iff₀ hlayer, sub_le_iff_le_add', Slicer.zOf]
  have hhi : (i : ℤ) ≤ ⌊(t.hi - s.z0) / s.layer - 1 / 2⌋ ↔ s.zOf i ≤ t.hi := by
    rw [Int.le_floor, le_sub_iff_add_le, le_div_iff₀ hlayer, le_sub_iff_add_le', Slicer.zOf]
  unfold Slicer.layersOf
  split
  · next hflat => simp [hflat]
  · next hflat =>
    have hfirst : (0 : ℤ) ≤ i := Int.natCast_nonneg i
    have hlast : (i : ℤ) ≤ s.nLayers - 1 := by omega
    rw [mem_map_toNat (le_max_left _ _), max_le_iff, le_min_iff, hlo, hhi]
    simp [hflat, hfirst, hlast]

/-- The triangle starts after the middle of the layer and before the plane that cuts it, and it
reaches that plane. -/
def Slicer.Missed (s : Slicer) (i : ℤ) (t : Triangle) : Prop :=
  s.zOf i < t.lo ∧ t.lo < s.plane i ∧ s.plane i ≤ t.hi

instance (s : Slicer) (i : ℤ) : DecidablePred (s.Missed i) := fun _ => instDecidableAnd

theorem Slicer.mem_layersOf_iff_not_missed (s : Slicer) {t : Triangle} {i : ℕ}
    (hi : i < s.nLayers) (hcut : t.piece (s.plane i) ≠ none) :
    i ∈ s.layersOf t ↔ ¬s.Missed i t := by
  obtain ⟨hlo, hhi⟩ := Triangle.lo_lt_of_cut hcut
  have hplane : s.zOf i < s.plane i := lt_add_of_pos_right _ (by norm_num)
  rw [s.mem_layersOf t hi, Slicer.Missed]
  constructor
  · rintro ⟨-, hlow, -⟩ ⟨hstart, -, -⟩
    exact absurd hlow (not_le.mpr hstart)
  · intro hmissed
    refine ⟨(hlo.trans_le hhi).ne', not_lt.mp fun hstart => hmissed ⟨hstart, hlo, hhi⟩, ?_⟩
    exact hplane.le.trans hhi

theorem Slicer.bucket_eq (s : Slicer) {i : ℕ} (hi : i < s.nLayers) :
    s.buckets[i]? = some (s.tris.filter fun t => i ∈ s.layersOf t) := by
  rw [Slicer.buckets, scatter_getElem? _ _ _ hi, List.map_id']
  intro t
  unfold Slicer.layersOf
  split
  · exact List.nodup_nil
  · exact nodup_map_toNat (le_max_left _ _)

/-- At a pixel the missed triangles leave the fill as the others make it: inside, they do not
cancel the winding number, and outside they give no filled winding number. -/
def Slicer.Harmless (s : Slicer) (i : ℤ) (r c : ℕ) : Prop :=
  let found := s.tris.filter fun t => !decide (s.Missed i t)
  let missed := s.tris.filter fun t => decide (s.Missed i t)
  let w := s.grid.winding (s.plane i) found r c
  let w' := s.grid.winding (s.plane i) missed r c
  if w ≠ 0 ∧ s.grid.Beyond (s.plane i) found r c then w' ≠ -w
  else w' = -w ∨ ¬s.grid.Beyond (s.plane i) found r c ∧ ¬s.grid.Beyond (s.plane i) missed r c

theorem fill_eq_iff (w w' : ℤ) (found missed : Prop) [Decidable found] [Decidable missed] :
    ((w ≠ 0 ∧ found ↔ w' + w ≠ 0 ∧ (missed ∨ found)) ↔
      if w ≠ 0 ∧ found then w' ≠ -w else w' = -w ∨ ¬found ∧ ¬missed) := by
  have hcancel : w' + w = 0 ↔ w' = -w := by omega
  by_cases hfound : w ≠ 0 ∧ found
  · simp [hfound.1, hfound.2, hcancel]
  · rw [if_neg hfound, ← hcancel]
    tauto

/-- The layer from the bucket is the layer from all triangles exactly where the missed triangles
are harmless at every pixel. -/
theorem Slicer.slice_eq_plain_iff (s : Slicer) (i : ℤ) :
    s.slice i = s.slicePlain i ↔ (0 ≤ i → i < s.nLayers →
      ∀ r < s.grid.H, ∀ c < s.grid.W, s.Harmless i r c) := by
  unfold Slicer.slice Slicer.slicePlain
  by_cases hout : i < 0 ∨ s.nLayers ≤ i
  · simp only [hout, if_true, true_iff]
    omega
  · obtain ⟨k, rfl⟩ := Int.eq_ofNat_of_zero_le (not_lt.mp fun h => hout (Or.inl h))
    have hk : k < s.nLayers := by omega
    have hbucket : ∀ r, s.grid.crossings (s.plane k) (s.tris.filter fun t => k ∈ s.layersOf t) r =
        s.grid.crossings (s.plane k) (s.tris.filter fun t => !decide (s.Missed k t)) r :=
      s.grid.crossings_congr _ fun t _ hcut => by
        simp [s.mem_layersOf_iff_not_missed hk hcut]
    have hpixel : ∀ r < s.grid.H, ∀ c < s.grid.W,
        (((s.grid.mask (s.plane k) (s.tris.filter fun t => k ∈ s.layersOf t)).pixel r c = true ↔
          (s.grid.mask (s.plane k) s.tris).pixel r c = true) ↔ s.Harmless k r c) := by
      intro r hr c hc
      rw [s.grid.pixel_mask _ _ hr hc, s.grid.pixel_mask _ _ hr hc,
        s.grid.winding_split _ (fun t => decide (s.Missed k t)) s.tris,
        s.grid.beyond_split _ (fun t => decide (s.Missed k t)) s.tris, Slicer.Harmless]
      simp only [Grid.winding, Grid.Beyond, hbucket]
      exact fill_eq_iff _ _ _ _
    simp only [hout, if_false, Int.toNat_natCast, s.bucket_eq hk, Option.getD_some]
    constructor
    · intro heq _ _ r hr c hc
      exact (hpixel r hr c hc).mp (by rw [heq])
    · intro hharmless
      exact BitGrid.ext_pixels fun r hr c hc =>
        (hpixel r hr c hc).mpr (hharmless (Int.natCast_nonneg k) (by omega) r hr c hc)

/-- The triangles of a box: its corners, and the corners of each triangle. -/
def box (x0 y0 z0 x1 y1 z1 : ℚ) : List Triangle :=
  let v : List Point := [⟨x0, y0, z0⟩, ⟨x1, y0, z0⟩, ⟨x1, y1, z0⟩, ⟨x0, y1, z0⟩, ⟨x0, y0, z1⟩,
    ⟨x1, y0, z1⟩, ⟨x1, y1, z1⟩, ⟨x0, y1, z1⟩]
  let f : List (ℕ × ℕ × ℕ) := [(0, 3, 2), (0, 2, 1), (4, 5, 6), (4, 6, 7), (0, 1, 5), (0, 5, 4),
    (2, 3, 7), (2, 7, 6), (1, 2, 6), (1, 6, 5), (3, 0, 4), (3, 4, 7)]
  let corner (i : ℕ) := v[i]?.getD ⟨x0, y0, z0⟩
  f.map fun t => ⟨corner t.1, corner t.2.1, corner t.2.2⟩

/-- A low plate, and over it a box that starts between the middle of the first layer and its
plane. -/
def plateAndBox : List Triangle :=
  box 0 0 0 3 3 (1 / 20) ++ box 0 0 (1 / 10 + 1 / 200000) 3 3 (3 / 10)

theorem heights_pos : (0 : ℚ) < 1 / 5 ∧ (0 : ℚ) < 1 := by norm_num

/-- The first layer of the two boxes is empty from its bucket and not from all triangles. -/
theorem plateAndBox_slice : ¬∀ s ∈ makeSlicer plateAndBox
    ⟨1 / 5, 1, heights_pos.1, heights_pos.2, none, none, none⟩, s.slice 0 = s.slicePlain 0 := by
  decide +kernel

/-- Where no triangle is missed the two layers are the same. -/
theorem Slicer.slice_eq_plain (s : Slicer) {i : ℤ} (h : ∀ t ∈ s.tris, ¬s.Missed i t) :
    s.slice i = s.slicePlain i := by
  unfold Slicer.slice Slicer.slicePlain
  split
  · rfl
  · next hout =>
    obtain ⟨k, rfl⟩ := Int.eq_ofNat_of_zero_le (not_lt.mp fun h => hout (Or.inl h))
    have hk : k < s.nLayers := by omega
    have hbucket : ∀ r, s.grid.crossings (s.plane k) (s.tris.filter fun t => k ∈ s.layersOf t) r =
        s.grid.crossings (s.plane k) (s.tris.filter fun _ => true) r :=
      s.grid.crossings_congr _ fun t ht hcut => by
        simp [s.mem_layersOf_iff_not_missed hk hcut, h t ht]
    simp only [List.filter_true] at hbucket
    rw [Int.toNat_natCast, s.bucket_eq hk, Option.getD_some]
    refine BitGrid.ext_pixels fun r hr c hc => ?_
    rw [s.grid.pixel_mask _ _ hr hc, s.grid.pixel_mask _ _ hr hc]
    simp only [Grid.winding, Grid.Beyond, hbucket]

end Layers
end Batiste
