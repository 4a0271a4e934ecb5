import Batiste.Overhang
import Batiste.Slicer

/-! The fit of a lid in a closed assembly: the volume that both parts fill, the vertical gaps over
what rises from the plate of the lid, and the verdict on them. Numbers are exact rationals. -/
namespace Batiste
namespace Clash

open Layers Overhang

structure Options where
  layer : ℚ := 1 / 5
  px : ℚ := 1 / 10
  layer_pos : 0 < layer
  px_pos : 0 < px
  minGap : ℚ := 3 / 5
  maxInterference : ℚ := 0
  features : List Feature := []

/-- The masks of the body and of the lid in each layer. -/
abbrev Masks (W H : ℕ) := List (BitGrid W H × BitGrid W H)

/-! ## The columns -/

section Columns

variable {W H : ℕ} (o : Options) (layers : Masks W H)

def both (p : ℕ) (m : BitGrid W H × BitGrid W H) : Bool := m.1.bit p && m.2.bit p

def bodyAt (p i : ℕ) : Bool := (layers[i]?.map fun m => m.1.bit p).getD false

/-- A number stored in an `Int16Array`. -/
def int16 (x : ℤ) : ℤ := x.bmod 65536

def lidTop (p : ℕ) : ℤ :=
  layers.zipIdx.foldl (fun t m => if m.1.2.bit p then int16 m.2 else t) (-1)

def Options.cell (o : Options) : ℚ := o.px * o.px * o.layer

def vol : ℚ :=
  layers.foldl (fun v m =>
    (List.range (W * H)).foldl (fun v p => if both p m then v + o.cell else v) v) 0

def interferes (p : ℕ) : Bool := layers.any (both p)

/-- How often each top occurs, in the order of the columns. -/
def hist (W H : ℕ) (top : ℕ → ℤ) : List (ℤ × ℕ) :=
  (Grouping.groupBy id (((List.range (W * H)).map top).filter fun t => decide (0 ≤ t))).map
    fun group => (group.1, group.2.length)

/-- The most common top of the lid. -/
def plateTop (W H : ℕ) (top : ℕ → ℤ) : ℤ :=
  (((hist W H top).insertionSort fun a b => b.2 ≤ a.2).head?.map Prod.fst).getD (-1)

def gap (p : ℕ) : Option ℚ :=
  let t := lidTop layers p
  if t ≤ plateTop W H (lidTop layers) ∨ interferes layers p then none
  else ((List.range layers.length).find? fun i : ℕ => decide (t < i) && bodyAt layers p i).map
    fun i : ℕ => ((i : ℤ) - t - 1 : ℤ) * o.layer

end Columns

/-! ## The report -/

structure RegionReport where
  x : ℚ
  y : ℚ
  areaMm2 : ℚ
  volMm3 : ℚ
  zMin : ℚ
  zMax : ℚ
  feature : String

structure Report where
  params : ℚ × ℚ × ℚ
  interferenceMm3 : ℚ
  interferenceRegions : List RegionReport
  minVerticalGapMm : Option ℚ
  minGapAt : Option (ℚ × ℚ)
  contactAreaMm2 : ℚ
  pass : Bool

/-- The smallest gap that is no contact, where it is, and the number of contacts. -/
structure Scan where
  minGap : Option ℚ := none
  place : ℚ × ℚ := (0, 0)
  contactPx : ℕ := 0

def Scan.visit (g : Grid) (gap : ℕ → Option ℚ) (s : Scan) (p : ℕ) : Scan :=
  match gap p with
  | none => s
  | some d =>
    if d = 0 then { s with contactPx := s.contactPx + 1 }
    else if s.minGap.all fun least => decide (d < least) then
      { s with
        minGap := some d
        place := (g.cx ((p % g.W : ℕ) : ℚ), g.cy ((p / g.W : ℕ) : ℚ)) }
    else s

section Analysis

variable (o : Options) (g : Grid) (z0 : ℚ) (layers : Masks g.W g.H)

def zOf (i : ℕ) : ℚ := z0 + ((i : ℚ) + 1 / 2) * o.layer

def inter : BitGrid g.W g.H :=
  BitGrid.blank.paint ((List.range (g.W * g.H)).filter (interferes layers))

def regionReport (idx : List ℕ) : RegionReport :=
  let sx := (idx.map (· % g.W)).sum
  let sy := (idx.map (· / g.W)).sum
  let x := toFixed 2 (g.cx ((sx : ℚ) / idx.length))
  let y := toFixed 2 (g.cy ((sy : ℚ) / idx.length))
  let filled := layers.map fun m => idx.countP fun p => both p m
  let zrange := (List.range layers.length).filter fun i => decide (0 < filled[i]?.getD 0)
  let zMin := toFixed 2 (zOf o z0 (zrange.head?.getD 0) - o.layer / 2)
  let zMax := toFixed 2 (zOf o z0 (zrange.getLast?.getD 0) + o.layer / 2)
  { x
    y
    areaMm2 := toFixed 2 (idx.length * (o.px * o.px))
    volMm3 := toFixed 2 (filled.sum * o.cell)
    zMin
    zMax
    feature := nameFeature zMin zMax x y o.features }

/-- The fold over the columns that looks for the smallest gap. -/
def scan : Scan := (List.range (g.W * g.H)).foldl (Scan.visit g (gap o layers)) {}

def analyzeMasks : Report :=
  let regions := ((components (inter g layers)).getD []).map (regionReport o g z0 layers)
  let s := scan o g layers
  let interferenceMm3 := toFixed 2 (vol o layers)
  let minVerticalGapMm := s.minGap.map (toFixed 2)
  { params := (o.layer, o.px, o.minGap)
    interferenceMm3
    interferenceRegions := regions.insertionSort fun a b => b.volMm3 ≤ a.volMm3
    minVerticalGapMm
    minGapAt := s.minGap.map fun _ => (toFixed 2 s.place.1, toFixed 2 s.place.2)
    contactAreaMm2 := toFixed 1 (s.contactPx * (o.px * o.px))
    pass := decide (interferenceMm3 ≤ o.maxInterference) &&
      minVerticalGapMm.all fun least => decide (o.minGap ≤ least) }

end Analysis

def unionBounds (a b : Bounds) : Bounds :=
  ⟨min a.minX b.minX, min a.minY b.minY, min a.minZ b.minZ,
    max a.maxX b.maxX, max a.maxY b.maxY, max a.maxZ b.maxZ⟩

/-- `makeSlicer` with the heights and the grid of both parts. -/
def slicerOn (o : Options) (g : Grid) (z0 zmax : ℚ) (tris : List Triangle) : Slicer where
  tris
  grid := g
  nLayers := (max 1 ⌈(zmax - z0) / o.layer - 1 / 1000000000⌉).toNat
  z0
  layer := o.layer
  layer_pos := o.layer_pos

theorem makeSlicer_common (o : Options) (g : Grid) (z0 zmax : ℚ) (tris : List Triangle) :
    makeSlicer tris ⟨o.layer, o.px, o.layer_pos, o.px_pos, some z0, some zmax, some g⟩ =
      some (slicerOn o g z0 zmax tris) := rfl

def masks (o : Options) (g : Grid) (z0 zmax : ℚ) (bodyTris lidTris : List Triangle) :
    Masks g.W g.H :=
  let sb := slicerOn o g z0 zmax bodyTris
  let sl := slicerOn o g z0 zmax lidTris
  (List.range sb.nLayers).map fun i : ℕ => (sb.slice i, sl.slice i)

/-- Two parts without triangles have no grid. -/
def analyzeClash (o : Options) (bodyTris lidTris : List Triangle) : Option Report :=
  (Option.merge unionBounds (bounds bodyTris) (bounds lidTris)).map fun ub =>
    let g := Grid.ofBounds ub o.px 2 o.px_pos
    analyzeMasks o g ub.minZ (masks o g ub.minZ ub.maxZ bodyTris lidTris)

/-! ## What the verdict is about -/

section Limits

variable {W H : ℕ} (o : Options) (layers : Masks W H)

/-- The volume of the cells that both parts fill. -/
def sharedVolume : ℚ :=
  ((layers.map fun m => (List.range (W * H)).countP fun p => both p m).sum : ℕ) * o.cell

/-- The last layer where the lid fills the column; -1 where it fills none. -/
def topLayer (p : ℕ) : ℤ :=
  ((layers.zipIdx.filter fun m => m.1.2.bit p).getLast?.map fun m => (m.2 : ℤ)).getD (-1)

/-- A column without interference where the lid rises above its plate, with the height from there to
the next cell of the body. -/
def VerticalGap (top : ℕ → ℤ) (p : ℕ) (d : ℚ) : Prop :=
  p < W * H ∧ interferes layers p = false ∧ plateTop W H top < top p ∧
    ∃ i : ℕ, top p < i ∧ bodyAt layers p i = true ∧
      (∀ j : ℕ, top p < j → j < i → bodyAt layers p j = false) ∧
        d = ((i : ℤ) - top p - 1 : ℤ) * o.layer

/-- The shared volume and the positive gaps keep to limits. -/
def Within (volume : ℚ → Prop) (least : ℚ) (top : ℕ → ℤ) : Prop :=
  volume (sharedVolume o layers) ∧
    ∀ p d, VerticalGap o layers top p d → 0 < d → least ≤ d

end Limits

/-- The limits that the reported numbers meet, from the halves of hundredths between which the
volume and the smallest gap are rounded. -/
def WithinReported {W H : ℕ} (o : Options) (layers : Masks W H) : Prop :=
  Within o layers (· < (⌊o.maxInterference * 100⌋ + 1 / 2) / 100)
    ((⌈o.minGap * 100⌉ - 1 / 2) / 100) fun p => int16 (topLayer layers p)

/-- The limits of the options. -/
def WithinLimits {W H : ℕ} (o : Options) (layers : Masks W H) : Prop :=
  Within o layers (· ≤ o.maxInterference) o.minGap (topLayer layers)

/-- Rounded away: an interference above its limit or a gap below it. -/
def Hidden {W H : ℕ} (o : Options) (layers : Masks W H) : Prop :=
  WithinReported o layers ∧ (o.maxInterference < sharedVolume o layers ∨
    ∃ p d, VerticalGap o layers (topLayer layers) p d ∧ 0 < d ∧ d < o.minGap)

/-- Rounded up: an interference to above its limit, or a gap to below it. -/
def Exaggerated {W H : ℕ} (o : Options) (layers : Masks W H) : Prop :=
  WithinLimits o layers ∧ ((⌊o.maxInterference * 100⌋ + 1 / 2) / 100 ≤ sharedVolume o layers ∨
    ∃ p d, VerticalGap o layers (fun p => int16 (topLayer layers p)) p d ∧ 0 < d ∧
      d < (⌈o.minGap * 100⌉ - 1 / 2) / 100)

/-! ## The plate -/

theorem mem_hist {W H : ℕ} {top : ℕ → ℤ} {e : ℤ × ℕ} (h : e ∈ hist W H top) :
    e.2 = ((List.range (W * H)).map top).count e.1 := by
  obtain ⟨group, hgroup, rfl⟩ := List.mem_map.mp h
  have hgrouped := Grouping.grouped id
    (((List.range (W * H)).map top).filter fun t => decide (0 ≤ t))
  obtain ⟨hitems, hne⟩ := hgrouped.items group hgroup
  have hpos : 0 ≤ group.1 := by
    obtain ⟨t, ht⟩ := List.exists_mem_of_ne_nil _ hne
    rw [hitems, List.mem_filter, List.mem_filter] at ht
    obtain ⟨⟨-, hnonneg⟩, hkey⟩ := ht
    rw [← of_decide_eq_true hkey]
    exact of_decide_eq_true hnonneg
  show group.2.length = _
  rw [hitems, List.filter_filter, ← List.countP_eq_length_filter, List.count]
  refine List.countP_congr fun t _ => ?_
  simp only [id, Bool.and_eq_true, decide_eq_true_eq, beq_iff_eq]
  exact ⟨And.left, fun h => ⟨h, h ▸ hpos⟩⟩

/-- No top of the lid occurs more often than the plate. -/
theorem count_le_plateTop {W H p : ℕ} {top : ℕ → ℤ} (hp : p < W * H) (htop : 0 ≤ top p) :
    ((List.range (W * H)).map top).count (top p) ≤
      ((List.range (W * H)).map top).count (plateTop W H top) := by
  have hmem : top p ∈ ((List.range (W * H)).map top).filter fun t => decide (0 ≤ t) :=
    List.mem_filter.mpr
      ⟨List.mem_map.mpr ⟨p, List.mem_range.mpr hp, rfl⟩, decide_eq_true htop⟩
  obtain ⟨group, hgroup, hkey⟩ := List.mem_map.mp
    ((Grouping.grouped id (((List.range (W * H)).map top).filter fun t => decide (0 ≤ t))).covers
      _ hmem)
  have hentry : (top p, group.2.length) ∈ hist W H top :=
    List.mem_map.mpr ⟨group, hgroup, by rw [hkey]; rfl⟩
  set sorted := (hist W H top).insertionSort fun a b => b.2 ≤ a.2 with hsorted
  have hperm : sorted.Perm (hist W H top) := List.perm_insertionSort _ _
  have hpairwise : sorted.Pairwise fun a b => b.2 ≤ a.2 := List.pairwise_insertionSort _ _
  cases hlist : sorted with
  | nil =>
    rw [hlist] at hperm
    rw [List.nil_perm.mp hperm] at hentry
    cases hentry
  | cons first rest =>
    have hfirst := mem_hist (hperm.mem_iff.mp (hlist ▸ List.mem_cons_self))
    have hplate : plateTop W H top = first.1 := by
      rw [plateTop, ← hsorted, hlist]
      rfl
    have hle : group.2.length ≤ first.2 := by
      rcases List.mem_cons.mp (hlist ▸ hperm.mem_iff.mpr hentry) with rfl | hrest
      · exact le_rfl
      · rw [hlist] at hpairwise
        exact (List.pairwise_cons.mp hpairwise).1 _ hrest
    rw [hplate, ← hfirst, ← mem_hist hentry]
    exact hle

/-! ## Rounding to hundredths -/

theorem toFixed_of_nonneg {x : ℚ} (hx : 0 ≤ x) : toFixed 2 x = ⌊x * 100 + 1 / 2⌋ / 100 := by
  rw [toFixed, if_neg (not_lt.mpr hx)]
  norm_num

theorem toFixed_le_iff {x limit : ℚ} (hx : 0 ≤ x) :
    toFixed 2 x ≤ limit ↔ x < (⌊limit * 100⌋ + 1 / 2) / 100 := by
  rw [toFixed_of_nonneg hx, div_le_iff₀ (by norm_num), ← Int.le_floor, ← Int.lt_add_one_iff,
    Int.floor_lt, lt_div_iff₀ (by norm_num)]
  push_cast
  constructor <;> intro h <;> linarith

theorem le_toFixed_iff {x least : ℚ} (hx : 0 ≤ x) :
    least ≤ toFixed 2 x ↔ (⌈least * 100⌉ - 1 / 2) / 100 ≤ x := by
  rw [toFixed_of_nonneg hx, le_div_iff₀ (by norm_num), ← Int.ceil_le, Int.le_floor,
    div_le_iff₀ (by norm_num)]
  constructor <;> intro h <;> linarith

/-! ## The loops -/

section Loops

variable {W H : ℕ} {o : Options} {layers : Masks W H}

theorem Options.cell_pos (o : Options) : 0 < o.cell :=
  mul_pos (mul_pos o.px_pos o.px_pos) o.layer_pos

theorem addCells (m : BitGrid W H × BitGrid W H) (ps : List ℕ) (v : ℚ) :
    ps.foldl (fun v p => if both p m then v + o.cell else v) v =
      v + (ps.countP fun p => both p m : ℕ) * o.cell := by
  induction ps generalizing v with
  | nil => simp
  | cons p ps ih =>
    rw [List.foldl_cons, ih, List.countP_cons]
    split
    · push_cast
      ring
    · rw [Nat.add_zero]

theorem vol_eq : vol o layers = sharedVolume o layers := by
  have hfold : ∀ v : ℚ, layers.foldl (fun v m =>
      (List.range (W * H)).foldl (fun v p => if both p m then v + o.cell else v) v) v =
        v + sharedVolume o layers := by
    unfold sharedVolume
    induction layers with
    | nil => simp
    | cons m layers ih =>
      intro v
      rw [List.foldl_cons, addCells, ih, List.map_cons, List.sum_cons]
      push_cast
      ring
  rw [vol, hfold, zero_add]

theorem sharedVolume_nonneg : 0 ≤ sharedVolume o layers :=
  mul_nonneg (Nat.cast_nonneg _) o.cell_pos.le

theorem lidTop_eq : lidTop layers = fun p => int16 (topLayer layers p) := by
  funext p
  unfold lidTop topLayer
  induction layers.zipIdx using List.reverseRecOn with
  | nil => rfl
  | append_singleton xs m ih =>
    rw [List.foldl_append, List.foldl_cons, List.foldl_nil, List.filter_append]
    cases hm : m.1.2.bit p with
    | true => simp [hm]
    | false => simp [hm, ih]

/-- Up to 32768 layers the stored tops are the tops. -/
theorem int16_topLayer (hlayers : layers.length ≤ 32768) (p : ℕ) :
    int16 (topLayer layers p) = topLayer layers p := by
  have hbounds : -1 ≤ topLayer layers p ∧ topLayer layers p < 32768 := by
    unfold topLayer
    cases hlast : (layers.zipIdx.filter fun m => m.1.2.bit p).getLast? with
    | none => simp
    | some m =>
      have hm := List.snd_lt_of_mem_zipIdx
        (List.mem_filter.mp (List.mem_of_getLast? hlast)).1
      simp only [Option.map_some, Option.getD_some]
      omega
  rw [int16, Int.bmod_eq_of_le] <;> omega

theorem gap_eq_some_iff {p : ℕ} {d : ℚ} : p < W * H ∧ gap o layers p = some d ↔
    VerticalGap o layers (lidTop layers) p d := by
  unfold VerticalGap gap
  refine and_congr_right fun _ => ?_
  simp only
  split
  · rename_i hskip
    constructor
    · rintro ⟨⟩
    · rintro ⟨hfree, hup, -⟩
      rcases hskip with hskip | hskip
      · exact absurd hup (not_lt.mpr hskip)
      · rw [hfree] at hskip
        cases hskip
  · rename_i hskip
    rw [not_or, not_le, Bool.not_eq_true] at hskip
    simp only [hskip, true_and, Option.map_eq_some_iff, List.find?_range_eq_some,
      Bool.and_eq_true, decide_eq_true_eq, List.mem_range]
    constructor
    · rintro ⟨i, ⟨⟨hi, hbody⟩, -, hfirst⟩, rfl⟩
      refine ⟨i, hi, hbody, fun j hj hji => ?_, rfl⟩
      simpa [hj] using hfirst j hji
    · rintro ⟨i, hi, hbody, hfirst, rfl⟩
      refine ⟨i, ⟨⟨hi, hbody⟩, ?_, fun j hji => ?_⟩, rfl⟩
      · by_contra hn
        simp [bodyAt, List.getElem?_eq_none (Nat.le_of_not_lt hn)] at hbody
      · by_cases hj : lidTop layers p < j
        · simp [hfirst j hj hji]
        · simp [hj]

theorem VerticalGap.nonneg {top : ℕ → ℤ} {p : ℕ} {d : ℚ} (h : VerticalGap o layers top p d) :
    0 ≤ d := by
  obtain ⟨-, -, -, i, hi, -, -, rfl⟩ := h
  exact mul_nonneg (Int.cast_nonneg (by omega)) o.layer_pos.le

end Loops

section Verdict

variable {o : Options} {g : Grid} {z0 : ℚ} {layers : Masks g.W g.H}

/-- One column: the smallest gap stays above a limit when it was and the gap here is. -/
theorem visit_minGap {gap : ℕ → Option ℚ} {s : Scan} {p : ℕ} (c : ℚ) :
    (∀ x ∈ (s.visit g gap p).minGap, c ≤ x) ↔
      (∀ x ∈ s.minGap, c ≤ x) ∧ ∀ d ∈ gap p, d ≠ 0 → c ≤ d := by
  unfold Scan.visit
  cases hgap : gap p with
  | none => simp
  | some d =>
    simp only [Option.mem_def, Option.some.injEq, forall_eq']
    split
    · rename_i hzero
      simp [hzero]
    · rename_i hzero
      cases hmin : s.minGap with
      | none => simp [hzero]
      | some least =>
        simp only [Option.all_some, decide_eq_true_eq, Option.some.injEq, forall_eq', ne_eq, hzero,
          not_false_eq_true, forall_const]
        split
        · rename_i hlt
          simp only [Option.some.injEq, forall_eq']
          exact ⟨fun h => ⟨h.trans hlt.le, h⟩, And.right⟩
        · rename_i hle
          simp only [hmin, Option.some.injEq, forall_eq']
          exact ⟨fun h => ⟨h, h.trans (not_lt.mp hle)⟩, And.left⟩

theorem scan_minGap (c : ℚ) : (∀ x ∈ (scan o g layers).minGap, c ≤ x) ↔
    ∀ p d, VerticalGap o layers (lidTop layers) p d → 0 < d → c ≤ d := by
  have hfold : ∀ (ps : List ℕ) (s : Scan),
      (∀ x ∈ (ps.foldl (Scan.visit g (gap o layers)) s).minGap, c ≤ x) ↔
        (∀ x ∈ s.minGap, c ≤ x) ∧ ∀ p ∈ ps, ∀ d ∈ gap o layers p, d ≠ 0 → c ≤ d := by
    intro ps
    induction ps with
    | nil => simp
    | cons p ps ih =>
      intro s
      rw [List.foldl_cons, ih, visit_minGap, List.forall_mem_cons, and_assoc]
  rw [scan, hfold]
  simp only [Option.mem_def, reduceCtorEq, false_implies, implies_true, true_and, List.mem_range]
  constructor
  · intro h p d hgap hpos
    obtain ⟨hp, hd⟩ := gap_eq_some_iff.mpr hgap
    exact h p hp d hd hpos.ne'
  · intro h p hp d hd hne
    have hgap := gap_eq_some_iff.mp ⟨hp, hd⟩
    exact h p d hgap (hgap.nonneg.lt_of_ne' hne)

theorem pass_iff : (analyzeMasks o g z0 layers).pass = true ↔ WithinReported o layers := by
  have hgaps : (((scan o g layers).minGap.map (toFixed 2)).all fun least =>
      decide (o.minGap ≤ least)) = true ↔
        ∀ x ∈ (scan o g layers).minGap, (⌈o.minGap * 100⌉ - 1 / 2) / 100 ≤ x := by
    have hnonneg : ∀ x ∈ (scan o g layers).minGap, 0 ≤ x :=
      (scan_minGap 0).mpr fun _ _ _ hpos => hpos.le
    cases hmin : (scan o g layers).minGap with
    | none => simp
    | some x =>
      have hx : o.minGap ≤ toFixed 2 x ↔ _ := le_toFixed_iff (hnonneg x hmin)
      simpa using hx
  unfold WithinReported Within analyzeMasks
  simp only [Bool.and_eq_true, decide_eq_true_eq]
  rw [hgaps, scan_minGap, vol_eq, toFixed_le_iff sharedVolume_nonneg, lidTop_eq]

/-- Limits in whole hundredths are never exaggerated. -/
theorem not_exaggerated (hlayers : layers.length ≤ 32768) {volume least : ℤ}
    (hvolume : o.maxInterference = volume / 100) (hleast : o.minGap = least / 100) :
    ¬ Exaggerated o layers := by
  have hM : (⌊o.maxInterference * 100⌋ : ℚ) = o.maxInterference * 100 := by
    rw [hvolume, div_mul_cancel₀ _ (by norm_num), Int.floor_intCast]
  have hm : (⌈o.minGap * 100⌉ : ℚ) = o.minGap * 100 := by
    rw [hleast, div_mul_cancel₀ _ (by norm_num), Int.ceil_intCast]
  have htop : (fun p => int16 (topLayer layers p)) = topLayer layers :=
    funext (int16_topLayer hlayers)
  rintro ⟨⟨hvol, hgaps⟩, hover | ⟨p, d, hgap, hpos, hbelow⟩⟩
  · rw [hM] at hover
    linarith
  · rw [htop] at hgap
    have hd := hgaps p d hgap hpos
    rw [hm] at hbelow
    linarith

/-- The verdict is the one on the exact numbers just when the rounding hides nothing and
exaggerates nothing. -/
theorem pass_exact_iff (o : Options) (g : Grid) (z0 : ℚ) (layers : Masks g.W g.H) :
    ((analyzeMasks o g z0 layers).pass = true ↔
      sharedVolume o layers ≤ o.maxInterference ∧
        ¬ ∃ p d, VerticalGap o layers (topLayer layers) p d ∧ 0 < d ∧ d < o.minGap) ↔
      ¬ Hidden o layers ∧ ¬ Exaggerated o layers := by
  have hlimits : (sharedVolume o layers ≤ o.maxInterference ∧
      ¬ ∃ p d, VerticalGap o layers (topLayer layers) p d ∧ 0 < d ∧ d < o.minGap) ↔
        WithinLimits o layers := by
    unfold WithinLimits Within
    push Not
    rfl
  have hhidden : Hidden o layers ↔ WithinReported o layers ∧ ¬ WithinLimits o layers := by
    rw [← hlimits, not_and_or, not_not, not_le]
    rfl
  have hexaggerated : Exaggerated o layers ↔
      WithinLimits o layers ∧ ¬ WithinReported o layers := by
    unfold Exaggerated WithinReported Within
    push Not
    rw [imp_iff_not_or, not_lt]
  rw [pass_iff, hlimits, hhidden, hexaggerated, not_and_not_right, not_and_not_right]
  exact iff_def

end Verdict

/-- Cells of a thousandth of a cubic millimetre. -/
def thin : Options where
  layer := 1 / 1000
  px := 1
  layer_pos := by norm_num
  px_pos := by norm_num

def plate : List Triangle := box 0 0 0 1 1 (1 / 1000)

def plateGrid : Grid := Grid.ofBounds ⟨0, 0, 0, 1, 1, 1 / 1000⟩ 1 2 (by norm_num)

/-- Two copies of a plate in one place pass with no interference allowed. -/
theorem copies_pass : (analyzeClash thin plate plate).map Report.pass = some true ∧
    thin.maxInterference < sharedVolume thin (masks thin plateGrid 0 (1 / 1000) plate plate) := by
  decide +kernel

end Clash
end Batiste
