import Batiste.OverhangClusters
import Batiste.Slicer
import Mathlib

/-! The verdict of an overhang check: a part fails where a cluster has a blocking region and a large
one. -/
namespace Batiste
namespace Overhang

open Layers

/-! ## The regions of a part -/

section Regions

variable {W H : ℕ} (idx : List ℕ) (S M : BitGrid W H) (trig : Trig) (g : Grid) (o : Options)

/-- Whatever its kind, a region keeps its places, its area and its layer. -/
theorem classify_data (z : ℚ) (i : ℕ) : (classify idx S M trig g o z i).idx = idx ∧
    (classify idx S M trig g o z i).area = idx.length * (o.px * o.px) ∧
      (classify idx S M trig g o z i).layerIdx = i := by
  unfold classify
  dsimp only
  split
  · exact ⟨rfl, rfl, rfl⟩
  · split
    · exact ⟨rfl, rfl, rfl⟩
    · split <;> exact ⟨rfl, rfl, rfl⟩

end Regions

theorem layerRegions_ok (trig : Trig) (o : Options) (sl : Slicer) (i : ℕ) :
    LayerRegionsOk sl.grid.W sl.grid.H i (layerRegions trig o sl i) := by
  unfold layerRegions
  split
  · exact ⟨by simp, by simp, by simp, .nil⟩
  · dsimp only
    generalize sl.slice i = M
    generalize support (sl.slice (i - 1 : ℕ)) (o.radius trig) = S
    obtain ⟨comps, hcomps, h⟩ := components_regions (unsupported M S)
    rw [hcomps, Option.getD_some]
    have hdata := fun idx => classify_data idx S M trig sl.grid o (sl.zOf i) i
    constructor
    · intro r hr
      obtain ⟨idx, -, rfl⟩ := List.mem_map.mp hr
      exact (hdata idx).2.2
    · intro r hr p hp
      obtain ⟨idx, hidx, rfl⟩ := List.mem_map.mp hr
      rw [(hdata idx).1] at hp
      exact BitGrid.lt_of_bit ((region_maximal h (List.mem_filter.mp hidx).1).prop.2.1 hp)
    · intro r hr
      obtain ⟨idx, hidx, rfl⟩ := List.mem_map.mp hr
      rw [(hdata idx).1]
      obtain ⟨p, hp⟩ := (region_maximal h (List.mem_filter.mp hidx).1).prop.1
      exact List.ne_nil_of_mem hp
    · rw [List.pairwise_map]
      refine (h.disjoint.filter _).imp fun hab => ?_
      rw [(hdata _).1, (hdata _).1]
      exact hab

theorem layerRegions_area {trig : Trig} {o : Options} {sl : Slicer} {i : ℕ} {r : Region}
    (hr : r ∈ layerRegions trig o sl i) : 0 < r.area := by
  have hne := (layerRegions_ok trig o sl i).nonempty r hr
  unfold layerRegions at hr
  split at hr
  · cases hr
  · obtain ⟨idx, -, rfl⟩ := List.mem_map.mp hr
    rw [(classify_data _ _ _ _ _ _ _ _).1] at hne
    rw [(classify_data _ _ _ _ _ _ _ _).2.1]
    have hlength : (0 : ℚ) < idx.length := Nat.cast_pos.mpr (List.length_pos_of_ne_nil hne)
    exact mul_pos hlength (mul_pos o.px_pos o.px_pos)

/-- The regions of a part, as the clusters are made from them. -/
def partRegions (trig : Trig) (o : Options) (sl : Slicer) : PartRegions sl.grid.W sl.grid.H where
  layers := partLayers trig o sl
  ok i regs h := by
    rw [partLayers, List.getElem?_map] at h
    obtain ⟨j, hj, rfl⟩ := Option.map_eq_some_iff.mp h
    obtain ⟨hlt, rfl⟩ := List.getElem?_eq_some_iff.mp hj
    rw [List.getElem_range]
    exact layerRegions_ok trig o sl i

/-! ## One cluster -/

theorem blocking_mono (o : Options) {k k' : Kind} (h : k.sevRank ≤ k'.sevRank)
    (hk : blocking o k = true) : blocking o k' = true := by
  cases k <;> cases k' <;> simp_all [blocking, Kind.sevRank]

/-- The worst kind blocks exactly when the kind of some region does. -/
theorem blocking_worst (o : Options) (regs : List Region) :
    blocking o (worst regs) = true ↔ ∃ r ∈ regs, blocking o r.kind = true := by
  have hfold : ∀ kind, blocking o (regs.foldl (fun kind r =>
      if r.kind.sevRank > kind.sevRank then r.kind else kind) kind) = true ↔
        blocking o kind = true ∨ ∃ r ∈ regs, blocking o r.kind = true := by
    induction regs with
    | nil => simp
    | cons r regs ih =>
      intro kind
      have hstep : blocking o (if r.kind.sevRank > kind.sevRank then r.kind else kind) = true ↔
          blocking o kind = true ∨ blocking o r.kind = true := by
        split
        · next hworse => exact ⟨Or.inr, fun h => h.elim (blocking_mono o hworse.le) id⟩
        · next hworse => exact ⟨Or.inl, fun h => h.elim id (blocking_mono o (not_lt.mp hworse))⟩
      rw [List.foldl_cons, ih, hstep]
      simp only [List.mem_cons, exists_eq_or_imp, or_assoc]
  rw [worst, hfold]
  simp [blocking]

/-- The largest area reaches a bound exactly when the area of some region does. -/
theorem le_largest (bound : ℚ) {r : Region} {regs : List Region}
    (hpos : ∀ a ∈ r :: regs, 0 < a.area) :
    bound ≤ (largest r regs).1 ↔ ∃ a ∈ r :: regs, bound ≤ a.area := by
  have hfold : ∀ l : List Region, ∀ acc : ℚ × Region,
      bound ≤ (l.foldl (fun acc r => if r.area > acc.1 then (r.area, r) else acc) acc).1 ↔
        bound ≤ acc.1 ∨ ∃ a ∈ l, bound ≤ a.area := by
    intro l
    induction l with
    | nil => simp
    | cons a l ih =>
      intro acc
      have hstep : bound ≤ (if a.area > acc.1 then (a.area, a) else acc).1 ↔
          bound ≤ acc.1 ∨ bound ≤ a.area := by
        split
        · next hlarger => exact ⟨Or.inr, fun h => h.elim (fun h => h.trans hlarger.le) id⟩
        · next hlarger =>
          exact ⟨Or.inl, fun h => h.elim id fun h => h.trans (not_lt.mp hlarger)⟩
      rw [List.foldl_cons, ih, hstep]
      simp only [List.mem_cons, exists_eq_or_imp, or_assoc]
  rw [largest, hfold]
  constructor
  · rintro (hzero | hsome)
    · exact ⟨r, List.mem_cons_self, hzero.trans (hpos r List.mem_cons_self).le⟩
    · exact hsome
  · exact Or.inr

/-- A cluster fails where some region of it blocks and some region of it is large. -/
theorem summary_fails (o : Options) {r : Region} {regs : List Region}
    (hpos : ∀ a ∈ r :: regs, 0 < a.area) : (summary o r regs).fails = true ↔
      (∃ a ∈ r :: regs, blocking o a.kind = true) ∧ ∃ b ∈ r :: regs, o.minArea ≤ b.area := by
  show (blocking o (worst (r :: regs)) && decide ((largest r regs).1 ≥ o.minArea)) = true ↔ _
  rw [Bool.and_eq_true, decide_eq_true_eq, blocking_worst, ge_iff_le, le_largest _ hpos]

theorem reportOf_fails (o : Options) (n : ℕ) {groups : List (List Region)}
    (hpos : ∀ g ∈ groups, ∀ a ∈ g, 0 < a.area) : (reportOf o n groups).pass = false ↔
      ∃ g ∈ groups, (∃ a ∈ g, blocking o a.kind = true) ∧ ∃ b ∈ g, o.minArea ≤ b.area := by
  have hsome : (reportOf o n groups).pass = false ↔
      ∃ f ∈ groups.filterMap (summaryOf o), f.fails = true := by
    have hperm := List.perm_insertionSort (fun a b : Finding => a.zMin ≤ b.zMin)
      (groups.filterMap (summaryOf o))
    simp only [reportOf, beq_eq_false_iff_ne, ne_eq, List.length_eq_zero_iff,
      List.filter_eq_nil_iff, hperm.mem_iff, not_forall, not_not, exists_prop]
  rw [hsome]
  constructor
  · rintro ⟨f, hf, hfails⟩
    obtain ⟨g, hg, hf⟩ := List.mem_filterMap.mp hf
    cases g with
    | nil => cases hf
    | cons r regs =>
      obtain rfl := Option.some.inj hf
      exact ⟨r :: regs, hg, (summary_fails o (hpos _ hg)).mp hfails⟩
  · rintro ⟨g, hg, hboth⟩
    cases g with
    | nil =>
      obtain ⟨a, ha, -⟩ := hboth.1
      cases ha
    | cons r regs =>
      exact ⟨_, List.mem_filterMap.mpr ⟨r :: regs, hg, rfl⟩,
        (summary_fails o (hpos _ hg)).mpr hboth⟩

/-! ## The whole part -/

def slicerOf (o : Options) (tris : List Triangle) : Option Slicer :=
  makeSlicer tris ⟨o.layer, o.px, o.layer_pos, o.px_pos, none, none, none⟩

/-- The regions of all layers; a part without triangles has none. -/
def regionsOf (trig : Trig) (o : Options) (tris : List Triangle) : List Region :=
  ((slicerOf o tris).map fun sl => (partLayers trig o sl).flatten).getD []

def widthOf (o : Options) (tris : List Triangle) : ℕ :=
  ((slicerOf o tris).map fun sl => sl.grid.W).getD 0

/-- The part fails exactly where a chain links a blocking region with a large one. -/
theorem pass_false_iff (trig : Trig) (o : Options) (tris : List Triangle) :
    (analyzeTris trig o tris).pass = false ↔
      ∃ a ∈ regionsOf trig o tris, ∃ b ∈ regionsOf trig o tris,
        Linked (Touch (widthOf o tris)) (regionsOf trig o tris) a b ∧
          blocking o a.kind = true ∧ o.minArea ≤ b.area := by
  unfold analyzeTris regionsOf widthOf
  rw [← slicerOf]
  cases slicerOf o tris with
  | none => simp [reportOf]
  | some sl =>
    obtain ⟨root, cls, h⟩ := clusterLayers_inv (partRegions trig o sl)
    obtain ⟨hperm, hgroups⟩ := groups_classes h
    have hpos : ∀ g ∈ groups sl.grid.W sl.grid.H (partLayers trig o sl), ∀ a ∈ g, 0 < a.area := by
      intro g hg a ha
      obtain ⟨regs, hregs, ha⟩ :=
        List.mem_flatten.mp (hperm.mem_iff.mp (List.mem_flatten.mpr ⟨g, hg, ha⟩))
      obtain ⟨i, -, rfl⟩ := List.mem_map.mp hregs
      exact layerRegions_area ha
    show (reportOf o sl.nLayers (groups sl.grid.W sl.grid.H (partLayers trig o sl))).pass = false ↔
      _
    rw [reportOf_fails o _ hpos]
    simp only [Option.map_some, Option.getD_some]
    constructor
    · rintro ⟨g, hg, ⟨a, ha, hblocks⟩, b, hb, hlarge⟩
      obtain ⟨k, hk⟩ := hgroups g hg
      obtain ⟨hnodea, hclsa⟩ := (hk a).mp ha
      obtain ⟨hnodeb, hclsb⟩ := (hk b).mp hb
      exact ⟨a, hnodea, b, hnodeb,
        (h.classes a hnodea b hnodeb).mp (hclsa.trans hclsb.symm), hblocks, hlarge⟩
    · rintro ⟨a, ha, b, hb, hlinked, hblocks, hlarge⟩
      obtain ⟨g, hg, hag⟩ := List.mem_flatten.mp (hperm.mem_iff.mpr ha)
      obtain ⟨k, hk⟩ := hgroups g hg
      have hcls := (h.classes a ha b hb).mpr hlinked
      exact ⟨g, hg, ⟨a, hag, hblocks⟩, b, (hk b).mpr ⟨hb, hcls ▸ ((hk a).mp hag).2⟩, hlarge⟩

/-- The verdict is the presence of a region that is both blocking and large exactly where there is
one, or no chain links a blocking region with a large one. -/
theorem verdict_iff (trig : Trig) (o : Options) (tris : List Triangle) :
    ((analyzeTris trig o tris).pass = false ↔
      ∃ r ∈ regionsOf trig o tris, blocking o r.kind = true ∧ o.minArea ≤ r.area) ↔
    (∃ r ∈ regionsOf trig o tris, blocking o r.kind = true ∧ o.minArea ≤ r.area) ∨
      ∀ a ∈ regionsOf trig o tris, ∀ b ∈ regionsOf trig o tris,
        Linked (Touch (widthOf o tris)) (regionsOf trig o tris) a b →
          ¬(blocking o a.kind = true ∧ o.minArea ≤ b.area) := by
  have hpass := pass_false_iff trig o tris
  constructor
  · intro hagree
    refine or_iff_not_imp_left.mpr fun hnone a ha b hb hlinked hboth => ?_
    exact hnone (hagree.mp (hpass.mpr ⟨a, ha, b, hb, hlinked, hboth⟩))
  · rintro (⟨r, hr, hboth⟩ | hnone)
    · exact iff_of_true (hpass.mpr ⟨r, hr, r, hr, .refl r, hboth⟩) ⟨r, hr, hboth⟩
    · refine iff_of_false (fun hfails => ?_) ?_
      · obtain ⟨a, ha, b, hb, hlinked, hboth⟩ := hpass.mp hfails
        exact hnone a ha b hb hlinked hboth
      · rintro ⟨r, hr, hboth⟩
        exact hnone r hr r hr (.refl r) hboth

/-- Two posts with a bridge of two square millimetres on them, and over the bridge a lip of one
square millimetre that leans out. -/
def bridgeAndLip : List Triangle :=
  box 0 0 0 1 1 (1 / 5) ++ box 3 0 0 4 1 (1 / 5) ++ box 0 0 (1 / 5) 4 1 (3 / 5) ++
    box 1 1 (2 / 5) 2 2 (3 / 5)

theorem fifth_pos : (0 : ℚ) < 1 / 5 := one_div_pos.mpr (by norm_num)

theorem unit_pos : (0 : ℚ) < 1 := one_pos

def coarse : Options where
  px := 1
  layer_pos := fifth_pos
  px_pos := unit_pos
  noisePx := 1
  minArea := 2

/-- The tangent at 45 degrees, and the length of a straight or a slanted step. -/
def trig45 : Trig := ⟨fun _ => 1, fun dx dy => if dx * dy = 0 then 1 else 141421356 / 100000000⟩

/-- The bridge is large and does not block, the lip blocks and is not large, and the part fails. -/
theorem bridgeAndLip_fails : ¬((analyzeTris trig45 coarse bridgeAndLip).pass = false ↔
    ∃ r ∈ regionsOf trig45 coarse bridgeAndLip,
      blocking coarse r.kind = true ∧ coarse.minArea ≤ r.area) := by
  decide +kernel

end Overhang
end Batiste
