import Batiste.FloodFill
import Batiste.Raster

/-! The connected components of a bit grid. -/
namespace Batiste
namespace Layers

open Relation

variable {W H : ℕ}

/-- The places of the grid at most `n` rows and columns away. -/
def window (n : ℤ) (W H p : ℕ) : List ℕ :=
  (upTo (-n) n).flatMap fun dr =>
    let rr : ℤ := (p / W : ℕ) + dr
    if rr < 0 ∨ H ≤ rr then []
    else (upTo (-n) n).flatMap fun dc =>
      let cc : ℤ := (p % W : ℕ) + dc
      if cc < 0 ∨ W ≤ cc then [] else [(rr * W + cc).toNat]

/-- The set places next to a place in the eight directions, and the place itself. -/
def neighbours (m : BitGrid W H) (p : ℕ) : List ℕ := (window 1 W H p).filter m.bit

/-- A fill from each set place in turn that is not marked. -/
def components (m : BitGrid W H) : Option (List (List ℕ)) :=
  FloodFill.regions (neighbours m) (W * H) ((List.range (W * H)).filter m.bit) []

def Near (n : ℤ) (W p q : ℕ) : Prop :=
  |((p / W : ℕ) : ℤ) - (q / W : ℕ)| ≤ n ∧ |((p % W : ℕ) : ℤ) - (q % W : ℕ)| ≤ n

instance (n : ℤ) (W p q : ℕ) : Decidable (Near n W p q) := instDecidableAnd

theorem Near.symm {n : ℤ} {p q : ℕ} (h : Near n W p q) : Near n W q p := by
  rw [Near, abs_sub_comm, abs_sub_comm ((q % W : ℕ) : ℤ)]
  exact h

theorem mem_window {n : ℤ} {p q : ℕ} : q ∈ window n W H p ↔ q < W * H ∧ Near n W p q := by
  unfold window Near
  rw [List.mem_flatMap]
  constructor
  · rintro ⟨dr, hdr, hq⟩
    dsimp only at hq
    split at hq
    · cases hq
    · next hrow =>
      obtain ⟨dc, hdc, hq⟩ := List.mem_flatMap.mp hq
      split at hq
      · cases hq
      · next hcol =>
        rw [mem_upTo] at hdr hdc
        obtain ⟨r, hr⟩ := Int.eq_ofNat_of_zero_le (not_lt.mp fun h => hrow (Or.inl h))
        obtain ⟨c, hc⟩ := Int.eq_ofNat_of_zero_le (not_lt.mp fun h => hcol (Or.inl h))
        have hrH : r < H := by omega
        have hcW : c < W := by omega
        have hplace : q = r * W + c := by
          rw [List.mem_singleton.mp hq, hr, hc]
          rfl
        have hdiv : q / W = r := by
          rw [hplace, Nat.mul_comm, Nat.mul_add_div (by omega), Nat.div_eq_of_lt hcW, Nat.add_zero]
        have hmod : q % W = c := by
          rw [hplace, Nat.mul_comm, Nat.mul_add_mod, Nat.mod_eq_of_lt hcW]
        rw [hdiv, hmod, abs_le, abs_le]
        exact ⟨hplace ▸ BitGrid.place_lt hrH hcW, by omega, by omega⟩
  · rintro ⟨hq, hrow, hcol⟩
    have hplace := BitGrid.place_div_mod (W := W) q
    have hr := BitGrid.div_lt_of_place hq
    have hc := BitGrid.mod_lt_of_place hq
    rw [abs_le] at hrow hcol
    generalize q / W = r at *
    generalize q % W = c at *
    generalize p / W = pr at *
    generalize p % W = pc at *
    refine ⟨(r : ℤ) - pr, mem_upTo.mpr (by omega), ?_⟩
    rw [add_sub_cancel, if_neg (by omega), List.mem_flatMap]
    refine ⟨(c : ℤ) - pc, mem_upTo.mpr (by omega), ?_⟩
    rw [add_sub_cancel, if_neg (by omega), List.mem_singleton, ← hplace]
    rfl

/-- A set of set places in which every two are joined by steps to neighbours within it. -/
def EightConnected (m : BitGrid W H) (S : Set ℕ) : Prop :=
  S.Nonempty ∧ S ⊆ {p | m.bit p = true} ∧ FloodFill.ConnectedIn (Near 1 W) S

theorem mem_neighbours {m : BitGrid W H} {p q : ℕ} :
    q ∈ neighbours m p ↔ m.bit q = true ∧ Near 1 W p q := by
  rw [neighbours, List.mem_filter, mem_window]
  exact ⟨fun h => ⟨h.2, h.1.2⟩, fun h => ⟨⟨BitGrid.lt_of_bit h.1, h.2⟩, h.1⟩⟩

theorem mem_setPlaces {m : BitGrid W H} {p : ℕ} :
    p ∈ (List.range (W * H)).filter m.bit ↔ m.bit p = true := by
  rw [List.mem_filter, List.mem_range]
  exact ⟨fun h => h.2, fun h => ⟨BitGrid.lt_of_bit h, h⟩⟩

theorem components_regions (m : BitGrid W H) : ∃ comps, components m = some comps ∧
    FloodFill.Regions (neighbours m) ((List.range (W * H)).filter m.bit) [] comps :=
  FloodFill.regions_spec (List.nodup_range.filter m.bit)
    (fun _ _ _ hq => mem_setPlaces.mpr (mem_neighbours.mp hq).1)
    (fun _ hp _ hq => mem_neighbours.mpr ⟨mem_setPlaces.mp hp, (mem_neighbours.mp hq).2.symm⟩)
    ((List.length_filter_le _ _).trans_eq List.length_range) (List.Subset.refl _)
    (fun x (hx : x ∈ []) => by cases hx)

/-- A region is the component of some set place. -/
theorem region_eq_component {m : BitGrid W H} {comps : List (List ℕ)}
    (h : FloodFill.Regions (neighbours m) ((List.range (W * H)).filter m.bit) [] comps)
    {idx : List ℕ} (hidx : idx ∈ comps) : ∃ s, m.bit s = true ∧
      {p | p ∈ idx} = FloodFill.component (Near 1 W) {p | m.bit p = true} s := by
  obtain ⟨-, s, hs, hmem⟩ := h.region idx hidx
  refine ⟨s, mem_setPlaces.mp hs, Set.ext fun p => ?_⟩
  simp only [Set.mem_ofPred_eq, hmem, mem_neighbours, FloodFill.component]

theorem region_maximal {m : BitGrid W H} {comps : List (List ℕ)}
    (h : FloodFill.Regions (neighbours m) ((List.range (W * H)).filter m.bit) [] comps)
    {idx : List ℕ} (hidx : idx ∈ comps) : Maximal (EightConnected m) {p | p ∈ idx} := by
  obtain ⟨s, hs, hmem⟩ := region_eq_component h hidx
  rw [hmem]
  exact FloodFill.maximal_component (fun _ _ => Near.symm) hs

/-- The search ends; its regions are disjoint, they cover the set places, and each is a largest
connected set. -/
theorem components_spec (m : BitGrid W H) : ∃ comps, components m = some comps ∧
    comps.Pairwise List.Disjoint ∧ (∀ p, (∃ idx ∈ comps, p ∈ idx) ↔ m.bit p = true) ∧
      ∀ idx ∈ comps, idx.Nodup ∧ Maximal (EightConnected m) {p | p ∈ idx} := by
  obtain ⟨comps, hcomps, h⟩ := components_regions m
  refine ⟨comps, hcomps, h.disjoint, fun p => ?_, fun idx hidx =>
    ⟨(h.region idx hidx).1, region_maximal h hidx⟩⟩
  constructor
  · rintro ⟨idx, hidx, hp⟩
    exact (region_maximal h hidx).prop.2.1 hp
  · intro hp
    exact (h.cover p (mem_setPlaces.mpr hp)).resolve_left List.not_mem_nil

example : components (BitGrid.blank.paint [0, 3, 7, 5] : BitGrid 4 2) =
    some [[0, 5], [3, 7]] := by decide

end Layers
end Batiste
