import Mathlib.Tactic

/-! Stretches of consecutive integers laid one after the other.
`Steps` leaves no gap but lets a stretch begin before the last one has ended; `Tiles` does not. -/
namespace Batiste
namespace Tiling

/-- The integers from `first` to `last`, both included. -/
structure Stretch where
  first : ℤ
  last : ℤ
  deriving DecidableEq, Repr

namespace Stretch

def members (p : Stretch) : List ℤ :=
  (List.range (p.last + 1 - p.first).toNat).map fun (i : ℕ) => p.first + i

theorem mem_members {p : Stretch} {i : ℤ} : i ∈ p.members ↔ p.first ≤ i ∧ i ≤ p.last := by
  simp only [members, List.mem_map, List.mem_range]
  constructor
  · rintro ⟨k, hk, rfl⟩
    omega
  · rintro ⟨hfirst, hlast⟩
    exact ⟨(i - p.first).toNat, by omega, by omega⟩

theorem members_eq_nil {p : Stretch} (h : p.last < p.first) : p.members = [] := by
  rw [List.eq_nil_iff_forall_not_mem]
  intro i hi
  rw [mem_members] at hi
  omega

theorem length_members (p : Stretch) : p.members.length = (p.last + 1 - p.first).toNat := by
  simp [members]

/-- A stretch cut behind one of its members. -/
theorem members_split {a m b : ℤ} (ham : a ≤ m + 1) (hmb : m ≤ b) :
    members ⟨a, b⟩ = members ⟨a, m⟩ ++ members ⟨m + 1, b⟩ := by
  have hlength : (b + 1 - a).toNat = (m + 1 - a).toNat + (b + 1 - (m + 1)).toNat := by omega
  simp only [members, hlength, List.range_add, List.map_append, List.map_map]
  congr 1
  apply List.map_congr_left
  intro i _
  simp only [Function.comp_apply]
  omega

end Stretch

/-- What a list of stretches covers, in order. -/
def covered (ps : List Stretch) : List ℤ := ps.flatMap Stretch.members

/-- From one position up to just before another without a gap. -/
def Steps : ℤ → ℤ → List Stretch → Prop
  | c, d, [] => c = d
  | c, d, p :: ps => p.first ≤ c ∧ p.first ≤ p.last ∧ Steps (p.last + 1) d ps

/-- From one position up to just before another, each stretch right behind the last. -/
def Tiles : ℤ → ℤ → List Stretch → Prop
  | c, d, [] => c = d
  | c, d, p :: ps => p.first = c ∧ p.first ≤ p.last ∧ Tiles (p.last + 1) d ps

@[simp] theorem steps_nil {c d : ℤ} : Steps c d [] ↔ c = d := Iff.rfl

@[simp] theorem tiles_nil {c d : ℤ} : Tiles c d [] ↔ c = d := Iff.rfl

@[simp] theorem tiles_cons {c d : ℤ} {p : Stretch} {ps : List Stretch} :
    Tiles c d (p :: ps) ↔ p.first = c ∧ p.first ≤ p.last ∧ Tiles (p.last + 1) d ps := Iff.rfl

theorem Steps.append {c d e : ℤ} {ps qs : List Stretch} (hps : Steps c d ps) (hqs : Steps d e qs) :
    Steps c e (ps ++ qs) := by
  induction ps generalizing c with
  | nil =>
    rw [steps_nil] at hps
    rwa [hps]
  | cons p ps ih => exact ⟨hps.1, hps.2.1, ih hps.2.2⟩

/-- The first stretch may also begin earlier than it has to. -/
theorem Steps.weaken {c c' d : ℤ} {ps : List Stretch} (h : Steps c d ps) (hne : ps ≠ [])
    (hc : c ≤ c') : Steps c' d ps := by
  cases ps with
  | nil => exact absurd rfl hne
  | cons p ps => exact ⟨h.1.trans hc, h.2⟩

theorem Tiles.le {c d : ℤ} {ps : List Stretch} (h : Tiles c d ps) : c ≤ d := by
  induction ps generalizing c with
  | nil => exact le_of_eq h
  | cons p ps ih =>
    have hrest := ih h.2.2
    have hp := h.2.1
    rw [h.1] at hp
    omega

theorem Tiles.steps {c d : ℤ} {ps : List Stretch} (h : Tiles c d ps) : Steps c d ps := by
  induction ps generalizing c with
  | nil => exact h
  | cons p ps ih => exact ⟨h.1.le, h.2.1, ih h.2.2⟩

theorem Tiles.bounds {c d : ℤ} {ps : List Stretch} (h : Tiles c d ps) {p : Stretch} (hp : p ∈ ps) :
    c ≤ p.first ∧ p.first ≤ p.last ∧ p.last < d := by
  induction ps generalizing c with
  | nil => exact absurd hp List.not_mem_nil
  | cons q ps ih =>
    have hrest := h.2.2
    have hd := hrest.le
    rcases List.mem_cons.mp hp with rfl | hp
    · exact ⟨h.1.ge, h.2.1, by omega⟩
    · obtain ⟨hfirst, hle, hlast⟩ := ih hrest hp
      have hq := h.2.1
      rw [h.1] at hq
      exact ⟨by omega, hle, hlast⟩

theorem Tiles.append {c d e : ℤ} {ps qs : List Stretch} (hps : Tiles c d ps) (hqs : Tiles d e qs) :
    Tiles c e (ps ++ qs) := by
  induction ps generalizing c with
  | nil =>
    rw [tiles_nil] at hps
    rwa [hps]
  | cons p ps ih => exact ⟨hps.1, hps.2.1, ih hps.2.2⟩

/-- A list of stretches that steps from one position to another tiles what is between them only
if its parts do. -/
theorem tiles_append_iff {c d e : ℤ} {ps qs : List Stretch} (hps : Steps c d ps) :
    Tiles c e (ps ++ qs) ↔ Tiles c d ps ∧ Tiles d e qs := by
  refine ⟨fun h => ?_, fun h => h.1.append h.2⟩
  induction ps generalizing c with
  | nil =>
    rw [steps_nil] at hps
    exact ⟨hps, hps ▸ h⟩
  | cons p ps ih =>
    have hrest := ih hps.2.2 h.2.2
    exact ⟨⟨h.1, h.2.1, hrest.1⟩, hrest.2⟩

/-- Stretches that step away from one position tile from a later one only if that is the same. -/
theorem tiles_from_iff {c c' d : ℤ} {ps : List Stretch} (h : Steps c d ps) (hne : ps ≠ [])
    (hc : c ≤ c') : Tiles c' d ps ↔ c = c' ∧ Tiles c d ps := by
  cases ps with
  | nil => exact absurd rfl hne
  | cons p ps =>
    constructor
    · rintro ⟨hfirst, hrest⟩
      have hfrom := h.1
      obtain rfl : c = c' := by omega
      exact ⟨rfl, hfirst, hrest⟩
    · rintro ⟨rfl, htiles⟩
      exact htiles

theorem covered_of_tiles {c d : ℤ} {ps : List Stretch} (h : Tiles c d ps) :
    covered ps = Stretch.members ⟨c, d - 1⟩ := by
  induction ps generalizing c with
  | nil =>
    rw [tiles_nil] at h
    rw [Stretch.members_eq_nil (by simp [h])]
    rfl
  | cons p ps ih =>
    obtain ⟨hfirst, hle, hrest⟩ := h
    have hd := hrest.le
    subst hfirst
    rw [covered, List.flatMap_cons, ← covered, ih hrest]
    exact (Stretch.members_split (by omega) (by omega)).symm

theorem length_covered_of_steps {c d : ℤ} {ps : List Stretch} (h : Steps c d ps) :
    d - c ≤ (covered ps).length := by
  induction ps generalizing c with
  | nil =>
    rw [steps_nil] at h
    simp [covered, h]
  | cons p ps ih =>
    obtain ⟨hfirst, hle, hrest⟩ := h
    have hlength := ih hrest
    rw [covered] at hlength
    simp only [covered, List.flatMap_cons, List.length_append, Stretch.length_members, Nat.cast_add]
    omega

/-- Without a gap, covering as many integers as there are is covering each of them once. -/
theorem tiles_of_length {c d : ℤ} {ps : List Stretch} (h : Steps c d ps)
    (hlength : ((covered ps).length : ℤ) ≤ d - c) : Tiles c d ps := by
  induction ps generalizing c with
  | nil => exact h
  | cons p ps ih =>
    obtain ⟨hfirst, hle, hrest⟩ := h
    have hcovered := length_covered_of_steps hrest
    rw [covered] at hcovered ih
    simp only [covered, List.flatMap_cons, List.length_append, Stretch.length_members,
      Nat.cast_add] at hlength
    exact ⟨by omega, hle, ih hrest (by omega)⟩

/-- Stretches without a gap cover each integer between two positions once, and in order, exactly
when each begins right behind the last. -/
theorem covered_eq_iff {c d : ℤ} {ps : List Stretch} (h : Steps c d ps) (hcd : c ≤ d) :
    covered ps = Stretch.members ⟨c, d - 1⟩ ↔ Tiles c d ps := by
  refine ⟨fun heq => tiles_of_length h ?_, covered_of_tiles⟩
  rw [heq, Stretch.length_members]
  simp only
  omega

/-- Slices of a list that tile its positions, counted from one, put together again. -/
theorem flatMap_slices {α : Type*} (xs : List α) {c : ℤ} {ps : List Stretch} (hc : 1 ≤ c)
    (h : Tiles c (xs.length + 1) ps) :
    (ps.flatMap fun p => (xs.drop (p.first - 1).toNat).take (p.last - p.first + 1).toNat) =
      xs.drop (c - 1).toNat := by
  induction ps generalizing c with
  | nil =>
    rw [tiles_nil] at h
    rw [List.flatMap_nil, h, List.drop_eq_nil_of_le (by omega)]
  | cons p ps ih =>
    obtain ⟨hfirst, hle, hrest⟩ := h
    rw [List.flatMap_cons, ih (by omega) hrest, hfirst]
    have hsum : (p.last + 1 - 1).toNat = (c - 1).toNat + (p.last - c + 1).toNat := by omega
    rw [hsum, ← List.drop_drop, List.take_append_drop]

end Tiling
end Batiste
