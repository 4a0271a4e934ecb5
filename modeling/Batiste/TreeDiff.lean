import Mathlib.Data.String.Basic
import Mathlib.Tactic

/-! Two trees, as partial maps of keys, and what a patch of a third map has to touch and to
remove for the map to become a given one. -/
namespace Batiste
namespace TreeDiff

variable {K V E : Type*}

/-- The key is in the first tree only. -/
def Gone (x y : K → Option V) (k : K) : Prop := x k ≠ none ∧ y k = none

/-- The key is in the second tree, with another value than in the first or for the first time. -/
def Touched (x y : K → Option V) (k : K) : Prop := y k ≠ none ∧ x k ≠ y k

/-- What two consecutive changes remove is removed by one of them only. -/
theorem Gone.not_next {x y z : K → Option V} {k : K} (h : Gone x y k) : ¬ Gone y z k :=
  fun hnext => hnext.1 h.2

open Classical in
/-- The entries of the updated keys are taken from the target, those of the removed keys go. -/
noncomputable def patch (entries target : K → Option E) (updated removed : K → Prop) :
    K → Option E :=
  fun k => if removed k then none else if updated k then target k else entries k

variable {entries target : K → Option E} {updated removed : K → Prop}

theorem patch_apply_eq_iff {S : Type*} (view : E → S) {k : K}
    (hupdated : updated k → target k ≠ none) :
    (patch entries target updated removed k).map view = (target k).map view ↔
      (target k ≠ none → ¬ removed k ∧
        ((entries k).map view ≠ (target k).map view → updated k)) ∧
      (target k = none → entries k ≠ none → removed k) := by
  unfold patch
  by_cases hremoved : removed k
  · simp only [hremoved, if_true, Option.map_none, not_true_eq_false, false_and, imp_false,
      not_not, imp_true_iff, and_true]
    rw [eq_comm, Option.map_eq_none_iff]
  by_cases hup : updated k
  · simp [hremoved, hup, hupdated hup]
  simp only [hremoved, hup, if_false, not_false_eq_true, true_and, imp_false, not_not]
  constructor
  · intro h
    refine ⟨fun _ => h, fun hnone => ?_⟩
    rw [hnone, Option.map_none, Option.map_eq_none_iff] at h
    exact h
  · rintro ⟨hsome, hnone⟩
    by_cases htarget : target k = none
    · rw [htarget, hnone htarget]
    · exact hsome htarget

end TreeDiff
end Batiste
