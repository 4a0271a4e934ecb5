import Mathlib.Tactic

/-! Longest common subsequences of two lists, and their lengths prefix by prefix. -/
namespace Batiste
namespace CommonSubsequence

open List

variable {α : Type*}

def Common (zs xs ys : List α) : Prop := zs <+ xs ∧ zs <+ ys

structure Longest (zs xs ys : List α) : Prop where
  common : Common zs xs ys
  le : ∀ ws, Common ws xs ys → ws.length ≤ zs.length

theorem Longest.of_length {zs ws xs ys : List α} (h : Longest zs xs ys) (hws : Common ws xs ys)
    (hlength : ws.length = zs.length) : Longest ws xs ys :=
  ⟨hws, fun vs hvs => hlength ▸ h.le vs hvs⟩

theorem longest_nil_left (ys : List α) : Longest [] [] ys :=
  ⟨⟨nil_sublist _, nil_sublist _⟩, fun ws hws => by simp [sublist_nil.mp hws.1]⟩

theorem longest_nil_right (xs : List α) : Longest [] xs [] :=
  ⟨⟨nil_sublist _, nil_sublist _⟩, fun ws hws => by simp [sublist_nil.mp hws.2]⟩

theorem sublist_concat_iff {ws xs : List α} {x : α} :
    ws <+ xs ++ [x] ↔ ws <+ xs ∨ ∃ vs, ws = vs ++ [x] ∧ vs <+ xs := by
  constructor
  · intro h
    obtain ⟨vs, us, rfl, hvs, hus⟩ := sublist_append_iff.mp h
    rcases sublist_singleton.mp hus with rfl | rfl
    · exact .inl (by simpa using hvs)
    · exact .inr ⟨vs, rfl, hvs⟩
  · rintro (h | ⟨vs, rfl, h⟩)
    · exact h.trans (sublist_append_left xs [x])
    · exact h.append_right [x]

/-- Two lists with one last item: it belongs to a longest common subsequence. -/
theorem Longest.concat {zs xs ys : List α} (h : Longest zs xs ys) (x : α) :
    Longest (zs ++ [x]) (xs ++ [x]) (ys ++ [x]) where
  common := ⟨h.common.1.append_right [x], h.common.2.append_right [x]⟩
  le ws hws := by
    rw [length_append, length_singleton]
    rcases sublist_concat_iff.mp hws.1 with hxs | ⟨vs, rfl, hxs⟩
    · rcases sublist_concat_iff.mp hws.2 with hys | ⟨us, rfl, hys⟩
      · exact (h.le ws ⟨hxs, hys⟩).trans (Nat.le_succ _)
      · rw [length_append, length_singleton]
        exact Nat.succ_le_succ (h.le us ⟨(sublist_append_left us [x]).trans hxs, hys⟩)
    · rw [length_append, length_singleton]
      refine Nat.succ_le_succ (h.le vs ⟨hxs, ?_⟩)
      rcases sublist_concat_iff.mp hws.2 with hys | ⟨us, heq, hys⟩
      · exact (sublist_append_left vs [x]).trans hys
      · rwa [(append_inj' heq rfl).1]

/-- Two lists with different last items: a common subsequence does without one of them. -/
theorem common_concat_of_ne {ws xs ys : List α} {x y : α} (hne : x ≠ y)
    (h : Common ws (xs ++ [x]) (ys ++ [y])) :
    Common ws xs (ys ++ [y]) ∨ Common ws (xs ++ [x]) ys := by
  rcases sublist_concat_iff.mp h.1 with hxs | ⟨vs, rfl, -⟩
  · exact .inl ⟨hxs, h.2⟩
  · rcases sublist_concat_iff.mp h.2 with hys | ⟨us, heq, -⟩
    · exact .inr ⟨h.1, hys⟩
    · have hlast := (append_inj' heq rfl).2
      exact absurd (singleton_inj.mp hlast) hne

theorem Longest.concat_left {zs ws xs ys : List α} {x y : α} (hne : x ≠ y)
    (hleft : Longest zs xs (ys ++ [y])) (hright : Longest ws (xs ++ [x]) ys)
    (hle : ws.length ≤ zs.length) : Longest zs (xs ++ [x]) (ys ++ [y]) where
  common := ⟨hleft.common.1.trans (sublist_append_left xs [x]), hleft.common.2⟩
  le vs hvs := by
    rcases common_concat_of_ne hne hvs with hvs | hvs
    · exact hleft.le vs hvs
    · exact (hright.le vs hvs).trans hle

theorem Longest.symm {zs xs ys : List α} (h : Longest zs xs ys) : Longest zs ys xs :=
  ⟨h.common.symm, fun ws hws => h.le ws hws.symm⟩

theorem Longest.concat_right {zs ws xs ys : List α} {x y : α} (hne : x ≠ y)
    (hleft : Longest zs xs (ys ++ [y])) (hright : Longest ws (xs ++ [x]) ys)
    (hle : zs.length ≤ ws.length) : Longest ws (xs ++ [x]) (ys ++ [y]) :=
  (Longest.concat_left hne.symm hright.symm hleft.symm hle).symm

/-! ## Lengths -/

/-- The length of the longest common subsequences. -/
def HasLength (xs ys : List α) (n : ℕ) : Prop := ∃ zs, Longest zs xs ys ∧ zs.length = n

theorem Longest.hasLength {zs xs ys : List α} (h : Longest zs xs ys) :
    HasLength xs ys zs.length := ⟨zs, h, rfl⟩

theorem HasLength.unique {xs ys : List α} {m n : ℕ} (hm : HasLength xs ys m)
    (hn : HasLength xs ys n) : m = n := by
  obtain ⟨zs, hzs, rfl⟩ := hm
  obtain ⟨ws, hws, rfl⟩ := hn
  exact le_antisymm (hws.le zs hzs.common) (hzs.le ws hws.common)

theorem HasLength.concat {xs ys : List α} {n : ℕ} (h : HasLength xs ys n) (x : α) :
    HasLength (xs ++ [x]) (ys ++ [x]) (n + 1) := by
  obtain ⟨zs, hzs, rfl⟩ := h
  exact ⟨zs ++ [x], hzs.concat x, by simp⟩

theorem HasLength.concat_of_ne {xs ys : List α} {x y : α} (hne : x ≠ y) {m n : ℕ}
    (hm : HasLength xs (ys ++ [y]) m) (hn : HasLength (xs ++ [x]) ys n) :
    HasLength (xs ++ [x]) (ys ++ [y]) (max m n) := by
  obtain ⟨zs, hzs, rfl⟩ := hm
  obtain ⟨ws, hws, rfl⟩ := hn
  rcases le_total ws.length zs.length with hle | hle
  · exact ⟨zs, Longest.concat_left hne hzs hws hle, (max_eq_left hle).symm⟩
  · exact ⟨ws, Longest.concat_right hne hzs hws hle, (max_eq_right hle).symm⟩

end CommonSubsequence
end Batiste
