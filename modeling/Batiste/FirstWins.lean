import Mathlib.Data.List.Basic

/-! Lists with keys to which elements are offered: the first one of a key is kept. -/
namespace Batiste
namespace FirstWins

variable {α K S : Type*} [DecidableEq K] (key : α → K)

def accept (held : List α) (x : α) : List α := if key x ∈ held.map key then held else held ++ [x]

def acceptAll (held xs : List α) : List α := xs.foldl (accept key) held

variable {key} {held xs : List α} {x : α}

@[simp] theorem acceptAll_nil : acceptAll key held [] = held := rfl

@[simp] theorem acceptAll_cons (y : α) : acceptAll key held (y :: xs) =
    acceptAll key (accept key held y) xs := rfl

/-- An element is accepted when its key is new and no element of that key comes before it. -/
theorem mem_acceptAll : x ∈ acceptAll key held xs ↔
    x ∈ held ∨ key x ∉ held.map key ∧ (xs.find? fun y => decide (key y = key x)) = some x := by
  induction xs generalizing held with
  | nil => simp
  | cons y ys ih =>
    rw [acceptAll_cons, ih]
    by_cases hy : key y ∈ held.map key
    · rw [accept, if_pos hy]
      by_cases hkey : key y = key x
      · rw [← hkey]
        simp only [hy, not_true_eq_false, false_and]
      · rw [List.find?_cons_of_neg (by simpa using hkey)]
    · rw [accept, if_neg hy, List.map_append, List.mem_append, List.mem_append, List.map_singleton,
        List.mem_singleton, List.mem_singleton]
      by_cases hkey : key y = key x
      · rw [List.find?_cons_of_pos (by simpa using hkey), Option.some.injEq, ← hkey]
        simp only [or_true, not_true_eq_false, false_and, or_false, hy, not_false_eq_true, true_and]
        rw [eq_comm]
      · rw [List.find?_cons_of_neg (by simpa using hkey)]
        have hne : x ≠ y := fun h => hkey (congrArg key h.symm)
        simp only [hne, or_false, Ne.symm hkey]

/-- Every offered element finds its own source under its key just when the keys tell the sources
apart. -/
theorem each_own_iff (source : α → S) :
    (∀ x ∈ xs, ∃ h ∈ acceptAll key held xs, key h = key x ∧ source h = source x) ↔
      ∀ x ∈ xs, (key x ∈ held.map key → ∃ h ∈ held, key h = key x ∧ source h = source x) ∧
        (key x ∉ held.map key → ∀ y ∈ xs, key y = key x → source y = source x) := by
  constructor
  · intro hown x hx
    refine ⟨fun hkey => ?_, fun hkey y hy hyx => ?_⟩
    · obtain ⟨h, hmem, hk, hs⟩ := hown x hx
      rcases mem_acceptAll.mp hmem with hheld | ⟨hnew, -⟩
      · exact ⟨h, hheld, hk, hs⟩
      · exact absurd hkey (hk ▸ hnew)
    · have hfirst : ∀ z ∈ xs, key z = key x → ∀ h ∈ acceptAll key held xs, key h = key z →
          (xs.find? fun y => decide (key y = key x)) = some h := by
        intro z _ hzx h hmem hk
        rcases mem_acceptAll.mp hmem with hheld | ⟨-, hfind⟩
        · exact absurd (hk.trans hzx ▸ List.mem_map_of_mem hheld) hkey
        · rwa [hk.trans hzx] at hfind
      obtain ⟨h, hmem, hk, hs⟩ := hown x hx
      obtain ⟨h', hmem', hk', hs'⟩ := hown y hy
      have hsame := (hfirst x hx rfl h hmem hk).symm.trans (hfirst y hy hyx h' hmem' hk')
      rw [← hs', ← Option.some.inj hsame, hs]
  · intro hcond x hx
    by_cases hkey : key x ∈ held.map key
    · obtain ⟨h, hheld, hk, hs⟩ := (hcond x hx).1 hkey
      exact ⟨h, mem_acceptAll.mpr (.inl hheld), hk, hs⟩
    · have hsome : (xs.find? fun y => decide (key y = key x)).isSome := by
        rw [List.find?_isSome]
        exact ⟨x, hx, decide_eq_true rfl⟩
      obtain ⟨y, hy⟩ := Option.isSome_iff_exists.mp hsome
      have hyx : key y = key x := by simpa using List.find?_some hy
      refine ⟨y, mem_acceptAll.mpr (.inr ⟨hyx ▸ hkey, by rw [hyx]; exact hy⟩), hyx, ?_⟩
      exact (hcond x hx).2 hkey y (List.mem_of_find?_eq_some hy) hyx

end FirstWins
end Batiste
