import Mathlib.Tactic

/-! Disjoint sets kept in a map of parents.  A walk to the representative halves its path; linking
two representatives joins their sets. -/
namespace Batiste
namespace UnionFind

open Function

variable {α : Type*}

/-- Following the parents from any element leads to its representative, and stays there. -/
structure Represents (parent root : α → α) : Prop where
  fixed : ∀ x, parent (root x) = root x
  leads : ∀ x, ∃ k, parent^[k] x = root x

theorem represents_id : Represents (id : α → α) id :=
  ⟨fun _ => rfl, fun _ => ⟨0, rfl⟩⟩

section Represents

variable {parent root : α → α} (h : Represents parent root)
include h

/-- Wherever a walk can stop, it is at the representative. -/
theorem Represents.unique {x r : α} {k : ℕ} (hr : parent r = r) (hx : parent^[k] x = r) :
    root x = r := by
  obtain ⟨l, hl⟩ := h.leads x
  rcases le_total k l with hkl | hkl
  · obtain ⟨d, rfl⟩ := Nat.exists_eq_add_of_le' hkl
    rw [← hl, iterate_add_apply, hx]
    exact iterate_fixed hr d
  · obtain ⟨d, rfl⟩ := Nat.exists_eq_add_of_le' hkl
    rw [iterate_add_apply, hl, iterate_fixed (h.fixed x)] at hx
    exact hx

theorem Represents.root_eq {r : α} (hr : parent r = r) : root r = r := h.unique (k := 0) hr rfl

/-- The elements that are no representatives bound the length of a walk. -/
theorem Represents.within {keys : List α} (hkeys : ∀ x, parent x ≠ x → x ∈ keys) (x : α) :
    ∃ k ≤ keys.length, parent^[k] x = root x := by
  classical
  have hmin : ∀ j < Nat.find (h.leads x), parent^[j] x ≠ root x := fun j hj =>
    Nat.find_min (h.leads x) hj
  generalize hk : Nat.find (h.leads x) = k at hmin
  have hend : parent^[k] x = root x := hk ▸ Nat.find_spec (h.leads x)
  refine ⟨k, ?_, hend⟩
  have hne : ∀ i j, i < j → j < k → parent^[i] x ≠ parent^[j] x := by
    intro i j hij hjk heq
    -- a walk that comes back to a node could be cut short
    refine hmin (k - j + i) (by omega) ?_
    rw [iterate_add_apply, heq, ← iterate_add_apply, Nat.sub_add_cancel hjk.le, hend]
  have hnodup : ((List.range k).map fun i => parent^[i] x).Nodup := by
    refine List.Nodup.map_on (fun i hi j hj heq => ?_) List.nodup_range
    rw [List.mem_range] at hi hj
    rcases lt_trichotomy i j with hij | hij | hij
    · exact absurd heq (hne i j hij hj)
    · exact hij
    · exact absurd heq.symm (hne j i hij hi)
  have hsub : (List.range k).map (fun i => parent^[i] x) ⊆ keys := by
    intro y hy
    obtain ⟨i, hi, rfl⟩ := List.mem_map.mp hy
    refine hkeys _ fun hfixed => hmin i (List.mem_range.mp hi) ?_
    exact (h.unique hfixed rfl).symm
  have hlength := (List.subperm_of_subset hnodup hsub).length_le
  simpa using hlength

end Represents

/-! ## Halving a path -/

section Halve

variable [DecidableEq α] {parent root : α → α}

/-- The element gets its grandparent as its parent. -/
def halve (parent : α → α) (x : α) : α → α := update parent x (parent (parent x))

theorem halve_within (h : Represents parent root) (c : α) {k : ℕ} {x : α}
    (hx : parent^[k] x = root x) : ∃ l ≤ k, (halve parent c)^[l] x = root x := by
  induction k using Nat.strong_induction_on generalizing x with
  | _ k ih =>
    cases k with
    | zero => exact ⟨0, le_rfl, hx⟩
    | succ k =>
      rw [iterate_succ_apply] at hx
      have hstep : root (parent x) = root x := h.unique (h.fixed x) hx
      by_cases hxc : x = c
      · subst hxc
        have hjump : halve parent x x = parent (parent x) := update_self ..
        cases k with
        | zero =>
          refine ⟨1, le_rfl, ?_⟩
          rw [iterate_one, hjump, show parent x = root x from hx, h.fixed]
        | succ k =>
          rw [iterate_succ_apply] at hx
          have hjumped : root (parent (parent x)) = root x := h.unique (h.fixed x) hx
          obtain ⟨l, hl, hend⟩ := ih k (by omega) (hx.trans hjumped.symm)
          refine ⟨l + 1, by omega, ?_⟩
          rw [iterate_succ_apply, hjump, hend, hjumped]
      · have hsame : halve parent c x = parent x := update_of_ne hxc ..
        obtain ⟨l, hl, hend⟩ := ih k (by omega) (hx.trans hstep.symm)
        refine ⟨l + 1, by omega, ?_⟩
        rw [iterate_succ_apply, hsame, hend, hstep]

/-- Halving changes no representative. -/
theorem Represents.halve (h : Represents parent root) (c : α) :
    Represents (halve parent c) root := by
  refine ⟨fun x => ?_, fun x => ?_⟩
  · by_cases hxc : root x = c
    · rw [← hxc, UnionFind.halve, update_self, h.fixed, h.fixed]
    · rw [UnionFind.halve, update_of_ne hxc, h.fixed]
  · obtain ⟨k, hk⟩ := h.leads x
    obtain ⟨l, -, hl⟩ := halve_within h c hk
    exact ⟨l, hl⟩

/-- Walk to the representative and halve the path on the way. -/
def find : ℕ → (α → α) → α → α × (α → α)
  | 0, parent, x => (x, parent)
  | n + 1, parent, x =>
    if parent x = x then (x, parent) else find n (halve parent x) (parent (parent x))

/-- The walk ends at the representative before its steps run out. -/
theorem find_spec {n : ℕ} {x : α} (h : Represents parent root)
    (hn : ∃ k ≤ n, parent^[k] x = root x) :
    (find n parent x).1 = root x ∧ Represents (find n parent x).2 root := by
  induction n generalizing parent x with
  | zero =>
    obtain ⟨k, hk, hx⟩ := hn
    obtain rfl : k = 0 := Nat.le_zero.mp hk
    exact ⟨hx, h⟩
  | succ n ih =>
    rw [find]
    split
    · rename_i hfixed
      exact ⟨(h.root_eq hfixed).symm, h⟩
    · rename_i hmoves
      obtain ⟨k, hk, hx⟩ := hn
      have hparent : root (parent (parent x)) = root x := by
        obtain ⟨l, hl⟩ := h.leads (parent (parent x))
        exact (h.unique (k := l + 2) (h.fixed _) hl).symm
      obtain ⟨l, hl, hend⟩ : ∃ l ≤ n, parent^[l] (parent (parent x)) = root x := by
        rcases k with - | - | k
        · exact absurd (h.fixed x) (by rwa [← hx])
        · refine ⟨0, Nat.zero_le n, ?_⟩
          rw [iterate_zero, id_eq, show parent x = root x from hx, h.fixed]
        · exact ⟨k, by omega, hx⟩
      obtain ⟨m, hm, hhalved⟩ := halve_within h x (hend.trans hparent.symm)
      rw [← hparent]
      exact ih (h.halve x) ⟨m, hm.trans hl, hhalved⟩

end Halve

/-! ## Joining two sets -/

section Join

variable [DecidableEq α] {parent root : α → α}

/-- The set of the first element is joined to that of the second. -/
def join (root : α → α) (a b : α) (x : α) : α := if root x = root a then root b else root x

/-- The representative of the first gets that of the second as its parent. -/
theorem Represents.link (h : Represents parent root) (a b : α) :
    Represents (update parent (root a) (root b)) (join root a b) := by
  by_cases hab : root a = root b
  · have hsame : update parent (root a) (root b) = parent := by
      rw [← hab, ← h.fixed a, h.fixed, update_eq_self_iff, h.fixed]
    have hroot : join root a b = root := by
      funext x
      rw [join]
      split
      · rename_i hx
        rw [hx, hab]
      · rfl
    rw [hsame, hroot]
    exact h
  have hwalk : ∀ k x, parent^[k] x = root x →
      ∃ l, (update parent (root a) (root b))^[l] x = root x := by
    intro k
    induction k with
    | zero => exact fun x hx => ⟨0, hx⟩
    | succ k ih =>
      intro x hx
      by_cases hfixed : parent x = x
      · exact ⟨0, (h.root_eq hfixed).symm⟩
      · have hxa : x ≠ root a := fun heq => hfixed (heq ▸ h.fixed a)
        rw [iterate_succ_apply] at hx
        have hstep : root (parent x) = root x := h.unique (h.fixed x) hx
        obtain ⟨l, hl⟩ := ih (parent x) (hx.trans hstep.symm)
        exact ⟨l + 1, by rw [iterate_succ_apply, update_of_ne hxa, hl, hstep]⟩
  refine ⟨fun x => ?_, fun x => ?_⟩
  · rw [join]
    split
    · rw [update_of_ne (Ne.symm hab), h.fixed]
    · rename_i hx
      rw [update_of_ne hx, h.fixed]
  · obtain ⟨k, hk⟩ := h.leads x
    obtain ⟨l, hl⟩ := hwalk k x hk
    rw [join]
    split
    · rename_i hx
      exact ⟨l + 1, by rw [iterate_succ_apply', hl, hx, update_self]⟩
    · exact ⟨l, hl⟩

/-- After a join the elements with one representative are those that had one before, and those of
the two sets. -/
theorem join_eq_iff (root : α → α) (a b x y : α) :
    join root a b x = join root a b y ↔
      Relation.EqvGen (fun u v => root u = root v ∨ u = a ∧ v = b) x y := by
  have hold : ∀ {u v}, root u = root v →
      Relation.EqvGen (fun u v => root u = root v ∨ u = a ∧ v = b) u v :=
    fun huv => .rel _ _ (Or.inl huv)
  have hlink : Relation.EqvGen (fun u v => root u = root v ∨ u = a ∧ v = b) a b :=
    .rel _ _ (Or.inr ⟨rfl, rfl⟩)
  constructor
  · intro heq
    rw [join, join] at heq
    split at heq
    · rename_i hx
      split at heq
      · rename_i hy
        exact hold (hx.trans hy.symm)
      · exact (hold hx).trans _ _ _ (hlink.trans _ _ _ (hold heq))
    · split at heq
      · rename_i hy
        exact (hold heq).trans _ _ _ ((hlink.symm _ _).trans _ _ _ (hold hy.symm))
      · exact hold heq
  · intro hchain
    refine (eq_equivalence.comap (join root a b)).eqvGen_iff.mp (hchain.mono fun u v huv => ?_)
    rw [onFun, join, join]
    rcases huv with huv | ⟨rfl, rfl⟩
    · rw [huv]
    · rw [if_pos rfl]
      split <;> rfl

def joinAll (root : α → α) (pairs : List (α × α)) : α → α :=
  pairs.foldl (fun root p => join root p.1 p.2) root

/-- The sets are the classes that the joined pairs generate. -/
theorem joinAll_eq_iff (root : α → α) (pairs : List (α × α)) (x y : α) :
    joinAll root pairs x = joinAll root pairs y ↔
      Relation.EqvGen (fun u v => root u = root v ∨ (u, v) ∈ pairs) x y := by
  induction pairs generalizing root with
  | nil =>
    simp only [joinAll, List.foldl_nil, List.not_mem_nil, or_false]
    exact ((eq_equivalence.comap root).eqvGen_iff (a := x) (b := y)).symm
  | cons p pairs ih =>
    rw [joinAll, List.foldl_cons, ← joinAll, ih]
    constructor
    · intro hchain
      refine (Relation.EqvGen.is_equivalence _).eqvGen_iff.mp (hchain.mono fun u v huv => ?_)
      rcases huv with huv | huv
      · refine ((join_eq_iff root p.1 p.2 u v).mp huv).mono fun s t hst => ?_
        rcases hst with hst | ⟨rfl, rfl⟩
        · exact Or.inl hst
        · exact Or.inr List.mem_cons_self
      · exact .rel _ _ (Or.inr (List.mem_cons_of_mem p huv))
    · refine fun hchain => hchain.mono fun u v huv => ?_
      rcases huv with huv | huv
      · exact Or.inl ((join_eq_iff root p.1 p.2 u v).mpr (.rel _ _ (Or.inl huv)))
      · rcases List.mem_cons.mp huv with rfl | huv
        · exact Or.inl ((join_eq_iff root u v u v).mpr (.rel _ _ (Or.inr ⟨rfl, rfl⟩)))
        · exact Or.inr huv

/-- Representatives that are all joined with one of them become one set, and no other set grows. -/
theorem joinAll_star (root : α → α) {T : List α} {c : α} (hc : c ∈ T) (hT : ∀ a ∈ T, root a = a)
    (x y : α) :
    joinAll root (T.map fun a => (a, c)) x = joinAll root (T.map fun a => (a, c)) y ↔
      root x = root y ∨ root x ∈ T ∧ root y ∈ T := by
  have hpair : ∀ u v, (u, v) ∈ T.map (fun a => (a, c)) ↔ u ∈ T ∧ v = c := by
    intro u v
    simp only [List.mem_map, Prod.mk.injEq]
    constructor
    · rintro ⟨a, ha, rfl, rfl⟩
      exact ⟨ha, rfl⟩
    · rintro ⟨hu, rfl⟩
      exact ⟨u, hu, rfl, rfl⟩
  rw [joinAll_eq_iff]
  constructor
  · intro hchain
    induction hchain with
    | rel u v huv =>
      rcases huv with huv | huv
      · exact Or.inl huv
      · obtain ⟨hu, rfl⟩ := (hpair u v).mp huv
        exact Or.inr ⟨(hT u hu).symm ▸ hu, (hT v hc).symm ▸ hc⟩
    | refl u => exact Or.inl rfl
    | symm u v _ ih =>
      rcases ih with ih | ih
      · exact Or.inl ih.symm
      · exact Or.inr ih.symm
    | trans u v w _ _ ih ih' =>
      rcases ih with ih | ih
      · rw [ih]
        exact ih'
      · rcases ih' with ih' | ih'
        · exact Or.inr ⟨ih.1, ih' ▸ ih.2⟩
        · exact Or.inr ⟨ih.1, ih'.2⟩
  · have hstar : ∀ u, root u ∈ T →
        Relation.EqvGen (fun u v => root u = root v ∨ (u, v) ∈ T.map fun a => (a, c)) u c :=
      fun u hu => .trans _ (root u) _ (.rel _ _ (Or.inl (hT _ hu).symm))
        (.rel _ _ (Or.inr ((hpair _ _).mpr ⟨hu, rfl⟩)))
    rintro (heq | ⟨hx, hy⟩)
    · exact .rel _ _ (Or.inl heq)
    · exact (hstar x hx).trans _ _ _ ((hstar y hy).symm _ _)

end Join

end UnionFind
end Batiste
