import Mathlib.Algebra.BigOperators.Group.List.Lemmas
import Mathlib.Algebra.Ring.Nat
import Mathlib.Data.List.Forall2
import Mathlib.Data.List.Perm.Basic

/-! Rose trees, unfolded from the children of each node. -/
namespace Batiste

inductive Rose (α : Type*) where
  | node (label : α) (children : List (Rose α))

namespace Rose

variable {α β : Type*}

def root : Rose α → α
  | node a _ => a

/-- The labels of a tree, those of a node before those under it. -/
def labels : Rose α → List α
  | node a trees => a :: labelsAll trees
where
  labelsAll : List (Rose α) → List α
    | [] => []
    | t :: trees => labels t ++ labelsAll trees

theorem labelsAll_eq (trees : List (Rose α)) :
    labels.labelsAll trees = trees.flatMap labels := by
  induction trees with
  | nil => rfl
  | cons t trees ih => rw [labels.labelsAll, ih, List.flatMap_cons]

@[simp] theorem labels_node (a : α) (trees : List (Rose α)) :
    labels (node a trees) = a :: trees.flatMap labels := by rw [labels, labelsAll_eq]

/-- The tree under a node, to a depth; none when some node lies deeper. -/
def unfold (children : α → List α) : ℕ → α → Option (Rose α)
  | 0, _ => none
  | depth + 1, a => ((children a).mapM (unfold children depth)).map (node a)

theorem mapM_some_iff {f : α → Option β} {as : List α} {bs : List β} :
    as.mapM f = some bs ↔ List.Forall₂ (fun a b => f a = some b) as bs := by
  induction as generalizing bs with
  | nil => simp [eq_comm]
  | cons a as ih =>
    rw [List.mapM_cons, List.forall₂_cons_left_iff]
    cases hfa : f a with
    | none => simp
    | some b =>
      simp only [← ih, Option.bind_eq_bind, Option.bind_some, Option.some.injEq]
      cases as.mapM f <;> simp [eq_comm]

theorem exists_of_mem_right {R : α → β → Prop} {as : List α} {bs : List β}
    (h : List.Forall₂ R as bs) {b : β} (hb : b ∈ bs) : ∃ a ∈ as, R a b := by
  induction h with
  | nil => simp at hb
  | cons hab _ ih =>
    rcases List.mem_cons.mp hb with rfl | hb
    · exact ⟨_, List.mem_cons_self, hab⟩
    · obtain ⟨a, ha, hR⟩ := ih hb
      exact ⟨a, List.mem_cons_of_mem _ ha, hR⟩

theorem mapM_isSome {f : α → Option β} {as : List α} (h : ∀ a ∈ as, ∃ b, f a = some b) :
    ∃ bs, as.mapM f = some bs := by
  induction as with
  | nil => exact ⟨[], rfl⟩
  | cons a as ih =>
    obtain ⟨b, hb⟩ := h a List.mem_cons_self
    obtain ⟨bs, hbs⟩ := ih fun a' ha' => h a' (List.mem_cons_of_mem _ ha')
    exact ⟨b :: bs, by simp [List.mapM_cons, hb, hbs]⟩

variable {children : α → List α}

theorem unfold_succ_iff {depth : ℕ} {a : α} {t : Rose α} :
    unfold children (depth + 1) a = some t ↔
      ∃ trees, List.Forall₂ (fun c t => unfold children depth c = some t) (children a) trees ∧
        node a trees = t := by
  simp only [unfold, Option.map_eq_some_iff, mapM_some_iff]

/-- A tree that is found to some depth is found to every greater depth. -/
theorem unfold_mono {depth depth' : ℕ} (hle : depth ≤ depth') {a : α} {t : Rose α}
    (h : unfold children depth a = some t) : unfold children depth' a = some t := by
  induction depth generalizing depth' a t with
  | zero => simp [unfold] at h
  | succ depth ih =>
    obtain ⟨n, rfl⟩ : ∃ n, depth' = n + 1 := ⟨depth' - 1, by omega⟩
    obtain ⟨trees, htrees, rfl⟩ := unfold_succ_iff.mp h
    exact unfold_succ_iff.mpr
      ⟨trees, htrees.imp fun c t hc => ih (by omega) hc, rfl⟩

theorem forest_mono {depth depth' : ℕ} (hle : depth ≤ depth') {roots : List α}
    {forest : List (Rose α)} (h : roots.mapM (unfold children depth) = some forest) :
    roots.mapM (unfold children depth') = some forest :=
  mapM_some_iff.mpr ((mapM_some_iff.mp h).imp fun _ _ ht => unfold_mono hle ht)

/-- A rank that falls from a node to its children bounds the depth of its tree. -/
theorem unfold_of_rank {nodes : List α} {rank : α → ℕ}
    (hrank : ∀ a ∈ nodes, ∀ c ∈ children a, c ∈ nodes ∧ rank c < rank a) {depth : ℕ} {a : α}
    (ha : a ∈ nodes) (hdepth : rank a < depth) : ∃ t, unfold children depth a = some t := by
  induction depth generalizing a with
  | zero => omega
  | succ depth ih =>
    have hall : ∀ c ∈ children a, ∃ t, unfold children depth c = some t :=
      fun c hc => ih (hrank a ha c hc).1 (by have := (hrank a ha c hc).2; omega)
    obtain ⟨trees, htrees⟩ := mapM_isSome hall
    exact ⟨node a trees, by rw [unfold, htrees]; rfl⟩

/-- Trees whose labels are the root and the children of the labels make such a forest. -/
theorem flatMap_labels_perm {roots : List α} {forest : List (Rose α)}
    (h : List.Forall₂ (fun a t => (labels t).Perm (a :: (labels t).flatMap children))
      roots forest) :
    (forest.flatMap labels).Perm (roots ++ (forest.flatMap labels).flatMap children) := by
  induction h with
  | nil => simp
  | cons hc _ ih =>
    simp only [List.flatMap_cons, List.flatMap_append, List.cons_append]
    refine (hc.append ih).trans ?_
    simp only [List.cons_append]
    refine List.Perm.cons _ ?_
    rw [← List.append_assoc, ← List.append_assoc]
    exact List.perm_append_comm.append_right _

/-- The labels of a tree are its root and the children of its labels. -/
theorem labels_perm {depth : ℕ} {a : α} {t : Rose α} (h : unfold children depth a = some t) :
    (labels t).Perm (a :: (labels t).flatMap children) := by
  induction depth generalizing a t with
  | zero => simp [unfold] at h
  | succ depth ih =>
    obtain ⟨trees, htrees, rfl⟩ := unfold_succ_iff.mp h
    rw [labels_node, List.flatMap_cons]
    exact (flatMap_labels_perm (htrees.imp fun c t hc => ih hc)).cons a

/-- The labels of a forest are its roots and the children of its labels. -/
theorem labels_forest {depth : ℕ} {roots : List α} {forest : List (Rose α)}
    (h : roots.mapM (unfold children depth) = some forest) :
    (forest.flatMap labels).Perm (roots ++ (forest.flatMap labels).flatMap children) :=
  flatMap_labels_perm ((mapM_some_iff.mp h).imp fun _ _ hc => labels_perm hc)

/-- Labels stay among nodes that their children do not leave. -/
theorem labels_mem {nodes : List α} (hclosed : ∀ a ∈ nodes, ∀ c ∈ children a, c ∈ nodes)
    {depth : ℕ} {a : α} {t : Rose α} (h : unfold children depth a = some t) (ha : a ∈ nodes) :
    ∀ b ∈ labels t, b ∈ nodes := by
  induction depth generalizing a t with
  | zero => simp [unfold] at h
  | succ depth ih =>
    obtain ⟨trees, htrees, rfl⟩ := unfold_succ_iff.mp h
    intro b hb
    rw [labels_node, List.mem_cons, List.mem_flatMap] at hb
    rcases hb with rfl | ⟨t, ht, hb⟩
    · exact ha
    · obtain ⟨c, hc, hct⟩ := exists_of_mem_right htrees ht
      exact ih hct (hclosed a ha c hc) b hb

/-- Lists that agree on what a sum counts have the same sum. -/
theorem sum_eq_of_count [DecidableEq α] {xs ys : List α} {f : α → ℕ}
    (h : ∀ a, f a ≠ 0 → xs.count a = ys.count a) : (xs.map f).sum = (ys.map f).sum := by
  have hsum : ∀ zs : List α, (zs.map f).sum = ((zs.filter fun a => f a != 0).map f).sum := by
    intro zs
    induction zs with
    | nil => rfl
    | cons a zs ih =>
      by_cases ha : f a = 0
      · simp [ha, ih]
      · simp [ha, ih]
  rw [hsum xs, hsum ys]
  refine (List.Perm.map f (List.perm_iff_count.mpr fun a => ?_)).sum_eq
  by_cases ha : f a = 0
  · rw [List.count_eq_zero_of_not_mem (by simp [ha]), List.count_eq_zero_of_not_mem (by simp [ha])]
  · rw [List.count_filter (by simpa using ha), List.count_filter (by simpa using ha)]
    exact h a ha

/-- Where every node is a root or the child of one node, and a rank falls from a node to its
children, the forest under the roots has every node once. -/
theorem forest_perm {nodes roots : List α} {rank : α → ℕ} {bound depth : ℕ}
    (honce : (roots ++ nodes.flatMap children).Perm nodes)
    (hrank : ∀ a ∈ nodes, ∀ c ∈ children a, rank c < rank a)
    (hbound : ∀ a ∈ nodes, rank a < bound) (hdepth : bound ≤ depth) :
    ∃ forest, roots.mapM (unfold children depth) = some forest ∧
      (forest.flatMap labels).Perm nodes := by
  classical
  have hroots : ∀ a ∈ roots, a ∈ nodes := fun a ha =>
    honce.subset (List.mem_append_left _ ha)
  have hclosed : ∀ a ∈ nodes, ∀ c ∈ children a, c ∈ nodes := fun a ha c hc =>
    honce.subset (List.mem_append_right _ (List.mem_flatMap.mpr ⟨a, ha, hc⟩))
  have hall : ∀ a ∈ roots, ∃ t, unfold children depth a = some t := fun a ha =>
    unfold_of_rank (fun a ha c hc => ⟨hclosed a ha c hc, hrank a ha c hc⟩) (hroots a ha)
      ((hbound a (hroots a ha)).trans_le hdepth)
  obtain ⟨forest, hforest⟩ := mapM_isSome hall
  refine ⟨forest, hforest, List.perm_iff_count.mpr fun a => ?_⟩
  have hlabels : ∀ b ∈ forest.flatMap labels, b ∈ nodes := by
    intro b hb
    obtain ⟨t, ht, hbt⟩ := List.mem_flatMap.mp hb
    obtain ⟨r, hr, hrt⟩ := exists_of_mem_right (mapM_some_iff.mp hforest) ht
    exact labels_mem hclosed hrt (hroots r hr) b hbt
  -- The parents of a node have a greater rank, so the induction is on what is left to the bound.
  induction hleft : bound - rank a using Nat.strong_induction_on generalizing a with
  | _ left ih =>
    rw [(labels_forest hforest).count_eq, ← honce.count_eq, List.count_append, List.count_append,
      List.count_flatMap, List.count_flatMap]
    congr 1
    refine sum_eq_of_count fun b hb => ?_
    have hchild : a ∈ children b := List.count_pos_iff.mp (Nat.pos_of_ne_zero hb)
    by_cases hnode : b ∈ nodes
    · have hlt := hrank b hnode a hchild
      have hb := hbound b hnode
      exact ih _ (by omega) b rfl
    · rw [List.count_eq_zero_of_not_mem fun hmem => hnode (hlabels b hmem),
        List.count_eq_zero_of_not_mem hnode]

end Rose
end Batiste
