import Batiste.Grouping
import Batiste.Triage
import Batiste.UnionFind

/-! The clusters of similar tasks are the connected components of the pairs that score enough. -/
namespace Batiste
namespace SimilarClusters

open TaskActions Relation

/-! ## Pairs -/

section Pairs

variable (score : String → String → ℚ) (min : ℚ)

/-- The two loops of `allPairs`. -/
def scoredPairs : List Task → List SimPair
  | [] => []
  | ti :: later =>
    (later.filterMap fun tj =>
      if min ≤ score ti.id tj.id then some ⟨ti.id, tj.id, score ti.id tj.id⟩ else none) ++
      scoredPairs later

theorem mem_scoredPairs {tasks : List Task} {p : SimPair} :
    p ∈ scoredPairs score min tasks ↔ ∃ a b : Task, [a, b].Sublist tasks ∧
      min ≤ score a.id b.id ∧ p = ⟨a.id, b.id, score a.id b.id⟩ := by
  induction tasks with
  | nil => simp [scoredPairs]
  | cons ti later ih =>
    rw [scoredPairs, List.mem_append, ih, List.mem_filterMap]
    constructor
    · rintro (⟨tj, htj, hp⟩ | ⟨a, b, hsub, hmin, hp⟩)
      · split at hp
        · rename_i hmin
          refine ⟨ti, tj, ?_, hmin, (Option.some.inj hp).symm⟩
          exact (List.singleton_sublist.mpr htj).cons_cons ti
        · exact absurd hp (by simp)
      · exact ⟨a, b, hsub.cons ti, hmin, hp⟩
    · rintro ⟨a, b, hsub, hmin, rfl⟩
      rcases List.sublist_cons_iff.mp hsub with hsub | ⟨rest, heq, hrest⟩
      · exact Or.inr ⟨a, b, hsub, hmin, rfl⟩
      · obtain ⟨rfl, rfl⟩ := List.cons.inj heq
        exact Or.inl ⟨b, List.singleton_sublist.mp hrest, if_pos hmin⟩

end Pairs

/-- All pairs that score enough, the highest scores first. -/
def allPairs (sim : Similarity) (tasks : List Task) (min : ℚ) : List SimPair :=
  (scoredPairs (sim.scoreIndexed tasks) min tasks).insertionSort fun x y =>
    y.score < x.score ∨ x.score = y.score ∧
      (sim.localeLe y.a x.a = false ∨ sim.localeLe x.a y.a = true ∧ sim.localeLe x.b y.b = true)

/-- The pairs are those of the scores. -/
def paired (sim : Similarity) : Similarity :=
  { sim with allPairs := allPairs sim }

/-- Two tasks are a pair: their score, the earlier one taken first, is at least the threshold. -/
def Scored (sim : Similarity) (threshold : ℚ) (tasks : List Task) (x y : String) : Prop :=
  ∃ a b : Task, [a, b].Sublist tasks ∧ a.id = x ∧ b.id = y ∧ threshold ≤ sim.scoreIndexed tasks x y

/-- A chain of pairs leads from one task to the other. -/
def Chained (sim : Similarity) (threshold : ℚ) (tasks : List Task) : String → String → Prop :=
  EqvGen (Scored sim threshold tasks)

theorem mem_allPairs {sim : Similarity} {threshold : ℚ} {tasks : List Task} {x y : String} :
    (x, y) ∈ (allPairs sim tasks threshold).map (fun p => (p.a, p.b)) ↔
      Scored sim threshold tasks x y := by
  rw [allPairs, List.mem_map]
  simp only [List.mem_insertionSort, mem_scoredPairs]
  constructor
  · rintro ⟨p, ⟨a, b, hsub, hmin, rfl⟩, heq⟩
    obtain ⟨rfl, rfl⟩ := Prod.mk.inj heq
    exact ⟨a, b, hsub, rfl, rfl, hmin⟩
  · rintro ⟨a, b, hsub, rfl, rfl, hmin⟩
    exact ⟨_, ⟨a, b, hsub, hmin, rfl⟩, rfl⟩

/-! ## Parents -/

section Parents

open UnionFind

/-- `parent.get(x)`, and the key itself where there is none. -/
def parentOf (parent : Dict String) (x : String) : String := (parent.get? x).getD x

theorem parentOf_set (parent : Dict String) (x v : String) :
    parentOf (parent.set x v) = Function.update (parentOf parent) x v := by
  funext y
  rw [parentOf, Dict.get?_set]
  by_cases hy : y = x
  · rw [if_pos hy, hy, Function.update_self, Option.getD_some]
  · rw [if_neg hy, Function.update_of_ne hy, parentOf]

/-- The loop of `find` is the walk over the parents. -/
theorem findRoot_eq (n : ℕ) (parent : Dict String) (x : String) :
    (findRoot n parent x).1 = (UnionFind.find n (parentOf parent) x).1 ∧
      parentOf (findRoot n parent x).2 = (UnionFind.find n (parentOf parent) x).2 := by
  induction n generalizing parent x with
  | zero => exact ⟨rfl, rfl⟩
  | succ n ih =>
    rw [findRoot, UnionFind.find]
    cases hget : parent.get? x with
    | none =>
      have hself : parentOf parent x = x := by rw [parentOf, hget, Option.getD_none]
      rw [if_pos hself]
      exact ⟨rfl, rfl⟩
    | some p =>
      have hp : parentOf parent x = p := by rw [parentOf, hget, Option.getD_some]
      rw [hp]
      by_cases hpx : p = x
      · rw [if_pos hpx]
        simp [hpx]
      · rw [if_neg hpx, halve, hp, ← parentOf_set]
        simp only [hpx, if_false]
        exact ih _ _

theorem mem_keys_of_parentOf {parent : Dict String} {x : String} (h : parentOf parent x ≠ x) :
    x ∈ parent.map Prod.fst := by
  by_contra hnone
  rw [← Dict.get?_eq_none] at hnone
  exact h (by rw [parentOf, hnone, Option.getD_none])

variable {parent : Dict String} {root : String → String}

/-- `find` ends at the representative. -/
theorem find_root (h : Represents (parentOf parent) root) (x : String) :
    (TaskActions.find parent x).1 = root x ∧
      Represents (parentOf (TaskActions.find parent x).2) root := by
  obtain ⟨k, hk, hwalk⟩ := h.within (fun y hy => mem_keys_of_parentOf hy) x
  rw [List.length_map] at hk
  obtain ⟨hroot, hparent⟩ := findRoot_eq (parent.length + 1) parent x
  rw [TaskActions.find, hroot, hparent]
  exact find_spec h ⟨k, by omega, hwalk⟩

theorem union_joins (h : Represents (parentOf parent) root) (p : SimPair) :
    Represents (parentOf (union parent p)) (join root p.a p.b) := by
  obtain ⟨ha, hparent⟩ := find_root h p.a
  obtain ⟨hb, hparent⟩ := find_root hparent p.b
  rw [union, parentOf_set, ha, hb]
  exact hparent.link p.a p.b

theorem foldl_union_joins (h : Represents (parentOf parent) root) (pairs : List SimPair) :
    Represents (parentOf (pairs.foldl union parent))
      (joinAll root (pairs.map fun p => (p.a, p.b))) := by
  induction pairs generalizing parent root with
  | nil => exact h
  | cons p pairs ih => exact ih (union_joins h p)

theorem parentOf_self (tasks : List Task) :
    parentOf (tasks.map fun task => (task.id, task.id)) = id := by
  funext x
  induction tasks with
  | nil => rfl
  | cons task tasks ih =>
    rw [parentOf, List.map_cons, Dict.get?_cons]
    split
    · rename_i hx
      exact hx
    · exact ih

end Parents

/-! ## Groups -/

section Groups

open UnionFind

theorem set_eq_pushTo {β : Type} {groups : Dict (List β)} (hkeys : (groups.map Prod.fst).Nodup)
    (key : String) (x : β) :
    groups.set key ((groups.get? key).getD [] ++ [x]) = Grouping.pushTo groups key x := by
  have hany : (groups.any fun g => g.1 == key) = groups.any fun g => decide (g.1 = key) := rfl
  rw [Dict.set, Grouping.pushTo, hany]
  split
  · refine List.map_congr_left fun g hg => ?_
    split
    · rename_i hkey
      have hget : groups.get? key = some g.2 := Dict.get?_of_mem hkeys (hkey ▸ hg)
      rw [hget, Option.getD_some, hkey]
    · rfl
  · rename_i hnew
    have hnone : groups.get? key = none := by
      rw [Dict.get?_eq_none]
      intro hmem
      obtain ⟨g, hg, hkey⟩ := List.mem_map.mp hmem
      exact hnew (List.any_eq_true.mpr ⟨g, hg, decide_eq_true hkey⟩)
    rw [hnone]
    rfl

/-- The task is in some pair. -/
def inCluster (pairs : List SimPair) (task : Task) : Bool :=
  pairs.any fun p => p.a = task.id || p.b = task.id

theorem addToGroup_of_pos {pairs : List SimPair} {task : Task} (hin : inCluster pairs task = true)
    (acc : Dict String × Dict (List Task)) :
    addToGroup pairs acc task = ((TaskActions.find acc.1 task.id).2,
      acc.2.set (TaskActions.find acc.1 task.id).1
        ((acc.2.get? (TaskActions.find acc.1 task.id).1).getD [] ++ [task])) := if_pos hin

theorem addToGroup_of_neg {pairs : List SimPair} {task : Task}
    (hin : ¬ inCluster pairs task = true) (acc : Dict String × Dict (List Task)) :
    addToGroup pairs acc task = acc := if_neg hin

theorem foldl_addToGroup (pairs : List SimPair) {parent : Dict String} {root : String → String}
    (h : Represents (parentOf parent) root) (tasks : List Task) :
    Represents (parentOf (tasks.foldl (addToGroup pairs) (parent, [])).1) root ∧
      (tasks.foldl (addToGroup pairs) (parent, [])).2 =
        Grouping.groupBy (fun task : Task => root task.id) (tasks.filter (inCluster pairs)) := by
  induction tasks using List.reverseRecOn with
  | nil => exact ⟨h, rfl⟩
  | append_singleton tasks task ih =>
    obtain ⟨hparent, hgroups⟩ := ih
    rw [List.foldl_append, List.foldl_cons, List.foldl_nil, List.filter_append]
    generalize tasks.foldl (addToGroup pairs) (parent, []) = acc at hparent hgroups
    by_cases hin : inCluster pairs task = true
    · obtain ⟨hroot, hhalved⟩ := find_root hparent task.id
      rw [addToGroup_of_pos hin, List.filter_cons_of_pos hin, List.filter_nil, Grouping.groupBy,
        List.foldl_append, ← Grouping.groupBy, ← hgroups, hroot]
      refine ⟨hhalved, ?_⟩
      refine set_eq_pushTo ?_ (root task.id) task
      rw [hgroups]
      exact (Grouping.grouped _ _).keys
    · rw [addToGroup_of_neg hin, List.filter_cons_of_neg hin, List.filter_nil, List.append_nil]
      exact ⟨hparent, hgroups⟩

/-- The groups are the tasks of the pairs by their representative; the pairs generate which ones have
the same. -/
theorem groupsOf_grouped (pairs : List SimPair) (tasks : List Task) :
    ∃ root : String → String,
      Grouping.Grouped (fun task : Task => root task.id) (tasks.filter (inCluster pairs))
        (groupsOf pairs tasks) ∧
      ∀ x y, root x = root y ↔ EqvGen (fun u v => (u, v) ∈ pairs.map fun p => (p.a, p.b)) x y := by
  have hstart : Represents (parentOf (tasks.map fun task => (task.id, task.id))) id := by
    rw [parentOf_self]
    exact represents_id
  have hgroups := (foldl_addToGroup pairs (foldl_union_joins hstart pairs) tasks).2
  refine ⟨joinAll id (pairs.map fun p => (p.a, p.b)), ?_, fun x y => ?_⟩
  · rw [groupsOf, hgroups]
    exact Grouping.grouped _ _
  · rw [joinAll_eq_iff]
    constructor
    · intro hchain
      refine (EqvGen.is_equivalence _).eqvGen_iff.mp (hchain.mono fun u v huv => ?_)
      rcases huv with huv | huv
      · obtain rfl : u = v := huv
        exact .refl u
      · exact .rel u v huv
    · exact fun hchain => hchain.mono fun u v huv => Or.inr huv

end Groups

/-! ## Clusters -/

section Clusters

variable {numberText : ℚ → String} {sim : Similarity} {threshold : ℚ} {tasks : List Task}

theorem inCluster_iff {task : Task} :
    inCluster (allPairs sim tasks threshold) task = true ↔
      ∃ y, Scored sim threshold tasks task.id y ∨ Scored sim threshold tasks y task.id := by
  rw [inCluster, List.any_eq_true]
  constructor
  · rintro ⟨p, hp, hends⟩
    have hscored : Scored sim threshold tasks p.a p.b := mem_allPairs.mp (List.mem_map_of_mem hp)
    rw [Bool.or_eq_true, decide_eq_true_eq, decide_eq_true_eq] at hends
    rcases hends with heq | heq
    · exact ⟨p.b, Or.inl (heq ▸ hscored)⟩
    · exact ⟨p.a, Or.inr (heq ▸ hscored)⟩
  · rintro ⟨y, hscored | hscored⟩
    · obtain ⟨p, hp, heq⟩ := List.mem_map.mp (mem_allPairs.mpr hscored)
      exact ⟨p, hp, by simp [(Prod.mk.inj heq).1]⟩
    · obtain ⟨p, hp, heq⟩ := List.mem_map.mp (mem_allPairs.mpr hscored)
      exact ⟨p, hp, by simp [(Prod.mk.inj heq).2]⟩

/-- A chain between two tasks begins with a pair. -/
theorem Chained.scored {x y : String} (h : Chained sim threshold tasks x y) (hne : x ≠ y) :
    ∃ z, Scored sim threshold tasks x z ∨ Scored sim threshold tasks z x := by
  have hboth : x = y ∨ (∃ z, Scored sim threshold tasks x z ∨ Scored sim threshold tasks z x) ∧
      ∃ z, Scored sim threshold tasks y z ∨ Scored sim threshold tasks z y := by
    clear hne
    induction h with
    | rel u v huv => exact Or.inr ⟨⟨v, Or.inl huv⟩, ⟨u, Or.inr huv⟩⟩
    | refl u => exact Or.inl rfl
    | symm u v _ ih => exact ih.imp Eq.symm And.symm
    | trans u v w _ _ ih₁ ih₂ =>
      rcases ih₁ with rfl | ih₁
      · exact ih₂
      rcases ih₂ with rfl | ih₂
      · exact Or.inr ih₁
      · exact Or.inr ⟨ih₁.1, ih₂.2⟩
  exact (hboth.resolve_left hne).1

/-- The tasks that chains of pairs connect with a task of some pair, in their order. -/
structure Component (sim : Similarity) (threshold : ℚ) (tasks members : List Task) : Prop where
  sublist : members.Sublist tasks
  scored : ∃ s ∈ members, ∃ y, Scored sim threshold tasks s.id y ∨ Scored sim threshold tasks y s.id
  closed : ∀ s ∈ members, ∀ t ∈ tasks, t ∈ members ↔ Chained sim threshold tasks s.id t.id

/-- The two tasks of a pair are different ones. -/
theorem Scored.ends {x y : String} (h : Scored sim threshold tasks x y)
    (hids : (tasks.map Task.id).Nodup) :
    x ≠ y ∧ (∃ a ∈ tasks, a.id = x) ∧ ∃ b ∈ tasks, b.id = y := by
  obtain ⟨a, b, hsub, rfl, rfl, -⟩ := h
  have hnodup := hids.sublist (hsub.map Task.id)
  refine ⟨?_, ⟨a, hsub.subset (by simp), rfl⟩, ⟨b, hsub.subset (by simp), rfl⟩⟩
  simpa using hnodup

/-- A component has a second task. -/
theorem Component.second {members : List Task} (h : Component sim threshold tasks members)
    (hids : (tasks.map Task.id).Nodup) : ∃ s ∈ members, ∃ t ∈ members, s.id ≠ t.id := by
  obtain ⟨s, hs, y, hscored | hscored⟩ := h.scored
  · obtain ⟨hne, -, t, ht, rfl⟩ := hscored.ends hids
    exact ⟨s, hs, t, (h.closed s hs t ht).mpr (.rel _ _ hscored), hne⟩
  · obtain ⟨hne, ⟨t, ht, rfl⟩, -⟩ := hscored.ends hids
    exact ⟨s, hs, t, (h.closed s hs t ht).mpr (.symm _ _ (.rel _ _ hscored)), hne.symm⟩

/-- The groups are the components. -/
theorem groups_components (sim : Similarity) (threshold : ℚ) (tasks : List Task) :
    (∀ g ∈ groupsOf (allPairs sim tasks threshold) tasks, Component sim threshold tasks g.2) ∧
      (groupsOf (allPairs sim tasks threshold) tasks).Pairwise (fun g g' =>
        ∀ t ∈ g.2, t ∉ g'.2) ∧
      ∀ s ∈ tasks, (∃ y, Scored sim threshold tasks s.id y ∨ Scored sim threshold tasks y s.id) →
        ∃ g ∈ groupsOf (allPairs sim tasks threshold) tasks, s ∈ g.2 := by
  obtain ⟨root, hgrouped, hgenerated⟩ := groupsOf_grouped (allPairs sim tasks threshold) tasks
  have hroot : ∀ x y, root x = root y ↔ Chained sim threshold tasks x y := by
    simp only [mem_allPairs] at hgenerated
    exact hgenerated
  have hmem : ∀ g ∈ groupsOf (allPairs sim tasks threshold) tasks, ∀ t, t ∈ g.2 ↔
      t ∈ tasks ∧ inCluster (allPairs sim tasks threshold) t = true ∧ root t.id = g.1 := by
    intro g hg t
    rw [hgrouped.mem_iff hg, List.mem_filter, and_assoc]
  refine ⟨fun g hg => ?_, ?_, fun s hs hscored => ?_⟩
  · obtain ⟨hitems, hne⟩ := hgrouped.items g hg
    obtain ⟨s₀, hs₀⟩ := List.exists_mem_of_ne_nil _ hne
    refine ⟨?_, ⟨s₀, hs₀, inCluster_iff.mp ((hmem g hg s₀).mp hs₀).2.1⟩, fun s hs t ht => ?_⟩
    · rw [hitems]
      exact List.filter_sublist.trans List.filter_sublist
    · obtain ⟨-, hin, hkey⟩ := (hmem g hg s).mp hs
      rw [hmem g hg t, ← hroot, hkey]
      refine ⟨fun h => h.2.2.symm, fun h => ⟨ht, ?_, h.symm⟩⟩
      have hchained : Chained sim threshold tasks t.id s.id := (hroot _ _).mp (h.symm.trans hkey.symm)
      by_cases hid : t.id = s.id
      · rw [inCluster_iff, hid, ← inCluster_iff]
        exact hin
      · exact inCluster_iff.mpr (hchained.scored hid)
  · refine (List.pairwise_map.mp hgrouped.keys).imp_of_mem fun hg hg' hne t ht ht' => hne ?_
    rw [← ((hmem _ hg t).mp ht).2.2, ((hmem _ hg' t).mp ht').2.2]
  · have hin := inCluster_iff.mpr hscored
    obtain ⟨g, hg, hkey⟩ := List.mem_map.mp (hgrouped.covers s (List.mem_filter.mpr ⟨hs, hin⟩))
    exact ⟨g, hg, (hmem g hg s).mpr ⟨hs, hin, hkey.symm⟩⟩

theorem mem_of_pickTarget {members : List Task} {target : Task}
    (h : pickTarget numberText members = some target) : target ∈ members := by
  have hhead := List.mem_of_head? h
  rwa [List.mem_insertionSort] at hhead

variable (numberText) in
theorem pickTarget_isSome {members : List Task} (h : members ≠ []) :
    ∃ target, pickTarget numberText members = some target := by
  have hlength := List.length_insertionSort (fun a b => phaseRank numberText b < phaseRank numberText a ∨
    phaseRank numberText a = phaseRank numberText b ∧ a.createdAt.getD 0 ≤ b.createdAt.getD 0) members
  refine Option.ne_none_iff_exists'.mp fun hnone => h ?_
  rw [pickTarget, List.head?_eq_none_iff] at hnone
  rw [hnone] at hlength
  exact List.length_eq_zero_iff.mp hlength.symm

/-- What a cluster is: a component with its target, and the others to be merged into it. -/
structure IsCluster (numberText : ℚ → String) (sim : Similarity) (threshold : ℚ)
    (tasks members : List Task) (cluster : SimCluster) : Prop where
  component : Component sim threshold tasks members
  chosen : ∃ target, pickTarget numberText members = some target ∧ cluster.targetId = target.id ∧
    cluster.members = target :: members.filter (fun task => task.id ≠ target.id) ∧
    cluster.merges.map (fun m => (m.sourceId, m.targetId)) =
      (members.filter fun task => task.id ≠ target.id).map fun task => (task.id, target.id)

theorem clusterOf_isCluster {pairs : List SimPair} {members : List Task} {cluster : SimCluster}
    (hcomponent : Component sim threshold tasks members)
    (h : clusterOf numberText (paired sim) pairs tasks members = some cluster) :
    IsCluster numberText sim threshold tasks members cluster := by
  obtain ⟨target, htarget, rfl⟩ := Option.map_eq_some_iff.mp h
  refine ⟨hcomponent, target, htarget, rfl, rfl, ?_⟩
  rw [List.map_map]
  rfl

theorem IsCluster.mem_iff {members : List Task} {cluster : SimCluster}
    (h : IsCluster numberText sim threshold tasks members cluster)
    (hids : (tasks.map Task.id).Nodup) (t : Task) : t ∈ cluster.members ↔ t ∈ members := by
  obtain ⟨target, htarget, -, hmembers, -⟩ := h.chosen
  have hmem := mem_of_pickTarget htarget
  rw [hmembers, List.mem_cons, List.mem_filter, decide_eq_true_eq]
  constructor
  · rintro (rfl | ht)
    · exact hmem
    · exact ht.1
  · intro ht
    by_cases hid : t.id = target.id
    · have hsub := h.component.sublist.subset
      exact Or.inl (List.inj_on_of_nodup_map hids (hsub ht) (hsub hmem) hid)
    · exact Or.inr ⟨ht, hid⟩

/-- Every cluster is made of one component. -/
theorem clusterSimilar_isCluster {cluster : SimCluster}
    (h : cluster ∈ clusterSimilar numberText (paired sim) threshold tasks) :
    ∃ members, IsCluster numberText sim threshold tasks members cluster := by
  rw [clusterSimilar, List.mem_insertionSort] at h
  obtain ⟨g, hg, hof⟩ := List.mem_filterMap.mp h
  exact ⟨g.2, clusterOf_isCluster ((groups_components sim threshold tasks).1 g hg) hof⟩

variable (numberText) in
/-- Every task of a pair is in a cluster. -/
theorem exists_cluster {s : Task} (hs : s ∈ tasks)
    (hscored : ∃ y, Scored sim threshold tasks s.id y ∨ Scored sim threshold tasks y s.id) :
    ∃ cluster ∈ clusterSimilar numberText (paired sim) threshold tasks, ∃ members,
      IsCluster numberText sim threshold tasks members cluster ∧ s ∈ members := by
  obtain ⟨hcomponents, -, hcovers⟩ := groups_components sim threshold tasks
  obtain ⟨g, hg, hsg⟩ := hcovers s hs hscored
  obtain ⟨target, htarget⟩ := pickTarget_isSome numberText (List.ne_nil_of_mem hsg)
  have hof : ∃ cluster, clusterOf numberText (paired sim) (allPairs sim tasks threshold) tasks g.2 =
      some cluster := by
    rw [clusterOf, htarget]
    exact ⟨_, rfl⟩
  obtain ⟨cluster, hof⟩ := hof
  refine ⟨cluster, ?_, g.2, clusterOf_isCluster (hcomponents g hg) hof, hsg⟩
  rw [clusterSimilar, List.mem_insertionSort]
  exact List.mem_filterMap.mpr ⟨g, hg, hof⟩

theorem clusters_disjoint (hids : (tasks.map Task.id).Nodup) :
    (clusterSimilar numberText (paired sim) threshold tasks).Pairwise
      fun c d => ∀ t ∈ c.members, t ∉ d.members := by
  obtain ⟨hcomponents, hpairwise, -⟩ := groups_components sim threshold tasks
  have hsymm : ∀ {c d : SimCluster}, (∀ t ∈ c.members, t ∉ d.members) →
      ∀ t ∈ d.members, t ∉ c.members := fun h t htd htc => h t htc htd
  rw [clusterSimilar, (List.perm_insertionSort _ _).pairwise_iff hsymm, List.pairwise_filterMap]
  refine hpairwise.imp_of_mem fun hg hg' hapart c hc d hd t htc htd => ?_
  have hcluster := clusterOf_isCluster (hcomponents _ hg) hc
  have hcluster' := clusterOf_isCluster (hcomponents _ hg') hd
  exact hapart t ((hcluster.mem_iff hids t).mp htc) ((hcluster'.mem_iff hids t).mp htd)

/-- Clusters as the pairs generate them, with one target each for all the others. -/
structure ClustersExact (sim : Similarity) (threshold : ℚ) (tasks : List Task)
    (clusters : List SimCluster) : Prop where
  together : ∀ s ∈ tasks, ∀ t ∈ tasks, s.id ≠ t.id →
    ((∃ c ∈ clusters, s ∈ c.members ∧ t ∈ c.members) ↔ Chained sim threshold tasks s.id t.id)
  disjoint : clusters.Pairwise fun c d => ∀ t ∈ c.members, t ∉ d.members
  members : ∀ c ∈ clusters, (∀ t ∈ c.members, t ∈ tasks) ∧ c.members.Nodup ∧ 2 ≤ c.members.length
  merges : ∀ c ∈ clusters, ∃ target ∈ c.members, c.targetId = target.id ∧
    c.merges.map (fun m => (m.sourceId, m.targetId)) =
      (c.members.filter fun t => t.id ≠ target.id).map fun t => (t.id, target.id)

theorem clustersExact (numberText : ℚ → String) (sim : Similarity) (threshold : ℚ)
    (hids : (tasks.map Task.id).Nodup) :
    ClustersExact sim threshold tasks
      (clusterSimilar numberText (paired sim) threshold tasks) := by
  constructor
  case together =>
    intro s hs t ht hne
    constructor
    · rintro ⟨c, hc, hsc, htc⟩
      obtain ⟨members, hcluster⟩ := clusterSimilar_isCluster hc
      rw [hcluster.mem_iff hids] at hsc htc
      exact (hcluster.component.closed s hsc t ht).mp htc
    · intro hchained
      obtain ⟨c, hc, members, hcluster, hsm⟩ := exists_cluster numberText hs
        (hchained.scored hne)
      refine ⟨c, hc, (hcluster.mem_iff hids s).mpr hsm, (hcluster.mem_iff hids t).mpr ?_⟩
      exact (hcluster.component.closed s hsm t ht).mpr hchained
  case disjoint => exact clusters_disjoint hids
  case members =>
    intro c hc
    obtain ⟨members, hcluster⟩ := clusterSimilar_isCluster hc
    have hsub := hcluster.component.sublist
    obtain ⟨target, htarget, -, hmembers, -⟩ := hcluster.chosen
    refine ⟨fun t ht => hsub.subset ((hcluster.mem_iff hids t).mp ht), ?_, ?_⟩
    · rw [hmembers, List.nodup_cons]
      exact ⟨by simp, (hids.of_map _).sublist (List.filter_sublist.trans hsub)⟩
    · obtain ⟨s, hs, t, ht, hne⟩ := hcluster.component.second hids
      rw [hmembers, List.length_cons, Nat.succ_le_succ_iff, Nat.one_le_iff_ne_zero, ne_eq,
        List.length_eq_zero_iff, ← ne_eq]
      rcases eq_or_ne s.id target.id with hid | hid
      · exact List.ne_nil_of_mem (List.mem_filter.mpr ⟨ht, by simpa [← hid] using hne.symm⟩)
      · exact List.ne_nil_of_mem (List.mem_filter.mpr ⟨hs, by simpa using hid⟩)
  case merges =>
    intro c hc
    obtain ⟨members, hcluster⟩ := clusterSimilar_isCluster hc
    obtain ⟨target, htarget, htargetId, hmembers, hmerges⟩ := hcluster.chosen
    refine ⟨target, by rw [hmembers]; exact List.mem_cons_self, htargetId, ?_⟩
    rw [hmerges, hmembers, List.filter_cons_of_neg (by simp), List.filter_filter]
    simp

end Clusters

/-! ## The tasks of a board -/

/-- The clusters of the tasks of a board, or of those among them that are kept. -/
theorem board_clusters_exact (numberText : ℚ → String) (sim : Similarity) (threshold : ℚ)
    (board : Board) (keep : Task → Bool) :
    ClustersExact sim threshold (board.rows.filter keep)
      (clusterSimilar numberText (paired sim) threshold (board.rows.filter keep)) :=
  clustersExact numberText sim threshold (board.nodup.sublist (List.filter_sublist.map _))

end SimilarClusters
end Batiste
