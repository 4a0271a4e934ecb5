import Batiste.CodeGraph
import Batiste.Transition

/-! `InMemoryGraphBuilder`: nodes, edges and cluster lists of any input, made into a graph. -/
namespace Batiste
namespace CodeGraph

structure ParseError where
  path : String
  reason : String
  deriving DecidableEq, Repr

/-- `clusters ?? []` -/
structure GraphInput where
  nodes : List Node
  edges : List Edge
  clusters : List Cluster := []

structure Diagnostics where
  filesScanned : ℕ
  filesParsed : ℕ
  parseErrors : List ParseError
  deriving DecidableEq, Repr

structure BuildResult where
  graph : Graph
  diagnostics : Diagnostics

/-! ## The passes -/

def indexNode (s : Dict Node × List ParseError) (node : Node) : Dict Node × List ParseError :=
  if (s.1.get? node.id).isSome then
    (s.1, s.2 ++ [⟨"node:" ++ node.id, "duplicate NodeId; keeping the first occurrence"⟩])
  else (s.1.set node.id node, s.2)

def indexNodes (nodes : List Node) : Dict Node × List ParseError := nodes.foldl indexNode ([], [])

def indexEdge (nodesById : Dict Node) (s : Dict Edge × List ParseError) (edge : Edge) :
    Dict Edge × List ParseError :=
  if (s.1.get? edge.id).isSome then
    (s.1, s.2 ++ [⟨"edge:" ++ edge.id, "duplicate EdgeId; keeping the first occurrence"⟩])
  else if (nodesById.get? edge.source).isNone then
    (s.1, s.2 ++ [⟨"edge:" ++ edge.id, "unknown source NodeId " ++ edge.source⟩])
  else if (nodesById.get? edge.target).isNone then
    (s.1, s.2 ++ [⟨"edge:" ++ edge.id, "unknown target NodeId " ++ edge.target⟩])
  else (s.1.set edge.id edge, s.2)

def indexEdges (nodesById : Dict Node) (edges : List Edge) : Dict Edge × List ParseError :=
  edges.foldl (indexEdge nodesById) ([], [])

/-- What pass 3 carries from cluster to cluster. -/
structure Overlay where
  clustersById : Dict Cluster := []
  membership : Dict String := []
  parseErrors : List ParseError := []

def indexMember (nodesById : Dict Node) (membership : Dict String) (c : Cluster)
    (s : List String × List ParseError) (m : String) : List String × List ParseError :=
  if (nodesById.get? m).isNone then
    (s.1, s.2 ++ [⟨"cluster:" ++ c.id, "unknown member NodeId " ++ m ++ "; dropped from cluster"⟩])
  else
    match membership.get? m with
    | some other =>
      (s.1, s.2 ++ [⟨"cluster:" ++ c.id,
        "node " ++ m ++ " already assigned to cluster " ++ other ++
          "; second assignment ignored"⟩])
    | none => (s.1 ++ [m], s.2)

/-- The members of a cluster that are known and in no cluster yet, and the reports on others. -/
def validMembers (nodesById : Dict Node) (membership : Dict String) (c : Cluster) :
    List String × List ParseError :=
  c.members.foldl (indexMember nodesById membership c) ([], [])

def indexCluster (nodesById : Dict Node) (s : Overlay) (c : Cluster) : Overlay :=
  if (s.clustersById.get? c.id).isSome then
    { s with parseErrors := s.parseErrors ++
      [⟨"cluster:" ++ c.id, "duplicate ClusterId; keeping the first occurrence"⟩] }
  else
    let r := validMembers nodesById s.membership c
    if r.1.length = 0 then
      { s with parseErrors := s.parseErrors ++ r.2 ++
        [⟨"cluster:" ++ c.id,
          "cluster has no valid members after validation; cluster dropped"⟩] }
    else
      { clustersById := s.clustersById.set c.id { c with members := r.1 }
        membership := r.1.foldl (fun membership m => membership.set m c.id) s.membership
        parseErrors := s.parseErrors ++ r.2 }

def indexClusters (nodesById : Dict Node) (clusters : List Cluster) : Overlay :=
  clusters.foldl (indexCluster nodesById) {}

/-- `[...byId.values()].sort((a, b) => a.id.localeCompare(b.id))` -/
def sortedValues {α : Type} (localeLe : String → String → Bool) (id : α → String)
    (byId : Dict α) : List α :=
  (byId.map Prod.snd).insertionSort fun a b => localeLe (id a) (id b) = true

def build (localeLe : String → String → Bool) (input : GraphInput) :
    Except GraphError BuildResult := do
  let nodes := indexNodes input.nodes
  let edges := indexEdges nodes.1 input.edges
  let overlay := indexClusters nodes.1 input.clusters
  let graph ← Graph.new {
    nodes := sortedValues localeLe Node.id nodes.1
    edges := sortedValues localeLe Edge.id edges.1
    clusters := sortedValues localeLe Cluster.id overlay.clustersById
    membership := overlay.membership }
  return {
    graph
    diagnostics :=
      { filesScanned := input.nodes.length
        filesParsed := nodes.1.length
        parseErrors := nodes.2 ++ edges.2 ++ overlay.parseErrors } }

/-! ## What the passes keep -/

/-- The entries of a map under their ids. -/
structure Keyed {α : Type} (id : α → String) (byId : Dict α) : Prop where
  nodup : (byId.map Prod.fst).Nodup
  key : ∀ e ∈ byId, e.1 = id e.2

namespace Keyed

variable {α : Type} {id : α → String} {byId : Dict α}

theorem nil : Keyed id ([] : Dict α) := ⟨List.nodup_nil, by simp⟩

theorem set (h : Keyed id byId) (x : α) : Keyed id (byId.set (id x) x) := by
  refine ⟨Dict.nodup_set h.nodup _ _, fun e he => ?_⟩
  rcases Dict.mem_set he with ⟨hold, -⟩ | rfl
  · exact h.key e hold
  · rfl

theorem map_id (h : Keyed id byId) : (byId.map Prod.snd).map id = byId.map Prod.fst := by
  rw [List.map_map]
  exact List.map_congr_left fun e he => (h.key e he).symm

theorem get?_iff (h : Keyed id byId) {k : String} {x : α} :
    byId.get? k = some x ↔ x ∈ byId.map Prod.snd ∧ id x = k := by
  constructor
  · intro hget
    have hmem := Dict.mem_of_get? hget
    exact ⟨List.mem_map.mpr ⟨_, hmem, rfl⟩, (h.key _ hmem).symm⟩
  · rintro ⟨hx, rfl⟩
    obtain ⟨e, he, rfl⟩ := List.mem_map.mp hx
    have hentry : (id e.2, e.2) = e := Prod.ext (h.key e he).symm rfl
    exact Dict.get?_of_mem h.nodup (hentry ▸ he)

variable (localeLe : String → String → Bool)

theorem sorted_perm : (sortedValues localeLe id byId).Perm (byId.map Prod.snd) :=
  List.perm_insertionSort _ _

theorem sorted_nodup (h : Keyed id byId) : ((sortedValues localeLe id byId).map id).Nodup := by
  rw [((sorted_perm localeLe).map id).nodup_iff, h.map_id]
  exact h.nodup

/-- Sorting the values and indexing them again gives the same lookups. -/
theorem get?_sorted (h : Keyed id byId) (k : String) :
    (indexBy id (sortedValues localeLe id byId)).get? k = byId.get? k := by
  have hiff : ∀ x, (indexBy id (sortedValues localeLe id byId)).get? k = some x ↔
      byId.get? k = some x := by
    intro x
    rw [get?_indexBy (h.sorted_nodup localeLe), h.get?_iff, (sorted_perm localeLe).mem_iff]
  exact Option.ext hiff

end Keyed

theorem keyed_indexNodes (nodes : List Node) : Keyed Node.id (indexNodes nodes).1 := by
  induction nodes using List.reverseRecOn with
  | nil => exact Keyed.nil
  | append_singleton nodes node ih =>
    rw [indexNodes, List.foldl_append]
    change Keyed Node.id (indexNode (indexNodes nodes) node).1
    unfold indexNode
    split
    · exact ih
    · exact ih.set node

theorem keyed_indexEdges (nodesById : Dict Node) (edges : List Edge) :
    Keyed Edge.id (indexEdges nodesById edges).1 ∧
      ∀ e ∈ (indexEdges nodesById edges).1.map Prod.snd,
        (nodesById.get? e.source).isSome ∧ (nodesById.get? e.target).isSome := by
  induction edges using List.reverseRecOn with
  | nil => exact ⟨Keyed.nil, by simp [indexEdges]⟩
  | append_singleton edges edge ih =>
    rw [indexEdges, List.foldl_append]
    change Keyed Edge.id (indexEdge nodesById (indexEdges nodesById edges) edge).1 ∧
      ∀ e ∈ (indexEdge nodesById (indexEdges nodesById edges) edge).1.map Prod.snd, _
    unfold indexEdge
    split_ifs with hdup hsource htarget
    · exact ih
    · exact ih
    · exact ih
    · refine ⟨ih.1.set edge, fun e he => ?_⟩
      obtain ⟨entry, hentry, rfl⟩ := List.mem_map.mp he
      rcases Dict.mem_set hentry with ⟨hold, -⟩ | rfl
      · exact ih.2 _ (List.mem_map.mpr ⟨entry, hold, rfl⟩)
      · exact ⟨by simpa [Option.isSome_iff_ne_none] using hsource,
          by simpa [Option.isSome_iff_ne_none] using htarget⟩

theorem validMembers_eq (nodesById : Dict Node) (membership : Dict String) (c : Cluster) :
    (validMembers nodesById membership c).1 =
      c.members.filter fun m => (nodesById.get? m).isSome && (membership.get? m).isNone := by
  have hloop : ∀ (members : List String) (s : List String × List ParseError),
      (members.foldl (indexMember nodesById membership c) s).1 =
        s.1 ++ members.filter fun m =>
          (nodesById.get? m).isSome && (membership.get? m).isNone := by
    intro members
    induction members with
    | nil => simp
    | cons m members ih =>
      intro s
      rw [List.foldl_cons, ih, List.filter_cons, indexMember]
      cases hnode : nodesById.get? m with
      | none => simp
      | some node => cases hother : membership.get? m <;> simp
  exact hloop c.members ([], [])

/-- The clusters that are kept have known members, and the membership is theirs. -/
structure Tidy (nodesById : Dict Node) (s : Overlay) : Prop where
  keyed : Keyed Cluster.id s.clustersById
  members : ∀ id c, s.clustersById.get? id = some c →
    c.members ≠ [] ∧ ∀ m ∈ c.members, (nodesById.get? m).isSome
  membership : ∀ m id, s.membership.get? m = some id ↔
    ∃ c, s.clustersById.get? id = some c ∧ m ∈ c.members

theorem tidy_step {nodesById : Dict Node} {s : Overlay} (h : Tidy nodesById s) (c : Cluster) :
    Tidy nodesById (indexCluster nodesById s c) := by
  unfold indexCluster
  split
  case isTrue => exact ⟨h.keyed, h.members, h.membership⟩
  case isFalse hnew =>
    have hnone : s.clustersById.get? c.id = none := by
      simpa [Option.isSome_iff_ne_none] using hnew
    dsimp only
    split
    case isTrue => exact ⟨h.keyed, h.members, h.membership⟩
    case isFalse hsome =>
      have hvalid := validMembers_eq nodesById s.membership c
      refine ⟨h.keyed.set { c with members := (validMembers nodesById s.membership c).1 },
        fun id c' hc' => ?_, fun m id => ?_⟩
      · rw [Dict.get?_set] at hc'
        split_ifs at hc' with hid
        · cases hc'
          refine ⟨fun hnil => hsome (List.length_eq_zero_iff.mpr hnil), fun m hm => ?_⟩
          rw [hvalid, List.mem_filter, Bool.and_eq_true] at hm
          exact hm.2.1
        · exact h.members id c' hc'
      · rw [get?_foldl_set, Dict.get?_set]
        by_cases hid : id = c.id
        · subst hid
          by_cases hm : m ∈ (validMembers nodesById s.membership c).1
          · simp [hm]
          · simp only [hm, if_false, if_true, Option.some.injEq, exists_eq_left', iff_false]
            intro hold
            obtain ⟨c', hc', -⟩ := (h.membership m c.id).mp hold
            rw [hnone] at hc'
            cases hc'
        · rw [if_neg hid, ← h.membership m id]
          by_cases hm : m ∈ (validMembers nodesById s.membership c).1
          · rw [if_pos hm]
            rw [hvalid, List.mem_filter, Bool.and_eq_true] at hm
            have hfree : s.membership.get? m = none := by simpa using hm.2.2
            simp [hfree, Ne.symm hid]
          · rw [if_neg hm]

theorem indexClusters_snoc (nodesById : Dict Node) (cs : List Cluster) (c : Cluster) :
    indexClusters nodesById (cs ++ [c]) = indexCluster nodesById (indexClusters nodesById cs) c := by
  rw [indexClusters, List.foldl_append]
  rfl

theorem tidy_indexClusters (nodesById : Dict Node) (cs : List Cluster) :
    Tidy nodesById (indexClusters nodesById cs) := by
  induction cs using List.reverseRecOn with
  | nil => exact ⟨Keyed.nil, by simp [indexClusters], by simp [indexClusters]⟩
  | append_singleton cs c ih =>
    rw [indexClusters_snoc]
    exact tidy_step ih c

/-- When a cluster comes up whose id is not taken, no known node that is in no cluster yet
stands twice among its members. -/
def Unrepeated (nodesById : Dict Node) (clusters : List Cluster) : Prop :=
  ∀ before c later, clusters = before ++ c :: later →
    (indexClusters nodesById before).clustersById.get? c.id = none →
      ∀ m, (nodesById.get? m).isSome → (indexClusters nodesById before).membership.get? m = none →
        c.members.count m ≤ 1

/-- The kept clusters list no node twice. -/
def Distinct (s : Overlay) : Prop :=
  ∀ id c, s.clustersById.get? id = some c → c.members.Nodup

theorem distinct_step {nodesById : Dict Node} (s : Overlay) (c : Cluster) :
    Distinct (indexCluster nodesById s c) ↔ Distinct s ∧
      (s.clustersById.get? c.id = none → ∀ m, (nodesById.get? m).isSome →
        s.membership.get? m = none → c.members.count m ≤ 1) := by
  have hvalid : (validMembers nodesById s.membership c).1.Nodup ↔
      ∀ m, (nodesById.get? m).isSome → s.membership.get? m = none → c.members.count m ≤ 1 := by
    rw [validMembers_eq, List.nodup_iff_count_le_one]
    refine forall_congr' fun m => ?_
    constructor
    · intro hle hnode hfree
      rwa [List.count_filter (by simp [hnode, hfree])] at hle
    · intro hle
      by_cases hm : (nodesById.get? m).isSome && (s.membership.get? m).isNone
      · have hcount := List.count_filter (l := c.members)
          (p := fun m => (nodesById.get? m).isSome && (s.membership.get? m).isNone) hm
        rw [hcount]
        rw [Bool.and_eq_true] at hm
        exact hle hm.1 (by simpa using hm.2)
      · have hzero : (c.members.filter fun m =>
            (nodesById.get? m).isSome && (s.membership.get? m).isNone).count m = 0 :=
          List.count_eq_zero_of_not_mem fun hmem => hm (List.mem_filter.mp hmem).2
        omega
  unfold indexCluster
  split
  case isTrue hold =>
    obtain ⟨c', hc'⟩ := Option.isSome_iff_exists.mp hold
    exact (and_iff_left fun hnone => by simp [hnone] at hc').symm
  case isFalse hnew =>
    have hnone : s.clustersById.get? c.id = none := by
      simpa [Option.isSome_iff_ne_none] using hnew
    rw [← hvalid]
    dsimp only
    split
    case isTrue hnil =>
      rw [List.length_eq_zero_iff] at hnil
      simp [Distinct, hnil]
    case isFalse =>
      constructor
      · intro h
        refine ⟨fun id c' hc' => h id c' ?_, fun _ => h c.id { c with members := _ } ?_⟩
        · have hid : id ≠ c.id := fun heq => by simp [heq, hnone] at hc'
          rw [Dict.get?_set, if_neg hid]
          exact hc'
        · rw [Dict.get?_set, if_pos rfl]
      · rintro ⟨hold, hc⟩ id c' hc'
        rw [Dict.get?_set] at hc'
        split_ifs at hc' with hid
        · cases hc'
          exact hc hnone
        · exact hold id c' hc'

theorem distinct_iff (nodesById : Dict Node) (clusters : List Cluster) :
    Distinct (indexClusters nodesById clusters) ↔ Unrepeated nodesById clusters := by
  induction clusters using List.reverseRecOn with
  | nil =>
    refine iff_of_true (by simp [Distinct, indexClusters]) fun before c later h => ?_
    simp at h
  | append_singleton cs c ih =>
    rw [indexClusters_snoc, distinct_step, ih]
    constructor
    · rintro ⟨hcs, hc⟩ before c' later hsplit
      rcases Transition.snoc_split hsplit with ⟨rfl, rfl⟩ | ⟨rest, hbefore⟩
      · exact hc
      · exact hcs before c' rest hbefore
    · intro h
      exact ⟨fun before c' later hsplit => h before c' (later ++ [c]) (by simp [hsplit]),
        h cs c [] rfl⟩

/-! ## The built graph -/

structure WellBuilt (graph : Graph) : Prop where
  unique : (graph.g.nodes.map Node.id).Nodup
  edges : ∀ e ∈ graph.g.edges, (graph.node e.source).isSome ∧ (graph.node e.target).isSome
  nonempty : ∀ id c, graph.cluster id = some c → c.members ≠ []
  distinct : ∀ id c, graph.cluster id = some c → c.members.Nodup
  disjoint : ∀ id c id' c', graph.cluster id = some c → graph.cluster id' = some c' → id ≠ id' →
    c.members.Disjoint c'.members
  existing : ∀ id c, graph.cluster id = some c → ∀ m ∈ c.members, (graph.node m).isSome
  clusterOf_iff : ∀ m id, graph.clusterOf m = some id ↔
    ∃ c, graph.cluster id = some c ∧ m ∈ c.members

theorem Store.node_isSome {s : Store} {id : String} :
    (s.node id).isSome ↔ id ∈ s.nodes.map Node.id := by
  rw [Store.node, List.find?_isSome]
  simp

/-- Every input is built, and the graph is as it should be exactly when no cluster that is
taken up lists a free node twice. -/
theorem build_wellBuilt_iff (localeLe : String → String → Bool) (input : GraphInput) :
    ∃ r, build localeLe input = .ok r ∧
      (WellBuilt r.graph ↔ Unrepeated (indexNodes input.nodes).1 input.clusters) := by
  have hnodes := keyed_indexNodes input.nodes
  have hedges := keyed_indexEdges (indexNodes input.nodes).1 input.edges
  have htidy := tidy_indexClusters (indexNodes input.nodes).1 input.clusters
  have hknown : ∀ m, ((indexNodes input.nodes).1.get? m).isSome ↔
      m ∈ (sortedValues localeLe Node.id (indexNodes input.nodes).1).map Node.id := by
    intro m
    rw [((Keyed.sorted_perm localeLe).map Node.id).mem_iff, hnodes.map_id, Option.isSome_iff_ne_none,
      ne_eq, Dict.get?_eq_none, not_not]
  obtain ⟨graph, hgraph, hgnodes, hgedges, hgclusters, hgmembership⟩ := Graph.new_ok
    (⟨sortedValues localeLe Node.id (indexNodes input.nodes).1,
      sortedValues localeLe Edge.id (indexEdges (indexNodes input.nodes).1 input.edges).1,
      sortedValues localeLe Cluster.id
        (indexClusters (indexNodes input.nodes).1 input.clusters).clustersById,
      (indexClusters (indexNodes input.nodes).1 input.clusters).membership⟩ : GraphImplData)
    (hnodes.sorted_nodup localeLe) (hedges.1.sorted_nodup localeLe)
    fun e he => by
      have hends := hedges.2 e ((Keyed.sorted_perm localeLe).subset he)
      exact ⟨(hknown _).mp hends.1, (hknown _).mp hends.2⟩
  refine ⟨⟨graph, _⟩, by unfold build; dsimp only; rw [hgraph]; rfl, ?_⟩
  have hcluster : ∀ id, graph.cluster id =
      (indexClusters (indexNodes input.nodes).1 input.clusters).clustersById.get? id := by
    intro id
    rw [Graph.cluster, hgclusters, htidy.keyed.get?_sorted]
  have hnode : ∀ m, (graph.node m).isSome ↔ ((indexNodes input.nodes).1.get? m).isSome := by
    intro m
    rw [Graph.node, Store.node_isSome, hgnodes, hknown]
  have hclusterOf : ∀ m id, graph.clusterOf m = some id ↔
      ∃ c, graph.cluster id = some c ∧ m ∈ c.members := by
    intro m id
    rw [Graph.clusterOf, hgmembership, hcluster]
    exact htidy.membership m id
  rw [← distinct_iff]
  constructor
  · exact fun h id c hc => h.distinct id c ((hcluster id).trans hc)
  · intro h
    refine ⟨graph.g.nodes_nodup, fun e he => ?_, fun id c hc => ?_, fun id c hc => ?_, ?_,
      fun id c hc m hm => ?_, hclusterOf⟩
    · exact (graph.g.closed e he).imp Store.node_isSome.mpr Store.node_isSome.mpr
    · exact (htidy.members id c ((hcluster id).symm.trans hc)).1
    · exact h id c ((hcluster id).symm.trans hc)
    · intro id c id' c' hc hc' hne m hm hm'
      have hid := (hclusterOf m id).mpr ⟨c, hc, hm⟩
      have hid' := (hclusterOf m id').mpr ⟨c', hc', hm'⟩
      exact hne (Option.some.inj (hid.symm.trans hid'))
    · exact (hnode m).mpr ((htidy.members id c ((hcluster id).symm.trans hc)).2 m hm)

/-- A cluster that lists its node twice keeps it twice. -/
theorem repeated_member_kept :
    ∃ r, build (fun a b => decide (a ≤ b))
        { nodes := [⟨"n", .file, "n", none, []⟩], edges := []
          clusters := [⟨"c", "c", ["n", "n"], none⟩] } = .ok r ∧
      r.diagnostics.parseErrors = [] ∧
      (r.graph.cluster "c").map Cluster.members = some ["n", "n"] ∧ ¬ WellBuilt r.graph := by
  refine ⟨_, rfl, rfl, rfl, fun h => ?_⟩
  have hnodup := h.distinct "c" ⟨"c", "c", ["n", "n"], none⟩ rfl
  simp at hnodup

end CodeGraph
end Batiste
