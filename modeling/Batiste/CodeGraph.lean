import Batiste.Json

/-! The graph of code and knowledge: nodes, edges, clusters, and the store behind them, a
directed multigraph whose keys are given. -/
namespace Batiste
namespace CodeGraph

inductive NodeKind
  | file
  | symbol
  | doc
  | fact
  | concept
  deriving DecidableEq, Repr

inductive EdgeKind
  | imports
  | calls
  | references
  | contains
  | linksTo
  | derivedFrom
  deriving DecidableEq, Repr

/-- `string | number | boolean` -/
inductive Scalar
  | text (s : String)
  | number (q : ℚ)
  | boolean (b : Bool)
  deriving DecidableEq, Repr

structure Node where
  id : String
  kind : NodeKind
  label : String
  path : Option String := none
  metadata : Dict Scalar := []
  deriving DecidableEq, Repr

structure Edge where
  id : String
  source : String
  target : String
  kind : EdgeKind
  deriving DecidableEq, Repr

structure Cluster where
  id : String
  label : String
  members : List String
  cohesion : Option ℚ := none
  deriving DecidableEq, Repr

/-- `new Map(xs.map((x) => [key(x), x]))`, an entry set after another. -/
def indexBy {α : Type} (key : α → String) (xs : List α) : Dict α :=
  Dict.spread [] (xs.map fun x => (key x, x))

theorem indexBy_of_nodup {α : Type} {key : α → String} {xs : List α}
    (h : (xs.map key).Nodup) : indexBy key xs = xs.map fun x => (key x, x) := by
  have hkeys : (([] ++ xs.map fun x => (key x, x)).map Prod.fst).Nodup := by
    simpa [Function.comp_def] using h
  simpa [indexBy] using Dict.spread_append hkeys

theorem get?_indexBy {α : Type} {key : α → String} {xs : List α} (h : (xs.map key).Nodup)
    {k : String} {x : α} : (indexBy key xs).get? k = some x ↔ x ∈ xs ∧ key x = k := by
  have hkeys : ((xs.map fun x => (key x, x)).map Prod.fst).Nodup := by
    simpa [Function.comp_def] using h
  rw [indexBy_of_nodup h]
  constructor
  · intro hget
    obtain ⟨y, hy, heq⟩ := List.mem_map.mp (Dict.mem_of_get? hget)
    obtain ⟨hk, rfl⟩ := Prod.mk.inj heq
    exact ⟨hy, hk⟩
  · rintro ⟨hx, rfl⟩
    exact Dict.get?_of_mem hkeys (List.mem_map.mpr ⟨x, hx, rfl⟩)

theorem get?_foldl_set (ms : List String) (value : String) (d : Dict String) (k : String) :
    (ms.foldl (fun d m => d.set m value) d).get? k = if k ∈ ms then some value else d.get? k := by
  induction ms generalizing d with
  | nil => simp
  | cons m ms ih =>
    rw [List.foldl_cons, ih, Dict.get?_set]
    by_cases hms : k ∈ ms
    · simp [hms]
    · by_cases hk : k = m <;> simp [hms, hk]

/-! ## The store -/

inductive GraphError
  | nodeExists (id : String)
  | edgeExists (id : String)
  | sourceMissing (id : String)
  | targetMissing (id : String)
  deriving DecidableEq, Repr

/-- `MultiDirectedGraph`: self loops and parallel edges are allowed. -/
structure Store where
  nodes : List Node
  edges : List Edge
  nodes_nodup : (nodes.map Node.id).Nodup
  edges_nodup : (edges.map Edge.id).Nodup
  closed : ∀ e ∈ edges, e.source ∈ nodes.map Node.id ∧ e.target ∈ nodes.map Node.id

namespace Store

def empty : Store := ⟨[], [], by simp, by simp, by simp⟩

def addNode (s : Store) (node : Node) : Except GraphError Store :=
  if h : node.id ∈ s.nodes.map Node.id then .error (.nodeExists node.id)
  else .ok
    { s with
      nodes := s.nodes ++ [node]
      nodes_nodup := by
        rw [List.map_append, List.nodup_append]
        refine ⟨s.nodes_nodup, by simp, ?_⟩
        rintro i hi _ hj rfl
        exact h (List.mem_singleton.mp hj ▸ hi)
      closed := fun e he => by
        simp only [List.map_append, List.mem_append]
        exact (s.closed e he).imp Or.inl Or.inl }

def addEdge (s : Store) (edge : Edge) : Except GraphError Store :=
  if hs : edge.source ∉ s.nodes.map Node.id then .error (.sourceMissing edge.source)
  else if ht : edge.target ∉ s.nodes.map Node.id then .error (.targetMissing edge.target)
  else if h : edge.id ∈ s.edges.map Edge.id then .error (.edgeExists edge.id)
  else .ok
    { s with
      edges := s.edges ++ [edge]
      edges_nodup := by
        rw [List.map_append, List.nodup_append]
        refine ⟨s.edges_nodup, by simp, ?_⟩
        rintro i hi _ hj rfl
        exact h (List.mem_singleton.mp hj ▸ hi)
      closed := fun e he => by
        rcases List.mem_append.mp he with hold | hnew
        · exact s.closed e hold
        · rw [List.mem_singleton.mp hnew]
          exact ⟨not_not.mp hs, not_not.mp ht⟩ }

def node (s : Store) (id : String) : Option Node := s.nodes.find? fun n => n.id == id

theorem addNodes_ok {s : Store} {nodes : List Node}
    (h : ((s.nodes ++ nodes).map Node.id).Nodup) :
    ∃ s', nodes.foldlM addNode s = .ok s' ∧ s'.nodes = s.nodes ++ nodes ∧ s'.edges = s.edges := by
  induction nodes generalizing s with
  | nil => exact ⟨s, rfl, by simp, rfl⟩
  | cons node nodes ih =>
    have hnew : node.id ∉ s.nodes.map Node.id := by
      intro hmem
      rw [List.map_append, List.nodup_append] at h
      exact h.2.2 _ hmem _ (by simp) rfl
    have hadd : ∃ t, addNode s node = .ok t ∧ t.nodes = s.nodes ++ [node] ∧ t.edges = s.edges := by
      rw [addNode, dif_neg hnew]
      exact ⟨_, rfl, rfl, rfl⟩
    obtain ⟨t, ht, htnodes, htedges⟩ := hadd
    obtain ⟨s', hs', hnodes, hedges⟩ := ih (s := t) (by simpa [htnodes] using h)
    refine ⟨s', ?_, by simp [hnodes, htnodes], hedges.trans htedges⟩
    rw [List.foldlM_cons, ht]
    exact hs'

theorem addEdges_ok {s : Store} {edges : List Edge}
    (h : ((s.edges ++ edges).map Edge.id).Nodup)
    (hclosed : ∀ e ∈ edges, e.source ∈ s.nodes.map Node.id ∧ e.target ∈ s.nodes.map Node.id) :
    ∃ s', edges.foldlM addEdge s = .ok s' ∧ s'.nodes = s.nodes ∧ s'.edges = s.edges ++ edges := by
  induction edges generalizing s with
  | nil => exact ⟨s, rfl, rfl, by simp⟩
  | cons edge edges ih =>
    obtain ⟨hsource, htarget⟩ := hclosed edge List.mem_cons_self
    have hnew : edge.id ∉ s.edges.map Edge.id := by
      intro hmem
      rw [List.map_append, List.nodup_append] at h
      exact h.2.2 _ hmem _ (by simp) rfl
    have hadd : ∃ t, addEdge s edge = .ok t ∧ t.nodes = s.nodes ∧ t.edges = s.edges ++ [edge] := by
      rw [addEdge, dif_neg (not_not.mpr hsource), dif_neg (not_not.mpr htarget), dif_neg hnew]
      exact ⟨_, rfl, rfl, rfl⟩
    obtain ⟨t, ht, htnodes, htedges⟩ := hadd
    obtain ⟨s', hs', hnodes, hedges⟩ := ih (s := t) (by simpa [htedges] using h)
      fun e he => htnodes ▸ hclosed e (List.mem_cons_of_mem edge he)
    refine ⟨s', ?_, hnodes.trans htnodes, by simp [hedges, htedges]⟩
    rw [List.foldlM_cons, ht]
    exact hs'

end Store

/-! ## The graph -/

structure GraphImplData where
  nodes : List Node
  edges : List Edge
  clusters : List Cluster
  membership : Dict String

/-- `GraphologyGraph` -/
structure Graph where
  g : Store
  clustersById : Dict Cluster
  membership : Dict String
  sortedNodeIds : List String
  sortedNodeIds_eq : sortedNodeIds = g.nodes.map Node.id

namespace Graph

/-- The constructor; its store refuses a key that is taken and an edge without its ends. -/
def new (data : GraphImplData) : Except GraphError Graph := do
  let g ← data.nodes.foldlM Store.addNode Store.empty
  let g ← data.edges.foldlM Store.addEdge g
  return {
    g
    clustersById := indexBy Cluster.id data.clusters
    membership := data.membership
    sortedNodeIds := g.nodes.map Node.id
    sortedNodeIds_eq := rfl }

variable (graph : Graph)

def nodeCount : ℕ := graph.g.nodes.length

def node (id : String) : Option Node := graph.g.node id

def cluster (id : String) : Option Cluster := graph.clustersById.get? id

def clusterOf (nodeId : String) : Option String := graph.membership.get? nodeId

/-- The first node in the order of the ids that is a file with this path. -/
def findByPath (path : String) : Option Node :=
  graph.sortedNodeIds.findSome? fun id =>
    (graph.node id).filter fun n => n.kind = .file ∧ n.path = some path

theorem new_ok (data : GraphImplData) (hnodes : (data.nodes.map Node.id).Nodup)
    (hedges : (data.edges.map Edge.id).Nodup)
    (hclosed : ∀ e ∈ data.edges,
      e.source ∈ data.nodes.map Node.id ∧ e.target ∈ data.nodes.map Node.id) :
    ∃ graph, new data = .ok graph ∧ graph.g.nodes = data.nodes ∧ graph.g.edges = data.edges ∧
      graph.clustersById = indexBy Cluster.id data.clusters ∧
      graph.membership = data.membership := by
  obtain ⟨s, hs, hsnodes, hsedges⟩ :=
    Store.addNodes_ok (s := Store.empty) (by simpa [Store.empty] using hnodes)
  have hsnodes : s.nodes = data.nodes := by simpa [Store.empty] using hsnodes
  have hsedges : s.edges = [] := by simpa [Store.empty] using hsedges
  obtain ⟨t, ht, htnodes, htedges⟩ :=
    Store.addEdges_ok (s := s) (by simpa [hsedges] using hedges)
      (hsnodes ▸ hclosed)
  refine ⟨⟨t, indexBy Cluster.id data.clusters, data.membership, t.nodes.map Node.id, rfl⟩, ?_,
    htnodes.trans hsnodes, by simp [htedges, hsedges], rfl, rfl⟩
  unfold new
  rw [hs]
  change (data.edges.foldlM Store.addEdge s >>= _) = _
  rw [ht]
  rfl

end Graph
end CodeGraph
end Batiste
