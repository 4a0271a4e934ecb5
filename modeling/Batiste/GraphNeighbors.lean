import Batiste.BreadthFirst
import Batiste.CodeGraph
import Batiste.JsString

/-! The neighbourhood of a node: `GraphologyGraph.neighbors`.
An early return is an error of the loop body. -/
namespace Batiste
namespace CodeGraph

open BreadthFirst

/-! ## The source -/

/-- `neighbors` of the graph library: every node at the other end of an edge, once. -/
def Store.neighbors (s : Store) (id : String) : List String :=
  (s.edges.flatMap fun e =>
    (if e.source = id then [e.target] else []) ++ if e.target = id then [e.source] else []).dedup

structure QueryOptions where
  hops : Option ℤ := none
  sameCluster : Option Bool := none
  kinds : Option (List NodeKind) := none
  limit : Option ℤ := none
  deriving DecidableEq, Repr

def DEFAULT_NEIGHBOR_LIMIT : ℤ := 100

/-- The order of `sort()`. -/
def idLe (a b : String) : Prop := JsString.le a b = true

instance : DecidableRel idLe := fun a b => inferInstanceAs (Decidable (JsString.le a b = true))

instance : IsTrans String idLe := inferInstanceAs (IsTrans String fun a b => JsString.le a b = true)

instance : Std.Total idLe := inferInstanceAs (Std.Total fun a b : String => JsString.le a b = true)

structure Traversal where
  visited : List String
  next : List String
  out : List Node
  deriving DecidableEq, Repr

section Source

variable (graph : Graph) (seed : String) (opts : QueryOptions)

def QueryOptions.hopCount : ℕ := (max 0 (opts.hops.getD 1)).toNat

def QueryOptions.cap : ℤ := opts.limit.getD DEFAULT_NEIGHBOR_LIMIT

/-- What the filters let through; they do not stop the traversal. -/
def passes (candidate : Node) : Bool :=
  (opts.kinds.all fun allowedKinds => decide (candidate.kind ∈ allowedKinds)) &&
    (decide (opts.sameCluster ≠ some true) ||
      decide (graph.clusterOf candidate.id = graph.clusterOf seed))

def adjacent (current : String) : List String := (graph.g.neighbors current).insertionSort idLe

def visit (t : Traversal) (candidateId : String) : Except (List Node) Traversal :=
  if candidateId ∈ t.visited then .ok t
  else
    let t := { t with
      visited := t.visited ++ [candidateId]
      next := t.next ++ [candidateId] }
    match graph.node candidateId with
    | none => .ok t
    | some candidate =>
      if passes graph seed opts candidate then
        let out := t.out ++ [candidate]
        if opts.cap ≤ out.length then .error out else .ok { t with out }
      else .ok t

def expand (frontier : List String) (t : Traversal) : Except (List Node) Traversal :=
  (frontier.insertionSort idLe).foldlM
    (fun t current => (adjacent graph current).foldlM (visit graph seed opts) t) t

def hopLoop : ℕ → List String → List String → List Node → List Node
  | 0, _, _, out => out
  | n + 1, visited, frontier, out =>
    match expand graph seed opts frontier ⟨visited, [], out⟩ with
    | .error out => out
    | .ok t => if t.next = [] then t.out else hopLoop n t.visited t.next t.out

def neighbors : List Node :=
  if graph.node seed = none then []
  else if opts.hopCount = 0 then []
  else hopLoop graph seed opts opts.hopCount [seed] [seed] []

end Source

/-! ## The nodes in range -/

/-- Two nodes with an edge between them, in either direction. -/
def Graph.undirected (graph : Graph) : SimpleGraph String :=
  SimpleGraph.fromRel fun a b => ∃ e ∈ graph.g.edges, e.source = a ∧ e.target = b

/-- The node passes the filters and is between one hop and the hop count away. -/
structure InRange (graph : Graph) (seed : String) (opts : QueryOptions) (node : Node) : Prop where
  mem : node ∈ graph.g.nodes
  passes : passes graph seed opts node = true
  apart : 1 ≤ graph.undirected.edist seed node.id
  near : graph.undirected.edist seed node.id ≤ opts.hopCount

/-- The nodes in range, each once, in breadth-first order. -/
structure Listing (graph : Graph) (seed : String) (opts : QueryOptions) (full : List Node) :
    Prop where
  nodup : full.Nodup
  ordered : full.Pairwise fun m n => Sooner idLe graph.undirected {seed} m.id n.id
  mem_iff : ∀ node, node ∈ full ↔ InRange graph seed opts node

/-! ## Layers -/

section Search

variable {graph : Graph} {seed : String} {opts : QueryOptions}

theorem mem_neighbors {s : Store} {x y : String} :
    y ∈ s.neighbors x ↔
      ∃ e ∈ s.edges, (e.source = x ∧ e.target = y) ∨ (e.source = y ∧ e.target = x) := by
  rw [Store.neighbors, List.mem_dedup, List.mem_flatMap]
  refine exists_congr fun e => and_congr_right fun _ => ?_
  rw [List.mem_append]
  refine or_congr ?_ ?_
  · split_ifs with h <;> simp [h, eq_comm]
  · split_ifs with h <;> simp [h, eq_comm]

theorem lists_of_mem_iff {adj : String → List String}
    (h : ∀ x y, x ≠ y → (y ∈ adj x ↔ y ∈ graph.g.neighbors x)) : Lists adj graph.undirected := by
  intro x y hne
  rw [h x y hne, mem_neighbors, Graph.undirected, SimpleGraph.fromRel_adj]
  constructor
  · rintro ⟨e, he, hxy | hyx⟩
    · exact ⟨hne, Or.inl ⟨e, he, hxy⟩⟩
    · exact ⟨hne, Or.inr ⟨e, he, hyx⟩⟩
  · rintro ⟨-, ⟨e, he, hxy⟩ | ⟨e, he, hyx⟩⟩
    · exact ⟨e, he, Or.inl hxy⟩
    · exact ⟨e, he, Or.inr hyx⟩

theorem lists_adjacent (graph : Graph) : Lists (adjacent graph) graph.undirected := by
  refine lists_of_mem_iff fun x y _ => ?_
  rw [adjacent, List.mem_insertionSort]

theorem foldlM_flatMap {ε σ α β : Type} (step : σ → β → Except ε σ) (f : α → List β)
    (xs : List α) (s : σ) :
    (xs.flatMap f).foldlM step s = xs.foldlM (fun s x => (f x).foldlM step s) s := by
  induction xs generalizing s with
  | nil => rfl
  | cons x xs ih =>
    rw [List.flatMap_cons, List.foldlM_append, List.foldlM_cons]
    refine bind_congr fun t => ?_
    exact ih t

/-- The node under an id, if the filters let it through. -/
def kept (graph : Graph) (seed : String) (opts : QueryOptions) (id : String) : Option Node :=
  (graph.node id).filter (passes graph seed opts)

/-- The cap is looked at after a node was added, so one node is always let through. -/
def QueryOptions.room (opts : QueryOptions) : ℕ := max 1 opts.cap.toNat

theorem visit_new {t : Traversal} {id : String} (hid : id ∉ t.visited)
    (hroom : t.out.length < opts.room) :
    visit graph seed opts t id =
      if (t.out ++ (kept graph seed opts id).toList).length < opts.room then
        .ok ⟨t.visited ++ [id], t.next ++ [id], t.out ++ (kept graph seed opts id).toList⟩
      else .error (t.out ++ (kept graph seed opts id).toList) := by
  unfold visit kept
  rw [if_neg hid]
  cases hnode : graph.node id with
  | none => simp [hroom]
  | some candidate =>
    cases hpass : passes graph seed opts candidate with
    | false => simp [Option.filter_some, hpass, hroom]
    | true =>
      have hcap : opts.cap ≤ ((t.out ++ [candidate]).length : ℕ) ↔
          ¬ (t.out ++ [candidate]).length < opts.room := by
        rw [List.length_append, List.length_singleton, QueryOptions.room] at *
        omega
      simp only [hpass, Option.filter_some, Option.toList_some, if_true, hcap]
      split_ifs <;> rfl

/-- The inner loops: the new candidates are added as long as there is room. -/
theorem foldlM_visit (ids : List String) {t : Traversal} (hroom : t.out.length < opts.room) :
    ids.foldlM (visit graph seed opts) t =
      if (t.out ++ (fresh t.visited ids).filterMap (kept graph seed opts)).length < opts.room then
        .ok ⟨t.visited ++ fresh t.visited ids, t.next ++ fresh t.visited ids,
          t.out ++ (fresh t.visited ids).filterMap (kept graph seed opts)⟩
      else .error ((t.out ++
        (fresh t.visited ids).filterMap (kept graph seed opts)).take opts.room) := by
  induction ids generalizing t with
  | nil =>
    simp only [fresh_nil, List.filterMap_nil, List.append_nil, if_pos hroom]
    rfl
  | cons id ids ih =>
    rw [List.foldlM_cons]
    by_cases hid : id ∈ t.visited
    · rw [fresh, if_pos hid, visit, if_pos hid]
      exact ih hroom
    · rw [fresh, if_neg hid, visit_new hid hroom]
      have hcons : ∀ rest : List String, t.out ++ (id :: rest).filterMap (kept graph seed opts) =
          (t.out ++ (kept graph seed opts id).toList) ++
            rest.filterMap (kept graph seed opts) := by
        intro rest
        rw [List.filterMap_cons, List.append_assoc]
        cases kept graph seed opts id <;> rfl
      rw [hcons]
      split_ifs with hmore hrest hrest
      · refine (ih (t := ⟨_, _, _⟩) hmore).trans ?_
        rw [if_pos hrest]
        simp only [List.append_assoc, List.singleton_append]
      · refine (ih (t := ⟨_, _, _⟩) hmore).trans ?_
        rw [if_neg hrest]
      · rw [List.length_append] at hrest
        omega
      · -- the node just added has taken the last place
        have hone : (kept graph seed opts id).toList.length ≤ 1 := by
          cases kept graph seed opts id <;> simp
        have hfull : (t.out ++ (kept graph seed opts id).toList).length = opts.room := by
          rw [List.length_append] at hmore ⊢
          omega
        rw [List.take_append_of_le_length hfull.ge, ← hfull, List.take_length]
        rfl

theorem expand_eq {visited frontier : List String} {out : List Node}
    (hroom : out.length < opts.room) :
    expand graph seed opts frontier ⟨visited, [], out⟩ =
      let next := layer idLe (adjacent graph) visited frontier
      if (out ++ next.filterMap (kept graph seed opts)).length < opts.room then
        .ok ⟨visited ++ next, next, out ++ next.filterMap (kept graph seed opts)⟩
      else .error ((out ++ next.filterMap (kept graph seed opts)).take opts.room) := by
  rw [expand, ← foldlM_flatMap]
  exact foldlM_visit _ hroom

/-- The loop returns the nodes that the search meets and the filters let through, up to the
cap. -/
theorem hopLoop_eq (n : ℕ) {visited frontier : List String} {out : List Node}
    (hroom : out.length < opts.room) :
    hopLoop graph seed opts n visited frontier out =
      (out ++ (search idLe (adjacent graph) n visited frontier).filterMap
        (kept graph seed opts)).take opts.room := by
  induction n generalizing visited frontier out with
  | zero =>
    rw [hopLoop, search, List.filterMap_nil, List.append_nil, List.take_of_length_le hroom.le]
  | succ n ih =>
    rw [hopLoop, expand_eq hroom, search, List.filterMap_append, ← List.append_assoc]
    dsimp only
    split_ifs with hmore
    · dsimp only
      split_ifs with hnil
      · rw [hnil, search_nil, List.filterMap_nil, List.append_nil, List.append_nil,
          List.take_of_length_le hroom.le]
      · exact ih hmore
    · rw [List.take_append_of_le_length (not_lt.mp hmore)]

/-! ## Every node in range -/

theorem node_eq_some {s : Store} {id : String} {node : Node} :
    s.node id = some node ↔ node ∈ s.nodes ∧ node.id = id := by
  constructor
  · intro h
    exact ⟨List.mem_of_find?_eq_some h, by simpa using List.find?_some h⟩
  · rintro ⟨hmem, rfl⟩
    cases hfind : s.node node.id with
    | none =>
      have hno := List.find?_eq_none.mp hfind node hmem
      simp at hno
    | some other =>
      have hid : other.id = node.id := by simpa using List.find?_some hfind
      rw [List.inj_on_of_nodup_map s.nodes_nodup (List.mem_of_find?_eq_some hfind) hmem hid]

theorem kept_eq_some {id : String} {node : Node} :
    kept graph seed opts id = some node ↔
      (node ∈ graph.g.nodes ∧ passes graph seed opts node = true) ∧ node.id = id := by
  rw [kept, Option.filter_eq_some_iff, Graph.node, node_eq_some]
  tauto

/-- What the search would return without a cap. -/
def everyNode (graph : Graph) (seed : String) (opts : QueryOptions) : List Node :=
  (search idLe (adjacent graph) opts.hopCount [seed] [seed]).filterMap (kept graph seed opts)

theorem round_seed (graph : Graph) (seed : String) :
    Round graph.undirected {seed} 0 [seed] [seed] :=
  round_zero fun x => by simp

theorem listing_everyNode (graph : Graph) (seed : String) (opts : QueryOptions) :
    Listing graph seed opts (everyNode graph seed opts) := by
  have hround := round_seed graph seed
  have hlists := lists_adjacent graph
  constructor
  · refine List.Nodup.filterMap (fun x y node hx hy => ?_) (nodup_search hlists _ hround)
    exact (kept_eq_some.mp hx).2.symm.trans (kept_eq_some.mp hy).2
  · have hsorted : ∀ x, (adjacent graph x).Pairwise idLe := fun x =>
      List.pairwise_insertionSort idLe _
    refine (pairwise_search hlists hsorted opts.hopCount hround).filterMap _ ?_
    intro x y hxy m hm n hn
    rw [(kept_eq_some.mp hm).2, (kept_eq_some.mp hn).2]
    exact hxy
  · intro node
    rw [everyNode, List.mem_filterMap]
    simp only [kept_eq_some, mem_search hlists _ hround, depth_singleton, zero_add, Nat.cast_zero]
    constructor
    · rintro ⟨_, ⟨hpos, hle⟩, ⟨hmem, hpass⟩, rfl⟩
      exact ⟨hmem, hpass, Order.one_le_iff_pos.mpr hpos, hle⟩
    · rintro ⟨hmem, hpass, hpos, hle⟩
      exact ⟨node.id, ⟨Order.one_le_iff_pos.mp hpos, hle⟩, ⟨hmem, hpass⟩, rfl⟩

theorem adjacent_of_none (h : graph.node seed = none) : adjacent graph seed = [] := by
  have hseed : seed ∉ graph.g.nodes.map Node.id := by
    intro hmem
    obtain ⟨node, hnode, hid⟩ := List.mem_map.mp hmem
    rw [Graph.node, node_eq_some.mpr ⟨hnode, hid⟩] at h
    cases h
  rw [List.eq_nil_iff_forall_not_mem]
  intro y hy
  rw [adjacent, List.mem_insertionSort, mem_neighbors] at hy
  obtain ⟨e, he, ⟨rfl, -⟩ | ⟨-, rfl⟩⟩ := hy
  · exact hseed (graph.g.closed e he).1
  · exact hseed (graph.g.closed e he).2

theorem neighbors_eq (graph : Graph) (seed : String) (opts : QueryOptions) :
    neighbors graph seed opts = (everyNode graph seed opts).take opts.room := by
  have hroom : ([] : List Node).length < opts.room := Nat.lt_of_lt_of_le one_pos (le_max_left _ _)
  unfold neighbors everyNode
  split_ifs with hnone hzero
  · have hlayer : layer idLe (adjacent graph) [seed] [seed] = [] := by
      rw [layer, List.insertionSort_cons, List.insertionSort_nil, List.orderedInsert_nil,
        List.flatMap_singleton, adjacent_of_none hnone, fresh_nil]
    cases opts.hopCount with
    | zero => rw [search, List.filterMap_nil, List.take_nil]
    | succ n =>
      rw [search, hlayer, search_nil, List.append_nil, List.filterMap_nil, List.take_nil]
  · rw [hzero, search, List.filterMap_nil, List.take_nil]
  · rw [hopLoop_eq opts.hopCount hroom, List.nil_append]

end Search

/-- The search returns the first `limit` nodes in range, all of them where there are no more,
exactly when the limit is positive or no node is in range. -/
theorem neighbors_listing_iff (graph : Graph) (seed : String) (opts : QueryOptions) :
    (∃ full, Listing graph seed opts full ∧
      neighbors graph seed opts = full.take opts.cap.toNat) ↔
    0 < opts.cap ∨ ¬ ∃ node, InRange graph seed opts node := by
  have hlisting := listing_everyNode graph seed opts
  rw [neighbors_eq]
  constructor
  · rintro ⟨full, -, heq⟩
    by_contra hno
    push Not at hno
    obtain ⟨hcap, node, hnode⟩ := hno
    have hzero : opts.cap.toNat = 0 := Int.toNat_of_nonpos hcap
    have hone : opts.room = 1 := by simp [QueryOptions.room, hzero]
    rw [hzero, hone, List.take_zero, List.take_eq_nil_iff] at heq
    have hnil := heq.resolve_left one_ne_zero
    have hmem := (hlisting.mem_iff node).mpr hnode
    simp [hnil] at hmem
  · intro hok
    refine ⟨everyNode graph seed opts, hlisting, ?_⟩
    rcases hok with hcap | hnone
    · have hroom : opts.room = opts.cap.toNat := max_eq_right (by omega)
      rw [hroom]
    · have hnil : everyNode graph seed opts = [] := by
        rw [List.eq_nil_iff_forall_not_mem]
        exact fun node hmem => hnone ⟨node, (hlisting.mem_iff node).mp hmem⟩
      rw [hnil, List.take_nil, List.take_nil]

/-- Two files and an import. -/
def importPair : Except GraphError Graph :=
  Graph.new
    { nodes := [⟨"a", .file, "a", none, []⟩, ⟨"b", .file, "b", none, []⟩]
      edges := [⟨"e", "a", "b", .imports⟩]
      clusters := []
      membership := [] }

/-- The limit is compared after a node was added, so a limit of zero lets one through. -/
theorem neighbors_limit_zero : ∃ graph, importPair = .ok graph ∧
    neighbors graph "a" { limit := some 0 } = [⟨"b", .file, "b", none, []⟩] ∧
    ¬ ∃ full, Listing graph "a" { limit := some 0 } full ∧
      neighbors graph "a" { limit := some 0 } = full.take 0 := by
  have hpair : ∃ graph, importPair = .ok graph ∧
      neighbors graph "a" { limit := some 0 } = [⟨"b", .file, "b", none, []⟩] :=
    ⟨_, rfl, by decide +kernel⟩
  obtain ⟨graph, hgraph, hone⟩ := hpair
  refine ⟨graph, hgraph, hone, ?_⟩
  rintro ⟨full, -, heq⟩
  rw [hone, List.take_zero] at heq
  cases heq

end CodeGraph
end Batiste
