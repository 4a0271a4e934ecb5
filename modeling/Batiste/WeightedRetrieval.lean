import Batiste.ClusterSummary
import Batiste.GraphNeighbors
import Batiste.JsNumber

/-! Source-weighted retrieval over a graph: `retrieveWeighted`.
The arithmetic of the scores and the order of two ids are the host's. -/
namespace Batiste
namespace CodeGraph

open BreadthFirst

/-! ## The source -/

/-- Finite numbers are rationals; the host rounds powers and products. -/
structure Host where
  power : ℚ → ℕ → ℚ
  times : ℚ → ℚ → ℚ
  numberText : ℚ → String
  collation : Collation

structure SourceWeightConfig where
  weights : Dict JsNumber
  defaultWeight : Option JsNumber := none
  dropZeroWeight : Option Bool := none
  deriving DecidableEq, Repr

structure SourceWeightedQuery where
  seeds : List String
  sources : SourceWeightConfig
  maxHops : Option ℤ := none
  hopDecay : Option JsNumber := none
  kinds : Option (List NodeKind) := none
  includeSeeds : Option Bool := none
  limit : Option ℤ := none
  deriving DecidableEq, Repr

structure ScoredNode where
  node : Node
  score : ℚ
  hops : ℕ
  proximity : ℚ
  source : String
  sourceWeight : ℚ
  deriving DecidableEq, Repr

def SOURCE_METADATA_KEY : String := "gvs:source"

def DEFAULT_MAX_HOPS : ℤ := 2

def DEFAULT_HOP_DECAY : ℚ := 1 / 2

def DEFAULT_LIMIT : ℤ := 100

/-- `Number.MAX_SAFE_INTEGER` -/
def MAX_SAFE_INTEGER : ℕ := 2 ^ 53 - 1

def NodeKind.text : NodeKind → String
  | .file => "file"
  | .symbol => "symbol"
  | .doc => "doc"
  | .fact => "fact"
  | .concept => "concept"

/-- Clamp hop decay into `(0, 1]`; out-of-range or non-finite → default. -/
def clampDecay : JsNumber → ℚ
  | .finite decay => if decay ≤ 0 then DEFAULT_HOP_DECAY else if 1 < decay then 1 else decay
  | _ => DEFAULT_HOP_DECAY

def weightForSource (source : String) (config : SourceWeightConfig) : ℚ :=
  match ((config.weights.get? source).or config.defaultWeight).getD (.finite 1) with
  | .finite raw => if raw < 0 then 0 else raw
  | _ => 0

namespace SourceWeightedQuery

variable (query : SourceWeightedQuery)

def hopCount : ℕ := (max 0 (query.maxHops.getD DEFAULT_MAX_HOPS)).toNat

def cap : ℕ := (max 0 (query.limit.getD DEFAULT_LIMIT)).toNat

end SourceWeightedQuery

section Source

variable (host : Host) (graph : Graph) (query : SourceWeightedQuery)

def resolveSource (node : Node) : String :=
  match node.metadata.get? SOURCE_METADATA_KEY with
  | some (.text tagged) => if tagged ≠ "" then tagged else node.kind.text
  | some (.number tagged) => host.numberText tagged
  | some (.boolean tagged) => if tagged then "true" else "false"
  | none => node.kind.text

/-- `hopOf` and the frontier, after one seed. -/
def addSeed (s : Dict ℕ × List String) (seed : String) : Dict ℕ × List String :=
  if graph.node seed = none then s
  else if seed ∈ s.1.map Prod.fst then s
  else (s.1.set seed 0, s.2 ++ [seed])

/-- `hopOf` and the next frontier, after one neighbour. -/
def addNeighbor (hop : ℕ) (s : Dict ℕ × List String) (nid : String) : Dict ℕ × List String :=
  if nid ∈ s.1.map Prod.fst then s
  else (s.1.set nid (hop + 1), s.2 ++ [nid])

/-- The ids of a single-hop expansion. -/
def oneHop (current : String) : List String :=
  (neighbors graph current { hops := some 1, limit := some MAX_SAFE_INTEGER }).map Node.id

def expandHop (hop : ℕ) (hopOf : Dict ℕ) (frontier : List String) : Dict ℕ × List String :=
  (frontier.insertionSort idLe).foldl
    (fun s current => (oneHop graph current).foldl (addNeighbor hop) s) (hopOf, [])

/-- The rounds that are left, and the number of the next one. -/
def expandHops : ℕ → ℕ → Dict ℕ × List String → Dict ℕ
  | 0, _, s => s.1
  | n + 1, hop, s =>
    if s.2 = [] then s.1 else expandHops n (hop + 1) (expandHop graph hop s.1 s.2)

def hopOf : Dict ℕ :=
  expandHops graph query.hopCount 0 (query.seeds.foldl (addSeed graph) ([], []))

/-- One node of `hopOf`, unless a filter drops it. -/
def scoreNode (entry : String × ℕ) : Option ScoredNode :=
  if entry.2 = 0 ∧ query.includeSeeds.getD true = false then none
  else
    match graph.node entry.1 with
    | none => none
    | some node =>
      if (query.kinds.all fun kinds => decide (node.kind ∈ kinds)) then
        let source := resolveSource host node
        let sourceWeight := weightForSource source query.sources
        if sourceWeight = 0 ∧ query.sources.dropZeroWeight = some true then none
        else
          let proximity := host.power (clampDecay (query.hopDecay.getD (.finite DEFAULT_HOP_DECAY)))
            entry.2
          some
            { node
              score := host.times proximity sourceWeight
              hops := entry.2
              proximity
              source
              sourceWeight }
      else none

/-- The comparator: the score, then the id. -/
def Ranked (a b : ScoredNode) : Prop :=
  b.score < a.score ∨ a.score = b.score ∧ host.collation.le a.node.id b.node.id = true

instance : DecidableRel (Ranked host) := fun a b =>
  inferInstanceAs (Decidable (b.score < a.score ∨
    a.score = b.score ∧ host.collation.le a.node.id b.node.id = true))

def scored : List ScoredNode :=
  ((hopOf graph query).filterMap (scoreNode host graph query)).insertionSort (Ranked host)

def retrieveWeighted : List ScoredNode :=
  if 0 < query.cap then (scored host graph query).take query.cap else scored host graph query

end Source

/-! ## What a retrieval is to return -/

section Retrieval

variable (host : Host) (graph : Graph) (query : SourceWeightedQuery)

/-- The seeds that the graph has. -/
def existing : Set String := {seed | seed ∈ query.seeds ∧ graph.node seed ≠ none}

/-- A node within the hops, with its distance from the nearest existing seed, that no filter
drops. -/
structure Candidate (c : ScoredNode) : Prop where
  hops_eq : (c.hops : ℕ∞) = depth graph.undirected (existing graph query) c.node.id
  within : c.hops ≤ query.hopCount
  scores : scoreNode host graph query (c.node.id, c.hops) = some c

/-- At most `limit` of the candidates, each node once, those with the highest scores first. -/
structure Retrieval (result : List ScoredNode) : Prop where
  nodup : (result.map fun c => c.node.id).Nodup
  sound : ∀ c ∈ result, Candidate host graph query c
  sorted : result.Pairwise fun a b => b.score ≤ a.score
  length : result.length ≤ query.cap
  highest : ∀ c, Candidate host graph query c → c ∉ result →
    result.length = query.cap ∧ ∀ d ∈ result, c.score ≤ d.score

end Retrieval

/-! ## Hops -/

section Hops

variable {graph : Graph}

theorem set_of_notMem {d : Dict ℕ} {key : String} (h : key ∉ d.map Prod.fst) (value : ℕ) :
    d.set key value = d ++ [(key, value)] := by
  rw [Dict.set, if_neg]
  simpa [List.any_eq_true, List.mem_map] using h

/-- Recording the new ones of some ids with a value. -/
theorem foldl_record (value : ℕ) (ids : List String) (s : Dict ℕ × List String) :
    ids.foldl (fun s id =>
        if id ∈ s.1.map Prod.fst then s else (s.1.set id value, s.2 ++ [id])) s =
      (s.1 ++ (fresh (s.1.map Prod.fst) ids).map fun id => (id, value),
        s.2 ++ fresh (s.1.map Prod.fst) ids) := by
  induction ids generalizing s with
  | nil => simp
  | cons id ids ih =>
    rw [List.foldl_cons, ih, fresh]
    split_ifs with hid
    · rfl
    · rw [set_of_notMem hid]
      simp

theorem foldl_addNeighbor (hop : ℕ) (ids : List String) (s : Dict ℕ × List String) :
    ids.foldl (addNeighbor hop) s =
      (s.1 ++ (fresh (s.1.map Prod.fst) ids).map fun id => (id, hop + 1),
        s.2 ++ fresh (s.1.map Prod.fst) ids) :=
  foldl_record (hop + 1) ids s

theorem foldl_addSeed (seeds : List String) (s : Dict ℕ × List String) :
    seeds.foldl (addSeed graph) s =
      (s.1 ++ (fresh (s.1.map Prod.fst)
          (seeds.filter fun seed => decide (graph.node seed ≠ none))).map fun id => (id, 0),
        s.2 ++ fresh (s.1.map Prod.fst)
          (seeds.filter fun seed => decide (graph.node seed ≠ none))) := by
  rw [← foldl_record, List.foldl_filter]
  congr 1
  funext s seed
  rw [addSeed]
  by_cases hnone : graph.node seed = none <;> simp [hnone]

theorem expandHop_eq (hop : ℕ) (hopOf : Dict ℕ) (frontier : List String) :
    expandHop graph hop hopOf frontier =
      let next := layer idLe (oneHop graph) (hopOf.map Prod.fst) frontier
      (hopOf ++ next.map fun id => (id, hop + 1), next) := by
  rw [expandHop, ← List.foldl_flatMap, foldl_addNeighbor]
  rfl

theorem length_everyNode_le (seed : String) (opts : QueryOptions) :
    (everyNode graph seed opts).length ≤ graph.nodeCount := by
  have hlisting := listing_everyNode graph seed opts
  exact (List.subperm_of_subset hlisting.nodup fun node h =>
    ((hlisting.mem_iff node).mp h).mem).length_le

/-- A graph whose nodes can be counted has no node with more neighbours than the limit. -/
theorem lists_oneHop (hsize : graph.nodeCount ≤ MAX_SAFE_INTEGER) :
    Lists (oneHop graph) graph.undirected := by
  intro x y hne
  have hall : neighbors graph x { hops := some 1, limit := some MAX_SAFE_INTEGER } =
      everyNode graph x { hops := some 1, limit := some MAX_SAFE_INTEGER } := by
    rw [neighbors_eq]
    refine List.take_of_length_le ((length_everyNode_le x _).trans (hsize.trans ?_))
    simp [QueryOptions.room, QueryOptions.cap]
  rw [oneHop, hall, List.mem_map]
  have hlisting := listing_everyNode graph x { hops := some 1, limit := some MAX_SAFE_INTEGER }
  constructor
  · rintro ⟨node, hnode, rfl⟩
    obtain ⟨-, -, hpos, hle⟩ := (hlisting.mem_iff node).mp hnode
    exact SimpleGraph.edist_eq_one_iff_adj.mp (le_antisymm hle hpos)
  · intro hadj
    have hmem : y ∈ graph.g.nodes.map Node.id := by
      rw [Graph.undirected, SimpleGraph.fromRel_adj] at hadj
      obtain ⟨-, ⟨e, he, -, rfl⟩ | ⟨e, he, rfl, -⟩⟩ := hadj
      · exact (graph.g.closed e he).2
      · exact (graph.g.closed e he).1
    obtain ⟨node, hnode, rfl⟩ := List.mem_map.mp hmem
    have hone := SimpleGraph.edist_eq_one_iff_adj.mpr hadj
    exact ⟨node, (hlisting.mem_iff node).mpr ⟨hnode, by simp [passes], hone.ge, hone.le⟩, rfl⟩

/-- The nodes up to a layer are recorded with their depths, and the layer is the frontier. -/
structure Counted (graph : Graph) (starts : Set String) (k : ℕ) (s : Dict ℕ × List String) :
    Prop where
  nodup : (s.1.map Prod.fst).Nodup
  round : Round graph.undirected starts k (s.1.map Prod.fst) s.2
  hops : ∀ e ∈ s.1, depth graph.undirected starts e.1 = e.2

theorem counted_seeds (graph : Graph) (query : SourceWeightedQuery) :
    Counted graph (existing graph query) 0 (query.seeds.foldl (addSeed graph) ([], [])) := by
  rw [foldl_addSeed]
  have hmem : ∀ x, x ∈ fresh [] (query.seeds.filter fun seed => decide (graph.node seed ≠ none)) ↔
      x ∈ existing graph query := by
    intro x
    simp [mem_fresh, existing]
  have hkeys : ((fresh [] (query.seeds.filter fun seed => decide (graph.node seed ≠ none))).map
      fun id => (id, 0)).map Prod.fst =
      fresh [] (query.seeds.filter fun seed => decide (graph.node seed ≠ none)) := by
    simp [Function.comp_def]
  simp only [List.map_nil, List.nil_append]
  constructor
  · rw [hkeys]
    exact nodup_fresh _ _
  · rw [hkeys]
    exact round_zero hmem
  · rintro e he
    obtain ⟨x, hx, rfl⟩ := List.mem_map.mp he
    exact depth_eq_zero_iff.mpr ((hmem x).mp hx)

variable {starts : Set String} {k : ℕ} {s : Dict ℕ × List String}

theorem Counted.expandHop (hlists : Lists (oneHop graph) graph.undirected)
    (h : Counted graph starts k s) : Counted graph starts (k + 1) (expandHop graph k s.1 s.2) := by
  have hkeys : ∀ ids : List String, (ids.map fun id => (id, k + 1)).map Prod.fst = ids := by
    intro ids
    simp [Function.comp_def]
  rw [expandHop_eq]
  constructor
  · rw [List.map_append, hkeys, List.nodup_append]
    refine ⟨h.nodup, nodup_fresh _ _, ?_⟩
    rintro x hx _ hnew rfl
    exact (mem_fresh.mp hnew).2 hx
  · rw [List.map_append, hkeys]
    exact h.round.next hlists
  · intro e he
    rcases List.mem_append.mp he with hold | hnew
    · exact h.hops e hold
    · obtain ⟨x, hx, rfl⟩ := List.mem_map.mp hnew
      rw [(mem_layer hlists h.round).mp hx, Nat.cast_succ]

/-- After so many rounds the nodes within that distance are recorded. -/
theorem Counted.expandHops (hlists : Lists (oneHop graph) graph.undirected) (n : ℕ)
    (h : Counted graph starts k s) :
    ((expandHops graph n k s).map Prod.fst).Nodup ∧
      (∀ x, x ∈ (expandHops graph n k s).map Prod.fst ↔
        depth graph.undirected starts x ≤ (k + n : ℕ)) ∧
      ∀ e ∈ expandHops graph n k s, depth graph.undirected starts e.1 = e.2 := by
  induction n generalizing k s with
  | zero => exact ⟨h.nodup, h.round.seen, h.hops⟩
  | succ n ih =>
    rw [CodeGraph.expandHops]
    split_ifs with hnil
    · refine ⟨h.nodup, fun x => ?_, h.hops⟩
      -- nothing is left to expand, so nothing is further away
      have hfar := mem_search hlists (n + 1) h.round (r := idLe) (x := x)
      rw [hnil, search_nil] at hfar
      rw [h.round.seen]
      constructor
      · exact fun hle => hle.trans (by exact_mod_cast Nat.le_add_right k (n + 1))
      · intro hle
        by_contra hlt
        exact List.not_mem_nil (hfar.mpr ⟨not_le.mp hlt, hle⟩)
    · have hrec := ih (h.expandHop hlists)
      rw [show k + 1 + n = k + (n + 1) by omega] at hrec
      exact hrec

theorem mem_hopOf (hsize : graph.nodeCount ≤ MAX_SAFE_INTEGER) (query : SourceWeightedQuery)
    {x : String} {hops : ℕ} : (x, hops) ∈ hopOf graph query ↔
      depth graph.undirected (existing graph query) x = hops ∧ hops ≤ query.hopCount := by
  obtain ⟨-, hkeys, hdepth⟩ :=
    (counted_seeds graph query).expandHops (lists_oneHop hsize) query.hopCount
  rw [zero_add] at hkeys
  constructor
  · intro hmem
    have heq := hdepth _ hmem
    have hle := (hkeys x).mp (List.mem_map_of_mem hmem)
    rw [heq] at hle
    exact ⟨heq, by exact_mod_cast hle⟩
  · rintro ⟨heq, hle⟩
    have hkey : x ∈ (hopOf graph query).map Prod.fst := by
      refine (hkeys x).mpr ?_
      rw [heq]
      exact_mod_cast hle
    obtain ⟨⟨y, h⟩, hmem, rfl⟩ := List.mem_map.mp hkey
    have hsame : (h : ℕ∞) = hops := (hdepth _ hmem).symm.trans heq
    obtain rfl : h = hops := by exact_mod_cast hsame
    exact hmem

theorem nodup_hopOf (hsize : graph.nodeCount ≤ MAX_SAFE_INTEGER) (query : SourceWeightedQuery) :
    ((hopOf graph query).map Prod.fst).Nodup :=
  ((counted_seeds graph query).expandHops (lists_oneHop hsize) query.hopCount).1

end Hops

/-! ## Scores -/

section Scores

variable {host : Host} {graph : Graph} {query : SourceWeightedQuery}

instance : IsTrans ScoredNode (Ranked host) :=
  host.collation.isTrans ScoredNode.score fun c : ScoredNode => c.node.id

instance : Std.Total (Ranked host) :=
  host.collation.isTotal ScoredNode.score fun c : ScoredNode => c.node.id

theorem Ranked.score_le {a b : ScoredNode} (h : Ranked host a b) : b.score ≤ a.score :=
  h.elim le_of_lt fun h => h.1.ge

/-- A scored node keeps its id and its hops. -/
theorem scoreNode_eq_some {e : String × ℕ} {c : ScoredNode}
    (h : scoreNode host graph query e = some c) : e = (c.node.id, c.hops) := by
  unfold scoreNode at h
  split_ifs at h
  split at h
  · cases h
  · rename_i node hnode
    dsimp only at h
    split_ifs at h
    cases h
    exact Prod.ext (node_eq_some.mp hnode).2.symm rfl

theorem mem_scored (hsize : graph.nodeCount ≤ MAX_SAFE_INTEGER) {c : ScoredNode} :
    c ∈ scored host graph query ↔ Candidate host graph query c := by
  rw [scored, List.mem_insertionSort, List.mem_filterMap]
  constructor
  · rintro ⟨e, he, hscore⟩
    obtain rfl := scoreNode_eq_some hscore
    obtain ⟨hdepth, hle⟩ := (mem_hopOf hsize query).mp he
    exact ⟨hdepth.symm, hle, hscore⟩
  · intro h
    exact ⟨_, (mem_hopOf hsize query).mpr ⟨h.hops_eq.symm, h.within⟩, h.scores⟩

theorem nodup_scored (hsize : graph.nodeCount ≤ MAX_SAFE_INTEGER) :
    ((scored host graph query).map fun c => c.node.id).Nodup := by
  have hperm := (List.perm_insertionSort (Ranked host)
    ((hopOf graph query).filterMap (scoreNode host graph query))).map fun c => c.node.id
  rw [scored, hperm.nodup_iff, List.Nodup, List.pairwise_map]
  refine (List.pairwise_map.mp (nodup_hopOf hsize query)).filterMap _ ?_
  intro a b hab c hc d hd
  rw [scoreNode_eq_some hc, scoreNode_eq_some hd] at hab
  exact hab

theorem sorted_scored (host : Host) (graph : Graph) (query : SourceWeightedQuery) :
    (scored host graph query).Pairwise fun a b => b.score ≤ a.score :=
  (List.pairwise_insertionSort (Ranked host) _).imp Ranked.score_le

/-- A retrieval with a positive limit returns the first of the scored nodes. -/
theorem retrieval_take (hsize : graph.nodeCount ≤ MAX_SAFE_INTEGER) :
    Retrieval host graph query ((scored host graph query).take query.cap) := by
  have hsorted := sorted_scored host graph query
  have hinit := List.take_sublist query.cap (scored host graph query)
  constructor
  case nodup => exact (nodup_scored hsize).sublist (hinit.map _)
  case sound => exact fun c hc => (mem_scored hsize).mp (hinit.subset hc)
  case sorted => exact hsorted.sublist hinit
  case length => exact List.length_take_le _ _
  case highest =>
    intro c hc hnot
    have hmem := (mem_scored hsize).mpr hc
    rw [← List.take_append_drop query.cap (scored host graph query)] at hmem hsorted
    have hdrop := (List.mem_append.mp hmem).resolve_left hnot
    refine ⟨?_, fun d hd => (List.pairwise_append.mp hsorted).2.2 d hd c hdrop⟩
    have hpos := List.length_pos_of_mem hdrop
    rw [List.length_drop] at hpos
    rw [List.length_take]
    omega

end Scores

/-- The result is the best `limit` candidates, in order, each with its distance from the nearest
existing seed, exactly when the limit is positive or nothing is to be returned. -/
theorem retrieveWeighted_iff (host : Host) (graph : Graph) (query : SourceWeightedQuery)
    (hsize : graph.nodeCount ≤ MAX_SAFE_INTEGER) :
    Retrieval host graph query (retrieveWeighted host graph query) ↔
      0 < query.cap ∨ ¬ ∃ c, Candidate host graph query c := by
  unfold retrieveWeighted
  split_ifs with hcap
  · exact iff_of_true (retrieval_take hsize) (Or.inl hcap)
  · have hzero : query.cap = 0 := Nat.eq_zero_of_not_pos hcap
    constructor
    · intro h
      refine Or.inr ?_
      rintro ⟨c, hc⟩
      have hlength := h.length
      have hpos := List.length_pos_of_mem ((mem_scored hsize).mpr hc)
      omega
    · intro hnone
      have hnil : scored host graph query = [] := by
        rw [List.eq_nil_iff_forall_not_mem]
        exact fun c hc => hnone.resolve_left hcap ⟨c, (mem_scored hsize).mp hc⟩
      have htake : Retrieval host graph query ((scored host graph query).take query.cap) :=
        retrieval_take hsize
      rw [hnil, List.take_nil] at htake
      rw [hnil]
      exact htake

theorem idLe_trans (a b c : String) (hab : JsString.le a b = true)
    (hbc : JsString.le b c = true) : JsString.le a c = true :=
  IsTrans.trans (r := idLe) a b c hab hbc

theorem idLe_total (a b : String) : JsString.le a b = true ∨ JsString.le b a = true :=
  Std.Total.total (r := idLe) a b

/-- Exact arithmetic, and the order of the code units. -/
def plainHost : Host where
  power := fun decay hops => decay ^ hops
  times := fun proximity weight => proximity * weight
  numberText := fun q => toString q.num
  collation := ⟨JsString.le, idLe_trans, idLe_total⟩

/-- One seed, and no weights. -/
def seedQuery (limit : ℤ) : SourceWeightedQuery :=
  { seeds := ["a"], sources := { weights := [] }, limit := some limit }

/-- A limit of one returns the seed. -/
theorem retrieveWeighted_limit_one : ∃ graph, importPair = .ok graph ∧
    retrieveWeighted plainHost graph (seedQuery 1) =
      [⟨⟨"a", .file, "a", none, []⟩, 1, 0, 1, "file", 1⟩] ∧
    Retrieval plainHost graph (seedQuery 1) (retrieveWeighted plainHost graph (seedQuery 1)) := by
  refine ⟨_, rfl, by decide +kernel, ?_⟩
  exact (retrieveWeighted_iff plainHost _ _ (by decide +kernel)).mpr (Or.inl (by decide))

/-- A limit of zero is no limit. -/
theorem retrieveWeighted_limit_zero : ∃ graph, importPair = .ok graph ∧
    (retrieveWeighted plainHost graph (seedQuery 0)).length = 2 ∧
    ¬ Retrieval plainHost graph (seedQuery 0)
      (retrieveWeighted plainHost graph (seedQuery 0)) := by
  have hpair : ∃ graph, importPair = .ok graph ∧
      (retrieveWeighted plainHost graph (seedQuery 0)).length = 2 :=
    ⟨_, rfl, by decide +kernel⟩
  obtain ⟨graph, hgraph, htwo⟩ := hpair
  refine ⟨graph, hgraph, htwo, fun h => ?_⟩
  have hlength := h.length
  rw [htwo] at hlength
  exact absurd hlength (by decide)

end CodeGraph
end Batiste
