import Batiste.ArraySort
import Batiste.FirmMemory

/-! The marketplace of nodes: the registry, `NodeDiscovery.search` and `RoutingLayer.route`. -/
namespace Batiste
namespace Marketplace

open ArraySort
open FirmMemory (sliceTo)

inductive NodeStatus
  | online
  | standby
  | offline
  | degraded
  deriving DecidableEq, Repr

structure NodeRecord where
  id : String
  capabilities : List String
  pricePerCycle : ℚ
  creatorId : String
  tags : List String
  status : NodeStatus
  registeredAt : String
  /-- Rolling 1h latency average, ms -/
  latencyMs : Option ℚ
  /-- Rolling 1h reliability 0–1 -/
  reliability : ℚ
  deriving DecidableEq, Repr

/-! ## The registry -/

/-- The rows of the table; the id is the key. -/
structure NodeRegistry where
  rows : List NodeRecord
  nodup : (rows.map NodeRecord.id).Nodup

structure NodeFilter where
  status : Option NodeStatus := none
  creatorId : Option String := none

def NodeRegistry.list (registry : NodeRegistry) (filter : NodeFilter) : List NodeRecord :=
  (registry.rows.filter fun node =>
    (filter.status.all fun status => decide (node.status = status)) &&
      ((filter.creatorId.filter fun creatorId => creatorId ≠ "").all fun creatorId =>
        decide (node.creatorId = creatorId))).insertionSort fun a b =>
    a.registeredAt ≤ b.registeredAt

theorem NodeRegistry.mem_list {registry : NodeRegistry} {filter : NodeFilter} {node : NodeRecord}
    (h : filter.creatorId = none) : node ∈ registry.list filter ↔
      node ∈ registry.rows ∧ ∀ status, filter.status = some status → node.status = status := by
  unfold NodeRegistry.list
  rw [List.mem_insertionSort, List.mem_filter, h]
  refine and_congr_right fun _ => ?_
  cases filter.status <;> simp

/-! ## Discovery -/

structure NodeDiscoveryQuery where
  capability : Option String := none
  tags : Option (List String) := none
  maxPricePerCycle : Option ℚ := none
  status : Option NodeStatus := none
  limit : Option JsNumber := none

/-- An empty capability asks for none. -/
def NodeDiscoveryQuery.accepts (query : NodeDiscoveryQuery) (node : NodeRecord) : Bool :=
  ((query.capability.filter fun capability => capability ≠ "").all node.capabilities.contains) &&
    ((query.tags.getD []).all node.tags.contains) &&
      query.maxPricePerCycle.all fun price => decide (node.pricePerCycle ≤ price)

def statusOrder : NodeStatus → ℤ
  | .online => 0
  | .standby => 1
  | _ => 2

/-- Within this much two reliabilities count as the same. -/
def TOLERANCE : ℚ := 1 / 100

/-- `la - lb`, where an unknown latency is infinite. -/
def latencyDiff : Option ℚ → Option ℚ → JsNumber
  | some la, some lb => .finite (la - lb)
  | some _, none => .infinity true
  | none, some _ => .infinity false
  | none, none => .nan

/-- Online nodes first, then higher reliability, then lower latency. -/
def compare (a b : NodeRecord) : JsNumber :=
  let so := statusOrder a.status - statusOrder b.status
  if so ≠ 0 then .finite so
  else
    let relDiff := b.reliability - a.reliability
    if TOLERANCE < |relDiff| then .finite relDiff else latencyDiff a.latencyMs b.latencyMs

section Layers

variable (sorter : Sorter) (registry : NodeRegistry)

/-- The nodes that a search is about, in the order of their registration. -/
def candidates (query : NodeDiscoveryQuery) : List NodeRecord :=
  (registry.list { status := query.status }).filter query.accepts

def search (query : NodeDiscoveryQuery) : List NodeRecord :=
  let results := sorter.sort compare (candidates registry query)
  match query.limit with
  | some limit => if limit.truthy then sliceTo limit results else results
  | none => results

def findByCapability (capability : String) : List NodeRecord :=
  search sorter registry { capability := some capability, status := some .online }

def findAvailable : List NodeRecord := search sorter registry { status := some .online }

/-! ## Routing -/

/-- What `RouteRequestSchema` lets through. -/
structure RouteRequest where
  capability : String
  preferTags : Option (List String) := none
  maxPricePerCycle : Option ℚ := none
  capability_ne : capability ≠ ""

structure RoutedNode where
  node : NodeRecord
  score : ℚ

def WEIGHT_RELIABILITY : ℚ := 1 / 2
def WEIGHT_LATENCY : ℚ := 3 / 10
def WEIGHT_PRICE : ℚ := 15 / 100
def WEIGHT_TAG_BONUS : ℚ := 5 / 100

def normalise (value min max : ℚ) : ℚ := if max = min then 0 else (value - min) / (max - min)

/-- `Math.min(...xs)` -/
def minOf (xs : List ℚ) : ℚ := xs.foldl min (xs.headD 0)

/-- `Math.max(...xs)` -/
def maxOf (xs : List ℚ) : ℚ := xs.foldl max (xs.headD 0)

/-- The latency that the routing takes an unknown one for. -/
def latency (node : NodeRecord) : ℚ := node.latencyMs.getD 999

def hasPreferredTag (request : RouteRequest) (node : NodeRecord) : Bool :=
  (request.preferTags.getD []).any node.tags.contains

/-- The composite score of a node among the candidates. -/
def compositeScore (nodes : List NodeRecord) (request : RouteRequest) (node : NodeRecord) : ℚ :=
  let latencies := nodes.map latency
  let prices := nodes.map NodeRecord.pricePerCycle
  let normLat := normalise (latency node) (minOf latencies) (maxOf latencies)
  let normPrice := normalise node.pricePerCycle (minOf prices) (maxOf prices)
  let tagBonus : ℚ := if hasPreferredTag request node then 1 else 0
  node.reliability * WEIGHT_RELIABILITY - normLat * WEIGHT_LATENCY - normPrice * WEIGHT_PRICE +
    tagBonus * WEIGHT_TAG_BONUS

def routeQuery (request : RouteRequest) : NodeDiscoveryQuery where
  capability := some request.capability
  status := some .online
  maxPricePerCycle := request.maxPricePerCycle

def route (request : RouteRequest) : Option RoutedNode :=
  match search sorter registry (routeQuery request) with
  | [] => none
  | [node] => some ⟨node, 1⟩
  | nodes => (sorter.sort (fun a b : RoutedNode => .finite (b.score - a.score))
      (nodes.map fun node => ⟨node, compositeScore nodes request node⟩)).head?

/-- `routeAny`; of equally reliable nodes the first. -/
def routeAny : Option RoutedNode :=
  match findAvailable sorter registry with
  | [] => none
  | first :: rest =>
    let best := rest.foldl (fun a b => if b.reliability ≤ a.reliability then a else b) first
    some ⟨best, best.reliability⟩

end Layers

/-! Whether what `NodeDiscovery.search` returns is sorted: the comparator counts reliabilities
within a tolerance as the same, which is no equivalence. -/

/-! ## The preference -/

/-- An unknown latency is behind every known one. -/
def latencyKey : Option ℚ → WithTop ℚ
  | some la => la
  | none => ⊤

/-- Reliabilities that the comparator takes for the same. -/
def Close (a b : NodeRecord) : Prop := |b.reliability - a.reliability| ≤ TOLERANCE

/-- `a` is strictly preferred to `b`. -/
def Prefers (a b : NodeRecord) : Prop :=
  statusOrder a.status < statusOrder b.status ∨ statusOrder a.status = statusOrder b.status ∧
    (b.reliability + TOLERANCE < a.reliability ∨
      Close a b ∧ latencyKey a.latencyMs < latencyKey b.latencyMs)

theorem latencyDiff_neg (la lb : Option ℚ) :
    (latencyDiff la lb).ltNat 0 = true ↔ latencyKey la < latencyKey lb := by
  cases la <;> cases lb <;> simp [latencyDiff, latencyKey, JsNumber.ltNat]

theorem latencyDiff_pos (la lb : Option ℚ) :
    (latencyDiff la lb).natLt 0 = true ↔ latencyKey lb < latencyKey la := by
  cases la <;> cases lb <;> simp [latencyDiff, latencyKey, JsNumber.natLt]

theorem tolerance_pos : 0 < TOLERANCE := by norm_num [TOLERANCE]

theorem close_comm {a b : NodeRecord} : Close a b ↔ Close b a := by
  rw [Close, Close, abs_sub_comm]

theorem not_close_iff {a b : NodeRecord} : ¬ Close a b ↔
    b.reliability + TOLERANCE < a.reliability ∨ a.reliability + TOLERANCE < b.reliability := by
  rw [Close, not_le, lt_abs]
  constructor
  · rintro (h | h)
    · exact .inr (by linarith)
    · exact .inl (by linarith)
  · rintro (h | h)
    · exact .inr (by linarith)
    · exact .inl (by linarith)

theorem less_iff (a b : NodeRecord) : Less compare a b ↔ Prefers a b := by
  unfold Less Prefers compare
  dsimp only
  by_cases hstatus : statusOrder a.status = statusOrder b.status
  · rw [if_neg (by simp [hstatus])]
    by_cases hclose : Close a b
    · have hclose' := hclose
      rw [Close, abs_le] at hclose'
      rw [if_neg (not_lt.mpr hclose), latencyDiff_neg]
      have hrel : ¬ b.reliability + TOLERANCE < a.reliability := by linarith
      simp [hstatus, hclose, hrel]
    · have hfar := not_close_iff.mp hclose
      rw [if_pos (not_le.mp hclose)]
      have htol := tolerance_pos
      have hiff : b.reliability - a.reliability < 0 ↔
          b.reliability + TOLERANCE < a.reliability := by
        constructor
        · intro hneg
          rcases hfar with hfar | hfar
          · exact hfar
          · linarith
        · intro hlt
          linarith
      simpa [hstatus, hclose, JsNumber.ltNat] using hiff
  · rw [if_pos (by omega)]
    simp [hstatus, JsNumber.ltNat]

/-- The comparator turns round with its arguments. -/
theorem greater_iff (a b : NodeRecord) : Greater compare a b ↔ Less compare b a := by
  unfold Greater Less compare
  dsimp only
  by_cases hstatus : statusOrder a.status = statusOrder b.status
  · have hab : ¬ statusOrder a.status - statusOrder b.status ≠ 0 := by omega
    have hba : ¬ statusOrder b.status - statusOrder a.status ≠ 0 := by omega
    rw [if_neg hab, if_neg hba, abs_sub_comm]
    by_cases hclose : TOLERANCE < |a.reliability - b.reliability|
    · rw [if_pos hclose, if_pos hclose]
      simp [JsNumber.natLt, JsNumber.ltNat]
    · rw [if_neg hclose, if_neg hclose, latencyDiff_pos, latencyDiff_neg]
  · rw [if_pos (by omega), if_pos (by omega)]
    simp [JsNumber.natLt, JsNumber.ltNat]

theorem Prefers.asymm {a b : NodeRecord} (h : Prefers a b) : ¬ Prefers b a := by
  have htol := tolerance_pos
  rintro (hstatus | ⟨hstatus, hback⟩)
  · rcases h with hless | ⟨hsame, -⟩
    · omega
    · omega
  · rcases h with hless | ⟨-, hrel | ⟨hclose, hlat⟩⟩
    · omega
    · rcases hback with hback | ⟨hback, -⟩
      · linarith
      · exact not_close_iff.mpr (.inr hrel) hback
    · rcases hback with hback | ⟨-, hback⟩
      · exact not_close_iff.mpr (.inr hback) hclose
      · exact lt_asymm hlat hback

/-! ## Triples that drift apart -/

/-- Each is within the tolerance of the next but the first is not of the last, while the latencies
do not put the three in this order as well. -/
structure Drifting (a b c : NodeRecord) : Prop where
  status : statusOrder a.status = statusOrder b.status ∧ statusOrder b.status = statusOrder c.status
  first : a.reliability ≤ b.reliability + TOLERANCE
  last : b.reliability ≤ c.reliability + TOLERANCE
  apart : c.reliability + TOLERANCE < a.reliability
  latency_first : ¬ latencyKey a.latencyMs < latencyKey b.latencyMs
  latency_last : ¬ latencyKey b.latencyMs < latencyKey c.latencyMs

theorem Drifting.not_between {a b c : NodeRecord} (h : Drifting a b c) :
    Prefers a c ∧ ¬ Prefers a b ∧ ¬ Prefers b c := by
  obtain ⟨hab, hbc⟩ := h.status
  refine ⟨.inr ⟨hab.trans hbc, .inl h.apart⟩, ?_, ?_⟩
  · rintro (hless | ⟨-, hrel | ⟨-, hlat⟩⟩)
    · omega
    · exact absurd h.first (not_le.mpr hrel)
    · exact h.latency_first hlat
  · rintro (hless | ⟨-, hrel | ⟨-, hlat⟩⟩)
    · omega
    · exact absurd h.last (not_le.mpr hrel)
    · exact h.latency_last hlat

/-- What not being preferred says among nodes of one status. -/
theorem not_prefers {a b : NodeRecord} (hstatus : statusOrder a.status = statusOrder b.status)
    (h : ¬ Prefers a b) : a.reliability ≤ b.reliability + TOLERANCE ∧
      (b.reliability ≤ a.reliability + TOLERANCE →
        ¬ latencyKey a.latencyMs < latencyKey b.latencyMs) := by
  have hrel : ¬ b.reliability + TOLERANCE < a.reliability := fun hrel =>
    h (.inr ⟨hstatus, .inl hrel⟩)
  refine ⟨not_lt.mp hrel, fun hback hlat => h (.inr ⟨hstatus, .inr ⟨?_, hlat⟩⟩)⟩
  by_contra hfar
  rcases not_close_iff.mp hfar with hfar | hfar
  · exact hrel hfar
  · exact absurd hback (not_le.mpr hfar)

/-- A third node that is neither behind the first nor before the last makes a triple that drifts
apart, with one of the three in the middle. -/
theorem drifting_of_not_between {a b c : NodeRecord} (hac : Prefers a c) (hab : ¬ Prefers a b)
    (hbc : ¬ Prefers b c) : Drifting a b c ∨ Drifting b c a ∨ Drifting c a b := by
  have hstatus : statusOrder a.status = statusOrder b.status ∧
      statusOrder b.status = statusOrder c.status := by
    have hle : statusOrder a.status ≤ statusOrder c.status := by
      rcases hac with hac | hac
      · exact hac.le
      · exact hac.1.le
    have hba : ¬ statusOrder a.status < statusOrder b.status := fun hlt => hab (.inl hlt)
    have hcb : ¬ statusOrder b.status < statusOrder c.status := fun hlt => hbc (.inl hlt)
    omega
  obtain ⟨hab', hbc'⟩ := hstatus
  obtain ⟨hfirst, hlatFirst⟩ := not_prefers hab' hab
  obtain ⟨hlast, hlatLast⟩ := not_prefers hbc' hbc
  have htol := tolerance_pos
  rcases hac with hac | ⟨-, hrel | ⟨hclose, hlat⟩⟩
  · omega
  · exact .inl ⟨⟨hab', hbc'⟩, hfirst, hlast, hrel, hlatFirst (by linarith), hlatLast (by linarith)⟩
  · obtain ⟨hca, hac⟩ := abs_le.mp hclose
    by_cases hba : b.reliability ≤ a.reliability + TOLERANCE
    · by_cases hcb : c.reliability ≤ b.reliability + TOLERANCE
      · exact absurd (lt_of_lt_of_le hlat (not_lt.mp (hlatLast hcb))) (hlatFirst hba)
      · refine .inr (.inr ⟨⟨by omega, by omega⟩, by linarith, hfirst, by linarith, hlat.asymm, ?_⟩)
        exact hlatFirst hba
    · refine .inr (.inl ⟨⟨by omega, by omega⟩, hlast, by linarith, by linarith, ?_, hlat.asymm⟩)
      exact hlatLast (by linarith)

/-- Among nodes without such a triple, and only among these, the preference is an order. -/
theorem strictWeakOn_prefers_iff (nodes : List NodeRecord) :
    StrictWeakOn (Less compare) nodes ↔
      ∀ a ∈ nodes, ∀ b ∈ nodes, ∀ c ∈ nodes, ¬ Drifting a b c := by
  constructor
  · intro h a ha b hb c hc hdrift
    obtain ⟨hac, hab, hbc⟩ := hdrift.not_between
    simp only [← less_iff] at hac hab hbc
    exact (h.between ha hb hc hac).elim hab hbc
  · intro h
    refine strictWeakOn_of_between ?_ ?_
    · intro a _ b _ hab
      rw [less_iff] at hab ⊢
      exact hab.asymm
    · intro a ha b hb c hc hac
      simp only [less_iff] at hac ⊢
      by_contra hnone
      obtain ⟨hab, hbc⟩ := not_or.mp hnone
      rcases drifting_of_not_between hac hab hbc with hdrift | hdrift | hdrift
      · exact h a ha b hb c hc hdrift
      · exact h b hb c hc a ha hdrift
      · exact h c hc a ha b hb hdrift

/-! ## The results -/

section Results

variable (sorter : Sorter) (registry : NodeRegistry) (query : NodeDiscoveryQuery)

theorem sliceTo_sublist {α : Type} (x : JsNumber) (xs : List α) :
    (FirmMemory.sliceTo x xs).Sublist xs := by
  unfold FirmMemory.sliceTo
  split
  · split_ifs
    · exact List.take_sublist _ _
    · exact List.take_sublist _ _
  · exact List.nil_sublist _
  · split_ifs
    · exact List.nil_sublist _
    · exact .refl _

theorem search_sublist :
    (search sorter registry query).Sublist (sorter.sort compare (candidates registry query)) := by
  unfold search
  dsimp only
  split
  · split_ifs
    · exact sliceTo_sublist _ _
    · exact .refl _
  · exact .refl _

theorem search_sorted (h : StrictWeakOn (Less compare) (candidates registry query)) :
    (search sorter registry query).Pairwise fun a b => ¬ Prefers b a := by
  have hsorted := sorter.sorted compare (candidates registry query) (h.consistent greater_iff)
  have hsub := hsorted.sublist (search_sublist sorter registry query)
  exact hsub.imp fun hba hpref => hba ((less_iff _ _).mpr hpref)

end Results

/-- Three nodes of almost the same reliability; the less reliable of them are the faster ones. -/
def driftingNode (id : String) (reliability latencyMs : ℚ) : NodeRecord where
  id := id
  capabilities := ["review"]
  pricePerCycle := 1
  creatorId := "firm"
  tags := []
  status := .online
  registeredAt := "2026-01-01T00:00:00.000Z"
  latencyMs := some latencyMs
  reliability := reliability

def driftingNodes : List NodeRecord :=
  [driftingNode "a" 1 30, driftingNode "b" (992 / 1000) 20, driftingNode "c" (984 / 1000) 10]

theorem driftingNodes_nodup : (driftingNodes.map NodeRecord.id).Nodup := by decide

def driftingRegistry : NodeRegistry := ⟨driftingNodes, driftingNodes_nodup⟩

theorem foldl_min_le (xs : List ℚ) (start : ℚ) :
    xs.foldl min start ≤ start ∧ ∀ x ∈ xs, xs.foldl min start ≤ x := by
  induction xs generalizing start with
  | nil => simp
  | cons x xs ih =>
    obtain ⟨hstart, hrest⟩ := ih (min start x)
    refine ⟨hstart.trans (min_le_left _ _), fun y hy => ?_⟩
    rcases List.mem_cons.mp hy with rfl | hy
    · exact hstart.trans (min_le_right _ _)
    · exact hrest y hy

theorem le_foldl_max (xs : List ℚ) (start : ℚ) :
    start ≤ xs.foldl max start ∧ ∀ x ∈ xs, x ≤ xs.foldl max start := by
  induction xs generalizing start with
  | nil => simp
  | cons x xs ih =>
    obtain ⟨hstart, hrest⟩ := ih (max start x)
    refine ⟨(le_max_left _ _).trans hstart, fun y hy => ?_⟩
    rcases List.mem_cons.mp hy with rfl | hy
    · exact (le_max_right _ _).trans hstart
    · exact hrest y hy

theorem minOf_le_maxOf (xs : List ℚ) : minOf xs ≤ maxOf xs :=
  (foldl_min_le xs _).1.trans (le_foldl_max xs _).1

theorem normalise_mono {min max x y : ℚ} (hrange : min ≤ max) (hxy : x ≤ y) :
    normalise x min max ≤ normalise y min max := by
  unfold normalise
  split_ifs with hequal
  · exact le_refl _
  · exact div_le_div_of_nonneg_right (by linarith) (by linarith)

/-! ## The score -/

section Scores

variable {request : RouteRequest} {a b : NodeRecord}

/-- Better on reliability, latency and price, and with a preferred tag where `b` has one. -/
structure Beats (request : RouteRequest) (a b : NodeRecord) : Prop where
  reliability : b.reliability < a.reliability
  latency : latency a < latency b
  price : a.pricePerCycle < b.pricePerCycle
  tags : hasPreferredTag request b = true → hasPreferredTag request a = true

theorem Beats.compositeScore_lt (h : Beats request a b) (nodes : List NodeRecord) :
    compositeScore nodes request b < compositeScore nodes request a := by
  have hlat := normalise_mono (minOf_le_maxOf (nodes.map Marketplace.latency)) h.latency.le
  have hprice := normalise_mono (minOf_le_maxOf (nodes.map NodeRecord.pricePerCycle)) h.price.le
  have hrel := h.reliability
  have htag : (if hasPreferredTag request b then 1 else 0 : ℚ) ≤
      if hasPreferredTag request a then 1 else 0 := by
    by_cases hb : hasPreferredTag request b = true
    · rw [if_pos hb, if_pos (h.tags hb)]
    · rw [if_neg hb]
      split_ifs <;> norm_num
  unfold compositeScore
  simp only [WEIGHT_RELIABILITY, WEIGHT_LATENCY, WEIGHT_PRICE, WEIGHT_TAG_BONUS]
  linarith

/-- The comparator of the scores is consistent for every list. -/
theorem byScore_consistent (xs : List RoutedNode) :
    Consistent (fun a b : RoutedNode => .finite (b.score - a.score)) xs := by
  refine StrictWeakOn.consistent (strictWeakOn_of_between ?_ ?_) ?_
  · intro a _ b _ hab
    simp only [Less, JsNumber.ltNat, decide_eq_true_eq] at hab ⊢
    push_cast at hab ⊢
    linarith
  · intro a _ b _ c _ hac
    by_contra hnone
    simp only [Less, JsNumber.ltNat, decide_eq_true_eq, not_or, not_lt] at hac hnone
    push_cast at hac hnone
    linarith [hnone.1, hnone.2]
  · intro a b
    simp [Greater, Less, JsNumber.ltNat, JsNumber.natLt]

end Scores

/-! ## The selected node -/

section Routing

variable (sorter : Sorter) (registry : NodeRegistry) (request : RouteRequest)

/-- The registered nodes that a request may go to. -/
structure Eligible (node : NodeRecord) : Prop where
  registered : node ∈ registry.rows
  online : node.status = .online
  capability : request.capability ∈ node.capabilities
  price : ∀ price, request.maxPricePerCycle = some price → node.pricePerCycle ≤ price

theorem mem_search_routeQuery {node : NodeRecord} :
    node ∈ search sorter registry (routeQuery request) ↔ Eligible registry request node := by
  have hcapability : (some request.capability).filter (fun capability => capability ≠ "") =
      some request.capability := by
    simp [Option.filter, request.capability_ne]
  have hsearch : node ∈ search sorter registry (routeQuery request) ↔
      node ∈ candidates registry (routeQuery request) := sorter.mem_sort
  rw [hsearch, candidates, List.mem_filter, NodeRegistry.mem_list rfl, NodeDiscoveryQuery.accepts]
  simp only [routeQuery, hcapability, Option.all_some, Option.getD_none, List.all_nil,
    Bool.and_true, Bool.and_eq_true, List.contains_iff_mem, Option.some.injEq, forall_eq']
  constructor
  · rintro ⟨⟨hrow, honline⟩, hcapable, hprice⟩
    refine ⟨hrow, honline, hcapable, fun price hsome => ?_⟩
    simpa [hsome] using hprice
  · rintro ⟨hrow, honline, hcapable, hprice⟩
    refine ⟨⟨hrow, honline⟩, hcapable, ?_⟩
    cases hmax : request.maxPricePerCycle with
    | none => rfl
    | some price => simpa using hprice price hmax

/-- The first of the nodes in the order of their scores is one of the greatest score. -/
theorem head_byScore {nodes : List NodeRecord} {routed : RoutedNode}
    (h : (sorter.sort (fun a b : RoutedNode => .finite (b.score - a.score))
      (nodes.map fun node => ⟨node, compositeScore nodes request node⟩)).head? = some routed) :
    routed.node ∈ nodes ∧ ∀ other ∈ nodes,
      compositeScore nodes request other ≤ compositeScore nodes request routed.node := by
  obtain ⟨hrouted, hbest⟩ := sorter.head_sort (byScore_consistent _) h
  obtain ⟨node, hnode, rfl⟩ := List.mem_map.mp hrouted
  refine ⟨hnode, fun other hother => ?_⟩
  have hless := hbest _ (List.mem_map_of_mem hother)
  simp only [Less, JsNumber.ltNat, decide_eq_true_eq, not_lt] at hless
  push_cast at hless
  linarith

/-- What the three branches of `route` have in common. -/
theorem route_spec :
    (∀ routed, route sorter registry request = some routed →
      routed.node ∈ search sorter registry (routeQuery request) ∧
      ∀ other ∈ search sorter registry (routeQuery request),
        compositeScore (search sorter registry (routeQuery request)) request other ≤
          compositeScore (search sorter registry (routeQuery request)) request routed.node) ∧
    (route sorter registry request = none ↔ search sorter registry (routeQuery request) = []) := by
  unfold route
  cases hnodes : search sorter registry (routeQuery request) with
  | nil => simp
  | cons first rest =>
    cases rest with
    | nil =>
      constructor
      · rintro routed ⟨rfl⟩
        simp
      · simp
    | cons second rest =>
      refine ⟨fun routed hrouted => head_byScore sorter request hrouted, ?_⟩
      constructor
      · intro hnone
        have hperm := sorter.perm (fun a b : RoutedNode => .finite (b.score - a.score))
          ((first :: second :: rest).map fun node =>
            ⟨node, compositeScore (first :: second :: rest) request node⟩)
        rw [List.head?_eq_none_iff.mp hnone] at hperm
        exact absurd hperm.length_eq (by simp)
      · intro hnil
        exact absurd hnil (List.cons_ne_nil _ _)

/-- A request is routed where some node is eligible, to an eligible node of the greatest composite
score; no eligible node beats it. -/
theorem route_optimal :
    (∀ routed, route sorter registry request = some routed →
      Eligible registry request routed.node ∧
      ∀ other, Eligible registry request other →
        compositeScore (search sorter registry (routeQuery request)) request other ≤
            compositeScore (search sorter registry (routeQuery request)) request routed.node ∧
          ¬ Beats request other routed.node) ∧
    (route sorter registry request = none ↔ ∀ node, ¬ Eligible registry request node) := by
  obtain ⟨hsome, hnone⟩ := route_spec sorter registry request
  constructor
  · intro routed hrouted
    obtain ⟨hnode, hbest⟩ := hsome routed hrouted
    refine ⟨(mem_search_routeQuery ..).mp hnode, fun other hother => ?_⟩
    have hscore := hbest other ((mem_search_routeQuery ..).mpr hother)
    exact ⟨hscore, fun hbeats => absurd hscore (not_le.mpr (hbeats.compositeScore_lt _))⟩
  · rw [hnone, List.eq_nil_iff_forall_not_mem]
    exact forall_congr' fun node => (mem_search_routeQuery ..).not

end Routing

end Marketplace
end Batiste
