import Batiste.CodeGraph
import Batiste.Grouping
import Batiste.JsString

/-! `CommunityDetectionClusterer`: the communities that Louvain finds, as an overlay of clusters. -/
namespace Batiste
namespace CodeGraph

open Grouping

/-! ## The simple graph that Louvain runs on -/

structure WeightedEdge where
  source : String
  target : String
  weight : ℕ
  deriving DecidableEq, Repr

/-- An edge of an undirected graph, in either direction. -/
def WeightedEdge.joins (e : WeightedEdge) (source target : String) : Bool :=
  decide (e.source = source ∧ e.target = target ∨ e.source = target ∧ e.target = source)

namespace Graph

variable (graph : Graph)

/-- `nodes()` -/
def nodeIds : List String := graph.sortedNodeIds

/-- `edges()`, in the order of the edge ids. -/
def edgesSorted : List Edge := graph.g.edges.insertionSort fun a b => JsString.le a.id b.id = true

end Graph

def toGraphology (graph : Graph) (nodeIds : List String) : List WeightedEdge :=
  graph.edgesSorted.foldl (fun g e =>
    if e.source = e.target then g
    else if e.source ∉ nodeIds ∨ e.target ∉ nodeIds then g
    else if g.any fun w => w.joins e.source e.target then
      g.map fun w => if w.joins e.source e.target then { w with weight := w.weight + 1 } else w
    else g ++ [⟨e.source, e.target, 1⟩]) []

/-! ## Running Louvain -/

/-- What `louvain.detailed` returns; a modularity that is not finite is none. -/
structure Detailed where
  communities : Dict ℤ
  modularity : Option ℚ

/-- The library, by the nodes, the edges, the seed of its random numbers and the resolution. -/
abbrev Louvain := List String → List WeightedEdge → ℤ → ℚ → Detailed

structure LouvainRunResult where
  mapping : Dict ℤ
  modularity : ℚ
  resolutionUsed : ℚ

structure ClustererInput where
  graph : Graph
  algorithm : Option String := none
  seed : Option ℤ := none
  resolution : Option ℚ := none
  targetSize : Option ℚ := none

def DEFAULT_RESOLUTION : ℚ := 1

def TARGET_SIZE_MAX_ITERATIONS : ℕ := 6

def TARGET_SIZE_TOLERANCE : ℚ := 1 / 4

def countCommunities (mapping : Dict ℤ) : ℕ := (mapping.map Prod.snd).dedup.length

/-- `Math.round` -/
def round (q : ℚ) : ℤ := ⌊q + 1 / 2⌋

/-- The distance of a run from the desired number of clusters. -/
def countDelta (desiredClusterCount : ℤ) (r : LouvainRunResult) : ℤ :=
  |(countCommunities r.mapping : ℤ) - desiredClusterCount|

/-- The search for a resolution whose clusters have about the target size. -/
def tune (runOnce : ℚ → LouvainRunResult) (totalNodes : ℕ) (targetSize : ℚ)
    (desiredClusterCount : ℤ) : ℕ → ℚ → LouvainRunResult → LouvainRunResult
  | 0, _, result => result
  | n + 1, resolution, result =>
    let observedAvg : ℚ := totalNodes / (max 1 (countCommunities result.mapping) : ℕ)
    if |observedAvg / targetSize - 1| ≤ TARGET_SIZE_TOLERANCE then result
    else
      let resolution := if targetSize < observedAvg then resolution * (3 / 2)
        else resolution / (3 / 2)
      let next := runOnce resolution
      let result :=
        if countDelta desiredClusterCount next ≤ countDelta desiredClusterCount result then next
        else result
      tune runOnce totalNodes targetSize desiredClusterCount n resolution result

def runLouvainWithTargetSize (louvain : Louvain) (input : ClustererInput)
    (nodeIds : List String) : LouvainRunResult :=
  let gGraph := toGraphology input.graph nodeIds
  let initialResolution := input.resolution.getD DEFAULT_RESOLUTION
  if gGraph.length = 0 then
    { mapping := nodeIds.zipIdx.foldl (fun mapping e => mapping.set e.1 (e.2 : ℤ)) []
      modularity := 0
      resolutionUsed := initialResolution }
  else
    let runOnce := fun resolution =>
      let detailed := louvain nodeIds gGraph (input.seed.getD 0) resolution
      { mapping := detailed.communities
        modularity := detailed.modularity.getD 0
        resolutionUsed := resolution : LouvainRunResult }
    let result := runOnce initialResolution
    match input.targetSize with
    | none => result
    | some targetSize =>
      if targetSize ≤ 0 then result
      else tune runOnce nodeIds.length targetSize (max 1 (round (nodeIds.length / targetSize)))
        TARGET_SIZE_MAX_ITERATIONS initialResolution result

/-! ## Cohesion, labels and ids -/

/-- The edges inside each community, and those that leave it. -/
structure EdgeCounts where
  intra : ℤ → ℕ
  inter : ℤ → ℕ

def bump (m : ℤ → ℕ) (key : ℤ) : ℤ → ℕ := Function.update m key (m key + 1)

def countEdges (graph : Graph) (mapping : Dict ℤ) : EdgeCounts :=
  graph.edgesSorted.foldl (fun counts e =>
    if e.source = e.target then counts
    else
      match mapping.get? e.source, mapping.get? e.target with
      | some a, some b =>
        if a = b then { counts with intra := bump counts.intra a }
        else { counts with inter := bump (bump counts.inter a) b }
      | _, _ => counts) ⟨fun _ => 0, fun _ => 0⟩

def cohesionOf (counts : EdgeCounts) (community : ℤ) : ℚ :=
  let intra := counts.intra community
  let inter := counts.inter community
  if intra + inter = 0 then 0 else intra / (intra + inter : ℕ)

variable (sha256 : String → String)

def joined (sortedMembers : List String) : String := "|".intercalate sortedMembers

/-- The first 16 hex digits of the hash. -/
def shortHash (s : String) : String := String.ofList ((sha256 s).toList.take 16)

def deriveClusterId (sortedMembers : List String) : String :=
  "cluster:" ++ shortHash sha256 (joined sortedMembers)

/-- The segments that all paths share, the last segment of the first one left out. -/
def commonSegments : List String → List (List String) → List String
  | segment :: next :: rest, paths =>
    if paths.all fun parts => parts.head? == some segment then
      segment :: commonSegments (next :: rest) (paths.map List.tail)
    else []
  | _, _ => []

def commonDirectoryPrefix (paths : List String) : String :=
  let split := paths.map fun p => p.splitOn "/"
  "/".intercalate (commonSegments (split.headD []) split)

def nonemptyText : Scalar → Option String
  | .text s => if s = "" then none else some s
  | _ => none

/-- The topics of the documents and facts with their counts, in the order they appear. -/
def topicCounts (memberNodes : List Node) : List (String × List Node) :=
  groupBy (fun n => ((n.metadata.get? "topic").bind nonemptyText).getD "")
    (memberNodes.filter fun n => (n.kind = .doc ∨ n.kind = .fact) ∧
      ((n.metadata.get? "topic").bind nonemptyText).isSome)

/-- `cluster-` and the last six characters of the id. -/
def fallbackLabel (cId : String) : String :=
  "cluster-" ++ String.ofList (cId.toList.drop (cId.length - 6))

def labelFor (memberNodes : List Node) (cId : String) : String :=
  let fileLikePaths := (memberNodes.filter fun n => n.kind = .file ∨ n.kind = .symbol).filterMap
    Node.path
  let prefix_ := commonDirectoryPrefix fileLikePaths
  if fileLikePaths.length = memberNodes.length ∧ fileLikePaths ≠ [] ∧ prefix_ ≠ "" then
    if prefix_.endsWith "/" then prefix_ else prefix_ ++ "/"
  else
    let sortedTopics := (topicCounts memberNodes).insertionSort fun a b =>
      b.2.length < a.2.length ∨ b.2.length = a.2.length ∧ JsString.le a.1 b.1 = true
    match sortedTopics with
    | (topic, _) :: _ => topic
    | [] => fallbackLabel cId

/-! ## The overlay -/

structure RichClusterOverlay where
  clusters : List Cluster
  assignment : Dict String
  algorithm : String
  modularityScore : ℚ

structure Community where
  community : ℤ
  members : List String
  cId : String

/-- `mapping[nid] ?? 0` -/
def communityOf (mapping : Dict ℤ) (nid : String) : ℤ := (mapping.get? nid).getD 0

/-- The communities with their sorted members and ids. -/
def communities (mapping : Dict ℤ) (nodeIds : List String) : List Community :=
  (groupBy (communityOf mapping) nodeIds).map fun g =>
    let sortedMembers := g.2.insertionSort fun a b => JsString.le a b = true
    ⟨g.1, sortedMembers, deriveClusterId sha256 sortedMembers⟩

def ordered (mapping : Dict ℤ) (nodeIds : List String) : List Community :=
  (communities sha256 mapping nodeIds).insertionSort fun a b => JsString.le a.cId b.cId = true

def toCluster (graph : Graph) (counts : EdgeCounts) (c : Community) : Cluster where
  id := c.cId
  label := labelFor (c.members.filterMap graph.node) c.cId
  members := c.members
  cohesion := some (cohesionOf counts c.community)

/-- Each member of each community with the id of its community, set one after another. -/
def assign (entries : List Community) : Dict String :=
  entries.foldl (fun assignment c =>
    c.members.foldl (fun assignment m => assignment.set m c.cId) assignment) []

def algorithmTag (input : ClustererInput) : String :=
  if input.algorithm.getD "louvain" = "leiden" then "louvain-leiden-fallback" else "louvain"

def cluster (louvain : Louvain) (input : ClustererInput) : RichClusterOverlay :=
  let graph := input.graph
  let nodeIds := graph.nodeIds
  if graph.nodeCount = 0 then ⟨[], [], algorithmTag input, 0⟩
  else
    match nodeIds with
    | [onlyId] =>
      let cId := deriveClusterId sha256 [onlyId]
      ⟨[⟨cId, labelFor ([onlyId].filterMap graph.node) cId, [onlyId], some 1⟩], [(onlyId, cId)],
        algorithmTag input, 0⟩
    | _ =>
      let run := runLouvainWithTargetSize louvain input nodeIds
      let entries := ordered sha256 run.mapping nodeIds
      { clusters := entries.map (toCluster graph (countEdges graph run.mapping))
        assignment := assign entries
        algorithm := algorithmTag input
        modularityScore := run.modularity }

/-! ## The communities -/

section Communities

variable (mapping : Dict ℤ) (nodeIds : List String)

/-- The sorted members of the community of a node. -/
def membersOf (n : String) : List String :=
  (nodeIds.filter fun m => decide (communityOf mapping m = communityOf mapping n)).insertionSort
    fun a b => JsString.le a b = true

/-- Nodes of different communities have communities that are joined to different texts. -/
def Separated : Prop :=
  ∀ a ∈ nodeIds, ∀ b ∈ nodeIds,
    joined (membersOf mapping nodeIds a) = joined (membersOf mapping nodeIds b) →
      communityOf mapping a = communityOf mapping b

/-- A community is that of a node. -/
theorem community_of_mem {c : Community} (hc : c ∈ communities sha256 mapping nodeIds) :
    ∃ n ∈ nodeIds, c.community = communityOf mapping n ∧ c.members = membersOf mapping nodeIds n ∧
      c.cId = deriveClusterId sha256 (membersOf mapping nodeIds n) := by
  obtain ⟨g, hg, rfl⟩ := List.mem_map.mp hc
  have hgrouped := grouped (communityOf mapping) nodeIds
  obtain ⟨hitems, hne⟩ := hgrouped.items g hg
  obtain ⟨n, hn⟩ := List.exists_mem_of_ne_nil _ hne
  obtain ⟨hn, hkey⟩ := (hgrouped.mem_iff hg).mp hn
  have hmembers : g.2.insertionSort (fun a b => JsString.le a b = true) =
      membersOf mapping nodeIds n := by
    rw [membersOf, hitems, hkey]
  exact ⟨n, hn, hkey.symm, hmembers, by rw [← hmembers]⟩

theorem exists_community {n : String} (hn : n ∈ nodeIds) :
    ∃ c ∈ communities sha256 mapping nodeIds, c.community = communityOf mapping n ∧
      c.cId = deriveClusterId sha256 (membersOf mapping nodeIds n) := by
  obtain ⟨g, hg, hkey⟩ := List.mem_map.mp ((grouped (communityOf mapping) nodeIds).covers n hn)
  have hitems := ((grouped (communityOf mapping) nodeIds).items g hg).1
  refine ⟨_, List.mem_map.mpr ⟨g, hg, rfl⟩, hkey, ?_⟩
  rw [membersOf, ← hkey, ← hitems]

theorem communities_keys :
    ((communities sha256 mapping nodeIds).map Community.community).Nodup := by
  have hkeys := (grouped (communityOf mapping) nodeIds).keys
  rw [communities, List.map_map]
  exact hkeys

theorem mem_members_iff {c : Community} (hc : c ∈ communities sha256 mapping nodeIds)
    {m : String} : m ∈ c.members ↔ m ∈ nodeIds ∧ communityOf mapping m = c.community := by
  obtain ⟨n, -, hkey, hmembers, -⟩ := community_of_mem sha256 mapping nodeIds hc
  rw [hmembers, membersOf, List.mem_insertionSort, List.mem_filter, hkey, decide_eq_true_iff]

/-- The ids are distinct exactly when the joined texts are. -/
theorem ids_nodup_iff (hhash : ∀ a ∈ nodeIds, ∀ b ∈ nodeIds,
      shortHash sha256 (joined (membersOf mapping nodeIds a)) =
        shortHash sha256 (joined (membersOf mapping nodeIds b)) →
      joined (membersOf mapping nodeIds a) = joined (membersOf mapping nodeIds b)) :
    ((communities sha256 mapping nodeIds).map Community.cId).Nodup ↔
      Separated mapping nodeIds := by
  have hkeys := communities_keys sha256 mapping nodeIds
  have hinj := (List.nodup_map_iff_inj_on hkeys.of_map).mp hkeys
  rw [List.nodup_map_iff_inj_on hkeys.of_map]
  constructor
  · intro h a ha b hb hjoined
    obtain ⟨c, hc, hca, hida⟩ := exists_community sha256 mapping nodeIds ha
    obtain ⟨d, hd, hdb, hidb⟩ := exists_community sha256 mapping nodeIds hb
    have hids : c.cId = d.cId := by rw [hida, hidb, deriveClusterId, deriveClusterId, hjoined]
    rw [← hca, ← hdb, h c hc d hd hids]
  · intro h c hc d hd hids
    obtain ⟨a, ha, hca, -, hida⟩ := community_of_mem sha256 mapping nodeIds hc
    obtain ⟨b, hb, hdb, -, hidb⟩ := community_of_mem sha256 mapping nodeIds hd
    rw [hida, hidb, deriveClusterId, deriveClusterId, String.append_right_inj] at hids
    refine hinj c hc d hd ?_
    rw [hca, hdb]
    exact h a ha b hb (hhash a ha b hb hids)

/-- Ids without the separator are joined to different texts in different communities. -/
theorem separated_of_plain (h : ∀ n ∈ nodeIds, '|' ∉ n.toList) : Separated mapping nodeIds := by
  have hmem : ∀ n m, m ∈ membersOf mapping nodeIds n ↔
      m ∈ nodeIds ∧ communityOf mapping m = communityOf mapping n := by
    intro n m
    rw [membersOf, List.mem_insertionSort, List.mem_filter, decide_eq_true_iff]
  have hsplit : ∀ n ∈ nodeIds, ((joined (membersOf mapping nodeIds n)).split '|').toList.map
      String.Slice.copy = membersOf mapping nodeIds n := by
    intro n hn
    have hne : membersOf mapping nodeIds n ≠ [] :=
      List.ne_nil_of_mem ((hmem n n).mpr ⟨hn, rfl⟩)
    have hback := String.toList_split_intercalate (c := '|') (l := membersOf mapping nodeIds n)
      fun m hm => h m ((hmem n m).mp hm).1
    rwa [if_neg hne] at hback
  intro a ha b hb hjoined
  have hsame : membersOf mapping nodeIds a = membersOf mapping nodeIds b := by
    rw [← hsplit a ha, ← hsplit b hb, hjoined]
  exact ((hmem b a).mp (hsame ▸ (hmem a a).mpr ⟨ha, rfl⟩)).2

end Communities

/-! ## The assignment -/

/-- Where a node has one entry at most, it is assigned the id of its entry. -/
theorem get?_assignment {entries : List Community} {n : String}
    (hone : ∀ c ∈ entries, ∀ d ∈ entries, n ∈ c.members → n ∈ d.members → c.cId = d.cId)
    (id : String) :
    (assign entries).get? n = some id ↔ ∃ c ∈ entries, c.cId = id ∧ n ∈ c.members := by
  induction entries using List.reverseRecOn with
  | nil => simp [assign]
  | append_singleton entries last ih =>
    rw [assign, List.foldl_append, List.foldl_cons, List.foldl_nil, get?_foldl_set]
    change (if n ∈ last.members then some last.cId else (assign entries).get? n) = some id ↔ _
    have hrest := ih fun c hc d hd => hone c (List.mem_append_left _ hc) d
      (List.mem_append_left _ hd)
    by_cases hn : n ∈ last.members
    · rw [if_pos hn]
      constructor
      · intro h
        exact ⟨last, by simp, Option.some.inj h, hn⟩
      · rintro ⟨c, hc, rfl, hnc⟩
        rw [hone c hc last (by simp) hnc hn]
    · rw [if_neg hn, hrest]
      constructor
      · rintro ⟨c, hc, hid, hnc⟩
        exact ⟨c, List.mem_append_left _ hc, hid, hnc⟩
      · rintro ⟨c, hc, hid, hnc⟩
        rcases List.mem_append.mp hc with hc | hc
        · exact ⟨c, hc, hid, hnc⟩
        · exact absurd (List.mem_singleton.mp hc ▸ hnc) hn

theorem cohesionOf_mem (counts : EdgeCounts) (community : ℤ) :
    0 ≤ cohesionOf counts community ∧ cohesionOf counts community ≤ 1 := by
  unfold cohesionOf
  dsimp only
  split
  · exact ⟨le_rfl, zero_le_one⟩
  · next hne =>
    have hpos : (0 : ℚ) < (counts.intra community + counts.inter community : ℕ) := by
      exact_mod_cast Nat.pos_of_ne_zero hne
    refine ⟨by positivity, (div_le_one hpos).mpr ?_⟩
    exact_mod_cast Nat.le_add_right _ _

/-! ## What the overlay is -/

structure Partition (nodeIds : List String) (overlay : RichClusterOverlay) : Prop where
  ids : (overlay.clusters.map Cluster.id).Nodup
  covers : ∀ n ∈ nodeIds, overlay.clusters.countP (fun c => decide (n ∈ c.members)) = 1
  members : ∀ c ∈ overlay.clusters, c.members ≠ [] ∧ c.members.Nodup ∧ ∀ n ∈ c.members, n ∈ nodeIds
  assignment : ∀ n id, overlay.assignment.get? n = some id ↔
    ∃ c ∈ overlay.clusters, c.id = id ∧ n ∈ c.members
  cohesion : ∀ c ∈ overlay.clusters, ∃ q, c.cohesion = some q ∧ 0 ≤ q ∧ q ≤ 1

theorem mem_ordered {mapping : Dict ℤ} {nodeIds : List String} {c : Community} :
    c ∈ ordered sha256 mapping nodeIds ↔ c ∈ communities sha256 mapping nodeIds :=
  (List.perm_insertionSort _ _).mem_iff

/-- The overlay of a mapping is a partition but for the ids of its clusters. -/
theorem partition_iff (graph : Graph) (counts : EdgeCounts) (mapping : Dict ℤ)
    {nodeIds : List String} (hnodup : nodeIds.Nodup) (algorithm : String) (modularity : ℚ) :
    Partition nodeIds ⟨(ordered sha256 mapping nodeIds).map (toCluster graph counts),
        assign (ordered sha256 mapping nodeIds), algorithm, modularity⟩ ↔
      ((communities sha256 mapping nodeIds).map Community.cId).Nodup := by
  have hperm : (ordered sha256 mapping nodeIds).Perm (communities sha256 mapping nodeIds) :=
    List.perm_insertionSort _ _
  have hids : (((ordered sha256 mapping nodeIds).map (toCluster graph counts)).map Cluster.id).Nodup ↔
      ((communities sha256 mapping nodeIds).map Community.cId).Nodup := by
    rw [List.map_map]
    exact (hperm.map Community.cId).nodup_iff
  have hkeys := communities_keys sha256 mapping nodeIds
  have hinj := (List.nodup_map_iff_inj_on hkeys.of_map).mp hkeys
  refine ⟨fun h => hids.mp h.ids, fun h => ⟨hids.mpr h, fun n hn => ?_, fun c hc => ?_,
    fun n id => ?_, fun c hc => ?_⟩⟩
  · obtain ⟨d, hd, hdn, -⟩ := exists_community sha256 mapping nodeIds hn
    rw [List.countP_map, hperm.countP_eq]
    have hcount : (communities sha256 mapping nodeIds).countP
        ((fun c : Cluster => decide (n ∈ c.members)) ∘ toCluster graph counts) =
        ((communities sha256 mapping nodeIds).map Community.community).count
          (communityOf mapping n) := by
      rw [List.count, List.countP_map]
      refine List.countP_congr fun c hc => ?_
      change decide (n ∈ c.members) = true ↔ (c.community == communityOf mapping n) = true
      rw [decide_eq_true_iff, beq_iff_eq, mem_members_iff sha256 mapping nodeIds hc,
        and_iff_right hn, eq_comm]
    rw [hcount]
    exact List.count_eq_one_of_mem hkeys (List.mem_map.mpr ⟨d, hd, hdn⟩)
  · obtain ⟨e, he, rfl⟩ := List.mem_map.mp hc
    have hmem := (mem_ordered sha256).mp he
    obtain ⟨n, hn, hkey, hmembers, -⟩ := community_of_mem sha256 mapping nodeIds hmem
    have hin := fun m => @mem_members_iff sha256 mapping nodeIds e hmem m
    refine ⟨List.ne_nil_of_mem ((hin n).mpr ⟨hn, hkey.symm⟩), ?_, fun m hm => ((hin m).mp hm).1⟩
    change e.members.Nodup
    rw [hmembers, membersOf, (List.perm_insertionSort _ _).nodup_iff]
    exact hnodup.filter _
  · rw [get?_assignment fun c hc d hd hnc hnd => ?_]
    · simp only [List.mem_map, exists_exists_and_eq_and]
      rfl
    · have hc := (mem_ordered sha256).mp hc
      have hd := (mem_ordered sha256).mp hd
      have hkey := ((mem_members_iff sha256 mapping nodeIds hc).mp hnc).2
      have hkey' := ((mem_members_iff sha256 mapping nodeIds hd).mp hnd).2
      rw [hinj c hc d hd (hkey.symm.trans hkey')]
  · obtain ⟨e, -, rfl⟩ := List.mem_map.mp hc
    exact ⟨_, rfl, cohesionOf_mem counts e.community⟩

/-- The mapping that the clusters are built from. -/
def mappingOf (louvain : Louvain) (input : ClustererInput) : Dict ℤ :=
  (runLouvainWithTargetSize louvain input input.graph.nodeIds).mapping

/-- When the hash tells the joined texts of the communities apart, the overlay is a partition
with distinct ids exactly when those texts are distinct. -/
theorem cluster_partition_iff (louvain : Louvain) (input : ClustererInput)
    (hhash : ∀ a ∈ input.graph.nodeIds, ∀ b ∈ input.graph.nodeIds,
      shortHash sha256 (joined (membersOf (mappingOf louvain input) input.graph.nodeIds a)) =
        shortHash sha256 (joined (membersOf (mappingOf louvain input) input.graph.nodeIds b)) →
      joined (membersOf (mappingOf louvain input) input.graph.nodeIds a) =
        joined (membersOf (mappingOf louvain input) input.graph.nodeIds b)) :
    Partition input.graph.nodeIds (cluster sha256 louvain input) ↔
      Separated (mappingOf louvain input) input.graph.nodeIds := by
  have hids : input.graph.nodeIds = input.graph.g.nodes.map Node.id :=
    input.graph.sortedNodeIds_eq
  have hnodup : input.graph.nodeIds.Nodup := hids ▸ input.graph.g.nodes_nodup
  unfold cluster
  dsimp only
  split
  case isTrue hzero =>
    have hnil : input.graph.nodeIds = [] := by
      rw [hids, List.map_eq_nil_iff]
      exact List.length_eq_zero_iff.mp hzero
    rw [hnil]
    exact iff_of_true ⟨by simp, by simp, by simp, by simp, by simp⟩ fun a ha => by simp at ha
  case isFalse =>
    split
    case h_1 onlyId heq =>
      rw [heq]
      refine iff_of_true ⟨by simp, by simp, by simp, fun n id => ?_, by simp⟩ ?_
      · simp [Dict.get?_cons, eq_comm]
        tauto
      · intro a ha b hb _
        rw [List.mem_singleton.mp ha, List.mem_singleton.mp hb]
    case h_2 =>
      rw [partition_iff sha256 _ _ _ hnodup]
      exact ids_nodup_iff sha256 _ _ hhash

/-- The two documents `a` and `b` with a reference between them. -/
def pairGraph : Graph where
  g := ⟨[⟨"a", .doc, "a", none, []⟩, ⟨"b", .doc, "b", none, []⟩],
    [⟨"e", "a", "b", .references⟩], by decide, by decide, by decide⟩
  clustersById := []
  membership := []
  sortedNodeIds := ["a", "b"]
  sortedNodeIds_eq := rfl

/-- The digests of `a` and `b`. -/
def pairDigest (s : String) : String :=
  if s = "a" then "ca978112ca1bbdcafac231b39a23dc4da786eff8147c4e72b9807785afee48bb"
  else "3e23e8160039594a33894f6564e1b1348bbd7a0088d42c4acb73eeaed59c009d"

theorem cluster_partition_pair :
    Partition ["a", "b"] (cluster pairDigest
      (fun _ _ _ _ => ⟨[("a", 0), ("b", 1)], some 0⟩) { graph := pairGraph }) := by
  have hone : ∀ n ∈ ["a", "b"], joined (membersOf [("a", 0), ("b", 1)] ["a", "b"] n) = n := by
    intro n hn
    fin_cases hn <;> rfl
  refine (cluster_partition_iff pairDigest (fun _ _ _ _ => ⟨[("a", 0), ("b", 1)], some 0⟩)
    { graph := pairGraph } fun a ha b hb hsame => ?_).mpr (separated_of_plain _ _ ?_)
  · change joined (membersOf [("a", 0), ("b", 1)] ["a", "b"] a) =
      joined (membersOf [("a", 0), ("b", 1)] ["a", "b"] b)
    change shortHash pairDigest (joined (membersOf [("a", 0), ("b", 1)] ["a", "b"] a)) =
      shortHash pairDigest (joined (membersOf [("a", 0), ("b", 1)] ["a", "b"] b)) at hsame
    rw [hone a ha, hone b hb] at hsame ⊢
    change a ∈ ["a", "b"] at ha
    change b ∈ ["a", "b"] at hb
    fin_cases ha <;> fin_cases hb <;> first | rfl | exact absurd hsame (by decide)
  · change ∀ n ∈ ["a", "b"], '|' ∉ n.toList
    decide

/-- The three documents `a`, `a|b` and `b` with a reference from `a` to `b`. -/
def barGraph : Graph where
  g := ⟨[⟨"a", .doc, "a", none, []⟩, ⟨"a|b", .doc, "a|b", none, []⟩, ⟨"b", .doc, "b", none, []⟩],
    [⟨"e", "a", "b", .references⟩], by decide, by decide, by decide⟩
  clustersById := []
  membership := []
  sortedNodeIds := ["a", "a|b", "b"]
  sortedNodeIds_eq := rfl

/-- Two communities whose members are joined to one text get one id, whatever the hash is. -/
theorem joined_ids_clash :
    ¬ ∃ sha256 : String → String, Partition ["a", "a|b", "b"] (cluster sha256
      (fun _ _ _ _ => ⟨[("a", 0), ("a|b", 1), ("b", 0)], some 0⟩) { graph := barGraph }) := by
  rintro ⟨sha256, h⟩
  have hnodup : ((communities sha256 [("a", 0), ("a|b", 1), ("b", 0)]
      ["a", "a|b", "b"]).map Community.cId).Nodup :=
    (partition_iff sha256 barGraph _ _ (by decide) _ _).mp h
  have hids : (communities sha256 [("a", 0), ("a|b", 1), ("b", 0)]
      ["a", "a|b", "b"]).map Community.cId =
      [deriveClusterId sha256 ["a", "b"], deriveClusterId sha256 ["a|b"]] := rfl
  rw [hids, List.nodup_cons, List.mem_singleton] at hnodup
  exact hnodup.1 rfl

end CodeGraph
end Batiste
