import Batiste.CodeGraph
import Batiste.StableSort

/-! The clusters that `summarize_codebase` reports: `GraphQuerier.clusterSummary` and the graph
layer of the handler. -/
namespace Batiste
namespace CodeGraph

open StableSort

/-- What `localeCompare` says of two texts: that the first does not come after the second. -/
structure Collation where
  le : String → String → Bool
  trans : ∀ a b c, le a b = true → le b c = true → le a c = true
  total : ∀ a b, le a b = true ∨ le b a = true

structure ClusterSummaryRow where
  id : String
  label : String
  memberCount : ℕ
  cohesion : Option ℚ
  deriving DecidableEq, Repr

def rowOf (c : Cluster) : ClusterSummaryRow := ⟨c.id, c.label, c.members.length, c.cohesion⟩

/-! ## The source -/

section Source

variable (collation : Collation) (graph : Graph)

/-- The comparator of the rows: more members first, then the id. -/
def Ordered (a b : Cluster) : Prop :=
  b.members.length < a.members.length ∨
    a.members.length = b.members.length ∧ collation.le a.id b.id = true

instance : DecidableRel (Ordered collation) := fun a b =>
  inferInstanceAs (Decidable (b.members.length < a.members.length ∨
    a.members.length = b.members.length ∧ collation.le a.id b.id = true))

/-- The loop over the nodes: a cluster where its first node is met. -/
def enumerate : List String → List String → List Cluster
  | [], _ => []
  | id :: ids, seen =>
    match graph.clusterOf id with
    | none => enumerate ids seen
    | some cId =>
      if cId = "" ∨ cId ∈ seen then enumerate ids seen
      else
        match graph.cluster cId with
        | none => enumerate ids (cId :: seen)
        | some c => c :: enumerate ids (cId :: seen)

/-- The clusters that the nodes lead to. -/
def reached : List Cluster := enumerate graph graph.sortedNodeIds []

def clusterSummary (limit : ℕ) : List ClusterSummaryRow :=
  (((reached graph).insertionSort (Ordered collation)).map rowOf).take limit

structure GraphLayer where
  cluster : Option String
  clusterCount : ℕ
  clusters : List ClusterSummaryRow
  deriving DecidableEq, Repr

/-- `graphLayer` of `summarizeCodebase`; the empty label is no pin. -/
def graphLayer (cluster : Option String) : GraphLayer :=
  let rows := clusterSummary collation graph 25
  let filtered :=
    match cluster.filter (· ≠ "") with
    | some label => rows.filter fun r : ClusterSummaryRow => decide (r.label = label)
    | none => rows
  { cluster, clusterCount := filtered.length, clusters := filtered.take 10 }

end Source

/-! ## What a pinned summary is to report -/

section Reports

variable (collation : Collation) (graph : Graph) (label : String)

/-- The clusters of the graph with a label. -/
def labelled : List Cluster :=
  (graph.clustersById.map Prod.snd).filter fun c => decide (c.label = label)

/-- The labelled clusters, each once; the ten largest of them where there are more. -/
structure Reports (rows : List ClusterSummaryRow) : Prop where
  nodup : (rows.map ClusterSummaryRow.id).Nodup
  sound : ∀ row ∈ rows, ∃ c ∈ labelled graph label, row = rowOf c
  length : rows.length = min 10 (labelled graph label).length
  largest : ∀ c ∈ labelled graph label, rowOf c ∉ rows →
    ∀ row ∈ rows, c.members.length ≤ row.memberCount

/-- How many of the clusters that the nodes lead to are put before one of them. -/
def rank (c : Cluster) : ℕ :=
  ((reached graph).takeWhile fun a => a.id ≠ c.id).countP (fun a => Ordered collation a c) +
    ((reached graph).dropWhile fun a => a.id ≠ c.id).countP fun b => ¬ Ordered collation c b

/-- Some node leads to the cluster, and fewer than 25 others are put before it. -/
def Listed (c : Cluster) : Prop := c ∈ reached graph ∧ rank collation graph c < 25

instance (c : Cluster) : Decidable (Listed collation graph c) :=
  inferInstanceAs (Decidable (c ∈ reached graph ∧ rank collation graph c < 25))

/-- The listed clusters of the label that have as many members. -/
def crowd (c : Cluster) : List Cluster :=
  (reached graph).filter fun a => Listed collation graph a ∧ a.label = label ∧
    c.members.length ≤ a.members.length

def Crowded (c : Cluster) : Prop := 10 ≤ (crowd collation graph label c).length

/-- What makes the summary report the clusters of a label. -/
structure Complete : Prop where
  listed : ∀ c ∈ labelled graph label,
    Listed collation graph c ∨ Crowded collation graph label c
  pinned : label = "" → ∀ c ∈ reached graph, rank collation graph c < 10 → c.label = ""

end Reports

/-! ## The clusters of a graph -/

section Keyed

variable {graph : Graph}

/-- The clusters stand under their ids. -/
structure KeyedClusters (graph : Graph) : Prop where
  nodup : (graph.clustersById.map Prod.fst).Nodup
  key : ∀ entry ∈ graph.clustersById, entry.1 = entry.2.id

theorem keyedClusters_new {data : GraphImplData} (h : Graph.new data = .ok graph) :
    KeyedClusters graph := by
  unfold Graph.new at h
  cases hnodes : data.nodes.foldlM Store.addNode Store.empty with
  | error err =>
    rw [hnodes] at h
    cases h
  | ok g =>
    rw [hnodes] at h
    change (data.edges.foldlM Store.addEdge g >>= _) = _ at h
    cases hedges : data.edges.foldlM Store.addEdge g with
    | error err =>
      rw [hedges] at h
      cases h
    | ok g =>
      rw [hedges] at h
      cases h
      refine ⟨Dict.nodup_spread (d := []) (by simp) _, fun entry hentry => ?_⟩
      rcases Dict.mem_spread hentry with hnil | hentry
      · exact absurd hnil List.not_mem_nil
      · obtain ⟨c, -, rfl⟩ := List.mem_map.mp hentry
        rfl

namespace KeyedClusters

variable (h : KeyedClusters graph)

include h

theorem cluster_iff {id : String} {c : Cluster} :
    graph.cluster id = some c ↔ c ∈ graph.clustersById.map Prod.snd ∧ c.id = id := by
  constructor
  · intro hget
    have hmem := Dict.mem_of_get? hget
    exact ⟨List.mem_map.mpr ⟨_, hmem, rfl⟩, (h.key _ hmem).symm⟩
  · rintro ⟨hc, rfl⟩
    obtain ⟨entry, hentry, rfl⟩ := List.mem_map.mp hc
    exact Dict.get?_of_mem h.nodup (h.key entry hentry ▸ hentry)

theorem eq_of_id {a b : Cluster} (ha : a ∈ graph.clustersById.map Prod.snd)
    (hb : b ∈ graph.clustersById.map Prod.snd) (hid : a.id = b.id) : a = b := by
  have hget := h.cluster_iff.mpr ⟨ha, hid⟩
  rw [h.cluster_iff.mpr ⟨hb, rfl⟩] at hget
  exact (Option.some.inj hget).symm

theorem labelled_nodup (label : String) : (labelled graph label).Nodup := by
  have hids : ((graph.clustersById.map Prod.snd).map Cluster.id).Nodup := by
    rw [List.map_map]
    have hkeys : graph.clustersById.map Prod.fst = graph.clustersById.map (Cluster.id ∘ Prod.snd) :=
      List.map_congr_left h.key
    exact hkeys ▸ h.nodup
  exact (List.Nodup.of_map _ hids).filter _

theorem mem_enumerate {ids seen : List String} {c : Cluster} (hc : c ∈ enumerate graph ids seen) :
    c ∈ graph.clustersById.map Prod.snd ∧ c.id ∉ seen := by
  induction ids generalizing seen with
  | nil => exact absurd hc List.not_mem_nil
  | cons id ids ih =>
    unfold enumerate at hc
    split at hc
    · exact ih hc
    · split_ifs at hc with hseen
      · exact ih hc
      · split at hc
        · exact (ih hc).imp_right fun hnot hin => hnot (List.mem_cons_of_mem _ hin)
        · rename_i hcluster
          obtain ⟨hin, rfl⟩ := h.cluster_iff.mp hcluster
          rcases List.mem_cons.mp hc with rfl | hc
          · exact ⟨hin, fun hnot => hseen (.inr hnot)⟩
          · exact (ih hc).imp_right fun hnot hin => hnot (List.mem_cons_of_mem _ hin)

theorem enumerate_nodup (ids seen : List String) :
    ((enumerate graph ids seen).map Cluster.id).Nodup := by
  induction ids generalizing seen with
  | nil => exact List.nodup_nil
  | cons id ids ih =>
    unfold enumerate
    split
    · exact ih seen
    · split_ifs
      · exact ih seen
      · split
        · exact ih _
        · rename_i hcluster
          obtain ⟨-, rfl⟩ := h.cluster_iff.mp hcluster
          rw [List.map_cons, List.nodup_cons]
          refine ⟨fun hin => ?_, ih _⟩
          obtain ⟨a, ha, hid⟩ := List.mem_map.mp hin
          exact (h.mem_enumerate ha).2 (hid ▸ List.mem_cons_self)

end KeyedClusters

end Keyed

/-! ## The pinned summary -/

section Pinned

variable (collation : Collation)

/-- Larger first, and equal ones by their ids. -/
theorem Collation.isTrans {α β : Type} [LinearOrder β] (size : α → β) (id : α → String) :
    IsTrans α fun a b => size b < size a ∨ size a = size b ∧ collation.le (id a) (id b) = true where
  trans := by
    rintro a b c (hab | ⟨hab, hle⟩) (hbc | ⟨hbc, hle'⟩)
    · exact .inl (hbc.trans hab)
    · exact .inl (hbc ▸ hab)
    · exact .inl (hab ▸ hbc)
    · exact .inr ⟨hab.trans hbc, collation.trans _ _ _ hle hle'⟩

theorem Collation.isTotal {α β : Type} [LinearOrder β] (size : α → β) (id : α → String) :
    Std.Total fun a b : α =>
      size b < size a ∨ size a = size b ∧ collation.le (id a) (id b) = true where
  total := by
    intro a b
    rcases lt_trichotomy (size a) (size b) with hlt | heq | hlt
    · exact .inr (.inl hlt)
    · exact (collation.total (id a) (id b)).imp (fun hle => .inr ⟨heq, hle⟩)
        fun hle => .inr ⟨heq.symm, hle⟩
    · exact .inl (.inl hlt)

instance : IsTrans Cluster (Ordered collation) :=
  collation.isTrans (fun c : Cluster => c.members.length) Cluster.id

instance : Std.Total (Ordered collation) :=
  collation.isTotal (fun c : Cluster => c.members.length) Cluster.id

theorem Ordered.length_le {collation : Collation} {a b : Cluster} (h : Ordered collation a b) :
    b.members.length ≤ a.members.length := by
  rcases h with hlt | ⟨heq, -⟩
  · exact hlt.le
  · exact heq.ge

/-- What the handler lets through. -/
def shown (label : String) (c : Cluster) : Bool := label = "" || decide (c.label = label)

theorem shown_empty : shown "" = fun _ => true := by
  funext c
  simp [shown]

/-- The clusters behind the rows that are returned. -/
def returned (graph : Graph) (label : String) : List Cluster :=
  ((((reached graph).insertionSort (Ordered collation)).take 25).filter (shown label)).take 10

theorem returned_empty (graph : Graph) : returned collation graph "" =
    ((reached graph).insertionSort (Ordered collation)).take 10 := by
  rw [returned, shown_empty, List.filter_true, List.take_take]
  rfl

theorem graphLayer_clusters (graph : Graph) (label : String) :
    (graphLayer collation graph (some label)).clusters =
      (returned collation graph label).map rowOf := by
  unfold graphLayer clusterSummary returned
  by_cases hlabel : label = ""
  · have hnone : (some label).filter (· ≠ "") = none := by simp [hlabel, Option.filter]
    rw [hnone, hlabel, shown_empty, List.filter_true, List.map_take, List.map_take]
  · have hsome : (some label).filter (· ≠ "") = some label := by simp [hlabel, Option.filter]
    have hshown : shown label =
        (fun r : ClusterSummaryRow => decide (r.label = label)) ∘ rowOf := by
      funext c
      rw [shown, decide_eq_false hlabel, Bool.false_or]
      rfl
    rw [hsome, hshown, List.map_take, ← List.filter_map, List.map_take]

variable {graph : Graph} (h : KeyedClusters graph) (label : String)

include h

theorem mem_take_sorted_iff {c : Cluster} (n : ℕ) :
    c ∈ ((reached graph).insertionSort (Ordered collation)).take n ↔
      c ∈ reached graph ∧ rank collation graph c < n := by
  constructor
  · intro hc
    have hin := (List.mem_insertionSort _).mp (List.mem_of_mem_take hc)
    exact ⟨hin, (mem_take_insertionSort_key (h.enumerate_nodup _ _) hin n).mp hc⟩
  · rintro ⟨hin, hrank⟩
    exact (mem_take_insertionSort_key (h.enumerate_nodup _ _) hin n).mpr hrank

theorem mem_shown_iff {c : Cluster} :
    c ∈ (((reached graph).insertionSort (Ordered collation)).take 25).filter (shown label) ↔
      Listed collation graph c ∧ shown label c = true := by
  rw [List.mem_filter, mem_take_sorted_iff collation h]
  rfl

theorem returned_nodup : ((returned collation graph label).map Cluster.id).Nodup := by
  have hsorted : (((reached graph).insertionSort (Ordered collation)).map Cluster.id).Nodup :=
    ((List.perm_insertionSort _ _).map _).nodup_iff.mpr (h.enumerate_nodup _ _)
  exact hsorted.sublist (((List.take_sublist _ _).trans
    (List.filter_sublist.trans (List.take_sublist _ _))).map _)

theorem listed_of_returned {c : Cluster} (hc : c ∈ returned collation graph label) :
    Listed collation graph c ∧ shown label c = true :=
  (mem_shown_iff collation h label).mp (List.mem_of_mem_take hc)

/-- What is left out by the last cut is not put before anything that is returned. -/
theorem ordered_of_not_returned {c d : Cluster} (hc : Listed collation graph c)
    (hshown : shown label c = true) (hout : c ∉ returned collation graph label)
    (hd : d ∈ returned collation graph label) : Ordered collation d c := by
  have hmem := (mem_shown_iff collation h label).mpr ⟨hc, hshown⟩
  have hsorted := ((List.pairwise_insertionSort (Ordered collation) (reached graph)).sublist
    (List.take_sublist 25 _)).filter (shown label)
  rw [← List.take_append_drop 10 (List.filter _ _)] at hmem hsorted
  have hdrop := (List.mem_append.mp hmem).resolve_left hout
  exact (List.pairwise_append.mp hsorted).2.2 d hd c hdrop

theorem crowd_nodup (c : Cluster) : (crowd collation graph label c).Nodup :=
  (List.Nodup.of_map _ (h.enumerate_nodup graph.sortedNodeIds [])).filter _

omit h in
theorem mem_crowd_iff {a c : Cluster} : a ∈ crowd collation graph label c ↔
    Listed collation graph a ∧ a.label = label ∧ c.members.length ≤ a.members.length := by
  rw [crowd, List.mem_filter, decide_eq_true_eq]
  exact and_iff_right_of_imp fun ha => ha.1.1

theorem mem_labelled_of_reached {c : Cluster} (hc : c ∈ reached graph) (hlabel : c.label = label) :
    c ∈ labelled graph label :=
  List.mem_filter.mpr ⟨(h.mem_enumerate hc).1, by simpa using hlabel⟩

theorem mem_returned_of_row {c : Cluster} (hc : c ∈ labelled graph label)
    (hrow : rowOf c ∈ (returned collation graph label).map rowOf) :
    c ∈ returned collation graph label := by
  obtain ⟨d, hd, hequal⟩ := List.mem_map.mp hrow
  have hid : d.id = c.id := congrArg ClusterSummaryRow.id hequal
  have hd' := (h.mem_enumerate (listed_of_returned collation h label hd).1.1).1
  exact h.eq_of_id hd' (List.mem_of_mem_filter hc) hid ▸ hd

/-- Where ten listed clusters are as large as one, everything that is returned is. -/
theorem length_le_of_crowded {c d : Cluster} (hc : Crowded collation graph label c)
    (hd : d ∈ returned collation graph label) : c.members.length ≤ d.members.length := by
  by_contra hlt
  have hbig : crowd collation graph label c ⊆ (returned collation graph label).erase d := by
    intro a ha
    obtain ⟨hlisted, hlabel, hle⟩ := (mem_crowd_iff collation label).mp ha
    have hshown : shown label a = true := by simp [shown, hlabel]
    have hin : a ∈ returned collation graph label := by
      by_contra hout
      have hord := (ordered_of_not_returned collation h label hlisted hshown hout hd).length_le
      omega
    have hne : a ≠ d := by
      rintro rfl
      exact hlt hle
    exact (List.mem_erase_of_ne hne).mpr hin
  have hcount := (List.subperm_of_subset (crowd_nodup collation h label c) hbig).length_le
  rw [List.length_erase_of_mem hd] at hcount
  have hten : (returned collation graph label).length ≤ 10 := List.length_take_le 10 _
  have hcrowded : 10 ≤ _ := hc
  omega

theorem returned_subset_of_pinned (hpinned : label = "" → ∀ c ∈ reached graph,
    rank collation graph c < 10 → c.label = "") :
    returned collation graph label ⊆ labelled graph label := by
  intro c hc
  obtain ⟨hlisted, hshown⟩ := listed_of_returned collation h label hc
  refine mem_labelled_of_reached h label hlisted.1 ?_
  by_cases hlabel : label = ""
  · rw [hlabel, returned_empty] at hc
    have hrank := (mem_take_sorted_iff collation h 10).mp hc
    rw [hpinned hlabel c hrank.1 hrank.2, hlabel]
  · simpa [shown, hlabel] using hshown

/-- The returned clusters are as many as they have to be where each labelled one is listed or
crowded out. -/
theorem min_le_length_returned
    (hlisted : ∀ c ∈ labelled graph label,
      Listed collation graph c ∨ Crowded collation graph label c) :
    min 10 (labelled graph label).length ≤ (returned collation graph label).length := by
  rw [returned, List.length_take]
  have hin : ∀ c, Listed collation graph c → c.label = label →
      c ∈ (((reached graph).insertionSort (Ordered collation)).take 25).filter (shown label) :=
    fun c hc hlabel => (mem_shown_iff collation h label).mpr ⟨hc, by simp [shown, hlabel]⟩
  by_cases hall : ∀ c ∈ labelled graph label, Listed collation graph c
  · have hsub : labelled graph label ⊆ _ := fun c hc =>
      hin c (hall c hc) (by simpa using (List.mem_filter.mp hc).2)
    exact min_le_min_left 10 (List.subperm_of_subset (h.labelled_nodup label) hsub).length_le
  · obtain ⟨c, hc⟩ := not_forall.mp hall
    obtain ⟨hc, hunlisted⟩ := Classical.not_imp.mp hc
    have hcrowded : 10 ≤ _ := (hlisted c hc).resolve_left hunlisted
    have hsub : crowd collation graph label c ⊆ _ := fun a ha =>
      hin a ((mem_crowd_iff collation label).mp ha).1 ((mem_crowd_iff collation label).mp ha).2.1
    have hle := (List.subperm_of_subset (crowd_nodup collation h label c) hsub).length_le
    exact le_min (min_le_left _ _) ((min_le_left _ _).trans (hcrowded.trans hle))

theorem reports_iff : Reports graph label (graphLayer collation graph (some label)).clusters ↔
    Complete collation graph label := by
  rw [graphLayer_clusters]
  have hnodup := returned_nodup collation h label
  have hlabelled := h.labelled_nodup label
  constructor
  · intro hreports
    have hsub : returned collation graph label ⊆ labelled graph label := by
      intro d hd
      obtain ⟨c, hc, hequal⟩ := hreports.sound _ (List.mem_map_of_mem hd)
      have hd' := (h.mem_enumerate (listed_of_returned collation h label hd).1.1).1
      exact h.eq_of_id (List.mem_of_mem_filter hc) hd'
        (congrArg ClusterSummaryRow.id hequal).symm ▸ hc
    have hlength := hreports.length
    rw [List.length_map] at hlength
    refine ⟨fun c hc => ?_, fun hlabel c hc hrank => ?_⟩
    · by_cases hrow : rowOf c ∈ (returned collation graph label).map rowOf
      · have hin := mem_returned_of_row collation h label hc hrow
        exact .inl (listed_of_returned collation h label hin).1
      · have hlarge := hreports.largest c hc hrow
        have hten : (returned collation graph label).length = 10 := by
          by_contra hshort
          have hfull : (labelled graph label).length ≤ (returned collation graph label).length := by
            omega
          have hperm := (List.subperm_of_subset (List.Nodup.of_map _ hnodup) hsub).perm_of_length_le
            hfull
          exact hrow (List.mem_map_of_mem (hperm.mem_iff.mpr hc))
        have hcrowd : returned collation graph label ⊆ crowd collation graph label c := by
          intro d hd
          have hlisted := (listed_of_returned collation h label hd).1
          have hlabel : d.label = label := by simpa using (List.mem_filter.mp (hsub hd)).2
          exact (mem_crowd_iff collation label).mpr
            ⟨hlisted, hlabel, hlarge _ (List.mem_map_of_mem hd)⟩
        have hle := (List.subperm_of_subset (List.Nodup.of_map _ hnodup) hcrowd).length_le
        exact .inr (hten.ge.trans hle)
    · subst hlabel
      have hin : c ∈ returned collation graph "" := by
        rw [returned_empty]
        exact (mem_take_sorted_iff collation h 10).mpr ⟨hc, hrank⟩
      simpa using (List.mem_filter.mp (hsub hin)).2
  · intro hcomplete
    have hsub := returned_subset_of_pinned collation h label hcomplete.pinned
    have hle := (List.subperm_of_subset (List.Nodup.of_map _ hnodup) hsub).length_le
    have hten : (returned collation graph label).length ≤ 10 := List.length_take_le 10 _
    have hmin := min_le_length_returned collation h label hcomplete.listed
    refine ⟨?_, ?_, ?_, ?_⟩
    · rw [List.map_map]
      exact hnodup
    · intro row hrow
      obtain ⟨c, hc, rfl⟩ := List.mem_map.mp hrow
      exact ⟨c, hsub hc, rfl⟩
    · rw [List.length_map]
      omega
    · intro c hc hout row hrow
      obtain ⟨d, hd, rfl⟩ := List.mem_map.mp hrow
      rcases hcomplete.listed c hc with hlisted | hcrowded
      · have hlabel : c.label = label := by simpa using (List.mem_filter.mp hc).2
        have hshown : shown label c = true := by simp [shown, hlabel]
        have hnot : c ∉ returned collation graph label := fun hin => hout (List.mem_map_of_mem hin)
        exact (ordered_of_not_returned collation h label hlisted hshown hnot hd).length_le
      · exact length_le_of_crowded collation h label hcrowded hd

omit h in
/-- The summary that is pinned to a label reports its clusters where each of them is listed or
crowded out by ten others, and only there. -/
theorem pinned_summary_iff {data : GraphImplData} (hnew : Graph.new data = .ok graph) :
    Reports graph label (graphLayer collation graph (some label)).clusters ↔
      Complete collation graph label :=
  reports_iff collation (keyedClusters_new hnew) label

end Pinned

/-! ## A graph of many clusters -/

/-- The order of the code points. -/
def byCodePoint : Collation where
  le := fun a b => decide (a ≤ b)
  trans := fun _ _ _ hab hbc => decide_eq_true ((of_decide_eq_true hab).trans (of_decide_eq_true hbc))
  total := fun a b => (le_total a b).imp decide_eq_true decide_eq_true

def packageFile (id : String) : Node where
  id := id
  kind := .file
  label := id

/-- Packages of two files, named by letters, and one of a single file. -/
def packages (letters : List Char) : GraphImplData where
  nodes := letters.flatMap (fun c =>
    [packageFile (c.toString ++ "1"), packageFile (c.toString ++ "2")]) ++ [packageFile "s"]
  edges := []
  clusters := letters.map (fun c =>
    ⟨c.toString, c.toString, [c.toString ++ "1", c.toString ++ "2"], none⟩) ++
      [⟨"s", "small/", ["s"], none⟩]
  membership := letters.flatMap (fun c =>
    [(c.toString ++ "1", c.toString), (c.toString ++ "2", c.toString)]) ++ [("s", "s")]

def manyLetters : List Char := "ABCDEFGHIJKLMNOPQRSTUVWXY".toList

theorem pinned_summary_few : ∃ graph, Graph.new (packages ['A']) = .ok graph ∧
    Reports graph "small/" (graphLayer byCodePoint graph (some "small/")).clusters := by
  have hcheck : (Graph.new (packages ['A'])).toOption.any (fun graph =>
      decide (∀ c ∈ labelled graph "small/", Listed byCodePoint graph c)) = true := by
    decide +kernel
  cases hnew : Graph.new (packages ['A']) with
  | error err =>
    rw [hnew] at hcheck
    cases hcheck
  | ok graph =>
    rw [hnew] at hcheck
    have hlisted := of_decide_eq_true hcheck
    exact ⟨graph, rfl, (pinned_summary_iff byCodePoint "small/" hnew).mpr
      ⟨fun c hc => .inl (hlisted c hc), fun hempty => absurd hempty (by decide)⟩⟩

/-- The pinned cluster is the smallest of 26, so that no row of it is left to filter. -/
theorem pinned_summary_missing : ∃ graph, Graph.new (packages manyLetters) = .ok graph ∧
    (labelled graph "small/").length = 1 ∧
      graphLayer byCodePoint graph (some "small/") = ⟨some "small/", 0, []⟩ ∧
        ¬ Reports graph "small/" (graphLayer byCodePoint graph (some "small/")).clusters := by
  have hcheck : (Graph.new (packages manyLetters)).toOption.any (fun graph =>
      decide ((labelled graph "small/").length = 1 ∧
        graphLayer byCodePoint graph (some "small/") = ⟨some "small/", 0, []⟩)) = true := by
    decide +kernel
  cases hnew : Graph.new (packages manyLetters) with
  | error err =>
    rw [hnew] at hcheck
    cases hcheck
  | ok graph =>
    rw [hnew] at hcheck
    obtain ⟨hone, hlayer⟩ := of_decide_eq_true hcheck
    refine ⟨graph, rfl, hone, hlayer, fun hreports => ?_⟩
    have hlength := hreports.length
    rw [hone, hlayer] at hlength
    exact absurd hlength (by decide)

end CodeGraph
end Batiste
