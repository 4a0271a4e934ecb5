import Batiste.DepthFirst

/-! A search with a queue of paths.  The first path is taken out of the queue; unless its end was
expanded before, it goes back to the queue once for each successor of its end, that much longer. -/
namespace Batiste
namespace PathQueue

open DepthFirst

variable {α : Type*} (next : α → List α)

/-- The nodes of a chain of edges, in order. -/
structure IsPath (a b : α) (path : List α) : Prop where
  head : path.head? = some a
  last : path.getLast? = some b
  edges : path.IsChain fun x y => y ∈ next x

section Paths

variable {next} {a b c : α} {path : List α}

theorem IsPath.single (a : α) : IsPath next a a [a] :=
  ⟨rfl, rfl, List.isChain_singleton a⟩

theorem IsPath.snoc (h : IsPath next a b path) (hc : c ∈ next b) :
    IsPath next a c (path ++ [c]) := by
  constructor
  · rw [List.head?_append, h.head, Option.some_or]
  · rw [List.getLast?_append, List.getLast?_singleton, Option.some_or]
  · refine h.edges.append (List.isChain_singleton c) ?_
    simpa [h.last] using hc

theorem IsPath.chain (h : IsPath next a b path) : ∃ n, Chain next n a b ∧ path.length = n + 1 := by
  obtain ⟨hhead, hlast, hedges⟩ := h
  cases path with
  | nil => exact absurd hhead (by simp)
  | cons c l =>
    obtain rfl : c = a := by simpa using hhead
    exact ⟨l.length, chain_of_isChain hedges hlast, rfl⟩

end Paths

/-! ## The queue -/

section Queue

/-- What the queue holds: paths from the start, the shorter ones first and none of them longer by
more than one edge; and with every chain to the goal the beginning of one that is not longer and
meets no more nodes that were expanded. -/
structure Ready (start goal : α) (visited : List α) (queue : List (α × List α)) : Prop where
  paths : ∀ e ∈ queue, IsPath next start e.1 e.2
  sorted : queue.Pairwise fun e f => e.2.length ≤ f.2.length
  close : ∀ e ∈ queue, ∀ f ∈ queue, f.2.length ≤ e.2.length + 1
  ahead : ∀ n, Chain next n start goal →
    ∃ e ∈ queue, ∃ k, Avoiding next visited k e.1 goal ∧ e.2.length + k ≤ n + 1

/-- What a search answers: a shortest path, or nothing where there is no path. -/
def Answers (start goal : α) (answer : Option (List α)) : Prop :=
  (∀ path, answer = some path →
    IsPath next start goal path ∧
      ∀ other, IsPath next start goal other → path.length ≤ other.length) ∧
  (answer = none ↔ ¬ ∃ path, IsPath next start goal path)

variable {next} {start goal : α} {visited : List α} {queue : List (α × List α)} {a : α}
  {path : List α}

theorem ready_start : Ready next start goal [] [(start, [start])] := by
  constructor
  case paths =>
    intro e he
    rw [List.mem_singleton.mp he]
    exact .single start
  case sorted => exact List.pairwise_singleton _ _
  case close =>
    intro e he f hf
    rw [List.mem_singleton.mp he, List.mem_singleton.mp hf]
    exact Nat.le_succ _
  case ahead =>
    intro n hchain
    exact ⟨_, List.mem_singleton_self _, n, hchain.avoiding_nil, (Nat.add_comm 1 n).le⟩

/-- A path to a node that was expanded is of no use. -/
theorem Ready.skip (h : Ready next start goal visited ((a, path) :: queue)) (ha : a ∈ visited) :
    Ready next start goal visited queue := by
  refine ⟨fun e he => h.paths e (List.mem_cons_of_mem _ he), (List.pairwise_cons.mp h.sorted).2,
    fun e he f hf => h.close e (List.mem_cons_of_mem _ he) f (List.mem_cons_of_mem _ hf),
    fun n hchain => ?_⟩
  obtain ⟨e, he, k, havoid, hle⟩ := h.ahead n hchain
  rcases List.mem_cons.mp he with rfl | he
  · exact absurd ha havoid.start
  · exact ⟨e, he, k, havoid, hle⟩

/-- A chain from a node to another goes on, behind the last visit of the first, without it. -/
theorem Avoiding.leave {k : ℕ} (h : Avoiding next visited k a goal) (hgoal : a ≠ goal) :
    ∃ b ∈ next a, ∃ m < k, Avoiding next (visited ++ [a]) m b goal := by
  induction k using Nat.strong_induction_on with
  | _ k ih =>
    cases h with
    | nil _ => exact absurd rfl hgoal
    | @cons m _ b _ ha hab hbc =>
      rcases hbc.split (a := a) with havoid | ⟨l, hl, hback⟩
      · exact ⟨b, hab, m, Nat.lt_succ_self m, havoid⟩
      · obtain ⟨c, hc, l', hl', havoid⟩ := ih l (by omega) hback
        exact ⟨c, hc, l', by omega, havoid⟩

theorem Ready.found (h : Ready next start goal visited ((goal, path) :: queue)) :
    Answers next start goal (some path) := by
  have hpath : IsPath next start goal path := h.paths _ List.mem_cons_self
  refine ⟨fun found hfound => ?_, fun hnone => absurd hnone (by simp),
    fun hno => absurd ⟨path, hpath⟩ hno⟩
  obtain rfl : path = found := Option.some.inj hfound
  refine ⟨hpath, fun other hother => ?_⟩
  obtain ⟨n, hchain, hlength⟩ := hother.chain
  obtain ⟨e, he, k, -, hle⟩ := h.ahead n hchain
  have hshortest : path.length ≤ e.2.length := by
    rcases List.mem_cons.mp he with rfl | he
    · exact le_rfl
    · exact (List.pairwise_cons.mp h.sorted).1 e he
  omega

theorem Ready.empty (h : Ready next start goal visited []) : Answers next start goal none := by
  refine ⟨fun path hpath => absurd hpath (by simp), fun _ => ?_, fun _ => rfl⟩
  rintro ⟨path, hpath⟩
  obtain ⟨n, hchain, -⟩ := hpath.chain
  obtain ⟨e, he, -⟩ := h.ahead n hchain
  exact absurd he List.not_mem_nil

end Queue

/-! ## The search -/

section Search

variable [DecidableEq α]

/-- The paths that are one edge longer than one to a node, where they end at nodes that were not
expanded. -/
def extensions (visited : List α) (a : α) (path : List α) : List (α × List α) :=
  ((next a).filter (· ∉ visited)).map fun b => (b, path ++ [b])

/-- The first path to the goal that is taken out of the queue.  Without fuel the search fails. -/
def search (goal : α) : ℕ → List α → List (α × List α) → Option (Option (List α))
  | 0, _, _ => none
  | _ + 1, _, [] => some none
  | fuel + 1, visited, (a, path) :: queue =>
    if a = goal then some (some path)
    else if a ∈ visited then search goal fuel visited queue
    else search goal fuel (visited ++ [a]) (queue ++ extensions next (visited ++ [a]) a path)

variable {next} {start goal : α} {visited : List α} {queue : List (α × List α)} {a : α}
  {path : List α}

theorem mem_extensions {e : α × List α} :
    e ∈ extensions next visited a path ↔
      e.1 ∈ next a ∧ e.1 ∉ visited ∧ e.2 = path ++ [e.1] := by
  simp only [extensions, List.mem_map, List.mem_filter, decide_eq_true_eq]
  constructor
  · rintro ⟨b, ⟨hb, hnew⟩, rfl⟩
    exact ⟨hb, hnew, rfl⟩
  · rintro ⟨hb, hnew, hpath⟩
    exact ⟨e.1, ⟨hb, hnew⟩, Prod.ext rfl hpath.symm⟩

theorem Ready.expand (h : Ready next start goal visited ((a, path) :: queue)) (hgoal : a ≠ goal) :
    Ready next start goal (visited ++ [a])
      (queue ++ extensions next (visited ++ [a]) a path) := by
  have hfirst := (List.pairwise_cons.mp h.sorted).1
  have hsecond : ∀ e ∈ queue, e.2.length ≤ path.length + 1 := fun e he =>
    h.close _ List.mem_cons_self e (List.mem_cons_of_mem _ he)
  have hlength : ∀ e ∈ extensions next (visited ++ [a]) a path,
      e.2.length = path.length + 1 := by
    intro e he
    rw [(mem_extensions.mp he).2.2, List.length_append, List.length_singleton]
  have hbounds : ∀ e ∈ queue ++ extensions next (visited ++ [a]) a path,
      path.length ≤ e.2.length ∧ e.2.length ≤ path.length + 1 := by
    intro e he
    rcases List.mem_append.mp he with he | he
    · exact ⟨hfirst e he, hsecond e he⟩
    · rw [hlength e he]
      exact ⟨Nat.le_succ _, le_rfl⟩
  constructor
  case paths =>
    intro e he
    rcases List.mem_append.mp he with he | he
    · exact h.paths e (List.mem_cons_of_mem _ he)
    · obtain ⟨hnext, -, hpath⟩ := mem_extensions.mp he
      rw [hpath]
      exact (h.paths _ List.mem_cons_self).snoc hnext
  case sorted =>
    refine List.pairwise_append.mpr ⟨(List.pairwise_cons.mp h.sorted).2, ?_, ?_⟩
    · exact List.pairwise_of_forall_mem_list fun e he f hf => by rw [hlength e he, hlength f hf]
    · intro e he f hf
      rw [hlength f hf]
      exact hsecond e he
  case close =>
    intro e he f hf
    exact (hbounds f hf).2.trans (Nat.succ_le_succ (hbounds e he).1)
  case ahead =>
    intro n hchain
    obtain ⟨e, he, k, havoid, hle⟩ := h.ahead n hchain
    have hshortest : path.length ≤ e.2.length := by
      rcases List.mem_cons.mp he with rfl | he
      · exact le_rfl
      · exact hfirst e he
    rcases havoid.split (a := a) with hstill | ⟨m, hm, hmeets⟩
    · rcases List.mem_cons.mp he with rfl | he
      · exact absurd (List.mem_append_right visited (List.mem_singleton_self a)) hstill.start
      · exact ⟨e, List.mem_append_left _ he, k, hstill, hle⟩
    · -- the chain meets the expanded node: what is behind it follows the path taken out
      obtain ⟨b, hb, l, hl, hrest⟩ := Avoiding.leave hmeets hgoal
      refine ⟨(b, path ++ [b]), List.mem_append_right _ ?_, l, hrest, ?_⟩
      · exact mem_extensions.mpr ⟨hb, hrest.start, rfl⟩
      · rw [List.length_append, List.length_singleton]
        omega

theorem search_answers {fuel : ℕ} {answer : Option (List α)}
    (hready : Ready next start goal visited queue)
    (h : search next goal fuel visited queue = some answer) : Answers next start goal answer := by
  induction fuel generalizing visited queue with
  | zero => exact absurd h (by simp [search])
  | succ fuel ih =>
    cases queue with
    | nil =>
      rw [search] at h
      rw [← Option.some.inj h]
      exact hready.empty
    | cons e queue =>
      rw [search] at h
      split at h
      · rename_i hgoal
        rw [← Option.some.inj h]
        obtain ⟨a, path⟩ := e
        obtain rfl : a = goal := hgoal
        exact hready.found
      rename_i hgoal
      split at h
      · rename_i hvisited
        exact ih (hready.skip hvisited) h
      · exact ih (hready.expand hgoal) h

/-- With more fuel than there are paths in the queue and edges from nodes that were not expanded
the search does not fail. -/
theorem search_total (next : α → List α) (goal : α) {room : List α → ℕ}
    (hroom : ∀ visited a, a ∉ visited → (next a).length + room (visited ++ [a]) ≤ room visited)
    {fuel : ℕ} (hfuel : queue.length + room visited < fuel) :
    ∃ answer, search next goal fuel visited queue = some answer := by
  induction fuel generalizing visited queue with
  | zero => exact absurd hfuel (Nat.not_lt_zero _)
  | succ fuel ih =>
    cases queue with
    | nil => exact ⟨none, rfl⟩
    | cons e queue =>
      rw [List.length_cons] at hfuel
      rw [search]
      split
      · exact ⟨_, rfl⟩
      split
      · exact ih (by omega)
      · rename_i hnew
        have hless := hroom visited e.1 hnew
        have hadded : (extensions next (visited ++ [e.1]) e.1 e.2).length ≤ (next e.1).length := by
          rw [extensions, List.length_map]
          exact List.length_filter_le _ _
        refine ih ?_
        rw [List.length_append]
        omega

end Search
end PathQueue
end Batiste
