import Batiste.DepthFirst

/-! Cycles found by a depth-first walk.  The walk reports one wherever it meets a node of its own
path again; a node that was visited before and is off the path is left alone.  While the limit is
out of the way nothing is reported exactly where no node in reach is on a cycle. -/
namespace Batiste
namespace DepthFirst

variable {α : Type*} (next : α → List α)

/-- A closed chain of edges that meets no other node twice. -/
structure IsCycle (cycle : List α) : Prop where
  closed : cycle.head? = cycle.getLast?
  edges : cycle.IsChain fun a b => b ∈ next a
  proper : 2 ≤ cycle.length
  simple : cycle.tail.Nodup

/-- A node that a chain leads to from one of the entries. -/
def InReach (entries : List α) (a : α) : Prop := ∃ e ∈ entries, ∃ n, Chain next n e a

/-- No node in reach is on a cycle. -/
def Acyclic (entries : List α) : Prop := ∀ a, InReach next entries a → ∀ n, ¬ Chain next (n + 1) a a

section Chains

variable {next}

theorem Chain.closed {P : α → Prop} (hP : ∀ a, P a → ∀ b ∈ next a, P b) {n : ℕ} {a b : α}
    (h : Chain next n a b) (ha : P a) : P b := by
  induction h with
  | nil a => exact ha
  | cons hab _ ih => exact ih (hP _ ha _ hab)

theorem InReach.step {entries : List α} {a b : α} (ha : InReach next entries a) (hb : b ∈ next a) :
    InReach next entries b := by
  obtain ⟨e, he, n, hchain⟩ := ha
  exact ⟨e, he, n + 1, hchain.snoc hb⟩

theorem InReach.of_mem {entries : List α} {a : α} (ha : a ∈ entries) : InReach next entries a :=
  ⟨a, ha, 0, .nil a⟩

theorem IsCycle.chain {cycle : List α} (h : IsCycle next cycle) :
    ∃ a ∈ cycle, ∃ n, Chain next (n + 1) a a := by
  obtain ⟨hclosed, hedges, hproper, -⟩ := h
  obtain ⟨a, l, rfl⟩ := List.exists_cons_of_length_pos (by omega : 0 < cycle.length)
  obtain ⟨n, hn⟩ := Nat.exists_eq_add_of_le' (by simpa using hproper : 1 ≤ l.length)
  refine ⟨a, List.mem_cons_self, n, ?_⟩
  rw [← hn]
  exact chain_of_isChain hedges hclosed.symm

theorem nodup_snoc {path : List α} {a : α} (h : path.Nodup) (ha : a ∉ path) :
    (path ++ [a]).Nodup := by
  rw [← List.concat_eq_append]
  exact h.concat ha

theorem forall_mem_snoc {P : α → Prop} {path : List α} {a : α} (h : ∀ x ∈ path, P x) (ha : P a) :
    ∀ x ∈ path ++ [a], P x := by
  intro x hx
  rcases List.mem_append.mp hx with hx | hx
  · exact h x hx
  · rwa [List.mem_singleton.mp hx]

theorem isChain_snoc {path : List α} {a b : α}
    (h : (path ++ [a]).IsChain fun x y => y ∈ next x) (hb : b ∈ next a) :
    (path ++ [a] ++ [b]).IsChain fun x y => y ∈ next x := by
  refine h.append (List.isChain_singleton b) ?_
  simpa using hb

end Chains

/-! ## The walk -/

/-- The nodes visited so far and the cycles reported so far. -/
structure Report (α : Type*) where
  visited : List α
  cycles : List (List α)

section Walk

variable [DecidableEq α] (tooDeep : ℕ → Bool)

/-- Visit a node at the end of a path.  Without fuel the walk fails. -/
def explore : ℕ → List α → ℕ → Report α → α → Option (Report α)
  | 0, _, _, _, _ => none
  | fuel + 1, path, depth, found, a =>
    if tooDeep depth then some found
    else if a ∈ path then
      some { found with cycles := found.cycles ++ [path.drop (path.idxOf a) ++ [a]] }
    else if a ∈ found.visited then some found
    else (next a).foldlM (explore fuel (path ++ [a]) (depth + 1))
      { found with visited := found.visited ++ [a] }

/-- Visit the nodes of a list from outside. -/
def exploreAll (fuel : ℕ) (entries : List α) : Option (Report α) :=
  entries.foldlM (explore next tooDeep fuel [] 0) ⟨[], []⟩

/-- Reporting changes nothing about what is visited. -/
theorem explore_visited (fuel depth : ℕ) (path : List α) (found : Report α) (a : α) :
    (explore next tooDeep fuel path depth found a).map Report.visited =
      visit next tooDeep fuel path depth found.visited a := by
  induction fuel generalizing path depth found a with
  | zero => rfl
  | succ fuel ih =>
    rw [explore, visit]
    split
    · rfl
    split
    · rfl
    split
    · rfl
    exact (foldlM_map (I := fun _ => True) (f := Report.visited)
      (fun s b _ _ => ⟨ih _ _ s b, fun _ _ => trivial⟩) trivial).1

theorem exploreAll_visited (fuel : ℕ) (entries : List α) :
    (exploreAll next tooDeep fuel entries).map Report.visited =
      visitAll next tooDeep fuel entries :=
  (foldlM_map (I := fun _ => True) (f := Report.visited)
    (fun s b _ _ => ⟨explore_visited next tooDeep fuel 0 [] s b, fun _ _ => trivial⟩) trivial).1

variable {next tooDeep}

theorem explore_mono {fuel depth : ℕ} {path : List α} {found report : Report α} {a : α}
    (h : explore next tooDeep fuel path depth found a = some report) :
    found.visited ⊆ report.visited := by
  have hvisit := explore_visited next tooDeep fuel depth path found a
  rw [h] at hvisit
  exact visit_mono hvisit.symm

theorem foldlM_explore_mono {fuel depth : ℕ} {path bs : List α} {found report : Report α}
    (h : bs.foldlM (explore next tooDeep fuel path depth) found = some report) :
    found.visited ⊆ report.visited :=
  foldlM_invariant (I := fun s : Report α => found.visited ⊆ s.visited)
    (fun _ _ _ _ hs ht => List.Subset.trans hs (explore_mono ht)) (List.Subset.refl _) h

/-- What was reported stays reported. -/
theorem explore_silent {fuel depth : ℕ} {path : List α} {found report : Report α} {a : α}
    (h : explore next tooDeep fuel path depth found a = some report)
    (hsilent : report.cycles = []) : found.cycles = [] := by
  induction fuel generalizing path depth found report a with
  | zero => exact absurd h (by simp [explore])
  | succ fuel ih =>
    rw [explore] at h
    split at h
    · rwa [Option.some.inj h]
    split at h
    · rw [← Option.some.inj h] at hsilent
      exact absurd hsilent (by simp)
    split at h
    · rwa [Option.some.inj h]
    by_contra hfound
    refine foldlM_invariant (I := fun s : Report α => s.cycles ≠ []) ?_ ?_ h hsilent
    · exact fun s t b _ hs ht hnil => hs (ih ht hnil)
    · exact hfound

/-! ## What is reported is a cycle -/

theorem isCycle_close {path : List α} {a : α} (ha : a ∈ path) (hnodup : path.Nodup)
    (hpath : (path ++ [a]).IsChain fun x y => y ∈ next x) :
    IsCycle next (path.drop (path.idxOf a) ++ [a]) := by
  have hlt : path.idxOf a < path.length := List.idxOf_lt_length_of_mem ha
  have hdrop : path.drop (path.idxOf a) = a :: path.drop (path.idxOf a + 1) := by
    rw [List.drop_eq_getElem_cons hlt, List.getElem_idxOf]
  have hsuffix : path.drop (path.idxOf a) ++ [a] = (path ++ [a]).drop (path.idxOf a) := by
    rw [List.drop_append_of_le_length hlt.le]
  constructor
  case closed =>
    rw [List.getLast?_append, hdrop]
    simp
  case edges =>
    rw [hsuffix]
    exact hpath.drop _
  case proper =>
    rw [hdrop]
    simp
  case simple =>
    have htail : (a :: path.drop (path.idxOf a + 1)).Nodup := by
      rw [← hdrop]
      exact hnodup.sublist (List.drop_sublist _ _)
    rw [hdrop, List.cons_append, List.tail_cons, List.nodup_append_comm]
    exact htail

/-- Every reported list is a cycle among nodes in reach. -/
theorem explore_genuine {R : α → Prop} (hR : ∀ a, R a → ∀ b ∈ next a, R b) {fuel depth : ℕ}
    {path : List α} {found report : Report α} {a : α}
    (h : explore next tooDeep fuel path depth found a = some report)
    (hnodup : path.Nodup) (hpath : (path ++ [a]).IsChain fun x y => y ∈ next x)
    (hin : ∀ x ∈ path, R x) (ha : R a)
    (hfound : ∀ c ∈ found.cycles, IsCycle next c ∧ ∀ x ∈ c, R x) :
    ∀ c ∈ report.cycles, IsCycle next c ∧ ∀ x ∈ c, R x := by
  induction fuel generalizing path depth found report a with
  | zero => exact absurd h (by simp [explore])
  | succ fuel ih =>
    rw [explore] at h
    split at h
    · rwa [← Option.some.inj h]
    split at h
    · rename_i hback
      rw [← Option.some.inj h]
      intro c hc
      rcases List.mem_append.mp hc with hc | hc
      · exact hfound c hc
      · rw [List.mem_singleton.mp hc]
        refine ⟨isCycle_close hback hnodup hpath, fun x hx => ?_⟩
        rcases List.mem_append.mp hx with hx | hx
        · exact hin x (List.mem_of_mem_drop hx)
        · rwa [List.mem_singleton.mp hx]
    rename_i hoff
    split at h
    · rwa [← Option.some.inj h]
    have hnodup' : (path ++ [a]).Nodup := nodup_snoc hnodup hoff
    have hin' : ∀ x ∈ path ++ [a], R x := forall_mem_snoc hin ha
    refine foldlM_invariant
      (I := fun s : Report α => ∀ c ∈ s.cycles, IsCycle next c ∧ ∀ x ∈ c, R x) ?_ ?_ h
    · exact fun s t b hb hs ht => ih ht hnodup' (isChain_snoc hpath hb) hin' (hR a ha b hb) hs
    · exact hfound

/-! ## What is not reported -/

variable (next) in
/-- The visited nodes off the path are finished: so are the nodes behind them, and none of them is
on a cycle. -/
def Finished (visited path : List α) : Prop :=
  ∀ x ∈ visited, x ∉ path →
    (∀ y ∈ next x, y ∈ visited ∧ y ∉ path) ∧ ∀ n, ¬ Chain next (n + 1) x x

/-- A node whose successors are finished is finished. -/
theorem Finished.leave {visited path : List α} {a : α}
    (h : Finished next visited (path ++ [a])) (hoff : a ∉ path) (ha : a ∈ visited)
    (hnext : ∀ b ∈ next a, b ∈ visited ∧ b ∉ path ++ [a]) : Finished next visited path := by
  have hshort : ∀ y, y ∉ path ++ [a] → y ∉ path := fun y hy hmem => hy (List.mem_append_left _ hmem)
  intro x hx hxpath
  by_cases hxa : x = a
  · subst hxa
    refine ⟨fun y hy => (hnext y hy).imp_right (hshort y), fun n hchain => ?_⟩
    -- behind the first edge the chain stays among the finished nodes, and `x` is none of them
    cases hchain with
    | cons hxb hbx =>
      have hback := hbx.closed (P := fun y => y ∈ visited ∧ y ∉ path ++ [x])
        (fun y hy => (h y hy.1 hy.2).1) (hnext _ hxb)
      exact hback.2 (by simp)
  · obtain ⟨hsucc, hcycle⟩ := h x hx (by simp [hxpath, hxa])
    exact ⟨fun y hy => (hsucc y hy).imp_right (hshort y), hcycle⟩

omit [DecidableEq α] in
theorem Finished.enter {visited path : List α} (h : Finished next visited path)
    {a : α} (ha : a ∉ visited) : Finished next (visited ++ [a]) (path ++ [a]) := by
  intro x hx hxpath
  rw [List.mem_append, not_or, List.mem_singleton] at hxpath
  rw [List.mem_append, List.mem_singleton] at hx
  obtain ⟨hsucc, hcycle⟩ := h x (hx.resolve_right hxpath.2) hxpath.1
  refine ⟨fun y hy => ?_, hcycle⟩
  obtain ⟨hy, hypath⟩ := hsucc y hy
  refine ⟨List.mem_append_left _ hy, ?_⟩
  rw [List.mem_append, not_or, List.mem_singleton]
  exact ⟨hypath, fun hya => ha (hya ▸ hy)⟩

variable (next) in
/-- Unless something was reported, the visited nodes off the path are finished. -/
def Clean (path : List α) (found : Report α) : Prop :=
  found.cycles = [] → Finished next found.visited path

/-- Unless something was reported, the node was visited and is off the path. -/
def Left (path : List α) (a : α) (found : Report α) : Prop :=
  found.cycles = [] → a ∈ found.visited ∧ a ∉ path

theorem Left.explore {fuel depth : ℕ} {path path' : List α} {s t : Report α} {a b : α}
    (h : explore next tooDeep fuel path' depth s b = some t) (hs : Left path a s) : Left path a t :=
  fun hsilent => (hs (explore_silent h hsilent)).imp_left (explore_mono h ·)

/-- A walk that reports nothing and is never too deep finishes the node it visits. -/
theorem explore_finished {R : α → Prop} (hR : ∀ a, R a → ∀ b ∈ next a, R b)
    (hlimit : ∀ path : List α, path.Nodup → (∀ x ∈ path, R x) → tooDeep path.length = false)
    {fuel : ℕ} {path : List α} {found report : Report α} {a : α}
    (h : explore next tooDeep fuel path path.length found a = some report)
    (hnodup : path.Nodup) (hin : ∀ x ∈ path, R x) (ha : R a) (hfound : Clean next path found) :
    Clean next path report ∧ Left path a report := by
  induction fuel generalizing path found report a with
  | zero => exact absurd h (by simp [explore])
  | succ fuel ih =>
    rw [explore, hlimit path hnodup hin, if_neg Bool.false_ne_true] at h
    split at h
    · rw [← Option.some.inj h]
      exact ⟨fun hsilent => absurd hsilent (by simp), fun hsilent => absurd hsilent (by simp)⟩
    rename_i hoff
    split at h
    · rename_i hvisited
      rw [← Option.some.inj h]
      exact ⟨hfound, fun _ => ⟨hvisited, hoff⟩⟩
    rename_i hnew
    have hnodup' : (path ++ [a]).Nodup := nodup_snoc hnodup hoff
    have hin' : ∀ x ∈ path ++ [a], R x := forall_mem_snoc hin ha
    have hlength : path.length + 1 = (path ++ [a]).length := by simp
    have ha' : a ∈ report.visited := foldlM_explore_mono h (by simp)
    rw [hlength] at h
    obtain ⟨hclean, hleft⟩ := foldlM_collect (I := Clean next (path ++ [a]))
      (P := Left (path ++ [a])) h (fun hsilent => (hfound hsilent).enter hnew)
      (fun s t b hb hs ht => ih ht hnodup' hin' (hR a ha b hb) hs)
      (fun s t b c ht hs => hs.explore ht)
    exact ⟨fun hsilent => (hclean hsilent).leave hoff ha' fun b hb => hleft b hb hsilent,
      fun _ => ⟨ha', hoff⟩⟩

/-! ## What is visited -/

variable (next) in
/-- The nodes of the path are visited, and so are the successors of the visited nodes off it. -/
structure Covers (path visited : List α) : Prop where
  onPath : ∀ x ∈ path, x ∈ visited
  behind : ∀ x ∈ visited, x ∉ path → ∀ y ∈ next x, y ∈ visited

theorem Covers.leave {path visited : List α} {a : α} (h : Covers next (path ++ [a]) visited)
    (hnext : ∀ b ∈ next a, b ∈ visited) : Covers next path visited := by
  refine ⟨fun x hx => h.onPath x (List.mem_append_left _ hx), fun x hx hxpath => ?_⟩
  by_cases hxa : x = a
  · rw [hxa]
    exact hnext
  · exact h.behind x hx (by simp [hxpath, hxa])

omit [DecidableEq α] in
theorem Covers.enter {path visited : List α} (h : Covers next path visited) (a : α) :
    Covers next (path ++ [a]) (visited ++ [a]) := by
  refine ⟨forall_mem_snoc (fun x hx => List.mem_append_left _ (h.onPath x hx)) (by simp), ?_⟩
  intro x hx hxpath y hy
  rw [List.mem_append, not_or] at hxpath
  exact List.mem_append_left _
    (h.behind x ((List.mem_append.mp hx).resolve_right hxpath.2) hxpath.1 y hy)

/-- A walk that is never too deep visits what is in reach. -/
theorem visit_covers {R : α → Prop} (hR : ∀ a, R a → ∀ b ∈ next a, R b)
    (hlimit : ∀ path : List α, path.Nodup → (∀ x ∈ path, R x) → tooDeep path.length = false)
    {fuel : ℕ} {path visited seen : List α} {a : α}
    (h : visit next tooDeep fuel path path.length visited a = some seen)
    (hnodup : path.Nodup) (hin : ∀ x ∈ path, R x) (ha : R a) (hvisited : Covers next path visited) :
    Covers next path seen ∧ a ∈ seen := by
  induction fuel generalizing path visited seen a with
  | zero => exact absurd h (by simp [visit])
  | succ fuel ih =>
    rw [visit, hlimit path hnodup hin, if_neg Bool.false_ne_true] at h
    split at h
    · rename_i hon
      rw [← Option.some.inj h]
      exact ⟨hvisited, hvisited.onPath a hon⟩
    rename_i hoff
    split at h
    · rename_i hold
      rw [← Option.some.inj h]
      exact ⟨hvisited, hold⟩
    have hnodup' : (path ++ [a]).Nodup := nodup_snoc hnodup hoff
    have hin' : ∀ x ∈ path ++ [a], R x := forall_mem_snoc hin ha
    have hlength : path.length + 1 = (path ++ [a]).length := by simp
    have ha' : a ∈ seen := foldlM_visit_mono h (by simp)
    rw [hlength] at h
    obtain ⟨hcovers, hnext⟩ := foldlM_collect (I := Covers next (path ++ [a]))
      (P := fun b s => b ∈ s) h (hvisited.enter a)
      (fun s t b hb hs ht => ih ht hnodup' hin' (hR a ha b hb) hs)
      (fun s t b c ht hs => visit_mono ht hs)
    exact ⟨hcovers.leave hnext, ha'⟩

/-! ## The walk as a whole -/

section Whole

variable {fuel : ℕ} {entries : List α} {report : Report α}
  (h : exploreAll next tooDeep fuel entries = some report)
include h

theorem exploreAll_genuine :
    ∀ c ∈ report.cycles, IsCycle next c ∧ ∀ a ∈ c, InReach next entries a := by
  refine foldlM_invariant
    (I := fun s : Report α => ∀ c ∈ s.cycles, IsCycle next c ∧ ∀ a ∈ c, InReach next entries a)
    ?_ (by simp) h
  exact fun s t e he hs ht => explore_genuine (fun a ha b hb => ha.step hb) ht List.nodup_nil
    (List.isChain_singleton e) (by simp) (.of_mem he) hs

variable (hlimit : ∀ path : List α, path.Nodup → (∀ a ∈ path, InReach next entries a) →
  tooDeep path.length = false)
include hlimit

/-- Everything in reach is visited. -/
theorem exploreAll_covers {a : α} (ha : InReach next entries a) : a ∈ report.visited := by
  have hvisit := exploreAll_visited next tooDeep fuel entries
  rw [h] at hvisit
  obtain ⟨hcovers, hentries⟩ := foldlM_collect (I := Covers next [])
    (P := fun b s => b ∈ s) hvisit.symm ⟨by simp, by simp⟩ (fun s t e he hs ht =>
      visit_covers (fun a ha b hb => ha.step hb) hlimit ht List.nodup_nil (by simp) (.of_mem he) hs)
    (fun s t b c ht hs => visit_mono ht hs)
  obtain ⟨e, he, n, hchain⟩ := ha
  exact hchain.closed (P := (· ∈ report.visited))
    (fun x hx y hy => hcovers.behind x hx List.not_mem_nil y hy) (hentries e he)

/-- Nothing is reported exactly where nothing in reach is on a cycle. -/
theorem exploreAll_silent_iff : report.cycles = [] ↔ Acyclic next entries := by
  constructor
  · intro hsilent a ha
    have hclean := foldlM_invariant (I := Clean next []) (fun s t e he hs ht =>
      (explore_finished (fun a ha b hb => ha.step hb) hlimit ht List.nodup_nil (by simp)
        (.of_mem he) hs).1) (fun _ x hx => absurd hx List.not_mem_nil) h
    exact (hclean hsilent a (exploreAll_covers h hlimit ha) List.not_mem_nil).2
  · intro hacyclic
    by_contra hreported
    obtain ⟨c, hc⟩ := List.exists_mem_of_ne_nil _ hreported
    obtain ⟨hcycle, hreach⟩ := exploreAll_genuine h c hc
    obtain ⟨a, ha, n, hchain⟩ := hcycle.chain
    exact hacyclic a (hreach a ha) n hchain

end Whole

end Walk
end DepthFirst
end Batiste
