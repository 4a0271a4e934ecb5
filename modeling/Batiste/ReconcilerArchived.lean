import Batiste.ReconcilerPass
import Batiste.TaskManager

/-! Archived tasks under reconciliation.  For `manage_task` a task that failed with the mark of
an archived one is closed; the resolver of `TaskReconciler.ts` counts every task as open that
is not completed. -/
namespace Batiste
namespace TaskReconciler

open GitLog UnitElimination

/-- The archived tasks of a board. -/
def archivedIds (tasks : List Task) : List String :=
  (tasks.filter TaskActions.archived).map Task.id

/-- The tasks that are none of these. -/
def leaveOut (ids : List String) (tasks : List Task) : List Task :=
  tasks.filter fun task => decide (task.id ∉ ids)

/-- The task a trailer closes. -/
def closes (value : String) (tasks : List Task) : Option String :=
  ((resolveMatch value tasks).task.filter isOpen).map Task.id

def isAmbiguous (value : String) (tasks : List Task) : Bool :=
  (resolveMatch value tasks).ambiguous.isSome

/-- The loop has come to a trailer of this value. -/
def Reaches (repoPath : String) (host : Host) (opts : ReconcileOptions) (s : Records)
    (p : Progress) (value : String) : Prop :=
  ∃ commits warnings pre sha post,
    readCommits repoPath host.git (opts.since.or s.lastSha) = .ok (commits, warnings) ∧
    trailers commits = pre ++ (sha, value) :: post ∧
    pre.foldlM (closeTrailer host (opts.now.getD (host.date / 1000 : ℤ))) (start s) = .ok p

/-- Some tasks make no trailer ambiguous, nor change which of the others it closes. -/
def Undisturbed (ids : List String) (value : String) (tasks : List Task) : Prop :=
  (isAmbiguous value tasks = true → isAmbiguous value (leaveOut ids tasks) = true) ∧
    ∀ id ∉ ids, closes value tasks = some id ↔ closes value (leaveOut ids tasks) = some id

/-- The value can mean none of these tasks, or it is ambiguous with them and without them. -/
def Unaffected (ids : List String) (value : String) (tasks : List Task) : Prop :=
  (∀ id ∈ clause tasks value, id ∉ ids) ∨
    (1 < ((candidates value tasks).filter isOpen).length ∧
      1 < ((candidates value (leaveOut ids tasks)).filter isOpen).length)

theorem isAmbiguous_iff (value : String) (tasks : List Task) :
    isAmbiguous value tasks = true ↔ 1 < ((candidates value tasks).filter isOpen).length := by
  rw [isAmbiguous, resolveMatch_eq, among]
  rcases (candidates value tasks).filter isOpen with _ | ⟨task, _ | ⟨other, rest⟩⟩
  · simp
  · simp
  · simp

theorem closes_eq_none {value : String} {tasks : List Task}
    (h : 1 < ((candidates value tasks).filter isOpen).length) : closes value tasks = none := by
  rw [closes, resolveMatch_eq, among]
  rcases hopen : (candidates value tasks).filter isOpen with _ | ⟨task, _ | ⟨other, rest⟩⟩
  · simp [hopen] at h
  · simp [hopen] at h
  · simp

/-- Leaving out tasks that a value cannot mean leaves what it can mean. -/
theorem candidates_leaveOut {ids : List String} {value : String} {tasks : List Task}
    (h : ∀ id ∈ clause tasks value, id ∉ ids) :
    candidates value (leaveOut ids tasks) = candidates value tasks := by
  have hkeep : ∀ task ∈ candidates value tasks, decide (task.id ∉ ids) = true := by
    intro task htask
    exact decide_eq_true (h task.id (List.mem_map_of_mem htask))
  have hhits : idHits value (leaveOut ids tasks) =
      (idHits value tasks).filter fun task => decide (task.id ∉ ids) := by
    unfold idHits leaveOut
    split_ifs
    · rw [List.filter_comm]
    · rfl
  have hfind : (leaveOut ids tasks).find? (fun task => task.id == value) =
      tasks.find? fun task => task.id == value := by
    rw [leaveOut, List.find?_filter]
    cases hhit : tasks.find? fun task => task.id == value with
    | none =>
      rw [List.find?_eq_none] at hhit ⊢
      intro task htask
      simp [hhit task htask]
    | some task =>
      have hid := List.find?_some hhit
      have hin := hkeep task (by simp [candidates, hhit])
      rw [List.find?_eq_some_iff_append] at hhit ⊢
      obtain ⟨-, before, after, hsplit, hbefore⟩ := hhit
      refine ⟨decide_eq_true ⟨hin, hid⟩, before, after, hsplit, fun other hother => ?_⟩
      have hne : (other.id == value) = false := by simpa using hbefore other hother
      simp [hne]
  unfold candidates
  rw [hfind]
  cases hhit : tasks.find? fun task => task.id == value with
  | some task => rfl
  | none =>
    rw [hhits]
    by_cases hnil : idHits value tasks = []
    · rw [if_pos hnil, if_pos (by rw [hnil]; rfl), leaveOut, List.filter_comm]
      refine List.filter_eq_self.mpr fun task htask => hkeep task ?_
      simpa [candidates, hhit, hnil] using htask
    · have hsame : (idHits value tasks).filter (fun task => decide (task.id ∉ ids)) =
          idHits value tasks := by
        refine List.filter_eq_self.mpr fun task htask => hkeep task ?_
        simpa [candidates, hhit, hnil] using htask
      rw [if_neg hnil, hsame, if_neg hnil]

theorem undisturbed_of_unaffected {ids : List String} {value : String} {tasks : List Task}
    (h : Unaffected ids value tasks) : Undisturbed ids value tasks := by
  rcases h with hnone | ⟨hfull, hleft⟩
  · have hsame : resolveMatch value (leaveOut ids tasks) = resolveMatch value tasks := by
      rw [resolveMatch_eq, resolveMatch_eq, candidates_leaveOut hnone]
    simp only [Undisturbed, isAmbiguous, closes, hsame, imp_self, iff_self, implies_true,
      and_self]
  · refine ⟨fun _ => (isAmbiguous_iff value _).mpr hleft, fun id _ => ?_⟩
    rw [closes_eq_none hfull, closes_eq_none hleft]

/-! ## The loop -/

/-- Where the loop has come to, also when it throws. -/
def final : Except (Failure × Progress) Progress → Progress
  | .ok p => p
  | .error (_, p) => p

theorem reconcile_board {repoPath : String} {host : Host} {opts : ReconcileOptions} {s : Records}
    {commits : List ParsedCommit} {warnings : List String}
    (hread : readCommits repoPath host.git (opts.since.or s.lastSha) = .ok (commits, warnings)) :
    (reconcileFromGit repoPath host opts s).1.board =
      (final ((trailers commits).foldlM
        (closeTrailer host (opts.now.getD (host.date / 1000 : ℤ))) (start s))).board := by
  unfold reconcileFromGit
  simp only [hread]
  cases (trailers commits).foldlM (closeTrailer host (opts.now.getD (host.date / 1000 : ℤ)))
      (start s) <;> rfl

/-- What every trailer of the loop preserves holds wherever the loop comes to. -/
theorem loop_invariant {host : Host} {now : ℚ} {I : Progress → Prop} {p₀ : Progress}
    (trailers : List (String × String)) (hI : I p₀)
    (hstep : ∀ pre trailer post p, trailers = pre ++ trailer :: post →
      pre.foldlM (closeTrailer host now) p₀ = .ok p → I p →
      I (final (closeTrailer host now p trailer))) :
    I (final (trailers.foldlM (closeTrailer host now) p₀)) := by
  induction trailers using List.reverseRecOn with
  | nil => exact hI
  | append_singleton trailers trailer ih =>
    have hbefore := ih fun pre trailer' post p hsplit => by
      refine hstep pre trailer' (post ++ [trailer]) p ?_
      simp [hsplit]
    rw [List.foldlM_append]
    cases hloop : trailers.foldlM (closeTrailer host now) p₀ with
    | error e =>
      rw [hloop] at hbefore
      exact hbefore
    | ok p =>
      rw [hloop] at hbefore
      have hlast := hstep trailers trailer [] p rfl hloop hbefore
      change I (final ([trailer].foldlM (closeTrailer host now) p))
      rw [List.foldlM_cons]
      cases htrailer : closeTrailer host now p trailer with
      | error e =>
        rw [htrailer] at hlast
        exact hlast
      | ok q =>
        rw [htrailer] at hlast
        exact hlast

/-- The loop from some state on completes the tasks of a part of a pass. -/
theorem final_effect {p : Progress} (h : Sync p) (host : Host) (now : ℚ)
    (trailers : List (String × String)) :
    ∃ taken recorded, Effect p (final (trailers.foldlM (closeTrailer host now) p)) taken recorded ∧
      taken <+: pass (clauses p.allTasks trailers) (openIn p.board.status) ∧
      (taken = [] → pass (clauses p.allTasks trailers) (openIn p.board.status) = []) := by
  have hends := loop_ends h host now trailers
  cases hloop : trailers.foldlM (closeTrailer host now) p with
  | ok q =>
    rw [hloop] at hends
    exact ⟨_, _, hends, List.prefix_rfl, id⟩
  | error e =>
    obtain ⟨failure, q⟩ := e
    rw [hloop] at hends
    obtain ⟨-, -, xs, x, hpre, heffect⟩ := hends
    exact ⟨xs ++ [x], xs, heffect, hpre, by simp⟩

theorem start_reached {s : Records} {host : Host} {now : ℚ} {pre : List (String × String)}
    {p : Progress} (h : pre.foldlM (closeTrailer host now) (start s) = .ok p) :
    ∃ taken recorded, Effect (start s) p taken recorded := by
  obtain ⟨taken, recorded, heffect, -⟩ := final_effect (start_sync s) host now pre
  rw [h] at heffect
  exact ⟨taken, recorded, heffect⟩

/-- The task a trailer singles out is completed at the end. -/
theorem completed_of_pick {p : Progress} (h : Sync p) (host : Host) (now : ℚ)
    (trailer : String × String) (post : List (String × String)) {id : String}
    (hpick : pick (openIn p.board.status) (clause p.allTasks trailer.2) = some id) :
    (final ((trailer :: post).foldlM (closeTrailer host now) p)).board.status id =
      some .completed := by
  obtain ⟨taken, recorded, heffect, hpre, hnil⟩ := final_effect h host now (trailer :: post)
  rw [pass_trailers, hpick] at hpre hnil
  have hmem : id ∈ taken := by
    cases taken with
    | nil => simp at hnil
    | cons x xs =>
      obtain ⟨rfl, -⟩ := List.cons_prefix_cons.mp hpre
      exact List.mem_cons_self
  rw [heffect.status, if_pos hmem]

/-- A trailer completes the task its clause picks, also when the sink then throws. -/
theorem trailer_status {p : Progress} (h : Sync p) (host : Host) (now : ℚ)
    (trailer : String × String) (id : String) :
    (final (closeTrailer host now p trailer)).board.status id =
      if pick (openIn p.board.status) (clause p.allTasks trailer.2) = some id then
        some .completed
      else p.board.status id := by
  rcases closeTrailer_effect h host now trailer with
    ⟨q, hq, heffect⟩ | ⟨message, q, x, hq, -, hpick, heffect⟩
  · rw [hq, final, heffect.status]
    simp only [Option.mem_toList]
  · rw [hq, final, heffect.status, hpick]
    simp only [List.mem_singleton, Option.some.injEq, eq_comm]

/-- The archived tasks keep their status, and their presence makes no trailer ambiguous and
changes no other closure. -/
def Terminal (repoPath : String) (host : Host) (opts : ReconcileOptions) (s : Records) : Prop :=
  (∀ id ∈ archivedIds s.board.rows,
    (reconcileFromGit repoPath host opts s).1.board.status id = some .failed) ∧
  ∀ p value, Reaches repoPath host opts s p value →
    Undisturbed (archivedIds s.board.rows) value p.allTasks

theorem archived_failed {b : Board} {id : String} (h : id ∈ archivedIds b.rows) :
    b.status id = some .failed := by
  obtain ⟨task, htask, rfl⟩ := List.mem_map.mp h
  obtain ⟨hrow, harchived⟩ := List.mem_filter.mp htask
  have hstatus : b.status task.id = some task.status := statusIn_of_mem b.nodup hrow
  rw [hstatus]
  simp only [TaskActions.archived, Bool.and_eq_true, beq_iff_eq] at harchived
  rw [harchived.1]

/-- A value with this effect on the open tasks singles out none of the archived ones. -/
theorem Unaffected.not_picked {ids : List String} {value id : String} {p : Progress}
    (h : Unaffected ids value p.allTasks) (hsync : Sync p) (hid : id ∈ ids) :
    pick (openIn p.board.status) (clause p.allTasks value) ≠ some id := by
  intro hpick
  rcases h with hnone | ⟨hmany, -⟩
  · exact hnone id ((pick_eq_some_iff (clause_nodup hsync.nodup value)).mp hpick).1 hid
  · have hfilter := filter_clause hsync.nodup value
    rw [hsync.status, pick_eq_some_iff_filter.mp hpick] at hfilter
    rw [← List.length_map Task.id, ← hfilter] at hmany
    simp at hmany

theorem kept_of_unaffected {repoPath : String} {host : Host} {opts : ReconcileOptions}
    {s : Records} (h : ∀ p value, Reaches repoPath host opts s p value →
      Unaffected (archivedIds s.board.rows) value p.allTasks) :
    ∀ id ∈ archivedIds s.board.rows,
      (reconcileFromGit repoPath host opts s).1.board.status id = some .failed := by
  intro id hid
  cases hread : readCommits repoPath host.git (opts.since.or s.lastSha) with
  | error message => simpa [reconcileFromGit, hread] using archived_failed hid
  | ok read =>
    obtain ⟨commits, warnings⟩ := read
    rw [reconcile_board hread]
    refine loop_invariant (I := fun p => p.board.status id = some .failed) (trailers commits)
      (archived_failed hid) fun pre trailer post p hsplit hloop hfailed => ?_
    obtain ⟨taken, recorded, heffect⟩ := start_reached hloop
    have hunaffected := h p trailer.2
      ⟨commits, warnings, pre, trailer.1, post, hread, hsplit, hloop⟩
    rw [trailer_status heffect.sync, if_neg (hunaffected.not_picked heffect.sync hid)]
    exact hfailed

/-- A task that keeps the status `failed` to the end is open all along, and no trailer singles
it out. -/
theorem many_of_kept {p : Progress} (h : Sync p) (host : Host) (now : ℚ)
    (trailer : String × String) (post : List (String × String)) {id : String}
    (hclause : id ∈ clause p.allTasks trailer.2)
    (hend : (final ((trailer :: post).foldlM (closeTrailer host now) p)).board.status id =
      some .failed) :
    1 < ((candidates trailer.2 p.allTasks).filter isOpen).length := by
  obtain ⟨taken, recorded, heffect, -⟩ := final_effect h host now (trailer :: post)
  have hfailed : p.board.status id = some .failed := by
    by_cases hmem : id ∈ taken
    · rw [heffect.status, if_pos hmem] at hend
      simp at hend
    · rwa [heffect.status, if_neg hmem] at hend
  have hfilter := filter_clause h.nodup trailer.2
  rw [h.status] at hfilter
  have hin : id ∈ (clause p.allTasks trailer.2).filter (openIn p.board.status) :=
    List.mem_filter.mpr ⟨hclause, by simp [openIn, hfailed]⟩
  rw [← List.length_map Task.id, ← hfilter]
  by_contra hone
  obtain ⟨x, hopen⟩ := List.length_eq_one_iff.mp
    (le_antisymm (not_lt.mp hone) (List.length_pos_of_mem hin))
  obtain rfl : id = x := by simpa [hopen] using hin
  rw [completed_of_pick h host now trailer post (pick_eq_some_iff_filter.mpr hopen)] at hend
  simp at hend

/-- Reconciliation leaves the archived tasks closed exactly where every trailer it comes to can
mean no archived task, or is ambiguous with and without them. -/
theorem archived_terminal_iff (repoPath : String) (host : Host) (opts : ReconcileOptions)
    (s : Records) :
    Terminal repoPath host opts s ↔ ∀ p value, Reaches repoPath host opts s p value →
      Unaffected (archivedIds s.board.rows) value p.allTasks := by
  refine ⟨fun ⟨hkept, hundisturbed⟩ p value hreach => ?_, fun h =>
    ⟨kept_of_unaffected h, fun p value hreach => undisturbed_of_unaffected (h p value hreach)⟩⟩
  by_cases hnone : ∀ id ∈ clause p.allTasks value, id ∉ archivedIds s.board.rows
  · exact Or.inl hnone
  push Not at hnone
  obtain ⟨id, hclause, hid⟩ := hnone
  have hquiet := hundisturbed p value hreach
  obtain ⟨commits, warnings, pre, sha, post, hread, hsplit, hloop⟩ := hreach
  obtain ⟨taken, recorded, heffect⟩ := start_reached hloop
  have hend := hkept id hid
  rw [reconcile_board hread, hsplit, List.foldlM_append, hloop] at hend
  have hmany := many_of_kept heffect.sync host _ (sha, value) post hclause hend
  exact Or.inr ⟨hmany, (isAmbiguous_iff value _).mp
    (hquiet.1 ((isAmbiguous_iff value _).mpr hmany))⟩

/-- A board with one archived task. -/
def shelved : Board where
  rows := [{ id := "t", label := "old", status := .failed
             context := { metadata := some [("obsolete",
               .object [("reason", .string "superseded"), ("at", .number 0)])] } }]
  nodup := by simp
  parents := by simp [readParent]

def shelvedHost : Host where
  git := fun _ => .ok "c0ffee\x00Task-done: old\x00"
  date := 0
  clock := fun _ => ⟨0, 0⟩
  auditSink := none

/-- A commit names the archived task, and reconciliation completes it. -/
theorem archived_reopened : ¬ Terminal "." shelvedHost {} ⟨shelved, none, []⟩ := by
  intro h
  have hkept := h.1 "t" (by decide)
  exact absurd hkept (by decide)

end TaskReconciler
end Batiste
