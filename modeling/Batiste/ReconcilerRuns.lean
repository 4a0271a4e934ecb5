import Batiste.ReconcilerPass

/-! Runs of `reconcileFromGit`: what a second run over the same commits does, and what the sink
has recorded after any runs. -/
namespace Batiste
namespace TaskReconciler

open GitLog UnitElimination

/-- What a run has done to what is kept. -/
structure RunEffect (s t : Records) (taken recorded : List String) : Prop where
  faces : t.board.rows.map Task.face = s.board.rows.map Task.face
  status : ∀ id, t.board.status id = if id ∈ taken then some .completed else s.board.status id
  evidence : t.evidence.map Evidence.taskId = s.evidence.map Evidence.taskId ++ recorded
  keeps : recorded = [] → t.evidence = s.evidence

theorem Effect.run {s : Records} {q : Progress} {taken recorded : List String}
    (h : Effect (start s) q taken recorded) (lastSha : Option String) :
    RunEffect s ⟨q.board, lastSha, q.evidence⟩ taken recorded :=
  ⟨h.sync.faces.trans h.faces, h.status, h.evidence, h.keeps⟩

/-- How a run that has read its commits ends. -/
def RunEnds (host : Host) (s : Records) (taken : List String)
    (run : Records × Except Failure ReconcileResult) : Prop :=
  match run.2 with
  | .ok _ => RunEffect s run.1 taken (told host taken)
  | .error failure => (∃ message, failure = .sink message) ∧ host.auditSink.isSome ∧
      ∃ xs x, xs ++ [x] <+: taken ∧ RunEffect s run.1 (xs ++ [x]) xs

theorem reconcile_ends {repoPath : String} (host : Host) (opts : ReconcileOptions) (s : Records)
    {commits : List ParsedCommit} {warnings : List String}
    (hread : readCommits repoPath host.git (opts.since.or s.lastSha) = .ok (commits, warnings)) :
    RunEnds host s (pass (clauses s.board.rows (trailers commits)) (openIn s.board.status))
      (reconcileFromGit repoPath host opts s) := by
  have hends := loop_ends (start_sync s) host (opts.now.getD (host.date / 1000 : ℤ))
    (trailers commits)
  unfold reconcileFromGit
  simp only [hread]
  cases hloop : (trailers commits).foldlM
      (closeTrailer host (opts.now.getD (host.date / 1000 : ℤ))) (start s) with
  | ok p =>
    rw [hloop] at hends
    exact Effect.run hends _
  | error e =>
    rw [hloop] at hends
    obtain ⟨hfailure, hsink, xs, x, hpre, heffect⟩ := hends
    exact ⟨hfailure, hsink, xs, x, hpre, heffect.run s.lastSha⟩

theorem reconcile_unread {repoPath : String} (host : Host) (opts : ReconcileOptions) (s : Records)
    {message : String}
    (hread : readCommits repoPath host.git (opts.since.or s.lastSha) = .error message) :
    reconcileFromGit repoPath host opts s = (s, .error (.git message)) := by
  simp [reconcileFromGit, hread]

def Completed (s : Records) (id : String) : Prop := s.board.status id = some .completed

theorem not_completed_of_open {s : Records} {id : String} (h : openIn s.board.status id = true) :
    ¬ Completed s id := by
  intro hcompleted
  simp [openIn, show s.board.status id = some .completed from hcompleted] at h

theorem RunEffect.completed_iff {s t : Records} {taken recorded : List String}
    (h : RunEffect s t taken recorded) (id : String) :
    Completed t id ↔ id ∈ taken ∨ Completed s id := by
  unfold Completed
  rw [h.status]
  by_cases hid : id ∈ taken <;> simp [hid]

theorem RunEffect.openIn {s t : Records} {taken recorded : List String}
    (h : RunEffect s t taken recorded) :
    openIn t.board.status = without (openIn s.board.status) taken := by
  funext id
  by_cases hid : id ∈ taken <;> simp [TaskReconciler.openIn, without, h.status, hid]

/-- A run completes no task and records no evidence exactly when its pass takes nothing. -/
theorem nothing_new_iff {host : Host} {s : Records} {taken : List String}
    {run : Records × Except Failure ReconcileResult} (h : RunEnds host s taken run)
    (hopen : ∀ id ∈ taken, openIn s.board.status id = true) :
    ((∀ id, Completed run.1 id → Completed s id) ∧ run.1.evidence = s.evidence) ↔ taken = [] := by
  have hnew : ∀ {xs ys : List String} {x : String}, x ∈ xs → x ∈ taken →
      RunEffect s run.1 xs ys → ¬ ∀ id, Completed run.1 id → Completed s id := by
    intro xs ys x hx htaken heffect hsame
    exact not_completed_of_open (hopen x htaken)
      (hsame x ((heffect.completed_iff x).mpr (Or.inl hx)))
  unfold RunEnds at h
  split at h
  · constructor
    · intro hsame
      by_contra hne
      obtain ⟨x, hx⟩ := List.exists_mem_of_ne_nil taken hne
      exact hnew hx hx h hsame.1
    · rintro rfl
      exact ⟨fun id => by simp [h.completed_iff], h.keeps (told_nil host)⟩
  · obtain ⟨-, -, xs, x, hpre, heffect⟩ := h
    have hx : x ∈ taken := hpre.subset (by simp)
    constructor
    · exact fun hsame => absurd hsame.1 (hnew (by simp) hx heffect)
    · rintro rfl
      simp at hx

/-- After a run that succeeds, a second run over the same commits completes nothing and records
nothing exactly when every task that the trailers single out by elimination is singled out in
the order of the trailers. -/
theorem second_run_iff (repoPath : String) (host₁ host₂ : Host) (opts₁ opts₂ : ReconcileOptions)
    (since : String) (s : Records) (commits : List ParsedCommit) (warnings₁ warnings₂ : List String)
    (hsince₁ : opts₁.since = some since) (hsince₂ : opts₂.since = some since)
    (hread₁ : readCommits repoPath host₁.git (some since) = .ok (commits, warnings₁))
    (hread₂ : readCommits repoPath host₂.git (some since) = .ok (commits, warnings₂))
    (hfirst : ∃ result, (reconcileFromGit repoPath host₁ opts₁ s).2 = .ok result) :
    let first := (reconcileFromGit repoPath host₁ opts₁ s).1
    let second := (reconcileFromGit repoPath host₂ opts₂ first).1
    ((∀ id, Completed second id → Completed first id) ∧ second.evidence = first.evidence) ↔
      ∀ id, Settled (clauses s.board.rows (trailers commits)) (openIn s.board.status) id →
        ∃ i, SettledInOrder (clauses s.board.rows (trailers commits)) (openIn s.board.status)
          i id := by
  intro first second
  have hends₁ := reconcile_ends host₁ opts₁ s (by rw [hsince₁]; exact hread₁)
  have hends₂ := reconcile_ends host₂ opts₂ first (by rw [hsince₂]; exact hread₂)
  obtain ⟨result, hresult⟩ := hfirst
  simp only [RunEnds, hresult] at hends₁
  rw [clauses_congr hends₁.faces, hends₁.openIn] at hends₂
  rw [nothing_new_iff hends₂, pass_again_iff (clauses_nodup s.board.nodup _)]
  intro id hid
  rw [hends₁.openIn]
  exact pass_open hid

/-- One call of `reconcileFromGit` by a reconciler with a sink. -/
structure Run where
  git : List String → Except String String
  date : ℤ
  clock : ℕ → TaskManager.Clocks
  sink : ℕ → Option String
  opts : ReconcileOptions

def Run.perform (run : Run) (repoPath : String) (s : Records) :
    Records × Except Failure ReconcileResult :=
  reconcileFromGit repoPath ⟨run.git, run.date, run.clock, some run.sink⟩ run.opts s

def reconcileAll (repoPath : String) : Records → List Run → Records
  | s, [] => s
  | s, run :: rest => reconcileAll repoPath (run.perform repoPath s).1 rest

/-- The sink throws in one of the runs. -/
def SinkThrows (repoPath : String) : Records → List Run → Prop
  | _, [] => False
  | s, run :: rest => (∃ message, (run.perform repoPath s).2 = .error (.sink message)) ∨
      SinkThrows repoPath (run.perform repoPath s).1 rest

/-- A run completes open tasks, and the sink records them all but the one it throws on. -/
theorem perform_effect (run : Run) (repoPath : String) (s : Records) :
    ∃ taken recorded, RunEffect s (run.perform repoPath s).1 taken recorded ∧ taken.Nodup ∧
      (∀ id ∈ taken, openIn s.board.status id = true) ∧
      ((∃ message, (run.perform repoPath s).2 = .error (.sink message)) ∧
          (∃ x, taken = recorded ++ [x]) ∨
        (¬ ∃ message, (run.perform repoPath s).2 = .error (.sink message)) ∧ taken = recorded) := by
  unfold Run.perform
  cases hread : readCommits repoPath run.git (run.opts.since.or s.lastSha) with
  | error message =>
    have hsame := reconcile_unread ⟨run.git, run.date, run.clock, some run.sink⟩ run.opts s hread
    rw [hsame]
    exact ⟨[], [], ⟨rfl, by simp, by simp, fun _ => rfl⟩, List.nodup_nil, by simp,
      Or.inr ⟨by simp, rfl⟩⟩
  | ok read =>
    have hends := reconcile_ends ⟨run.git, run.date, run.clock, some run.sink⟩ run.opts s hread
    have hnodup := pass_nodup (clauses s.board.rows (trailers read.1)) (openIn s.board.status)
    have hopen : ∀ id ∈ pass (clauses s.board.rows (trailers read.1)) (openIn s.board.status),
        openIn s.board.status id = true := fun id => pass_open
    unfold RunEnds at hends
    split at hends
    · rename_i result hresult
      have htold := hends
      simp only [told, Option.isSome_some, if_true] at htold
      exact ⟨_, _, htold, hnodup, hopen, Or.inr ⟨by simp [hresult], rfl⟩⟩
    · rename_i failure hresult
      obtain ⟨⟨message, hmessage⟩, -, xs, x, hpre, heffect⟩ := hends
      refine ⟨_, _, heffect, hnodup.sublist hpre.sublist, fun id hid => ?_,
        Or.inl ⟨⟨message, by rw [hresult, hmessage]⟩, x, rfl⟩⟩
      exact hopen id (hpre.subset hid)

/-- What holds after runs from `s`: a task that was completed and is on record nowhere bears
witness that the sink has thrown. -/
structure Recorded (s t : Records) (threw : Prop) : Prop where
  nodup : (t.evidence.map Evidence.taskId).Nodup
  done : ∀ id ∈ t.evidence.map Evidence.taskId, Completed t id ∧ ¬ Completed s id
  kept : ∀ id, Completed s id → Completed t id
  lost : threw ↔ ∃ id, ¬ Completed s id ∧ Completed t id ∧ id ∉ t.evidence.map Evidence.taskId

theorem Recorded.perform {s t : Records} {threw : Prop} (h : Recorded s t threw) (run : Run)
    (repoPath : String) :
    Recorded s (run.perform repoPath t).1
      (threw ∨ ∃ message, (run.perform repoPath t).2 = .error (.sink message)) := by
  obtain ⟨taken, recorded, heffect, hnodup, hopen, hends⟩ := perform_effect run repoPath t
  have hnew : ∀ id ∈ taken, ¬ Completed t id := fun id hid => not_completed_of_open (hopen id hid)
  have hsub : recorded.Sublist taken := by
    rcases hends with ⟨-, x, rfl⟩ | ⟨-, rfl⟩
    · exact List.sublist_append_left recorded [x]
    · exact List.Sublist.refl taken
  refine ⟨?_, ?_, ?_, ?_⟩
  · rw [heffect.evidence, List.nodup_append]
    refine ⟨h.nodup, hnodup.sublist hsub, ?_⟩
    rintro id hid _ hrec rfl
    exact hnew id (hsub.subset hrec) (h.done id hid).1
  · intro id hid
    rw [heffect.evidence, List.mem_append] at hid
    rw [heffect.completed_iff]
    cases hid with
    | inl hold => exact ⟨Or.inr (h.done id hold).1, (h.done id hold).2⟩
    | inr hrec =>
      have htaken := hsub.subset hrec
      exact ⟨Or.inl htaken, fun hs => hnew id htaken (h.kept id hs)⟩
  · exact fun id hid => (heffect.completed_iff id).mpr (Or.inr (h.kept id hid))
  · rw [h.lost]
    simp only [heffect.completed_iff, heffect.evidence, List.mem_append, not_or]
    constructor
    · rintro (⟨id, hs, ht, hnot⟩ | hthrew)
      · exact ⟨id, hs, Or.inr ht, hnot, fun hrec => hnew id (hsub.subset hrec) ht⟩
      · obtain ⟨-, x, rfl⟩ | ⟨hnone, -⟩ := hends
        · have hx : x ∈ recorded ++ [x] := by simp
          refine ⟨x, fun hs => hnew x hx (h.kept x hs), Or.inl hx,
            fun hold => hnew x hx (h.done x hold).1, fun hrec => ?_⟩
          exact (List.nodup_append.mp hnodup).2.2 x hrec x (by simp) rfl
        · exact absurd hthrew hnone
    · rintro ⟨id, hs, htaken | ht, hnot, hrec⟩
      · obtain ⟨hthrew, -⟩ | ⟨-, rfl⟩ := hends
        · exact Or.inr hthrew
        · exact absurd htaken hrec
      · exact Or.inl ⟨id, hs, ht, hnot⟩

theorem Recorded.all {s t : Records} {threw : Prop} (h : Recorded s t threw) (repoPath : String)
    (runs : List Run) :
    Recorded s (reconcileAll repoPath t runs) (threw ∨ SinkThrows repoPath t runs) := by
  induction runs generalizing t threw with
  | nil => simpa [reconcileAll, SinkThrows] using h
  | cons run rest ih =>
    have hrest := ih (h.perform run repoPath)
    rwa [or_assoc] at hrest

/-- After any runs, each task that they have completed has exactly one evidence record, exactly
when the sink has thrown in none of them. -/
theorem evidence_once_iff (repoPath : String) (board : Board) (lastSha : Option String)
    (runs : List Run) :
    let s : Records := ⟨board, lastSha, []⟩
    let t := reconcileAll repoPath s runs
    (∀ id, ¬ Completed s id → Completed t id → (t.evidence.map Evidence.taskId).count id = 1) ↔
      ¬ SinkThrows repoPath s runs := by
  intro s t
  have hstart : Recorded s s False := ⟨by simp [s], by simp [s], fun _ h => h, by
    simp only [false_iff, not_exists]
    exact fun id h => h.1 h.2.1⟩
  have hfinal := hstart.all repoPath runs
  rw [false_or] at hfinal
  rw [hfinal.lost]
  constructor
  · rintro hall ⟨id, hs, ht, hnot⟩
    have hone := hall id hs ht
    rw [List.count_eq_zero_of_not_mem hnot] at hone
    exact absurd hone (by decide)
  · intro hnone id hs ht
    have hmem : id ∈ t.evidence.map Evidence.taskId := by
      by_contra hnot
      exact hnone ⟨id, hs, ht, hnot⟩
    exact List.count_eq_one_of_mem hfinal.nodup hmem

section Example

/-- A host whose `git` knows one window. -/
def answering (stdout : String) (auditSink : Option (ℕ → Option String)) : Host :=
  { git := fun _ => .ok stdout, date := 0, clock := fun _ => ⟨0, 0⟩, auditSink := auditSink }

def sinceTag : ReconcileOptions := { since := some "v1" }

/-- Two open tasks of one label. -/
def twins : Records where
  board := ⟨[⟨"1", none, "X", .pending, {}, none, none⟩, ⟨"2", none, "X", .pending, {}, none, none⟩],
    by decide, by simp [readParent]⟩
  lastSha := none
  evidence := []

/-- A commit that names the twins by their label, and then the first of them by its id. -/
def bothNames : Host := answering "c0ffee\x00Task-done: X\nTask-done: 1\x00" none

theorem second_run_lone :
    let host := answering "c0ffee\x00Task-done: old\x00" none
    let first := (reconcileFromGit "." host sinceTag ⟨TaskManager.lone, none, []⟩).1
    let second := (reconcileFromGit "." host sinceTag first).1
    (∀ id, Completed second id → Completed first id) ∧ second.evidence = first.evidence := by
  refine (second_run_iff "." _ _ sinceTag sinceTag "v1" ⟨TaskManager.lone, none, []⟩
    [⟨"c0ffee", ["old"]⟩] [] [] rfl rfl (by rfl) (by rfl) ⟨_, rfl⟩).mpr fun id h => ?_
  cases h with
  | unit hc hx hopen =>
    have hclauses : clauses TaskManager.lone.rows (trailers [⟨"c0ffee", ["old"]⟩]) = [["t"]] := by
      decide
    simp only [hclauses, List.mem_singleton] at hc ⊢
    subst hc
    obtain rfl := List.mem_singleton.mp hx
    refine ⟨0, .unit (fun _ => 0) rfl hx hopen ?_ ?_⟩
    · intro u hu _ hne
      exact absurd (List.mem_singleton.mp hu) hne
    · intro u hu _ hne
      exact absurd (List.mem_singleton.mp hu) hne

/-- The label means one task only once the id has closed the other, so the second run closes
what the first has left. -/
theorem second_run_closes :
    let first := (reconcileFromGit "." bothNames sinceTag twins).1
    let second := (reconcileFromGit "." bothNames sinceTag first).1
    (∃ result, (reconcileFromGit "." bothNames sinceTag twins).2 = .ok result) ∧
      Completed second "2" ∧ ¬ Completed first "2" := by
  refine ⟨⟨_, rfl⟩, ?_, ?_⟩
  · unfold Completed
    decide
  · unfold Completed
    decide

/-- A run over a commit that names the lone task. -/
def namedRun (sink : ℕ → Option String) : Run where
  git := fun _ => .ok "c0ffee\x00Task-done: old\x00"
  date := 0
  clock := fun _ => ⟨0, 0⟩
  sink := sink
  opts := {}

/-- The sink throws in the first run; the second run, which succeeds, finds the task completed
and tells the sink nothing. -/
theorem evidence_lost :
    let s : Records := ⟨TaskManager.lone, none, []⟩
    let first := (namedRun fun _ => some "disk full").perform "." s
    let second := (namedRun fun _ => none).perform "." first.1
    (∃ result, second.2 = .ok result) ∧ ¬ Completed s "t" ∧ Completed second.1 "t" ∧
      second.1.evidence = [] := by
  refine ⟨⟨_, rfl⟩, ?_, ?_, rfl⟩
  · unfold Completed
    decide
  · unfold Completed
    decide

end Example

end TaskReconciler
end Batiste
