import Batiste.TaskReconciler
import Batiste.UnitElimination

/-! The loop of `reconcileFromGit` is a pass of unit elimination: the clause of a trailer lists
the tasks it can mean, which closing tasks does not change. -/
namespace Batiste
namespace TaskReconciler

open UnitElimination

/-- The tasks a value can mean, open or not. -/
def candidates (value : String) (tasks : List Task) : List Task :=
  match tasks.find? fun task => task.id == value with
  | some task => [task]
  | none =>
    if idHits value tasks = [] then tasks.filter fun task => task.label == value
    else idHits value tasks

theorem resolveMatch_eq (value : String) (tasks : List Task) :
    resolveMatch value tasks = among (candidates value tasks) := by
  unfold resolveMatch candidates
  cases tasks.find? fun task => task.id == value with
  | none => simp only; split_ifs <;> rfl
  | some task =>
    by_cases hopen : isOpen task = true <;> simp [among, hopen]

theorem idHits_sublist (value : String) (tasks : List Task) :
    (idHits value tasks).Sublist tasks := by
  unfold idHits
  split_ifs
  · exact List.filter_sublist
  · exact List.nil_sublist tasks

theorem candidates_sublist (value : String) (tasks : List Task) :
    (candidates value tasks).Sublist tasks := by
  unfold candidates
  split
  · rename_i task htask
    exact List.singleton_sublist.mpr (List.mem_of_find?_eq_some htask)
  · split_ifs
    · exact List.filter_sublist
    · exact idHits_sublist value tasks

/-- The ids a value can mean. -/
def clause (tasks : List Task) (value : String) : List String :=
  (candidates value tasks).map Task.id

theorem clause_nodup {tasks : List Task} (h : (tasks.map Task.id).Nodup) (value : String) :
    (clause tasks value).Nodup :=
  h.sublist ((candidates_sublist value tasks).map Task.id)

/-- The ids a value can mean, from the ids and labels of the board. -/
def clauseOf (faces : List (String × String)) (value : String) : List String :=
  let hits := if isIdPrefix value.toList then
      faces.filter fun face => (lower value).isPrefixOf (lower face.1)
    else []
  match faces.find? fun face => face.1 == value with
  | some face => [face.1]
  | none =>
    if hits = [] then (faces.filter fun face => face.2 == value).map Prod.fst
    else hits.map Prod.fst

theorem clause_eq (tasks : List Task) (value : String) :
    clause tasks value = clauseOf (tasks.map Task.face) value := by
  have hhits : (if isIdPrefix value.toList then
      (tasks.map Task.face).filter fun face => (lower value).isPrefixOf (lower face.1)
      else []) = (idHits value tasks).map Task.face := by
    unfold idHits
    split_ifs
    · rw [List.filter_map]
      rfl
    · rfl
  have hlabels : (tasks.map Task.face).filter (fun face => face.2 == value) =
      (tasks.filter fun task => task.label == value).map Task.face := by
    rw [List.filter_map]
    rfl
  have hids : ∀ hits : List Task, (hits.map Task.face).map Prod.fst = hits.map Task.id := by
    intro hits
    rw [List.map_map]
    rfl
  unfold clauseOf clause candidates
  simp only [hhits, hlabels, hids, List.find?_map, List.map_eq_nil_iff]
  change _ = match (tasks.find? fun task => task.id == value).map Task.face with
    | some face => [face.1]
    | none => _
  cases tasks.find? fun task => task.id == value with
  | some task => rfl
  | none =>
    simp only [Option.map_none]
    split_ifs <;> rfl

section Complete

variable (taskId : String) (tasks : List Task)

theorem complete_faces : (complete taskId tasks).map Task.face = tasks.map Task.face := by
  rw [complete, List.map_map]
  refine List.map_congr_left fun task _ => ?_
  by_cases hid : task.id = taskId <;> simp [hid, Task.face]

theorem complete_ids : (complete taskId tasks).map Task.id = tasks.map Task.id := by
  have hfaces := congrArg (List.map Prod.fst) (complete_faces taskId tasks)
  rwa [List.map_map, List.map_map] at hfaces

theorem statusIn_complete (hmem : taskId ∈ tasks.map Task.id) (id : String) :
    statusIn (complete taskId tasks) id =
      if id = taskId then some .completed else statusIn tasks id := by
  have hids : ∀ task : Task, (if task.id = taskId then { task with status := .completed }
      else task).id = task.id := by
    intro task
    split_ifs <;> rfl
  unfold statusIn
  rw [complete, List.find?_map]
  simp only [Function.comp_def, hids]
  cases hfind : tasks.find? fun task => task.id == id with
  | none =>
    have hne : id ≠ taskId := by
      rintro rfl
      obtain ⟨task, htask, heq⟩ := List.mem_map.mp hmem
      simpa [heq] using List.find?_eq_none.mp hfind task htask
    simp [hne]
  | some task =>
    have hid : task.id = id := by simpa using List.find?_some hfind
    by_cases heq : id = taskId <;> simp [hid, heq]

end Complete

/-- The open tasks, by their ids. -/
def openIn (status : String → Option TaskStatus) (id : String) : Bool :=
  (status id).any fun s => s != .completed

theorem statusIn_of_mem {tasks : List Task} (h : (tasks.map Task.id).Nodup) {task : Task}
    (htask : task ∈ tasks) : statusIn tasks task.id = some task.status := by
  have hsome : (tasks.find? fun other => other.id == task.id).isSome := by
    rw [List.find?_isSome]
    exact ⟨task, htask, by simp⟩
  obtain ⟨other, hother⟩ := Option.isSome_iff_exists.mp hsome
  have hid : other.id = task.id := by simpa using List.find?_some hother
  rw [statusIn, hother,
    List.inj_on_of_nodup_map h (List.mem_of_find?_eq_some hother) htask hid]
  rfl

theorem openIn_of_mem {tasks : List Task} (h : (tasks.map Task.id).Nodup) {task : Task}
    (htask : task ∈ tasks) : openIn (statusIn tasks) task.id = isOpen task := by
  simp [openIn, statusIn_of_mem h htask, isOpen]

/-- The open candidate of a clause is the one open task among its hits. -/
theorem filter_clause {tasks : List Task} (h : (tasks.map Task.id).Nodup) (value : String) :
    (clause tasks value).filter (openIn (statusIn tasks)) =
      ((candidates value tasks).filter isOpen).map Task.id := by
  rw [clause, List.filter_map]
  congr 1
  refine List.filter_congr fun task htask => ?_
  exact openIn_of_mem h ((candidates_sublist value tasks).subset htask)

/-- The snapshot agrees with the board it is a copy of. -/
structure Sync (p : Progress) : Prop where
  nodup : (p.allTasks.map Task.id).Nodup
  faces : p.board.rows.map Task.face = p.allTasks.map Task.face
  status : statusIn p.allTasks = p.board.status
  closed : ∀ id ∈ p.closedIds, p.board.status id = some .completed

theorem start_sync (s : Records) : Sync (start s) := ⟨s.board.nodup, rfl, rfl, by simp [start]⟩

/-- What a part of the loop has done: the tasks it has completed, and those of them that the
sink has recorded. -/
structure Effect (p q : Progress) (taken recorded : List String) : Prop where
  sync : Sync q
  status : ∀ id, q.board.status id = if id ∈ taken then some .completed else p.board.status id
  faces : q.allTasks.map Task.face = p.allTasks.map Task.face
  evidence : q.evidence.map Evidence.taskId = p.evidence.map Evidence.taskId ++ recorded
  keeps : recorded = [] → q.evidence = p.evidence

namespace Effect

variable {p q r : Progress} {xs ys xs' ys' : List String}

theorem refl (h : Sync p) : Effect p p [] [] :=
  ⟨h, by simp, rfl, by simp, fun _ => rfl⟩

theorem trans (h : Effect p q xs ys) (h' : Effect q r xs' ys') :
    Effect p r (xs ++ xs') (ys ++ ys') := by
  refine ⟨h'.sync, fun id => ?_, h'.faces.trans h.faces, ?_, ?_⟩
  · rw [h'.status, h.status]
    by_cases hx : id ∈ xs <;> by_cases hx' : id ∈ xs' <;> simp [hx, hx']
  · rw [h'.evidence, h.evidence, List.append_assoc]
  · intro hnil
    obtain ⟨hys, hys'⟩ := List.append_eq_nil_iff.mp hnil
    rw [h'.keeps hys', h.keeps hys]

theorem openIn (h : Effect p q xs ys) :
    openIn q.board.status = without (openIn p.board.status) xs := by
  funext id
  by_cases hx : id ∈ xs <;> simp [TaskReconciler.openIn, without, h.status, hx]

end Effect

/-- What the sink records of the tasks that are closed while it does not throw. -/
def told (host : Host) (taken : List String) : List String :=
  if host.auditSink.isSome then taken else []

@[simp] theorem told_nil (host : Host) : told host [] = [] := by simp [told]

theorem told_append (host : Host) (xs ys : List String) :
    told host (xs ++ ys) = told host xs ++ told host ys := by
  unfold told
  split_ifs <;> simp

/-- Closing an open task completes it, and then tells the sink or fails with it. -/
theorem close_effect {p : Progress} (h : Sync p) {task : Task} (htask : task ∈ p.allTasks)
    (host : Host) (now : ℚ) (sha value : String) :
    (∃ q, close host now sha value task p = .ok q ∧ Effect p q [task.id] (told host [task.id])) ∨
      ∃ message q, close host now sha value task p = .error (.sink message, q) ∧
        host.auditSink.isSome ∧ Effect p q [task.id] [] := by
  have hstatus : p.board.status task.id = some task.status := by
    rw [← h.status]
    exact statusIn_of_mem h.nodup htask
  obtain ⟨row, hrow, -⟩ := Option.map_eq_some_iff.mp hstatus
  obtain ⟨board, hupdate, hfaces, hboard⟩ := TaskManager.updateStatus_status hrow
    (host.clock p.closed.length) .completed (some (proof now sha value))
  have hsync : ∀ id, statusIn (complete task.id p.allTasks) id = board.status id := by
    intro id
    rw [statusIn_complete task.id _ (List.mem_map_of_mem htask), hboard, h.status]
  have hclosed : ∀ id ∈ task.id :: p.closedIds, board.status id = some .completed := by
    intro id hid
    rw [hboard]
    by_cases heq : id = task.id
    · rw [if_pos heq]
    · rw [if_neg heq]
      exact h.closed id ((List.mem_cons.mp hid).resolve_left heq)
  have heffect : ∀ evidence closed recorded,
      evidence.map Evidence.taskId = p.evidence.map Evidence.taskId ++ recorded →
      (recorded = [] → evidence = p.evidence) →
      Effect p { p with
        board := board
        evidence := evidence
        allTasks := complete task.id p.allTasks
        closedIds := task.id :: p.closedIds
        closed := closed } [task.id] recorded := by
    intro evidence closed recorded hevidence hkeeps
    have hcomplete := complete_faces task.id p.allTasks
    refine ⟨⟨?_, (hfaces.trans h.faces).trans hcomplete.symm, funext hsync, hclosed⟩, fun id => ?_,
      hcomplete, hevidence, hkeeps⟩
    · rw [complete_ids]
      exact h.nodup
    · simp only [hboard, List.mem_singleton]
  unfold close
  simp only [hupdate]
  cases hsink : host.auditSink with
  | none => exact Or.inl ⟨_, rfl, heffect p.evidence _ _ (by simp [told, hsink]) fun _ => rfl⟩
  | some sink =>
    cases hthrow : sink p.closed.length with
    | none =>
      have htold : told host [task.id] = [task.id] := by simp [told, hsink]
      simp only [htold, hthrow]
      refine Or.inl ⟨_, rfl, heffect (p.evidence ++ [⟨task.id, task.label, sha, value⟩]) _ _ ?_ ?_⟩
      · simp
      · simp
    | some message =>
      simp only [hthrow]
      exact Or.inr ⟨message, _, rfl, rfl, heffect p.evidence _ _ (by simp) fun _ => rfl⟩

/-- A trailer closes the task its clause picks, and none when it picks none. -/
theorem closeTrailer_effect {p : Progress} (h : Sync p) (host : Host) (now : ℚ)
    (trailer : String × String) :
    (∃ q, closeTrailer host now p trailer = .ok q ∧
      Effect p q (pick (openIn p.board.status) (clause p.allTasks trailer.2)).toList
        (told host (pick (openIn p.board.status) (clause p.allTasks trailer.2)).toList)) ∨
      ∃ message q id, closeTrailer host now p trailer = .error (.sink message, q) ∧
        host.auditSink.isSome ∧
        pick (openIn p.board.status) (clause p.allTasks trailer.2) = some id ∧
        Effect p q [id] [] := by
  have hfilter := filter_clause h.nodup trailer.2
  rw [h.status] at hfilter
  have hnothing : ∀ unmatched ambiguous, Effect p
      { p with unmatched := unmatched, ambiguous := ambiguous } [] (told host []) := by
    intro unmatched ambiguous
    rw [told_nil]
    exact ⟨⟨h.nodup, h.faces, h.status, h.closed⟩, by simp, rfl, by simp, fun _ => rfl⟩
  simp only [closeTrailer, pick, resolveMatch_eq, hfilter, among]
  match hopen : (candidates trailer.2 p.allTasks).filter isOpen with
  | [] =>
    refine Or.inl ?_
    cases hhead : (candidates trailer.2 p.allTasks).head? with
    | none =>
      exact ⟨{ p with unmatched := p.unmatched ++ [⟨trailer.2, trailer.1⟩] }, by simp,
        hnothing _ _⟩
    | some task =>
      have hdone : task.status = .completed := by
        have hmem := List.mem_of_head? hhead
        simpa [isOpen] using List.filter_eq_nil_iff.mp hopen task hmem
      exact ⟨p, by simp [hdone], hnothing p.unmatched p.ambiguous⟩
  | [task] =>
    have hmem : task ∈ candidates trailer.2 p.allTasks ∧ isOpen task = true := by
      rw [← List.mem_filter, hopen]
      exact List.mem_singleton_self task
    have htask := (candidates_sublist trailer.2 p.allTasks).subset hmem.1
    have hne : task.status ≠ .completed := by simpa [isOpen] using hmem.2
    have hnot : task.id ∉ p.closedIds := by
      intro hclosed
      have hstatus := h.closed task.id hclosed
      rw [← h.status, statusIn_of_mem h.nodup htask] at hstatus
      exact hne (Option.some.inj hstatus)
    simp only [hne, hnot, or_self, if_false]
    rcases close_effect h htask host now trailer.1 trailer.2 with ⟨q, hq, heffect⟩ | ⟨m, q, hq, hs⟩
    · exact Or.inl ⟨q, hq, heffect⟩
    · exact Or.inr ⟨m, q, task.id, hq, hs.1, rfl, hs.2⟩
  | task :: other :: rest => exact Or.inl ⟨_, rfl, hnothing _ _⟩

/-- The clauses of the trailers, on a board. -/
def clauses (tasks : List Task) (trailers : List (String × String)) : List (List String) :=
  trailers.map fun trailer => clause tasks trailer.2

theorem clauses_nodup {tasks : List Task} (h : (tasks.map Task.id).Nodup)
    (trailers : List (String × String)) : ∀ c ∈ clauses tasks trailers, c.Nodup := by
  intro c hc
  obtain ⟨trailer, -, rfl⟩ := List.mem_map.mp hc
  exact clause_nodup h trailer.2

/-- The clauses depend on the names of the tasks only. -/
theorem clauses_congr {tasks tasks' : List Task}
    (h : tasks.map Task.face = tasks'.map Task.face) (trailers : List (String × String)) :
    clauses tasks trailers = clauses tasks' trailers := by
  simp only [clauses, clause_eq, h]

/-- The pass begins with what its first trailer closes. -/
theorem pass_trailers (tasks : List Task) (trailer : String × String)
    (rest : List (String × String)) (opn : String → Bool) :
    pass (clauses tasks (trailer :: rest)) opn = (pick opn (clause tasks trailer.2)).toList ++
      pass (clauses tasks rest) (without opn (pick opn (clause tasks trailer.2)).toList) := by
  rw [← pass_singleton, ← pass_append]
  rfl

/-- How the loop ends: after a whole pass, or with the sink, which throws on the last task. -/
def Ends (host : Host) (p : Progress) (taken : List String) :
    Except (Failure × Progress) Progress → Prop
  | .ok q => Effect p q taken (told host taken)
  | .error (failure, q) => (∃ message, failure = .sink message) ∧ host.auditSink.isSome ∧
      ∃ xs x, xs ++ [x] <+: taken ∧ Effect p q (xs ++ [x]) xs

/-- The loop over the trailers is a pass over their clauses. -/
theorem loop_ends {p : Progress} (h : Sync p) (host : Host) (now : ℚ)
    (trailers : List (String × String)) :
    Ends host p (pass (clauses p.allTasks trailers) (openIn p.board.status))
      (trailers.foldlM (closeTrailer host now) p) := by
  induction trailers generalizing p with
  | nil =>
    change Effect p p [] (told host [])
    rw [told_nil]
    exact Effect.refl h
  | cons trailer rest ih =>
    rw [pass_trailers, List.foldlM_cons]
    rcases closeTrailer_effect h host now trailer with
      ⟨q, hq, heffect⟩ | ⟨message, q, x, hq, hsink, hpick, heffect⟩
    · have hrest := ih heffect.sync
      rw [clauses_congr heffect.faces, heffect.openIn] at hrest
      rw [hq]
      change Ends host p _ (rest.foldlM (closeTrailer host now) q)
      cases hloop : rest.foldlM (closeTrailer host now) q with
      | ok r =>
        rw [hloop] at hrest
        simp only [Ends, told_append]
        exact heffect.trans hrest
      | error e =>
        rw [hloop] at hrest
        obtain ⟨hfailure, hsink, xs, x, hpre, hlast⟩ := hrest
        have htold : ∀ ys, told host ys = ys := by simp [told, hsink]
        rw [htold] at heffect
        refine ⟨hfailure, hsink,
          (pick (openIn p.board.status) (clause p.allTasks trailer.2)).toList ++ xs, x, ?_, ?_⟩
        · rw [List.append_assoc]
          exact (List.prefix_append_right_inj _).mpr hpre
        · rw [List.append_assoc]
          exact heffect.trans hlast
    · rw [hq, hpick]
      exact ⟨⟨message, rfl⟩, hsink, [], x, List.prefix_append [x] _, heffect⟩

end TaskReconciler
end Batiste
