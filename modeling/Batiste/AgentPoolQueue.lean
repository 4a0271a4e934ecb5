import Batiste.AgentPoolRun

/-! The order of the pending queue and the attempts of a task.
An attempt takes a task out of the queue with its attempt counter.  A failed one puts the task
back with the next counter, after the back-off, or leaves it among the dead letters. -/
namespace Batiste
namespace AgentPool

open Transition

variable {env : Env}

/-! ## Order -/

/-- What the queue is sorted by. -/
def QueuedTask.key (q : QueuedTask) : ℕ ×ₗ ℤ :=
  toLex (PRIORITY_ORDER (q.assignment.priority.getD .normal), q.enqueuedAt)

theorem before_iff (p q : QueuedTask) : before p q = true ↔ p.key ≤ q.key := by
  unfold before QueuedTask.key
  rw [Prod.Lex.toLex_le_toLex]
  dsimp only
  split_ifs with hne
  · simp [hne]
  · simp only [ne_eq, not_not] at hne
    simp [hne]

instance : IsTrans QueuedTask fun p q => before p q = true where
  trans p q r hpq hqr := by
    rw [before_iff] at *
    exact hpq.trans hqr

instance : Std.Total fun p q : QueuedTask => before p q = true where
  total p q := by
    rw [before_iff, before_iff]
    exact le_total _ _

def Pool.Sorted (s : Pool) : Prop := s.taskQueue.Pairwise fun p q => p.key ≤ q.key

theorem enqueue_sorted (task : QueuedTask) (s : Pool) : (enqueue task s).Sorted :=
  (List.pairwise_insertionSort (fun p q => before p q = true) _).imp fun h => (before_iff _ _).mp h

/-! ## Attempts -/

/-- The number of times a task may be run again. -/
def TaskAssignment.maxRetries (a : TaskAssignment) : JsNumber :=
  (a.retryPolicy.map RetryPolicy.maxRetries).getD (.finite 0)

/-- The task that `dispatchNext` takes out of the queue; a task without an agent is put back. -/
def dispatched (random : ℕ) (s : Pool) : Option QueuedTask :=
  match s.taskQueue with
  | [] => none
  | task :: _ =>
    if s.isRunning && (selectAgent random task.assignment s).isSome then some task else none

/-- The task that an action hands to an agent. -/
def attempted (env : Env) (s : Pool) : Action → Option QueuedTask
  | .submitTask a now random => dispatched random (enqueue ⟨a, 0, now⟩ s)
  | .free id random => dispatched random (stateChanged env (mapAgent id
      (fun agent => { agent with state := .idle, currentTask := none }) s))
  | .retry index now random =>
    (s.retrying[index]?).bind fun r =>
      dispatched random (enqueue ⟨r.assignment, r.retries, now⟩ s)
  | _ => none

/-- The attempts of a run, in order. -/
def attempts (env : Env) : Pool → List Action → List QueuedTask
  | _, [] => []
  | s, a :: as =>
    match step env s a with
    | none => []
    | some t => (attempted env s a).toList ++ attempts env t as

theorem attempts_snoc {s t u : Pool} {as : List Action} {a : Action}
    (h : run (step env) s as = some t) (ha : step env t a = some u) :
    attempts env s (as ++ [a]) = attempts env s as ++ (attempted env t a).toList := by
  induction as generalizing s with
  | nil =>
    obtain rfl : s = t := by simpa using h
    simp [attempts, ha]
  | cons b as ih =>
    obtain ⟨v, hv, hrest⟩ := run_cons_iff.mp h
    simp only [List.cons_append, attempts, hv, ih hrest, List.append_assoc]

/-! ## Where the attempts are -/

def QueuedTask.attempt (q : QueuedTask) : TaskAssignment × ℕ := (q.assignment, q.retries)

/-- The attempts to come. -/
def Pool.pending (s : Pool) : List (TaskAssignment × ℕ) :=
  s.taskQueue.map QueuedTask.attempt ++ s.retrying.map fun r => (r.assignment, r.retries)

def Agent.underway (agent : Agent) : Option (TaskAssignment × ℕ) :=
  match agent.currentTask with
  | some ⟨queued, false⟩ => some queued.attempt
  | _ => none

/-- The attempts without a result. -/
def Pool.underway (s : Pool) : List (TaskAssignment × ℕ) := s.agents.filterMap Agent.underway

def Pool.ended (s : Pool) : List (TaskAssignment × ℕ) :=
  s.deadLetterQueue.map fun e => (e.assignment, e.attempts)

/-- What holds of a pool and the attempts `made` so far.  An attempt that is made, or that is to
come, was accepted, or follows one that was made and failed. -/
structure Books (made : List (TaskAssignment × ℕ)) (s : Pool) : Prop where
  nodup : (s.agents.map Agent.id).Nodup
  fresh : ∀ agent ∈ s.agents, agent.id < s.nextId
  sorted : s.Sorted
  first : ∀ a, made.count (a, 0) + s.pending.count (a, 0) ≤ s.accepted.count a
  next : ∀ a k, made.count (a, k + 1) + s.pending.count (a, k + 1) + s.underway.count (a, k) +
    s.ended.count (a, k + 1) ≤ made.count (a, k)
  bounded : ∀ x, x ∈ made ∨ x ∈ s.pending → ∀ n : ℕ, x.1.maxRetries = .finite n → x.2 ≤ n
  exhausted : ∀ x ∈ s.ended, ∀ n : ℕ, x.1.maxRetries = .finite n → x.2 = n + 1

theorem init_books (spec : AgentPoolSpec) : Books [] (init spec) := by
  constructor <;> simp [init, Pool.Sorted, Pool.pending, Pool.underway, Pool.ended]

/-- Agents may change their state and their listing, and the pool its plans for agents. -/
structure Quiet (s t : Pool) : Prop where
  agents : (t.agents.map fun b => (b.id, b.currentTask)) =
    s.agents.map fun b => (b.id, b.currentTask)
  queue : t.taskQueue = s.taskQueue
  retrying : t.retrying = s.retrying
  deadLetters : t.deadLetterQueue = s.deadLetterQueue
  accepted : t.accepted = s.accepted
  nextId : t.nextId = s.nextId

theorem Quiet.refl (s : Pool) : Quiet s s := ⟨rfl, rfl, rfl, rfl, rfl, rfl⟩

theorem Quiet.trans {s t u : Pool} (h : Quiet s t) (h' : Quiet t u) : Quiet s u :=
  ⟨h'.agents.trans h.agents, h'.queue.trans h.queue, h'.retrying.trans h.retrying,
    h'.deadLetters.trans h.deadLetters, h'.accepted.trans h.accepted, h'.nextId.trans h.nextId⟩

theorem quiet_stopped (s : Pool) (id : ℕ) : Quiet s (mapAgent id Agent.stopped s) := by
  refine ⟨?_, rfl, rfl, rfl, rfl, rfl⟩
  rw [mapAgent, List.map_map]
  refine List.map_congr_left fun b _ => ?_
  simp only [Function.comp_apply]
  split_ifs <;> rfl

theorem scales_quiet : Scales Quiet where
  refl := Quiet.refl
  trans _ _ _ hst htu := hst.trans htu
  stopped := quiet_stopped
  planned _ _ _ := ⟨rfl, rfl, rfl, rfl, rfl, rfl⟩

/-- The ids and the attempts underway are read off the same pairs. -/
theorem Quiet.underway {s t : Pool} (h : Quiet s t) : t.underway = s.underway := by
  have hread : ∀ agents : List Agent, agents.filterMap Agent.underway =
      (agents.map fun b => (b.id, b.currentTask)).filterMap fun p =>
        Agent.underway ⟨p.1, ⟨.coder, []⟩, .idle, p.2, true⟩ := by
    intro agents
    rw [List.filterMap_map]
    rfl
  rw [Pool.underway, Pool.underway, hread, h.agents, ← hread]

theorem Quiet.ids {s t : Pool} (h : Quiet s t) :
    t.agents.map Agent.id = s.agents.map Agent.id := by
  have hids := congrArg (List.map Prod.fst) h.agents
  rw [List.map_map, List.map_map] at hids
  exact hids

variable {made : List (TaskAssignment × ℕ)}

/-- Every agent has its own id, which no later one gets. -/
theorem Books.fresh_of_ids {s t : Pool} (h : Books made s)
    (hids : t.agents.map Agent.id = s.agents.map Agent.id) (hnext : t.nextId = s.nextId) :
    ∀ agent ∈ t.agents, agent.id < t.nextId := by
  intro agent hmem
  have hin : agent.id ∈ s.agents.map Agent.id := hids ▸ List.mem_map_of_mem hmem
  obtain ⟨b, hb, hid⟩ := List.mem_map.mp hin
  rw [← hid, hnext]
  exact h.fresh b hb

theorem Books.quiet {s t : Pool} (hs : Books made s) (h : Quiet s t) : Books made t := by
  have hpending : t.pending = s.pending := by simp only [Pool.pending, h.queue, h.retrying]
  have hended : t.ended = s.ended := by simp only [Pool.ended, h.deadLetters]
  constructor
  case nodup =>
    rw [h.ids]
    exact hs.nodup
  case fresh => exact hs.fresh_of_ids h.ids h.nextId
  case sorted =>
    rw [Pool.Sorted, h.queue]
    exact hs.sorted
  case first =>
    rw [hpending, h.accepted]
    exact hs.first
  case next =>
    rw [hpending, hended, h.underway]
    exact hs.next
  case bounded =>
    rw [hpending]
    exact hs.bounded
  case exhausted =>
    rw [hended]
    exact hs.exhausted

/-- The head of the queue is attempted. -/
theorem taken_books {s t : Pool} {task : QueuedTask} {rest : List QueuedTask} (h : Books made s)
    (hqueue : s.taskQueue = task :: rest) (hrest : t.taskQueue = rest)
    (hretry : t.retrying = s.retrying) (hdlq : t.deadLetterQueue = s.deadLetterQueue)
    (hacc : t.accepted = s.accepted) (hnext : t.nextId = s.nextId)
    (hids : t.agents.map Agent.id = s.agents.map Agent.id)
    (hunder : ∀ x, t.underway.count x ≤ s.underway.count x + [task.attempt].count x) :
    Books (made ++ [task.attempt]) t := by
  have hended : t.ended = s.ended := by simp only [Pool.ended, hdlq]
  have hpending : s.pending = task.attempt :: t.pending := by
    simp only [Pool.pending, hqueue, hrest, hretry, List.map_cons, List.cons_append]
  constructor
  case nodup =>
    rw [hids]
    exact h.nodup
  case fresh => exact h.fresh_of_ids hids hnext
  case sorted =>
    have hsorted := h.sorted
    rw [Pool.Sorted, hqueue] at hsorted
    rw [Pool.Sorted, hrest]
    exact hsorted.of_cons
  case first =>
    intro a
    have hfirst := h.first a
    rw [hpending, ← List.singleton_append, List.count_append] at hfirst
    rw [hacc, List.count_append]
    omega
  case next =>
    intro a k
    have hlast := h.next a k
    have hmore := hunder (a, k)
    rw [hpending, ← List.singleton_append, List.count_append] at hlast
    rw [hended, List.count_append, List.count_append]
    omega
  case bounded =>
    intro x hx
    refine h.bounded x ?_
    rw [hpending, List.mem_cons]
    rcases hx with hmade | hpend
    · rcases List.mem_append.mp hmade with hold | hnew
      · exact Or.inl hold
      · exact Or.inr (Or.inl (List.mem_singleton.mp hnew))
    · exact Or.inr (Or.inr hpend)
  case exhausted =>
    rw [hended]
    exact h.exhausted

/-- Replacing one agent changes the attempts underway by its own. -/
theorem count_underway_update {s : Pool} {agent : Agent} (h : Books made s)
    (hmem : agent ∈ s.agents) (f : Agent → Agent) (x : TaskAssignment × ℕ) :
    (mapAgent agent.id f s).underway.count x + (if agent.underway = some x then 1 else 0) =
      s.underway.count x + if (f agent).underway = some x then 1 else 0 := by
  have hcount := countP_update h.nodup hmem f fun b => b.underway == some x
  simpa only [Pool.underway, mapAgent, List.count_filterMap, beq_iff_eq] using hcount

theorem dispatchNext_books (random : ℕ) {s : Pool} (h : Books made s) :
    Books (made ++ (dispatched random s).toList.map QueuedTask.attempt)
      (dispatchNext env random s) := by
  unfold dispatched dispatchNext
  cases hqueue : s.taskQueue with
  | nil => simpa using h
  | cons task rest =>
    dsimp only
    cases hrunning : s.isRunning with
    | false => simpa using h
    | true =>
      cases hselect : selectAgent random task.assignment s with
      | none => simpa using h
      | some agent =>
        have hmem := (selectAgent_some hselect).1
        simp only [Bool.not_true, Bool.false_eq_true, if_false, Option.isSome_some, Bool.and_self,
          if_true, Option.toList_some, List.map_cons, List.map_nil]
        unfold assignTaskToAgent
        split_ifs
        · refine Books.quiet ?_ (scales_quiet.stateChanged _)
          refine taken_books h hqueue rfl rfl rfl rfl rfl ?_ ?_
          · exact mapAgent_ids agent.id s fun _ => rfl
          · intro x
            have hcount := count_underway_update h hmem
              (fun b => { b with state := .busy, currentTask := some ⟨task, false⟩ }) x
            have hnew : [task.attempt].count x = if some task.attempt = some x then 1 else 0 := by
              simp [List.count_singleton, beq_iff_eq]
            rw [hnew]
            exact (Nat.le_add_right _ _).trans hcount.le
        · exact taken_books h hqueue rfl rfl rfl rfl rfl rfl fun x => Nat.le_add_right _ _

/-! ## Steps -/

/-- The queue before and after a task is added holds the same tasks beside it. -/
theorem enqueue_pending (task : QueuedTask) (s : Pool) :
    (enqueue task s).pending.Perm (task.attempt :: s.pending) := by
  have hperm : (enqueue task s).taskQueue.Perm (task :: s.taskQueue) :=
    (List.perm_insertionSort _ _).trans (List.perm_append_singleton _ _)
  exact (hperm.map QueuedTask.attempt).append_right _

/-- A task that was accepted is to come. -/
theorem submit_books {s t : Pool} (h : Books made s) (a : TaskAssignment) (now : ℤ)
    (ht : t = { enqueue ⟨a, 0, now⟩ s with accepted := s.accepted ++ [a] }) : Books made t := by
  have hpending : t.pending.Perm ((a, 0) :: s.pending) := by
    subst ht
    exact enqueue_pending ⟨a, 0, now⟩ s
  have hacc : t.accepted = s.accepted ++ [a] := by rw [ht]
  have hsame : t.agents = s.agents ∧ t.nextId = s.nextId ∧ t.deadLetterQueue = s.deadLetterQueue :=
    by subst ht; exact ⟨rfl, rfl, rfl⟩
  have hended : t.ended = s.ended := by simp only [Pool.ended, hsame.2.2]
  have hunder : t.underway = s.underway := by simp only [Pool.underway, hsame.1]
  constructor
  case nodup =>
    rw [hsame.1]
    exact h.nodup
  case fresh =>
    rw [hsame.1, hsame.2.1]
    exact h.fresh
  case sorted =>
    rw [ht]
    exact enqueue_sorted ⟨a, 0, now⟩ s
  case first =>
    intro b
    have hfirst := h.first b
    rw [hacc, hpending.count_eq, List.count_cons, List.count_append, List.count_singleton]
    simp only [beq_iff_eq, Prod.mk.injEq, and_true]
    omega
  case next =>
    intro b k
    have hlast := h.next b k
    rw [hended, hunder, hpending.count_eq, List.count_cons]
    simpa using hlast
  case bounded =>
    intro x hx n hn
    rcases hx with hmade | hpend
    · exact h.bounded x (Or.inl hmade) n hn
    · rcases List.mem_cons.mp (hpending.mem_iff.mp hpend) with rfl | hold
      · exact Nat.zero_le n
      · exact h.bounded x (Or.inr hold) n hn
  case exhausted =>
    rw [hended]
    exact h.exhausted

/-- The back-off of a failed attempt is over. -/
theorem retry_books {s t : Pool} (h : Books made s) {index : ℕ} {r : ScheduledRetry}
    (hr : s.retrying[index]? = some r) (now : ℤ)
    (ht : t = enqueue ⟨r.assignment, r.retries, now⟩
      { s with retrying := s.retrying.eraseIdx index }) : Books made t := by
  have hpending : t.pending.Perm s.pending := by
    subst ht
    refine (enqueue_pending _ _).trans ?_
    obtain ⟨hlt, hget⟩ := List.getElem?_eq_some_iff.mp hr
    have hperm := (List.getElem_cons_eraseIdx_perm hlt).map fun r => (r.assignment, r.retries)
    rw [hget] at hperm
    exact List.perm_middle.symm.trans (hperm.append_left _)
  have hsame : t.agents = s.agents ∧ t.nextId = s.nextId ∧ t.accepted = s.accepted ∧
      t.ended = s.ended := by
    subst ht
    exact ⟨rfl, rfl, rfl, rfl⟩
  obtain ⟨hagents, hnext, hacc, hended⟩ := hsame
  have hunder : t.underway = s.underway := by simp only [Pool.underway, hagents]
  constructor
  case nodup =>
    rw [hagents]
    exact h.nodup
  case fresh =>
    rw [hagents, hnext]
    exact h.fresh
  case sorted =>
    rw [ht]
    exact enqueue_sorted ⟨r.assignment, r.retries, now⟩ _
  case first =>
    intro a
    rw [hacc, hpending.count_eq]
    exact h.first a
  case next =>
    intro a k
    rw [hended, hunder, hpending.count_eq]
    exact h.next a k
  case bounded =>
    intro x hx
    rw [hpending.mem_iff] at hx
    exact h.bounded x hx
  case exhausted =>
    rw [hended]
    exact h.exhausted

theorem natLt_natCast {n r : ℕ} : (JsNumber.finite n).natLt r = true ↔ r < n := by
  simp [JsNumber.natLt]

/-- A failed attempt leads to the next one, or to the dead letters, and a successful one to
neither. -/
theorem handleResult_places (queued : QueuedTask) (result : TaskResult) (s : Pool) :
    ((handleResult queued result s).pending = s.pending ∧
      (handleResult queued result s).ended = s.ended) ∨
    (queued.assignment.maxRetries.natLt queued.retries = true ∧
      (handleResult queued result s).pending =
        s.pending ++ [(queued.assignment, queued.retries + 1)] ∧
      (handleResult queued result s).ended = s.ended) ∨
    (queued.assignment.maxRetries.natLt queued.retries = false ∧
      (handleResult queued result s).pending = s.pending ∧
      (handleResult queued result s).ended =
        s.ended ++ [(queued.assignment, queued.retries + 1)]) := by
  unfold handleResult
  dsimp only
  split_ifs with hsuccess hretry
  · exact Or.inl ⟨rfl, rfl⟩
  · exact Or.inr (Or.inl ⟨hretry, by simp [Pool.pending], rfl⟩)
  · exact Or.inr (Or.inr ⟨by simpa [TaskAssignment.maxRetries] using hretry, rfl,
      by simp [Pool.ended]⟩)

/-- The result of an attempt that is underway. -/
theorem report_books {s t : Pool} {agent : Agent} {queued : QueuedTask} (h : Books made s)
    (hmem : agent ∈ s.agents) (htask : agent.currentTask = some ⟨queued, false⟩)
    (result : TaskResult)
    (ht : t = handleResult queued result (mapAgent agent.id (Agent.reported queued) s)) :
    Books made t := by
  have hunderway : agent.underway = some queued.attempt := by simp [Agent.underway, htask]
  have hnone : (Agent.reported queued agent).underway = none := rfl
  have hcount := count_underway_update h hmem (Agent.reported queued)
  simp only [hunderway, hnone, reduceCtorEq, if_false, Option.some.injEq] at hcount
  obtain ⟨hagents, hqueue, -, hnext, hacc, -⟩ :=
    handleResult_frame queued result (mapAgent agent.id (Agent.reported queued) s)
  rw [← ht] at hagents hqueue hnext hacc
  replace hacc : t.accepted = s.accepted := hacc
  have hids : t.agents.map Agent.id = s.agents.map Agent.id := by
    rw [hagents]
    exact mapAgent_ids agent.id s fun _ => rfl
  have hunder : t.underway = (mapAgent agent.id (Agent.reported queued) s).underway := by
    simp only [Pool.underway, hagents]
  -- the attempt was made, so its counter is within the bound
  have hmade : queued.attempt ∈ made := by
    have hin : 0 < s.underway.count queued.attempt :=
      List.count_pos_iff.mpr (List.mem_filterMap.mpr ⟨agent, hmem, hunderway⟩)
    have hnext' := h.next queued.assignment queued.retries
    rw [QueuedTask.attempt] at hin
    exact List.count_pos_iff.mp (by rw [QueuedTask.attempt]; omega)
  have hbound := h.bounded _ (Or.inl hmade)
  have hplaces := handleResult_places queued result (mapAgent agent.id (Agent.reported queued) s)
  rw [← ht] at hplaces
  have hold : (mapAgent agent.id (Agent.reported queued) s).pending = s.pending ∧
      (mapAgent agent.id (Agent.reported queued) s).ended = s.ended := ⟨rfl, rfl⟩
  rw [hold.1, hold.2] at hplaces
  constructor
  case nodup =>
    rw [hids]
    exact h.nodup
  case fresh => exact h.fresh_of_ids hids hnext
  case sorted =>
    rw [Pool.Sorted, hqueue]
    exact h.sorted
  case first =>
    intro a
    have hfirst := h.first a
    rw [hacc]
    rcases hplaces with ⟨hpend, -⟩ | ⟨-, hpend, -⟩ | ⟨-, hpend, -⟩
    · rw [hpend]
      exact hfirst
    · rw [hpend, List.count_append, List.count_singleton]
      simpa using hfirst
    · rw [hpend]
      exact hfirst
  case next =>
    intro a k
    have hlast := h.next a k
    have hless := hcount (a, k)
    have hnew : [(queued.assignment, queued.retries + 1)].count (a, k + 1) =
        if queued.attempt = (a, k) then 1 else 0 := by
      simp [List.count_singleton, QueuedTask.attempt]
    rw [hunder]
    rcases hplaces with ⟨hpend, hend⟩ | ⟨-, hpend, hend⟩ | ⟨-, hpend, hend⟩
    · rw [hpend, hend]
      omega
    · rw [hpend, hend, List.count_append, hnew]
      omega
    · rw [hpend, hend, List.count_append, hnew]
      omega
  case bounded =>
    intro x hx n hn
    rcases hplaces with ⟨hpend, -⟩ | ⟨hretry, hpend, -⟩ | ⟨-, hpend, -⟩
    · exact h.bounded x (hpend ▸ hx) n hn
    · rw [hpend, List.mem_append, List.mem_singleton, ← or_assoc] at hx
      rcases hx with hx | rfl
      · exact h.bounded x hx n hn
      · rw [show queued.assignment.maxRetries = .finite n from hn] at hretry
        exact natLt_natCast.mp hretry
    · exact h.bounded x (hpend ▸ hx) n hn
  case exhausted =>
    intro x hx n hn
    rcases hplaces with ⟨-, hend⟩ | ⟨-, -, hend⟩ | ⟨hstop, -, hend⟩
    · exact h.exhausted x (hend ▸ hx) n hn
    · exact h.exhausted x (hend ▸ hx) n hn
    · rw [hend, List.mem_append, List.mem_singleton] at hx
      rcases hx with hx | rfl
      · exact h.exhausted x hx n hn
      · -- the bound is reached, and was not passed
        have hle : queued.retries ≤ n := hbound n hn
        have hge : ¬ queued.retries < n := by
          rw [← natLt_natCast, ← show queued.assignment.maxRetries = .finite n from hn, hstop]
          simp
        dsimp only
        omega

/-- The agent is done with what it reported on. -/
theorem free_books {s : Pool} {agent : Agent} {queued : QueuedTask} (h : Books made s)
    (hmem : agent ∈ s.agents) (htask : agent.currentTask = some ⟨queued, true⟩) :
    Books made (mapAgent agent.id
      (fun agent => { agent with state := .idle, currentTask := none }) s) := by
  have hnone : agent.underway = none := by simp [Agent.underway, htask]
  have hids : (mapAgent agent.id
      (fun agent => { agent with state := .idle, currentTask := none }) s).agents.map Agent.id =
      s.agents.map Agent.id := mapAgent_ids agent.id s fun _ => rfl
  have hcount := count_underway_update h hmem
    fun agent => { agent with state := .idle, currentTask := none }
  simp only [hnone, show ∀ b : Agent, Agent.underway { b with state := .idle, currentTask := none } =
    none from fun _ => rfl, reduceCtorEq, if_false, add_zero] at hcount
  constructor
  case nodup =>
    rw [hids]
    exact h.nodup
  case fresh => exact h.fresh_of_ids hids rfl
  case sorted => exact h.sorted
  case first => exact h.first
  case next =>
    intro a k
    rw [hcount]
    exact h.next a k
  case bounded => exact h.bounded
  case exhausted => exact h.exhausted

theorem spawned_books {s t : Pool} (h : Books made s) (capabilities : AgentCapability)
    {spawning : List AgentCapability}
    (ht : t = { s with
      spawning := spawning
      agents := s.agents ++ [⟨s.nextId, capabilities, .idle, none, true⟩]
      nextId := s.nextId + 1 }) : Books made t := by
  have hunder : t.underway = s.underway := by
    rw [ht, Pool.underway, List.filterMap_append]
    simp [Pool.underway, Agent.underway]
  subst ht
  constructor
  case nodup =>
    rw [List.map_append, List.nodup_append]
    refine ⟨h.nodup, by simp, ?_⟩
    intro id hid _ hlast heq
    obtain ⟨agent, hmem, rfl⟩ := List.mem_map.mp hid
    have hlt := h.fresh agent hmem
    simp only [List.map_cons, List.map_nil, List.mem_singleton] at hlast
    omega
  case fresh =>
    intro agent hmem
    rcases List.mem_append.mp hmem with hold | hnew
    · exact (h.fresh agent hold).trans (Nat.lt_succ_self _)
    · rw [List.mem_singleton.mp hnew]
      exact Nat.lt_succ_self _
  case sorted => exact h.sorted
  case first => exact h.first
  case next =>
    intro a k
    rw [hunder]
    exact h.next a k
  case bounded => exact h.bounded
  case exhausted => exact h.exhausted

/-- What one step does to the books. -/
theorem step_books {s t : Pool} {a : Action} (h : Books made s) (hs : step env s a = some t) :
    Books (made ++ (attempted env s a).toList.map QueuedTask.attempt) t := by
  have hquiet : ∀ {u : Pool}, attempted env s a = none → Books made u →
      Books (made ++ (attempted env s a).toList.map QueuedTask.attempt) u := by
    intro u hnone hu
    simpa [hnone] using hu
  cases stretch_of_step hs with
  | started => exact hquiet rfl h
  | submitTask b now random _ => exact dispatchNext_books random (submit_books h b now rfl)
  | report agent queued result hmem htask =>
    exact hquiet rfl (report_books h hmem htask result rfl)
  | free agent queued random hmem htask =>
    exact dispatchNext_books random ((free_books h hmem htask).quiet (scales_quiet.stateChanged _))
  | retry index r now random hr =>
    have hattempted : attempted env s (.retry index now random) = dispatched random
        (enqueue ⟨r.assignment, r.retries, now⟩ { s with
          retrying := s.retrying.eraseIdx index }) := by
      simp only [attempted, hr, Option.bind_some]
      rfl
    rw [hattempted]
    exact dispatchNext_books random (retry_books h hr now rfl)
  | spawned capabilities spawning _ => exact hquiet rfl (spawned_books h capabilities rfl)
  | terminateAgent id =>
    obtain ⟨hagents, hqueue, hretry, hdlq, hacc, hnext⟩ :=
      (quiet_stopped s id).trans (@Scales.stateChanged env _ scales_quiet _)
    exact hquiet rfl (h.quiet ⟨hagents, hqueue, hretry, hdlq, hacc, hnext⟩)
  | deleted id =>
    refine hquiet rfl (h.quiet ⟨?_, rfl, rfl, rfl, rfl, rfl⟩)
    rw [mapAgent, List.map_map]
    refine List.map_congr_left fun b _ => ?_
    simp only [Function.comp_apply]
    split_ifs <;> rfl
  | drained =>
    refine hquiet rfl (Books.quiet ?_ (scales_quiet.stopAll _ _))
    exact h.quiet ⟨rfl, rfl, rfl, rfl, rfl, rfl⟩
  | cleared =>
    refine hquiet rfl (h.quiet ⟨?_, rfl, rfl, rfl, rfl, rfl⟩)
    rw [List.map_map]
    rfl
  | start | dispatchError | stop | setLoadBalancingStrategy | updateSpec =>
    exact hquiet rfl (h.quiet ⟨rfl, rfl, rfl, rfl, rfl, rfl⟩)

/-! ## Runs -/

theorem run_books (env : Env) (spec : AgentPoolSpec) {as : List Action} {s : Pool}
    (h : run (step env) (init spec) as = some s) :
    Books ((attempts env (init spec) as).map QueuedTask.attempt) s := by
  have hok : Each (step env) (init spec) as fun _ _ _ => True := fun _ _ _ _ _ _ => trivial
  refine run_history (I := fun as s => Books ((attempts env (init spec) as).map
    QueuedTask.attempt) s) (init_books spec) ?_ hok h
  intro pre u a t hpre hu _ ha
  rw [attempts_snoc hpre ha, List.map_append]
  exact step_books hu ha

/-- No counter is reached by more attempts than the one below it. -/
theorem Books.count_made_le {s : Pool} (h : Books made s) (a : TaskAssignment) (k : ℕ) :
    made.count (a, k) ≤ s.accepted.count a := by
  induction k with
  | zero =>
    have hfirst := h.first a
    omega
  | succ k ih =>
    have hlast := h.next a k
    omega

/-- A task that ended was attempted with every counter below. -/
theorem Books.count_ended_le {s : Pool} (h : Books made s) (a : TaskAssignment) (n : ℕ)
    {k : ℕ} (hk : k ≤ n) : s.ended.count (a, n + 1) ≤ made.count (a, k) := by
  induction hk using Nat.decreasingInduction with
  | self =>
    have hlast := h.next a n
    omega
  | of_succ k hk ih =>
    have hlast := h.next a k
    omega

/-- The attempts of one task, counter by counter. -/
theorem count_fst (xs : List (TaskAssignment × ℕ)) (a : TaskAssignment) {n : ℕ}
    (h : ∀ x ∈ xs, x.1 = a → x.2 < n) :
    (xs.map Prod.fst).count a = ∑ k ∈ Finset.range n, xs.count (a, k) := by
  induction xs with
  | nil => simp
  | cons x xs ih =>
    obtain ⟨b, m⟩ := x
    simp only [List.map_cons, List.count_cons, Finset.sum_add_distrib]
    rw [ih fun y hy => h y (List.mem_cons_of_mem _ hy)]
    congr 1
    by_cases hb : b = a
    · have hm : m < n := h (b, m) List.mem_cons_self hb
      simp [hb, hm]
    · simp [hb]

/-- The queue is sorted by priority and then by the time of enqueuing.  A task is attempted at most
once with each counter; where `maxRetries` is a natural number the counters end there, and a dead
letter records that each of them was used. -/
theorem attempts_bounded (env : Env) (spec : AgentPoolSpec) (as : List Action) (s : Pool)
    (h : run (step env) (init spec) as = some s) :
    s.Sorted ∧
    (∀ a k, ((attempts env (init spec) as).map QueuedTask.attempt).count (a, k) ≤
      s.accepted.count a) ∧
    ∀ (a : TaskAssignment) (n : ℕ), a.maxRetries = .finite n →
      ((attempts env (init spec) as).map QueuedTask.assignment).count a ≤
        (n + 1) * s.accepted.count a ∧
      (∀ e ∈ s.deadLetterQueue, e.assignment = a → e.attempts = n + 1) ∧
      (n + 1) * (s.deadLetterQueue.map DLQEntry.assignment).count a ≤
        ((attempts env (init spec) as).map QueuedTask.assignment).count a := by
  have hbooks := run_books env spec h
  refine ⟨hbooks.sorted, hbooks.count_made_le, fun a n hn => ?_⟩
  -- with a natural bound, the attempts of the task are those with the counters up to it
  have hmade : ((attempts env (init spec) as).map QueuedTask.assignment).count a =
      ∑ k ∈ Finset.range (n + 1),
        ((attempts env (init spec) as).map QueuedTask.attempt).count (a, k) := by
    rw [← count_fst _ a, List.map_map]
    · rfl
    · rintro ⟨b, k⟩ hx rfl
      exact Nat.lt_succ_of_le (hbooks.bounded _ (Or.inl hx) n hn)
  have hdead : ∀ e ∈ s.deadLetterQueue, e.assignment = a → e.attempts = n + 1 := by
    rintro e he rfl
    exact hbooks.exhausted _ (List.mem_map_of_mem he) n hn
  have hended : (s.deadLetterQueue.map DLQEntry.assignment).count a = s.ended.count (a, n + 1) := by
    rw [Pool.ended, List.count, List.count, List.countP_map, List.countP_map]
    refine List.countP_congr fun e he => ?_
    have hthis := hdead e he
    simp only [Function.comp_apply, beq_iff_eq, Prod.mk.injEq]
    exact ⟨fun ha => ⟨ha, hthis ha⟩, fun ha => ha.1⟩
  refine ⟨?_, hdead, ?_⟩
  · rw [hmade]
    refine (Finset.sum_le_card_nsmul _ _ _ fun k _ => hbooks.count_made_le a k).trans ?_
    simp
  · rw [hmade, hended]
    have hle := Finset.card_nsmul_le_sum (Finset.range (n + 1)) _ _ fun k hk =>
      hbooks.count_ended_le a n (Nat.le_of_lt_succ (Finset.mem_range.mp hk))
    simpa using hle

/-- A task that is run again once. -/
def flakyTask : TaskAssignment :=
  { uuidTask with retryPolicy := some ⟨.finite 1, .finite 1000⟩ }

/-- Both attempts fail. -/
def flakyRun : List Action :=
  uuidRun.take 2 ++ [.submitTask flakyTask 0 0, .report 0 ⟨false, some "timeout"⟩, .free 0 0,
    .retry 0 1000 0, .report 0 ⟨false, some "timeout"⟩]

theorem attempts_bounded_flaky : ∃ t, run (step plainEnv) (init coderSpec) flakyRun = some t ∧
    t.deadLetterQueue = [⟨flakyTask, "timeout", 2⟩] ∧
    ((attempts plainEnv (init coderSpec) flakyRun).map QueuedTask.assignment).count flakyTask ≤
      2 * t.accepted.count flakyTask := by
  refine ⟨_, rfl, rfl, ?_⟩
  exact ((attempts_bounded plainEnv coderSpec flakyRun _ rfl).2.2 flakyTask 1 (by
    simp [flakyTask, TaskAssignment.maxRetries])).1

end AgentPool
end Batiste
