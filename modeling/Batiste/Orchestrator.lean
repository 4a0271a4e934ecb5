import Batiste.Json
import Batiste.Transition

/-! The checkpoint timers of an orchestrator: `executeWorkflow` of several workflows at a time,
with the one handle that they share. -/
namespace Batiste
namespace Orchestrator

open Transition

/-! ## The orchestrator -/

inductive Status
  | running
  | completed
  | failed
  deriving DecidableEq, Repr

structure WorkflowExecution where
  id : String
  workflowId : String
  status : Status
  currentStage : String
  error : Option String
  checkpoints : List String
  deriving DecidableEq, Repr

structure Checkpoint where
  id : String
  workflowId : String
  phase : String
  deriving DecidableEq, Repr

/-- An interval that the runtime keeps: its handle, and the execution of its callback. -/
structure Interval where
  handle : ℕ
  executionId : String
  deriving DecidableEq, Repr

/-- The fields of the orchestrator, and the intervals that are live. -/
structure State where
  workflows : Dict String
  executions : Dict WorkflowExecution
  checkpoints : Dict (List Checkpoint)
  checkpointTimer : Option ℕ
  intervals : List Interval
  nextHandle : ℕ
  deriving DecidableEq, Repr

def new : State := ⟨[], [], [], none, [], 0⟩

def registerWorkflow (o : State) (workflowId entryPoint : String) : State :=
  { o with workflows := o.workflows.set workflowId entryPoint }

/-- `this.checkpointTimer = setInterval(…)`, whatever the field holds. -/
def startCheckpointTimer (o : State) (executionId : String) : State :=
  { o with
    checkpointTimer := some o.nextHandle
    intervals := o.intervals ++ [⟨o.nextHandle, executionId⟩]
    nextHandle := o.nextHandle + 1 }

def stopCheckpointTimer (o : State) : State :=
  match o.checkpointTimer with
  | some handle =>
    { o with
      checkpointTimer := none
      intervals := o.intervals.filter fun i => i.handle ≠ handle }
  | none => o

def createCheckpoint (o : State) (executionId checkpointId : String) : Except String State :=
  match o.executions.get? executionId with
  | none => .error ("Execution not found: " ++ executionId)
  | some execution =>
    let checkpoint := ⟨checkpointId, execution.workflowId, execution.currentStage⟩
    .ok
      { o with
        checkpoints := o.checkpoints.set executionId
          ((o.checkpoints.get? executionId).getD [] ++ [checkpoint])
        executions := o.executions.mapKey executionId fun e =>
          { e with checkpoints := e.checkpoints ++ [checkpointId] } }

/-- `executeWorkflow` as far as its wait for the first stage. -/
def executeWorkflow (o : State) (workflowId executionId : String) : Except String State :=
  match o.workflows.get? workflowId with
  | none => .error ("Workflow not found: " ++ workflowId)
  | some entryPoint =>
    let execution : WorkflowExecution :=
      { id := executionId, workflowId, status := .running, currentStage := entryPoint,
        error := none, checkpoints := [] }
    .ok (startCheckpointTimer
      { o with
        executions := o.executions.set executionId execution
        checkpoints := o.checkpoints.set executionId [] } executionId)

/-- The rest of `executeWorkflow`, when its stages have ended or one of them has thrown. -/
def settle (o : State) (executionId : String) (error : Option String) : State :=
  stopCheckpointTimer
    { o with
      executions := o.executions.mapKey executionId fun e =>
        match error with
        | none => { e with status := .completed }
        | some message => { e with status := .failed, error := some message } }

/-! ## Runs -/

inductive Action
  | register (workflowId entryPoint : String)
  | start (workflowId executionId : String)
  | stage (executionId stage : String)
  | settle (executionId : String) (error : Option String)
  | tick (handle : ℕ) (checkpointId : String)

/-- The call is between its start and its end. -/
def Running (o : State) (id : String) : Prop :=
  ∃ e, o.executions.get? id = some e ∧ e.status = .running

instance (o : State) (id : String) : Decidable (Running o id) :=
  decidable_of_iff ((o.executions.get? id).any fun e => decide (e.status = .running)) (by
    unfold Running
    cases o.executions.get? id <;> simp)

/-- The ids of executions are random, so that none comes a second time; a call of an unknown
workflow throws and changes nothing.  Only a live interval ticks. -/
def step (o : State) : Action → Option State
  | .register workflowId entryPoint => some (registerWorkflow o workflowId entryPoint)
  | .start workflowId executionId =>
    if executionId ∈ o.executions.map Prod.fst then none
    else
      match executeWorkflow o workflowId executionId with
      | .ok o' => some o'
      | .error _ => some o
  | .stage executionId stage =>
    if Running o executionId then
      some { o with executions := o.executions.mapKey executionId fun e =>
        { e with currentStage := stage } }
    else none
  | .settle executionId error =>
    if Running o executionId then some (settle o executionId error) else none
  | .tick handle checkpointId =>
    match o.intervals.find? fun i => i.handle = handle with
    | none => none
    | some i => (createCheckpoint o i.executionId checkpointId).toOption

/-- No call is under way. -/
def Idle (o : State) : Prop := ∀ id, ¬ Running o id

/-- Every running execution has a live timer, and without one no timer is live. -/
structure Covered (o : State) : Prop where
  live : ∀ id, Running o id → ∃ i ∈ o.intervals, i.executionId = id
  none : Idle o → o.intervals = []

/-- The action starts an execution. -/
def Starts (o : State) : Action → Prop
  | .start workflowId _ => (o.workflows.get? workflowId).isSome = true
  | _ => False

/-- No execution is started while another one is running. -/
def NoOverlap (as : List Action) : Prop :=
  Each step new as fun _ o a => Starts o a → Idle o

/-! ## Steps -/

/-- The ids of the running executions, in the order of their starts. -/
def runningIds (executions : Dict WorkflowExecution) : List String :=
  executions.filterMap fun e => if e.2.status = .running then some e.1 else none

theorem mem_runningIds {o : State} (hkeys : (o.executions.map Prod.fst).Nodup) {id : String} :
    id ∈ runningIds o.executions ↔ Running o id := by
  unfold runningIds
  rw [List.mem_filterMap]
  constructor
  · rintro ⟨⟨key, e⟩, he, hid⟩
    split_ifs at hid with hstatus
    obtain rfl := Option.some.inj hid
    exact ⟨e, Dict.get?_of_mem hkeys he, hstatus⟩
  · rintro ⟨e, he, hstatus⟩
    exact ⟨(id, e), Dict.mem_of_get? he, if_pos hstatus⟩

theorem idle_iff {o : State} (hkeys : (o.executions.map Prod.fst).Nodup) :
    Idle o ↔ runningIds o.executions = [] := by
  rw [List.eq_nil_iff_forall_not_mem]
  exact forall_congr' fun id => (mem_runningIds hkeys).not.symm

theorem runningIds_mapKey (executions : Dict WorkflowExecution) (id : String)
    {f : WorkflowExecution → WorkflowExecution} (hf : ∀ e, (f e).status = e.status) :
    runningIds (executions.mapKey id f) = runningIds executions := by
  unfold runningIds Dict.mapKey
  rw [List.filterMap_map]
  refine List.filterMap_congr fun e _ => ?_
  by_cases hkey : e.1 = id <;> simp [hkey, hf]

theorem runningIds_settled (executions : Dict WorkflowExecution) (id : String)
    {f : WorkflowExecution → WorkflowExecution} (hf : ∀ e, (f e).status ≠ .running) :
    runningIds (executions.mapKey id f) = (runningIds executions).filter (· ≠ id) := by
  unfold runningIds Dict.mapKey
  rw [List.filterMap_map, List.filter_filterMap]
  refine List.filterMap_congr fun e _ => ?_
  by_cases hkey : e.1 = id
  · by_cases hstatus : e.2.status = .running <;> simp [hkey, hf, hstatus, Option.filter]
  · by_cases hstatus : e.2.status = .running <;> simp [hkey, hstatus, Option.filter]

theorem keys_mapKey (executions : Dict WorkflowExecution) (id : String)
    (f : WorkflowExecution → WorkflowExecution) :
    (executions.mapKey id f).map Prod.fst = executions.map Prod.fst := by
  unfold Dict.mapKey
  rw [List.map_map]
  refine List.map_congr_left fun e _ => ?_
  by_cases hkey : e.1 = id <;> simp [hkey]

/-- Neither the executions under way nor the timers change. -/
structure Quiet (o o' : State) : Prop where
  keys : o'.executions.map Prod.fst = o.executions.map Prod.fst
  running : runningIds o'.executions = runningIds o.executions
  timer : o'.checkpointTimer = o.checkpointTimer
  intervals : o'.intervals = o.intervals
  next : o'.nextHandle = o.nextHandle

structure Started (o o' : State) (id : String) : Prop where
  fresh : id ∉ o.executions.map Prod.fst
  keys : o'.executions.map Prod.fst = o.executions.map Prod.fst ++ [id]
  running : runningIds o'.executions = runningIds o.executions ++ [id]
  timer : o'.checkpointTimer = some o.nextHandle
  intervals : o'.intervals = o.intervals ++ [⟨o.nextHandle, id⟩]
  next : o'.nextHandle = o.nextHandle + 1

structure Settled (o o' : State) (id : String) : Prop where
  was : Running o id
  keys : o'.executions.map Prod.fst = o.executions.map Prod.fst
  running : runningIds o'.executions = (runningIds o.executions).filter (· ≠ id)
  timer : o'.checkpointTimer = none
  intervals : o'.intervals = o.intervals.filter fun i => o.checkpointTimer ≠ some i.handle
  next : o'.nextHandle = o.nextHandle

theorem started {o o' : State} {workflowId id : String} (hfresh : id ∉ o.executions.map Prod.fst)
    (h : executeWorkflow o workflowId id = .ok o') : Started o o' id := by
  unfold executeWorkflow at h
  split at h
  · cases h
  · obtain rfl := Except.ok.inj h
    have hset : ∀ e : WorkflowExecution, o.executions.set id e = o.executions ++ [(id, e)] := by
      intro e
      refine if_neg fun hany => hfresh ?_
      obtain ⟨entry, hentry, hkey⟩ := List.any_eq_true.mp hany
      exact List.mem_map.mpr ⟨entry, hentry, by simpa using hkey⟩
    refine ⟨hfresh, ?_, ?_, rfl, rfl, rfl⟩
    · simp [startCheckpointTimer, hset]
    · simp [startCheckpointTimer, hset, runningIds]

theorem settled {o : State} {id : String} (hrunning : Running o id) (error : Option String) :
    Settled o (settle o id error) id := by
  unfold settle
  generalize hexecutions : o.executions.mapKey id _ = executions
  have hkeys : executions.map Prod.fst = o.executions.map Prod.fst := by
    rw [← hexecutions, keys_mapKey]
  have hids : runningIds executions = (runningIds o.executions).filter (· ≠ id) := by
    rw [← hexecutions]
    refine runningIds_settled _ id fun e => ?_
    cases error <;> simp
  unfold stopCheckpointTimer
  cases htimer : o.checkpointTimer with
  | none => exact ⟨hrunning, hkeys, hids, rfl, by simp [htimer], rfl⟩
  | some handle =>
    refine ⟨hrunning, hkeys, hids, rfl, ?_, rfl⟩
    refine List.filter_congr fun i _ => ?_
    simp [htimer, eq_comm]

theorem quiet_mapKey (o : State) (id : String) {f : WorkflowExecution → WorkflowExecution}
    (hf : ∀ e, (f e).status = e.status) (checkpoints : Dict (List Checkpoint)) :
    Quiet o { o with executions := o.executions.mapKey id f, checkpoints } :=
  ⟨keys_mapKey o.executions id f, runningIds_mapKey o.executions id hf, rfl, rfl, rfl⟩

theorem quiet_createCheckpoint {o o' : State} {id checkpointId : String}
    (h : createCheckpoint o id checkpointId = .ok o') : Quiet o o' := by
  unfold createCheckpoint at h
  split at h
  · cases h
  · obtain rfl := Except.ok.inj h
    exact quiet_mapKey o id (fun _ => by rfl) _

/-- What a step does to the executions under way and to the timers. -/
theorem step_cases {o o' : State} {a : Action} (h : step o a = some o') :
    (Quiet o o' ∧ ¬ Starts o a) ∨ (Starts o a ∧ ∃ id, Started o o' id) ∨
      (¬ Starts o a ∧ ∃ id, Settled o o' id) := by
  cases a with
  | register workflowId entryPoint =>
    obtain rfl := Option.some.inj h
    exact .inl ⟨⟨rfl, rfl, rfl, rfl, rfl⟩, id⟩
  | start workflowId executionId =>
    rw [step] at h
    split_ifs at h with hfresh
    cases hexecute : executeWorkflow o workflowId executionId with
    | ok u =>
      rw [hexecute] at h
      obtain rfl := Option.some.inj h
      refine .inr (.inl ⟨?_, executionId, started hfresh hexecute⟩)
      unfold executeWorkflow at hexecute
      split at hexecute
      · cases hexecute
      · rename_i hworkflow
        simp [Starts, hworkflow]
    | error message =>
      rw [hexecute] at h
      obtain rfl := Option.some.inj h
      refine .inl ⟨⟨rfl, rfl, rfl, rfl, rfl⟩, ?_⟩
      unfold executeWorkflow at hexecute
      split at hexecute
      · rename_i hworkflow
        simp [Starts, hworkflow]
      · cases hexecute
  | stage executionId stage =>
    rw [step] at h
    split_ifs at h
    obtain rfl := Option.some.inj h
    exact .inl ⟨quiet_mapKey o executionId (fun _ => by rfl) _, id⟩
  | settle executionId error =>
    rw [step] at h
    split_ifs at h with hrunning
    obtain rfl := Option.some.inj h
    exact .inr (.inr ⟨id, executionId, settled hrunning error⟩)
  | tick handle checkpointId =>
    rw [step] at h
    split at h
    · cases h
    · rename_i i hfind
      cases hcheckpoint : createCheckpoint o i.executionId checkpointId with
      | ok u =>
        rw [hcheckpoint] at h
        obtain rfl := Option.some.inj h
        exact .inl ⟨quiet_createCheckpoint hcheckpoint, id⟩
      | error message =>
        rw [hcheckpoint] at h
        cases h

/-! ## Every run -/

/-- What holds of the handles in every reachable state. -/
structure Handles (o : State) : Prop where
  keys : (o.executions.map Prod.fst).Nodup
  running : (runningIds o.executions).Nodup
  nodup : (o.intervals.map Interval.handle).Nodup
  below : ∀ i ∈ o.intervals, i.handle < o.nextHandle
  live : ∀ handle, o.checkpointTimer = some handle → handle ∈ o.intervals.map Interval.handle
  busy : o.checkpointTimer ≠ none → runningIds o.executions ≠ []
  enough : (runningIds o.executions).length ≤ o.intervals.length

theorem handles_new : Handles new where
  keys := List.nodup_nil
  running := List.nodup_nil
  nodup := List.nodup_nil
  below := by simp [new]
  live := by simp [new]
  busy := by simp [new]
  enough := le_refl 0

theorem Quiet.handles {o o' : State} (hq : Quiet o o') (h : Handles o) : Handles o' := by
  obtain ⟨hkeys, hrunning, htimer, hintervals, hnext⟩ := hq
  constructor
  case keys => exact hkeys ▸ h.keys
  case running => exact hrunning ▸ h.running
  case nodup => exact hintervals ▸ h.nodup
  case below =>
    rw [hintervals, hnext]
    exact h.below
  case live =>
    rw [hintervals, htimer]
    exact h.live
  case busy =>
    rw [hrunning, htimer]
    exact h.busy
  case enough =>
    rw [hrunning, hintervals]
    exact h.enough

theorem Started.handles {o o' : State} {id : String} (hs : Started o o' id) (h : Handles o) :
    Handles o' := by
  obtain ⟨hfresh, hkeys, hrunning, htimer, hintervals, hnext⟩ := hs
  have hnotin : id ∉ runningIds o.executions := fun hin => by
    obtain ⟨e, he, -⟩ := (mem_runningIds h.keys).mp hin
    exact hfresh (List.mem_map.mpr ⟨_, Dict.mem_of_get? he, rfl⟩)
  have hnew : o.nextHandle ∉ o.intervals.map Interval.handle := fun hin => by
    obtain ⟨i, hi, heq⟩ := List.mem_map.mp hin
    exact absurd heq (h.below i hi).ne
  constructor
  case keys =>
    rw [hkeys]
    exact List.nodup_append.mpr ⟨h.keys, List.nodup_singleton id, by grind⟩
  case running =>
    rw [hrunning]
    exact List.nodup_append.mpr ⟨h.running, List.nodup_singleton id, by grind⟩
  case nodup =>
    rw [hintervals, List.map_append]
    exact List.nodup_append.mpr ⟨h.nodup, List.nodup_singleton _, by grind⟩
  case below =>
    rw [hintervals, hnext]
    intro i hi
    rcases List.mem_append.mp hi with hi | hi
    · exact (h.below i hi).trans (Nat.lt_succ_self _)
    · rw [List.mem_singleton.mp hi]
      exact Nat.lt_succ_self _
  case live =>
    rw [hintervals, htimer]
    rintro handle ⟨rfl⟩
    simp
  case busy =>
    rw [hrunning]
    simp
  case enough =>
    rw [hrunning, hintervals, List.length_append, List.length_append]
    exact Nat.add_le_add_right h.enough 1

theorem length_filter_key {α κ : Type*} [DecidableEq κ] {key : α → κ} {xs : List α} {x : α}
    (hkeys : (xs.map key).Nodup) (hx : x ∈ xs) :
    (xs.filter fun a => key a ≠ key x).length + 1 = xs.length := by
  have hone := List.count_eq_one_of_mem hkeys (List.mem_map_of_mem hx)
  rw [List.count, List.countP_map] at hone
  rw [List.length_eq_countP_add_countP ((· == key x) ∘ key) (l := xs), hone, Nat.add_comm,
    ← List.countP_eq_length_filter]
  congr 1
  refine List.countP_congr fun a _ => ?_
  simp

/-- How many executions and how many intervals the end of an execution leaves. -/
theorem Settled.lengths {o o' : State} {id : String} (hs : Settled o o' id) (h : Handles o) :
    (runningIds o'.executions).length + 1 = (runningIds o.executions).length ∧
      o'.intervals.length + (if o.checkpointTimer = none then 0 else 1) = o.intervals.length := by
  obtain ⟨hwas, -, hrunning, -, hintervals, -⟩ := hs
  have hin := (mem_runningIds h.keys).mpr hwas
  constructor
  · rw [hrunning]
    have hkeys : ((runningIds o.executions).map fun x => x).Nodup := by simpa using h.running
    exact length_filter_key hkeys hin
  · rw [hintervals]
    cases htimer : o.checkpointTimer with
    | none => simp
    | some handle =>
      obtain ⟨i, hi, rfl⟩ := List.mem_map.mp (h.live handle htimer)
      have hfilter : (o.intervals.filter fun j => some i.handle ≠ some j.handle) =
          o.intervals.filter fun j => j.handle ≠ i.handle :=
        List.filter_congr fun j _ => by simp [eq_comm]
      rw [if_neg (Option.some_ne_none _), hfilter, length_filter_key h.nodup hi]

theorem Settled.handles {o o' : State} {id : String} (hs : Settled o o' id) (h : Handles o) :
    Handles o' := by
  have hlengths := hs.lengths h
  obtain ⟨-, hkeys, hrunning, htimer, hintervals, hnext⟩ := hs
  have hsub : o'.intervals.Sublist o.intervals := hintervals ▸ List.filter_sublist
  constructor
  case keys => exact hkeys ▸ h.keys
  case running => exact hrunning ▸ h.running.filter _
  case nodup => exact h.nodup.sublist (hsub.map _)
  case below =>
    rw [hnext]
    exact fun i hi => h.below i (hsub.subset hi)
  case live => simp [htimer]
  case busy => simp [htimer]
  case enough =>
    have henough := h.enough
    by_cases hnone : o.checkpointTimer = none
    · rw [if_pos hnone] at hlengths
      omega
    · rw [if_neg hnone] at hlengths
      omega

theorem step_handles {o o' : State} {a : Action} (h : Handles o) (ha : step o a = some o') :
    Handles o' := by
  rcases step_cases ha with ⟨hq, -⟩ | ⟨-, id, hs⟩ | ⟨-, id, hs⟩
  · exact hq.handles h
  · exact hs.handles h
  · exact hs.handles h

theorem run_handles {as : List Action} {o : State} (h : run step new as = some o) : Handles o :=
  run_invariant (fun _ _ _ => step_handles) handles_new h

/-! ## Runs without overlap -/

/-- Nothing runs and nothing is live, or one execution runs with the one interval. -/
def Single (o : State) : Prop :=
  runningIds o.executions = [] ∧ o.intervals = [] ∧ o.checkpointTimer = none ∨
    ∃ id handle, runningIds o.executions = [id] ∧ o.intervals = [⟨handle, id⟩] ∧
      o.checkpointTimer = some handle

theorem Single.step {o o' : State} {a : Action} (hh : Handles o) (h : Single o)
    (hidle : Starts o a → Idle o) (ha : step o a = some o') : Single o' := by
  rcases step_cases ha with ⟨hq, -⟩ | ⟨hstarts, id, hs⟩ | ⟨-, id, hs⟩
  · unfold Single
    rw [hq.running, hq.intervals, hq.timer]
    exact h
  · have hempty := (idle_iff hh.keys).mp (hidle hstarts)
    have hintervals : o.intervals = [] := by
      rcases h with ⟨-, hintervals, -⟩ | ⟨id, handle, hrunning, -⟩
      · exact hintervals
      · rw [hrunning] at hempty
        cases hempty
    refine .inr ⟨id, o.nextHandle, ?_, ?_, hs.timer⟩
    · rw [hs.running, hempty, List.nil_append]
    · rw [hs.intervals, hintervals, List.nil_append]
  · have hin := (mem_runningIds hh.keys).mpr hs.was
    rcases h with ⟨hrunning, -⟩ | ⟨id', handle, hrunning, hintervals, htimer⟩
    · rw [hrunning] at hin
      exact absurd hin List.not_mem_nil
    · rw [hrunning, List.mem_singleton] at hin
      subst hin
      refine .inl ⟨?_, ?_, hs.timer⟩
      · simp [hs.running, hrunning]
      · simp [hs.intervals, hintervals, htimer]

theorem Single.covered {o : State} (hh : Handles o) (h : Single o) : Covered o := by
  rcases h with ⟨hrunning, hintervals, -⟩ | ⟨id, handle, hrunning, hintervals, -⟩
  · have hidle := (idle_iff hh.keys).mpr hrunning
    exact ⟨fun id hid => absurd hid (hidle id), fun _ => hintervals⟩
  · constructor
    · intro id' hid
      have hin := (mem_runningIds hh.keys).mpr hid
      rw [hrunning, List.mem_singleton] at hin
      exact ⟨⟨handle, id⟩, by simp [hintervals], hin.symm⟩
    · intro hidle
      rw [(idle_iff hh.keys).mp hidle] at hrunning
      cases hrunning

/-! ## Runs with overlap -/

/-- An interval too many, or the next end of an execution leaves one without its interval. -/
def Leaks (o : State) : Prop :=
  (runningIds o.executions).length < o.intervals.length ∨
    (if o.checkpointTimer = none then 1 else 2) ≤ (runningIds o.executions).length

theorem Leaks.step {o o' : State} {a : Action} (hh : Handles o) (h : Leaks o)
    (ha : step o a = some o') : Leaks o' := by
  unfold Leaks at h ⊢
  rcases step_cases ha with ⟨hq, -⟩ | ⟨-, id, hs⟩ | ⟨-, id, hs⟩
  · rw [hq.running, hq.intervals, hq.timer]
    exact h
  · rw [hs.running, hs.intervals, hs.timer, List.length_append, List.length_append,
      List.length_singleton, List.length_singleton, if_neg (Option.some_ne_none _)]
    split_ifs at h <;> omega
  · obtain ⟨hrunning, hintervals⟩ := hs.lengths hh
    have henough := hh.enough
    rw [hs.timer, if_pos rfl]
    split_ifs at h hintervals <;> omega

theorem leaks_of_overlap {o o' : State} {a : Action} (hh : Handles o) (hstarts : Starts o a)
    (hbusy : ¬ Idle o) (ha : step o a = some o') : Leaks o' := by
  rcases step_cases ha with ⟨-, hnot⟩ | ⟨-, id, hs⟩ | ⟨hnot, -⟩
  · exact absurd hstarts hnot
  · have hpos := List.length_pos_of_ne_nil fun hnil => hbusy ((idle_iff hh.keys).mpr hnil)
    refine .inr ?_
    rw [hs.running, hs.timer, if_neg (Option.some_ne_none _), List.length_append,
      List.length_singleton]
    omega
  · exact absurd hstarts hnot

theorem Leaks.not_covered {o : State} (hh : Handles o) (h : Leaks o) (hidle : Idle o) :
    ¬ Covered o := by
  intro hcovered
  have hrunning := (idle_iff hh.keys).mp hidle
  unfold Leaks at h
  rw [hcovered.none hidle, hrunning] at h
  split_ifs at h <;> simp at h

/-- In a run without overlap every running execution has its timer and none is left behind; in a
run after which nothing runs, a timer is left behind if some executions overlapped. -/
theorem timers_covered {as : List Action} {o : State} (h : run step new as = some o) :
    (NoOverlap as → Covered o) ∧ (Idle o → Covered o → NoOverlap as) := by
  constructor
  · intro hok
    have hsingle := run_history (I := fun _ o => Single o) (.inl ⟨rfl, rfl, rfl⟩)
      (fun _ _ _ _ hs hsingle hidle ha => hsingle.step (run_handles hs) hidle ha) hok h
    exact hsingle.covered (run_handles h)
  · intro hidle hcovered pre a post s has hs hstarts
    by_contra hbusy
    subst has
    obtain ⟨t, ht, hrest⟩ := run_append.mp h
    obtain rfl := Option.some.inj (hs.symm.trans ht)
    obtain ⟨u, hu, hrest⟩ := run_cons_iff.mp hrest
    have hleaks := leaks_of_overlap (run_handles hs) hstarts hbusy hu
    have hinv := run_invariant (I := fun o => Handles o ∧ Leaks o)
      (fun _ _ _ hI ha => ⟨step_handles hI.1 ha, hI.2.step hI.1 ha⟩)
      ⟨step_handles (run_handles hs) hu, hleaks⟩ hrest
    exact hinv.2.not_covered hinv.1 hidle hcovered

theorem timers_covered_one : ∃ o, run step new [.register "review" "implement",
    .start "review" "e1", .settle "e1" none] = some o ∧ o.intervals = [] ∧ Covered o := by
  have hok : NoOverlap [.register "review" "implement", .start "review" "e1",
      .settle "e1" none] := by
    refine each_cons ?_ rfl (each_cons ?_ rfl (each_cons ?_ rfl (each_nil _ _)))
    · rintro ⟨⟩
    · rintro - id ⟨e, he, -⟩
      cases he
    · rintro ⟨⟩
  exact ⟨_, rfl, rfl, (timers_covered rfl).1 hok⟩

/-- The end of the first of two executions clears the timer of the second. -/
theorem timer_cleared : ∃ o, run step new [.register "review" "implement", .start "review" "e1",
    .start "review" "e2", .settle "e1" none] = some o ∧ Running o "e2" ∧ o.intervals = [⟨0, "e1"⟩] ∧
      ¬ Covered o := by
  have hcheck : (run step new [.register "review" "implement", .start "review" "e1",
      .start "review" "e2", .settle "e1" none]).any (fun o =>
        decide (Running o "e2" ∧ o.intervals = [⟨0, "e1"⟩])) = true := by
    decide
  cases hrun : run step new [.register "review" "implement", .start "review" "e1",
      .start "review" "e2", .settle "e1" none] with
  | none =>
    rw [hrun] at hcheck
    cases hcheck
  | some o =>
    rw [hrun] at hcheck
    obtain ⟨hrunning, hintervals⟩ := of_decide_eq_true hcheck
    refine ⟨o, rfl, hrunning, hintervals, fun hcovered => ?_⟩
    obtain ⟨i, hi, hid⟩ := hcovered.live "e2" hrunning
    rw [hintervals, List.mem_singleton] at hi
    rw [hi] at hid
    exact absurd hid (by decide)

end Orchestrator
end Batiste
