import Batiste.JsNumber
import Batiste.Transition

/-! The agent pool of `AgentPool.ts` with the agents of `Agent.ts`.
One transition is one synchronous stretch of the program.  Payloads, descriptions, clock
readings, log lines and events without a listener inside the pool are left out, and a listener
outside it is taken not to throw. -/
namespace Batiste
namespace AgentPool

inductive AgentRole
  | orchestrator | coder | reviewer | tester | documenter | analyst | debugger
  deriving DecidableEq, Repr

inductive AgentState
  | idle | busy | waiting | error | terminated
  deriving DecidableEq, Repr

inductive MessagePriority
  | low | normal | high | critical
  deriving DecidableEq, Repr

def PRIORITY_ORDER : MessagePriority → ℕ
  | .critical => 0
  | .high => 1
  | .normal => 2
  | .low => 3

structure AgentCapability where
  role : AgentRole
  languages : List String
  deriving DecidableEq, Repr

/-- `AgentCapabilitySchema.partial()`. -/
structure RequiredCapabilities where
  role : Option AgentRole := none
  languages : Option (List String) := none
  maxConcurrentTasks : Option JsNumber := none
  deriving DecidableEq, Repr

structure RetryPolicy where
  maxRetries : JsNumber
  backoffMs : JsNumber
  deriving DecidableEq, Repr

structure TaskAssignment where
  taskId : String
  deadline : Option String := none
  parentTaskId : Option String := none
  requiredCapabilities : Option RequiredCapabilities := none
  priority : Option MessagePriority := none
  retryPolicy : Option RetryPolicy := none
  deriving DecidableEq, Repr

structure TaskResult where
  success : Bool
  error : Option String := none
  deriving DecidableEq, Repr

structure QueuedTask where
  assignment : TaskAssignment
  retries : ℕ
  enqueuedAt : ℤ
  deriving DecidableEq, Repr

structure DLQEntry where
  assignment : TaskAssignment
  error : String
  attempts : ℕ
  deriving DecidableEq, Repr

/-- A pending `setTimeout` of the retry path. -/
structure ScheduledRetry where
  assignment : TaskAssignment
  retries : ℕ
  backoff : JsNumber
  deriving DecidableEq, Repr

structure Autoscaling where
  enabled : Bool
  minReplicas : ℚ
  maxReplicas : ℚ
  targetUtilization : ℚ
  deriving DecidableEq, Repr

/-- `languages` stands for `capabilities.languages`, all the pool reads of them. -/
structure AgentPoolSpec where
  replicas : ℕ
  role : AgentRole
  languages : Option (List String) := none
  autoscaling : Option Autoscaling := none
  deriving DecidableEq, Repr

inductive LoadBalancingStrategy
  | roundRobin | leastBusy | capabilityMatch | random
  deriving DecidableEq, Repr

/-- The assignment an agent executes, with the listener that waits for its result; once the
result was sent, only the `finally` block is left. -/
structure Work where
  queued : QueuedTask
  reported : Bool
  deriving DecidableEq, Repr

/-- `listed` says whether the pool's map still holds the agent. -/
structure Agent where
  id : ℕ
  capabilities : AgentCapability
  state : AgentState
  currentTask : Option Work
  listed : Bool
  deriving DecidableEq, Repr

/-- String formats of the schema library, and `busyAgents / Math.max(totalAgents, 1) * 100` in
floating-point arithmetic. -/
structure Env where
  uuid : String → Bool
  datetime : String → Bool
  utilization : ℕ → ℕ → ℚ

/-- Whether `TaskAssignmentSchema.parse` accepts the assignment.  Fields without a format or a
bound are accepted by their type. -/
def TaskAssignmentSchema (env : Env) (a : TaskAssignment) : Bool :=
  env.uuid a.taskId && a.deadline.all env.datetime && a.parentTaskId.all env.uuid &&
    (a.requiredCapabilities.all fun c => c.maxConcurrentTasks.all fun n => decide (n ≠ .nan)) &&
    a.retryPolicy.all fun p => p.maxRetries.nonneg && p.backoffMs.nonneg

/-- `accepted` keeps the assignments whose `submitTask` has returned an id, and `rejecting` the
ids of the dispatches that were rejected and whose `catch` callback has not run. -/
structure Pool where
  spec : AgentPoolSpec
  loadBalancingStrategy : LoadBalancingStrategy
  agents : List Agent
  taskQueue : List QueuedTask
  inFlight : String → Option ℕ
  retrying : List ScheduledRetry
  taskHistory : String → Option Bool
  deadLetterQueue : List DLQEntry
  rejecting : List String
  isRunning : Bool
  draining : Bool
  spawning : List AgentCapability
  deleting : List ℕ
  stopping : ℕ
  clearing : ℕ
  nextId : ℕ
  accepted : List TaskAssignment

def init (spec : AgentPoolSpec) : Pool where
  spec := spec
  loadBalancingStrategy := .capabilityMatch
  agents := []
  taskQueue := []
  inFlight _ := none
  retrying := []
  taskHistory _ := none
  deadLetterQueue := []
  rejecting := []
  isRunning := false
  draining := false
  spawning := []
  deleting := []
  stopping := 0
  clearing := 0
  nextId := 0
  accepted := []

def Agent.isAvailable (agent : Agent) : Bool := decide (agent.state = .idle)

def Agent.canHandle (agent : Agent) (a : TaskAssignment) : Bool :=
  match a.requiredCapabilities with
  | none => true
  | some required =>
    (required.role.all fun role => decide (agent.capabilities.role = role)) &&
      (required.languages.getD []).all fun l => decide (l ∈ agent.capabilities.languages)

/-- Sort by priority (critical first), then FIFO within the same priority. -/
def before (a b : QueuedTask) : Bool :=
  let pa := PRIORITY_ORDER (a.assignment.priority.getD .normal)
  let pb := PRIORITY_ORDER (b.assignment.priority.getD .normal)
  if pa ≠ pb then decide (pa < pb) else decide (a.enqueuedAt ≤ b.enqueuedAt)

def enqueue (task : QueuedTask) (s : Pool) : Pool :=
  { s with taskQueue := (s.taskQueue ++ [task]).insertionSort fun a b => before a b = true }

/-- `random` is the index `Math.random` picks, taken modulo the number of candidates. -/
def selectAgent (random : ℕ) (a : TaskAssignment) (s : Pool) : Option Agent :=
  let availableAgents := s.agents.filter fun agent =>
    agent.listed && agent.isAvailable && agent.canHandle a
  match s.loadBalancingStrategy with
  | .roundRobin | .leastBusy => availableAgents.head?
  | .random => availableAgents[random % availableAgents.length]?
  | .capabilityMatch =>
    let exactMatch := availableAgents.find? fun agent =>
      match a.requiredCapabilities with
      | none => true
      | some required =>
        (required.languages.getD []).all fun l => decide (l ∈ agent.capabilities.languages)
    exactMatch.or availableAgents.head?

def mapAgent (id : ℕ) (f : Agent → Agent) (s : Pool) : Pool :=
  { s with agents := s.agents.map fun agent => if agent.id = id then f agent else agent }

def Agent.stopped (agent : Agent) : Agent := { agent with state := .terminated }

def createAgentForRole (spec : AgentPoolSpec) : AgentCapability :=
  match spec.role with
  | .coder => ⟨.coder, spec.languages.getD ["typescript", "javascript", "python"]⟩
  | .reviewer => ⟨.reviewer, []⟩
  | _ => ⟨.coder, ["typescript", "javascript", "python"]⟩

/-- `checkAutoscaling`, with `terminateAgent` and `Agent.stop` up to their first `await`: the
state change of a stopped agent calls `checkAutoscaling` again.  The fuel is the number of
agents, each of which can be stopped once. -/
def checkAutoscaling (env : Env) : ℕ → Pool → Pool
  | 0, s => s
  | n+1, s =>
    match s.spec.autoscaling with
    | none => s
    | some a =>
      let totalAgents := (s.agents.filter Agent.listed).length
      let busyAgents :=
        (s.agents.filter fun agent => agent.listed && decide (agent.state = .busy)).length
      let utilization := env.utilization busyAgents totalAgents
      if !a.enabled then s
      else if a.targetUtilization < utilization ∧ (totalAgents : ℚ) < a.maxReplicas then
        { s with spawning := s.spawning ++ [createAgentForRole s.spec] }
      else if utilization < a.targetUtilization / 2 ∧ a.minReplicas < totalAgents then
        match s.agents.find? fun agent => agent.listed && agent.isAvailable with
        | none => s
        | some agent =>
          let s := checkAutoscaling env n (mapAgent agent.id Agent.stopped s)
          { s with deleting := s.deleting ++ [agent.id] }
      else s

/-- What the pool's `stateChange` listener does on every change. -/
def stateChanged (env : Env) (s : Pool) : Pool := checkAutoscaling env (s.agents.length + 1) s

/-- The synchronous part of `assignTaskToAgent`: the agent was found idle in the same stretch,
so `handleTaskAssignment` goes on to parse the payload. -/
def assignTaskToAgent (env : Env) (agent : Agent) (queued : QueuedTask) (s : Pool) : Pool :=
  if TaskAssignmentSchema env queued.assignment then
    stateChanged env (mapAgent agent.id
      (fun agent => { agent with state := .busy, currentTask := some ⟨queued, false⟩ }) s)
  else { s with rejecting := s.rejecting ++ [queued.assignment.taskId] }

def dispatchNext (env : Env) (random : ℕ) (s : Pool) : Pool :=
  match s.taskQueue with
  | [] => s
  | task :: rest =>
    if !s.isRunning then s
    else match selectAgent random task.assignment s with
      | none => s
      | some agent =>
        assignTaskToAgent env agent task
          { s with
            taskQueue := rest
            inFlight := Function.update s.inFlight task.assignment.taskId (some agent.id) }

/-- The listener of `assignTaskToAgent`, when the result it waits for is sent. -/
def handleResult (queued : QueuedTask) (result : TaskResult) (s : Pool) : Pool :=
  let a := queued.assignment
  let s := { s with inFlight := Function.update s.inFlight a.taskId none }
  if result.success then
    { s with taskHistory := Function.update s.taskHistory a.taskId (some true) }
  else
    let maxRetries := (a.retryPolicy.map RetryPolicy.maxRetries).getD (.finite 0)
    if maxRetries.natLt queued.retries then
      let backoff := (a.retryPolicy.map RetryPolicy.backoffMs).getD (.finite 1000)
      { s with retrying := s.retrying ++
          [⟨a, queued.retries + 1, backoff.mulPos (queued.retries + 1)⟩] }
    else
      { s with
        deadLetterQueue := s.deadLetterQueue ++
          [⟨a, result.error.getD "Unknown error", queued.retries + 1⟩]
        taskHistory := Function.update s.taskHistory a.taskId (some false) }

inductive Action
  | start
  /-- `submitTask`, at the given clock reading -/
  | submitTask (a : TaskAssignment) (now : ℤ) (random : ℕ)
  /-- `executeTask` of an agent resolves, or rejects and is turned into a result -/
  | report (agent : ℕ) (result : TaskResult)
  /-- the `finally` block of `handleTaskAssignment` -/
  | free (agent : ℕ) (random : ℕ)
  /-- the `catch` callback of a rejected dispatch -/
  | dispatchError (taskId : String)
  /-- a retry timer fires -/
  | retry (index : ℕ) (now : ℤ) (random : ℕ)
  | spawned
  | terminateAgent (agent : ℕ)
  | deleted (agent : ℕ)
  | stop
  /-- `stop` has waited long enough, or nothing is in flight -/
  | drained
  | cleared
  | setLoadBalancingStrategy (strategy : LoadBalancingStrategy)
  /-- `updateSpec`; the agents it removes are removed by `terminateAgent` -/
  | updateSpec (spec : AgentPoolSpec)
  deriving DecidableEq, Repr

/-- `Agent.stop` for every agent of the list in turn. -/
def stopAll (env : Env) : List ℕ → Pool → Pool
  | [], s => s
  | id :: ids, s => stopAll env ids (stateChanged env (mapAgent id Agent.stopped s))

def step (env : Env) (s : Pool) : Action → Option Pool
  | .start =>
    if s.isRunning then some s
    else some { s with
      isRunning := true
      spawning := s.spawning ++ List.replicate s.spec.replicas (createAgentForRole s.spec) }
  | .submitTask a now random =>
    if s.draining then none
    else some (dispatchNext env random
      { enqueue ⟨a, 0, now⟩ s with accepted := s.accepted ++ [a] })
  | .report id result =>
    match s.agents.find? fun agent => decide (agent.id = id) with
    | some ⟨_, _, _, some ⟨queued, false⟩, _⟩ =>
      some (handleResult queued result
        (mapAgent id (fun agent => { agent with currentTask := some ⟨queued, true⟩ }) s))
    | _ => none
  | .free id random =>
    match s.agents.find? fun agent => decide (agent.id = id) with
    | some ⟨_, _, _, some ⟨_, true⟩, _⟩ =>
      some (dispatchNext env random (stateChanged env (mapAgent id
        (fun agent => { agent with state := .idle, currentTask := none }) s)))
    | _ => none
  | .dispatchError taskId =>
    if taskId ∈ s.rejecting then
      some { s with
        rejecting := s.rejecting.erase taskId
        inFlight := Function.update s.inFlight taskId none }
    else none
  | .retry index now random =>
    match s.retrying[index]? with
    | none => none
    | some r =>
      some (dispatchNext env random
        (enqueue ⟨r.assignment, r.retries, now⟩ { s with retrying := s.retrying.eraseIdx index }))
  | .spawned =>
    match s.spawning with
    | [] => none
    | capabilities :: spawning =>
      some { s with
        spawning := spawning
        agents := s.agents ++ [⟨s.nextId, capabilities, .idle, none, true⟩]
        nextId := s.nextId + 1 }
  | .terminateAgent id =>
    if s.agents.any fun agent => agent.listed && decide (agent.id = id) then
      let s := stateChanged env (mapAgent id Agent.stopped s)
      some { s with deleting := s.deleting ++ [id] }
    else none
  | .deleted id =>
    if id ∈ s.deleting then
      some { mapAgent id (fun agent => { agent with listed := false }) s with
        deleting := s.deleting.erase id }
    else none
  | .stop => some { s with draining := true, stopping := s.stopping + 1 }
  | .drained =>
    if 0 < s.stopping then
      some (stopAll env ((s.agents.filter Agent.listed).map Agent.id)
        { s with
          isRunning := false
          draining := false
          stopping := s.stopping - 1
          clearing := s.clearing + 1 })
    else none
  | .cleared =>
    if 0 < s.clearing then
      some { s with
        agents := s.agents.map fun agent => { agent with listed := false }
        clearing := s.clearing - 1 }
    else none
  | .setLoadBalancingStrategy strategy => some { s with loadBalancingStrategy := strategy }
  | .updateSpec spec =>
    some { s with
      spec := spec
      spawning := s.spawning ++
        List.replicate (spec.replicas - s.spec.replicas) (createAgentForRole spec) }

end AgentPool
end Batiste
