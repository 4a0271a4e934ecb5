import Batiste.JsNumber
import Batiste.Plan
import Batiste.Transition
import Batiste.Worklist

/-! The executor of `executor.ts`, with its limits and its lineage recorder.
`Executor.run` is one transition system over the synchronous stretches of the program: a
round of the scheduler loop, the continuation after an awaited `fn`, the resumption after
`await wakeupPromise`, a `finally` callback and the end of `Promise.all`.  Clock readings and
the recorder's own uuids are left out of the lineage. -/
namespace Batiste

inductive Concurrency
  | auto
  | num (n : JsNumber)
  deriving DecidableEq, Repr

structure ExecutorOptions where
  concurrency : Option Concurrency := none
  concurrencyByTag : List (String × Concurrency) := []

/-- What `limits.ts` reads from the machine and the environment. -/
structure Host where
  cpus : Option ℕ
  anthropicTier : Option String

inductive AnthropicModel
  | opus | sonnet | haiku
  deriving DecidableEq, Repr

def rpmTable : String → AnthropicModel → Option ℕ
  | "1", .opus => some 50
  | "1", .sonnet => some 1000
  | "1", .haiku => some 2000
  | "2", .opus => some 1000
  | "2", .sonnet => some 2000
  | "2", .haiku => some 4000
  | "3", .opus => some 2000
  | "3", .sonnet => some 4000
  | "3", .haiku => some 4000
  | "4", .opus => some 4000
  | "4", .sonnet => some 8000
  | "4", .haiku => some 8000
  | _, _ => none

/-- `enterprise` and unknown tiers have no row. -/
def getRpmLimit (host : Host) (model : AnthropicModel) (tier : Option String) : Option ℕ :=
  rpmTable ((tier.or host.anthropicTier).getD "1") model

def getCpuConcurrency (host : Host) : ℕ := max 1 (host.cpus.getD 1 / 2)

def rpmToConcurrency (rpm : Option ℕ) (avgLatencyMs : ℕ) : Option ℕ :=
  rpm.map fun rpm => max 1 ⌊(rpm : ℚ) / 60 * avgLatencyMs / 1000⌋₊

inductive LineagePhase
  | start | ended
  deriving DecidableEq, Repr

inductive LineageResult
  | success | error
  deriving DecidableEq, Repr

structure LineageEntry where
  name : String
  phase : LineagePhase
  result : Option LineageResult
  error : Option String
  tag : Option String
  deriving DecidableEq, Repr

namespace LineageEntry

def start (name : String) (tag : Option String) : LineageEntry := ⟨name, .start, none, none, tag⟩

def finish (name : String) (tag : Option String) (result : LineageResult) (error : Option String) :
    LineageEntry := ⟨name, .ended, some result, error, tag⟩

/-- The synthetic skip: an end without a start. -/
def skip (name : String) (tag : Option String) (upstreamName : String) : LineageEntry :=
  ⟨name, .ended, some .error, some ("upstream failed: " ++ upstreamName), tag⟩

end LineageEntry

namespace Executor

def resolveGlobalCap (host : Host) (opts : ExecutorOptions) : ℕ :=
  match opts.concurrency.getD .auto with
  | .auto => getCpuConcurrency host
  | .num (.finite c) => if c < 1 then 1 else ⌊c⌋₊
  | .num _ => 1

/-- The cap one entry of `concurrencyByTag` sets, if any. -/
def resolveTagCap (host : Host) (tag : String) : Concurrency → Option ℕ
  | .auto =>
    if tag = "llm-bound" then rpmToConcurrency (getRpmLimit host .sonnet none) 4000
    else some (getCpuConcurrency host)
  | .num (.finite c) => if 1 ≤ c then some ⌊c⌋₊ else none
  | .num _ => none

/-- The keys of the options object are distinct, so a key is looked up. -/
def resolveTagCaps (host : Host) (opts : ExecutorOptions) (tag : String) : Option ℕ :=
  (opts.concurrencyByTag.find? fun entry => entry.1 == tag).bind fun entry =>
    resolveTagCap host tag entry.2

/-- What `run` computes before the loop. -/
structure Config (V : Type) where
  plan : Plan V
  order : List ℕ
  globalCap : ℕ
  tagCaps : String → Option ℕ

def configure {V : Type} (host : Host) (opts : ExecutorOptions) (plan : Plan V) :
    Except CycleError (Config V) :=
  plan.toposort.map fun order =>
    ⟨plan, order, resolveGlobalCap host opts, resolveTagCaps host opts⟩

/-- Where the asynchronous function `run` stands.  An awaited wake-up promise is named by the
number of wake-ups before it was made, an awaited `Promise.all` by its operations. -/
inductive Control
  | loop
  | awaiting (promise : ℕ)
  | draining (promises : List ℕ)
  | returned
  | threw
  deriving DecidableEq, Repr

/-- `results` stands for `resultById` and for `results`, which hold the same values under
the id and under the handle issued with it.  The calls of `fn` are kept for the record, and
each lineage entry carries the operation it was recorded for. -/
structure State (V : Type) where
  control : Control
  pending : ℕ → Option ℤ
  ready : List ℕ
  results : ℕ → Option V
  failed : List ℕ
  failureReason : ℕ → Option String
  pendingCount : ℤ
  globalInFlight : ℤ
  tagInFlight : String → Option ℤ
  running : List (ℕ × Settlement V)
  inFlight : List ℕ
  fulfilled : List ℕ
  rejected : List ℕ
  wakeups : ℕ
  lineage : List (ℕ × LineageEntry)
  calls : List (ℕ × OperationContext V)

variable {V : Type} (cfg : Config V)

def dependents : ℕ → List ℕ := cfg.plan.dependents cfg.order

def init : State V where
  control := .loop
  pending := cfg.plan.indegree
  ready := cfg.order.filter fun id => decide ((cfg.plan.indegree id).getD 0 = 0)
  results _ := none
  failed := []
  failureReason _ := none
  pendingCount := cfg.order.length
  globalInFlight := 0
  tagInFlight _ := none
  running := []
  inFlight := []
  fulfilled := []
  rejected := []
  wakeups := 0
  lineage := []
  calls := []

def canDispatch (s : State V) (op : Operation V) : Bool :=
  decide (s.globalInFlight < cfg.globalCap) &&
    match op.tag.bind fun tag => (cfg.tagCaps tag).map fun cap => (tag, cap) with
    | none => true
    | some (tag, cap) => decide ((s.tagInFlight tag).getD 0 < cap)

/-- Record `op` as skipped because of the operation named `upstream`. -/
def skipOp (upstream : String) (op : Operation V) (s : State V) : State V :=
  { s with
    failed := op.id :: s.failed
    lineage := s.lineage ++ [(op.id, .skip op.name op.tag upstream)]
    pendingCount := s.pendingCount - 1 }

/-- The loop of `cascadeSkip`; the top of its stack is the head of the list. -/
def cascadeLoop (upstream : String) : ℕ → List ℕ → State V → State V
  | 0, _, s => s
  | _+1, [], s => s
  | n+1, id :: stack, s =>
    if id ∈ s.failed then cascadeLoop upstream n stack s
    else match cfg.plan.op? id with
      | none => s
      | some op =>
        cascadeLoop upstream n ((dependents cfg id).reverse ++ stack) (skipOp upstream op s)

/-- The fuel covers the entries of the first stack and every later push. -/
def cascadeSkip (originId : ℕ) (originName : String) (s : State V) : State V :=
  let stack := (dependents cfg originId).reverse
  cascadeLoop cfg originName
    (stack.length + (cfg.plan.ids.map fun id => (dependents cfg id).length).sum) stack s

/-- The `finally` block of `runOp` and the settling of the promise `runOp` returned. -/
def finallyOp (op : Operation V) (ok : Bool) (s : State V) : State V :=
  { s with
    globalInFlight := s.globalInFlight - 1
    tagInFlight := match op.tag with
      | none => s.tagInFlight
      | some tag => Function.update s.tagInFlight tag (some ((s.tagInFlight tag).getD 1 - 1))
    wakeups := s.wakeups + 1
    fulfilled := if ok then op.id :: s.fulfilled else s.fulfilled
    rejected := if ok then s.rejected else op.id :: s.rejected }

/-- The rest of the `try` block once `fn` resolved. -/
def succeedOp (op : Operation V) (value : V) (s : State V) : State V :=
  let r := Countdown.release 1 (fun id => decide (id ∉ s.failed)) (dependents cfg op.id) s.pending
  { s with
    results := Function.update s.results op.id (some value)
    lineage := s.lineage ++ [(op.id, .finish op.name op.tag .success none)]
    pendingCount := s.pendingCount - 1
    pending := r.1
    ready := s.ready ++ r.2 }

/-- The `catch` block for an error with a message. -/
def failOp (op : Operation V) (message : String) (s : State V) : State V :=
  cascadeSkip cfg op.id op.name
    { s with
      failed := op.id :: s.failed
      failureReason := Function.update s.failureReason op.id (some op.name)
      lineage := s.lineage ++ [(op.id, .finish op.name op.tag .error (some message))]
      pendingCount := s.pendingCount - 1 }

/-- Everything after the `await` of `runOp`.  Where no message can be made of the error the
`catch` block itself throws, before it has recorded anything. -/
def settleOp (op : Operation V) (s : State V) : Settlement V → State V
  | .resolve value => finallyOp op true (succeedOp cfg op value s)
  | .reject err =>
    match err.message? with
    | some message => finallyOp op true (failOp cfg op message s)
    | none => finallyOp op false s

/-- The counters, the start entry and the call itself. -/
def enterOp (op : Operation V) (ctx : OperationContext V) (s : State V) : State V :=
  { s with
    globalInFlight := s.globalInFlight + 1
    tagInFlight := match op.tag with
      | none => s.tagInFlight
      | some tag => Function.update s.tagInFlight tag (some ((s.tagInFlight tag).getD 0 + 1))
    lineage := s.lineage ++ [(op.id, .start op.name op.tag)]
    calls := s.calls ++ [(op.id, ctx)] }

/-- `runOp` up to the `await`; a synchronous throw goes on to the `catch` block at once. -/
def callOp (op : Operation V) (s : State V) : State V :=
  let ctx : OperationContext V := ⟨op.depIds.map s.results⟩
  match op.fn ctx with
  | .throws err => settleOp cfg op (enterOp op ctx s) (.reject err)
  | .returns promise =>
    let s := enterOp op ctx s
    { s with running := s.running ++ [(op.id, promise)] }

/-- The synchronous part of `runOp`, with the skip of an operation whose dependency failed. -/
def runOp (op : Operation V) (s : State V) : State V :=
  match op.deps.find? fun d => decide (d.id ∈ s.failed) with
  | some failedDep =>
    if op.id ∈ s.failed then { s with fulfilled := op.id :: s.fulfilled }
    else
      let upstream := (s.failureReason failedDep.id).getD failedDep.name
      let s := cascadeSkip cfg op.id upstream (skipOp upstream op s)
      { s with fulfilled := op.id :: s.fulfilled }
  | none => callOp cfg op s

/-- The drain of the ready queue: the loop index splits the queue into the operations kept,
which stand in `ready`, and those still to be looked at.  The flag is `dispatched`. -/
def drain : List ℕ → Bool → State V → State V × Bool
  | [], dispatched, s => (s, dispatched)
  | id :: rest, dispatched, s =>
    if id ∈ s.failed then drain rest dispatched s
    else match cfg.plan.op? id with
      | none => drain rest dispatched s
      | some op =>
        if canDispatch cfg s op then
          let s := runOp cfg op s
          drain rest true { s with inFlight := s.inFlight ++ [id] }
        else drain rest dispatched { s with ready := s.ready ++ [id] }

def leaveLoop (s : State V) : State V := { s with control := .draining s.inFlight }

/-- One round of `while (pendingCount > 0)`. -/
def iterate (s : State V) : State V :=
  if 0 < s.pendingCount then
    let r := drain cfg s.ready false { s with ready := [] }
    if r.1.pendingCount = 0 then leaveLoop r.1
    else if r.2 then r.1
    else if r.1.inFlight = [] ∧ r.1.ready = [] then leaveLoop r.1
    else { r.1 with control := .awaiting r.1.wakeups }
  else leaveLoop s

/-- The scheduler runs a round; the promise of an operation's `fn` settles and `runOp` goes on;
the scheduler resumes after its wake-up promise; the `finally` callback of a settled `runOp`
promise removes it; `Promise.all` settles. -/
inductive Action
  | iterate
  | settle (id : ℕ)
  | resume
  | reap (id : ℕ)
  | finish
  deriving DecidableEq, Repr

/-- The program is single-threaded: inside the loop only the loop runs. -/
def step (s : State V) : Action → Option (State V)
  | .iterate => if s.control = .loop then some (iterate cfg s) else none
  | .settle id =>
    if s.control = .loop then none
    else match s.running.find? fun r => r.1 == id, cfg.plan.op? id with
      | some (_, promise), some op =>
        some (settleOp cfg op { s with running := s.running.filter fun r => r.1 != id } promise)
      | _, _ => none
  | .resume =>
    match s.control with
    | .awaiting promise => if promise < s.wakeups then some { s with control := .loop } else none
    | _ => none
  | .reap id =>
    if s.control ≠ .loop ∧ id ∈ s.inFlight ∧ (id ∈ s.fulfilled ∨ id ∈ s.rejected) then
      some { s with inFlight := s.inFlight.erase id }
    else none
  | .finish =>
    match s.control with
    | .draining promises =>
      if promises.any fun id => decide (id ∈ s.rejected) then some { s with control := .threw }
      else if promises.all fun id => decide (id ∈ s.fulfilled) then
        some { s with control := .returned }
      else none
    | _ => none

end Executor
end Batiste
