import Batiste.Json
import Batiste.KillSwitch
import Batiste.Transition

/-! The audit ledger, the `AuditedToolHandler` of `middleware.ts` and the `withAudit` of
`audit-wrap.ts`.  Every stretch of code without an `await` is one step; what the inner handlers
return, the clocks, and the failures of the ledger are parts of the actions.
The session monitor is left out. -/
namespace Batiste
namespace Audit

inductive AuditResult
  | success | denied | error
  deriving DecidableEq, Repr

structure TokenUsage where
  inputTokens : ℕ
  outputTokens : ℕ
  cachedTokens : Option ℕ := none
  modelId : String
  provider : String

/-- `z.number().int().nonnegative()`. -/
def natural : Json → Option ℕ
  | .number x => if 0 ≤ x ∧ x.den = 1 then some x.num.toNat else none
  | _ => none

/-- `z.string().min(1)`. -/
def nonempty : Json → Option String
  | .string text => if text = "" then none else some text
  | _ => none

/-- `TokenUsageSchema.safeParse`: only usage that the provider has measured passes. -/
def TokenUsage.safeParse : Json → Option TokenUsage
  | .object fields => do
    let inputTokens ← (Dict.get? fields "inputTokens").bind natural
    let outputTokens ← (Dict.get? fields "outputTokens").bind natural
    let modelId ← (Dict.get? fields "modelId").bind nonempty
    let provider ← (Dict.get? fields "provider").bind nonempty
    match Dict.get? fields "source" with
    | some (.string "api_usage") =>
      match Dict.get? fields "cachedTokens" with
      | none => some ⟨inputTokens, outputTokens, none, modelId, provider⟩
      | some cached =>
        (natural cached).map fun cachedTokens =>
          ⟨inputTokens, outputTokens, some cachedTokens, modelId, provider⟩
    | _ => none
  | _ => none

structure AuditEntry where
  id : String
  timestamp : String
  sessionId : String
  agentId : String
  tool : String
  args : Dict Json
  result : AuditResult
  durationMs : ℚ
  usage : Option TokenUsage := none

/-- The rows, each with the number of the call it was written for. -/
abbrev Ledger := List (ℕ × AuditEntry)

/-- The rows of one call. -/
def Ledger.rowsOf (ledger : Ledger) (k : ℕ) : List AuditEntry :=
  (ledger.filter fun row => row.1 == k).map Prod.snd

/-- `fails` is what the insert throws, if it throws. -/
def append (fails : Option String) (k : ℕ) (entry : AuditEntry) (ledger : Ledger) :
    Except String Ledger :=
  match fails with
  | some message => .error message
  | none => .ok (ledger ++ [(k, entry)])

/-- The configuration of one handler; all of them share the ledger and the kill switch. -/
structure Session where
  sessionId : String
  agentId : String
  deriving DecidableEq

inductive Phase
  /-- The inner handler, or the wrapped write, has been started. -/
  | running (start : ℚ)
  /-- It has ended, and the handler waits for the usage. -/
  | ended (outcome : Except String Json) (durationMs : ℚ)
  | answered (reply : Except String Json)

/-- A call of `handleTool`, or a write wrapped by `withAudit`, which draws its stamp first. -/
structure Call where
  session : Session
  tool : String
  args : Dict Json
  written : Option Stamp := none
  phase : Phase

structure State where
  killSwitch : Option KillSwitch
  sessions : List Session := []
  calls : List Call := []
  ledger : Ledger := []

inductive Action
  | build (session : Session)
  | command (command : KillCommand) (stamp : Stamp)
  | handleTool (session : Session) (name : String) (args : Dict Json) (stamp : Stamp) (now : ℚ)
      (fails : Option String)
  /-- The inner handler of call `k` returns or throws. -/
  | settle (k : ℕ) (outcome : Except String Json) (now : ℚ)
  /-- The usage of call `k` is known. -/
  | record (k : ℕ) (usage : Option Json) (stamp : Stamp) (fails : Option String)
  | write (session : Session) (tool : String) (args : Dict Json) (stamp : Stamp) (now : ℚ)
  | written (k : ℕ) (outcome : Except String Json) (now : ℚ) (fails : Option String)

def terminated : String := "Session has been terminated by kill switch"

def State.allowed (s : State) (sessionId : String) : Bool :=
  match s.killSwitch with
  | none => true
  | some killSwitch => killSwitch.isAllowed sessionId

/-- `handleTool` up to its first `await`. -/
def handleTool (session : Session) (name : String) (args : Dict Json) (stamp : Stamp) (now : ℚ)
    (fails : Option String) (s : State) : State :=
  if s.allowed session.sessionId then
    { s with calls := s.calls ++ [⟨session, name, args, none, .running now⟩] }
  else
    let entry : AuditEntry :=
      ⟨stamp.id, stamp.timestamp, session.sessionId, session.agentId, name, args, .denied, 0, none⟩
    match append fails s.calls.length entry s.ledger with
    | .error message =>
      { s with calls := s.calls ++ [⟨session, name, args, none, .answered (.error message)⟩] }
    | .ok ledger =>
      { s with
        calls := s.calls ++ [⟨session, name, args, none, .answered (.error terminated)⟩]
        ledger := ledger }

def resultOf (outcome : Except String Json) : AuditResult :=
  match outcome with
  | .ok _ => .success
  | .error _ => .error

/-- The end of `handleTool`: a failing ledger replaces the outcome of the call. -/
def record (k : ℕ) (call : Call) (outcome : Except String Json) (durationMs : ℚ)
    (usage : Option Json) (stamp : Stamp) (fails : Option String) (s : State) : State :=
  let entry : AuditEntry :=
    ⟨stamp.id, stamp.timestamp, call.session.sessionId, call.session.agentId, call.tool, call.args,
      resultOf outcome, durationMs, usage.bind TokenUsage.safeParse⟩
  match append fails k entry s.ledger with
  | .error message =>
    { s with calls := s.calls.set k { call with phase := .answered (.error message) } }
  | .ok ledger =>
    { s with calls := s.calls.set k { call with phase := .answered outcome }, ledger := ledger }

/-- The end of `withAudit`: a failing ledger is not noticed. -/
def written (k : ℕ) (call : Call) (stamp : Stamp) (start : ℚ) (outcome : Except String Json)
    (now : ℚ) (fails : Option String) (s : State) : State :=
  let entry : AuditEntry :=
    ⟨stamp.id, stamp.timestamp, call.session.sessionId, call.session.agentId, call.tool, call.args,
      resultOf outcome, now - start, none⟩
  let calls := s.calls.set k { call with phase := .answered outcome }
  match append fails k entry s.ledger with
  | .error _ => { s with calls := calls }
  | .ok ledger => { s with calls := calls, ledger := ledger }

def step (s : State) : Action → Option State
  | .build session => some { s with sessions := s.sessions ++ [session] }
  | .command command stamp =>
    s.killSwitch.map fun killSwitch =>
      { s with killSwitch := some (killSwitch.execute command stamp) }
  | .handleTool session name args stamp now fails =>
    if session ∈ s.sessions then some (handleTool session name args stamp now fails s) else none
  | .settle k outcome now =>
    match s.calls[k]? with
    | some ⟨session, tool, args, none, .running start⟩ =>
      let call : Call := ⟨session, tool, args, none, .ended outcome (now - start)⟩
      some { s with calls := s.calls.set k call }
    | _ => none
  | .record k usage stamp fails =>
    match s.calls[k]? with
    | some ⟨session, tool, args, none, .ended outcome durationMs⟩ =>
      some (record k ⟨session, tool, args, none, .ended outcome durationMs⟩ outcome durationMs
        usage stamp fails s)
    | _ => none
  | .write session tool args stamp now =>
    some { s with calls := s.calls ++ [⟨session, tool, args, some stamp, .running now⟩] }
  | .written k outcome now fails =>
    match s.calls[k]? with
    | some ⟨session, tool, args, some stamp, .running start⟩ =>
      some (written k ⟨session, tool, args, some stamp, .running start⟩ stamp start outcome now
        fails s)
    | _ => none

/-- A system before any handler is built. -/
def start (killSwitch : Option KillSwitch) : State := { killSwitch := killSwitch }

end Audit
end Batiste
