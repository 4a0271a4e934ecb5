import Batiste.KeyTable
import Batiste.Marketplace
import Batiste.Transition

/-! The gateway of the marketplace: the tables of its registry and of its meter, and what its
requests, its timer and the clock do to them.  Instants are in ms; the texts that the tables hold
for them are all of one length and sort as the instants do. -/
namespace Batiste
namespace MarketplaceGateway

open Marketplace ArraySort

/-! ## The registry -/

/-- What `RegisterNodeInputSchema` lets through. -/
structure RegisterNodeInput where
  name : String
  description : String := ""
  capabilities : List String
  endpoint : String
  pricePerCycle : ℚ
  creatorId : String
  tags : List String := []
  price_pos : 0 < pricePerCycle

/-- A row of `nodes`. -/
structure NodeRow extends NodeRecord where
  name : String
  description : String
  endpoint : String
  lastHeartbeat : ℕ
  deriving DecidableEq, Repr

/-- Nodes not seen within this window are marked offline, ms. -/
def HEARTBEAT_TIMEOUT_MS : ℕ := 60000

abbrev Nodes := KeyTable fun row : NodeRow => row.id

namespace Nodes

/-- The records that the searches are about. -/
def registry (nodes : Nodes) : NodeRegistry :=
  ⟨nodes.rows.map NodeRow.toNodeRecord, by
    rw [List.map_map]
    exact nodes.nodup⟩

def has (nodes : Nodes) (nodeId : String) : Bool := (nodes.get nodeId).isSome

def heartbeat (nodes : Nodes) (nodeId : String) (now : ℕ) : Nodes :=
  nodes.updateAt nodeId (fun row => { row with lastHeartbeat := now, status := .online })
    fun _ => rfl

/-- Exponential moving average (α=0.1) -/
def updateReliability (nodes : Nodes) (nodeId : String) (success : Bool) : Nodes :=
  let sample : ℚ := if success then 1 else 0
  nodes.updateAt nodeId
    (fun row => { row with reliability := 1 / 10 * sample + 9 / 10 * row.reliability }) fun _ => rfl

/-- Mark nodes with stale heartbeats as offline -/
def pruneStale (nodes : Nodes) (now : ℕ) : Nodes :=
  nodes.update (fun row =>
    if row.lastHeartbeat + HEARTBEAT_TIMEOUT_MS < now ∧ row.status = .online then
      { row with status := .offline }
    else row) fun row => by split_ifs <;> rfl

variable {nodes : Nodes} {row : NodeRow} {nodeId : String} {now : ℕ}

theorem mem_heartbeat : row ∈ (nodes.heartbeat nodeId now).rows ↔ ∃ old ∈ nodes.rows,
    (if old.id = nodeId then { old with lastHeartbeat := now, status := .online } else old) = row :=
  KeyTable.mem_updateAt

theorem mem_updateReliability : row ∈ (nodes.updateReliability nodeId true).rows ↔
    ∃ old ∈ nodes.rows, (if old.id = nodeId then
      { old with reliability := 1 / 10 + 9 / 10 * old.reliability } else old) = row := by
  unfold updateReliability
  simp only [if_true, mul_one]
  exact KeyTable.mem_updateAt

theorem mem_pruneStale : row ∈ (nodes.pruneStale now).rows ↔ ∃ old ∈ nodes.rows,
    (if old.lastHeartbeat + HEARTBEAT_TIMEOUT_MS < now ∧ old.status = .online then
      { old with status := .offline } else old) = row := KeyTable.mem_update

end Nodes

/-! ## The meter -/

structure BillingEntry where
  id : String
  sessionId : String
  nodeId : String
  nodeName : String
  cyclesUsed : ℕ
  pricePerCycle : ℚ
  totalCost : ℚ
  recordedAt : ℕ
  deriving DecidableEq, Repr

structure BillingReport where
  sessionId : String
  entries : List BillingEntry
  totalCycles : ℕ
  totalCost : ℚ
  generatedAt : ℕ
  deriving DecidableEq, Repr

abbrev Billing := KeyTable BillingEntry.id

/-- `Math.round(totalCost * 1e8) / 1e8` -/
def round8 (x : ℚ) : ℚ := ⌊x * 10 ^ 8 + 1 / 2⌋ / 10 ^ 8

def Billing.getReport (billing : Billing) (sessionId : String) (now : ℕ) : BillingReport :=
  let entries := (billing.rows.filter fun e => e.sessionId = sessionId).insertionSort
    fun a b => a.recordedAt ≤ b.recordedAt
  { sessionId
    entries
    totalCycles := (entries.map BillingEntry.cyclesUsed).sum
    totalCost := round8 (entries.map BillingEntry.totalCost).sum
    generatedAt := now }

/-! ## Requests -/

/-- What `RecordCyclesInputSchema` lets through. -/
structure RecordCyclesInput where
  sessionId : String
  nodeId : String
  cyclesUsed : ℕ
  cycles_pos : 0 < cyclesUsed

/-- An error that the handler catches: of a schema, or another one. -/
inductive Refusal
  | validation
  | internal

/-- The surroundings: the identifiers that `randomUUID` gives, none twice, the texts of instants,
the sort of lists, and the parsers of bodies and of query strings. -/
structure Runtime where
  randomUUID : ℕ → String
  fresh : Function.Injective randomUUID
  toISOString : ℕ → String
  sorter : Sorter
  registerInput : String → Except Refusal RegisterNodeInput
  routeRequest : String → Except Refusal RouteRequest
  recordInput : String → Except Refusal RecordCyclesInput
  searchParams : List Char → Except Refusal (Option String × Option String)

structure State where
  nodes : Nodes
  billing : Billing
  /-- The identifiers given so far. -/
  issued : ℕ
  clock : ℕ
  /-- The last time that stale nodes were marked. -/
  pruned : ℕ

def State.initial : State := ⟨.empty, .empty, 0, 0, 0⟩

inductive Body
  | empty
  | health (nodes online : ℕ)
  | node (row : NodeRow)
  | nodes (records : List NodeRecord)
  | success (ok : Bool)
  | routed (result : RoutedNode)
  | entry (e : BillingEntry)
  | report (r : BillingReport)
  | error (text : String)

structure Response where
  status : ℕ
  body : Body

def statusOf : String → Except Refusal NodeStatus
  | "online" => .ok .online
  | "standby" => .ok .standby
  | "offline" => .ok .offline
  | "degraded" => .ok .degraded
  | _ => .error .validation

def refuse : Refusal → Response
  | .validation => ⟨400, .error "Validation error"⟩
  | .internal => ⟨500, .error "Internal server error"⟩

def parseId (url : List Char) (start : String) : Option String :=
  let id := (url.drop start.length).takeWhile fun c => c ≠ '/'
  if id = [] then none else some (String.ofList id)

def routed : Option RoutedNode → Response
  | none => ⟨404, .error "No eligible node found"⟩
  | some result => ⟨200, .routed result⟩

section Handler

variable (rt : Runtime)

/-- The row of a node that registers now. -/
def newRow (s : State) (input : RegisterNodeInput) : NodeRow where
  id := rt.randomUUID s.issued
  name := input.name
  description := input.description
  capabilities := input.capabilities
  endpoint := input.endpoint
  pricePerCycle := input.pricePerCycle
  creatorId := input.creatorId
  tags := input.tags
  status := .online
  registeredAt := rt.toISOString s.clock
  lastHeartbeat := s.clock
  latencyMs := none
  reliability := 1

def register (s : State) (input : RegisterNodeInput) : State × Response :=
  let s' := { s with issued := s.issued + 1 }
  match s.nodes.insert (newRow rt s input) with
  | none => (s', refuse .internal)
  | some nodes => ({ s' with nodes }, ⟨201, .node (newRow rt s input)⟩)

def listNodes (s : State) (url : List Char) : Except Refusal (List NodeRecord) := do
  let (capability, statusParam) ← rt.searchParams url
  let status ← (statusParam.filter fun text => text ≠ "").mapM statusOf
  match capability.filter fun text => text ≠ "" with
  | some capability => pure (search rt.sorter s.nodes.registry { capability := some capability, status })
  | none => pure (s.nodes.registry.list { status })

/-- The entry that a use of a node makes now. -/
def newEntry (s : State) (input : RecordCyclesInput) (node : NodeRow) : BillingEntry where
  id := rt.randomUUID s.issued
  sessionId := input.sessionId
  nodeId := input.nodeId
  nodeName := node.name
  cyclesUsed := input.cyclesUsed
  pricePerCycle := node.pricePerCycle
  totalCost := input.cyclesUsed * node.pricePerCycle
  recordedAt := s.clock

def record (s : State) (input : RecordCyclesInput) : State × Response :=
  match s.nodes.get input.nodeId with
  | none => (s, ⟨404, .error "Node not found"⟩)
  | some node =>
    let s' := { s with issued := s.issued + 1 }
    match s.billing.insert (newEntry rt s input node) with
    | none => (s', refuse .internal)
    | some billing =>
      ({ s' with billing, nodes := s.nodes.updateReliability input.nodeId true },
        ⟨201, .entry (newEntry rt s input node)⟩)

/-- An answer that changes nothing. -/
def answer (s : State) : Except Refusal Response → State × Response
  | .ok response => (s, response)
  | .error refusal => (s, refuse refusal)

def handler (s : State) (method : String) (url : List Char) (body : String) : State × Response :=
  if method = "OPTIONS" then (s, ⟨204, .empty⟩)
  else if url = "/health".toList ∧ method = "GET" then
    (s, ⟨200, .health (s.nodes.registry.list {}).length
      (s.nodes.registry.list { status := some .online }).length⟩)
  else if url = "/nodes/register".toList ∧ method = "POST" then
    match rt.registerInput body with
    | .error refusal => (s, refuse refusal)
    | .ok input => register rt s input
  else if "/nodes".toList <+: url ∧ method = "GET" ∧ ¬ "/heartbeat".toList <:+: url then
    answer s ((listNodes rt s url).map fun records => ⟨200, .nodes records⟩)
  else if "/nodes/".toList <+: url ∧ "/heartbeat".toList <:+ url ∧ method = "POST" then
    match (url.take (url.length - "/heartbeat".length)).drop "/nodes/".length with
    | [] => (s, ⟨400, .error "Missing node id"⟩)
    | c :: cs =>
      let id := String.ofList (c :: cs)
      ({ s with nodes := s.nodes.heartbeat id s.clock },
        ⟨if s.nodes.has id then 200 else 404, .success (s.nodes.has id)⟩)
  else if "/nodes/".toList <+: url ∧ method = "DELETE" then
    match parseId url "/nodes/" with
    | none => (s, ⟨400, .error "Missing node id"⟩)
    | some id =>
      ({ s with nodes := s.nodes.delete id },
        ⟨if s.nodes.has id then 200 else 404, .success (s.nodes.has id)⟩)
  else if url = "/route".toList ∧ method = "POST" then
    answer s ((rt.routeRequest body).map fun request =>
      routed (route rt.sorter s.nodes.registry request))
  else if url = "/billing/record".toList ∧ method = "POST" then
    match rt.recordInput body with
    | .error refusal => (s, refuse refusal)
    | .ok input => record rt s input
  else if "/billing/".toList <+: url ∧ method = "GET" then
    match parseId url "/billing/" with
    | none => (s, ⟨400, .error "Missing sessionId"⟩)
    | some sessionId => (s, ⟨200, .report (s.billing.getReport sessionId s.clock)⟩)
  else (s, ⟨404, .error "Not Found"⟩)

/-- A request whose body has come in, the timer of `pruneStale`, or time that passes. -/
inductive Event
  | request (method : String) (url : List Char) (body : String)
  | prune
  | elapse (ms : ℕ)

def step (s : State) : Event → Option State
  | .request method url body => some (handler rt s method url body).1
  | .prune => some { s with nodes := s.nodes.pruneStale s.clock, pruned := s.clock }
  | .elapse ms => some { s with clock := s.clock + ms }

end Handler

end MarketplaceGateway
end Batiste
