import Batiste.JsString
import Batiste.Transition

/-! `session-manager.ts` and the session handling of `secure-gateway.ts`.
Requests are those that have passed the validation and the rate limit.  Every stretch of code
without an `await` is one step, with the ids that `randomUUID()` draws in it. -/
namespace Batiste

/-- Times are milliseconds; what a session transfers is not told to the manager. -/
structure SessionInfo where
  id : String
  agentId : Option String
  connectedAt : ℤ
  lastActiveAt : ℤ
  ip : String
  requestCount : ℕ

structure SessionManager where
  sessions : List SessionInfo := []
  maxSessions : ℚ
  timeoutMs : ℚ

namespace SessionManager

def ids (m : SessionManager) : List String := m.sessions.map SessionInfo.id

def isExpired (m : SessionManager) (now : ℤ) (session : SessionInfo) : Bool :=
  decide (m.timeoutMs < (now - session.lastActiveAt : ℤ))

def evictExpired (now : ℤ) (m : SessionManager) : SessionManager :=
  { m with sessions := m.sessions.filter fun session => !m.isExpired now session }

/-- A new session, or none at capacity; `id` is a new id. -/
def create (now : ℤ) (ip : String) (agentId : Option String) (id : String) (m : SessionManager) :
    SessionManager × Option SessionInfo :=
  let m := m.evictExpired now
  if m.maxSessions ≤ m.sessions.length then (m, none)
  else
    let session : SessionInfo := ⟨id, agentId, now, now, ip, 0⟩
    ({ m with sessions := m.sessions ++ [session] }, some session)

def touch (now : ℤ) (id : String) (m : SessionManager) : SessionManager :=
  { m with sessions := m.sessions.map fun session =>
      if session.id = id then
        { session with lastActiveAt := now, requestCount := session.requestCount + 1 }
      else session }

def remove (id : String) (m : SessionManager) : SessionManager :=
  { m with sessions := m.sessions.filter fun session => session.id != id }

theorem evictExpired_sublist (now : ℤ) (m : SessionManager) :
    (m.evictExpired now).ids.Sublist m.ids := List.filter_sublist.map SessionInfo.id

@[simp] theorem touch_ids (now : ℤ) (id : String) (m : SessionManager) :
    (m.touch now id).ids = m.ids := by
  unfold ids touch
  rw [List.map_map]
  refine List.map_congr_left fun session _ => ?_
  by_cases hid : session.id = id <;> simp [hid]

theorem mem_remove_ids {id other : String} {m : SessionManager} :
    other ∈ (m.remove id).ids ↔ other ∈ m.ids ∧ other ≠ id := by
  simp only [ids, remove, List.mem_map, List.mem_filter, bne_iff_ne]
  constructor
  · rintro ⟨session, ⟨hsession, hne⟩, rfl⟩
    exact ⟨⟨session, hsession, rfl⟩, hne⟩
  · rintro ⟨⟨session, hsession, rfl⟩, hne⟩
    exact ⟨session, ⟨hsession, hne⟩, rfl⟩

/-- Removing an id that the manager does not have changes nothing. -/
theorem remove_eq_self {id : String} {m : SessionManager} (h : id ∉ m.ids) : m.remove id = m := by
  have hall : m.sessions.filter (fun session => session.id != id) = m.sessions := by
    rw [List.filter_eq_self]
    intro session hsession
    rw [bne_iff_ne]
    rintro rfl
    exact h (List.mem_map_of_mem hsession)
  simp [remove, hall]

end SessionManager

namespace Gateway

/-- What the server factory is told of a new session. -/
structure SessionContext where
  authToken : Option String
  clientIp : String
  sessionId : String

/-- A transport with its server.  `slot` is the id of the session that the manager has created
for it, which the code does not keep, and `usedAt` the time of its last request. -/
structure Connection where
  ctx : SessionContext
  slot : String
  usedAt : ℤ

/-- `sessions` is the map from MCP session ids; `pending` are the transports that wait for their
`initialize`, and `drawn` the ids that `randomUUID()` has given so far. -/
structure State where
  manager : SessionManager
  sessions : List (String × Connection) := []
  pending : List Connection := []
  drawn : List String := []
  now : ℤ := 0
  reply : Option (ℕ × String) := none

inductive Action
  /-- A POST without a session id. -/
  | post (now : ℤ) (clientIp : String) (authorization : Option String)
      (sessionInfoId newSessionId : String)
  /-- The transport takes the request for an `initialize` and generates its id. -/
  | initialized (i : ℕ) (id : String)
  /-- The factory, the connection or the first request fails. -/
  | failed (i : ℕ)
  /-- A POST or GET with a session id; an empty one counts as none. -/
  | request (now : ℤ) (isGet : Bool) (id : String)
  /-- A DELETE, or a close of the transport. -/
  | close (id : String)
  /-- The timer of the session manager. -/
  | cleanup (now : ℤ)

/-- `authHeader?.startsWith('Bearer ') ? authHeader.slice(7).trim() : undefined`. -/
def bearer (authorization : Option String) : Option String :=
  authorization.bind fun header =>
    if "Bearer ".toList.isPrefixOf header.toList then
      some (String.ofList (JsString.trim (header.toList.drop 7)))
    else none

def State.has (s : State) (id : String) : Bool := s.sessions.any fun entry => entry.1 == id

def State.fresh (s : State) (id : String) : Prop := id ∉ s.drawn

instance (s : State) (id : String) : Decidable (s.fresh id) := inferInstanceAs (Decidable (_ ∉ _))

def post (now : ℤ) (clientIp : String) (authorization : Option String)
    (sessionInfoId newSessionId : String) (s : State) : State :=
  match s.manager.create now clientIp none sessionInfoId with
  | (manager, none) =>
    { s with manager := manager, now := now, reply := some (503, "Max concurrent sessions reached") }
  | (manager, some sessionInfo) =>
    { s with
      manager := manager
      pending := s.pending ++ [⟨⟨bearer authorization, clientIp, newSessionId⟩, sessionInfo.id, now⟩]
      drawn := sessionInfoId :: newSessionId :: s.drawn
      now := now
      reply := none }

def use (now : ℤ) (id : String) (sessions : List (String × Connection)) :
    List (String × Connection) :=
  sessions.map fun entry => if entry.1 = id then (entry.1, { entry.2 with usedAt := now }) else entry

def request (now : ℤ) (isGet : Bool) (id : String) (s : State) : State :=
  if s.has id then
    { s with
      manager := s.manager.touch now id
      sessions := use now id s.sessions
      now := now
      reply := none }
  else if isGet then { s with now := now, reply := some (400, "Session ID required for GET") }
  else { s with now := now, reply := some (404, "Invalid session ID") }

/-- The transport tells `onclose`, and the gateway then does the same once more. -/
def close (id : String) (s : State) : State :=
  if s.has id then
    { s with
      manager := s.manager.remove id
      sessions := s.sessions.filter fun entry => entry.1 != id
      reply := none }
  else { s with reply := some (404, "Session not found") }

def step (s : State) : Action → Option State
  | .post now clientIp authorization sessionInfoId newSessionId =>
    if s.now ≤ now ∧ s.fresh sessionInfoId ∧ s.fresh newSessionId ∧ sessionInfoId ≠ newSessionId then
      some (post now clientIp authorization sessionInfoId newSessionId s)
    else none
  | .initialized i id =>
    if s.fresh id then
      (s.pending[i]?).map fun connection =>
        { s with
          sessions := s.sessions ++ [(id, connection)]
          pending := s.pending.eraseIdx i
          drawn := id :: s.drawn
          reply := none }
    else none
  | .failed i =>
    if i < s.pending.length then
      some { s with pending := s.pending.eraseIdx i, reply := none }
    else none
  | .request now isGet id =>
    if s.now ≤ now ∧ id ≠ "" then some (request now isGet id s) else none
  | .close id => some (close id s)
  | .cleanup now =>
    if s.now ≤ now then some { s with manager := s.manager.evictExpired now, now := now } else none

def start (maxConcurrentSessions sessionTimeoutMs : ℚ) : State :=
  { manager := { maxSessions := maxConcurrentSessions, timeoutMs := sessionTimeoutMs } }

end Gateway
end Batiste
