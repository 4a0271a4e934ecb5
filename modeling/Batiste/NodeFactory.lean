import Batiste.AuditedHandler
import Batiste.SecureGateway
import Batiste.SecureGatewayRuns
import Batiste.TokenScope

/-! The key store and the middleware of `packages/auth`, and the layers that `create-node.ts`
puts around the handler of a node for each session.  The verifier of tokens is a parameter. -/
namespace Batiste
namespace Auth

/-- The rows of the table `tokens`: ids, and whether they are revoked. -/
structure KeyStore where
  tokens : List (String × Bool) := []

namespace KeyStore

/-- The insert throws on an id that is there. -/
def store (id : String) (k : KeyStore) : KeyStore :=
  if k.tokens.any fun row => row.1 == id then k else ⟨k.tokens ++ [(id, false)]⟩

def revoke (id : String) (k : KeyStore) : KeyStore :=
  ⟨k.tokens.map fun row => if row.1 = id then (id, true) else row⟩

/-- An unknown token is not revoked. -/
def isRevoked (id : String) (k : KeyStore) : Bool :=
  (k.tokens.find? fun row => row.1 == id).any Prod.snd

end KeyStore

structure ApiToken where
  id : String
  agentId : String
  projectId : String
  scope : ScopeDefinition

/-- `TokenVerifier.verify` at a time: the token, or the text of the error. -/
abbrev Verifier := ℤ → String → Except String ApiToken

/-- `handleTool` of `createAuthMiddleware`: the token with which the call goes to the wrapped
handler, or the error. -/
def handleTool (verify : Verifier) (regExp : RegExp) (keyStore : Option KeyStore) (now : ℤ)
    (authToken : Option String) (name : String) (args : Dict Json) : Except String ApiToken :=
  match authToken.filter fun jwt => jwt != "" with
  | none => .error "Authentication required"
  | some jwt =>
    match verify now jwt with
    | .error message => .error message
    | .ok token =>
      if keyStore.any fun keyStore => keyStore.isRevoked token.id then
        .error "Token has been revoked"
      else
        match checkScope regExp token.scope name args with
        | .error message => .error message
        | .ok result => if result.allowed then .ok token else .error (result.reason.getD "Access denied")

end Auth

namespace Node

open Auth

inductive Preset
  | localNode | network | enterprise
  deriving DecidableEq, Repr

/-- Which parts of the configuration are given. -/
structure NodeConfig where
  preset : Preset
  auth : Bool := false
  audit : Bool := false
  killSwitchEnabled : Option Bool := none

structure Resolved where
  authEnabled : Bool
  auditEnabled : Bool
  killSwitchEnabled : Bool

def resolvePreset (config : NodeConfig) : Resolved :=
  match config.preset with
  | .localNode => ⟨false, false, false⟩
  | .network => ⟨config.auth, config.audit, config.killSwitchEnabled.getD false⟩
  | .enterprise => ⟨config.auth, true, config.killSwitchEnabled.getD true⟩

/-- The layers around the handler of one session: the token of the auth layer, and the session
that the audit layer writes and checks. -/
structure SessionHandler where
  auth : Option (Option String)
  audit : Option Audit.Session

/-- The session id and the agent id of the audit layer. -/
def auditSession (ctx : Option Gateway.SessionContext) : Audit.Session :=
  ⟨(ctx.map Gateway.SessionContext.sessionId).getD "stdio",
    (ctx.map Gateway.SessionContext.clientIp).getD "local"⟩

def createServer (config : NodeConfig) (ctx : Option Gateway.SessionContext) : SessionHandler where
  auth :=
    if (resolvePreset config).authEnabled && config.auth then
      some (ctx.bind Gateway.SessionContext.authToken)
    else none
  audit := if (resolvePreset config).auditEnabled then some (auditSession ctx) else none

/-- A call that has reached the inner handler; `token` is what the auth layer has verified. -/
structure Delegation where
  token : Option ApiToken
  name : String
  args : Dict Json

structure State where
  config : NodeConfig
  killSwitch : Option KillSwitch
  keyStore : KeyStore := {}
  handlers : List SessionHandler := []
  reached : List Delegation := []

inductive Action
  | connect (ctx : Gateway.SessionContext)
  | store (tokenId : String)
  | revoke (tokenId : String)
  | command (command : KillCommand) (stamp : Stamp)
  /-- A call of session `i`, whose token is verified at the time `now`. -/
  | call (i : ℕ) (name : String) (args : Dict Json) (now : ℤ)

/-- The audit layer lets the calls of a session through. -/
def State.lets (s : State) (handler : SessionHandler) : Bool :=
  match handler.audit, s.killSwitch with
  | some session, some killSwitch => killSwitch.isAllowed session.sessionId
  | _, _ => true

/-- `createNode` gives the auth layer no key store. -/
def call (verify : Verifier) (regExp : RegExp) (handler : SessionHandler) (name : String)
    (args : Dict Json) (now : ℤ) (s : State) : State :=
  if s.lets handler then
    match handler.auth with
    | none => { s with reached := s.reached ++ [⟨none, name, args⟩] }
    | some authToken =>
      match Auth.handleTool verify regExp none now authToken name args with
      | .error _ => s
      | .ok token => { s with reached := s.reached ++ [⟨some token, name, args⟩] }
  else s

def step (verify : Verifier) (regExp : RegExp) (s : State) : Action → Option State
  | .connect ctx => some { s with handlers := s.handlers ++ [createServer s.config (some ctx)] }
  | .store tokenId => some { s with keyStore := s.keyStore.store tokenId }
  | .revoke tokenId => some { s with keyStore := s.keyStore.revoke tokenId }
  | .command command stamp =>
    s.killSwitch.map fun killSwitch =>
      { s with killSwitch := some (killSwitch.execute command stamp) }
  | .call i name args now =>
    (s.handlers[i]?).map fun handler => call verify regExp handler name args now s

def start (config : NodeConfig) : State where
  config := config
  killSwitch :=
    if (resolvePreset config).auditEnabled && (resolvePreset config).killSwitchEnabled then
      some {}
    else none

end Node

/-! Nodes behind the gateway: the ids of their sessions, and what their tokens are good for. -/

namespace Node

open Auth Transition

/-- The id that the gateway stores and routes a session by is not the id that the audit layer of
the session writes and checks, so that killing it changes nothing for the session. -/
theorem session_ids_differ (maxConcurrentSessions sessionTimeoutMs : ℚ)
    (as : List Gateway.Action) (s : Gateway.State)
    (hs : run Gateway.step (Gateway.start maxConcurrentSessions sessionTimeoutMs) as = some s)
    (entry : String × Gateway.Connection) (hentry : entry ∈ s.sessions) (config : NodeConfig)
    (session : Audit.Session)
    (haudit : (createServer config (some entry.2.ctx)).audit = some session) :
    session.sessionId ≠ entry.1 ∧ ∀ (killSwitch : KillSwitch) (reason : String) (stamp : Stamp),
      (killSwitch.execute ⟨.killSession, some entry.1, reason⟩ stamp).isAllowed session.sessionId =
        killSwitch.isAllowed session.sessionId := by
  simp only [createServer] at haudit
  split_ifs at haudit
  obtain rfl := Option.some.inj haudit
  have hne : (auditSession (some entry.2.ctx)).sessionId ≠ entry.1 :=
    (Gateway.inv_run hs).notTold entry hentry
  exact ⟨hne, fun killSwitch reason stamp =>
    KillSwitch.isAllowed_killSession (Ne.symm hne) reason stamp killSwitch⟩

section Scope

variable (verify : Verifier) (regExp : RegExp) (pathArgs : String → Dict Json → List String)

/-- How often a token has reached the inner handler. -/
def used (tokenId : String) (reached : List Delegation) : ℕ :=
  reached.countP fun delegation => delegation.token.any fun token => token.id == tokenId

/-- The call passes what the layers of its session check. -/
def Passes (s : State) (i : ℕ) (name : String) (args : Dict Json) (now : ℤ) (token : ApiToken) :
    Prop :=
  ∃ handler jwt result, s.handlers[i]? = some handler ∧ s.lets handler = true ∧
    handler.auth = some (some jwt) ∧ jwt ≠ "" ∧ verify now jwt = .ok token ∧
    checkScope regExp token.scope name args = .ok result ∧ result.allowed = true

/-- What reaches the inner handler does so with a token that verifies and is not revoked, for a
tool and for path arguments in its scope, and not more often than the token allows. -/
def Enforced (_ : List Action) (s : State) (a : Action) : Prop :=
  ∀ t, step verify regExp s a = some t → t.reached ≠ s.reached →
    ∃ i name args now handler jwt token, a = .call i name args now ∧
      t.reached = s.reached ++ [⟨some token, name, args⟩] ∧
      s.handlers[i]? = some handler ∧ handler.auth = some (some jwt) ∧ verify now jwt = .ok token ∧
      s.keyStore.isRevoked token.id = false ∧ ToolInScope token.scope name ∧
      (∀ path ∈ pathArgs name args, FileInScope regExp token.scope path) ∧
      ∀ maxRequests, token.scope.maxRequests = some maxRequests →
        (used token.id t.reached : ℚ) ≤ maxRequests

/-- A call that passes is not made with a revoked token or with a token that is used up, and its
path arguments are under the keys that are looked at (or in scope anyway). -/
def Spared (_ : List Action) (s : State) : Action → Prop
  | .call i name args now => ∀ token, Passes verify regExp s i name args now token →
      s.keyStore.isRevoked token.id = false ∧
      (∀ path ∈ pathArgs name args,
        path ∈ extractFilePaths args ∨ FileInScope regExp token.scope path) ∧
      ∀ maxRequests, token.scope.maxRequests = some maxRequests →
        (used token.id s.reached + 1 : ℚ) ≤ maxRequests
  | _ => True

variable {verify regExp pathArgs}

theorem used_append (tokenId : String) (reached : List Delegation) (token : ApiToken)
    (name : String) (args : Dict Json) :
    used tokenId (reached ++ [⟨some token, name, args⟩]) =
      used tokenId reached + if token.id = tokenId then 1 else 0 := by
  by_cases hid : token.id = tokenId <;> simp [used, hid]

/-- The auth layer delegates with the token that passes its checks. -/
theorem handleTool_eq_ok {now : ℤ} {authToken : Option String} {name : String}
    {args : Dict Json} {token : ApiToken} :
    Auth.handleTool verify regExp none now authToken name args = .ok token ↔
      ∃ jwt result, authToken = some jwt ∧ jwt ≠ "" ∧ verify now jwt = .ok token ∧
        checkScope regExp token.scope name args = .ok result ∧ result.allowed = true := by
  unfold Auth.handleTool
  cases authToken with
  | none => simp
  | some jwt =>
    by_cases hempty : jwt = ""
    · have hnone : (some jwt).filter (fun jwt => jwt != "") = none := by simp [hempty]
      simp only [hnone]
      constructor
      · intro h
        cases h
      · rintro ⟨jwt', -, heq, hne, -⟩
        exact absurd ((Option.some.inj heq).symm.trans hempty) hne
    · have hsome : (some jwt).filter (fun jwt => jwt != "") = some jwt := by simp [hempty]
      simp only [hsome]
      cases hverify : verify now jwt with
      | error message =>
        constructor
        · intro h
          cases h
        · rintro ⟨jwt', result, heq, -, hok, -⟩
          obtain rfl := Option.some.inj heq
          simp [hverify] at hok
      | ok verified =>
        simp only [Option.any_none, Bool.false_eq_true, if_false]
        cases hcheck : checkScope regExp verified.scope name args with
        | error message =>
          constructor
          · intro h
            cases h
          · rintro ⟨jwt', result, heq, -, hok, hresult, -⟩
            obtain rfl := Option.some.inj heq
            obtain rfl : verified = token := by simpa [hverify] using hok
            simp [hcheck] at hresult
        | ok result =>
          constructor
          · intro h
            simp only at h
            split_ifs at h with hallowed
            cases h
            exact ⟨jwt, result, rfl, hempty, hverify, hcheck, hallowed⟩
          · rintro ⟨jwt', result', heq, -, hok, hresult, hallowed⟩
            obtain rfl := Option.some.inj heq
            obtain rfl : verified = token := by simpa [hverify] using hok
            obtain rfl : result = result' := by simpa [hcheck] using hresult
            simp [hallowed]

/-- Every session of the node has its auth layer. -/
def Layered (s : State) : Prop := ∀ handler ∈ s.handlers, handler.auth.isSome

/-- A call reaches the inner handler exactly when it passes, with the token it passes with. -/
theorem call_reached {s t : State} (h : Layered s) {i : ℕ} {name : String} {args : Dict Json}
    {now : ℤ} (hs : step verify regExp s (.call i name args now) = some t) :
    (t.reached = s.reached ∧ ∀ token, ¬ Passes verify regExp s i name args now token) ∨
      ∃ token, Passes verify regExp s i name args now token ∧
        t.reached = s.reached ++ [⟨some token, name, args⟩] := by
  obtain ⟨handler, hi, rfl⟩ := Option.map_eq_some_iff.mp hs
  obtain ⟨authToken, hauth⟩ := Option.isSome_iff_exists.mp (h handler (List.mem_of_getElem? hi))
  have hpasses : ∀ token, Passes verify regExp s i name args now token ↔
      s.lets handler = true ∧
        Auth.handleTool verify regExp none now authToken name args = .ok token := by
    intro token
    rw [handleTool_eq_ok]
    constructor
    · rintro ⟨other, jwt, result, hother, hlets, hjwt, hrest⟩
      obtain rfl : handler = other := by simpa [hi] using hother
      obtain rfl : authToken = some jwt := by simpa [hauth] using hjwt
      exact ⟨hlets, jwt, result, rfl, hrest⟩
    · rintro ⟨hlets, jwt, result, rfl, hrest⟩
      exact ⟨handler, jwt, result, hi, hlets, hauth, hrest⟩
  unfold call
  cases hlets : s.lets handler with
  | false => exact Or.inl ⟨rfl, fun token htoken => by simp [hpasses, hlets] at htoken⟩
  | true =>
    simp only [if_true, hauth]
    cases hhandle : Auth.handleTool verify regExp none now authToken name args with
    | error message =>
      refine Or.inl ⟨rfl, fun token htoken => ?_⟩
      simp [hpasses, hhandle] at htoken
    | ok token => exact Or.inr ⟨token, (hpasses token).mpr ⟨hlets, hhandle⟩, rfl⟩

/-- The configuration stays, and with the auth layer enabled every session gets it. -/
theorem layered_run {config : NodeConfig} (hauth : (resolvePreset config).authEnabled = true)
    {as : List Action} {s : State} (hs : run (step verify regExp) (start config) as = some s) :
    Layered s := by
  have hgiven : config.auth = true := by
    unfold resolvePreset at hauth
    split at hauth
    · cases hauth
    · exact hauth
    · exact hauth
  have hinv : s.config = config ∧ Layered s := by
    refine run_invariant (I := fun s => s.config = config ∧ Layered s) ?_ ⟨rfl, by simp [start, Layered]⟩ hs
    rintro u a t ⟨hconfig, hlayered⟩ ht
    cases a with
    | connect ctx =>
      cases ht
      refine ⟨hconfig, fun handler hhandler => ?_⟩
      rcases List.mem_append.mp hhandler with hold | hnew
      · exact hlayered handler hold
      · rw [List.mem_singleton.mp hnew, hconfig]
        simp [createServer, hauth, hgiven]
    | store tokenId =>
      cases ht
      exact ⟨hconfig, hlayered⟩
    | revoke tokenId =>
      cases ht
      exact ⟨hconfig, hlayered⟩
    | command command stamp =>
      obtain ⟨killSwitch, -, rfl⟩ := Option.map_eq_some_iff.mp ht
      exact ⟨hconfig, hlayered⟩
    | call i name args now =>
      obtain ⟨handler, -, rfl⟩ := Option.map_eq_some_iff.mp ht
      unfold call
      split
      · split
        · exact ⟨hconfig, hlayered⟩
        · split <;> exact ⟨hconfig, hlayered⟩
      · exact ⟨hconfig, hlayered⟩
  exact hinv.2

theorem reached_of_not_call {s t : State} {a : Action} (hs : step verify regExp s a = some t)
    (hother : ∀ i name args now, a ≠ .call i name args now) : t.reached = s.reached := by
  cases a with
  | connect ctx => cases hs; rfl
  | store tokenId => cases hs; rfl
  | revoke tokenId => cases hs; rfl
  | command command stamp =>
    obtain ⟨killSwitch, -, rfl⟩ := Option.map_eq_some_iff.mp hs
    rfl
  | call i name args now => exact absurd rfl (hother i name args now)

theorem enforced_step_iff {pre : List Action} {s : State} (h : Layered s) (a : Action) :
    Enforced verify regExp pathArgs pre s a ↔ Spared verify regExp pathArgs pre s a := by
  by_cases hcall : ∃ i name args now, a = .call i name args now
  · obtain ⟨i, name, args, now, rfl⟩ := hcall
    constructor
    · intro henforced token hpasses
      obtain ⟨handler, jwt, result, hi, hlets, hauth, hne, hverify, hcheck, hallowed⟩ := id hpasses
      have ht : step verify regExp s (.call i name args now) =
          some (call verify regExp handler name args now s) := by simp [step, hi]
      rcases call_reached h ht with ⟨-, hnot⟩ | ⟨token', hpasses', hreached⟩
      · exact absurd hpasses (hnot token)
      · obtain ⟨i', name', args', now', handler', jwt', token'', heq, hreached', hi', hauth',
          hverify', hrevoked, htool, hpaths, hmax⟩ := henforced _ ht (by simp [hreached])
        cases heq
        obtain rfl : handler = handler' := by simpa [hi] using hi'
        obtain rfl : jwt = jwt' := by simpa [hauth] using hauth'
        obtain rfl : token = token'' := by simpa [hverify] using hverify'
        refine ⟨hrevoked, fun path hpath => Or.inr (hpaths path hpath), fun m hm => ?_⟩
        have hle := hmax m hm
        rw [hreached', used_append, if_pos rfl] at hle
        exact_mod_cast hle
    · intro hspared t ht hne
      rcases call_reached h ht with ⟨hsame, -⟩ | ⟨token, hpasses, hreached⟩
      · exact absurd hsame hne
      · obtain ⟨hrevoked, hpaths, hmax⟩ := hspared token hpasses
        obtain ⟨handler, jwt, result, hi, hlets, hauth, hnonempty, hverify, hcheck, hallowed⟩ :=
          hpasses
        obtain ⟨htool, hfiles⟩ := inScope_of_checkScope hcheck hallowed
        refine ⟨i, name, args, now, handler, jwt, token, rfl, hreached, hi, hauth, hverify, hrevoked,
          htool, fun path hpath => ?_, fun m hm => ?_⟩
        · exact (hpaths path hpath).elim (hfiles path) fun hscope => hscope
        · rw [hreached, used_append, if_pos rfl]
          exact_mod_cast hmax m hm
  · have hother : ∀ i name args now, a ≠ .call i name args now :=
      fun i name args now heq => hcall ⟨i, name, args, now, heq⟩
    constructor
    · intro _
      cases a with
      | call i name args now => exact absurd rfl (hother i name args now)
      | _ => trivial
    · intro _ t ht hne
      exact absurd (reached_of_not_call ht hother) hne

end Scope

/-- On a node with the auth layer, the scopes of tokens are enforced in full throughout a run
exactly when no call that passes the checks is made with a revoked or used-up token, or with
path arguments that the checks do not look at. -/
theorem enforced_iff (verify : Verifier) (regExp : RegExp)
    (pathArgs : String → Dict Json → List String) (config : NodeConfig)
    (hauth : (resolvePreset config).authEnabled = true) (as : List Action) :
    Each (step verify regExp) (start config) as (Enforced verify regExp pathArgs) ↔
      Each (step verify regExp) (start config) as (Spared verify regExp pathArgs) := by
  constructor
  · intro henforced pre a post s has hs
    exact (enforced_step_iff (layered_run hauth hs) a).mp (henforced pre a post s has hs)
  · intro hspared pre a post s has hs
    exact (enforced_step_iff (layered_run hauth hs) a).mpr (hspared pre a post s has hs)

section Example

/-- The engine, on the one expression that is used here. -/
def engine : RegExp := fun source =>
  if source = "^src/.*$" then
    .ok fun text =>
      "src/".toList.isPrefixOf text.toList && !text.toList.any JsString.isLineTerminator
  else .error "unknown expression"

def oneRead : ApiToken := ⟨"token-1", "agent", "project", { files := some ["src/**"], maxRequests := some 1 }⟩

def verifier : Verifier := fun _ jwt => if jwt = "jwt" then .ok oneRead else .error "invalid token"

/-- The path arguments of the tool `vault_validate`, which has two. -/
def vaultPaths (_ : String) (args : Dict Json) : List String :=
  ["path", "repoRoot"].filterMap fun key => (Dict.get? args key).bind asString

def enterprise : NodeConfig := { preset := .enterprise, auth := true }

def client : Gateway.SessionContext := ⟨some "jwt", "10.0.0.1", "b"⟩

def validate (repoRoot : String) : Action :=
  .call 0 "vault_validate" [("path", .string "src/vault"), ("repoRoot", .string repoRoot)] 0

theorem enforced_iff_once :
    Each (step verifier engine) (start enterprise) [.connect client, validate "src/repo"]
      (Enforced verifier engine vaultPaths) := by
  refine (enforced_iff verifier engine vaultPaths enterprise rfl _).mpr ?_
  have hconnect : Each (step verifier engine) (start enterprise) ([] ++ [.connect client])
      (Spared verifier engine vaultPaths) := each_snoc (each_nil _ _) rfl trivial
  refine each_snoc hconnect rfl ?_
  rintro token ⟨handler, jwt, result, -, -, -, -, hverify, -, -⟩
  have htoken : token = oneRead := by
    unfold verifier at hverify
    split_ifs at hverify
    exact (Except.ok.inj hverify).symm
  subst htoken
  refine ⟨rfl, fun path hpath => Or.inr fun _ => ⟨"src/**", List.mem_singleton.mpr rfl, ?_⟩, ?_⟩
  · have hpaths : path = "src/vault" ∨ path = "src/repo" := by
      simpa [vaultPaths, Dict.get?, asString] using hpath
    rcases hpaths with rfl | rfl <;> rfl
  · intro maxRequests hmax
    obtain rfl : 1 = maxRequests := Option.some.inj hmax
    simp [used, start]

/-- A revoked token, a token that is used up, and a path argument that is not looked at. -/
theorem scope_not_enforced :
    (∃ t, run (step verifier engine) (start enterprise)
        [.connect client, .store "token-1", .revoke "token-1", validate "src/repo"] = some t ∧
      t.keyStore.isRevoked "token-1" = true ∧ used "token-1" t.reached = 1) ∧
    (∃ t, run (step verifier engine) (start enterprise)
        [.connect client, validate "src/repo", .connect client, validate "src/repo"] = some t ∧
      oneRead.scope.maxRequests = some 1 ∧ used "token-1" t.reached = 2) ∧
    ∃ t, run (step verifier engine) (start enterprise) [.connect client, validate "/etc"] = some t ∧
      used "token-1" t.reached = 1 ∧ ¬ FileInScope engine oneRead.scope "/etc" := by
  refine ⟨⟨_, rfl, rfl, rfl⟩, ⟨_, rfl, rfl, rfl⟩, ⟨_, rfl, rfl, fun hscope => ?_⟩⟩
  obtain ⟨pattern, hpattern, hmatch⟩ := hscope (List.cons_ne_nil _ _)
  obtain rfl : pattern = "src/**" := List.mem_singleton.mp hpattern
  have hnot : matchGlob engine "/etc" "src/**" = .ok false := rfl
  simp [hnot] at hmatch

def opened : List Gateway.Action :=
  [.post 0 "10.0.0.1" (some "Bearer jwt") "a" "b", .initialized 0 "m1"]

theorem session_ids_differ_one :
    ∃ s entry, run Gateway.step (Gateway.start 10 3600000) opened = some s ∧ entry ∈ s.sessions ∧
      (auditSession (some entry.2.ctx)).sessionId ≠ entry.1 :=
  ⟨_, ("m1", _), rfl, List.mem_singleton.mpr rfl,
    (session_ids_differ 10 3600000 opened _ rfl ("m1", _) (List.mem_singleton.mpr rfl) enterprise _
      rfl).1⟩

/-- The operator kills the MCP session, and its calls go on. -/
theorem killed_id_allowed :
    ∃ s entry, run Gateway.step (Gateway.start 10 3600000) opened = some s ∧ entry ∈ s.sessions ∧
      (createServer enterprise (some entry.2.ctx)).audit = some ⟨"b", "10.0.0.1"⟩ ∧
      entry.1 = "m1" ∧
      ((({} : KillSwitch).execute ⟨.killSession, some entry.1, "stop"⟩ ⟨"id", "12:00"⟩).isAllowed
        "b") = true :=
  ⟨_, ("m1", _), rfl, List.mem_singleton.mpr rfl, rfl, rfl, rfl⟩

end Example

end Node
end Batiste
