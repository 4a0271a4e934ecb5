import Batiste.AuditedHandler

/-! Erasing the arguments of an audit entry, `redaction.ts` over the tables of `ledger.ts`.
A column of JSON text is kept as the value it is the text of, so that the parameter `sha256` is
the hash of a value's text.  A statement of the database may fail, which ends the call; the
transaction then gives back the tables it began with. -/
namespace Batiste
namespace Redaction

open Audit Transition

structure Entry where
  id : String
  timestamp : String
  sessionId : String
  agentId : String
  tool : String
  args : Json
  result : AuditResult
  durationMs : ℚ
  astNodesAccessed : Option ℕ := none
  bytesTransferred : Option ℕ := none
  usage : Option TokenUsage := none

/-- A row of `audit_log`. -/
structure Row where
  id : String
  timestamp : String
  session_id : String
  agent_id : String
  tool : String
  args_json : Json
  result : AuditResult
  duration_ms : ℚ
  ast_nodes_accessed : Option ℕ
  bytes_transferred : Option ℕ
  input_tokens : Option ℕ
  output_tokens : Option ℕ
  cached_tokens : Option ℕ
  model_id : Option String
  provider : Option String

/-- A row of `audit_redactions`. -/
structure RedactionRow where
  entry_id : String
  actor : String
  reason : String
  request_id : Option String
  original_sha256 : String
  redacted_at : String

structure Database where
  audit_log : List Row
  audit_redactions : List RedactionRow

structure RedactionRequest where
  entryId : String
  actor : String
  reason : String
  requestId : Option String := none

structure RedactionResult where
  entryId : String
  originalSha256 : String
  redactedAt : String
  reason : String
  actor : String
  requestId : Option String

/-- The message of each statement that fails. -/
structure Faults where
  select : Option String := none
  update : Option String := none
  insert : Option String := none
  commit : Option String := none

def statement {α : Type} (fails : Option String) (value : Except String α) : Except String α :=
  match fails with
  | some message => .error message
  | none => value

def Entry.row (entry : Entry) : Row :=
  { id := entry.id
    timestamp := entry.timestamp
    session_id := entry.sessionId
    agent_id := entry.agentId
    tool := entry.tool
    args_json := entry.args
    result := entry.result
    duration_ms := entry.durationMs
    ast_nodes_accessed := entry.astNodesAccessed
    bytes_transferred := entry.bytesTransferred
    input_tokens := entry.usage.map (·.inputTokens)
    output_tokens := entry.usage.map (·.outputTokens)
    cached_tokens := entry.usage.bind (·.cachedTokens)
    model_id := entry.usage.map (·.modelId)
    provider := entry.usage.map (·.provider) }

/-- `AuditLedger.append`: the id is the primary key. -/
def append (fails : Option String) (entry : Entry) (db : Database) : Except String Database :=
  statement fails <|
    if entry.id ∈ db.audit_log.map Row.id then .error "UNIQUE constraint failed: audit_log.id"
    else .ok { db with audit_log := db.audit_log ++ [entry.row] }

/-- `parsed._redacted === true`; reading the field of `null` throws, which counts as false. -/
def alreadyRedacted : Json → Bool
  | .object fields =>
    match Dict.get? fields "_redacted" with
    | some (.bool true) => true
    | _ => false
  | _ => false

/-- What stands in place of the arguments: their hash, and texts of the request. -/
def tombstone (originalSha256 redactedAt : String) (req : RedactionRequest) : Json :=
  .object
    [("_redacted", .bool true), ("_original_sha256", .string originalSha256),
      ("_redacted_at", .string redactedAt), ("_reason", .string req.reason),
      ("_request_id", (req.requestId.map Json.string).getD .null)]

def updateArgs (id : String) (args : Json) (log : List Row) : List Row :=
  log.map fun row => if row.id = id then { row with args_json := args } else row

def insertRedaction (row : RedactionRow) (log : List RedactionRow) :
    Except String (List RedactionRow) :=
  if row.entry_id ∈ log.map RedactionRow.entry_id then
    .error "UNIQUE constraint failed: audit_redactions.entry_id"
  else .ok (log ++ [row])

/-- `db.transaction(body)()`: what the body or the commit throws, it throws after a rollback. -/
def transaction (fails : Option String) (body : Database → Except String Database)
    (db : Database) : Except String Unit × Database :=
  match body db with
  | .error message => (.error message, db)
  | .ok after =>
    match fails with
    | some message => (.error message, db)
    | none => (.ok (), after)

/-- The record of a request. -/
def record (originalSha256 now : String) (req : RedactionRequest) : RedactionRow :=
  { entry_id := req.entryId
    actor := req.actor
    reason := req.reason
    request_id := req.requestId
    original_sha256 := originalSha256
    redacted_at := now }

/-- The body of the transaction. -/
def txn (faults : Faults) (originalSha256 now : String) (req : RedactionRequest)
    (db : Database) : Except String Database := do
  let log ← statement faults.update
    (.ok (updateArgs req.entryId (tombstone originalSha256 now req) db.audit_log))
  let redactions ← statement faults.insert
    (insertRedaction (record originalSha256 now req) db.audit_redactions)
  .ok ⟨log, redactions⟩

variable (sha256 : Json → String)

def redactEntry (faults : Faults) (now : String) (req : RedactionRequest) (db : Database) :
    Except String RedactionResult × Database :=
  match statement faults.select (.ok (db.audit_log.find? fun row => row.id == req.entryId)) with
  | .error message => (.error message, db)
  | .ok none => (.error ("audit entry not found: " ++ req.entryId), db)
  | .ok (some existing) =>
    if alreadyRedacted existing.args_json then
      (.error ("audit entry already redacted: " ++ req.entryId), db)
    else
      let originalSha256 := sha256 existing.args_json
      match transaction faults.commit (txn faults originalSha256 now req) db with
      | (.error message, after) => (.error message, after)
      | (.ok (), after) =>
        (.ok
          { entryId := req.entryId
            originalSha256 := originalSha256
            redactedAt := now
            reason := req.reason
            actor := req.actor
            requestId := req.requestId }, after)

/-! ## Histories -/

inductive Action
  | append (fails : Option String) (entry : Entry)
  | redact (faults : Faults) (now : String) (req : RedactionRequest)

/-- A call that throws leaves its error to the caller. -/
def step (db : Database) : Action → Option Database
  | .append fails entry =>
    match append fails entry db with
    | .ok after => some after
    | .error _ => some db
  | .redact faults now req => some (redactEntry sha256 faults now req db).2

def created : Database := ⟨[], []⟩

/-- The call that appends an entry with this id and these arguments. -/
def Appends (id : String) (args : Json) (db : Database) (a : Action) : Prop :=
  ∃ fails entry after, a = .append fails entry ∧ append fails entry db = .ok after ∧
    entry.id = id ∧ entry.args = args

/-- A call that redacts the entry with this id. -/
def Redacts (id : String) (db : Database) (a : Action) : Prop :=
  ∃ faults now req result after, a = .redact faults now req ∧ req.entryId = id ∧
    redactEntry sha256 faults now req db = (.ok result, after)

def Appended (as : List Action) (id : String) (args : Json) : Prop :=
  Occurs (step sha256) created as (Appends id args)

def Redacted (as : List Action) (id : String) : Prop :=
  Occurs (step sha256) created as (Redacts sha256 id)

/-- What redaction owes in the state a history leads to. -/
structure Contract (as : List Action) (db : Database) (now : String) (req : RedactionRequest) :
    Prop where
  /-- As long as the database works, it succeeds just on entries not yet redacted. -/
  succeeds_iff : (∃ result after, redactEntry sha256 {} now req db = (.ok result, after)) ↔
    (∃ args, Appended sha256 as req.entryId args) ∧ ¬ Redacted sha256 as req.entryId
  /-- It leaves of the arguments their hash only, and changes no other entry. -/
  erases : ∀ faults result after, redactEntry sha256 faults now req db = (.ok result, after) →
    after.audit_log = db.audit_log.map fun row =>
      if row.id = req.entryId then
        { row with args_json := tombstone (sha256 row.args_json) now req }
      else row
  /-- A call that throws changes nothing. -/
  keeps : ∀ faults message after,
    redactEntry sha256 faults now req db = (.error message, after) → after = db

/-! ## What one call does -/

variable {sha256}

@[simp] theorem statement_ok_iff {α : Type} {fails : Option String} {value : Except String α}
    {a : α} : statement fails value = .ok a ↔ fails = none ∧ value = .ok a := by
  cases fails <;> simp [statement]

theorem append_ok_iff {fails : Option String} {entry : Entry} {db after : Database} :
    append fails entry db = .ok after ↔ fails = none ∧ entry.id ∉ db.audit_log.map Row.id ∧
      after = { db with audit_log := db.audit_log ++ [entry.row] } := by
  simp only [append, statement_ok_iff]
  by_cases hid : entry.id ∈ db.audit_log.map Row.id
  · simp [hid]
  · simp [hid, eq_comm]

theorem alreadyRedacted_tombstone (originalSha256 redactedAt : String) (req : RedactionRequest) :
    alreadyRedacted (tombstone originalSha256 redactedAt req) = true := rfl

theorem transaction_error {fails : Option String} {body : Database → Except String Database}
    {db after : Database} {message : String}
    (h : transaction fails body db = (.error message, after)) : after = db := by
  unfold transaction at h
  cases hbody : body db with
  | error e => simp_all
  | ok t => cases fails <;> simp_all

theorem transaction_ok_iff {fails : Option String} {body : Database → Except String Database}
    {db after : Database} :
    transaction fails body db = (.ok (), after) ↔ fails = none ∧ body db = .ok after := by
  unfold transaction
  cases hbody : body db with
  | error e => simp
  | ok t => cases fails <;> simp

theorem txn_ok_iff {faults : Faults} {originalSha256 now : String} {req : RedactionRequest}
    {db after : Database} :
    txn faults originalSha256 now req db = .ok after ↔
      faults.update = none ∧ faults.insert = none ∧
      req.entryId ∉ db.audit_redactions.map RedactionRow.entry_id ∧
      after = ⟨updateArgs req.entryId (tombstone originalSha256 now req) db.audit_log,
        db.audit_redactions ++ [record originalSha256 now req]⟩ := by
  unfold txn
  cases hupdate : faults.update with
  | some message => simp [statement, bind, Except.bind]
  | none =>
    cases hinsert : faults.insert with
    | some message => simp [statement, bind, Except.bind]
    | none =>
      by_cases hid : req.entryId ∈ db.audit_redactions.map RedactionRow.entry_id
      · simp [statement, bind, Except.bind, insertRedaction, record, hid]
      · simp [statement, bind, Except.bind, insertRedaction, record, hid, eq_comm]

theorem redactEntry_error {faults : Faults} {now message : String} {req : RedactionRequest}
    {db after : Database} (h : redactEntry sha256 faults now req db = (.error message, after)) :
    after = db := by
  unfold redactEntry at h
  split at h
  · simp_all
  · simp_all
  · rename_i existing _
    split_ifs at h
    · simp_all
    · dsimp only at h
      split at h
      · rename_i htxn
        obtain ⟨-, rfl⟩ := Prod.mk.inj h
        exact transaction_error htxn
      · simp at h

theorem redactEntry_ok_iff {faults : Faults} {now : String} {req : RedactionRequest}
    {db after : Database} :
    (∃ result, redactEntry sha256 faults now req db = (.ok result, after)) ↔
      faults.select = none ∧
      ∃ existing, db.audit_log.find? (fun row => row.id == req.entryId) = some existing ∧
        alreadyRedacted existing.args_json = false ∧
        transaction faults.commit (txn faults (sha256 existing.args_json) now req) db =
          (.ok (), after) := by
  cases hselect : faults.select with
  | some message => simp [redactEntry, statement, hselect]
  | none =>
    cases hfind : db.audit_log.find? (fun row => row.id == req.entryId) with
    | none => simp [redactEntry, statement, hselect, hfind]
    | some existing =>
      cases hmark : alreadyRedacted existing.args_json with
      | true => simp [redactEntry, statement, hselect, hfind, hmark]
      | false =>
        cases htxn : transaction faults.commit (txn faults (sha256 existing.args_json) now req) db
          with
        | mk result after' =>
          cases result with
          | error message => simp [redactEntry, statement, hselect, hfind, hmark, htxn]
          | ok u => simp [redactEntry, statement, hselect, hfind, hmark, htxn]

/-! ## Along a history -/

/-- What the two tables say about the calls so far. -/
structure Inv (sha256 : Json → String) (as : List Action) (db : Database) : Prop where
  nodup : (db.audit_log.map Row.id).Nodup
  recorded : ∀ id,
    id ∈ db.audit_redactions.map RedactionRow.entry_id ↔ Redacted sha256 as id
  listed : ∀ id, id ∈ db.audit_log.map Row.id ↔ ∃ args, Appended sha256 as id args
  present : ∀ id, Redacted sha256 as id → id ∈ db.audit_log.map Row.id
  marked : ∀ row ∈ db.audit_log, Redacted sha256 as row.id →
    alreadyRedacted row.args_json = true
  original : ∀ row ∈ db.audit_log, ¬ Redacted sha256 as row.id →
    ∀ args, Appended sha256 as row.id args → args = row.args_json
  unmarked : ∀ id args, Redacted sha256 as id → Appended sha256 as id args →
    alreadyRedacted args = false

theorem updateArgs_ids (id : String) (args : Json) (log : List Row) :
    (updateArgs id args log).map Row.id = log.map Row.id := by
  simp only [updateArgs, List.map_map]
  refine List.map_congr_left fun row _ => ?_
  simp only [Function.comp_apply]
  split <;> rfl

theorem inv_created : Inv sha256 [] created := by
  have happended : ∀ id args, ¬ Appended sha256 [] id args := fun id args => not_occurs_nil _ _
  have hredacted : ∀ id, ¬ Redacted sha256 [] id := fun id => not_occurs_nil _ _
  constructor <;> simp [created, happended, hredacted]

/-- A call that changes neither table. -/
theorem Inv.silent {as : List Action} {db : Database} {a : Action} (h : Inv sha256 as db)
    (hrun : run (step sha256) created as = some db)
    (happend : ∀ id args, ¬ Appends id args db a) (hredact : ∀ id, ¬ Redacts sha256 id db a) :
    Inv sha256 (as ++ [a]) db := by
  have happended : ∀ id args, Appended sha256 (as ++ [a]) id args ↔ Appended sha256 as id args :=
    fun id args => (occurs_snoc hrun).trans (or_iff_left (happend id args))
  have hredacted : ∀ id, Redacted sha256 (as ++ [a]) id ↔ Redacted sha256 as id :=
    fun id => (occurs_snoc hrun).trans (or_iff_left (hredact id))
  constructor
  case nodup => exact h.nodup
  case recorded => simpa only [hredacted] using h.recorded
  case listed => simpa only [happended] using h.listed
  case present => simpa only [hredacted] using h.present
  case marked => simpa only [hredacted] using h.marked
  case original => simpa only [hredacted, happended] using h.original
  case unmarked => simpa only [hredacted, happended] using h.unmarked

theorem Inv.append {as : List Action} {db after : Database} {fails : Option String}
    {entry : Entry} (h : Inv sha256 as db) (hrun : run (step sha256) created as = some db)
    (hok : Redaction.append fails entry db = .ok after) :
    Inv sha256 (as ++ [.append fails entry]) after := by
  obtain ⟨-, hfresh, rfl⟩ := append_ok_iff.mp hok
  have happended : ∀ id args, Appended sha256 (as ++ [.append fails entry]) id args ↔
      Appended sha256 as id args ∨ (entry.id = id ∧ entry.args = args) := by
    intro id args
    refine (occurs_snoc hrun).trans (or_congr_right ⟨?_, ?_⟩)
    · rintro ⟨f, e, t, ha, -, hid, hargs⟩
      cases ha
      exact ⟨hid, hargs⟩
    · rintro ⟨hid, hargs⟩
      exact ⟨fails, entry, _, rfl, hok, hid, hargs⟩
  have hredacted : ∀ id, Redacted sha256 (as ++ [.append fails entry]) id ↔
      Redacted sha256 as id := by
    refine fun id => (occurs_snoc hrun).trans (or_iff_left ?_)
    rintro ⟨f, now, req, result, t, ha, -⟩
    cases ha
  have hnew : ¬ Redacted sha256 as entry.id := fun hred => hfresh (h.present _ hred)
  have hnever : ∀ args, ¬ Appended sha256 as entry.id args :=
    fun args hadd => hfresh ((h.listed _).mpr ⟨args, hadd⟩)
  constructor
  case nodup =>
    rw [List.map_append, List.map_cons, List.map_nil, List.nodup_append_comm]
    exact List.nodup_cons.mpr ⟨hfresh, h.nodup⟩
  case recorded => simpa only [hredacted] using h.recorded
  case listed =>
    intro id
    simp only [List.map_append, List.map_cons, List.map_nil, List.mem_append, h.listed,
      List.mem_singleton, happended, Entry.row]
    constructor
    · rintro (⟨args, hadd⟩ | rfl)
      · exact ⟨args, Or.inl hadd⟩
      · exact ⟨entry.args, Or.inr ⟨rfl, rfl⟩⟩
    · rintro ⟨args, hadd | ⟨rfl, -⟩⟩
      · exact Or.inl ⟨args, hadd⟩
      · exact Or.inr rfl
  case present =>
    intro id hred
    rw [List.map_append]
    exact List.mem_append_left _ (h.present id ((hredacted id).mp hred))
  case marked =>
    intro row hrow hred
    rw [hredacted] at hred
    rcases List.mem_append.mp hrow with hold | hlast
    · exact h.marked row hold hred
    · obtain rfl := List.mem_singleton.mp hlast
      exact absurd hred hnew
  case original =>
    intro row hrow hred args hadd
    rw [hredacted] at hred
    rw [happended] at hadd
    rcases List.mem_append.mp hrow with hold | hlast
    · rcases hadd with hadd | ⟨hid, -⟩
      · exact h.original row hold hred args hadd
      · exact absurd (List.mem_map.mpr ⟨row, hold, hid.symm⟩) hfresh
    · obtain rfl := List.mem_singleton.mp hlast
      rcases hadd with hadd | ⟨-, hargs⟩
      · exact absurd hadd (hnever args)
      · exact hargs.symm
  case unmarked =>
    intro id args hred hadd
    rw [hredacted] at hred
    rw [happended] at hadd
    rcases hadd with hadd | ⟨rfl, -⟩
    · exact h.unmarked id args hred hadd
    · exact absurd hred hnew

theorem redactEntry_ok {faults : Faults} {now : String} {req : RedactionRequest}
    {db after : Database} {result : RedactionResult}
    (h : redactEntry sha256 faults now req db = (.ok result, after)) :
    ∃ existing ∈ db.audit_log, existing.id = req.entryId ∧
      alreadyRedacted existing.args_json = false ∧
      req.entryId ∉ db.audit_redactions.map RedactionRow.entry_id ∧
      after = ⟨updateArgs req.entryId (tombstone (sha256 existing.args_json) now req)
        db.audit_log, db.audit_redactions ++ [record (sha256 existing.args_json) now req]⟩ := by
  obtain ⟨-, existing, hfind, hmark, htxn⟩ := redactEntry_ok_iff.mp ⟨result, h⟩
  obtain ⟨-, hbody⟩ := transaction_ok_iff.mp htxn
  obtain ⟨-, -, hfresh, hafter⟩ := txn_ok_iff.mp hbody
  exact ⟨existing, List.mem_of_find?_eq_some hfind, by simpa using List.find?_some hfind, hmark,
    hfresh, hafter⟩

theorem mem_updateArgs {id : String} {args : Json} {log : List Row} {row : Row} :
    row ∈ updateArgs id args log ↔ (row.id ≠ id ∧ row ∈ log) ∨
      ∃ old ∈ log, old.id = id ∧ row = { old with args_json := args } := by
  simp only [updateArgs, List.mem_map]
  constructor
  · rintro ⟨old, hold, rfl⟩
    by_cases hid : old.id = id
    · exact Or.inr ⟨old, hold, hid, if_pos hid⟩
    · rw [if_neg hid]
      exact Or.inl ⟨hid, hold⟩
  · rintro (⟨hid, hrow⟩ | ⟨old, hold, hid, rfl⟩)
    · exact ⟨row, hrow, if_neg hid⟩
    · exact ⟨old, hold, if_pos hid⟩

theorem Inv.redact {as : List Action} {db after : Database} {faults : Faults} {now : String}
    {req : RedactionRequest} {result : RedactionResult} (h : Inv sha256 as db)
    (hrun : run (step sha256) created as = some db)
    (hok : redactEntry sha256 faults now req db = (.ok result, after)) :
    Inv sha256 (as ++ [.redact faults now req]) after := by
  obtain ⟨existing, hexisting, hid, hmark, hfresh, rfl⟩ := redactEntry_ok hok
  have happended : ∀ id args, Appended sha256 (as ++ [.redact faults now req]) id args ↔
      Appended sha256 as id args := by
    refine fun id args => (occurs_snoc hrun).trans (or_iff_left ?_)
    rintro ⟨f, e, t, ha, -⟩
    cases ha
  have hredacted : ∀ id, Redacted sha256 (as ++ [.redact faults now req]) id ↔
      Redacted sha256 as id ∨ req.entryId = id := by
    refine fun id => (occurs_snoc hrun).trans (or_congr_right ⟨?_, ?_⟩)
    · rintro ⟨f, n, r, res, t, ha, hr, -⟩
      cases ha
      exact hr
    · intro hr
      exact ⟨faults, now, req, result, _, rfl, hr, hok⟩
  have hnot : ¬ Redacted sha256 as req.entryId := fun hred => hfresh ((h.recorded _).mpr hred)
  constructor
  case nodup =>
    rw [updateArgs_ids]
    exact h.nodup
  case recorded =>
    intro id
    simp only [List.map_append, List.map_cons, List.map_nil, List.mem_append,
      List.mem_singleton, h.recorded, hredacted, record, eq_comm]
  case listed =>
    intro id
    simp only [updateArgs_ids, h.listed, happended]
  case present =>
    intro id hred
    rw [updateArgs_ids]
    rcases (hredacted id).mp hred with hred | rfl
    · exact h.present id hred
    · exact List.mem_map.mpr ⟨existing, hexisting, hid⟩
  case marked =>
    intro row hrow hred
    rcases mem_updateArgs.mp hrow with ⟨hother, hold⟩ | ⟨old, -, -, rfl⟩
    · exact h.marked row hold (((hredacted _).mp hred).resolve_right (Ne.symm hother))
    · exact alreadyRedacted_tombstone _ _ _
  case original =>
    intro row hrow hred args hadd
    rw [hredacted, not_or] at hred
    rw [happended] at hadd
    rcases mem_updateArgs.mp hrow with ⟨-, hold⟩ | ⟨old, -, hid', rfl⟩
    · exact h.original row hold hred.1 args hadd
    · exact absurd hid'.symm hred.2
  case unmarked =>
    intro id args hred hadd
    rw [happended] at hadd
    rcases (hredacted id).mp hred with hred | rfl
    · exact h.unmarked id args hred hadd
    · have horiginal := h.original existing hexisting (hid ▸ hnot) args (hid ▸ hadd)
      exact horiginal ▸ hmark

theorem inv_step {as : List Action} {db after : Database} {a : Action} (h : Inv sha256 as db)
    (hrun : run (step sha256) created as = some db) (hs : step sha256 db a = some after) :
    Inv sha256 (as ++ [a]) after := by
  cases a with
  | append fails entry =>
    cases hok : append fails entry db with
    | ok t =>
      obtain rfl : t = after := by simpa [step, hok] using hs
      exact h.append hrun hok
    | error message =>
      obtain rfl : db = after := by simpa [step, hok] using hs
      refine h.silent hrun ?_ ?_
      · rintro id args ⟨f, e, t, ha, he, -⟩
        cases ha
        simp [hok] at he
      · rintro id ⟨f, now, req, result, t, ha, -⟩
        cases ha
  | redact faults now req =>
    cases hcall : redactEntry sha256 faults now req db with
    | mk outcome t =>
      obtain rfl : t = after := by simpa [step, hcall] using hs
      cases outcome with
      | ok result => exact h.redact hrun hcall
      | error message =>
        obtain rfl := redactEntry_error hcall
        refine h.silent hrun ?_ ?_
        · rintro id args ⟨f, e, t, ha, -⟩
          cases ha
        · rintro id ⟨f, n, r, result, t, ha, -, he⟩
          cases ha
          simp [hcall] at he

theorem inv_run {as : List Action} {db : Database}
    (h : run (step sha256) created as = some db) : Inv sha256 as db := by
  have htrivial : Each (step sha256) created as fun _ _ _ => True :=
    fun _ _ _ _ _ _ => trivial
  refine run_history inv_created ?_ htrivial h
  intro pre s a t hrun hinv _ hs
  exact inv_step hinv hrun hs

/-- While the database works, the mark in the stored arguments alone decides. -/
theorem redactEntry_succeeds_iff {as : List Action} {db : Database} {now : String}
    {req : RedactionRequest} (h : Inv sha256 as db) :
    (∃ result after, redactEntry sha256 {} now req db = (.ok result, after)) ↔
      ∃ row ∈ db.audit_log, row.id = req.entryId ∧ alreadyRedacted row.args_json = false := by
  constructor
  · rintro ⟨result, after, hok⟩
    obtain ⟨existing, hexisting, hid, hmark, -⟩ := redactEntry_ok hok
    exact ⟨existing, hexisting, hid, hmark⟩
  · rintro ⟨row, hrow, hid, hmark⟩
    have hfind : db.audit_log.find? (fun r => r.id == req.entryId) = some row := by
      cases hfound : db.audit_log.find? (fun r => r.id == req.entryId) with
      | none => simpa [hid] using List.find?_eq_none.mp hfound row hrow
      | some r =>
        have hr : r.id = req.entryId := by simpa using List.find?_some hfound
        have hsame := List.inj_on_of_nodup_map h.nodup (List.mem_of_find?_eq_some hfound) hrow
          (hr.trans hid.symm)
        rw [hsame]
    have hfresh : req.entryId ∉ db.audit_redactions.map RedactionRow.entry_id := by
      intro hlogged
      have hred := (h.recorded _).mp hlogged
      have := h.marked row hrow (hid ▸ hred)
      simp [hmark] at this
    have hbody : txn {} (sha256 row.args_json) now req db = .ok _ :=
      txn_ok_iff.mpr ⟨rfl, rfl, hfresh, rfl⟩
    obtain ⟨result, hok⟩ := redactEntry_ok_iff.mpr ⟨rfl, row, hfind, hmark,
      transaction_ok_iff.mpr ⟨rfl, hbody⟩⟩
    exact ⟨result, _, hok⟩

theorem erases_of_inv {as : List Action} {db after : Database} {faults : Faults} {now : String}
    {req : RedactionRequest} {result : RedactionResult} (h : Inv sha256 as db)
    (hok : redactEntry sha256 faults now req db = (.ok result, after)) :
    after.audit_log = db.audit_log.map fun row =>
      if row.id = req.entryId then
        { row with args_json := tombstone (sha256 row.args_json) now req }
      else row := by
  obtain ⟨existing, hexisting, hid, -, -, rfl⟩ := redactEntry_ok hok
  refine List.map_congr_left fun row hrow => ?_
  by_cases hrow' : row.id = req.entryId
  · have hsame : row = existing :=
      List.inj_on_of_nodup_map h.nodup hrow hexisting (hrow'.trans hid.symm)
    rw [if_pos hrow', if_pos hrow', hsame]
  · rw [if_neg hrow', if_neg hrow']

/-- Redaction keeps its contract for an id exactly where no entry was appended under it whose
arguments carry the mark of a redaction already. -/
theorem contract_iff {as : List Action} {db : Database} {now : String} {req : RedactionRequest}
    (h : run (step sha256) created as = some db) :
    Contract sha256 as db now req ↔
      ∀ args, Appended sha256 as req.entryId args → alreadyRedacted args = false := by
  have hinv := inv_run h
  constructor
  · intro hcontract args hadd
    by_cases hred : Redacted sha256 as req.entryId
    · exact hinv.unmarked _ args hred hadd
    · have hok := hcontract.succeeds_iff.mpr ⟨⟨args, hadd⟩, hred⟩
      obtain ⟨row, hrow, hid, hmark⟩ := (redactEntry_succeeds_iff hinv).mp hok
      exact hinv.original row hrow (hid ▸ hred) args (hid ▸ hadd) ▸ hmark
  · intro hplain
    refine ⟨?_, fun _ _ _ => erases_of_inv hinv, fun _ _ _ => redactEntry_error⟩
    rw [redactEntry_succeeds_iff hinv, ← hinv.listed]
    constructor
    · rintro ⟨row, hrow, hid, hmark⟩
      refine ⟨List.mem_map.mpr ⟨row, hrow, hid⟩, fun hred => ?_⟩
      have := hinv.marked row hrow (hid ▸ hred)
      simp [hmark] at this
    · rintro ⟨hlisted, hred⟩
      obtain ⟨row, hrow, hid⟩ := List.mem_map.mp hlisted
      obtain ⟨args, hadd⟩ := (hinv.listed _).mp hlisted
      have hargs := hinv.original row hrow (hid ▸ hred) args (hid ▸ hadd)
      exact ⟨row, hrow, hid, hargs ▸ hplain args hadd⟩

/-- An entry whose arguments, an object with a null in it, carry no mark. -/
def plainEntry : Entry :=
  { id := "e1", timestamp := "t0", sessionId := "s", agentId := "a", tool := "search"
    args := .object [("query", .string "salary"), ("limit", .null)]
    result := .success, durationMs := 3 }

/-- A call that was asked to search for redacted entries. -/
def markedEntry : Entry :=
  { id := "e2", timestamp := "t1", sessionId := "s", agentId := "a", tool := "search"
    args := .object [("_redacted", .bool true), ("query", .string "salary")]
    result := .success, durationMs := 3 }

def erasure (id : String) : RedactionRequest := ⟨id, "operator", "request of the subject", none⟩

theorem contract_plain :
    Contract (fun _ => "digest") [.append none plainEntry, .append none markedEntry]
      ⟨[plainEntry.row, markedEntry.row], []⟩ "t2" (erasure "e1") := by
  refine (contract_iff rfl).mpr fun args hadd => ?_
  rw [Appended, ← List.singleton_append, occurs_snoc rfl, ← List.nil_append [_],
    occurs_snoc rfl] at hadd
  rcases hadd with (hnone | ⟨f, e, t, ha, -, -, rfl⟩) | ⟨f, e, t, ha, -, hid, rfl⟩
  · exact absurd hnone (not_occurs_nil _ _)
  · cases ha
    rfl
  · cases ha
    exact absurd hid (by decide)

/-- The entry is there and nothing was ever redacted, and yet redaction refuses. -/
theorem marked_args_refused :
    ¬ Contract (fun _ => "digest") [.append none markedEntry] ⟨[markedEntry.row], []⟩ "t2"
      (erasure "e2") := by
  intro hcontract
  have hadd : Appended (fun _ => "digest") [.append none markedEntry] "e2" markedEntry.args :=
    ⟨[], _, [], created, rfl, rfl, none, markedEntry, _, rfl, rfl, rfl, rfl⟩
  have hnever : ¬ Redacted (fun _ => "digest") [.append none markedEntry] "e2" := by
    rw [Redacted, ← List.nil_append [_], occurs_snoc rfl]
    rintro (hnone | ⟨f, now, req, result, t, ha, -⟩)
    · exact absurd hnone (not_occurs_nil _ _)
    · cases ha
  obtain ⟨result, after, hok⟩ := hcontract.succeeds_iff.mpr ⟨⟨_, hadd⟩, hnever⟩
  have hrefused : (Except.ok result : Except String RedactionResult).isOk = false :=
    congrArg (fun outcome => outcome.1.isOk) hok.symm
  exact absurd hrefused (by simp [Except.isOk, Except.toBool])

end Redaction
end Batiste
