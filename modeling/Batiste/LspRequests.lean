import Batiste.JsonReader
import Batiste.LspClient
import Batiste.Transition

/-! The requests of `LSPClient`: the promises it hands out, and what ends each of them.
The server, its chunks, the timers, further calls and the failures come in any order. -/
namespace Batiste
namespace LspRequests

open ChunkReader LspClient
open JsonReader (wholeNumbers)

/-- Why a promise is rejected; the message of the server is `response.error.message`. -/
inductive Failure
  | server (message : Option Json)
  | timedOut (method : String)
  | exited
  | shutDown
  deriving DecidableEq

/-- How a request leaves the table: settled, or forgotten with its promise open. -/
inductive Ending
  | resolved (result : Option Json)
  | rejected (error : Failure)
  | forgotten
  deriving DecidableEq

/-- What goes on once an awaited request is settled. -/
inductive Caller
  | starting
  | stopping
  deriving DecidableEq

/-- The table of the requests. -/
structure Table where
  requestId : ℕ := 0
  /-- `pendingRequests`, with the method that the timer names. -/
  pending : List (ℕ × String) := []
  /-- The timers that have not fired. -/
  timers : List ℕ := []
  /-- The requests that left `pendingRequests`, and how. -/
  closed : List (ℕ × Ending) := []

namespace Table

def pendingIds (t : Table) : List ℕ := t.pending.map Prod.fst

def closedIds (t : Table) : List ℕ := t.closed.map Prod.fst

/-- A request with the next number, and its timer. -/
def send (t : Table) (method : String) : Table :=
  { t with
    requestId := t.requestId + 1
    pending := t.pending ++ [(t.requestId + 1, method)]
    timers := t.timers ++ [t.requestId + 1] }

/-- `pendingRequests.delete(id)`, and what becomes of the promise. -/
def close (t : Table) (id : ℕ) (ending : Ending) : Table :=
  { t with
    pending := t.pending.filter fun p => p.1 ≠ id
    closed := t.closed ++ [(id, ending)] }

/-- The callback of `setTimeout`; an answer does not clear the timer. -/
def fire (t : Table) (id : ℕ) : Table :=
  let fired := { t with timers := t.timers.filter fun timer => timer ≠ id }
  match t.pending.find? fun p => p.1 = id with
  | none => fired
  | some p => fired.close id (.rejected (.timedOut p.2))

def rejectAllPending (t : Table) (error : Failure) : Table :=
  { t with
    pending := []
    closed := t.closed ++ t.pending.map fun p => (p.1, .rejected error) }

end Table

structure State extends Table where
  /-- `this.process !== null` -/
  process : Bool := false
  /-- The handlers are attached to some process. -/
  attached : Bool := false
  _initialized : Bool := false
  buffer : Units := []
  /-- The calls that await a request. -/
  callers : List (ℕ × Caller) := []

/-- `sendRequest`; without a process it is rejected at once, and has no number. -/
def State.sendRequest (s : State) (method : String) : State :=
  if s.process then { s with toTable := s.send method } else s

/-! ## Messages -/

mutual

/-- `String(value)` does not throw: no object in it has a `toString` of its own. -/
def stringifies : Json → Bool
  | .array items => stringifiesAll items
  | .object fields => (Dict.get? fields "toString").isNone
  | _ => true

def stringifiesAll : List Json → Bool
  | [] => true
  | item :: items => stringifies item && stringifiesAll items

end

/-- `response.error.message` -/
def messageOf : Json → Option Json
  | .object fields => Dict.get? fields "message"
  | _ => none

/-- What a response does to its request: `new Error(message)` may throw, after the delete. -/
def endingOf (response : Dict Json) : Ending :=
  match (Dict.get? response "error").filter Json.truthy with
  | none => .resolved (Dict.get? response "result")
  | some error =>
    if (messageOf error).all stringifies then .rejected (.server (messageOf error)) else .forgotten

section Client

-- `JSON.parse` of a body, where it does not throw
variable (parse : Units → Option Json)

/-- The number that a body answers, and what it does to the request of that number. -/
def answer (body : Units) : Option (ℚ × Ending) :=
  match parse body with
  | some (.object message) =>
    match Dict.get? message "id" with
    | some (.number id) => some (id, endingOf message)
    | _ => none
  | _ => none

/-- `handleMessage`; a notification changes nothing here. -/
def handleMessage (t : Table) (body : Units) : Table :=
  match answer parse body with
  | none => t
  | some (id, ending) =>
    match t.pending.find? fun p => (p.1 : ℚ) = id with
    | none => t
    | some p => t.close p.1 ending

/-- The bodies that a chunk completes. -/
def bodiesOf (s : State) (chunk : Bytes) : List Units :=
  (drain next (s.buffer ++ toStringUtf8 chunk)).1

/-- `stdout.on('data', ...)` -/
def onData (s : State) (chunk : Bytes) : State :=
  { s with
    toTable := (bodiesOf s chunk).foldl (handleMessage parse) s.toTable
    buffer := (drain next (s.buffer ++ toStringUtf8 chunk)).2 }

/-! ## Steps -/

inductive Action
  /-- `initialize`, as far as its first `await` -/
  | start
  /-- A request of `findDefinition`, `findReferences` or `getHover` -/
  | request (method : String)
  /-- `shutdown`, as far as its first `await` -/
  | shutdown
  | data (chunk : Bytes)
  | timeout (id : ℕ)
  | exit
  /-- `error` of the process, which a listener hears -/
  | error
  /-- An awaited request is settled, and its caller goes on. -/
  | resume (id : ℕ) (caller : Caller)

/-- `this.process = null; this._initialized = false` -/
def State.drop (s : State) : State := { s with process := false, _initialized := false }

/-- `initialize` goes on only if its request was resolved; `shutdown` goes on, but throws at
`this.process.kill()` if there is no process any more. -/
def proceed (s : State) (ending : Ending) : Caller → State
  | .starting =>
    match ending with
    | .resolved _ => { s with _initialized := true }
    | _ => s
  | .stopping =>
    if s.process then { s.drop with toTable := s.rejectAllPending .shutDown } else s

def step (s : State) : Action → Option State
  | .start =>
    if s._initialized then some s
    else some (State.sendRequest
      { s with
        process := true
        attached := true
        callers := s.callers ++ [(s.requestId + 1, .starting)] } "initialize")
  | .request method => some (s.sendRequest method)
  | .shutdown =>
    if s.process then
      some (State.sendRequest { s with callers := s.callers ++ [(s.requestId + 1, .stopping)] }
        "shutdown")
    else some s
  | .data chunk => if s.attached then some (onData parse s chunk) else none
  | .timeout id => if id ∈ s.timers then some { s with toTable := s.fire id } else none
  | .exit =>
    if s.attached then some { s.drop with toTable := s.rejectAllPending .exited } else none
  | .error => if s.attached then some s.drop else none
  | .resume id caller =>
    if (id, caller) ∈ s.callers then
      match s.closed.find? fun e => e.1 = id with
      | none => none
      | some e =>
        if e.2 = .forgotten then none
        else
          let left := s.callers.filter fun c => c ≠ (id, caller)
          some (proceed { s with callers := left } e.2 caller)
    else none

/-! ## What a step does to the table -/

theorem sendRequest_table (s : State) (method : String) :
    (s.sendRequest method).toTable = s.toTable ∨
      (s.sendRequest method).toTable = s.send method := by
  unfold State.sendRequest
  split_ifs
  · exact Or.inr rfl
  · exact Or.inl rfl

inductive Effect (s : State) : Action → Table → Prop
  | same (a : Action) : Effect s a s.toTable
  | send (a : Action) (method : String) : Effect s a (s.send method)
  | data (chunk : Bytes) :
    Effect s (.data chunk) ((bodiesOf s chunk).foldl (handleMessage parse) s.toTable)
  | fire {id : ℕ} (h : id ∈ s.timers) : Effect s (.timeout id) (s.fire id)
  | exit : Effect s .exit (s.rejectAllPending .exited)
  | shutDown (id : ℕ) : Effect s (.resume id .stopping) (s.rejectAllPending .shutDown)

variable {parse}

theorem step_effect {s t : State} {a : Action} (h : step parse s a = some t) :
    Effect parse s a t.toTable := by
  have hsend : ∀ (r : State) (method : String), r.toTable = s.toTable →
      Effect parse s a (r.sendRequest method).toTable := by
    intro r method hr
    rcases sendRequest_table r method with htable | htable
    · rw [htable, hr]
      exact .same a
    · rw [htable, hr]
      exact .send a method
  cases a with
  | start =>
    simp only [step] at h
    split_ifs at h with hinit
    · rw [← Option.some.inj h]
      exact .same _
    · rw [← Option.some.inj h]
      exact hsend _ _ rfl
  | request method =>
    rw [← Option.some.inj h]
    exact hsend _ _ rfl
  | shutdown =>
    simp only [step] at h
    split_ifs at h with hprocess
    · rw [← Option.some.inj h]
      exact hsend _ _ rfl
    · rw [← Option.some.inj h]
      exact .same _
  | data chunk =>
    simp only [step, Option.ite_none_right_eq_some] at h
    rw [← Option.some.inj h.2]
    exact .data chunk
  | timeout id =>
    simp only [step, Option.ite_none_right_eq_some] at h
    rw [← Option.some.inj h.2]
    exact .fire h.1
  | exit =>
    simp only [step, Option.ite_none_right_eq_some] at h
    rw [← Option.some.inj h.2]
    exact .exit
  | error =>
    simp only [step, Option.ite_none_right_eq_some] at h
    rw [← Option.some.inj h.2]
    exact .same _
  | resume id caller =>
    simp only [step, Option.ite_none_right_eq_some] at h
    obtain ⟨-, h⟩ := h
    cases hfind : s.closed.find? fun e => e.1 = id with
    | none => simp [hfind] at h
    | some e =>
      simp only [hfind, Option.ite_none_left_eq_some] at h
      rw [← Option.some.inj h.2]
      cases caller with
      | starting =>
        simp only [proceed]
        cases e.2 <;> exact .same _
      | stopping =>
        simp only [proceed]
        split_ifs
        · exact .shutDown id
        · exact .same _

/-! ## The numbers -/

/-- Every number given out is in the table or left it, once; and a timer runs for each that is in
it. -/
structure Table.Kept (t : Table) : Prop where
  numbers : (t.pendingIds ++ t.closedIds).Perm ((List.range t.requestId).map (· + 1))
  timed : ∀ id ∈ t.pendingIds, id ∈ t.timers

theorem Table.Kept.nodup {t : Table} (h : t.Kept) : (t.pendingIds ++ t.closedIds).Nodup :=
  h.numbers.nodup_iff.mpr (List.nodup_range.map (add_left_injective 1))

theorem Table.pendingIds_close (t : Table) (id : ℕ) (ending : Ending) :
    (t.close id ending).pendingIds = t.pendingIds.filter fun n => n ≠ id := by
  rw [Table.pendingIds, Table.pendingIds, List.filter_map]
  rfl

theorem Table.Kept.send {t : Table} (h : t.Kept) (method : String) : (t.send method).Kept := by
  constructor
  · have hnext : (t.send method).pendingIds = t.pendingIds ++ [t.requestId + 1] := by
      simp [Table.pendingIds, Table.send]
    rw [hnext]
    show (t.pendingIds ++ [t.requestId + 1] ++ t.closedIds).Perm
      ((List.range (t.requestId + 1)).map (· + 1))
    rw [List.range_succ, List.map_append, List.append_assoc]
    refine List.perm_append_comm_assoc _ _ _ |>.trans ?_
    exact List.perm_append_comm.trans (h.numbers.append_right _)
  · intro id hid
    simp only [Table.pendingIds, Table.send, List.map_append, List.mem_append] at hid ⊢
    exact hid.imp (h.timed id) (by simp)

theorem Table.Kept.close {t : Table} (h : t.Kept) {id : ℕ} (hid : id ∈ t.pendingIds)
    (ending : Ending) : (t.close id ending).Kept := by
  have hpending : t.pendingIds.Nodup := h.nodup.of_append_left
  have herase : (t.close id ending).pendingIds = t.pendingIds.erase id := by
    rw [t.pendingIds_close, hpending.erase_eq_filter]
    exact List.filter_congr fun n _ => by rw [bne, decide_not, beq_eq_decide]
  constructor
  · have hclosed : (t.close id ending).closedIds = t.closedIds ++ [id] := by
      simp [Table.closedIds, Table.close]
    rw [herase, hclosed, ← List.append_assoc]
    refine (List.perm_append_singleton id _).trans (List.Perm.trans ?_ h.numbers)
    exact (List.perm_cons_erase hid).symm.append_right t.closedIds
  · intro n hn
    rw [herase] at hn
    exact h.timed n (List.mem_of_mem_erase hn)

theorem Table.Kept.rejectAllPending {t : Table} (h : t.Kept) (error : Failure) :
    (t.rejectAllPending error).Kept := by
  constructor
  · have hclosed : (t.rejectAllPending error).closedIds = t.closedIds ++ t.pendingIds := by
      simp [Table.closedIds, Table.pendingIds, Table.rejectAllPending, Function.comp_def]
    rw [hclosed]
    exact (@List.perm_append_comm _ t.closedIds t.pendingIds).trans h.numbers
  · simp [Table.pendingIds, Table.rejectAllPending]

theorem Table.mem_pendingIds_iff {t : Table} {id : ℕ} :
    id ∈ t.pendingIds ↔ ∃ method, (id, method) ∈ t.pending := by
  simp [Table.pendingIds]

theorem Table.fire_cases (t : Table) (id : ℕ) :
    (id ∉ t.pendingIds ∧
      t.fire id = { t with timers := t.timers.filter fun timer => timer ≠ id }) ∨
    ∃ method, (id, method) ∈ t.pending ∧
      t.fire id = ({ t with timers := t.timers.filter fun timer => timer ≠ id } : Table).close id
        (.rejected (.timedOut method)) := by
  cases hfind : t.pending.find? fun p => p.1 = id with
  | none =>
    refine Or.inl ⟨?_, by simp only [Table.fire, hfind]⟩
    rw [List.find?_eq_none] at hfind
    rw [Table.mem_pendingIds_iff]
    rintro ⟨method, hmem⟩
    simpa using hfind _ hmem
  | some p =>
    have hid : p.1 = id := by simpa using List.find?_some hfind
    refine Or.inr ⟨p.2, ?_, by simp only [Table.fire, hfind]⟩
    rw [← hid]
    exact List.mem_of_find?_eq_some hfind

theorem Table.Kept.fire {t : Table} (h : t.Kept) (id : ℕ) : (t.fire id).Kept := by
  rcases t.fire_cases id with ⟨hnot, hfire⟩ | ⟨method, hmem, hfire⟩
  · rw [hfire]
    refine ⟨h.numbers, fun n hn => ?_⟩
    have hne : n ≠ id := fun heq => hnot (heq ▸ hn)
    simpa [hne] using h.timed n hn
  · have hclose := h.close (Table.mem_pendingIds_iff.mpr ⟨method, hmem⟩)
      (.rejected (.timedOut method))
    rw [hfire]
    refine ⟨hclose.numbers, fun n hn => ?_⟩
    have hne : n ≠ id := by
      rw [Table.pendingIds_close] at hn
      simpa using (List.mem_filter.mp hn).2
    have htimer : n ∈ t.timers := hclose.timed n hn
    exact List.mem_filter.mpr ⟨htimer, by simpa using hne⟩

variable (parse) in
theorem handleMessage_cases (t : Table) (body : Units) :
    (handleMessage parse t body = t ∧
      ∀ (id : ℕ) (ending : Ending), answer parse body = some ((id : ℚ), ending) → id ∉ t.pendingIds) ∨
    ∃ (id : ℕ) (ending : Ending), answer parse body = some ((id : ℚ), ending) ∧ id ∈ t.pendingIds ∧
      handleMessage parse t body = t.close id ending := by
  cases hanswer : answer parse body with
  | none => exact Or.inl ⟨by simp [handleMessage, hanswer], by simp⟩
  | some reply =>
    obtain ⟨q, ending⟩ := reply
    cases hfind : t.pending.find? fun p => (p.1 : ℚ) = q with
    | none =>
      refine Or.inl ⟨by simp only [handleMessage, hanswer, hfind], fun id e heq hid => ?_⟩
      obtain ⟨rfl, rfl⟩ := Prod.mk.inj (Option.some.inj heq)
      obtain ⟨method, hmem⟩ := Table.mem_pendingIds_iff.mp hid
      rw [List.find?_eq_none] at hfind
      simpa using hfind _ hmem
    | some p =>
      have hq : (p.1 : ℚ) = q := by simpa using List.find?_some hfind
      refine Or.inr ⟨p.1, ending, by rw [hq], ?_, by simp only [handleMessage, hanswer, hfind]⟩
      exact Table.mem_pendingIds_iff.mpr ⟨p.2, List.mem_of_find?_eq_some hfind⟩

theorem kept_handleMessages (bodies : List Units) {t : Table} (h : t.Kept) :
    (bodies.foldl (handleMessage parse) t).Kept := by
  induction bodies generalizing t with
  | nil => exact h
  | cons body bodies ih =>
    apply ih
    rcases handleMessage_cases parse t body with ⟨hsame, -⟩ | ⟨id, ending, -, hid, hclose⟩
    · rwa [hsame]
    · rw [hclose]
      exact h.close hid ending

theorem Effect.kept {s : State} {a : Action} {t : Table} (h : Effect parse s a t) (hs : s.Kept) :
    t.Kept := by
  cases h with
  | same => exact hs
  | send _ method => exact hs.send method
  | data chunk => exact kept_handleMessages _ hs
  | fire hid => exact hs.fire _
  | exit => exact hs.rejectAllPending .exited
  | shutDown id => exact hs.rejectAllPending .shutDown

theorem kept_fresh : ({} : Table).Kept := by
  constructor
  · exact List.Perm.nil
  · simp [Table.pendingIds]

/-! ## What ends a request -/

variable (parse) in
/-- The action ends the request so, if it is in the table: the first body that answers it counts. -/
inductive Ends (s : State) : Action → ℕ × Ending → Prop
  | answered {chunk : Bytes} {earlier later : List Units} {body : Units} {id : ℕ} {ending : Ending}
    (hbodies : bodiesOf s chunk = earlier ++ body :: later)
    (hearlier : ∀ b ∈ earlier, ∀ e, answer parse b ≠ some ((id : ℚ), e))
    (hbody : answer parse body = some ((id : ℚ), ending)) : Ends s (.data chunk) (id, ending)
  | timedOut {id : ℕ} {method : String} (h : (id, method) ∈ s.pending) :
    Ends s (.timeout id) (id, .rejected (.timedOut method))
  | exited (id : ℕ) : Ends s .exit (id, .rejected .exited)
  | shutDown (id request : ℕ) : Ends s (.resume request .stopping) (id, .rejected .shutDown)

theorem Table.pendingIds_close_subset (t : Table) (id : ℕ) (ending : Ending) :
    (t.close id ending).pendingIds ⊆ t.pendingIds := by
  rw [t.pendingIds_close]
  exact List.filter_subset_self _

theorem mem_closed_handleMessages (bodies : List Units) {t : Table} {e : ℕ × Ending}
    (he : e ∈ (bodies.foldl (handleMessage parse) t).closed) :
    e ∈ t.closed ∨ e.1 ∈ t.pendingIds ∧ ∃ earlier body later,
      bodies = earlier ++ body :: later ∧
      (∀ b ∈ earlier, ∀ ending, answer parse b ≠ some ((e.1 : ℚ), ending)) ∧
      answer parse body = some ((e.1 : ℚ), e.2) := by
  induction bodies generalizing t with
  | nil => exact Or.inl he
  | cons body bodies ih =>
    rcases handleMessage_cases parse t body with ⟨hsame, hnone⟩ | ⟨id, ending, hanswer, hid, hclose⟩
    · rw [List.foldl_cons, hsame] at he
      refine (ih he).imp id ?_
      rintro ⟨hpending, earlier, found, later, rfl, hearlier, hfound⟩
      refine ⟨hpending, body :: earlier, found, later, rfl, ?_, hfound⟩
      intro b hb ending hb'
      rcases List.mem_cons.mp hb with rfl | hb
      · exact hnone e.1 ending hb' hpending
      · exact hearlier b hb ending hb'
    · rw [List.foldl_cons, hclose] at he
      rcases ih he with hmem | ⟨hpending, earlier, found, later, rfl, hearlier, hfound⟩
      · rcases List.mem_append.mp hmem with hold | hnew
        · exact Or.inl hold
        · obtain rfl : e = (id, ending) := by simpa using hnew
          exact Or.inr ⟨hid, [], body, bodies, rfl, by simp, hanswer⟩
      · refine Or.inr ⟨t.pendingIds_close_subset _ _ hpending, body :: earlier, found, later, rfl,
          ?_, hfound⟩
        intro b hb other hb'
        rcases List.mem_cons.mp hb with rfl | hb
        · -- a request that this body answered has left the table
          rw [hanswer] at hb'
          have heq : id = e.1 := Nat.cast_injective (congrArg Prod.fst (Option.some.inj hb'))
          rw [t.pendingIds_close, heq] at hpending
          simp at hpending
        · exact hearlier b hb other hb'

theorem Effect.closed {s : State} {a : Action} {t : Table} (h : Effect parse s a t)
    {e : ℕ × Ending} (he : e ∈ t.closed) :
    e ∈ s.closed ∨ e.1 ∈ s.pendingIds ∧ Ends parse s a e := by
  have hall : ∀ error, e ∈ (s.rejectAllPending error).closed →
      e ∈ s.closed ∨ e.1 ∈ s.pendingIds ∧ e.2 = .rejected error := by
    intro error hmem
    refine (List.mem_append.mp hmem).imp id ?_
    intro hnew
    obtain ⟨p, hp, rfl⟩ := List.mem_map.mp hnew
    exact ⟨List.mem_map.mpr ⟨p, hp, rfl⟩, rfl⟩
  obtain ⟨n, ending⟩ := e
  cases h with
  | same => exact Or.inl he
  | send => exact Or.inl he
  | data chunk =>
    refine (mem_closed_handleMessages _ he).imp id ?_
    rintro ⟨hpending, earlier, body, later, hbodies, hearlier, hbody⟩
    exact ⟨hpending, .answered hbodies hearlier hbody⟩
  | @fire id hid =>
    rcases s.toTable.fire_cases id with ⟨-, hfire⟩ | ⟨method, hmem, hfire⟩
    · rw [hfire] at he
      exact Or.inl he
    · rw [hfire] at he
      refine (List.mem_append.mp he).imp (fun hold => hold) fun hnew => ?_
      obtain ⟨rfl, rfl⟩ := Prod.mk.inj (List.mem_singleton.mp hnew)
      exact ⟨Table.mem_pendingIds_iff.mpr ⟨method, hmem⟩, .timedOut hmem⟩
  | exit =>
    refine (hall _ he).imp id ?_
    rintro ⟨hpending, rfl⟩
    exact ⟨hpending, .exited n⟩
  | shutDown id =>
    refine (hall _ he).imp (fun hold => hold) ?_
    rintro ⟨hpending, rfl⟩
    exact ⟨hpending, .shutDown n id⟩

/-! ## What is in the table -/

theorem pendingIds_handleMessages (bodies : List Units) (t : Table) :
    (bodies.foldl (handleMessage parse) t).requestId = t.requestId ∧
      (bodies.foldl (handleMessage parse) t).pendingIds ⊆ t.pendingIds := by
  induction bodies generalizing t with
  | nil => exact ⟨rfl, List.Subset.refl _⟩
  | cons body bodies ih =>
    obtain ⟨hnumber, hsubset⟩ := ih (handleMessage parse t body)
    rw [List.foldl_cons]
    rcases handleMessage_cases parse t body with ⟨hsame, -⟩ | ⟨id, ending, -, -, hclose⟩
    · rw [hsame] at hnumber hsubset ⊢
      exact ⟨hnumber, hsubset⟩
    · rw [hclose] at hnumber hsubset ⊢
      exact ⟨hnumber, List.Subset.trans hsubset (t.pendingIds_close_subset id ending)⟩

/-- A request is only ever added with the next number. -/
theorem Effect.sent {s : State} {a : Action} {t : Table} (h : Effect parse s a t) {n : ℕ}
    (hn : n ≤ s.requestId) (hpending : ∀ id ∈ s.pendingIds, n < id) :
    n ≤ t.requestId ∧ ∀ id ∈ t.pendingIds, n < id := by
  cases h with
  | same => exact ⟨hn, hpending⟩
  | send _ method =>
    refine ⟨Nat.le_succ_of_le hn, fun id hid => ?_⟩
    simp only [Table.pendingIds, Table.send, List.map_append, List.mem_append] at hid
    rcases hid with hold | hnew
    · exact hpending id hold
    · obtain rfl : id = s.requestId + 1 := by simpa using hnew
      omega
  | data chunk =>
    obtain ⟨hnumber, hsubset⟩ := pendingIds_handleMessages (bodiesOf s chunk) s.toTable
    exact ⟨hnumber ▸ hn, fun id hid => hpending id (hsubset hid)⟩
  | @fire id hid =>
    rcases s.toTable.fire_cases id with ⟨-, hfire⟩ | ⟨method, -, hfire⟩
    · rw [hfire]
      exact ⟨hn, hpending⟩
    · rw [hfire]
      refine ⟨hn, fun m hm => hpending m ?_⟩
      rw [Table.pendingIds_close] at hm
      exact List.mem_of_mem_filter hm
  | exit => exact ⟨hn, by simp [Table.pendingIds, Table.rejectAllPending]⟩
  | shutDown id => exact ⟨hn, by simp [Table.pendingIds, Table.rejectAllPending]⟩

/-! ## Runs -/

open Transition

/-- In every run each number is given out once and leaves the table at most once, for a reason that
came while it was there; a timer watches each that is left, and none outlives an exit. -/
theorem requests_settled {as : List Action} {s : State} (h : run (step parse) {} as = some s) :
    (s.pendingIds ++ s.closedIds).Perm ((List.range s.requestId).map (· + 1)) ∧
    (∀ id ∈ s.pendingIds, id ∈ s.timers) ∧
    (∀ e ∈ s.closed, Occurs (step parse) {} as fun t a =>
      e.1 ∈ t.pendingIds ∧ Ends parse t a e) ∧
    ∀ pre post t, as = pre ++ .exit :: post → run (step parse) {} pre = some t →
      ∀ id ∈ s.pendingIds, t.requestId < id := by
  have hkept : s.Kept :=
    run_invariant (I := fun s : State => s.Kept) (fun _ _ _ hs hstep => (step_effect hstep).kept hs)
      kept_fresh h
  refine ⟨hkept.numbers, hkept.timed, ?_, ?_⟩
  · have hall : Each (step parse) {} as fun _ _ _ => True := fun _ _ _ _ _ _ => trivial
    refine run_history (I := fun as (s : State) => ∀ e ∈ s.closed, Occurs (step parse) {} as
      fun t a => e.1 ∈ t.pendingIds ∧ Ends parse t a e) (by simp) ?_ hall h
    intro pre t a u hpre hold _ hstep e he
    rw [occurs_snoc hpre]
    exact ((step_effect hstep).closed he).imp (hold e) id
  · intro pre post t has hpre
    rw [has] at h
    obtain ⟨u, hu, hrest⟩ := run_append.mp h
    obtain rfl : t = u := Option.some.inj (hpre.symm.trans hu)
    obtain ⟨v, hexit, hpost⟩ := run_cons_iff.mp hrest
    have hempty : t.requestId ≤ v.requestId ∧ ∀ id ∈ v.pendingIds, t.requestId < id := by
      simp only [step, Option.ite_none_right_eq_some] at hexit
      rw [← Option.some.inj hexit.2]
      simp [Table.rejectAllPending, Table.pendingIds]
    exact (run_invariant (I := fun s : State => t.requestId ≤ s.requestId ∧
      ∀ id ∈ s.pendingIds, t.requestId < id)
      (fun _ _ _ hs hstep => (step_effect hstep).sent hs.1 hs.2) hempty hpost).2

end Client

/-- `JSON.parse` of a body of ASCII letters. -/
def parseAscii (body : Units) : Option Json :=
  JsonReader.parse wholeNumbers (body.map fun u => Char.ofNat u.toNat)

def reply : String := "\x7b\"id\":1,\"result\":0\x7d"

/-- The handshake is answered, and the server exits with a request open. -/
def crash : List Action :=
  [.start, .data (frame reply), .resume 1 .starting, .request "textDocument/hover", .exit]

open Transition in
theorem crash_settled :
    ∃ s, run (step parseAscii) {} crash = some s ∧ s.closedIds.Perm [1, 2] := by
  have hcrash : ((run (step parseAscii) {} crash).map fun s => (s.pendingIds, s.requestId)) =
      some ([], 2) := by decide +kernel
  obtain ⟨s, hrun, hs⟩ := Option.map_eq_some_iff.mp hcrash
  obtain ⟨hpending, hnumber⟩ := Prod.mk.inj hs
  have hnumbers := (requests_settled hrun).1
  rw [hpending, hnumber] at hnumbers
  exact ⟨s, hrun, hnumbers⟩

end LspRequests
end Batiste
