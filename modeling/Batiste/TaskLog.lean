import Batiste.Json

/-! `TaskLog`: tasks in a table, and the events about them in an `EventLog`. -/
namespace Batiste
namespace TaskLog

inductive TaskStatus
  | pending | in_progress | completed | blocked | parked | deleted
  deriving DecidableEq, Repr

structure Task where
  id : String
  createdAt : String
  updatedAt : String
  status : TaskStatus
  subject : String
  description : Option String := none
  stream : Option String := none
  sessionId : Option String := none
  parentId : Option String := none
  metadata : Option (Dict Json) := none
  deriving DecidableEq

structure TaskCreateInput where
  id : Option String := none
  subject : String
  description : Option String := none
  stream : Option String := none
  sessionId : Option String := none
  parentId : Option String := none
  status : Option TaskStatus := none
  metadata : Option (Dict Json) := none
  deriving DecidableEq

structure TaskUpdateInput where
  subject : Option String := none
  description : Option String := none
  stream : Option String := none
  sessionId : Option String := none
  parentId : Option String := none
  status : Option TaskStatus := none
  metadata : Option (Dict Json) := none
  deriving DecidableEq

structure Payload where
  task_id : String
  status : TaskStatus
  subject : String
  session_id : Option String
  change : Option (TaskStatus × TaskStatus)
  deriving DecidableEq, Repr

structure EventLogEntry where
  ts : String
  event : String
  stream : Option String
  generator : String
  payload : Payload
  deriving DecidableEq, Repr

/-- The rows in the order of their creation, and the events. -/
structure State where
  rows : List Task := []
  log : List EventLogEntry := []
  deriving DecidableEq

inductive TaskError
  | invalid
  | duplicate (id : String)
  | notFound (id : String)
  deriving DecidableEq, Repr

/-- What an operation reads from outside: its clock readings, a random id, and whether there is an
event log that takes the entry. -/
structure World where
  now : String
  ts : String
  randomUUID : String
  appends : Bool
  deriving DecidableEq, Repr

def nonempty (text : Option String) : Option String := text.filter fun s => s != ""

def entry (world : World) (event : String) (task : Task)
    (change : Option (TaskStatus × TaskStatus)) : EventLogEntry where
  ts := world.ts
  event := event
  stream := nonempty task.stream
  generator := "batiste task"
  payload :=
    { task_id := task.id
      status := task.status
      subject := task.subject
      session_id := nonempty task.sessionId
      change := change }

/-- Best effort: an entry that the log does not take is left out. -/
def emit (world : World) (event : String) (task : Task)
    (change : Option (TaskStatus × TaskStatus)) (log : List EventLogEntry) : List EventLogEntry :=
  if world.appends then log ++ [entry world event task change] else log

/-- What `TaskSchema.parse` asks of a task, times aside. -/
def TaskSchema (task : Task) : Bool := task.id != "" && task.subject != ""

def created (world : World) (input : TaskCreateInput) : Task where
  id := input.id.getD world.randomUUID
  createdAt := world.now
  updatedAt := world.now
  status := input.status.getD .pending
  subject := input.subject
  description := input.description
  stream := input.stream
  sessionId := input.sessionId
  parentId := input.parentId
  metadata := input.metadata

def create (world : World) (input : TaskCreateInput) (s : State) : Except TaskError State :=
  let task := created world input
  if !TaskSchema task then .error .invalid
  else if s.rows.any fun row => row.id == task.id then .error (.duplicate task.id)
  else .ok { rows := s.rows ++ [task], log := emit world "task.created" task none s.log }

def get (s : State) (id : String) : Option Task := s.rows.find? fun row => row.id == id

def patched (world : World) (existing : Task) (patch : TaskUpdateInput) : Task :=
  { existing with
    subject := patch.subject.getD existing.subject
    description := patch.description <|> existing.description
    stream := patch.stream <|> existing.stream
    sessionId := patch.sessionId <|> existing.sessionId
    parentId := patch.parentId <|> existing.parentId
    status := patch.status.getD existing.status
    metadata := patch.metadata <|> existing.metadata
    updatedAt := world.now }

/-- The event of an update, and the two statuses where it names them. -/
def changeEvent (patch : TaskUpdateInput) (existing : Task) :
    String × Option (TaskStatus × TaskStatus) :=
  match patch.status with
  | none => ("task.updated", none)
  | some status =>
    if status = existing.status then ("task.updated", none)
    else if status = .completed then ("task.completed", none)
    else if status = .deleted then ("task.deleted", none)
    else ("task.status_changed", some (existing.status, status))

def update (world : World) (id : String) (patch : TaskUpdateInput) (s : State) :
    Except TaskError State :=
  match get s id with
  | none => .error (.notFound id)
  | some existing =>
    let next := patched world existing patch
    if !TaskSchema next then .error .invalid
    else
      let (event, change) := changeEvent patch existing
      .ok
        { rows := s.rows.map fun row =>
            if row.id = id then { next with id := row.id, createdAt := row.createdAt } else row
          log := emit world event next change s.log }

inductive Operation
  | create (input : TaskCreateInput)
  | update (id : String) (patch : TaskUpdateInput)
  | delete (id : String)
  deriving DecidableEq

def Operation.run (world : World) : Operation → State → Except TaskError State
  | .create input, s => TaskLog.create world input s
  | .update id patch, s => TaskLog.update world id patch s
  | .delete id, s => TaskLog.update world id { status := some .deleted } s

/-- An operation that throws leaves the table and the log. -/
def step (s : State) (call : World × Operation) : State :=
  match call.2.run call.1 s with
  | .ok s' => s'
  | .error _ => s

def run (history : List (World × Operation)) : State := history.foldl step {}

/-! ## What the events tell -/

/-- A task without the readings of the clock. -/
def Task.fields (task : Task) : Task := { task with createdAt := "", updatedAt := "" }

/-- An event without the time it was appended at. -/
def EventLogEntry.content (e : EventLogEntry) :
    String × Option String × String × Payload := (e.event, e.stream, e.generator, e.payload)

/-- The task as an event has it. -/
def told (stream : Option String) (payload : Payload) : Task where
  id := payload.task_id
  createdAt := ""
  updatedAt := ""
  status := payload.status
  subject := payload.subject
  stream := stream
  sessionId := payload.session_id

/-- The rows after one more event. -/
def tell (rows : List Task) (e : String × Option String × String × Payload) : List Task :=
  if rows.any fun row => row.id == e.2.2.2.task_id then
    rows.map fun row => if row.id = e.2.2.2.task_id then told e.2.1 e.2.2.2 else row
  else rows ++ [told e.2.1 e.2.2.2]

def replay (log : List EventLogEntry) : List Task :=
  (log.map EventLogEntry.content).foldl tell []

/-- A call whose event reaches the log, and that gives nothing the payload leaves out. -/
structure Recorded (call : World × Operation) : Prop where
  appends : call.1.appends = true
  create : ∀ input, call.2 = .create input → input.description = none ∧ input.parentId = none ∧
    input.metadata = none ∧ input.stream ≠ some "" ∧ input.sessionId ≠ some ""
  update : ∀ id patch, call.2 = .update id patch → patch.description = none ∧
    patch.parentId = none ∧ patch.metadata = none ∧ patch.stream ≠ some "" ∧
    patch.sessionId ≠ some ""

/-- A task with nothing that the payload of its event leaves out. -/
structure Task.Plain (task : Task) : Prop where
  description : task.description = none
  parentId : task.parentId = none
  metadata : task.metadata = none
  stream : task.stream ≠ some ""
  sessionId : task.sessionId ≠ some ""

theorem nonempty_of_ne {text : Option String} (h : text ≠ some "") : nonempty text = text := by
  cases text with
  | none => rfl
  | some s =>
    have hs : s ≠ "" := fun hs => h (by rw [hs])
    simp [nonempty, hs]

theorem told_entry {task : Task} (h : task.Plain) (world : World) (event : String)
    (change : Option (TaskStatus × TaskStatus)) :
    told (entry world event task change).content.2.1
      (entry world event task change).content.2.2.2 = task.fields := by
  simp only [told, EventLogEntry.content, entry, Task.fields, nonempty_of_ne h.stream,
    nonempty_of_ne h.sessionId]
  rw [h.description, h.parentId, h.metadata]

theorem content_id (world : World) (event : String) (task : Task)
    (change : Option (TaskStatus × TaskStatus)) :
    (entry world event task change).content.2.2.2.task_id = task.id := rfl

/-- The rows are those that the events tell, and have nothing else. -/
structure Kept (s : State) : Prop where
  plain : ∀ row ∈ s.rows, row.Plain
  told : s.rows.map Task.fields = replay s.log

theorem replay_append (log : List EventLogEntry) (e : EventLogEntry) :
    replay (log ++ [e]) = tell (replay log) e.content := by
  simp [replay]

theorem any_fields (rows : List Task) (id : String) :
    ((rows.map Task.fields).any fun row => row.id == id) = rows.any fun row => row.id == id := by
  simp [List.any_map, Function.comp_def, Task.fields]

theorem Kept.create {s s' : State} {world : World} {input : TaskCreateInput} (hs : Kept s)
    (hc : Recorded (world, .create input)) (h : create world input s = .ok s') : Kept s' := by
  obtain ⟨hdescription, hparent, hmetadata, hstream, hsession⟩ := hc.create input rfl
  have hplain : (created world input).Plain :=
    ⟨hdescription, hparent, hmetadata, hstream, hsession⟩
  simp only [TaskLog.create] at h
  split_ifs at h with _ hnew
  cases h
  constructor
  · intro row hrow
    rcases List.mem_append.mp hrow with hold | hlast
    · exact hs.plain row hold
    · exact List.mem_singleton.mp hlast ▸ hplain
  · have hfresh : ¬ ((replay s.log).any fun row => row.id == (created world input).id) = true := by
      rw [← hs.told, any_fields]
      exact hnew
    have happends : world.appends = true := hc.appends
    rw [emit, if_pos happends, replay_append, tell, content_id, if_neg hfresh, List.map_append,
      hs.told, told_entry hplain]
    rfl

theorem mem_of_get {s : State} {id : String} {task : Task} (h : get s id = some task) :
    task ∈ s.rows ∧ task.id = id :=
  ⟨List.mem_of_find?_eq_some h, by simpa using List.find?_some h⟩

theorem patched_plain {world : World} {existing : Task} {patch : TaskUpdateInput}
    (h : existing.Plain) (hp : patch.description = none ∧ patch.parentId = none ∧
      patch.metadata = none ∧ patch.stream ≠ some "" ∧ patch.sessionId ≠ some "") :
    (patched world existing patch).Plain := by
  obtain ⟨hdescription, hparent, hmetadata, hstream, hsession⟩ := hp
  refine ⟨?_, ?_, ?_, ?_, ?_⟩
  · simp [patched, hdescription, h.description]
  · simp [patched, hparent, h.parentId]
  · simp [patched, hmetadata, h.metadata]
  · cases hgiven : patch.stream with
    | none => simpa [patched, hgiven] using h.stream
    | some stream => simpa [patched, hgiven] using hstream
  · cases hgiven : patch.sessionId with
    | none => simpa [patched, hgiven] using h.sessionId
    | some session => simpa [patched, hgiven] using hsession

theorem Kept.update {s s' : State} {world : World} {id : String} {patch : TaskUpdateInput}
    (hs : Kept s) (happends : world.appends = true)
    (hp : patch.description = none ∧ patch.parentId = none ∧ patch.metadata = none ∧
      patch.stream ≠ some "" ∧ patch.sessionId ≠ some "")
    (h : update world id patch s = .ok s') : Kept s' := by
  unfold TaskLog.update at h
  cases hget : get s id with
  | none =>
    rw [hget] at h
    cases h
  | some existing =>
    obtain ⟨hmem, hid⟩ := mem_of_get hget
    have hplain : (patched world existing patch).Plain := patched_plain (hs.plain existing hmem) hp
    rw [hget] at h
    simp only at h
    split_ifs at h
    cases h
    constructor
    · intro row hrow
      obtain ⟨old, hold, rfl⟩ := List.mem_map.mp hrow
      split_ifs
      · exact ⟨hplain.description, hplain.parentId, hplain.metadata, hplain.stream,
          hplain.sessionId⟩
      · exact hs.plain old hold
    · have hknown : ((replay s.log).any fun row => row.id == id) = true := by
        rw [← hs.told, any_fields, List.any_eq_true]
        exact ⟨existing, hmem, by simpa using hid⟩
      have hnext : (patched world existing patch).id = id := hid
      rw [emit, if_pos happends, replay_append, tell]
      simp only [told_entry hplain, content_id, hnext]
      rw [if_pos hknown, ← hs.told, List.map_map, List.map_map]
      refine List.map_congr_left fun row _ => ?_
      by_cases hrow : row.id = id
      · simp [Task.fields, hrow, hnext]
      · simp [Task.fields, hrow]

theorem Kept.step {s : State} {call : World × Operation} (hs : Kept s) (hc : Recorded call) :
    Kept (step s call) := by
  obtain ⟨world, operation⟩ := call
  unfold TaskLog.step
  cases hrun : operation.run world s with
  | error _ => exact hs
  | ok s' =>
    cases operation with
    | create input => exact hs.create hc hrun
    | update id patch => exact hs.update hc.appends (hc.update id patch rfl) hrun
    | delete id => exact hs.update hc.appends (by simp) hrun

theorem kept_run {history : List (World × Operation)} (h : ∀ call ∈ history, Recorded call) :
    Kept (run history) := by
  induction history using List.reverseRecOn with
  | nil => exact ⟨by simp [run], rfl⟩
  | append_singleton history call ih =>
    rw [run, List.foldl_append]
    exact (ih fun c hc => h c (List.mem_append_left _ hc)).step (h call (by simp))

/-- Two histories of recorded calls with the same events have the same tasks. -/
theorem tasks_of_events {history history' : List (World × Operation)}
    (h : ∀ call ∈ history, Recorded call) (h' : ∀ call ∈ history', Recorded call)
    (hevents : (run history).log.map EventLogEntry.content =
      (run history').log.map EventLogEntry.content) :
    (run history).rows.map Task.fields = (run history').rows.map Task.fields := by
  rw [(kept_run h).told, (kept_run h').told, replay, replay, hevents]

def world (now : String) : World where
  now := now
  ts := now
  randomUUID := "6f1c"
  appends := true

/-- The same task twice, on two days and with two patches. -/
theorem renamed_told :
    (run [(world "2026-01-01T00:00:00.000Z", .create { id := some "t", subject := "draft" }),
      (world "2026-01-01T00:00:01.000Z", .update "t" { status := some .completed })]).rows.map
        Task.fields =
      (run [(world "2026-02-01T00:00:00.000Z", .create { id := some "t", subject := "draft" }),
        (world "2026-02-01T00:00:09.000Z", .update "t"
          { subject := some "draft", status := some .completed })]).rows.map Task.fields := by
  refine tasks_of_events ?_ ?_ (by decide +kernel)
  · intro call hcall
    simp only [List.mem_cons, List.not_mem_nil, or_false] at hcall
    rcases hcall with rfl | rfl
    · exact ⟨rfl, by simp, by simp⟩
    · exact ⟨rfl, by simp, by simp⟩
  · intro call hcall
    simp only [List.mem_cons, List.not_mem_nil, or_false] at hcall
    rcases hcall with rfl | rfl
    · exact ⟨rfl, by simp, by simp⟩
    · exact ⟨rfl, by simp, by simp⟩

/-- Two tasks that differ in their description have the same event. -/
theorem description_untold :
    ¬ ∀ history history' : List (World × Operation),
      (∀ call ∈ history ++ history', call.1.appends = true) →
      (run history).log = (run history').log →
        (run history).rows.map Task.fields = (run history').rows.map Task.fields := by
  intro h
  have hsame := h
    [(world "2026-01-01T00:00:00.000Z",
      .create { id := some "t", subject := "draft", description := some "for the board" })]
    [(world "2026-01-01T00:00:00.000Z", .create { id := some "t", subject := "draft" })]
    (by simp [world]) (by decide +kernel)
  exact absurd hsame (by decide +kernel)

end TaskLog
end Batiste
