import Batiste.JsString
import Batiste.Json
import Batiste.ReadModifyWrite

/-! Tasks, the task store of `SQLiteTaskStore.ts` and the updates of `TaskManager.ts`.
The store is its rows in the order of their insertion.  Recovery from a read-only database is
left out, and `updatedAt` and `createdAt` are readings of the database clock. -/
namespace Batiste

inductive TaskStatus
  | pending | running | completed | failed
  deriving DecidableEq, Repr

structure ToolOutputCache where
  output : Json
  cachedAt : ℤ

/-- `rest` holds the keys of a context that have no declared type. -/
structure TaskContext where
  toolOutputs : Option (Dict ToolOutputCache) := none
  metadata : Option (Dict Json) := none
  rest : Dict Json := []

structure Task where
  id : String
  parentId : Option String := none
  label : String
  status : TaskStatus
  context : TaskContext := {}
  createdAt : Option ℤ := none
  updatedAt : Option ℤ := none

/-- An empty parent id reads as none. -/
def readParent (parentId : Option String) : Option String := parentId.filter fun p => p != ""

/-- The rows of the table `tasks` as they are read; the primary key is `id`. -/
structure Board where
  rows : List Task
  nodup : (rows.map Task.id).Nodup
  parents : ∀ row ∈ rows, readParent row.parentId = row.parentId

/-- What a task is named by. -/
def Task.face (task : Task) : String × String := (task.id, task.label)

/-- The status of a task, by its id. -/
def statusIn (tasks : List Task) (id : String) : Option TaskStatus :=
  (tasks.find? fun task => task.id == id).map Task.status

namespace Board

def status (b : Board) : String → Option TaskStatus := statusIn b.rows

def empty : Board := ⟨[], List.nodup_nil, by simp⟩

def get (b : Board) (id : String) : Option Task := b.rows.find? fun row => row.id == id

/-- What the row reads as once the task is written to it. -/
def stored (now : ℤ) (createdAt : Option ℤ) (task : Task) : Task :=
  { task with
    parentId := readParent task.parentId
    createdAt := createdAt
    updatedAt := some now }

theorem stored_parent (now : ℤ) (createdAt : Option ℤ) (task : Task) :
    readParent (stored now createdAt task).parentId = (stored now createdAt task).parentId := by
  simp [stored, readParent, Option.filter_filter]

/-- `INSERT ... ON CONFLICT(id) DO UPDATE`: an existing row keeps its place and `createdAt`. -/
def save (now : ℤ) (task : Task) (b : Board) : Board :=
  if h : task.id ∈ b.rows.map Task.id then
    ⟨b.rows.map fun row => if row.id = task.id then stored now row.createdAt task else row, by
      have hids : (b.rows.map fun row => if row.id = task.id then stored now row.createdAt task
          else row).map Task.id = b.rows.map Task.id := by
        rw [List.map_map]
        refine List.map_congr_left fun row _ => ?_
        by_cases hid : row.id = task.id <;> simp [stored, hid]
      rw [hids]
      exact b.nodup, by
      intro row hrow
      obtain ⟨old, hold, rfl⟩ := List.mem_map.mp hrow
      by_cases hid : old.id = task.id
      · rw [if_pos hid]
        exact stored_parent now old.createdAt task
      · rw [if_neg hid]
        exact b.parents old hold⟩
  else
    ⟨b.rows ++ [stored now (some now) task], by
      rw [List.map_append, List.nodup_append]
      refine ⟨b.nodup, by simp, ?_⟩
      rintro i hi _ hj rfl
      exact h (List.mem_singleton.mp hj ▸ hi), by
      intro row hrow
      rcases List.mem_append.mp hrow with hold | hnew
      · exact b.parents row hold
      · rw [List.mem_singleton.mp hnew]
        exact stored_parent now (some now) task⟩

theorem get_id {b : Board} {id : String} {task : Task} (h : b.get id = some task) :
    task.id = id := by simpa using List.find?_some h

theorem get_mem {b : Board} {id : String} {task : Task} (h : b.get id = some task) :
    task ∈ b.rows := List.mem_of_find?_eq_some h

theorem get_of_mem {b : Board} {task : Task} (h : task ∈ b.rows) : b.get task.id = some task := by
  have hsome : (b.get task.id).isSome := by
    rw [get, List.find?_isSome]
    exact ⟨task, h, by simp⟩
  obtain ⟨task', htask⟩ := Option.isSome_iff_exists.mp hsome
  rw [htask, List.inj_on_of_nodup_map b.nodup (get_mem htask) h (get_id htask)]

theorem save_rows {b : Board} {task : Task} (now : ℤ) (h : task.id ∈ b.rows.map Task.id) :
    (b.save now task).rows = b.rows.map fun row =>
      if row.id = task.id then stored now row.createdAt task else row := by
  simp [save, h]

theorem save_rows_map {β : Type} {b : Board} {old task : Task} (now : ℤ)
    (hold : b.get task.id = some old) (f : Task → β)
    (hf : f (stored now old.createdAt task) = f old) :
    (b.save now task).rows.map f = b.rows.map f := by
  have hmem : task.id ∈ b.rows.map Task.id :=
    get_id hold ▸ List.mem_map_of_mem (get_mem hold)
  rw [save_rows now hmem, List.map_map]
  refine List.map_congr_left fun row hrow => ?_
  by_cases hid : row.id = task.id
  · obtain rfl : row = old := by
      rw [← hid, get_of_mem hrow] at hold
      exact Option.some.inj hold
    simp [hid, hf]
  · simp [hid]

/-- Writing an existing row changes that row only. -/
theorem get_save {b : Board} {old task : Task} (now : ℤ) (hold : b.get task.id = some old)
    (id : String) : (b.save now task).get id =
      if id = task.id then some (stored now old.createdAt task) else b.get id := by
  have hmem : task.id ∈ b.rows.map Task.id :=
    get_id hold ▸ List.mem_map_of_mem (get_mem hold)
  have hids : ∀ row : Task,
      (if row.id = task.id then stored now row.createdAt task else row).id = row.id := by
    intro row
    by_cases hid : row.id = task.id <;> simp [stored, hid]
  rw [get, save_rows now hmem, List.find?_map]
  have hcomp : ((fun row : Task => row.id == id) ∘ fun row : Task =>
      if row.id = task.id then stored now row.createdAt task else row) = fun row => row.id == id := by
    funext row
    simp only [Function.comp_apply, hids]
  rw [hcomp]
  by_cases hid : id = task.id
  · subst hid
    have hfind : b.rows.find? (fun row => row.id == task.id) = some old := hold
    rw [hfind]
    simp [get_id hold]
  · simp only [hid, if_false]
    change Option.map _ (b.get id) = b.get id
    cases hget : b.get id with
    | none => rfl
    | some row =>
      have hne : row.id ≠ task.id := fun heq => hid ((get_id hget).symm.trans heq)
      simp [hne]

/-- Writing a row under a new id appends it. -/
theorem get_save_new {b : Board} {task : Task} (now : ℤ) (hnew : task.id ∉ b.rows.map Task.id)
    (id : String) : (b.save now task).get id =
      if id = task.id then some (stored now (some now) task) else b.get id := by
  have hrows : (b.save now task).rows = b.rows ++ [stored now (some now) task] := by
    simp [save, hnew]
  rw [get, hrows, List.find?_append]
  change (b.get id).or _ = _
  by_cases hid : id = task.id
  · have hnone : b.get id = none := by
      by_contra hsome
      obtain ⟨row, hrow⟩ := Option.ne_none_iff_exists'.mp hsome
      exact hnew (List.mem_map.mpr ⟨row, get_mem hrow, (get_id hrow).trans hid⟩)
    rw [hnone, hid]
    simp [stored]
  · simp [hid, Ne.symm hid, stored]

/-- Writing a row changes that row only. -/
theorem get_save_any (b : Board) (now : ℤ) (task : Task) :
    ∃ createdAt, ∀ id, (b.save now task).get id =
      if id = task.id then some (stored now createdAt task) else b.get id := by
  by_cases hmem : task.id ∈ b.rows.map Task.id
  · obtain ⟨old, hold, hid⟩ := List.mem_map.mp hmem
    exact ⟨old.createdAt, get_save now (hid ▸ get_of_mem hold)⟩
  · exact ⟨some now, get_save_new now hmem⟩

end Board

namespace TaskManager

structure Patch where
  status : Option TaskStatus := none
  label : Option String := none
  metadata : Option (Dict Json) := none

def mergeMetadata (extra : Option (Dict Json)) (task : Task) : Task :=
  match extra with
  | none => task
  | some extra =>
    { task with context :=
      { task.context with metadata := some ((task.context.metadata.getD []).spread extra) } }

/-- The three calls that read a task, change it and save it. -/
inductive Call
  | updateStatus (status : TaskStatus) (context : Option (Dict Json))
  | patchTask (patch : Patch)
  | cacheToolOutput (toolName : String) (output : Json)

/-- The clocks a call reads when it saves: `Date.now()` and the clock of the database. -/
structure Clocks where
  date : ℤ
  database : ℤ

/-- What a call does to the task it has read. -/
def Call.apply (now : Clocks) (task : Task) : Call → Task
  | .updateStatus status context => mergeMetadata context { task with status := status }
  | .patchTask patch =>
    mergeMetadata patch.metadata
      { task with status := patch.status.getD task.status, label := patch.label.getD task.label }
  | .cacheToolOutput toolName output =>
    let toolOutputs := (task.context.toolOutputs.getD []).set toolName ⟨output, now.date⟩
    { task with context := { task.context with toolOutputs := some toolOutputs } }

def notFound (taskId : String) : String := "Task not found: " ++ taskId

/-- A call that nothing else runs next to. -/
def perform (now : Clocks) (taskId : String) (call : Call) (b : Board) : Except String Board :=
  match b.get taskId with
  | none => .error (notFound taskId)
  | some task => .ok (b.save now.database (call.apply now task))

def updateStatus (now : Clocks) (taskId : String) (status : TaskStatus) (context : Option (Dict Json))
    (b : Board) : Except String Board := perform now taskId (.updateStatus status context) b

/-- The store, and the calls that wait between their read and their save. -/
structure State where
  board : Board
  waiting : ℕ → Option (Call × Task)

open ReadModifyWrite

/-- A call starts and reads the task; the rest of it, up to the save, is one stretch of code
after the `await`.  On a missing task the call throws and is over. -/
def step (taskId : String) (s : State) : Action Call Clocks → Option State
  | .read k call =>
    if (s.waiting k).isNone then
      match s.board.get taskId with
      | none => some s
      | some task => some { s with waiting := Function.update s.waiting k (some (call, task)) }
    else none
  | .write k now =>
    (s.waiting k).map fun copy =>
      ⟨s.board.save now.database (copy.1.apply now copy.2), Function.update s.waiting k none⟩

/-- What a call leaves in the store when it has read `task`. -/
def effect (call : Call) (now : Clocks) (task : Task) : Task :=
  { call.apply now task with updatedAt := some now.database }

theorem mergeMetadata_fixed (extra : Option (Dict Json)) (task : Task) :
    (mergeMetadata extra task).id = task.id ∧ (mergeMetadata extra task).parentId = task.parentId ∧
      (mergeMetadata extra task).createdAt = task.createdAt ∧
      (mergeMetadata extra task).status = task.status ∧
      (mergeMetadata extra task).label = task.label := by
  cases extra <;> simp [mergeMetadata]

/-- No call changes the key, the parent or the creation time. -/
theorem apply_fixed (now : Clocks) (task : Task) (call : Call) :
    (call.apply now task).id = task.id ∧ (call.apply now task).parentId = task.parentId ∧
      (call.apply now task).createdAt = task.createdAt := by
  cases call with
  | updateStatus status context =>
    have h := mergeMetadata_fixed context { task with status := status }
    exact ⟨h.1, h.2.1, h.2.2.1⟩
  | patchTask patch =>
    have h := mergeMetadata_fixed patch.metadata
      { task with status := patch.status.getD task.status, label := patch.label.getD task.label }
    exact ⟨h.1, h.2.1, h.2.2.1⟩
  | cacheToolOutput toolName output => exact ⟨rfl, rfl, rfl⟩

/-- On a task of the board `updateStatus` succeeds, and changes the status of that task only. -/
theorem updateStatus_status {b : Board} {taskId : String} {task : Task}
    (htask : b.get taskId = some task) (now : Clocks) (status : TaskStatus)
    (context : Option (Dict Json)) :
    ∃ b', updateStatus now taskId status context b = .ok b' ∧
      b'.rows.map Task.face = b.rows.map Task.face ∧
      ∀ id, b'.status id = if id = taskId then some status else b.status id := by
  have hfixed := mergeMetadata_fixed context { task with status := status }
  have hsaved : ((Call.updateStatus status context).apply now task).id = taskId :=
    (apply_fixed now task (.updateStatus status context)).1.trans (Board.get_id htask)
  have hstatus : ((Call.updateStatus status context).apply now task).status = status :=
    hfixed.2.2.2.1
  have hface : ((Call.updateStatus status context).apply now task).face = task.face :=
    Prod.ext hfixed.1 hfixed.2.2.2.2
  refine ⟨_, by rw [updateStatus, perform, htask],
    Board.save_rows_map now.database (hsaved ▸ htask) Task.face hface, fun id => ?_⟩
  change ((Board.save now.database _ b).get id).map Task.status = _
  rw [Board.get_save now.database (hsaved ▸ htask), hsaved]
  by_cases hid : id = taskId
  · rw [if_pos hid, if_pos hid]
    exact congrArg some hstatus
  · rw [if_neg hid, if_neg hid]
    rfl

/-- A version of the task `first`. -/
def Version (first task : Task) : Prop :=
  task.id = first.id ∧ task.createdAt = first.createdAt ∧
    readParent task.parentId = task.parentId

theorem effect_version {first task : Task} (h : Version first task) (call : Call) (now : Clocks) :
    Version first (effect call now task) := by
  obtain ⟨hid, hparent, hcreated⟩ := apply_fixed now task call
  exact ⟨hid.trans h.1, hcreated.trans h.2.1, by simpa [effect, hparent] using h.2.2⟩

/-- Saving a version writes what `effect` says. -/
theorem stored_eq_effect {first task : Task} (h : Version first task) (call : Call) (now : Clocks) :
    Board.stored now.database first.createdAt (call.apply now task) = effect call now task := by
  obtain ⟨-, hparent, hcreated⟩ := apply_fixed now task call
  have hfilter := h.2.2
  rw [← hparent] at hfilter
  simp only [Board.stored, effect, hfilter, ← h.2.1, ← hcreated]

/-- The store behaves like a cell that holds the task. -/
structure Simulates (first : Task) (s : State) (c : Cell Task Call) : Prop where
  value : s.board.get first.id = some c.value
  copies : s.waiting = c.copies
  version : Version first c.value
  versions : ∀ k copy, c.copies k = some copy → Version first copy.2

theorem simulates_step {first : Task} {s t : State} {c : Cell Task Call} {a : Action Call Clocks}
    (h : Simulates first s c) (hs : step first.id s a = some t) :
    ∃ c', ReadModifyWrite.step effect c a = some c' ∧ Simulates first t c' := by
  cases a with
  | read k call =>
    simp only [step, h.value] at hs
    split_ifs at hs with hnone
    cases hs
    rw [h.copies] at hnone
    refine ⟨_, if_pos hnone, h.value, by simp [h.copies], h.version, ?_⟩
    intro i copy hcopy
    by_cases hi : i = k
    · subst hi
      obtain rfl : (call, c.value) = copy := by simpa using hcopy
      exact h.version
    · exact h.versions i copy (by simpa [Function.update_of_ne hi] using hcopy)
  | write k now =>
    obtain ⟨copy, hcopy, rfl⟩ := Option.map_eq_some_iff.mp hs
    rw [h.copies] at hcopy
    have hversion := h.versions k copy hcopy
    have hid : (copy.1.apply now copy.2).id = first.id :=
      (apply_fixed now copy.2 copy.1).1.trans hversion.1
    have hget := Board.get_save now.database (hid ▸ h.value) first.id
    rw [if_pos hid.symm, h.version.2.1, stored_eq_effect hversion] at hget
    refine ⟨⟨effect copy.1 now copy.2, Function.update c.copies k none⟩, ?_, hget, by rw [h.copies],
      effect_version hversion copy.1 now, ?_⟩
    · simp [ReadModifyWrite.step, hcopy]
    · intro i copy' hcopy'
      by_cases hi : i = k
      · subst hi
        simp at hcopy'
      · exact h.versions i copy' (by simpa [Function.update_of_ne hi] using hcopy')

theorem simulates_run {first : Task} {s t : State} {c : Cell Task Call}
    {as : List (Action Call Clocks)} (h : Simulates first s c)
    (hs : Transition.run (step first.id) s as = some t) :
    ∃ c', Transition.run (ReadModifyWrite.step effect) c as = some c' ∧ Simulates first t c' := by
  induction as generalizing s c with
  | nil =>
    obtain rfl : s = t := by simpa using hs
    exact ⟨c, rfl, h⟩
  | cons a as ih =>
    obtain ⟨u, hu, ht⟩ := Transition.run_cons_iff.mp hs
    obtain ⟨c', hc', h'⟩ := simulates_step h hu
    obtain ⟨c'', hc'', h''⟩ := ih h' ht
    exact ⟨c'', Transition.run_cons_iff.mpr ⟨c', hc', hc''⟩, h''⟩

/-- The store before any call. -/
def start (board : Board) : State := ⟨board, fun _ => none⟩

/-- After any interleaving of calls on a task, the store holds what the calls of one chain of
reads make of it when they run one after another.  The chain is a part of the saves, in their
order, with the last one; it is all of them when no save falls between the read and the save
of another call. -/
theorem interleaved_calls (board : Board) (task : Task) (htask : task ∈ board.rows)
    (as : List (Action Call Clocks)) (s : State)
    (hs : Transition.run (step task.id) (start board) as = some s) :
    ∃ chain : Cell (List (Call × Clocks)) Call,
      Transition.run (ReadModifyWrite.step push) (ReadModifyWrite.start []) as = some chain ∧
      s.board.get task.id = some (serially effect task chain.value) ∧
      chain.value.Sublist (writes (fun _ => none) as) ∧
      chain.value.getLast? = (writes (fun _ => none) as).getLast? ∧
      (Isolated [] as → chain.value = writes (fun _ => none) as) := by
  have hsim : Simulates task (start board) (ReadModifyWrite.start task) :=
    ⟨Board.get_of_mem htask, rfl, ⟨rfl, rfl, board.parents task htask⟩, by simp [ReadModifyWrite.start]⟩
  obtain ⟨c, hc, hsim'⟩ := simulates_run hsim hs
  have hcarry : Carries effect task (ReadModifyWrite.start task)
      (ReadModifyWrite.start (C := Call) ([] : List (Call × Clocks))) :=
    ⟨rfl, fun _ => rfl⟩
  obtain ⟨chain, hchain, hfinal⟩ := carries_run hcarry hc
  exact ⟨chain, hchain, by rw [hsim'.value, hfinal.1], history_start hchain⟩

/-- One pending task. -/
def lone : Board where
  rows := [⟨"t", none, "old", .pending, {}, none, none⟩]
  nodup := by simp
  parents := by simp [readParent]

def complete : Call := .updateStatus .completed none

def rename : Call := .patchTask { label := some "new" }

theorem interleaved_calls_lone :
    ∃ s, Transition.run (step "t") (start lone) [.read 0 complete, .write 0 ⟨0, 0⟩] = some s ∧
      s.board.get "t" =
        some (effect complete ⟨0, 0⟩ ⟨"t", none, "old", .pending, {}, none, none⟩) := by
  obtain ⟨chain, -, hget, -, -, hall⟩ := interleaved_calls lone _ (List.mem_singleton.mpr rfl)
    [.read 0 complete, .write 0 ⟨0, 0⟩] _ rfl
  have hchain : chain.value = [(complete, ⟨0, 0⟩)] := hall (by simp [Isolated])
  rw [hchain] at hget
  exact ⟨_, rfl, hget⟩

/-- Completing and renaming a task leave it completed, in either order. -/
theorem serially_completed (order : List (Call × Clocks)) (task : Task)
    (hcalls : ∀ e ∈ order, e.1 = complete ∨ e.1 = rename)
    (h : task.status = .completed ∨ complete ∈ order.map Prod.fst) :
    (serially effect task order).status = .completed := by
  induction order generalizing task with
  | nil => simpa [serially] using h
  | cons e order ih =>
    have hrest := fun e' he' => hcalls e' (List.mem_cons_of_mem e he')
    rcases hcalls e List.mem_cons_self with hcall | hcall
    · refine ih (effect e.1 e.2 task) hrest (Or.inl ?_)
      rw [hcall]
      rfl
    · refine ih (effect e.1 e.2 task) hrest ?_
      have hstatus : (effect e.1 e.2 task).status = task.status := by rw [hcall]; rfl
      rw [hstatus]
      rw [List.map_cons, List.mem_cons, hcall] at h
      have hne : complete ≠ rename := by simp [complete, rename]
      exact h.imp_right fun hcalls => hcalls.resolve_left hne

/-- The second save writes back the status that the first one has changed. -/
theorem update_lost :
    ∃ s, Transition.run (step "t") (start lone)
        [.read 0 complete, .read 1 rename, .write 0 ⟨0, 0⟩, .write 1 ⟨0, 0⟩] = some s ∧
      ∀ order : List (Call × Clocks), (order.map Prod.fst).Perm [complete, rename] →
        s.board.get "t" ≠
          some (serially effect ⟨"t", none, "old", .pending, {}, none, none⟩ order) := by
  refine ⟨_, rfl, fun order horder heq => ?_⟩
  have hcalls : ∀ e ∈ order, e.1 = complete ∨ e.1 = rename := by
    intro e he
    simpa using horder.mem_iff.mp (List.mem_map_of_mem he)
  have hstatus := serially_completed order ⟨"t", none, "old", .pending, {}, none, none⟩ hcalls
    (Or.inr (horder.mem_iff.mpr List.mem_cons_self))
  have hkept := congrArg (Option.map Task.status) heq
  rw [Option.map_some, hstatus] at hkept
  revert hkept
  decide

end TaskManager

/-! What `task-actions.ts` reads off a task. -/

namespace TaskActions

/-- `task.context.metadata ?? {}`. -/
def metaOf (task : Task) : Dict Json := task.context.metadata.getD []

def isOpen (task : Task) : Bool := task.status == .pending || task.status == .running

/-- `!!metaOf(t).obsolete`. -/
def isObsolete (task : Task) : Bool := ((Dict.get? (metaOf task) "obsolete").getD .null).truthy

/-- Failed with the mark that `archive` leaves. -/
def archived (task : Task) : Bool := task.status == .failed && isObsolete task

end TaskActions
end Batiste
