import Batiste.ActionWrites
import Batiste.TaskCalls

/-! `manage_task clear` next to calls that create, update and close tasks: the count, the copy of
the database and the delete are steps of their own. -/
namespace Batiste
namespace ClearBackup

open JsonText TaskActions ManageTask StoreProgram
open TaskReconciler (Records)

/-- A call of another client. -/
inductive Request
  | create (host : CallHost) (args : TaskArgs)
  | update (host : CallHost) (args : TaskArgs)
  | close (host : CallHost) (args : TaskArgs)

def Request.program (h : Handler) : Request → Program Records (Except Failure Reply)
  | .create host args => (TaskCalls.create h host args).run
  | .update host args => (TaskCalls.update h host args).run
  | .close host args => (TaskCalls.close h host args).run

/-- What `manageTask` makes of the request. -/
def Request.outcome (h : Handler) (s : Records) : Request → Records × Except Failure Reply
  | .create host args => manageTask h host .create args s
  | .update host args => manageTask h host .update args s
  | .close host args => manageTask h host .close args s

theorem Request.alone (h : Handler) (request : Request) (s : Records) :
    (request.program h).alone s = request.outcome h s := by
  cases request with
  | create host args => exact TaskCalls.create_alone s
  | update host args => exact TaskCalls.update_alone s
  | close host args => exact TaskCalls.close_alone s

/-- A request that no other call runs next to does what `manageTask` says. -/
theorem Request.uninterrupted (h : Handler) (request : Request)
    {pool : Pool Records (Except Failure Reply)} {k : ℕ}
    (hcall : pool.calls k = some (request.program h)) :
    ∃ n, Transition.run Pool.move pool (List.replicate n (.access k)) =
      some ⟨(request.outcome h pool.store).1,
        Function.update pool.calls k (some (.done (request.outcome h pool.store).2))⟩ := by
  rw [← request.alone]
  exact Pool.run_alone _ hcall

/-- How far the clear is. -/
inductive Clear
  | begun
  | confirmed
  /-- The file is written. -/
  | copied (backup : Board)
  /-- `TaskManager.clearAll` has read the tasks. -/
  | counted (backup : Board) (deletedCount : ℕ)
  | deleted (backup : Board) (rows : List Task) (reply : Reply)
  | failed (failure : Failure)

/-- The call, and the error of the folder or of the copy if there is one. -/
structure ClearCall where
  args : TaskArgs
  copyError : Option String := none

structure State where
  pool : Pool Records (Except Failure Reply)
  clear : Clear

inductive Event
  | start (k : ℕ) (request : Request)
  | access (k : ℕ)
  | clear

section Steps

variable (h : Handler) (c : ClearCall)

def expected (b : Board) : String := "APAGAR " ++ h.rt.numberText b.rows.length ++ " TAREFAS"

/-- The next operation of the clear on the store, and where the call is after it. -/
def clearStep (s : Records) : Clear → Option (Records × Clear)
  | .begun =>
    if c.args.confirm ≠ some (expected h s.board) then
      some (s, .failed (.input (clearMessage (h.rt.numberText s.board.rows.length))))
    else some (s, .confirmed)
  | .confirmed =>
    match c.copyError with
    | some message => some (s, .failed (.error message))
    | none => some (s, .copied s.board)
  | .copied backup => some (s, .counted backup s.board.rows.length)
  | .counted backup deletedCount =>
    some ({ s with board := .empty }, .deleted backup s.board.rows (.cleared deletedCount))
  | .deleted .. | .failed _ => none

def step (s : State) : Event → Option State
  | .start k request =>
    (s.pool.move (.start k (request.program h))).map fun pool => { s with pool }
  | .access k => (s.pool.move (.access k)).map fun pool => { s with pool }
  | .clear => (clearStep h c s.pool.store s.clear).map fun r =>
      ⟨{ s.pool with store := r.1 }, r.2⟩

/-- A clear that begins on some board. -/
def start (s : Records) : State := ⟨⟨s, fun _ => none⟩, .begun⟩

end Steps

/-- The file is written, and the tasks are not yet deleted. -/
def Clear.pending : Clear → Prop
  | .copied _ | .counted _ _ => True
  | _ => False

/-- No other call writes to the store between the copy and the delete. -/
def Quiet (s : State) (e : Event) : Prop :=
  ∀ k, e = .access k → s.clear.pending → ¬ s.pool.Writing k

/-- Every task that was deleted is in the file, in the state it had. -/
def Recoverable (s : State) : Prop :=
  ∀ backup rows reply, s.clear = .deleted backup rows reply →
    ∀ row ∈ rows, backup.get row.id = some row

/-- The file is the board as it is, or as it was at the delete. -/
def Kept (s : State) : Prop :=
  match s.clear with
  | .copied backup | .counted backup _ => s.pool.store.board = backup
  | .deleted backup rows _ => rows = backup.rows
  | _ => True

section Runs

variable {h : Handler} {c : ClearCall}

theorem kept_move {s : State} {m : Move Records (Except Failure Reply)}
    {pool : Pool Records (Except Failure Reply)} (hkept : Kept s)
    (hmove : s.pool.move m = some pool)
    (hquiet : ∀ k, m = .access k → s.clear.pending → ¬ s.pool.Writing k) :
    Kept { s with pool } := by
  have hstore : s.clear.pending → pool.store = s.pool.store := fun hpending =>
    Pool.move_store hmove fun k hk => hquiet k hk hpending
  obtain ⟨pool', clear⟩ := s
  cases clear with
  | copied backup => exact (congrArg _ (hstore trivial)).trans hkept
  | counted backup count => exact (congrArg _ (hstore trivial)).trans hkept
  | deleted backup rows reply => exact hkept
  | begun => trivial
  | confirmed => trivial
  | failed failure => trivial

theorem kept_step {s t : State} {e : Event} (hkept : Kept s) (hquiet : Quiet s e)
    (hstep : step h c s e = some t) : Kept t := by
  cases e with
  | start k request =>
    obtain ⟨pool, hmove, rfl⟩ := Option.map_eq_some_iff.mp hstep
    exact kept_move hkept hmove fun _ hk => nomatch hk
  | access k =>
    obtain ⟨pool, hmove, rfl⟩ := Option.map_eq_some_iff.mp hstep
    refine kept_move hkept hmove fun k' hk => hquiet k' ?_
    cases hk
    rfl
  | clear =>
    obtain ⟨⟨store, clear⟩, hclear, rfl⟩ := Option.map_eq_some_iff.mp hstep
    obtain ⟨pool, before⟩ := s
    cases before with
    | begun =>
      simp only [clearStep] at hclear
      split at hclear <;> cases hclear <;> trivial
    | confirmed =>
      simp only [clearStep] at hclear
      split at hclear <;> cases hclear
      · trivial
      · exact rfl
    | copied backup =>
      cases hclear
      exact hkept
    | counted backup count =>
      cases hclear
      exact congrArg Board.rows hkept
    | deleted backup rows reply => cases hclear
    | failed failure => cases hclear

/-- In every run in which no other call writes between the copy and the delete, what is deleted
is in the file. -/
theorem cleared_recoverable {s : Records} {events : List Event} {t : State}
    (hrun : Transition.run (step h c) (start s) events = some t)
    (hquiet : Transition.Each (step h c) (start s) events fun _ => Quiet) : Recoverable t := by
  have hbegun : Kept (start s) := trivial
  have hall : ∀ (before : List Event) (s' : State) (e : Event) (t' : State),
      Transition.run (step h c) (start s) before = some s' → Kept s' → Quiet s' e →
        step h c s' e = some t' → Kept t' :=
    fun _ _ _ _ _ hkept hok hstep => kept_step hkept hok hstep
  have hkept : Kept t := Transition.run_history (I := fun _ => Kept) hbegun hall hquiet hrun
  intro backup rows reply hdeleted row hrow
  unfold Kept at hkept
  rw [hdeleted] at hkept
  exact Board.get_of_mem (hkept ▸ hrow)

/-- A clear that nothing runs next to does what `manageTask` says. -/
theorem clear_alone (host : CallHost) (s : Records) (hcopy : c.copyError = none)
    (hconfirm : c.args.confirm = some (expected h s.board)) :
    Transition.run (step h c) (start s) [.clear, .clear, .clear, .clear] = some
      ⟨⟨(manageTask h host .clear c.args s).1, fun _ => none⟩,
        .deleted s.board s.board.rows (.cleared s.board.rows.length)⟩ ∧
      (manageTask h host .clear c.args s).2 = .ok (.cleared s.board.rows.length) := by
  have hclear : ManageTask.clear h c.args ⟨s.board, 0⟩ =
      .ok (⟨.empty, 0⟩, .cleared s.board.rows.length) := by
    unfold ManageTask.clear
    rw [hconfirm]
    exact if_neg (not_not.mpr rfl)
  have hwhole : manageTask h host .clear c.args s =
      ({ s with board := .empty }, .ok (.cleared s.board.rows.length)) := by
    simp only [manageTask, onBoard, hclear, whole]
  rw [hwhole]
  simp [Transition.run, step, clearStep, start, hconfirm, hcopy]

end Runs

/-! ## A task that is created in between -/

/-- A clear of a board with so many tasks. -/
def confirmed (count : String) : ClearCall where
  args := { confirm := some ("APAGAR " ++ count ++ " TAREFAS") }

def newTask : Request := .create (callAt 1 "t1") { label := some "deploy" }

/-- The ids that are deleted and those in the file. -/
def deletedIds : Clear → Option (List String × List String)
  | .deleted backup rows _ => some (rows.map Task.id, backup.rows.map Task.id)
  | _ => none

theorem deletedIds_eq {clear : Clear} {deleted backedUp : List String}
    (h : deletedIds clear = some (deleted, backedUp)) : ∃ backup rows reply,
      clear = .deleted backup rows reply ∧ rows.map Task.id = deleted ∧
        backup.rows.map Task.id = backedUp := by
  unfold deletedIds at h
  split at h
  · obtain ⟨hrows, hbackup⟩ := Prod.mk.inj (Option.some.inj h)
    exact ⟨_, _, _, rfl, hrows, hbackup⟩
  · cases h

/-- A board with one task is cleared, and nothing runs next to it. -/
theorem one_task_recoverable :
    ∃ t, Transition.run (step plainHandler (confirmed "1"))
        (start (handleTool plainHandler (callAt 1 "t1") (createCall "deploy") (blank none [])).1)
        [.clear, .clear, .clear, .clear] = some t ∧
      deletedIds t.clear = some (["t1"], ["t1"]) ∧ Recoverable t := by
  have hids : ((Transition.run (step plainHandler (confirmed "1"))
      (start (handleTool plainHandler (callAt 1 "t1") (createCall "deploy") (blank none [])).1)
      [.clear, .clear, .clear, .clear]).bind fun t => deletedIds t.clear) =
        some (["t1"], ["t1"]) := by
    decide +kernel
  obtain ⟨t, hrun, hdeleted⟩ := Option.bind_eq_some_iff.mp hids
  refine ⟨t, hrun, hdeleted, cleared_recoverable hrun ?_⟩
  intro pre e post s hevents _ k hk
  have hmem : e ∈ [Event.clear, .clear, .clear, .clear] :=
    hevents ▸ List.mem_append_right _ List.mem_cons_self
  rw [hk] at hmem
  simp at hmem

/-- A creation reads the empty board, which is then copied; the new task is saved before the
delete, and is in no file. -/
theorem created_task_unsaved :
    ¬ ∀ (h : Handler) (c : ClearCall) (s : Records) (events : List Event) (t : State),
      Transition.run (step h c) (start s) events = some t → Recoverable t := by
  intro hall
  have hids : ((Transition.run (step plainHandler (confirmed "0")) (start (blank none []))
      [.start 0 newTask, .access 0, .clear, .clear, .access 0, .clear, .clear]).bind fun t =>
        deletedIds t.clear) = some (["t1"], []) := by
    decide +kernel
  obtain ⟨t, hrun, hdeleted⟩ := Option.bind_eq_some_iff.mp hids
  obtain ⟨backup, rows, reply, hclear, hrows, hbackup⟩ := deletedIds_eq hdeleted
  obtain ⟨row, hrow, -⟩ := List.mem_map.mp (hrows ▸ List.mem_singleton.mpr rfl)
  have hget := hall _ _ _ _ t hrun backup rows reply hclear row hrow
  have hmem := List.mem_map_of_mem (f := Task.id) (Board.get_mem hget)
  rw [hbackup] at hmem
  exact absurd hmem List.not_mem_nil

end ClearBackup
end Batiste
