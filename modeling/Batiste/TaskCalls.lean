import Batiste.MergeEffects
import Batiste.StoreProgram

/-! The actions of `manage_task` that make, change and close one task, with each operation of the
store as a step of its own. -/
namespace Batiste
namespace TaskCalls

open JsonText TaskActions TaskMerge ManageTask StoreProgram
open StoreProgram.Program (readE writeE settled alone_readE alone_writeE alone_settled alone_bindE)
open TaskManager (Clocks Patch Call)
open TaskReconciler (Records)

abbrev StoreCall (R : Type) := ExceptT Failure (Program Records) R

def readBoard {R : Type} (f : Board → Except Failure R) : StoreCall R := readE fun s => f s.board

def getAll : StoreCall (List Task) := readBoard fun b => .ok b.rows

def save (now : ℤ) (task : Task) : StoreCall Unit :=
  writeE fun s => { s with board := s.board.save now task }

/-- `store.get(taskId)`, which has to find a task. -/
def getTask (taskId : String) : StoreCall Task :=
  readBoard fun b => match b.get taskId with
    | none => .error (.error (TaskManager.notFound taskId))
    | some task => .ok task

def perform (now : Clocks) (taskId : String) (call : Call) : StoreCall Unit := do
  let task ← getTask taskId
  save now.database (call.apply now task)

/-- The task is read again at the end; a missing one makes no difference. -/
def patchTask (now : Clocks) (taskId : String) (patch : Patch) : StoreCall Unit := do
  perform now taskId (.patchTask patch)
  readBoard fun _ => .ok ()

section Actions

variable (h : Handler) (host : CallHost) (args : TaskArgs)

/-- `spawnSubtask` reads the parent, `createRootGoal` reads nothing. -/
def findParent : StoreCall (Option String) :=
  match args.parentId.filter fun parentId => parentId ≠ "" with
  | none => pure none
  | some _ => readBoard (needParent args)

def insertTask (label : String) : StoreCall Unit := do
  let parentId ← findParent args
  save (host.clock 0).database
    { id := host.uuid, parentId, label, status := .pending
      context := { toolOutputs := some [], metadata := some [] } }
  match nonempty (createMeta h host args) with
  | some entries => patchTask (host.clock 1) host.uuid { metadata := some entries }
  | none => pure ()

def create : StoreCall Reply := do
  let label := args.label.getD ""
  let all ← getAll
  match findExisting h args label all with
  | some task => return .existing task.id
  | none =>
    match (topSimilar h args label all).filter fun top =>
        THRESHOLD_SAME ≤ top.score ∧ args.dedupeKey.getD "" = "" with
    | some top =>
      match all.find? fun task => task.id = top.taskId with
      | none =>
        throw (.error ("invariante violada: tarefa " ++ top.taskId ++ " ausente do estado"))
      | some task =>
        patchTask (host.clock 0) task.id
          { metadata := some (absorbPatch h host args label top.score (metaOf task)) }
        return .absorbed task.id top.score
    | none =>
      insertTask h host args label
      return .created host.uuid

/-- Whether `update` patches the task. -/
def patches (entries : Dict Json) : Bool := args.status.isSome || args.label.isSome || entries ≠ []

def savePatch (taskId : String) (entries : Dict Json) : StoreCall Unit :=
  if patches args entries then
    patchTask (host.clock 0) taskId
      { status := args.status
        label := args.label
        metadata := nonempty entries }
  else pure ()

/-- The save of an output, after some others. -/
def saveOutput (saves : ℕ) (taskId : String) : StoreCall Unit :=
  match args.toolOutput with
  | some toolOutput => do
    perform (host.clock saves) taskId
      (.cacheToolOutput toolOutput.toolName toolOutput.output)
    readBoard fun _ => .ok ()
  | none => pure ()

def update : StoreCall Reply := do
  let before ← readBoard fun b => need b (args.taskId.getD "")
  let entries ← settled (updateMeta h host args before)
  savePatch host args before.id entries
  saveOutput host args (if patches args entries then 1 else 0) before.id
  return .updated before.id

def close : StoreCall Reply := do
  let before ← readBoard fun b => need b (args.taskId.getD "")
  if before.status = .completed then return .alreadyClosed before.id
  settled ((checkTransition before .completed none none).mapError .input)
  let entries := Dict.spread (structured h host args (metaOf before))
    [("closed", .object [("proof", .string (args.proof.getD "")), ("at", seconds host)]),
      ("phase", .string (args.phase.getD "verified"))]
  patchTask (host.clock 0) before.id { status := some .completed, metadata := some entries }
  return .closed before.id

end Actions

/-! ## Calls that nothing runs next to -/

section Alone

variable {h : Handler} {host : CallHost} {args : TaskArgs}

/-- What the store and the answer are, by the outcome on the board. -/
def outcome {R : Type} (s : Records) : Except Failure (Session × R) → Records × Except Failure R
  | .ok (t, reply) => ({ s with board := t.board }, .ok reply)
  | .error failure => (s, .error failure)

theorem whole_outcome (s : Records) (result : Except Failure (Session × Reply)) :
    ({ s with board := (whole ⟨s.board, 0⟩ result).1.board }, (whole ⟨s.board, 0⟩ result).2) =
      outcome s result := by
  cases result <;> rfl

theorem alone_perform (clock : ℕ → Clocks) (t : Session) (taskId : String) (call : Call)
    (s : Records) (hboard : s.board = t.board) :
    (perform (clock t.saves) taskId call).run.alone s = outcome s
      (((t.perform clock taskId call).mapError Failure.error).map fun t => (t, ())) := by
  unfold perform getTask readBoard save Session.perform
  rw [alone_bindE, alone_readE, hboard]
  cases htask : t.board.get taskId with
  | none =>
    simp only [htask]
    rfl
  | some task =>
    simp only [htask, alone_writeE, hboard]
    rfl

theorem alone_patchTask (clock : ℕ → Clocks) (t : Session) (taskId : String) (patch : Patch)
    (s : Records) (hboard : s.board = t.board) :
    (patchTask (clock t.saves) taskId patch).run.alone s = outcome s
      (((t.patchTask clock taskId patch).mapError Failure.error).map fun t => (t, ())) := by
  unfold patchTask Session.patchTask
  rw [alone_bindE, alone_perform clock t taskId _ s hboard]
  cases t.perform clock taskId (.patchTask patch) <;> rfl

/-- The parent is found, or the call fails, as `needParent` says. -/
theorem alone_findParent (s : Records) :
    (findParent args).run.alone s = (s, needParent args s.board) := by
  unfold findParent
  split
  · next hnone =>
    rw [needParent, hnone]
    rfl
  · rfl

theorem alone_insertTask (label : String) (s : Records) :
    (insertTask h host args label).run.alone s = outcome s
      ((ManageTask.insertTask h host args label ⟨s.board, 0⟩).map fun t => (t, ())) := by
  unfold insertTask ManageTask.insertTask
  rw [alone_bindE, alone_findParent]
  cases hparent : needParent args s.board with
  | error failure => rfl
  | ok parentId =>
    simp only [alone_bindE, save, alone_writeE]
    cases hentries : nonempty (createMeta h host args) with
    | none => rfl
    | some entries =>
      let inserted := Session.insert host.clock ⟨s.board, 0⟩ host.uuid label parentId
      obtain ⟨createdAt, hget⟩ := Board.get_save_any s.board (host.clock 0).database
        { id := host.uuid, parentId, label, status := .pending
          context := { toolOutputs := some [], metadata := some [] } }
      obtain ⟨patched, hpatched⟩ := @patchTask_succeeds host.clock inserted host.uuid
        { metadata := some entries } (Option.isSome_iff_exists.mpr ⟨_, (hget host.uuid).trans
          (if_pos rfl)⟩)
      have halone := alone_patchTask host.clock inserted host.uuid { metadata := some entries }
        { s with board := inserted.board } rfl
      rw [hpatched] at halone
      refine halone.trans ?_
      change _ = outcome s (((Session.patchTask host.clock inserted host.uuid
        { metadata := some entries }).mapError Failure.error).map fun t => (t, ()))
      rw [hpatched]
      rfl

theorem create_alone (s : Records) :
    (create h host args).run.alone s = manageTask h host .create args s := by
  refine Eq.trans ?_ (whole_outcome s _).symm
  unfold create ManageTask.create getAll readBoard
  rw [alone_bindE, alone_readE]
  dsimp only
  cases findExisting h args (args.label.getD "") s.board.rows with
  | some task => rfl
  | none =>
    dsimp only
    cases (topSimilar h args (args.label.getD "") s.board.rows).filter fun top =>
        THRESHOLD_SAME ≤ top.score ∧ args.dedupeKey.getD "" = "" with
    | none =>
      dsimp only
      rw [alone_bindE, alone_insertTask]
      cases ManageTask.insertTask h host args (args.label.getD "") ⟨s.board, 0⟩ <;> rfl
    | some top =>
      dsimp only
      cases s.board.rows.find? fun task => task.id = top.taskId with
      | none => rfl
      | some task =>
        dsimp only
        rw [alone_bindE, alone_patchTask host.clock ⟨s.board, 0⟩ _ _ s rfl]
        cases Session.patchTask host.clock ⟨s.board, 0⟩ task.id _ <;> rfl

theorem close_alone (s : Records) :
    (close h host args).run.alone s = manageTask h host .close args s := by
  refine Eq.trans ?_ (whole_outcome s _).symm
  unfold close ManageTask.close readBoard
  rw [alone_bindE, alone_readE]
  dsimp only
  cases need s.board (args.taskId.getD "") with
  | error failure => rfl
  | ok before =>
    dsimp only
    change _ = outcome s (if before.status = .completed then _ else _)
    by_cases hclosed : before.status = .completed
    · rw [if_pos hclosed, if_pos hclosed]
      rfl
    · rw [if_neg hclosed, if_neg hclosed, alone_bindE, alone_settled]
      cases (checkTransition before .completed none none).mapError Failure.input with
      | error failure => rfl
      | ok allowed =>
        dsimp only
        rw [alone_bindE, alone_patchTask host.clock ⟨s.board, 0⟩ _ _ s rfl]
        cases Session.patchTask host.clock ⟨s.board, 0⟩ before.id _ <;> rfl

theorem alone_savePatch (taskId : String) (entries : Dict Json) (s : Records) :
    (savePatch host args taskId entries).run.alone s = outcome s
      (((ManageTask.savePatch host args taskId entries ⟨s.board, 0⟩).mapError Failure.error).map
        fun t => (t, ())) := by
  unfold savePatch ManageTask.savePatch patches
  split
  · exact alone_patchTask host.clock ⟨s.board, 0⟩ _ _ s rfl
  · rfl

theorem alone_saveOutput (t : Session) (taskId : String) (s : Records)
    (hboard : s.board = t.board) :
    (saveOutput host args t.saves taskId).run.alone s = outcome s
      (((ManageTask.saveOutput host args taskId t).mapError Failure.error).map
        fun t => (t, ())) := by
  unfold saveOutput ManageTask.saveOutput
  cases args.toolOutput with
  | none =>
    change (s, Except.ok ()) = ({ s with board := t.board }, Except.ok ())
    rw [← hboard]
  | some toolOutput =>
    dsimp only
    rw [alone_bindE, alone_perform host.clock t taskId _ s hboard]
    cases t.perform host.clock taskId _ <;> rfl

/-- The patch of a task that is there succeeds, and the task is there after it. -/
theorem savePatch_succeeds {b : Board} {taskId : String} {task : Task}
    (htask : b.get taskId = some task) (entries : Dict Json) :
    ∃ t, ManageTask.savePatch host args taskId entries ⟨b, 0⟩ = .ok t ∧
      t.saves = (if patches args entries then 1 else 0) ∧ (t.board.get taskId).isSome := by
  unfold ManageTask.savePatch patches
  split
  · have hsaved : ∀ patch, Session.patchTask host.clock ⟨b, 0⟩ taskId patch = .ok
        (Session.save host.clock ⟨b, 0⟩ ((Call.patchTask patch).apply (host.clock 0) task)) := by
      intro patch
      rw [Session.patchTask, Session.perform, htask]
    exact ⟨_, hsaved _, rfl, Option.isSome_of_eq_some (patchTask_get htask (hsaved _))⟩
  · exact ⟨_, rfl, rfl, Option.isSome_of_eq_some htask⟩

theorem update_alone (s : Records) :
    (update h host args).run.alone s = manageTask h host .update args s := by
  refine Eq.trans ?_ (whole_outcome s _).symm
  unfold update ManageTask.update readBoard
  rw [alone_bindE, alone_readE]
  dsimp only
  cases hneed : need s.board (args.taskId.getD "") with
  | error failure => rfl
  | ok before =>
    dsimp only
    rw [alone_bindE, alone_settled]
    change _ = outcome s (updateMeta h host args before >>= _)
    cases updateMeta h host args before with
    | error failure => rfl
    | ok entries =>
      have htask := need_ok hneed
      rw [← Board.get_id htask] at htask
      obtain ⟨t, hpatched, hsaves, hsome⟩ := @savePatch_succeeds host args _ _ _ htask entries
      dsimp only
      rw [alone_bindE, alone_savePatch, hpatched, ← hsaves]
      change (_ : Records × Except Failure Reply) =
        outcome s ((ManageTask.savePatch host args before.id entries ⟨s.board, 0⟩).mapError
          Failure.error >>= _)
      rw [hpatched]
      change ((saveOutput host args t.saves before.id >>= fun _ => _).run.alone
        { s with board := t.board }) = outcome s
          ((ManageTask.saveOutput host args before.id t).mapError Failure.error >>= _)
      rw [alone_bindE, alone_saveOutput t before.id _ rfl]
      obtain ⟨u, hu⟩ : ∃ u, ManageTask.saveOutput host args before.id t = .ok u := by
        unfold ManageTask.saveOutput Session.perform
        obtain ⟨task, hget⟩ := Option.isSome_iff_exists.mp hsome
        rw [hget]
        split <;> exact ⟨_, rfl⟩
      rw [hu]
      rfl

end Alone

end TaskCalls
end Batiste
