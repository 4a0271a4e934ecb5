import Batiste.TaskMerge
import Batiste.TaskReconciler

/-! `manageTask` of `handler.ts`: the actions of `manage_task` on the task board.
The answers of the reading actions, the audit events and the backup that `clear` makes are left
out. -/
namespace Batiste
namespace ManageTask

open JsonText TaskActions TaskMerge
open TaskManager (Clocks Patch Call)
open TaskReconciler (Records)

/-- The handler and what it is built on. -/
structure Handler where
  rt : Runtime
  sim : Similarity
  projectRoot : String

/-- What one call reads: the time in milliseconds and as text, a new id, the clocks at each of its
saves, and the answers that its reconciliation gets. -/
structure CallHost where
  now : ℤ
  nowIso : String
  uuid : String
  clock : ℕ → Clocks
  reconciler : TaskReconciler.Host

def CallHost.nowSec (host : CallHost) : ℤ := host.now / 1000

inductive Failure
  /-- `TaskInputError` -/
  | input (message : String)
  /-- `ValidationError`, with the paths of its issues -/
  | validation (paths : List String)
  | error (message : String)
  | reconcile (failure : TaskReconciler.Failure)

inductive Reply
  | existing (taskId : String)
  | absorbed (taskId : String) (score : ℚ)
  | created (taskId : String)
  | updated (taskId : String)
  | closed (taskId : String)
  | alreadyClosed (taskId : String)
  | archived (taskId : String)
  | renewed (taskId : String)
  | merged (sourceId targetId : String) (reparented : List String) (notesAppended : ℕ)
  | alreadyMerged (sourceId targetId : String)
  | candidates (items : List TriageCandidate)
  | triaged (ids : List String) (mergedPairs errors : List (String × String)) (skipped : ℤ)
  | reconciled (result : TaskReconciler.ReconcileResult)
  | cleared (deletedCount : ℕ)
  | read

/-! ## Saves -/

/-- The board during a call, and the number of its saves so far. -/
structure Session where
  board : Board
  saves : ℕ

namespace Session

variable (clock : ℕ → Clocks)

def save (s : Session) (task : Task) : Session :=
  ⟨s.board.save (clock s.saves).database task, s.saves + 1⟩

/-- A read, a change and a save. -/
def perform (s : Session) (taskId : String) (call : Call) : Except String Session :=
  match s.board.get taskId with
  | none => .error (TaskManager.notFound taskId)
  | some task => .ok (s.save clock (call.apply (clock s.saves) task))

def patchTask (s : Session) (taskId : String) (patch : Patch) : Except String Session :=
  s.perform clock taskId (.patchTask patch)

/-- `createRootGoal`, or `spawnSubtask` under a parent that has been found. -/
def insert (s : Session) (uuid label : String) (parentId : Option String) : Session :=
  s.save clock { id := uuid, parentId, label, status := .pending
                 context := { toolOutputs := some [], metadata := some [] } }

end Session

section Actions

variable (h : Handler) (host : CallHost)

def need (b : Board) (taskId : String) : Except Failure Task :=
  match b.get taskId with
  | some task => .ok task
  | none => .error (.input ("tarefa nao encontrada: " ++ taskId ++ ". Liste com \x7b\"action\":" ++
      "\"list\",\"compact\":true,\"labelPrefix\":\"...\"\x7d e use o campo id."))

/-! ## Metadata -/

def noteOf (nowIso text : String) : Json :=
  .object [("at", .string nowIso), ("text", .string text)]

def newState (args : TaskArgs) (old : Dict Json) : Option (Dict Json) :=
  args.state.map fun state => Dict.spread (fieldsOf (old.get? "state")) state

/-- `old.state ?? {}` -/
def oldState (old : Dict Json) : Json :=
  match old.get? "state" with
  | none | some .null => .object []
  | some state => state

/-- Whether the phase or the state moves. -/
def progresses (args : TaskArgs) (old : Dict Json) : Bool :=
  (match args.phase with
    | some phase => phase ≠ "" && old.get? "phase" ≠ some (.string phase)
    | none => false) ||
  match newState args old with
  | some state =>
    stringify h.rt.numberText (.object state) ≠ stringify h.rt.numberText (oldState old)
  | none => false

/-- The metadata that the common arguments write over `old`; a note is appended, and a link with
the empty text is removed. -/
def structured (args : TaskArgs) (old : Dict Json) : Dict Json :=
  field "state" ((newState args old).map Json.object) ++
    field "links" (args.links.map fun links => .object
      ((Dict.spread (fieldsOf (old.get? "links")) links).filter fun e => e.2 ≠ .string "")) ++
    field "phase" ((args.phase.filter fun phase => phase ≠ "").map Json.string) ++
    field "progressAt" (if progresses h args old then some (.number host.nowSec) else none) ++
    field "tags" (args.tags.map fun tags => .array (tags.map Json.string)) ++
    field "notes" (args.note.map fun text =>
      .array (itemsOf (old.get? "notes") ++ [noteOf host.nowIso text]))

/-- `Object.keys(meta).length ? meta : undefined` -/
def nonempty (entries : Dict Json) : Option (Dict Json) :=
  if entries = [] then none else some entries

/-! ## Create -/

def ancestors (all : List Task) : ℕ → List String → Option String → List String
  | 0, seen, _ => seen
  | _ + 1, seen, none => seen
  | fuel + 1, seen, some current =>
    if current = "" ∨ current ∈ seen then seen
    else ancestors all fuel (seen ++ [current])
      ((all.find? fun task => task.id = current).bind Task.parentId)

/-- The open task that stands for the one to be created. -/
def findExisting (args : TaskArgs) (label : String) (all : List Task) : Option Task :=
  let normLabel := fun text => h.rt.lowerCase (trimText text)
  match args.dedupeKey.filter fun key => key ≠ "" with
  | some key => all.find? fun task =>
      isOpen task && metaAt task "dedupeKey" = some (.string key)
  | none =>
    if args.allowDuplicate = some true then none
    else all.find? fun task => isOpen task && normLabel task.label = normLabel label

/-- The task to be created, as far as the similarity reads it. -/
def probe (args : TaskArgs) (label : String) : Task :=
  { id := "__novo__", label, status := .pending
    context := { metadata := some (field "state" (args.state.map Json.object) ++
      field "links" (args.links.map Json.object) ++
      field "tags" (args.tags.map fun tags => .array (tags.map Json.string)) ++
      field "notes" (args.note.map fun text => .array [.object [("text", .string text)]])) } }

/-- The most similar open task, unless duplicates are allowed. -/
def topSimilar (args : TaskArgs) (label : String) (all : List Task) : Option SimMatch :=
  if args.allowDuplicate = some true then none
  else
    let excluded := ancestors all (all.length + 2) [] args.parentId
    (h.sim.findSimilar (probe args label)
      ((all.filter isOpen).filter fun task => task.id ∉ excluded)).head?

/-- What a task that takes the place of the new one gets. -/
def absorbPatch (args : TaskArgs) (label : String) (score : ℚ) (old : Dict Json) : Dict Json :=
  let text := "[create correlato " ++ host.nowIso ++ ", score " ++ h.rt.numberText score ++ "] " ++
    label ++ match args.note with
      | some note => if note = "" then "" else " — " ++ note
      | none => ""
  field "notes" (some (.array (itemsOf (old.get? "notes") ++
      [.object [("at", .string host.nowIso), ("text", .string text),
        ("via", .string "create")]]))) ++
    field "links" (args.links.map fun links =>
      .object (Dict.spread links (fieldsOf (old.get? "links")))) ++
    field "tags" (args.tags.map fun tags =>
      .array (uniq (itemsOf (old.get? "tags") ++ tags.map Json.string)))

/-- The parent of a new task; `spawnSubtask` looks it up. -/
def needParent (args : TaskArgs) (b : Board) : Except Failure (Option String) :=
  match args.parentId.filter fun parentId => parentId ≠ "" with
  | none => .ok none
  | some parentId =>
    if (b.get parentId).isNone then .error (.error ("Parent task not found: " ++ parentId))
    else .ok (some parentId)

def createMeta (args : TaskArgs) : Dict Json :=
  structured h host args [] ++
    field "dedupeKey" ((args.dedupeKey.filter fun key => key ≠ "").map Json.string)

/-- The new task, saved once and patched with its metadata. -/
def insertTask (args : TaskArgs) (label : String) (s : Session) : Except Failure Session := do
  let parentId ← needParent args s.board
  let inserted := s.insert host.clock host.uuid label parentId
  match nonempty (createMeta h host args) with
  | some entries =>
    (inserted.patchTask host.clock host.uuid { metadata := some entries }).mapError .error
  | none => return inserted

def create (args : TaskArgs) (s : Session) : Except Failure (Session × Reply) :=
  let label := args.label.getD ""
  let all := s.board.rows
  match findExisting h args label all with
  | some task => .ok (s, .existing task.id)
  | none =>
    match (topSimilar h args label all).filter fun top =>
        THRESHOLD_SAME ≤ top.score ∧ args.dedupeKey.getD "" = "" with
    | some top =>
      match all.find? fun task => task.id = top.taskId with
      | none =>
        .error (.error ("invariante violada: tarefa " ++ top.taskId ++ " ausente do estado"))
      | some task =>
        ((s.patchTask host.clock task.id
          { metadata := some (absorbPatch h host args label top.score (metaOf task)) }).mapError
            .error).map fun s => (s, .absorbed task.id top.score)
    | none => (insertTask h host args label s).map fun s => (s, .created host.uuid)

/-! ## One task -/

def seconds : Json := .number host.nowSec

/-- The proof of a task that `update` completes. -/
def closedMeta (args : TaskArgs) (before : Task) (status : TaskStatus) :
    Except Failure (Dict Json) :=
  if status = .completed then
    match (args.proof.or args.reason).filter fun proof => proof ≠ "" with
    | none => .error (.input ("completed exige proof ou reason (ou use a acao close). Exemplo: " ++
        "\x7b\"action\":\"close\",\"taskId\":\"" ++ before.id ++
        "\",\"proof\":\"commit abc1234\"\x7d"))
    | some proof =>
      .ok (field "closed" (some (.object [("proof", .string proof), ("at", seconds host)])))
  else .ok []

def reopenedMeta (args : TaskArgs) (before : Task) : Dict Json :=
  if terminal before then
    field "reopened" (some (.object
      [("reason", .string (args.reason.getD "")), ("at", seconds host)])) ++
    field "obsolete" (if isObsolete before then some .null else none)
  else []

/-- What `update` writes when the status changes. -/
def statusMeta (args : TaskArgs) (before : Task) (status : TaskStatus) :
    Except Failure (Dict Json) := do
  (checkTransition before status args.reopen args.reason).mapError .input
  let closed ← closedMeta host args before status
  return field "progressAt" (some (seconds host)) ++ closed ++ reopenedMeta host args before

def updateMeta (args : TaskArgs) (before : Task) : Except Failure (Dict Json) :=
  let common := structured h host args (metaOf before)
  match args.status with
  | some status =>
    if status ≠ before.status then
      (statusMeta host args before status).map (Dict.spread common)
    else .ok common
  | none => .ok common

def savePatch (args : TaskArgs) (taskId : String) (entries : Dict Json) (s : Session) :
    Except String Session :=
  if args.status.isSome || args.label.isSome || entries ≠ [] then
    s.patchTask host.clock taskId
      { status := args.status
        label := args.label
        metadata := nonempty entries }
  else .ok s

def saveOutput (args : TaskArgs) (taskId : String) (s : Session) : Except String Session :=
  match args.toolOutput with
  | some toolOutput =>
    s.perform host.clock taskId (.cacheToolOutput toolOutput.toolName toolOutput.output)
  | none => .ok s

def update (args : TaskArgs) (s : Session) : Except Failure (Session × Reply) := do
  let before ← need s.board (args.taskId.getD "")
  let entries ← updateMeta h host args before
  let patched ← (savePatch host args before.id entries s).mapError .error
  let cached ← (saveOutput host args before.id patched).mapError .error
  return (cached, .updated before.id)

def close (args : TaskArgs) (s : Session) : Except Failure (Session × Reply) := do
  let before ← need s.board (args.taskId.getD "")
  if before.status = .completed then return (s, .alreadyClosed before.id)
  (checkTransition before .completed none none).mapError .input
  let entries := Dict.spread (structured h host args (metaOf before))
    [("closed", .object [("proof", .string (args.proof.getD "")), ("at", seconds host)]),
      ("phase", .string (args.phase.getD "verified"))]
  let patched ← (s.patchTask host.clock before.id
    { status := some .completed, metadata := some entries }).mapError .error
  return (patched, .closed before.id)

/-- `{ reason, at: nowSec }` -/
def obsoleteMark (reason : String) : Json :=
  .object [("reason", .string reason), ("at", seconds host)]

def archive (args : TaskArgs) (s : Session) : Except Failure (Session × Reply) := do
  let before ← need s.board (args.taskId.getD "")
  if before.status = .completed then
    throw (.input ("tarefa " ++ before.id ++
      " ja esta completed (terminal); arquivar so vale para abertas."))
  let entries := structured h host args (metaOf before) ++
    [("obsolete", obsoleteMark host (args.reason.getD ""))]
  let patched ← (s.patchTask host.clock before.id
    { status := some .failed, metadata := some entries }).mapError .error
  return (patched, .archived before.id)

/-- The number of renewals, this one included. -/
def renewals (before : Task) : ℚ :=
  match metaAt before "renewedUntil" with
  | none => 1
  | some prev =>
    match Dict.get? (fieldsOf (some prev)) "count" with
    | some (.number count) => count + 1
    | _ => if prev.truthy then 2 else 1

def renew (args : TaskArgs) (s : Session) : Except Failure (Session × Reply) := do
  let before ← need s.board (args.taskId.getD "")
  if !isOpen before then
    throw (.input ("renew so vale para tarefa aberta (esta " ++ statusName before.status ++ ")."))
  let entries := structured h host args (metaOf before) ++
    [("renewedUntil", .object [("until", .string (args.until_.getD "")),
      ("reason", .string (args.reason.getD "")), ("at", seconds host),
      ("count", .number (renewals before))])]
  let patched ← (s.patchTask host.clock before.id { metadata := some entries }).mapError .error
  return (patched, .renewed before.id)

/-! ## Merge -/

inductive MergeWrite
  | patchTarget
  | reparent (child : String)
  | patchSource
  deriving DecidableEq

/-- The writes of a merge in their order. -/
def mergeWrites (plan : MergePlan) : List MergeWrite :=
  .patchTarget :: plan.reparent.map MergeWrite.reparent ++ [.patchSource]

def mergeWrite (plan : MergePlan) (sourceId targetId : String) (s : Session) :
    MergeWrite → Except String Session
  | .patchTarget => s.patchTask host.clock targetId { metadata := some plan.targetPatch }
  | .reparent child =>
    match s.board.get child with
    | none => .ok s
    | some task => .ok (s.save host.clock { task with parentId := some targetId })
  | .patchSource =>
    s.patchTask host.clock sourceId { status := some .failed, metadata := some plan.sourcePatch }

def mergeInput (source target : Task) (reason : Option String) (all : List Task) : MergeInput where
  source
  target
  sourceChildren := all.filter fun task => task.parentId = some source.id
  all
  reason
  nowSec := host.nowSec
  nowIso := host.nowIso

def applyMerge (source target : Task) (reason : Option String) (s : Session) :
    Except Failure (Session × Reply) := do
  let plan ← (planMerge h.rt.numberText
    (mergeInput host source target reason s.board.rows)).mapError .input
  if plan.alreadyMerged then return (s, .alreadyMerged source.id target.id)
  let merged ← ((mergeWrites plan).foldlM (mergeWrite host plan source.id target.id)
    s).mapError .error
  return (merged, .merged source.id target.id plan.reparent plan.notesAppended)

def merge (args : TaskArgs) (s : Session) : Except Failure (Session × Reply) := do
  let source ← need s.board (args.sourceId.getD "")
  let target ← need s.board (args.targetId.getD "")
  applyMerge h host source target args.reason s

/-! ## Triage -/

/-- The batch so far. -/
structure Batch where
  session : Session
  applied : List String := []
  merged : List (String × String) := []
  errors : List (String × String) := []

/-- `e.message` -/
def Failure.message : Failure → String
  | .input message => message
  | .error message => message
  | _ => ""

/-- A merge of two tasks that are still open; an error is noted and the batch goes on. -/
def applyMergeCandidate (c : TriageCandidate) (targetId : String) (batch : Batch) : Batch :=
  match batch.session.board.get c.taskId, batch.session.board.get targetId with
  | some source, some target =>
    if isOpen source && isOpen target then
      match applyMerge h host source target (some ("triage: " ++ c.reason)) batch.session with
      | .ok (session, _) =>
        { batch with
          session
          merged := batch.merged ++ [(c.taskId, targetId)]
          applied := batch.applied ++ [c.taskId] }
      | .error failure => { batch with errors := batch.errors ++ [(c.taskId, failure.message)] }
    else batch
  | _, _ => batch

def applyCandidate (batch : Batch) (c : TriageCandidate) : Except (Failure × Batch) Batch :=
  match c.kind, c.mergeInto with
  | .closeParentDone, _ => .ok batch
  | .merge, some targetId => .ok (applyMergeCandidate h host c targetId batch)
  | _, _ =>
    match batch.session.patchTask host.clock c.taskId
        { status := some .failed
          metadata := some [("obsolete", obsoleteMark host ("triage: " ++ c.reason))] } with
    | .error message => .error (.error message, batch)
    | .ok session => .ok { batch with session, applied := batch.applied ++ [c.taskId] }

def triageApply (candidates : List TriageCandidate) (s : Session) :
    Session × Except Failure Reply :=
  match candidates.foldlM (applyCandidate h host) { session := s } with
  | .error (failure, batch) => (batch.session, .error failure)
  | .ok batch => (batch.session, .ok (.triaged batch.applied batch.merged batch.errors
      (candidates.length - batch.applied.length)))

def triageAction (args : TaskArgs) (s : Session) : Session × Except Failure Reply :=
  let candidates := triage h.rt h.sim s.board.rows host.nowSec args.staleDays args.minGroup
  if args.apply ≠ some true then (s, .ok (.candidates candidates))
  else if args.confirm ≠ some "TRIAGE" then
    (s, .error (.input ("triage apply exige confirm \"TRIAGE\". Exemplo: \x7b\"action\":" ++
      "\"triage\",\"apply\":true,\"confirm\":\"TRIAGE\"\x7d")))
  else triageApply h host candidates s

/-! ## The handler -/

/-- An action that fails before it writes. -/
def whole (s : Session) (result : Except Failure (Session × Reply)) :
    Session × Except Failure Reply :=
  match result with
  | .ok (s', reply) => (s', .ok reply)
  | .error failure => (s, .error failure)

def clearMessage (count : String) : String :=
  "clear apaga TODAS as " ++ count ++ " tarefas. Para confirmar envie confirm exatamente " ++
    "\"APAGAR " ++ count ++ " TAREFAS\". Para limpar so uma parte use archive (uma tarefa) ou triage. Exemplo: " ++
    "\x7b\"action\":\"clear\",\"confirm\":\"APAGAR " ++ count ++ " TAREFAS\"\x7d"

def clear (args : TaskArgs) (s : Session) : Except Failure (Session × Reply) :=
  let count := h.rt.numberText s.board.rows.length
  if args.confirm ≠ some ("APAGAR " ++ count ++ " TAREFAS") then
    .error (.input (clearMessage count))
  else .ok ({ s with board := .empty }, .cleared s.board.rows.length)

/-- The actions on the board alone. -/
def onBoard (action : TaskAction) (args : TaskArgs) (s : Session) :
    Session × Except Failure Reply :=
  match action with
  | .create => whole s (create h host args s)
  | .update => whole s (update h host args s)
  | .close => whole s (close h host args s)
  | .archive => whole s (archive h host args s)
  | .renew => whole s (renew h host args s)
  | .merge => whole s (merge h host args s)
  | .triage => triageAction h host args s
  | .clear => whole s (clear h args s)
  | .get => whole s ((need s.board (args.taskId.getD "")).map fun _ => (s, .read))
  | .list | .tree | .stale | .report | .reconcile => (s, .ok .read)

def manageTask (action : TaskAction) (args : TaskArgs) (s : Records) :
    Records × Except Failure Reply :=
  match action with
  | .reconcile =>
    let (s', result) := TaskReconciler.reconcileFromGit h.projectRoot host.reconciler
      { since := args.since, staleDays := args.staleDays } s
    (s', (result.map Reply.reconciled).mapError .reconcile)
  | action =>
    let (session, reply) := onBoard h host action args ⟨s.board, 0⟩
    ({ s with board := session.board }, reply)

/-- `handleTool('manage_task', raw)` -/
def handleTool (raw : Dict Json) (s : Records) : Records × Except Failure Reply :=
  match normalizeTaskArgs h.rt raw host.now with
  | .error message => (s, .error (.input message))
  | .ok (action, normalized, _) =>
    match validateInput normalized with
    | .error paths => (s, .error (.validation paths))
    | .ok args => manageTask h host action args s

end Actions

end ManageTask
end Batiste
