import Batiste.TaskArgs

/-! The clusters of similar tasks, from `task-similarity.ts`.  The scores are floating-point
numbers; what computes them is a parameter. -/
namespace Batiste
namespace TaskActions

open JsonText

structure SimPair where
  a : String
  b : String
  score : ℚ

structure SimMatch where
  taskId : String
  label : String
  score : ℚ

/-- The scores of pairs of tasks and of tasks against a new one, the word that `OBSOLETE_RE` finds
in a text, and the order of `localeCompare`. -/
structure Similarity where
  allPairs : List Task → ℚ → List SimPair
  scoreIndexed : List Task → String → String → ℚ
  findSimilar : Task → List Task → List SimMatch
  obsoleteWord : String → Option String
  localeLe : String → String → Bool

def THRESHOLD_SAME : ℚ := 8 / 10

/-- The place of the phase in `PHASE_RANK`. -/
def phaseRank (numberText : ℚ → String) (task : Task) : ℕ :=
  (PHASES.idxOf? (asText numberText (match Dict.get? (metaOf task) "phase" with
    | none | some .null => some (.string "todo")
    | phase => phase))).getD 0

/-- A task of the highest phase, of these the oldest, of these the first. -/
def pickTarget (numberText : ℚ → String) (tasks : List Task) : Option Task :=
  let rank := phaseRank numberText
  (tasks.insertionSort fun a b => rank b < rank a ∨
    rank a = rank b ∧ a.createdAt.getD 0 ≤ b.createdAt.getD 0).head?

structure ProposedMerge where
  sourceId : String
  targetId : String
  score : ℚ

structure SimCluster where
  members : List Task
  targetId : String
  maxEdge : ℚ
  merges : List ProposedMerge

/-! ## Union and find -/

/-- `find` with its path halving; a walk is never longer than the map. -/
def findRoot : ℕ → Dict String → String → String × Dict String
  | 0, parent, cur => (cur, parent)
  | fuel + 1, parent, cur =>
    match parent.get? cur with
    | none => (cur, parent)
    | some p =>
      if p = cur then (cur, parent)
      else
        let gp := (parent.get? p).getD p
        findRoot fuel (parent.set cur gp) gp

def find (parent : Dict String) (x : String) : String × Dict String :=
  findRoot (parent.length + 1) parent x

/-- `parent.set(find(p.a), find(p.b))` -/
def union (parent : Dict String) (p : SimPair) : Dict String :=
  let a := find parent p.a
  let b := find a.2 p.b
  b.2.set a.1 b.1

/-- A task of a pair joins the group of its root. -/
def addToGroup (pairs : List SimPair) (acc : Dict String × Dict (List Task)) (task : Task) :
    Dict String × Dict (List Task) :=
  if pairs.any fun p => p.a = task.id || p.b = task.id then
    let root := find acc.1 task.id
    (root.2, acc.2.set root.1 ((acc.2.get? root.1).getD [] ++ [task]))
  else acc

def groupsOf (pairs : List SimPair) (tasks : List Task) : Dict (List Task) :=
  (tasks.foldl (addToGroup pairs)
    (pairs.foldl union (tasks.map fun task => (task.id, task.id)), [])).2

section Cluster

variable (numberText : ℚ → String) (sim : Similarity)

/-- The other members of a group are proposed for its target; every group has a pair. -/
def clusterOf (pairs : List SimPair) (tasks members : List Task) : Option SimCluster :=
  (pickTarget numberText members).map fun target =>
    let others := members.filter fun task => task.id ≠ target.id
    let inside := fun id => members.any fun task => task.id = id
    { members := target :: others
      targetId := target.id
      maxEdge := ((pairs.filter fun p => inside p.a && inside p.b).map SimPair.score).foldl max 0
      merges := others.map fun task =>
        ⟨task.id, target.id, sim.scoreIndexed tasks task.id target.id⟩ }

def clusterSimilar (threshold : ℚ) (tasks : List Task) : List SimCluster :=
  let pairs := sim.allPairs tasks threshold
  ((groupsOf pairs tasks).filterMap fun group =>
    clusterOf numberText sim pairs tasks group.2).insertionSort fun a b =>
      b.members.length < a.members.length ∨ a.members.length = b.members.length ∧
        (b.maxEdge < a.maxEdge ∨ a.maxEdge = b.maxEdge ∧ sim.localeLe a.targetId b.targetId)

end Cluster

/-! Status changes and the candidates of `triage`, from `task-actions.ts`. -/

def statusName : TaskStatus → String
  | .pending => "pending"
  | .running => "running"
  | .completed => "completed"
  | .failed => "failed"

/-- A completed task and an archived one are terminal. -/
def terminal (task : Task) : Bool := task.status == .completed || archived task

/-- To leave a terminal status takes `reopen` and a reason. -/
def checkTransition (task : Task) (next : TaskStatus) (reopen : Option Bool)
    (reason : Option String) : Except String Unit :=
  if terminal task && next ≠ task.status && !(reopen.getD false && reason.getD "" ≠ "") then
    .error ("transicao " ++ statusName task.status ++ " -> " ++ statusName next ++ " negada: " ++
      (if task.status = .completed then "completed" else "arquivada") ++
      " e terminal. Para reabrir envie reopen:true e reason. Exemplo: \x7b\"action\":\"update\"," ++
      "\"taskId\":\"" ++ task.id ++ "\",\"status\":\"" ++ statusName next ++
      "\",\"reopen\":true,\"reason\":\"regrediu em prod\"\x7d")
  else .ok ()

/-- `/[\s:·—]/` -/
def isSeparator (c : Char) : Bool := JsString.isSpace c || c = ':' || c = '·' || c = '—'

def labelPrefix (lowerCase : String → String) (label : String) : String :=
  let first := (lowerCase (trimText label)).toList.takeWhile fun c => !isSeparator c
  String.ofList (['-'].intercalate ((first.splitOn '-').take 2))

/-! ## Triage -/

inductive CandidateKind
  | archive | merge | closeParentDone | abandonRunning
  deriving DecidableEq, Repr

structure TriageCandidate where
  kind : CandidateKind
  taskId : String
  label : String
  ageDays : ℤ
  prefix_ : String
  reason : String
  mergeInto : Option String := none
  score : Option ℚ := none
  deriving DecidableEq, Repr

section Triage

variable (rt : Runtime) (sim : Similarity)

def ageDays (task : Task) (now : ℤ) : ℤ :=
  match task.updatedAt with
  | none => 0
  | some updatedAt => (now - updatedAt) / DAY

/-- The text of a field; a field of another kind reads as the empty text. -/
def textOf : Option Json → String
  | some (.string text) => text
  | _ => ""

/-- Renewed, with a reason, up to a day that is not over and not further than a renewal reaches. -/
def renewed (now : ℤ) (task : Task) : Bool :=
  match Dict.get? (metaOf task) "renewedUntil" with
  | some (.object fields) =>
    let at_ := match Dict.get? fields "at" with
      | some (.number at_) => at_
      | _ => now
    if textOf (Dict.get? fields "until") = "" ∨
        textLength (trimText (textOf (Dict.get? fields "reason"))) < RENEW_MIN_REASON then false
    else
      match rt.parseDate (textOf (Dict.get? fields "until")) with
      | none => false
      | some time => decide (now * 1000 ≤ time ∧
          (time : ℚ) ≤ (at_ + RENEW_MAX_DAYS * DAY) * 1000 + DAY * 1000)
  | _ => false

/-- The first candidate of a task is kept. -/
def pushCandidate (out : List TriageCandidate) (c : TriageCandidate) : List TriageCandidate :=
  if out.any fun d => d.taskId = c.taskId then out else out ++ [c]

/-- `now - t.updatedAt > limit`, for a task with a time. -/
def olderThan (now : ℤ) (limit : ℚ) (task : Task) : Bool :=
  match task.updatedAt with
  | none => false
  | some updatedAt => decide (limit < ((now - updatedAt : ℤ) : ℚ))

def candidate (kind : CandidateKind) (now : ℤ) (task : Task) (reason : String) : TriageCandidate :=
  { kind
    taskId := task.id
    label := task.label
    ageDays := ageDays task now
    prefix_ := labelPrefix rt.lowerCase task.label
    reason }

def triageText (task : Task) : String :=
  task.label ++ " " ++
    stringify rt.numberText ((Dict.get? (metaOf task) "state").getD (.string ""))

def shortId (id : String) : String := String.ofList (id.toList.take 8)

def obsoleteCandidates (now : ℤ) (open_ : List Task) : List TriageCandidate :=
  open_.filterMap fun task =>
    (sim.obsoleteWord (triageText rt task)).bind fun word =>
      if renewed rt now task then none
      else some (candidate rt .archive now task
        ("marcada como obsoleta no texto (" ++ word ++ ")"))

def RUNNING_HOURS : ℚ := 48

def abandonedCandidates (now : ℤ) (open_ : List Task) : List TriageCandidate :=
  (open_.filter fun task => task.status = .running && olderThan now (RUNNING_HOURS * 3600) task &&
      !renewed rt now task).map fun task =>
    candidate rt .abandonRunning now task
      ("running sem update ha mais de " ++ rt.numberText RUNNING_HOURS ++ " h")

def mergeCandidates (now : ℤ) (tasks open_ : List Task) : List TriageCandidate :=
  (clusterSimilar rt.numberText sim THRESHOLD_SAME open_).flatMap fun cluster =>
    match tasks.find? fun task => task.id = cluster.targetId with
    | none => []
    | some target => cluster.merges.filterMap fun m =>
      (tasks.find? fun task => task.id = m.sourceId).map fun source =>
        { candidate rt .merge now source ("correlata de " ++ shortId target.id ++ " (score " ++
            rt.numberText m.score ++ ")") with
          mergeInto := some target.id
          score := some m.score }

/-- The prefixes in the order they first occur. -/
def prefixesOf (open_ : List Task) : List String :=
  (open_.map fun task => labelPrefix rt.lowerCase task.label).reverse.dedup.reverse

/-- Whole groups of a prefix that have not moved. -/
def groupCandidates (now : ℤ) (staleDays minGroup : ℚ) (open_ : List Task) :
    List TriageCandidate :=
  (prefixesOf rt open_).flatMap fun prefix_ =>
    let group := open_.filter fun task => labelPrefix rt.lowerCase task.label = prefix_
    if (group.length : ℚ) < minGroup then []
    else if !group.all (olderThan now (staleDays * DAY)) then []
    else (group.filter fun task => !renewed rt now task).map fun task =>
      candidate rt .archive now task (rt.numberText group.length ++ " abertas com prefixo '" ++
        prefix_ ++ "', todas paradas ha mais de " ++ rt.numberText staleDays ++ " dias")

def orphanCandidates (now : ℤ) (tasks open_ : List Task) : List TriageCandidate :=
  open_.filterMap fun task =>
    task.parentId.bind fun parentId =>
      (tasks.find? fun parent => parent.id = parentId).bind fun parent =>
        if parent.status = .completed then
          some (candidate rt .closeParentDone now task
            ("pai " ++ shortId parent.id ++ " ja concluido"))
        else none

/-- One candidate for each task, the oldest first. -/
def triage (tasks : List Task) (now : ℤ) (staleDays minGroup : Option ℚ) : List TriageCandidate :=
  let open_ := tasks.filter isOpen
  let all := obsoleteCandidates rt sim now open_ ++ abandonedCandidates rt now open_ ++
    mergeCandidates rt sim now tasks open_ ++
    groupCandidates rt now (staleDays.getD 60) (minGroup.getD 5) open_ ++
    orphanCandidates rt now tasks open_
  (all.foldl pushCandidate []).insertionSort fun a b => b.ageDays ≤ a.ageDays

end Triage

end TaskActions
end Batiste
