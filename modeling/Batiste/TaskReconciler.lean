import Batiste.GitLog
import Batiste.TaskManager

/-! `reconcileFromGit` of `TaskReconciler.ts`: tasks that the `Task-done:` trailers of commits
name are completed, and the sink of audit evidence is told of each.
Times are exact numbers, and the answers of `git`, of the sink and of the clocks are given. -/
namespace Batiste
namespace TaskReconciler

open GitLog

def SECONDS_PER_DAY : ℚ := 86400
def DEFAULT_STALE_DAYS : ℚ := 14
def DEFAULT_RUNNING_STALE_HOURS : ℚ := 48

structure ReconcileOptions where
  since : Option String := none
  staleDays : Option ℚ := none
  runningStaleHours : Option ℚ := none
  now : Option ℚ := none

structure Closure where
  taskId : String
  label : String
  matchedBy : String
  sha : String

structure Evidence where
  taskId : String
  label : String
  commitSha : String
  matchedBy : String

structure Unmatched where
  matchedBy : String
  sha : String

structure Ambiguous where
  matchedBy : String
  sha : String
  candidates : List String

structure StaleFlag where
  taskId : String
  label : String
  staleSince : ℤ
  ageDays : ℤ
  status : TaskStatus

structure ReconcileResult where
  closed : List Closure
  unmatched : List Unmatched
  ambiguous : List Ambiguous
  warnings : List String
  stale : List StaleFlag
  lastSha : Option String
  commitsScanned : ℕ

def isOpen (task : Task) : Bool := task.status != .completed

def computeStale (tasks : List Task) (staleDays now runningStaleHours : ℚ) : List StaleFlag :=
  let cutoff := now - staleDays * SECONDS_PER_DAY
  let runningCutoff := now - runningStaleHours * 3600
  tasks.filterMap fun task =>
    if task.status ≠ .pending ∧ task.status ≠ .running then none
    else
      task.updatedAt.bind fun updatedAt =>
        let limit := if task.status = .running then runningCutoff else cutoff
        if (updatedAt : ℚ) ≤ limit then
          some ⟨task.id, task.label, updatedAt, ⌊(now - updatedAt) / SECONDS_PER_DAY⌋, task.status⟩
        else none

structure Resolved where
  task : Option Task
  ambiguous : Option (List String) := none

/-- The only open task among the hits; a completed one when none is open. -/
def among (hits : List Task) : Resolved :=
  match hits.filter isOpen with
  | [] => { task := hits.head? }
  | [task] => { task := some task }
  | several => { task := none, ambiguous := some (several.map Task.id) }

/-- `/^[0-9a-f-]{8,}$/i`. -/
def isIdPrefix (value : List Char) : Bool :=
  decide (8 ≤ value.length) && value.all fun c =>
    c.isDigit || decide ('a' ≤ c.toLower ∧ c.toLower ≤ 'f') || c == '-'

def lower (text : String) : List Char := text.toList.map Char.toLower

/-- The tasks whose id starts with a value that can be the start of an id. -/
def idHits (value : String) (allTasks : List Task) : List Task :=
  if isIdPrefix value.toList then
    allTasks.filter fun task => (lower value).isPrefixOf (lower task.id)
  else []

/-- Full id, then id prefix, then exact label. -/
def resolveMatch (value : String) (allTasks : List Task) : Resolved :=
  match allTasks.find? fun task => task.id == value with
  | some task => { task := some task }
  | none =>
    if idHits value allTasks = [] then among (allTasks.filter fun task => task.label == value)
    else among (idHits value allTasks)

/-- What surrounds one call of `reconcileFromGit`.  `auditSink` is what the sink throws at its
`k`th call, if it throws; the task manager reads `clock k` when it closes the `k`th task. -/
structure Host where
  git : List String → Except String String
  date : ℤ
  clock : ℕ → TaskManager.Clocks
  auditSink : Option (ℕ → Option String)

/-- What is kept from one call to the next, and what the sink has recorded. -/
structure Records where
  board : Board
  lastSha : Option String
  evidence : List Evidence

inductive Failure
  | git (message : String)
  | board (message : String)
  | sink (message : String)

/-- The state of the loop over the trailers; `allTasks` is the board as it was read, with the
status of the tasks closed since. -/
structure Progress where
  board : Board
  evidence : List Evidence
  allTasks : List Task
  closedIds : List String := []
  closed : List Closure := []
  unmatched : List Unmatched := []
  ambiguous : List Ambiguous := []

def complete (taskId : String) (tasks : List Task) : List Task :=
  tasks.map fun task => if task.id = taskId then { task with status := .completed } else task

def proof (now : ℚ) (sha value : String) : Dict Json :=
  [("reconciledFromCommit", .string sha), ("reconciledAt", .number now),
    ("reconciledBy", .string value)]

/-- The status write comes first, the sink last; a sink that throws has recorded nothing. -/
def close (host : Host) (now : ℚ) (sha value : String) (task : Task) (p : Progress) :
    Except (Failure × Progress) Progress :=
  let k := p.closed.length
  match TaskManager.updateStatus (host.clock k) task.id .completed (some (proof now sha value))
      p.board with
  | .error message => .error (.board message, p)
  | .ok board =>
    let p' := { p with
      board := board
      allTasks := complete task.id p.allTasks
      closedIds := task.id :: p.closedIds
      closed := p.closed ++ [⟨task.id, task.label, value, sha⟩] }
    match host.auditSink with
    | none => .ok p'
    | some sink =>
      match sink k with
      | some message => .error (.sink message, p')
      | none => .ok { p' with evidence := p'.evidence ++ [⟨task.id, task.label, sha, value⟩] }

/-- The body of the loop, for one trailer of a commit. -/
def closeTrailer (host : Host) (now : ℚ) (p : Progress) (trailer : String × String) :
    Except (Failure × Progress) Progress :=
  let sha := trailer.1
  let value := trailer.2
  let resolved := resolveMatch value p.allTasks
  match resolved.ambiguous with
  | some candidates => .ok { p with ambiguous := p.ambiguous ++ [⟨value, sha, candidates⟩] }
  | none =>
    match resolved.task with
    | none => .ok { p with unmatched := p.unmatched ++ [⟨value, sha⟩] }
    | some task =>
      if task.status = .completed ∨ task.id ∈ p.closedIds then .ok p
      else close host now sha value task p

/-- The trailers in the order of the two loops: `git log` gives the newest commit first. -/
def trailers (commits : List ParsedCommit) : List (String × String) :=
  commits.reverse.flatMap fun commit => commit.doneTrailers.map fun value => (commit.sha, value)

def start (s : Records) : Progress :=
  { board := s.board, evidence := s.evidence, allTasks := s.board.rows }

def reconcileFromGit (repoPath : String) (host : Host) (opts : ReconcileOptions) (s : Records) :
    Records × Except Failure ReconcileResult :=
  let now := opts.now.getD (host.date / 1000 : ℤ)
  match readCommits repoPath host.git (opts.since.or s.lastSha) with
  | .error message => (s, .error (.git message))
  | .ok (commits, warnings) =>
    match (trailers commits).foldlM (closeTrailer host now) (start s) with
    | .error (failure, p) =>
      ({ s with board := p.board, evidence := p.evidence }, .error failure)
    | .ok p =>
      let lastSha := (commits.head?.map ParsedCommit.sha).or s.lastSha
      ({ board := p.board, lastSha := lastSha, evidence := p.evidence },
        .ok {
          closed := p.closed
          unmatched := p.unmatched
          ambiguous := p.ambiguous
          warnings := warnings
          stale := computeStale p.allTasks (opts.staleDays.getD DEFAULT_STALE_DAYS) now
            (opts.runningStaleHours.getD DEFAULT_RUNNING_STALE_HOURS)
          lastSha := lastSha
          commitsScanned := commits.length })

end TaskReconciler
end Batiste
