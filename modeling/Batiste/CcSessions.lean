import Batiste.FactIngest
import Batiste.Transition

/-! `batiste-fm ingest cc-sessions`: the turns of session files as facts, and the runs of the
command, whose file operations go on concurrently between their awaits. -/
namespace Batiste
namespace CcSessions

open FirmMemory FactIngest

/-! ## The lines of a session file -/

inductive Role
  | user
  | assistant
  deriving DecidableEq, Repr

def Role.text : Role → String
  | .user => "user"
  | .assistant => "assistant"

/-- A block that is no object has neither field. -/
structure ContentBlock where
  type : Option String
  text : Option String
  deriving DecidableEq, Repr

/-- `message.content` -/
inductive Content
  | text (s : String)
  | blocks (bs : List ContentBlock)
  | other
  deriving DecidableEq, Repr

/-- `message` is its content. -/
structure JsonlEvent where
  type : Option String
  uuid : Option String
  sessionId : Option String
  timestamp : Option String
  message : Option Content
  deriving DecidableEq, Repr

/-- What `JSON.parse` makes of a line: it throws, or gives an event, or a value whose fields
cannot be read. -/
inductive Parsed
  | malformed
  | event (e : JsonlEvent)
  | unreadable (message : String)
  deriving DecidableEq, Repr

/-- What the command takes from the host beside the runtime: the parser of a line, the name of a
session file without its extension, that of its directory, and its path from the home. -/
structure Host where
  runtime : Runtime
  parse : String → Parsed
  basename : String → String
  cwdDir : String → String
  relativeToHome : String → String

structure TurnRecord where
  jsonlPath : String
  cwdDir : String
  sessionId : String
  uuid : String
  role : Role
  text : String
  timestamp : String
  lineNumber : ℕ
  deriving DecidableEq, Repr

/-- `s || null` -/
def nonempty (s : String) : Option String := if s = "" then none else some s

def blockText (b : ContentBlock) : Option String :=
  if b.type = some "text" then b.text else none

def extractText (message : Option Content) : Option String :=
  match message with
  | some (.text s) => nonempty (trim s)
  | some (.blocks bs) => nonempty (trim ("\n".intercalate (bs.filterMap blockText)))
  | _ => none

def roleOf (type : Option String) : Option Role :=
  if type = some "user" then some .user
  else if type = some "assistant" then some .assistant
  else none

variable (host : Host)

/-- The turn of a line, if it has one; `now` is the clock of its reading. -/
def readLine (path now : String) (lineNumber : ℕ) (line : String) :
    Except String (Option TurnRecord) :=
  if trim line = "" then .ok none
  else
    match host.parse line with
    | .malformed => .ok none
    | .unreadable message => .error message
    | .event event =>
      match roleOf event.type, extractText event.message with
      | some role, some text => .ok (some
          { jsonlPath := path
            cwdDir := host.cwdDir path
            sessionId := event.sessionId.getD (host.basename path)
            uuid := event.uuid.getD (toString lineNumber)
            role
            text
            timestamp := event.timestamp.getD now
            lineNumber })
      | _, _ => .ok none

/-- `readTurnsFromFile`, with the lines that have been read counted. -/
def readTurns (path now : String) (fromLine : ℕ) : ℕ → List String →
    Except String (List TurnRecord)
  | _, [] => .ok []
  | n, line :: lines =>
    if n + 1 ≤ fromLine then readTurns path now fromLine (n + 1) lines
    else
      match readLine host path now (n + 1) line with
      | .error message => .error message
      | .ok turn => (readTurns path now fromLine (n + 1) lines).map (turn.toList ++ ·)

def hitTags (hits : List (String × ℕ)) : List String :=
  if hits = [] then [] else ["scrubbed:" ++ ",".intercalate (hits.map Prod.fst)]

def factId (turn : TurnRecord) : String :=
  shortHash host.runtime
    (turn.sessionId ++ "::" ++ turn.uuid ++ "::" ++ (scrub host.runtime turn.text).text)

/-- The first characters of a text. -/
def firstChars (n : ℕ) (s : String) : String := String.ofList (s.toList.take n)

def turnTitle (turn : TurnRecord) : String :=
  let titleSrc := trim (host.runtime.replaceAll "\\s+" " " (scrub host.runtime turn.text).text)
  let title := if titleSrc.length > 80 then firstChars 80 titleSrc ++ "…" else titleSrc
  if title = "" then turn.role.text ++ " turn " ++ firstChars 6 turn.uuid else title

/-- The directory name as the path it stands for. -/
def workstreamOf (cwdDir : String) : String :=
  String.ofList ((cwdDir.toList.dropWhile fun c => c = '-').map fun c => if c = '-' then '/' else c)

def turnToFact (turn : TurnRecord) (now : String) : FactEntry where
  id := factId host turn
  title := turnTitle host turn
  group := .observation
  body := (scrub host.runtime turn.text).text
  sensitivity := .confidential
  tags := ["source:cc-jsonl", "session:" ++ firstChars 8 turn.sessionId, "role:" ++ turn.role.text,
    "cwd:" ++ turn.cwdDir] ++ hitTags (scrub host.runtime turn.text).hits
  rest :=
    { counterparty := none
      workstream := some (workstreamOf turn.cwdDir)
      vault_ref := some (host.relativeToHome turn.jsonlPath ++ "#L" ++ toString turn.lineNumber)
      audit_ref := none }
  created_at := turn.timestamp
  updated_at := now

/-! ## Runs -/

/-- Where the operation of a file stands. -/
inductive Phase
  | waiting
  /-- at the head of its loop -/
  | looping (turns : List TurnRecord) (lastLineProcessed : ℕ)
  /-- it has found no fact of the same body and puts its own -/
  | putting (fact : FactEntry) (turn : TurnRecord) (rest : List TurnRecord)
      (lastLineProcessed : ℕ)
  /-- it writes the checkpoints -/
  | saving (checkpoints : CheckpointMap)
  | finished
  | failed
  deriving DecidableEq

def Phase.over : Phase → Bool
  | .finished | .failed => true
  | _ => false

/-- The session files by their paths, the firm memory, the checkpoint file, and the run. -/
structure State (Vector : Type) where
  content : String → List String
  facts : Table FactKind FactRest Vector
  saved : CheckpointMap
  checkpoints : CheckpointMap
  maxTurns : ℕ
  processedTurns : ℕ
  ops : Dict Phase

variable {Vector : Type}

def init (content : String → List String) : State Vector where
  content := content
  facts := ⟨[], []⟩
  saved := []
  checkpoints := []
  maxTurns := 0
  processedTurns := 0
  ops := []

def markLine : Option Mark → ℕ
  | some (.number n) => n
  | _ => 0

def fromLine (checkpoints : CheckpointMap) (path : String) : ℕ :=
  markLine (getCheckpoint checkpoints "cc-sessions" path)

def State.overBudget (s : State Vector) : Bool :=
  decide (0 < s.maxTurns ∧ s.maxTurns ≤ s.processedTurns)

def State.setPhase (s : State Vector) (path : String) (phase : Phase) : State Vector :=
  { s with ops := s.ops.set path phase }

/-- A put that fails has written its row, or not. -/
inductive PutOutcome
  | stored
  | refused
  | storedThenFailed
  deriving DecidableEq, Repr

/-- A write of the checkpoint file that overlaps another one, or is torn, leaves no JSON. -/
inductive SaveOutcome
  | saved
  | overlapped
  | torn
  | refused
  deriving DecidableEq, Repr

inductive Action
  /-- a run over the discovered files starts -/
  | begin (paths : List String) (maxTurns : ℕ)
  /-- the operation of a file looks at the budget and reads the file -/
  | read (path now : String)
  /-- the head of its loop, with the lookup of the next fact -/
  | look (path now : String)
  | put (path now : String) (outcome : PutOutcome)
  | save (path : String) (outcome : SaveOutcome)
  | crash (torn : Bool)
  | grow (path : String) (lines : List String)
  deriving DecidableEq

/-- Lines are appended; a last line that is cut off and no turn yet may become another one. -/
def grows (path : String) (old new : List String) : Bool :=
  old.isPrefixOf new ||
    match old.getLast? with
    | none => false
    | some cut => decide (readLine host path "" old.length cut = .ok none) &&
        old.dropLast.isPrefixOf new

/-- `setCheckpoint` and the start of the write that follows it. -/
def finalize (s : State Vector) (path : String) (lastLineProcessed : ℕ) : State Vector :=
  let checkpoints := setCheckpoint s.checkpoints "cc-sessions" path (.number lastLineProcessed)
  { s.setPhase path (.saving checkpoints) with checkpoints }

variable (engine : Engine Vector) (namespace_ : String)

/-- One turn is done. -/
def advance (s : State Vector) (path : String) (turn : TurnRecord) (rest : List TurnRecord)
    (lastLineProcessed : ℕ) : State Vector :=
  { s.setPhase path (.looping rest (max lastLineProcessed turn.lineNumber)) with
    processedTurns := s.processedTurns + 1 }

def lookStep (s : State Vector) (path now : String) (turns : List TurnRecord)
    (lastLineProcessed : ℕ) : State Vector :=
  match turns with
  | [] => finalize s path lastLineProcessed
  | turn :: rest =>
    if s.overBudget then finalize s path lastLineProcessed
    else
      let fact := turnToFact host turn now
      if isStored namespace_ s.facts fact then advance s path turn rest lastLineProcessed
      else s.setPhase path (.putting fact turn rest lastLineProcessed)

def putStep (s : State Vector) (path now : String) (fact : FactEntry) (turn : TurnRecord)
    (rest : List TurnRecord) (lastLineProcessed : ℕ) : PutOutcome → State Vector
  | .stored =>
    { advance s path turn rest lastLineProcessed with
      facts := SqliteFactStore.put engine namespace_ s.facts fact now }
  | .refused => s.setPhase path .failed
  | .storedThenFailed =>
    { s.setPhase path .failed with
      facts := SqliteFactStore.put engine namespace_ s.facts fact now }

def saveStep (s : State Vector) (path : String) (checkpoints : CheckpointMap) :
    SaveOutcome → State Vector
  | .saved => { s.setPhase path .finished with saved := checkpoints }
  | .overlapped => { s.setPhase path .finished with saved := [] }
  | .torn => { s.setPhase path .failed with saved := [] }
  | .refused => s.setPhase path .failed

def readStep (s : State Vector) (path now : String) : State Vector :=
  if s.overBudget then s.setPhase path .finished
  else
    match readTurns host path now (fromLine s.checkpoints path) 0 (s.content path) with
    | .error _ => s.setPhase path .failed
    | .ok [] => s.setPhase path .finished
    | .ok turns => s.setPhase path (.looping turns (fromLine s.checkpoints path))

def step (s : State Vector) : Action → Option (State Vector)
  | .begin paths maxTurns =>
    if s.ops.all (fun op => op.2.over) ∧ paths.Nodup then some { s with
      checkpoints := s.saved
      maxTurns
      processedTurns := 0
      ops := paths.map fun path => (path, .waiting) }
    else none
  | .read path now =>
    match s.ops.get? path with
    | some .waiting => some (readStep host s path now)
    | _ => none
  | .look path now =>
    match s.ops.get? path with
    | some (.looping turns last) => some (lookStep host namespace_ s path now turns last)
    | _ => none
  | .put path now outcome =>
    match s.ops.get? path with
    | some (.putting fact turn rest last) =>
      some (putStep engine namespace_ s path now fact turn rest last outcome)
    | _ => none
  | .save path outcome =>
    match s.ops.get? path with
    | some (.saving checkpoints) => some (saveStep s path checkpoints outcome)
    | _ => none
  | .crash torn => some { s with ops := [], saved := if torn then [] else s.saved }
  | .grow path lines =>
    if grows host path (s.content path) lines then
      some { s with content := Function.update s.content path lines }
    else none

end CcSessions

/-! The turns of a session file: what a reading finds, and what growth leaves of them. -/

namespace CcSessions

open FirmMemory FactIngest

variable (host : Host)

/-- The turn of a line; one without a time has none here. -/
def lineTurn (path : String) (lineNumber : ℕ) (line : String) : Option TurnRecord :=
  match readLine host path "" lineNumber line with
  | .ok turn => turn
  | .error _ => none

def turnsFrom (path : String) : ℕ → List String → List TurnRecord
  | _, [] => []
  | n, line :: lines => (lineTurn host path (n + 1) line).toList ++ turnsFrom path (n + 1) lines

/-- The turns of a session file. -/
def sessionTurns (path : String) (lines : List String) : List TurnRecord :=
  turnsFrom host path 0 lines

/-- A turn as it is read at some time. -/
structure Reading (read turn : TurnRecord) : Prop where
  same : { read with timestamp := "" } = { turn with timestamp := "" }
  time : turn.timestamp = "" ∨ read.timestamp = turn.timestamp

/-- The fact of a turn, without its times. -/
def projected (turn : TurnRecord) : FactEntry := undated (turnToFact host turn "")

variable {host}

theorem undated_turnToFact (turn : TurnRecord) (now : String) :
    undated (turnToFact host turn now) = projected host turn := rfl

theorem Reading.lineNumber {read turn : TurnRecord} (h : Reading read turn) :
    read.lineNumber = turn.lineNumber := by
  have hsame := congrArg (fun t : TurnRecord => t.lineNumber) h.same
  exact hsame

theorem Reading.projected {read turn : TurnRecord} (h : Reading read turn) :
    projected host read = projected host turn := by
  have hsame := congrArg (CcSessions.projected host) h.same
  exact hsame

theorem Reading.factId {read turn : TurnRecord} (h : Reading read turn) :
    factId host read = factId host turn := by
  have hsame := congrArg (CcSessions.factId host) h.same
  exact hsame

theorem readLine_lineNumber {path now line : String} {n : ℕ} {turn : TurnRecord}
    (h : readLine host path now n line = .ok (some turn)) : turn.lineNumber = n := by
  unfold readLine at h
  split at h
  · cases h
  · split at h
    · cases h
    · cases h
    · split at h
      · cases h
        rfl
      · cases h

/-- The clock of a reading only shows in the time of a turn that has none. -/
theorem readLine_lineTurn {path now line : String} {n : ℕ} {turn : Option TurnRecord}
    (h : readLine host path now n line = .ok turn) :
    List.Forall₂ Reading turn.toList (lineTurn host path n line).toList := by
  unfold lineTurn
  unfold readLine at h ⊢
  by_cases hblank : trim line = ""
  · rw [if_pos hblank] at h ⊢
    cases h
    exact .nil
  · rw [if_neg hblank] at h ⊢
    cases hparse : host.parse line with
    | malformed =>
      rw [hparse] at h
      cases h
      exact .nil
    | unreadable message =>
      rw [hparse] at h
      cases h
    | event event =>
      rw [hparse] at h
      dsimp only at h ⊢
      cases hrole : roleOf event.type with
      | none =>
        rw [hrole] at h
        cases h
        exact .nil
      | some role =>
        rw [hrole] at h
        cases htext : extractText event.message with
        | none =>
          rw [htext] at h
          cases h
          exact .nil
        | some text =>
          rw [htext] at h
          cases h
          refine .cons ⟨rfl, ?_⟩ .nil
          cases event.timestamp with
          | none => exact .inl rfl
          | some time => exact .inr rfl

theorem lineTurn_lineNumber {path line : String} {n : ℕ} {turn : TurnRecord}
    (h : lineTurn host path n line = some turn) : turn.lineNumber = n := by
  unfold lineTurn at h
  split at h
  · rename_i found hfound
    exact readLine_lineNumber (h ▸ hfound)
  · cases h

/-- The turns stand in the order of their lines. -/
theorem turnsFrom_sorted (path : String) (n : ℕ) (lines : List String) :
    (∀ turn ∈ turnsFrom host path n lines, n < turn.lineNumber) ∧
      (turnsFrom host path n lines).Pairwise fun a b => a.lineNumber < b.lineNumber := by
  induction lines generalizing n with
  | nil => simp [turnsFrom]
  | cons line lines ih =>
    obtain ⟨hlater, hsorted⟩ := ih (n + 1)
    have hline : ∀ turn ∈ (lineTurn host path (n + 1) line).toList, turn.lineNumber = n + 1 :=
      fun turn hturn => lineTurn_lineNumber (Option.mem_toList.mp hturn)
    rw [turnsFrom]
    refine ⟨fun turn hturn => ?_, List.pairwise_append.mpr ⟨?_, hsorted, fun a ha b hb => ?_⟩⟩
    · rcases List.mem_append.mp hturn with hturn | hturn
      · have := hline turn hturn
        omega
      · have := hlater turn hturn
        omega
    · cases lineTurn host path (n + 1) line <;> simp
    · have := hline a ha
      have := hlater b hb
      omega

theorem turnsFrom_append (path : String) (n : ℕ) (xs ys : List String) :
    turnsFrom host path n (xs ++ ys) =
      turnsFrom host path n xs ++ turnsFrom host path (n + xs.length) ys := by
  induction xs generalizing n with
  | nil => rfl
  | cons x xs ih =>
    rw [List.cons_append, turnsFrom, turnsFrom, ih, List.append_assoc, List.length_cons,
      Nat.add_assoc, Nat.add_comm 1]

/-- A reading finds the turns behind its line. -/
theorem readTurns_eq {path now : String} {fromLine n : ℕ} {lines : List String}
    {turns : List TurnRecord} (h : readTurns host path now fromLine n lines = .ok turns) :
    List.Forall₂ Reading turns
      ((turnsFrom host path n lines).filter fun turn => decide (fromLine < turn.lineNumber)) := by
  induction lines generalizing n turns with
  | nil =>
    cases h
    exact .nil
  | cons line lines ih =>
    rw [readTurns] at h
    rw [turnsFrom, List.filter_append]
    have hline : ∀ turn ∈ (lineTurn host path (n + 1) line).toList, turn.lineNumber = n + 1 :=
      fun turn hturn => lineTurn_lineNumber (Option.mem_toList.mp hturn)
    split_ifs at h with hbefore
    · have hnone : (lineTurn host path (n + 1) line).toList.filter
          (fun turn => decide (fromLine < turn.lineNumber)) = [] := by
        rw [List.filter_eq_nil_iff]
        intro turn hturn
        have := hline turn hturn
        simp only [decide_eq_true_eq]
        omega
      rw [hnone, List.nil_append]
      exact ih h
    · cases hread : readLine host path now (n + 1) line with
      | error message =>
        rw [hread] at h
        cases h
      | ok turn =>
        rw [hread] at h
        have hall : (lineTurn host path (n + 1) line).toList.filter
            (fun turn => decide (fromLine < turn.lineNumber)) =
            (lineTurn host path (n + 1) line).toList := by
          rw [List.filter_eq_self]
          intro turn hturn
          have := hline turn hturn
          simp only [decide_eq_true_eq]
          omega
        rw [hall]
        cases hrest : readTurns host path now fromLine (n + 1) lines with
        | error message =>
          rw [hrest] at h
          cases h
        | ok rest =>
          rw [hrest] at h
          cases h
          exact List.rel_append (readLine_lineTurn hread) (ih hrest)

/-- Growth only adds turns, behind those there are. -/
theorem sessionTurns_grows {path : String} {old new : List String}
    (h : grows host path old new = true) :
    ∃ more, sessionTurns host path new = sessionTurns host path old ++ more := by
  rw [grows, Bool.or_eq_true] at h
  rcases h with hprefix | hcut
  · obtain ⟨rest, rfl⟩ := List.isPrefixOf_iff_prefix.mp hprefix
    exact ⟨_, turnsFrom_append path 0 old rest⟩
  · split at hcut
    · cases hcut
    · rename_i cut hlast
      rw [Bool.and_eq_true, decide_eq_true_iff] at hcut
      obtain ⟨hnone, hinit⟩ := hcut
      obtain ⟨rest, rfl⟩ := List.isPrefixOf_iff_prefix.mp hinit
      have hold : old = old.dropLast ++ [cut] := by
        obtain ⟨front, rfl⟩ := List.getLast?_eq_some_iff.mp hlast
        simp
      have hsame : sessionTurns host path old = sessionTurns host path old.dropLast := by
        have hlength : old.dropLast.length + 1 = old.length := by
          conv_rhs => rw [hold]
          simp
        conv_lhs => rw [hold]
        rw [sessionTurns, turnsFrom_append, turnsFrom, Nat.zero_add, hlength, lineTurn, hnone]
        simp [turnsFrom, sessionTurns]
      rw [hsame]
      exact ⟨_, turnsFrom_append path 0 old.dropLast rest⟩

end CcSessions
end Batiste
