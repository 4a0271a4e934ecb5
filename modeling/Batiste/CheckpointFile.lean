import Batiste.FactIngest
import Batiste.JsonReader
import Batiste.Snapshots

/-! The checkpoint file of the ingests, `checkpoint.ts`, as the text that is in it. -/
namespace Batiste
namespace CheckpointFile

open FactIngest JsonReader Snapshots

def markJson : Mark → Json
  | .text s => .string s
  | .number n => .number n

def marksJson (marks : Dict Mark) : Json := .object (marks.map fun e => (e.1, markJson e.2))

def toJson (checkpoints : CheckpointMap) : Json :=
  .object (checkpoints.map fun e => (e.1, marksJson e.2))

/-! The casts of `loadCheckpoints`: what the parsed record holds at its declared type. -/

def mark? : Json → Option Mark
  | .string s => some (.text s)
  | .number value => if value.den = 1 ∧ 0 ≤ value then some (.number value.num.toNat) else none
  | _ => none

def marks? : Json → Option (Dict Mark)
  | .object fields => some (fields.filterMap fun e => (mark? e.2).map fun mark => (e.1, mark))
  | _ => none

def checkpointMap (fields : Dict Json) : CheckpointMap :=
  fields.filterMap fun e => (marks? e.2).map fun marks => (e.1, marks)

variable (js : Numbers)

/-- `none` where there is no file.  A text that is no record counts as an empty one. -/
def loadCheckpoints : Option (List Char) → CheckpointMap
  | none => []
  | some raw =>
    match parse js raw with
    | some (.object fields) => checkpointMap fields
    | _ => []

/-- The text that is written. -/
def saveCheckpoints (checkpoints : CheckpointMap) : List Char :=
  stringify js (toJson checkpoints) ++ ['\n']

/-! ## What can be saved -/

def Stored : Mark → Prop
  | .text _ => True
  | .number n => js.stored n

structure Proper (checkpoints : CheckpointMap) : Prop where
  sources : (checkpoints.map Prod.fst).Nodup
  keys : ∀ e ∈ checkpoints, (e.2.map Prod.fst).Nodup
  stored : ∀ e ∈ checkpoints, ∀ m ∈ e.2, Stored js m.2

variable {js}

theorem mark?_markJson (mark : Mark) : mark? (markJson mark) = some mark := by
  cases mark with
  | text s => rfl
  | number n => simp [markJson, mark?]

theorem marks?_marksJson (marks : Dict Mark) : marks? (marksJson marks) = some marks :=
  congrArg some (filterMap_cast mark?_markJson marks)

theorem Proper.valid {checkpoints : CheckpointMap} (h : Proper js checkpoints) :
    Valid js (toJson checkpoints) := by
  refine validFields_map (fun e he => validFields_map (fun m hm => ?_) (h.keys e he)) h.sources
  have hstored := h.stored e he m hm
  cases hvalue : m.2 with
  | text s => simp [markJson, Valid]
  | number n =>
    rw [hvalue] at hstored
    exact hstored

theorem loadCheckpoints_save {checkpoints : CheckpointMap} (h : Proper js checkpoints) :
    loadCheckpoints js (some (saveCheckpoints js checkpoints)) = checkpoints := by
  have hparse : parse js (saveCheckpoints js checkpoints) = some (toJson checkpoints) :=
    parse_write _ h.valid [] _ (by simp) (by simp [isSpace])
  rw [loadCheckpoints, hparse]
  exact filterMap_cast marks?_marksJson checkpoints

theorem proper_nil : Proper js [] where
  sources := List.nodup_nil
  keys := by simp
  stored := by simp

theorem Proper.set {checkpoints : CheckpointMap} (h : Proper js checkpoints) (source key : String)
    {value : Mark} (hvalue : Stored js value) :
    Proper js (setCheckpoint checkpoints source key value) := by
  have hold : ∀ marks ∈ checkpoints.get? source, (marks.map Prod.fst).Nodup ∧
      ∀ m ∈ marks, Stored js m.2 := fun marks hmarks =>
    ⟨h.keys _ (Dict.mem_of_get? hmarks), h.stored _ (Dict.mem_of_get? hmarks)⟩
  have hnew : ((((checkpoints.get? source).getD []).set key value).map Prod.fst).Nodup ∧
      ∀ m ∈ ((checkpoints.get? source).getD []).set key value, Stored js m.2 := by
    cases hget : checkpoints.get? source with
    | none =>
      refine ⟨Dict.nodup_set (d := []) List.nodup_nil key value, fun m hm => ?_⟩
      rcases Dict.mem_set hm with ⟨hmem, -⟩ | rfl
      · cases hmem
      · exact hvalue
    | some marks =>
      obtain ⟨hnodup, hstored⟩ := hold marks hget
      refine ⟨Dict.nodup_set hnodup key value, fun m hm => ?_⟩
      rcases Dict.mem_set hm with ⟨hmem, -⟩ | rfl
      · exact hstored m hmem
      · exact hvalue
  constructor
  · exact Dict.nodup_set h.sources _ _
  · intro e he
    rcases Dict.mem_set he with ⟨hmem, -⟩ | rfl
    · exact h.keys e hmem
    · exact hnew.1
  · intro e he
    rcases Dict.mem_set he with ⟨hmem, -⟩ | rfl
    · exact h.stored e hmem
    · exact hnew.2

/-! ## Runs -/

/-- The arguments of a `setCheckpoint`. -/
structure Entry where
  source : String
  key : String
  value : Mark

def setEntry (entry : Entry) (checkpoints : CheckpointMap) : CheckpointMap :=
  setCheckpoint checkpoints entry.source entry.key entry.value

variable (js) in
/-- Ingests one after another, from no file on. -/
def ingestRuns (acts : List (Act Unit Entry)) : State (List Char) CheckpointMap :=
  run (fun _ => loadCheckpoints js) setEntry (saveCheckpoints js) ⟨none, []⟩ acts

/-- What is meant: a map of marks, of which a save keeps a copy for the next start. -/
abbrev Marks := String → String → Option Mark

def noMarks : Marks := fun _ _ => none

def putEntry (entry : Entry) (marks : Marks) : Marks :=
  Function.update marks entry.source
    (Function.update (marks entry.source) entry.key (some entry.value))

def markRuns (acts : List (Act Unit Entry)) : State Marks Marks :=
  run (fun _ file => file.getD noMarks) putEntry id ⟨none, noMarks⟩ acts

theorem getCheckpoint_setEntry (entry : Entry) (checkpoints : CheckpointMap) :
    getCheckpoint (setEntry entry checkpoints) = putEntry entry (getCheckpoint checkpoints) := by
  funext source key
  unfold putEntry
  by_cases hsource : source = entry.source
  · subst hsource
    rw [Function.update_self, setEntry, getCheckpoint_set, Function.update_apply]
  · rw [Function.update_of_ne hsource, getCheckpoint, setEntry, setCheckpoint, Dict.get?_set,
      if_neg hsource]
    rfl

/-! ### Between the two: maps in place of texts -/

def reopen (_ : Unit) (file : Option CheckpointMap) : CheckpointMap := file.getD []

def mapRuns (acts : List (Act Unit Entry)) : State CheckpointMap CheckpointMap :=
  run reopen setEntry id ⟨none, []⟩ acts

theorem reopen_load (want : Unit) (file : Option CheckpointMap) (h : ∀ m ∈ file, Proper js m) :
    loadCheckpoints js (file.map (saveCheckpoints js)) = reopen want file := by
  cases file with
  | none => rfl
  | some m => exact loadCheckpoints_save (h m rfl)

theorem reopen_proper (want : Unit) (file : Option CheckpointMap) (h : ∀ m ∈ file, Proper js m) :
    Proper js (reopen want file) := by
  cases file with
  | none => exact proper_nil
  | some m => exact h m rfl

/-- The checkpoints that an ingest sees are those the last save before its start kept, with its own
marks since. -/
theorem checkpoints_kept (acts : List (Act Unit Entry))
    (hstored : ∀ entry, .edit entry ∈ acts → Stored js entry.value) :
    getCheckpoint (ingestRuns js acts).memory = (markRuns acts).memory ∧
      getCheckpoint (loadCheckpoints js (ingestRuns js acts).file) =
        (markRuns acts).file.getD noMarks := by
  have hedit : ∀ entry, .edit entry ∈ acts → ∀ m, Proper js m → Proper js (setEntry entry m) :=
    fun entry hentry m hm => hm.set entry.source entry.key (hstored entry hentry)
  have hstart : (⟨none, []⟩ : State CheckpointMap CheckpointMap).All (Proper js) :=
    ⟨proper_nil, by simp⟩
  have hruns : ingestRuns js acts = (mapRuns acts).written (saveCheckpoints js) :=
    run_written reopen_load reopen_proper hedit hstart
  have hview : (mapRuns acts).view getCheckpoint = markRuns acts :=
    run_view (fun _ file => by cases file <;> rfl) getCheckpoint_setEntry acts _
  have hsaved : ∀ m ∈ (mapRuns acts).file, Proper js m := (run_all reopen_proper hedit hstart).2
  rw [← hview, hruns]
  refine ⟨rfl, ?_⟩
  show getCheckpoint (loadCheckpoints js ((mapRuns acts).file.map _)) = _
  rw [reopen_load () _ hsaved]
  simp only [State.view]
  cases (mapRuns acts).file with
  | none => rfl
  | some m => rfl

/-- Two lines of a session are stored, the second after the last save: a new start is back at the
first. -/
def interrupted : List (Act Unit Entry) :=
  [.start (), .edit ⟨"cc-sessions", "a.jsonl", .number 12⟩, .save,
    .edit ⟨"cc-sessions", "a.jsonl", .number 40⟩, .start ()]

theorem interrupted_kept :
    getCheckpoint (ingestRuns wholeNumbers interrupted).memory "cc-sessions" "a.jsonl" =
      some (.number 12) := by
  have hkept := @checkpoints_kept wholeNumbers interrupted (by
    intro entry hentry
    simp only [interrupted, List.mem_cons, List.not_mem_nil, reduceCtorEq, Act.edit.injEq, false_or,
      or_false] at hentry
    rcases hentry with rfl | rfl
    · exact ⟨12, by norm_num, rfl⟩
    · exact ⟨40, by norm_num, rfl⟩)
  rw [hkept.1]
  simp [markRuns, interrupted, run, step, putEntry]

end CheckpointFile
end Batiste
