import Batiste.FactIngest

/-! `batiste-fm ingest drive`: the files of a folder as facts, over a history of changes of the
folder and runs of the command. -/
namespace Batiste
namespace DriveIngest

open FirmMemory FactIngest

structure DriveFile where
  id : String
  name : String
  mimeType : String
  size : Option String := none
  createdTime : Option String := none
  modifiedTime : Option String := none
  webViewLink : Option String := none
  parents : Option (List String) := none
  trashed : Bool := false
deriving DecidableEq, Repr

structure DriveFolder where
  id : String
  name : String
deriving DecidableEq, Repr

/-- A line for a field that has a text. -/
def line (label : String) (field : Option String) : List String :=
  match field with
  | some text => if text = "" then [] else [label ++ text]
  | none => []

def renderFileMetadata (file : DriveFile) : String :=
  "\n".intercalate (["id: " ++ file.id, "name: " ++ file.name, "mimeType: " ++ file.mimeType] ++
    line "size: " file.size ++ line "createdTime: " file.createdTime ++
    line "modifiedTime: " file.modifiedTime ++ line "webViewLink: " file.webViewLink ++
    match file.parents with
    | some (parent :: parents) => ["parents: [" ++ ", ".intercalate (parent :: parents) ++ "]"]
    | _ => [])

/-- What a run of the command is given, with the clock of the projection and of the puts; a run
that throws does so after some number of facts. -/
structure Run where
  folderId : String
  folder : DriveFolder
  workstream : Option String := none
  now : String
  clock : ℕ → String
  throwsAfter : Option ℕ := none

variable (runtime : Runtime)

def factId (file : DriveFile) : String := shortHash runtime ("drive:" ++ file.id)

def fileBody (file : DriveFile) : String := (scrub runtime (renderFileMetadata file)).text

def fileToFact (r : Run) (file : DriveFile) : FactEntry where
  id := factId runtime file
  title := file.name
  group := .precedent
  body := fileBody runtime file
  sensitivity := .confidential
  tags := ["source:drive", "mime:" ++ file.mimeType, "folder:" ++ r.folder.name]
  rest :=
    { counterparty := none
      workstream := some ((r.workstream.filter fun w => w != "").getD
        (kebabCase runtime r.folder.name))
      vault_ref := some (file.webViewLink.getD ("drive://" ++ file.id))
      audit_ref := none }
  created_at := file.createdTime.getD r.now
  updated_at := file.modifiedTime.getD r.now

/-- One entry per non-trashed file. -/
def projectFolderToFacts (r : Run) (files : List DriveFile) : List FactEntry :=
  (files.filter fun file => !file.trashed).map (fileToFact runtime r)

-- how the service compares the time of a file with the floor of a query
variable (isAfter : Option String → String → Bool)

/-- The files of the folder that the service lists, in its order. -/
def listFolderFiles (files : List DriveFile) (modifiedTimeFloor : Option Mark) : List DriveFile :=
  (files.filter fun file => !file.trashed).filter fun file =>
    match modifiedTimeFloor with
    | some (.text floor) => floor == "" || isAfter file.modifiedTime floor
    | some (.number floor) => floor == 0 || isAfter file.modifiedTime (toString floor)
    | none => true

structure Tally where
  imported : ℕ := 0
  skipped : ℕ := 0
  lastModifiedTime : String := ""
deriving Repr, DecidableEq

variable {Vector : Type}

/-- The firm memory and the checkpoints on disk. -/
structure Memory (Vector : Type) where
  facts : Table FactKind FactRest Vector
  checkpoints : CheckpointMap

/-- The time of the first file of the fact, when it is the latest so far. -/
def laterTime (files : List DriveFile) (fact : FactEntry) (lastModifiedTime : String) : String :=
  match (files.find? fun file => factId runtime file == fact.id).bind DriveFile.modifiedTime with
  | none => lastModifiedTime
  | some time => if time ≠ "" ∧ lastModifiedTime < time then time else lastModifiedTime

variable (engine : Engine Vector) (namespace_ : String)

/-- One round of the loop over the facts. -/
def ingestFact (r : Run) (files : List DriveFile) (s : Table FactKind FactRest Vector × Tally)
    (fact : FactEntry) : Table FactKind FactRest Vector × Tally :=
  let tally := { s.2 with lastModifiedTime := laterTime runtime files fact s.2.lastModifiedTime }
  let facts := offer engine namespace_ s.1 fact (r.clock (tally.imported + tally.skipped))
  if isStored namespace_ s.1 fact then (facts, { tally with skipped := tally.skipped + 1 })
  else (facts, { tally with imported := tally.imported + 1 })

def ingestFacts (r : Run) (files : List DriveFile) (facts : List FactEntry)
    (table : Table FactKind FactRest Vector) : Table FactKind FactRest Vector × Tally :=
  facts.foldl (ingestFact runtime engine namespace_ r files) (table, {})

def listed (r : Run) (files : List DriveFile) (memory : Memory Vector) : List DriveFile :=
  listFolderFiles isAfter files (getCheckpoint memory.checkpoints "drive" r.folderId)

def ingest (r : Run) (files : List DriveFile) (memory : Memory Vector) : Memory Vector :=
  let found := listed isAfter r files memory
  let facts := projectFolderToFacts runtime r found
  match r.throwsAfter with
  | some rounds =>
    { memory with
      facts := (ingestFacts runtime engine namespace_ r found (facts.take rounds)
        memory.facts).1 }
  | none =>
    let result := ingestFacts runtime engine namespace_ r found facts memory.facts
    { facts := result.1
      checkpoints :=
        if result.2.lastModifiedTime = "" then memory.checkpoints
        else setCheckpoint memory.checkpoints "drive" r.folder.id
          (.text result.2.lastModifiedTime) }

/-- The folder as it is, and the memory. -/
structure State (Vector : Type) where
  files : List DriveFile
  memory : Memory Vector

/-- Files come, go and change in any way between two runs. -/
inductive Event
  | change (files : List DriveFile)
  | ingest (r : Run)

def step (s : State Vector) : Event → State Vector
  | .change files => { s with files }
  | .ingest r => { s with memory := ingest runtime isAfter engine namespace_ r s.files s.memory }

def run (history : List Event) (s : State Vector) : State Vector :=
  history.foldl (step runtime isAfter engine namespace_) s

/-- What a fact shows of its file. -/
def face (fact : FactEntry) : String × String := (fact.title, fact.body)

/-- A fact is stored that shows the file. -/
def Shown (r : Run) (memory : Memory Vector) (file : DriveFile) : Prop :=
  ∃ fact, FirmMemory.get namespace_ memory.facts (factId runtime file) = some fact ∧
    face fact = face (fileToFact runtime r file)

/-- Every non-trashed file of the folder has a fact that shows it. -/
def NothingMissing (r : Run) (s : State Vector) : Prop :=
  ∀ file ∈ s.files, file.trashed = false → Shown runtime namespace_ r s.memory file

/-- The file is one of those the service lists, or no listed file has its fact id and it is shown
already. -/
def Reached (r : Run) (s : State Vector) (file : DriveFile) : Prop :=
  (∃ other ∈ listed isAfter r s.files s.memory, factId runtime other = factId runtime file ∧
    face (fileToFact runtime r other) = face (fileToFact runtime r file)) ∨
  (∀ other ∈ listed isAfter r s.files s.memory, factId runtime other ≠ factId runtime file) ∧
    Shown runtime namespace_ r s.memory file

/-- Every non-trashed file is reached; listed files with one fact id show the same, and so does a
stored fact that has the id and the body of a listed file. -/
structure Reaches (r : Run) (s : State Vector) : Prop where
  reached : ∀ file ∈ s.files, file.trashed = false →
    Reached runtime isAfter namespace_ r s file
  one : ∀ file ∈ listed isAfter r s.files s.memory, ∀ other ∈ listed isAfter r s.files s.memory,
    factId runtime file = factId runtime other →
      face (fileToFact runtime r other) = face (fileToFact runtime r file)
  stored : ∀ file ∈ listed isAfter r s.files s.memory, ∀ fact,
    FirmMemory.get namespace_ s.memory.facts (factId runtime file) = some fact →
      fact.body = fileBody runtime file → face fact = face (fileToFact runtime r file)

/-- The projection of some files, keyed and without the times. -/
def offers (r : Run) (files : List DriveFile) : List (String × FactEntry) :=
  (projectFolderToFacts runtime r files).map fun fact => (fact.id, undated fact)

theorem mem_offers {r : Run} {files : List DriveFile} {e : String × FactEntry} :
    e ∈ offers runtime r files ↔ ∃ file ∈ files, file.trashed = false ∧
      e = (factId runtime file, undated (fileToFact runtime r file)) := by
  simp only [offers, projectFolderToFacts, List.map_map, List.mem_map, List.mem_filter,
    Bool.not_eq_true', and_assoc]
  exact exists_congr fun file => and_congr_right fun _ => and_congr_right fun _ => eq_comm

/-- Files in the trash are not listed. -/
theorem mem_listed {r : Run} {files : List DriveFile} {memory : Memory Vector} {file : DriveFile}
    (h : file ∈ listed isAfter r files memory) : file ∈ files ∧ file.trashed = false := by
  unfold listed listFolderFiles at h
  have hmem := List.mem_filter.mp (List.mem_filter.mp h).1
  exact ⟨hmem.1, by simpa using hmem.2⟩

theorem listed_offered {r : Run} {files : List DriveFile} {memory : Memory Vector}
    {file : DriveFile} (h : file ∈ listed isAfter r files memory) :
    (factId runtime file, undated (fileToFact runtime r file)) ∈
      offers runtime r (listed isAfter r files memory) :=
  (mem_offers runtime).mpr ⟨file, h, (mem_listed isAfter h).2, rfl⟩

theorem face_body {v w : FactEntry} (h : face v = face w) : v.body = w.body :=
  congrArg Prod.snd h

/-- The loop of a run that returns offers the listed files one after another. -/
theorem stored_ingest {r : Run} (hreturns : r.throwsAfter = none) (files : List DriveFile)
    (memory : Memory Vector) :
    stored namespace_ (ingest runtime isAfter engine namespace_ r files memory).facts =
      KeyedOffer.offerAll Entry.body (stored namespace_ memory.facts)
        (offers runtime r (listed isAfter r files memory)) := by
  have hstep : ∀ (s : Table FactKind FactRest Vector × Tally) (fact : FactEntry), ∃ now,
      (ingestFact runtime engine namespace_ r (listed isAfter r files memory) s fact).1 =
        offer engine namespace_ s.1 fact now := by
    intro s fact
    unfold ingestFact
    dsimp only
    split
    · exact ⟨_, rfl⟩
    · exact ⟨_, rfl⟩
  unfold ingest
  rw [hreturns]
  exact stored_foldl hstep _ (memory.facts, {})

/-- A file is shown by a stored fact, with or without its times. -/
theorem shown_iff {r : Run} {memory : Memory Vector} {file : DriveFile} :
    Shown runtime namespace_ r memory file ↔
      ∃ w, stored namespace_ memory.facts (factId runtime file) = some w ∧
        face w = face (fileToFact runtime r file) := by
  unfold Shown stored
  cases FirmMemory.get namespace_ memory.facts (factId runtime file) <;> simp [face, undated]

section OneRun

variable {runtime isAfter engine namespace_}
variable {r : Run} {s : State Vector}

/-- A file whose fact id no listed file has is shown after the run if it was before. -/
theorem shown_unlisted (hreturns : r.throwsAfter = none) {file : DriveFile}
    (hother : ∀ other ∈ listed isAfter r s.files s.memory,
      factId runtime other ≠ factId runtime file) :
    Shown runtime namespace_ r (ingest runtime isAfter engine namespace_ r s.files s.memory) file ↔
      Shown runtime namespace_ r s.memory file := by
  have hkeys : ∀ e ∈ offers runtime r (listed isAfter r s.files s.memory),
      factId runtime file ≠ e.1 := by
    intro e he
    obtain ⟨other, hmem, -, rfl⟩ := (mem_offers runtime).mp he
    exact (hother other hmem).symm
  rw [shown_iff, shown_iff, stored_ingest runtime isAfter engine namespace_ hreturns,
    KeyedOffer.offerAll_other hkeys]

/-- The listed files are shown after the run, exactly when those of one fact id show the same and
a stored fact with the body of one of them shows it. -/
theorem shown_listed (hreturns : r.throwsAfter = none) :
    (∀ file ∈ listed isAfter r s.files s.memory, Shown runtime namespace_ r
      (ingest runtime isAfter engine namespace_ r s.files s.memory) file) ↔
    (∀ file ∈ listed isAfter r s.files s.memory, ∀ other ∈ listed isAfter r s.files s.memory,
      factId runtime file = factId runtime other →
        face (fileToFact runtime r other) = face (fileToFact runtime r file)) ∧
    ∀ file ∈ listed isAfter r s.files s.memory, ∀ fact,
      FirmMemory.get namespace_ s.memory.facts (factId runtime file) = some fact →
        fact.body = fileBody runtime file → face fact = face (fileToFact runtime r file) := by
  have hface : ∀ v w : FactEntry, face v = face w → v.body = w.body := fun _ _ h => face_body h
  have hoffers := KeyedOffer.offerAll_iff hface (stored namespace_ s.memory.facts)
    (offers runtime r (listed isAfter r s.files s.memory))
  rw [← stored_ingest runtime isAfter engine namespace_ hreturns] at hoffers
  refine Iff.trans ?_ (hoffers.trans (and_congr ?_ ?_))
  · constructor
    · intro h e he
      obtain ⟨file, hmem, -, rfl⟩ := (mem_offers runtime).mp he
      exact (shown_iff runtime namespace_).mp (h file hmem)
    · intro h file hmem
      have hoffered := h _ (listed_offered runtime isAfter hmem)
      exact (shown_iff runtime namespace_).mpr hoffered
  · constructor
    · exact fun h file hmem other hmem' hid => h _ (listed_offered runtime isAfter hmem) _
        (listed_offered runtime isAfter hmem') hid
    · intro h e he e' he' hid
      obtain ⟨file, hmem, -, rfl⟩ := (mem_offers runtime).mp he
      obtain ⟨other, hmem', -, rfl⟩ := (mem_offers runtime).mp he'
      exact h file hmem other hmem' hid
  · constructor
    · intro h file hmem fact hfact hbody
      refine h _ (listed_offered runtime isAfter hmem) (undated fact) ?_ hbody
      rw [stored, hfact]
      rfl
    · intro h e he old hold hbody
      obtain ⟨file, hmem, -, rfl⟩ := (mem_offers runtime).mp he
      obtain ⟨fact, hfact, rfl⟩ := Option.map_eq_some_iff.mp hold
      exact h file hmem fact hfact hbody

/-- A run that returns leaves nothing missing, exactly when it reaches every file. -/
theorem nothingMissing_iff (hreturns : r.throwsAfter = none) :
    NothingMissing runtime namespace_ r (step runtime isAfter engine namespace_ s (.ingest r)) ↔
      Reaches runtime isAfter namespace_ r s := by
  constructor
  · intro h
    have hlisted := (shown_listed hreturns).mp fun file hmem =>
      h file (mem_listed isAfter hmem).1 (mem_listed isAfter hmem).2
    refine ⟨fun file hmem htrash => ?_, hlisted.1, hlisted.2⟩
    have hshown := h file hmem htrash
    by_cases hother : ∀ other ∈ listed isAfter r s.files s.memory,
      factId runtime other ≠ factId runtime file
    · exact Or.inr ⟨hother, (shown_unlisted hreturns hother).mp hshown⟩
    · push Not at hother
      obtain ⟨other, hmem', hid⟩ := hother
      obtain ⟨fact, hfact, hface⟩ := hshown
      obtain ⟨fact', hfact', hface'⟩ :=
        h other (mem_listed isAfter hmem').1 (mem_listed isAfter hmem').2
      rw [hid, hfact] at hfact'
      obtain rfl := Option.some.inj hfact'
      exact Or.inl ⟨other, hmem', hid, hface'.symm.trans hface⟩
  · rintro ⟨hreached, hone, hstored⟩ file hmem htrash
    rcases hreached file hmem htrash with ⟨other, hmem', hid, hface⟩ | ⟨hother, hshown⟩
    · obtain ⟨fact, hfact, hface'⟩ := (shown_listed hreturns).mpr ⟨hone, hstored⟩ other hmem'
      exact ⟨fact, hid ▸ hfact, hface'.trans hface⟩
    · exact (shown_unlisted hreturns hother).mpr hshown

end OneRun

/-- Over a history of folders and runs nothing is missing after each run that returns, exactly
when each such run reaches every file. -/
theorem missesNothing_iff (history : List Event) (s : State Vector) :
    (∀ before r later, history = before ++ .ingest r :: later → r.throwsAfter = none →
      NothingMissing runtime namespace_ r
        (run runtime isAfter engine namespace_ (before ++ [.ingest r]) s)) ↔
    ∀ before r later, history = before ++ .ingest r :: later → r.throwsAfter = none →
      Reaches runtime isAfter namespace_ r (run runtime isAfter engine namespace_ before s) := by
  refine forall₅_congr fun before r later _ hreturns => ?_
  unfold run
  rw [List.foldl_append]
  exact nothingMissing_iff hreturns

/-! ## A file that is moved into the folder -/

/-- A runtime whose hash tells short texts apart, on texts that hold no secret. -/
def plainRuntime : Runtime where
  sha256 := id
  matchCount := fun _ _ => 0
  replaceAll := fun _ _ text => text
  nfd := id
  toLowerCase := id

def plainAfter (time : Option String) (floor : String) : Bool := time.any fun t => floor < t

def plainRun : Run where
  folderId := "f"
  folder := ⟨"f", "folder"⟩
  now := "now"
  clock := fun _ => "now"

def oldFile : DriveFile where
  id := "a"
  name := "a"
  mimeType := "text/plain"
  modifiedTime := some "2026-01-02T00:00:00.000Z"

def movedFile : DriveFile where
  id := "b"
  name := "b"
  mimeType := "text/plain"
  modifiedTime := some "2026-01-01T00:00:00.000Z"

/-- The folder with one file, a run, another file that is moved in, and a run. -/
def moves : List Event :=
  [.change [oldFile], .ingest plainRun, .change [oldFile, movedFile], .ingest plainRun]

/-- The file that came into the folder before the second run has no fact after it. -/
theorem moved_file_missed :
    ¬ ∀ before r later, moves = before ++ .ingest r :: later → r.throwsAfter = none →
      NothingMissing plainRuntime "firm" r (run plainRuntime plainAfter unitEngine "firm"
        (before ++ [.ingest r]) ⟨[], ⟨⟨[], []⟩, []⟩⟩) := by
  intro h
  obtain ⟨fact, hfact, -⟩ := h
    [.change [oldFile], .ingest plainRun, .change [oldFile, movedFile]] plainRun [] rfl rfl
    movedFile (List.mem_cons_of_mem _ (List.mem_singleton.mpr rfl)) rfl
  have hnone : (FirmMemory.get "firm" (run plainRuntime plainAfter unitEngine "firm"
      moves ⟨[], ⟨⟨[], []⟩, []⟩⟩).memory.facts (factId plainRuntime movedFile)).isNone := by
    decide +kernel
  change FirmMemory.get "firm" (run plainRuntime plainAfter unitEngine "firm"
    moves ⟨[], ⟨⟨[], []⟩, []⟩⟩).memory.facts (factId plainRuntime movedFile) = some fact at hfact
  rw [hfact] at hnone
  simp at hnone

end DriveIngest
end Batiste
