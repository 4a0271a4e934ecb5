import Batiste.CcSessions
import Batiste.Frontmatter

/-! `batiste-fm ingest cc-memory`: the memory files of all working directories as facts, and the
stubs that `--stub-replace` writes over their indexes. -/
namespace Batiste
namespace CcMemory

open FirmMemory FactIngest Frontmatter
open CcSessions (hitTags workstreamOf)

structure Host where
  runtime : Runtime
  join : List String → String
  basename : String → String
  /-- `basename(path, '.md')` -/
  stem : String → String
  relativeToHome : String → String

/-- An entry of the projects directory; a memory directory lists its files with what can be read of
them. -/
structure ProjectEntry where
  name : String
  isDirectory : Bool
  memory : Option (List (String × Option String))

structure ImportRecord where
  filePath : String
  cwdDir : String
  «meta» : Dict String
  body : String
  deriving DecidableEq, Repr

variable (host : Host)

def readRecord (projectsRoot cwd file : String) (content : Option String) :
    Except String (List ImportRecord) :=
  if ¬ ".md".toList <:+ file.toList ∨ file = "MEMORY.md" then .ok []
  else
    match content with
    | none => .error ("cannot read " ++ file)
    | some raw =>
      let parsed := parseFrontmatter raw
      .ok [⟨host.join [projectsRoot, cwd, "memory", file], cwd, parsed.«meta», parsed.body⟩]

/-- One after another, up to the first error. -/
def collect {α β : Type} (f : α → Except String (List β)) : List α → Except String (List β)
  | [] => .ok []
  | a :: rest =>
    match f a, collect f rest with
    | .ok bs, .ok cs => .ok (bs ++ cs)
    | .error message, _ => .error message
    | _, .error message => .error message

def discoverEntry (projectsRoot : String) (entry : ProjectEntry) :
    Except String (List ImportRecord) :=
  if entry.isDirectory then
    collect (fun f => readRecord host projectsRoot entry.name f.1 f.2) (entry.memory.getD [])
  else .ok []

/-- Without the projects directory there is nothing to import. -/
def discoverMemoryFiles (projectsRoot : String) (entries : Option (List ProjectEntry)) :
    Except String (List ImportRecord) :=
  collect (discoverEntry host projectsRoot) (entries.getD [])

theorem subset_of_collect {α β : Type} {f : α → Except String (List β)} {as : List α} {a : α}
    {bs : List β} (h : collect f as = .ok bs) (ha : a ∈ as) : ∃ cs, f a = .ok cs ∧ cs ⊆ bs := by
  induction as generalizing bs with
  | nil => cases ha
  | cons b rest ih =>
    rw [collect] at h
    cases hb : f b with
    | error message =>
      rw [hb] at h
      cases h
    | ok cs =>
      cases hrest : collect f rest with
      | error message =>
        rw [hb, hrest] at h
        cases h
      | ok ds =>
        rw [hb, hrest] at h
        obtain rfl := Except.ok.inj h
        obtain rfl | ha := List.mem_cons.mp ha
        · exact ⟨cs, hb, List.subset_append_left cs ds⟩
        · obtain ⟨es, hes, hsub⟩ := ih hrest ha
          exact ⟨es, hes, List.Subset.trans hsub (List.subset_append_right cs ds)⟩

/-- Every entry of a memory directory beside its index is a record of its directory. -/
theorem mem_discovered {projectsRoot file raw : String} {entries : List ProjectEntry}
    {entry : ProjectEntry} {files : List (String × Option String)} {records : List ImportRecord}
    (h : discoverMemoryFiles host projectsRoot (some entries) = .ok records) (he : entry ∈ entries)
    (hdir : entry.isDirectory = true) (hmemory : entry.memory = some files)
    (hfile : (file, some raw) ∈ files) (hmd : ".md".toList <:+ file.toList)
    (hindex : file ≠ "MEMORY.md") :
    ∃ r ∈ records, r.cwdDir = entry.name ∧
      r.filePath = host.join [projectsRoot, entry.name, "memory", file] := by
  obtain ⟨cs, hcs, hsub⟩ := subset_of_collect h he
  rw [discoverEntry, if_pos hdir, hmemory, Option.getD_some] at hcs
  obtain ⟨ds, hds, hsub'⟩ := subset_of_collect hcs hfile
  rw [readRecord, if_neg (not_or.mpr ⟨not_not.mpr hmd, hindex⟩)] at hds
  obtain rfl := Except.ok.inj hds
  exact ⟨_, hsub (hsub' List.mem_cons_self), rfl, rfl⟩

inductive MemoryType
  | user
  | feedback
  | project
  | reference
  deriving DecidableEq, Repr

def MemoryType.text : MemoryType → String
  | .user => "user"
  | .feedback => "feedback"
  | .project => "project"
  | .reference => "reference"

def classifyType (entries : Dict String) : MemoryType :=
  let t := host.runtime.toLowerCase ((entries.get? "type").getD "")
  if t = "user" then .user
  else if t = "feedback" then .feedback
  else if t = "project" then .project
  else if t = "reference" then .reference
  else .project

def MemoryType.kind : MemoryType → FactKind
  | .feedback => .decision
  | .reference => .precedent
  | _ => .observation

def memoryToFact (record : ImportRecord) (fallbackTitle now : String) : FactEntry where
  id := shortHash host.runtime (record.filePath ++ "::" ++ (scrub host.runtime record.body).text)
  title := (record.meta.get? "name").getD fallbackTitle
  group := (classifyType host record.meta).kind
  body := (scrub host.runtime record.body).text
  sensitivity := .confidential
  tags := ["source:cc-memory", "cwd:" ++ record.cwdDir,
    "meta-type:" ++ (classifyType host record.meta).text] ++
      hitTags (scrub host.runtime record.body).hits
  rest :=
    { counterparty := none
      workstream := some (workstreamOf (host.basename record.cwdDir))
      vault_ref := some (host.relativeToHome record.filePath)
      audit_ref := none }
  created_at := now
  updated_at := now

/-! ## The import of one record -/

/-- How the calls of an operation go: the lookup of the fact and its put, which can fail after it
has written its row. -/
inductive Attempt
  | sound
  | lookupFailed
  | putRefused
  | putThenFailed
  deriving DecidableEq, Repr

/-- An operation of the plan as it settles, with the clock it reads. -/
structure Operation where
  record : ImportRecord
  attempt : Attempt
  now : String

structure ImportState (Vector : Type) where
  facts : Table FactKind FactRest Vector
  checkpoints : CheckpointMap
  imported : List ImportRecord
  skipped : List ImportRecord
  failed : List ImportRecord
  totalScrubHits : ℕ

variable {Vector : Type} (engine : Engine Vector) (namespace_ : String)

def settle (s : ImportState Vector) (op : Operation) : ImportState Vector :=
  let fact := memoryToFact host op.record (host.stem op.record.filePath) op.now
  let counted := { s with totalScrubHits :=
    s.totalScrubHits + if fact.body.length < op.record.body.length then 1 else 0 }
  match op.attempt, isStored namespace_ s.facts fact with
  | .lookupFailed, _ => { counted with failed := s.failed ++ [op.record] }
  | _, true => { counted with skipped := s.skipped ++ [op.record] }
  | .sound, false =>
    { counted with
      facts := SqliteFactStore.put engine namespace_ s.facts fact op.now
      checkpoints := setCheckpoint s.checkpoints "cc-memory" op.record.filePath
        (.text fact.updated_at)
      imported := s.imported ++ [op.record] }
  | .putRefused, false => { counted with failed := s.failed ++ [op.record] }
  | .putThenFailed, false =>
    { counted with
      facts := SqliteFactStore.put engine namespace_ s.facts fact op.now
      failed := s.failed ++ [op.record] }

/-! ## The stubs -/

/-- A write is refused before it touches the file, or fails with the file cut off. -/
inductive WriteOutcome
  | written
  | refused
  | torn
  deriving DecidableEq, Repr

/-- The directories whose index is overwritten, and whether the loop comes to its end. -/
def replaceStubs (indexExists : String → Bool) (write : String → WriteOutcome) :
    List String → List String × Bool
  | [] => ([], true)
  | cwd :: rest =>
    if indexExists cwd then
      match write cwd with
      | .refused => ([], false)
      | .torn => ([cwd], false)
      | .written =>
        let r := replaceStubs indexExists write rest
        (cwd :: r.1, r.2)
    else replaceStubs indexExists write rest

structure Options where
  dryRun : Bool := false
  stubReplace : Bool := false

/-- The files when the stubs are written. -/
structure Disk where
  indexExists : String → Bool
  write : String → WriteOutcome

structure Outcome (Vector : Type) where
  state : ImportState Vector
  overwritten : List String
  checkpointsSaved : Bool

/-- `[...new Set(records.map((r) => r.cwdDir))]` -/
def cwdDirs (records : List ImportRecord) : List String := (records.map ImportRecord.cwdDir).eraseDups

/-- The command behind the discovery; the operations are those of the records in the order in which
they settle. -/
def ingest (opts : Options) (disk : Disk) (records : List ImportRecord)
    (operations : List Operation) (s : ImportState Vector) : Outcome Vector :=
  if records = [] ∨ opts.dryRun then ⟨s, [], false⟩
  else
    let done := operations.foldl (settle host engine namespace_) s
    let stubs := if opts.stubReplace then
        replaceStubs disk.indexExists disk.write (cwdDirs records)
      else ([], true)
    ⟨done, stubs.1, stubs.2⟩

/-! ## Which indexes are overwritten -/

theorem mem_replaceStubs {indexExists : String → Bool} {write : String → WriteOutcome}
    {dirs : List String} {cwd : String} :
    cwd ∈ (replaceStubs indexExists write dirs).1 ↔
      cwd ∈ dirs ∧ indexExists cwd = true ∧ write cwd ≠ .refused ∧
        ∀ d ∈ dirs.takeWhile (· ≠ cwd), indexExists d = true → write d = .written := by
  induction dirs with
  | nil => simp [replaceStubs]
  | cons d rest ih =>
    rw [replaceStubs]
    by_cases hd : indexExists d = true
    · rw [if_pos hd]
      by_cases hcwd : d = cwd
      · subst hcwd
        cases hw : write d <;> simp [hd]
      · cases hw : write d with
        | written => simp [ih, hcwd, Ne.symm hcwd, hd, hw]
        | refused => simp [hcwd, hd, hw]
        | torn => simp [hcwd, Ne.symm hcwd, hd, hw]
    · rw [if_neg hd, ih]
      by_cases hcwd : d = cwd
      · subst hcwd
        simp [hd]
      · simp [hcwd, Ne.symm hcwd, hd]

variable {host : Host} {engine : Engine Vector} {namespace_ : String}

/-- The fact of a record was put, or was there already. -/
def Imported (s : ImportState Vector) (r : ImportRecord) : Prop := r ∈ s.imported ∨ r ∈ s.skipped

variable (host engine namespace_) in
/-- What the imports have made of the records when the stubs are written. -/
def afterImports (operations : List Operation) (s : ImportState Vector) : ImportState Vector :=
  operations.foldl (settle host engine namespace_) s

/-- The loop does not get to the index of a directory: there is none, its write is refused, or the
write of an earlier one fails. -/
def Spared (disk : Disk) (dirs : List String) (cwd : String) : Prop :=
  disk.indexExists cwd = false ∨ disk.write cwd = .refused ∨
    ∃ d ∈ dirs.takeWhile (· ≠ cwd), disk.indexExists d = true ∧ disk.write d ≠ .written

theorem spared_iff {disk : Disk} {dirs : List String} {cwd : String} (hcwd : cwd ∈ dirs) :
    Spared disk dirs cwd ↔ cwd ∉ (replaceStubs disk.indexExists disk.write dirs).1 := by
  rw [mem_replaceStubs, Spared]
  constructor
  · rintro (hnone | hrefused | ⟨d, hd, hexists, hfails⟩) ⟨-, hindex, hwrite, hbefore⟩
    · rw [hindex] at hnone
      cases hnone
    · exact hwrite hrefused
    · exact hfails (hbefore d hd hexists)
  · intro hno
    by_contra hreached
    push Not at hreached
    obtain ⟨hindex, hwrite, hbefore⟩ := hreached
    exact hno ⟨hcwd, Bool.not_eq_false _ ▸ hindex, hwrite, hbefore⟩

theorem mem_cwdDirs {records : List ImportRecord} {r : ImportRecord} (hr : r ∈ records) :
    r.cwdDir ∈ cwdDirs records := by
  rw [cwdDirs, List.mem_eraseDups]
  exact List.mem_map_of_mem hr

/-- The index of a directory with a file that was not imported is left alone exactly when no stubs
are written or the loop does not get to any such directory. -/
theorem unimported_index_kept_iff (opts : Options) (disk : Disk) (records : List ImportRecord)
    (operations : List Operation) (s : ImportState Vector) :
    (∀ cwd ∈ (ingest host engine namespace_ opts disk records operations s).overwritten,
        ∀ r ∈ records, r.cwdDir = cwd →
          Imported (ingest host engine namespace_ opts disk records operations s).state r) ↔
      (opts.dryRun = false → opts.stubReplace = true → ∀ r ∈ records,
        ¬ Imported (afterImports host engine namespace_ operations s) r →
          Spared disk (cwdDirs records) r.cwdDir) := by
  by_cases hearly : records = [] ∨ opts.dryRun = true
  · rw [ingest, if_pos hearly]
    constructor
    · intro _ hdry _ r hr
      obtain rfl | hrun := hearly
      · cases hr
      · rw [hdry] at hrun
        cases hrun
    · intro _ cwd hcwd
      cases hcwd
  · have hrun := hearly
    rw [not_or, Bool.not_eq_true] at hrun
    rw [ingest, if_neg hearly]
    cases hstub : opts.stubReplace with
    | false =>
      constructor
      · intro _ _ h
        cases h
      · intro _ cwd hcwd
        cases hcwd
    | true =>
      constructor
      · intro h _ _ r hr hmissing
        rw [spared_iff (mem_cwdDirs hr)]
        exact fun hover => hmissing (h r.cwdDir hover r hr rfl)
      · intro h cwd hover r hr hcwd
        subst hcwd
        by_contra hmissing
        exact (spared_iff (mem_cwdDirs hr)).mp (h hrun.2 rfl r hr hmissing) hover

/-! ## A file that is lost -/

def plainHost : Host where
  runtime := ⟨id, fun _ _ => 0, fun _ _ s => s, id, id⟩
  join := "/".intercalate
  basename := id
  stem := id
  relativeToHome := id

def plainEngine : Engine Unit where
  embed := fun _ _ => ()
  embedQuery := fun _ _ => ()
  distance := fun _ _ => 0
  rowCount := fun _ => 0
  tokenize := fun _ => []

def note : ImportRecord := ⟨"/projects/-work/memory/note.md", "-work", [], "a note"⟩

/-- The put of the only file of a directory fails. -/
def failedRun : Outcome Unit :=
  ingest plainHost plainEngine "firm" ⟨false, true⟩ ⟨fun _ => true, fun _ => .written⟩ [note]
    [⟨note, .putRefused, "t"⟩] ⟨⟨[], []⟩, [], [], [], [], 0⟩

theorem failed_import_stubbed :
    ¬ ∀ cwd ∈ failedRun.overwritten, ∀ r ∈ [note], r.cwdDir = cwd → Imported failedRun.state r := by
  intro h
  have hover : "-work" ∈ failedRun.overwritten := by decide +kernel
  have hnone : failedRun.state.imported = [] ∧ failedRun.state.skipped = [] := by decide +kernel
  obtain himported | hskipped := h "-work" hover note List.mem_cons_self rfl
  · rw [hnone.1] at himported
    cases himported
  · rw [hnone.2] at hskipped
    cases hskipped

end CcMemory
end Batiste
