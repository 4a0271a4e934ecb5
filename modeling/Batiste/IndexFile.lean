import Batiste.GitAwareIndexer
import Batiste.JsonReader
import Batiste.Snapshots

/-! The file of the file index, `file-index.ts`, as the text that is in it: what an indexer that
starts later still knows of the project. -/
namespace Batiste
namespace IndexFile

open GitAwareIndexer JsonReader Snapshots

def FILE_INDEX_VERSION : ℕ := 1

def infoJson (info : IndexedFileInfo) : Json :=
  .object [("relativePath", .string info.relativePath), ("hash", .string info.hash),
    ("mtime", .number info.mtime), ("indexedAt", .number info.indexedAt),
    ("chunkCount", .number info.chunkCount)]

def filesJson (files : FileIndex) : Json := .object (files.map fun e => (e.1, infoJson e.2))

/-- `FileIndexData` -/
def dataJson (projectRoot : String) (files : FileIndex) : Json :=
  .object [("version", .number FILE_INDEX_VERSION), ("projectRoot", .string projectRoot),
    ("files", filesJson files)]

/-! The casts of `load`: what the parsed data holds at its declared type. -/

def string? : Json → Option String
  | .string s => some s
  | _ => none

def number? : Json → Option ℚ
  | .number value => some value
  | _ => none

def info? : Json → Option IndexedFileInfo
  | .object fields => do
    let relativePath ← (Dict.get? fields "relativePath").bind string?
    let hash ← (Dict.get? fields "hash").bind string?
    let mtime ← (Dict.get? fields "mtime").bind number?
    let indexedAt ← (Dict.get? fields "indexedAt").bind number?
    let chunkCount ← (Dict.get? fields "chunkCount").bind number?
    return ⟨relativePath, hash, mtime, indexedAt, chunkCount.num.toNat⟩
  | _ => none

/-- A `FileIndex` and the project that it is for. -/
structure Index where
  projectRoot : String
  files : FileIndex

variable (js : Numbers)

/-- An index starts fresh where there is no file, and from a text of another version, of another
project or of no such data at all. -/
def load (projectRoot : String) (content : Option (List Char)) : Index where
  projectRoot := projectRoot
  files :=
    match content.bind (parse js) with
    | some (.object data) =>
      if Dict.get? data "version" ≠ some (.number FILE_INDEX_VERSION) then []
      else if Dict.get? data "projectRoot" ≠ some (.string projectRoot) then []
      else
        match Dict.get? data "files" with
        | some (.object files) =>
          files.filterMap fun e => (info? e.2).map fun info => (e.1, info)
        | _ => []
    | _ => []

/-- `JSON.stringify(data, null, 2)` -/
def save (index : Index) : List Char := stringify js (dataJson index.projectRoot index.files)

/-! ## What can be saved -/

structure StoredInfo (info : IndexedFileInfo) : Prop where
  mtime : js.stored info.mtime
  indexedAt : js.stored info.indexedAt
  chunkCount : js.stored info.chunkCount

structure Proper (index : Index) : Prop where
  paths : (index.files.map Prod.fst).Nodup
  stored : ∀ e ∈ index.files, StoredInfo js e.2

variable {js}

theorem info?_infoJson (info : IndexedFileInfo) : info? (infoJson info) = some info := by
  obtain ⟨relativePath, hash, mtime, indexedAt, chunkCount⟩ := info
  simp [infoJson, info?, Dict.get?_cons, string?, number?]

theorem valid_infoJson {info : IndexedFileInfo} (h : StoredInfo js info) :
    Valid js (infoJson info) := by
  refine ⟨?_, validFields_iff.mpr fun field hfield => ?_⟩
  · show ["relativePath", "hash", "mtime", "indexedAt", "chunkCount"].Nodup
    decide
  · simp only [List.mem_cons, List.not_mem_nil, or_false] at hfield
    rcases hfield with rfl | rfl | rfl | rfl | rfl
    · trivial
    · trivial
    · exact h.mtime
    · exact h.indexedAt
    · exact h.chunkCount

theorem Proper.valid (hversion : js.stored 1) {index : Index} (h : Proper js index) :
    Valid js (dataJson index.projectRoot index.files) := by
  refine ⟨?_, validFields_iff.mpr fun field hfield => ?_⟩
  · show ["version", "projectRoot", "files"].Nodup
    decide
  · simp only [List.mem_cons, List.not_mem_nil, or_false] at hfield
    rcases hfield with rfl | rfl | rfl
    · simpa [FILE_INDEX_VERSION, Valid] using hversion
    · trivial
    · exact validFields_map (fun e he => valid_infoJson (h.stored e he)) h.paths

/-- What an indexer for a project finds of the index saved last. -/
def reopen (projectRoot : String) (saved : Option Index) : Index where
  projectRoot := projectRoot
  files := (saved.filter fun index => index.projectRoot = projectRoot).elim [] Index.files

theorem load_save (hversion : js.stored 1) (projectRoot : String) (saved : Option Index)
    (h : ∀ index ∈ saved, Proper js index) :
    load js projectRoot (saved.map (save js)) = reopen projectRoot saved := by
  cases saved with
  | none => rfl
  | some index =>
    have hparse : parse js (save js index) = some (dataJson index.projectRoot index.files) :=
      parse_stringify ((h index rfl).valid hversion)
    have hfiles := filterMap_cast info?_infoJson index.files
    rw [load, Option.map_some, Option.bind_some, hparse, dataJson]
    by_cases hroot : index.projectRoot = projectRoot
    · simp [reopen, Dict.get?_cons, filesJson, hroot, hfiles, Option.filter]
    · simp [reopen, Dict.get?_cons, hroot, Option.filter]

/-! ## Runs -/

/-- What an indexer does with its index. -/
inductive Edit
  | updateFile (info : IndexedFileInfo)
  | removeFile (relativePath : String)
  | clear

def edit (e : Edit) (index : Index) : Index where
  projectRoot := index.projectRoot
  files :=
    match e with
    | .updateFile info => index.files.updateFile info
    | .removeFile relativePath => index.files.removeFile relativePath
    | .clear => []

variable (js) in
/-- Indexers one after another over one data directory, from no file on. -/
def indexRuns (acts : List (Act String Edit)) : State (List Char) Index :=
  run (load js) edit (save js) ⟨none, ⟨"", []⟩⟩ acts

theorem Proper.edit {index : Index} (h : Proper js index) {e : Edit}
    (he : ∀ info, e = .updateFile info → StoredInfo js info) : Proper js (edit e index) := by
  cases e with
  | updateFile info =>
    refine ⟨Dict.nodup_set h.paths info.relativePath info, fun entry hentry => ?_⟩
    rcases Dict.mem_set hentry with ⟨hmem, -⟩ | rfl
    · exact h.stored entry hmem
    · exact he info rfl
  | removeFile relativePath =>
    have hsub : (index.files.removeFile relativePath).Sublist index.files := List.filter_sublist
    exact ⟨h.paths.sublist (hsub.map Prod.fst), fun entry hentry => h.stored entry (hsub.subset hentry)⟩
  | clear => exact ⟨List.nodup_nil, by simp [IndexFile.edit]⟩

theorem reopen_proper (projectRoot : String) (saved : Option Index)
    (h : ∀ index ∈ saved, Proper js index) : Proper js (reopen projectRoot saved) := by
  have hfresh : Proper js ⟨projectRoot, []⟩ := ⟨List.nodup_nil, by simp⟩
  cases saved with
  | none => exact hfresh
  | some index =>
    by_cases hroot : index.projectRoot = projectRoot
    · have hindex : reopen projectRoot (some index) = ⟨projectRoot, index.files⟩ := by
        simp [reopen, hroot, Option.filter]
      rw [hindex]
      exact ⟨(h index rfl).paths, (h index rfl).stored⟩
    · have hindex : reopen projectRoot (some index) = ⟨projectRoot, []⟩ := by
        simp [reopen, hroot, Option.filter]
      rwa [hindex]

/-! ### What is meant: what is known of each file of a project -/

structure Known where
  projectRoot : String
  info : String → Option IndexedFileInfo

def know (e : Edit) (known : Known) : Known where
  projectRoot := known.projectRoot
  info :=
    match e with
    | .updateFile info => Function.update known.info info.relativePath (some info)
    | .removeFile relativePath => Function.update known.info relativePath none
    | .clear => fun _ => none

/-- The knowledge kept last, if it is of this project. -/
def remember (projectRoot : String) (saved : Option Known) : Known where
  projectRoot := projectRoot
  info := (saved.filter fun known => known.projectRoot = projectRoot).elim (fun _ => none) Known.info

def knownRuns (acts : List (Act String Edit)) : State Known Known :=
  run remember know id ⟨none, ⟨"", fun _ => none⟩⟩ acts

def Index.known (index : Index) : Known := ⟨index.projectRoot, index.files.getFile⟩

theorem known_reopen (projectRoot : String) (saved : Option Index) :
    (reopen projectRoot saved).known = remember projectRoot (saved.map Index.known) := by
  cases saved with
  | none => rfl
  | some index =>
    by_cases hroot : index.projectRoot = projectRoot
    · simp [Index.known, reopen, remember, hroot, Option.filter]
    · simp [Index.known, reopen, remember, hroot, Option.filter]
      rfl

theorem known_edit (e : Edit) (index : Index) : (edit e index).known = know e index.known := by
  cases e with
  | updateFile info =>
    refine congrArg (Known.mk index.projectRoot) (funext fun path => ?_)
    show _ = Function.update index.files.getFile info.relativePath (some info) path
    rw [Function.update_apply]
    exact Dict.get?_set index.files info.relativePath path info
  | removeFile relativePath =>
    refine congrArg (Known.mk index.projectRoot) (funext fun path => ?_)
    show _ = Function.update index.files.getFile relativePath none path
    rw [Function.update_apply]
    exact Dict.get?_erase index.files relativePath path
  | clear => rfl

/-- A crawled file of which the index knows nothing, or something else. -/
def changed (info : Option IndexedFileInfo) (file : FileInfo) : Bool :=
  info.all fun indexed => indexed.mtime != file.modifiedAt || indexed.hash != file.hash

theorem getChangedFiles_eq (index : Index) (currentFiles : List FileInfo) :
    index.files.getChangedFiles currentFiles =
      currentFiles.filter fun file => changed (index.known.info file.relativePath) file := by
  refine List.filter_congr fun file _ => ?_
  show _ = changed (index.files.getFile file.relativePath) file
  cases index.files.getFile file.relativePath <;> rfl

theorem mem_getDeletedFiles (index : Index) (currentFiles : List FileInfo) (path : String) :
    path ∈ index.files.getDeletedFiles currentFiles ↔
      index.known.info path ≠ none ∧ path ∉ currentFiles.map FileInfo.relativePath := by
  show _ ↔ Dict.get? index.files path ≠ none ∧ _
  rw [FileIndex.getDeletedFiles, List.mem_filter, Ne, Dict.get?_eq_none, not_not]
  simp

/-- A second project over the same data directory: the first one starts fresh again. -/
def takenOver : List (Act String Edit) :=
  [.start "/a", .edit (.updateFile ⟨"x.ts", "h", 5, 7, 1⟩), .save, .start "/b", .save, .start "/a"]

end IndexFile
end Batiste
