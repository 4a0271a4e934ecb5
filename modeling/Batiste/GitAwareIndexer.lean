import Batiste.GitTracker

/-! The git-aware indexer: the file index, the plan of a run, and `index_codebase` that
applies the plan and records the commit. -/
namespace Batiste
namespace GitAwareIndexer

open GitTracker

/-- What the crawler reports of a file; times are in milliseconds. -/
structure FileInfo where
  relativePath : String
  hash : String
  modifiedAt : ℚ
deriving DecidableEq

structure IndexedFileInfo where
  relativePath : String
  hash : String
  mtime : ℚ
  indexedAt : ℚ
  chunkCount : ℕ
deriving DecidableEq

abbrev FileIndex := Dict IndexedFileInfo

namespace FileIndex

def getFile (files : FileIndex) (relativePath : String) : Option IndexedFileInfo :=
  Dict.get? files relativePath

def updateFile (files : FileIndex) (info : IndexedFileInfo) : FileIndex :=
  Dict.set files info.relativePath info

def removeFile (files : FileIndex) (relativePath : String) : FileIndex :=
  Dict.erase files relativePath

def getChangedFiles (files : FileIndex) (currentFiles : List FileInfo) : List FileInfo :=
  currentFiles.filter fun file =>
    match files.getFile file.relativePath with
    | none => true
    | some indexed => indexed.mtime != file.modifiedAt || indexed.hash != file.hash

def getDeletedFiles (files : FileIndex) (currentFiles : List FileInfo) : List String :=
  (files.map Prod.fst).filter fun relativePath =>
    !(currentFiles.map FileInfo.relativePath).contains relativePath

end FileIndex

structure IndexState where
  lastIndexedCommit : Option String
  lastIndexedAt : ℚ
  branch : String
  totalFiles : ℕ
  includesUncommitted : Bool

structure Stats where
  totalFilesInRepo : ℕ
  filesToAdd : ℕ
  filesToUpdate : ℕ
  filesToDelete : ℕ
  filesUnchanged : ℤ

structure IncrementalIndexPlan where
  filesToIndex : List FileInfo
  filesToRemove : List String
  renamedFiles : Dict String
  isFullReindex : Bool
  reason : String
  gitDiff : Option GitDiffResult
  stats : Stats

/-- What the crawler and git answer during one run. -/
structure Reports where
  files : List FileInfo
  isGitRepository : Bool
  headCommit : Option String
  currentBranch : String
  diff : List (List String)
  staged : List (List String)
  unstaged : List (List String)
  untracked : List String

def planWithoutGit (fileIndex : FileIndex) (currentFiles : List FileInfo) :
    IncrementalIndexPlan :=
  let changedFiles := fileIndex.getChangedFiles currentFiles
  let deletedFiles := fileIndex.getDeletedFiles currentFiles
  { filesToIndex := changedFiles
    filesToRemove := deletedFiles
    renamedFiles := []
    -- `isLoaded()` holds: `initialize` has loaded the index.
    isFullReindex := fileIndex.isEmpty
    reason := "File-based incremental: " ++ toString changedFiles.length ++ " changed, " ++
      toString deletedFiles.length ++ " deleted"
    gitDiff := none
    stats :=
      { totalFilesInRepo := currentFiles.length
        filesToAdd := (changedFiles.filter fun f =>
          (fileIndex.getFile f.relativePath).isNone).length
        filesToUpdate := (changedFiles.filter fun f =>
          (fileIndex.getFile f.relativePath).isSome).length
        filesToDelete := deletedFiles.length
        filesUnchanged := (currentFiles.length : ℤ) - changedFiles.length } }

def createFullIndexPlan (currentFiles : List FileInfo) (reason : String) :
    IncrementalIndexPlan where
  filesToIndex := currentFiles
  filesToRemove := []
  renamedFiles := []
  isFullReindex := true
  reason := reason
  gitDiff := none
  stats :=
    { totalFilesInRepo := currentFiles.length
      filesToAdd := currentFiles.length
      filesToUpdate := 0
      filesToDelete := 0
      filesUnchanged := 0 }

/-- A commit hash that is there and not empty. -/
def commit? (hash : Option String) : Option String := hash.filter fun c => c != ""

/-- The last loop of the plan: the crawled files the index does not have. -/
def addUnindexed (fileIndex : FileIndex) (currentFiles filesToIndex : List FileInfo) :
    List FileInfo :=
  currentFiles.foldl (fun filesToIndex file =>
    if (fileIndex.getFile file.relativePath).isNone ∧
        ¬ filesToIndex.any (fun f => f.relativePath == file.relativePath) then
      filesToIndex ++ [file]
    else filesToIndex) filesToIndex

/-- The crawled file under a path. -/
def currentFileMap (currentFiles : List FileInfo) : Dict FileInfo :=
  Dict.spread [] (currentFiles.map fun f => (f.relativePath, f))

def planFromDiff (fileIndex : FileIndex) (currentFiles : List FileInfo)
    (gitDiff : GitDiffResult) : IncrementalIndexPlan :=
  let fileInfo := (currentFileMap currentFiles).get?
  let changed := gitDiff.added.filterMap fileInfo ++ gitDiff.modified.filterMap fileInfo ++
    gitDiff.renamed.filterMap fun entry => fileInfo entry.2
  let filesToRemove := gitDiff.deleted ++ gitDiff.renamed.map Prod.fst
  let filesToIndex := addUnindexed fileIndex currentFiles changed
  { filesToIndex
    filesToRemove
    renamedFiles := gitDiff.renamed
    isFullReindex := false
    reason := "Git-based incremental: " ++ toString gitDiff.added.length ++ " added, " ++
      toString gitDiff.modified.length ++ " modified, " ++ toString gitDiff.deleted.length ++
      " deleted"
    gitDiff := some gitDiff
    stats :=
      { totalFilesInRepo := currentFiles.length
        filesToAdd := gitDiff.added.length
        filesToUpdate := gitDiff.modified.length
        filesToDelete := filesToRemove.length
        filesUnchanged := (currentFiles.length : ℤ) - filesToIndex.length } }

/-- The diff of a run since the last indexed commit. -/
def gatherDiff (r : Reports) (includeUncommitted : Bool) : GitDiffResult :=
  if includeUncommitted then
    mergeGitDiffs (getDiff r.diff) (getWorkingTreeChanges r.staged r.unstaged r.untracked)
  else getDiff r.diff

def planIncrementalIndex (fileIndex : FileIndex) (indexState : Option IndexState) (r : Reports)
    (includeUncommitted : Bool) : IncrementalIndexPlan :=
  if !r.isGitRepository then planWithoutGit fileIndex r.files
  else
    match commit? (indexState.bind IndexState.lastIndexedCommit), commit? r.headCommit with
    | some _, some _ => planFromDiff fileIndex r.files (gatherDiff r includeUncommitted)
    | _, _ => createFullIndexPlan r.files "No previous index state"

inductive Mode
  | full
  | incremental
deriving DecidableEq

/-- What the data directory holds between two runs. -/
structure DataDir where
  fileIndex : FileIndex
  indexState : Option IndexState

structure IndexResult where
  mode : Mode
  isFullReindex : Bool
  reason : String
  stats : Stats
  filesToIndex : List String
  filesToRemove : List String
  gitAvailable : Bool
  currentState : Option IndexState

/-- The file index entry that `index_codebase` writes for a file. -/
def indexedInfo (now : ℚ) (file : FileInfo) : IndexedFileInfo where
  relativePath := file.relativePath
  hash := file.hash
  mtime := file.modifiedAt
  indexedAt := now
  chunkCount := 1

def applyPlan (fileIndex : FileIndex) (plan : IncrementalIndexPlan) (now : ℚ) : FileIndex :=
  let updated := plan.filesToIndex.foldl (fun files file => files.updateFile (indexedInfo now file))
    fileIndex
  plan.filesToRemove.foldl FileIndex.removeFile updated

/-- The state that mode `full` saves before it plans. -/
def forgottenState : IndexState where
  lastIndexedCommit := none
  lastIndexedAt := 0
  branch := ""
  totalFiles := 0
  includesUncommitted := false

def indexCodebase (mode : Mode) (includeUncommitted : Bool) (r : Reports) (now : ℚ)
    (dir : DataDir) : DataDir × IndexResult :=
  let indexState := if mode = .full then some forgottenState else dir.indexState
  let plan := planIncrementalIndex dir.fileIndex indexState r includeUncommitted
  let recorded : IndexState :=
    { lastIndexedCommit := r.headCommit
      lastIndexedAt := now
      branch := r.currentBranch
      totalFiles := plan.stats.totalFilesInRepo
      includesUncommitted := includeUncommitted }
  ({ fileIndex := applyPlan dir.fileIndex plan now, indexState := some recorded },
    { mode
      isFullReindex := plan.isFullReindex
      reason := plan.reason
      stats := plan.stats
      filesToIndex := plan.filesToIndex.map FileInfo.relativePath
      filesToRemove := plan.filesToRemove
      gitAvailable := plan.gitDiff.isSome
      currentState := some recorded })

end GitAwareIndexer
end Batiste
