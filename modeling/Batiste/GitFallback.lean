import Batiste.IndexerPlan

/-! The plan of a run in which git commands may fail.  The tracker catches what a command throws
and answers as if it had printed nothing; the indexer waits for the exception. -/
namespace Batiste
namespace GitFallback

open GitTracker GitAwareIndexer

/-- What the crawler answers during one run, and what the git commands print or throw. -/
structure Commands where
  files : List FileInfo
  isGitRepository : Bool
  revParseHead : Except String String
  branchShowCurrent : Except String String
  diff : Except String (List (List String))
  stagedDiff : Except String (List (List String))
  unstagedDiff : Except String (List (List String))
  lsFiles : Except String (List String)

namespace Commands

variable (c : Commands)

def getHeadCommit : Option String :=
  if !c.isGitRepository then none
  else
    match c.revParseHead with
    | .ok output => some output
    | .error _ => none

def getCurrentBranch : String :=
  if !c.isGitRepository then "unknown"
  else
    match c.branchShowCurrent with
    | .ok output => if output = "" then "HEAD" else output
    | .error _ => "unknown"

/-- `getDiff` of the tracker; an error would be one that it lets through. -/
def getDiff : Except String GitDiffResult :=
  if !c.isGitRepository then .ok .empty
  else
    match c.diff with
    | .ok output => .ok (GitTracker.getDiff output)
    -- the error is logged and the result returned as it is
    | .error _ => .ok .empty

/-- The three outputs are read when all three commands have answered. -/
def getWorkingTreeChanges : GitDiffResult :=
  if !c.isGitRepository then .empty
  else
    match c.stagedDiff, c.unstagedDiff, c.lsFiles with
    | .ok staged, .ok unstaged, .ok untracked =>
      GitTracker.getWorkingTreeChanges staged unstaged untracked
    | _, _, _ => .empty

end Commands

/-- `planIncrementalIndex` with its fallback. -/
def planIncrementalIndex (fileIndex : FileIndex) (indexState : Option IndexState) (c : Commands)
    (includeUncommitted : Bool) : IncrementalIndexPlan :=
  if !c.isGitRepository then planWithoutGit fileIndex c.files
  else
    match commit? (indexState.bind IndexState.lastIndexedCommit), commit? c.getHeadCommit with
    | some _, some _ =>
      match c.getDiff with
      | .error _ => planWithoutGit fileIndex c.files
      | .ok gitDiff =>
        planFromDiff fileIndex c.files
          (if includeUncommitted then mergeGitDiffs gitDiff c.getWorkingTreeChanges else gitDiff)
    | _, _ => createFullIndexPlan c.files "No previous index state"

/-! ## A failure is an empty answer -/

/-- The run as it looks where a command that fails prints nothing. -/
def Commands.swallowed (c : Commands) : Reports :=
  let answered := c.stagedDiff.toBool && c.unstagedDiff.toBool && c.lsFiles.toBool
  { files := c.files
    isGitRepository := c.isGitRepository
    headCommit := c.getHeadCommit
    currentBranch := c.getCurrentBranch
    diff := c.diff.toOption.getD []
    staged := if answered then c.stagedDiff.toOption.getD [] else []
    unstaged := if answered then c.unstagedDiff.toOption.getD [] else []
    untracked := if answered then c.lsFiles.toOption.getD [] else [] }

theorem getDiff_swallowed (c : Commands) (h : c.isGitRepository = true) :
    c.getDiff = .ok (GitTracker.getDiff c.swallowed.diff) := by
  rw [Commands.getDiff, h, Commands.swallowed]
  cases c.diff with
  | ok output => rfl
  | error message => rfl

theorem getWorkingTreeChanges_swallowed (c : Commands) (h : c.isGitRepository = true) :
    c.getWorkingTreeChanges = GitTracker.getWorkingTreeChanges c.swallowed.staged
      c.swallowed.unstaged c.swallowed.untracked := by
  rw [Commands.getWorkingTreeChanges, h, Commands.swallowed]
  cases c.stagedDiff with
  | error message => rfl
  | ok staged =>
    cases c.unstagedDiff with
    | error message => rfl
    | ok unstaged =>
      cases c.lsFiles with
      | error message => rfl
      | ok untracked => rfl

/-- No failure shows in the plan: it is the one for what the commands would have printed. -/
theorem planIncrementalIndex_swallowed (fileIndex : FileIndex) (indexState : Option IndexState)
    (c : Commands) (includeUncommitted : Bool) :
    planIncrementalIndex fileIndex indexState c includeUncommitted =
      GitAwareIndexer.planIncrementalIndex fileIndex indexState c.swallowed includeUncommitted := by
  rw [planIncrementalIndex, GitAwareIndexer.planIncrementalIndex]
  have hfiles : c.swallowed.files = c.files := rfl
  have hrepo : c.swallowed.isGitRepository = c.isGitRepository := rfl
  have hhead : c.swallowed.headCommit = c.getHeadCommit := rfl
  rw [hfiles, hrepo, hhead]
  split
  · rfl
  rename_i hgit
  have hgit : c.isGitRepository = true := by simpa using hgit
  rw [getDiff_swallowed c hgit, getWorkingTreeChanges_swallowed c hgit]
  rfl

/-! ## When `git diff` fails -/

/-- `git diff` is called, for the last indexed commit and the head, and fails. -/
structure DiffFails (indexState : Option IndexState) (c : Commands) : Prop where
  repository : c.isGitRepository = true
  last : (commit? (indexState.bind IndexState.lastIndexedCommit)).isSome = true
  head : (commit? c.getHeadCommit).isSome = true
  failed : c.diff.toBool = false

/-- No file that the file index would call changed is left out of the plan. -/
def KeepsChanged (fileIndex : FileIndex) (files : List FileInfo) (plan : IncrementalIndexPlan) :
    Prop :=
  ∀ f ∈ fileIndex.getChangedFiles files, HasPath plan.filesToIndex f.relativePath

theorem planWithoutGit_keepsChanged (fileIndex : FileIndex) (files : List FileInfo) :
    KeepsChanged fileIndex files (planWithoutGit fileIndex files) :=
  fun _ hf => hasPath_of_mem hf

section Fails

variable {fileIndex : FileIndex} {indexState : Option IndexState} {c : Commands}

/-- What is left of the diff: the changes of the working tree, where they are asked for. -/
def uncommitted (c : Commands) (includeUncommitted : Bool) : GitDiffResult :=
  if includeUncommitted then mergeGitDiffs .empty c.getWorkingTreeChanges else .empty

theorem plan_of_diffFails (h : DiffFails indexState c) (includeUncommitted : Bool) :
    planIncrementalIndex fileIndex indexState c includeUncommitted =
      planFromDiff fileIndex c.files (uncommitted c includeUncommitted) := by
  obtain ⟨hrepo, hlast, hhead, hfailed⟩ := h
  obtain ⟨last, hlast⟩ := Option.isSome_iff_exists.mp hlast
  obtain ⟨head, hhead⟩ := Option.isSome_iff_exists.mp hhead
  have hdiff : c.getDiff = .ok .empty := by
    rw [Commands.getDiff, hrepo]
    cases hcommand : c.diff with
    | error message => rfl
    | ok output => simp [hcommand, Except.toBool] at hfailed
  rw [planIncrementalIndex, hrepo, hlast, hhead, hdiff]
  rfl

theorem uncommitted_distinct (c : Commands) (includeUncommitted : Bool) :
    (uncommitted c includeUncommitted).Distinct := by
  have hempty : GitDiffResult.empty.Distinct := List.nodup_nil
  rw [uncommitted]
  split
  · exact distinct_merge hempty _
  · exact hempty

theorem touches_uncommitted (c : Commands) (includeUncommitted : Bool) (path : String) :
    Touches (uncommitted c includeUncommitted).Lists path ↔
      includeUncommitted = true ∧ Touches c.getWorkingTreeChanges.Lists path := by
  have hempty : ¬ Touches GitDiffResult.empty.Lists path := by
    simp [Touches, lists_empty]
  have hunique : RenamesOnce fun change =>
      GitDiffResult.empty.Lists change ∨ c.getWorkingTreeChanges.Lists change :=
    (renamesOnce_lists _).mono fun change hchange => hchange.resolve_left (lists_empty change)
  cases includeUncommitted with
  | false => simpa [uncommitted] using hempty
  | true => simp [uncommitted, touches_merge hunique, hempty]

/-- Where `git diff` fails, the plan is never the file-based one; and no changed file is left out
of it exactly if the working tree changes, asked for and printed, list every changed file that is
in the index. -/
theorem failed_diff_plan_iff (h : DiffFails indexState c) (includeUncommitted : Bool) :
    planIncrementalIndex fileIndex indexState c includeUncommitted ≠
        planWithoutGit fileIndex c.files ∧
      (KeepsChanged fileIndex c.files
          (planIncrementalIndex fileIndex indexState c includeUncommitted) ↔
        ∀ f ∈ fileIndex.getChangedFiles c.files, fileIndex.getFile f.relativePath ≠ none →
          includeUncommitted = true ∧ Touches c.getWorkingTreeChanges.Lists f.relativePath) := by
  rw [plan_of_diffFails h]
  constructor
  · intro heq
    exact absurd (congrArg IncrementalIndexPlan.gitDiff heq) (Option.some_ne_none _)
  · refine forall₂_congr fun f hf => ?_
    have hcrawled := hasPath_of_mem (List.mem_of_mem_filter hf)
    rw [planFromDiff_updates fileIndex (uncommitted_distinct c includeUncommitted),
      touches_uncommitted, FileIndex.getFile]
    constructor
    · exact fun hplan hindexed => hplan.2.resolve_right hindexed
    · intro hlisted
      by_cases hindexed : fileIndex.get? f.relativePath = none
      · exact ⟨hcrawled, Or.inr hindexed⟩
      · exact ⟨hcrawled, Or.inl (hlisted hindexed)⟩

end Fails

/-! ## A commit that is gone -/

/-- A file whose change is committed, in a clean working tree, after the commit that was indexed
last was dropped. -/
def droppedCommit : Commands where
  files := [⟨"a.ts", "new", 2⟩]
  isGitRepository := true
  revParseHead := .ok "head"
  branchShowCurrent := .ok "main"
  diff := .error "fatal: bad object last"
  stagedDiff := .ok []
  unstagedDiff := .ok []
  lsFiles := .ok []

def staleIndex : FileIndex := [("a.ts", ⟨"a.ts", "old", 1, 1, 1⟩)]

def lastState : IndexState where
  lastIndexedCommit := some "last"
  lastIndexedAt := 1
  branch := "main"
  totalFiles := 1
  includesUncommitted := true

theorem droppedCommit_plan : (planIncrementalIndex staleIndex (some lastState) droppedCommit
    true).filesToIndex = [] := by
  decide +kernel

theorem droppedCommit_fails : DiffFails (some lastState) droppedCommit :=
  ⟨rfl, by decide, by decide, rfl⟩

/-- The changed file is left out of the plan, also with the uncommitted changes. -/
theorem failed_diff_leaves_out :
    ¬ ∀ (fileIndex : FileIndex) (indexState : Option IndexState) (c : Commands)
      (includeUncommitted : Bool), DiffFails indexState c →
        planIncrementalIndex fileIndex indexState c includeUncommitted =
          planWithoutGit fileIndex c.files ∧
        KeepsChanged fileIndex c.files
          (planIncrementalIndex fileIndex indexState c includeUncommitted) := by
  intro h
  have hkept := (h staleIndex (some lastState) droppedCommit true droppedCommit_fails).2
    ⟨"a.ts", "new", 2⟩ (by decide +kernel)
  rw [HasPath, droppedCommit_plan] at hkept
  exact absurd hkept List.not_mem_nil

/-- The same run through the exact condition. -/
theorem failed_diff_plan_dropped :
    DiffFails (some lastState) droppedCommit ∧
      ¬ KeepsChanged staleIndex droppedCommit.files
        (planIncrementalIndex staleIndex (some lastState) droppedCommit true) := by
  refine ⟨droppedCommit_fails, fun hkept => ?_⟩
  have hlisted := (failed_diff_plan_iff droppedCommit_fails true).2.mp hkept
    ⟨"a.ts", "new", 2⟩ (by decide +kernel) (by decide +kernel)
  have hclean : droppedCommit.getWorkingTreeChanges = .empty := rfl
  rw [hclean] at hlisted
  exact absurd hlisted.2 (by simp [Touches, lists_empty])

end GitFallback
end Batiste
