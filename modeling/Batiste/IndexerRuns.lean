import Batiste.IndexerPlan
import Batiste.Transition

/-! Runs of repository changes and `index_codebase` calls, and when the file index follows the
working tree. -/
namespace Batiste
namespace GitAwareIndexer

open GitTracker TreeDiff Transition

variable {Blob : Type}

structure WorkFile (Blob : Type) where
  blob : Blob
  modifiedAt : ℚ

structure Repo (Blob : Type) where
  isGit : Bool
  head : Option String
  branch : String
  staged : FileTree Blob
  work : String → Option (WorkFile Blob)

def Repo.blobs (repo : Repo Blob) : FileTree Blob := fun path => (repo.work path).map WorkFile.blob

/-- The working tree as far as git tracks it. -/
def Repo.tracked (repo : Repo Blob) : FileTree Blob :=
  fun path => if (repo.staged path).isSome then repo.blobs path else none

/-- The hash function, the object store of git, and the ignore rules of the crawler and of git. -/
structure Host (Blob : Type) where
  hash : Blob → String
  commit : String → FileTree Blob
  visible : (String → Option (WorkFile Blob)) → String → Bool
  excluded : (String → Option (WorkFile Blob)) → String → Bool
  visible_work : ∀ work path, visible work path = true → work path ≠ none

structure World (Blob : Type) where
  repo : Repo Blob
  dir : DataDir

inductive Action (Blob : Type)
  | change (repo : Repo Blob)
  | index (mode : Mode) (includeUncommitted : Bool) (r : Reports) (now : ℚ)

def step (s : World Blob) : Action Blob → Option (World Blob)
  | .change repo => some { s with repo }
  | .index mode includeUncommitted r now =>
    some { s with dir := (indexCodebase mode includeUncommitted r now s.dir).1 }

/-- The commit a run in this mode compares with. -/
def recorded (s : World Blob) (mode : Mode) : Option String :=
  if mode = .full then none else commit? (s.dir.indexState.bind IndexState.lastIndexedCommit)

def Repo.Untracked (host : Host Blob) (repo : Repo Blob) (path : String) : Prop :=
  repo.staged path = none ∧ repo.work path ≠ none ∧ host.excluded repo.work path = false

def Crawled (host : Host Blob) (repo : Repo Blob) (f : FileInfo) : Prop :=
  ∃ w, repo.work f.relativePath = some w ∧ f.hash = host.hash w.blob ∧ f.modifiedAt = w.modifiedAt

/-- Git and the crawler report the tree as it is. -/
structure Faithful (host : Host Blob) (s : World Blob) (mode : Mode) (r : Reports) : Prop where
  isGit : r.isGitRepository = s.repo.isGit
  head : r.headCommit = s.repo.head
  files : ∀ f ∈ r.files, Crawled host s.repo f
  crawled : ∀ path, HasPath r.files path ↔ host.visible s.repo.work path = true
  diff : ∀ last head, recorded s mode = some last → commit? s.repo.head = some head →
    DiffReports (host.commit last) (host.commit head) r.diff
  staged : ∀ head, commit? s.repo.head = some head →
    DiffReports (host.commit head) s.repo.staged r.staged
  unstaged : DiffReports s.repo.staged s.repo.tracked r.unstaged
  untracked : ∀ path, path ∈ r.untracked ↔ s.repo.Untracked host path
  named : "" ∉ r.untracked

def FaithfulAction (host : Host Blob) (s : World Blob) : Action Blob → Prop
  | .change _ => True
  | .index mode _ r _ => Faithful host s mode r

/-- The entry that a run on an empty index writes. -/
def scratch (host : Host Blob) (repo : Repo Blob) (now : ℚ) (path : String) :
    Option IndexedFileInfo :=
  if host.visible repo.work path then
    (repo.work path).map fun w => indexedInfo now ⟨path, host.hash w.blob, w.modifiedAt⟩
  else none

/-- The entry without the time of its run. -/
def untimed (e : IndexedFileInfo) : IndexedFileInfo := { e with indexedAt := 0 }

/-- The file index is the one built from scratch on the working tree. -/
def Converged (host : Host Blob) (s : World Blob) : Prop :=
  ∀ path, (s.dir.fileIndex.get? path).map untimed = (scratch host s.repo 0 path).map untimed

/-- Every run leaves the file index of the current working tree. -/
def Converges (host : Host Blob) (s : World Blob) (a : Action Blob) : Prop :=
  match a with
  | .change _ => True
  | .index .. => ∀ t, step s a = some t → Converged host t

/-- The index has an entry for the path that does not show the file in the working tree. -/
def Stale (host : Host Blob) (s : World Blob) (path : String) : Prop :=
  ∃ e w, s.dir.fileIndex.get? path = some e ∧ s.repo.work path = some w ∧
    (e.mtime ≠ w.modifiedAt ∨ e.hash ≠ host.hash w.blob)

/-- Some change that the run looks at removes the path. -/
def SeenGone (host : Host Blob) (repo : Repo Blob) (last head : String)
    (includeUncommitted : Bool) (path : String) : Prop :=
  Gone (host.commit last) (host.commit head) path ∨
    includeUncommitted ∧ (Gone (host.commit head) repo.staged path ∨
      Gone repo.staged repo.blobs path)

/-- Some change that the run looks at adds or modifies the path. -/
def SeenTouched (host : Host Blob) (repo : Repo Blob) (last head : String)
    (includeUncommitted : Bool) (path : String) : Prop :=
  Touched (host.commit last) (host.commit head) path ∨
    includeUncommitted ∧ (Touched (host.commit head) repo.staged path ∨
      Touched repo.staged repo.tracked path ∨ repo.Untracked host path)

/-- What has to hold of the tree and of the old index for an incremental run. -/
structure KeepsUp (host : Host Blob) (s : World Blob) (last head : String)
    (includeUncommitted : Bool) : Prop where
  present : ∀ path, host.visible s.repo.work path = true →
    ¬ SeenGone host s.repo last head includeUncommitted path
  stale : ∀ path, host.visible s.repo.work path = true → Stale host s path →
    SeenTouched host s.repo last head includeUncommitted path
  absent : ∀ path, host.visible s.repo.work path = false → s.dir.fileIndex.get? path ≠ none →
    SeenGone host s.repo last head includeUncommitted path

/-- The runs that the index survives. -/
def Tracks (host : Host Blob) (s : World Blob) : Action Blob → Prop
  | .change _ => True
  | .index mode includeUncommitted _ _ =>
    s.repo.isGit = true →
      match recorded s mode, commit? s.repo.head with
      | some last, some head => KeepsUp host s last head includeUncommitted
      | _, _ => ∀ path, host.visible s.repo.work path = false → s.dir.fileIndex.get? path = none

section Run

variable {host : Host Blob} {s : World Blob} {mode : Mode} {r : Reports}

theorem scratch_eq_none (host : Host Blob) (repo : Repo Blob) (now : ℚ) (path : String) :
    scratch host repo now path = none ↔ host.visible repo.work path = false := by
  unfold scratch
  split
  · next hvisible => simp [hvisible, host.visible_work repo.work path hvisible]
  · next hhidden => simpa using hhidden

theorem scratch_crawled (h : Faithful host s mode r) {f : FileInfo} (hf : f ∈ r.files) (now : ℚ) :
    scratch host s.repo now f.relativePath = some (indexedInfo now f) := by
  obtain ⟨w, hw, hhash, htime⟩ := h.files f hf
  have hvisible := (h.crawled f.relativePath).mp (hasPath_of_mem hf)
  simp [scratch, hvisible, hw, ← hhash, ← htime]

theorem untimed_scratch (host : Host Blob) (repo : Repo Blob) (now : ℚ) (path : String) :
    (scratch host repo 0 path).map untimed = (scratch host repo now path).map untimed := by
  unfold scratch
  split
  · rw [Option.map_map, Option.map_map]
    rfl
  · rfl

/-- The entry of a visible file is what a new one would be, or does not show the file. -/
theorem entry_ne_scratch_iff (hwf : WellFormed s.dir.fileIndex) {path : String} (now : ℚ)
    (hvisible : host.visible s.repo.work path = true) :
    (s.dir.fileIndex.get? path).map untimed ≠ (scratch host s.repo now path).map untimed ↔
      s.dir.fileIndex.get? path = none ∨ Stale host s path := by
  obtain ⟨w, hw⟩ := Option.ne_none_iff_exists'.mp (host.visible_work s.repo.work path hvisible)
  have hscratch : scratch host s.repo now path =
      some (indexedInfo now ⟨path, host.hash w.blob, w.modifiedAt⟩) := by
    simp [scratch, hvisible, hw]
  rw [hscratch]
  cases hentry : s.dir.fileIndex.get? path with
  | none => simp
  | some e =>
    obtain ⟨hpath, hchunks⟩ := hwf path e hentry
    have hstale : Stale host s path ↔ e.mtime ≠ w.modifiedAt ∨ e.hash ≠ host.hash w.blob := by
      simp [Stale, hentry, hw]
    rw [hstale]
    simp only [Option.map_some, ne_eq, Option.some.injEq, untimed, indexedInfo,
      IndexedFileInfo.mk.injEq, hpath, hchunks]
    grind

/-- Which updates and removals of a plan leave the index of the working tree. -/
theorem converged_iff (h : Faithful host s mode r) (hwf : WellFormed s.dir.fileIndex)
    {plan : IncrementalIndexPlan} (hplan : ∀ f ∈ plan.filesToIndex, f ∈ r.files) (now : ℚ)
    (state : Option IndexState) :
    Converged host { s with dir := ⟨applyPlan s.dir.fileIndex plan now, state⟩ } ↔
      (∀ path, host.visible s.repo.work path = true → path ∉ plan.filesToRemove ∧
        (s.dir.fileIndex.get? path = none ∨ Stale host s path → HasPath plan.filesToIndex path)) ∧
      ∀ path, host.visible s.repo.work path = false → s.dir.fileIndex.get? path ≠ none →
        path ∈ plan.filesToRemove := by
  have htarget : ∀ f ∈ plan.filesToIndex,
      scratch host s.repo now f.relativePath = some (indexedInfo now f) :=
    fun f hf => scratch_crawled h (hplan f hf) now
  have hupdated : ∀ path, HasPath plan.filesToIndex path → scratch host s.repo now path ≠ none := by
    intro path hpath
    obtain ⟨f, hf, rfl⟩ := List.mem_map.mp hpath
    simp [htarget f hf]
  have hpath : ∀ path, ((applyPlan s.dir.fileIndex plan now).get? path).map untimed =
      (scratch host s.repo 0 path).map untimed ↔
      (host.visible s.repo.work path = true → path ∉ plan.filesToRemove ∧
        (s.dir.fileIndex.get? path = none ∨ Stale host s path → HasPath plan.filesToIndex path)) ∧
      (host.visible s.repo.work path = false → s.dir.fileIndex.get? path ≠ none →
        path ∈ plan.filesToRemove) := by
    intro path
    rw [untimed_scratch host s.repo now path, get?_applyPlan _ _ _ _ htarget,
      patch_apply_eq_iff untimed (hupdated path), scratch_eq_none, ne_eq, scratch_eq_none,
      Bool.not_eq_false]
    refine and_congr_left' ?_
    refine forall_congr' fun hvisible => ?_
    rw [entry_ne_scratch_iff hwf now hvisible]
  exact (forall_congr' hpath).trans forall_and

theorem converged_without_git (h : Faithful host s mode r) (hwf : WellFormed s.dir.fileIndex)
    (now : ℚ) (state : Option IndexState) : Converged host
      { s with dir := ⟨applyPlan s.dir.fileIndex (planWithoutGit s.dir.fileIndex r.files) now,
        state⟩ } := by
  have hfiles : ∀ f ∈ (planWithoutGit s.dir.fileIndex r.files).filesToIndex, f ∈ r.files :=
    fun f hf => ((mem_getChangedFiles s.dir.fileIndex f).mp hf).1
  refine (converged_iff h hwf hfiles now state).mpr ⟨fun path hvisible => ?_, fun path hhidden => ?_⟩
  · have hcrawled := (h.crawled path).mpr hvisible
    refine ⟨fun hremoved => ?_, fun hnew => ?_⟩
    · exact ((mem_getDeletedFiles s.dir.fileIndex path).mp hremoved).2 hcrawled
    · obtain ⟨f, hf, rfl⟩ := List.mem_map.mp hcrawled
      refine hasPath_of_mem ((mem_getChangedFiles s.dir.fileIndex f).mpr ⟨hf, ?_⟩)
      intro e he
      obtain ⟨w, hw, hhash, htime⟩ := h.files f hf
      rcases hnew with hnone | ⟨e', w', he', hw', hdiffer⟩
      · simp [hnone] at he
      · obtain rfl := Option.some.inj (he.symm.trans he')
        obtain rfl := Option.some.inj (hw.symm.trans hw')
        rwa [hhash, htime]
  · intro hentry
    refine (mem_getDeletedFiles s.dir.fileIndex path).mpr ⟨hentry, fun hcrawled => ?_⟩
    rw [(h.crawled path).mp hcrawled] at hhidden
    cases hhidden

theorem converged_full_iff (h : Faithful host s mode r) (hwf : WellFormed s.dir.fileIndex)
    (now : ℚ) (reason : String) (state : Option IndexState) : Converged host
      { s with dir := ⟨applyPlan s.dir.fileIndex (createFullIndexPlan r.files reason) now,
        state⟩ } ↔
      ∀ path, host.visible s.repo.work path = false → s.dir.fileIndex.get? path = none := by
  rw [converged_iff h hwf (fun f hf => hf) now state]
  simp only [createFullIndexPlan, List.not_mem_nil, not_false_eq_true, true_and, imp_false, not_not]
  refine and_iff_right fun path hvisible _ => ?_
  exact (h.crawled path).mpr hvisible

section Diff

variable {last head : String} (h : Faithful host s mode r) (hlast : recorded s mode = some last)
  (hhead : commit? s.repo.head = some head)

include h

/-- The unstaged changes are to tracked files: nothing is added, so nothing is renamed. -/
theorem not_renamed_unstaged (oldPath newPath : String) :
    .renamed oldPath newPath ∉ r.unstaged.filterMap readLine := by
  intro hc
  cases h.unstaged.shown hc with
  | renamed hgone hx hy => simp [Repo.tracked, hx] at hy

include hhead

theorem renamesOnce_worktree : RenamesOnce fun c =>
    c ∈ r.staged.filterMap readLine ∨ c ∈ r.unstaged.filterMap readLine :=
  renamesOnce_or (h.staged head hhead).renamesOnce h.unstaged.renamesOnce
    fun oldPath _ newPath' _ => not_renamed_unstaged h oldPath newPath'

include hlast

theorem renamesOnce_merge : RenamesOnce fun c => (getDiff r.diff).Lists c ∨
    (getWorkingTreeChanges r.staged r.unstaged r.untracked).Lists c := by
  have hdiff := h.diff last head hlast hhead
  refine renamesOnce_or (renamesOnce_lists _) (renamesOnce_lists _) ?_
  intro oldPath newPath newPath' hfirst hsecond
  rw [lists_getDiff hdiff.renamesOnce] at hfirst
  rw [lists_getWorkingTreeChanges (renamesOnce_worktree h hhead)] at hsecond
  obtain (hstaged | hunstaged) | ⟨line, -, -, hline⟩ := hsecond
  · exact (hdiff.gone_of_renamed hfirst).not_next ((h.staged head hhead).gone_of_renamed hstaged)
  · exact not_renamed_unstaged h oldPath newPath' hunstaged
  · cases hline

theorem touches_gatherDiff (includeUncommitted : Bool) (path : String) :
    Touches (gatherDiff r includeUncommitted).Lists path ↔
      SeenTouched host s.repo last head includeUncommitted path := by
  have hdiff := h.diff last head hlast hhead
  have hcommitted : Touches (getDiff r.diff).Lists path ↔
      Touched (host.commit last) (host.commit head) path := by
    rw [← hdiff.touches_iff]
    simp only [Touches, lists_getDiff hdiff.renamesOnce]
  have hnamed : path ≠ "" ∧ path ∈ r.untracked ↔ s.repo.Untracked host path := by
    rw [h.untracked]
    refine and_iff_right_of_imp fun huntracked hempty => h.named ?_
    exact (h.untracked "").mpr (hempty ▸ huntracked)
  unfold gatherDiff SeenTouched
  cases includeUncommitted with
  | false => simp [hcommitted]
  | true =>
    rw [if_pos rfl, touches_merge (renamesOnce_merge h hlast hhead), hcommitted,
      touches_getWorkingTreeChanges (renamesOnce_worktree h hhead),
      (h.staged head hhead).touches_iff, h.unstaged.touches_iff, hnamed, or_assoc]
    simp

theorem removes_gatherDiff (includeUncommitted : Bool) (path : String) :
    Removes (gatherDiff r includeUncommitted).Lists path ↔
      SeenGone host s.repo last head includeUncommitted path := by
  have hdiff := h.diff last head hlast hhead
  have hcommitted : Removes (getDiff r.diff).Lists path ↔
      Gone (host.commit last) (host.commit head) path := by
    rw [← hdiff.removes_iff]
    simp only [Removes, lists_getDiff hdiff.renamesOnce]
  have hunstaged : Gone s.repo.staged s.repo.tracked path ↔
      Gone s.repo.staged s.repo.blobs path := by
    refine and_congr_right fun hstaged => ?_
    simp [Repo.tracked, Option.isSome_iff_ne_none, hstaged]
  unfold gatherDiff SeenGone
  cases includeUncommitted with
  | false => simp [hcommitted]
  | true =>
    rw [if_pos rfl, removes_merge (renamesOnce_merge h hlast hhead), hcommitted,
      removes_getWorkingTreeChanges (renamesOnce_worktree h hhead),
      (h.staged head hhead).removes_iff, h.unstaged.removes_iff, hunstaged]
    simp

omit h hlast hhead in
theorem distinct_gatherDiff (r : Reports) (includeUncommitted : Bool) :
    (gatherDiff r includeUncommitted).Distinct := by
  unfold gatherDiff
  split
  · exact distinct_merge (distinct_getDiff r.diff) _
  · exact distinct_getDiff r.diff

theorem converged_diff_iff (hwf : WellFormed s.dir.fileIndex) (includeUncommitted : Bool)
    (now : ℚ) (state : Option IndexState) : Converged host
      { s with dir := ⟨applyPlan s.dir.fileIndex
        (planFromDiff s.dir.fileIndex r.files (gatherDiff r includeUncommitted)) now, state⟩ } ↔
      KeepsUp host s last head includeUncommitted := by
  rw [converged_iff h hwf (fun f hf => mem_planFromDiff s.dir.fileIndex hf) now state]
  simp only [planFromDiff_removes, removes_gatherDiff h hlast hhead,
    planFromDiff_updates s.dir.fileIndex (distinct_gatherDiff r includeUncommitted),
    touches_gatherDiff h hlast hhead, h.crawled]
  constructor
  · rintro ⟨hvisible, hhidden⟩
    refine ⟨fun path hp => (hvisible path hp).1, fun path hp hstale => ?_, hhidden⟩
    obtain ⟨e, w, he, -⟩ := id hstale
    have hseen := ((hvisible path hp).2 (Or.inr hstale)).2
    exact hseen.resolve_right (by simp [he])
  · intro hkeeps
    refine ⟨fun path hp => ⟨hkeeps.present path hp, fun hnew => ⟨hp, ?_⟩⟩, hkeeps.absent⟩
    exact hnew.elim Or.inr fun hstale => Or.inl (hkeeps.stale path hp hstale)

end Diff

theorem recorded_eq (s : World Blob) (mode : Mode) :
    commit? ((if mode = .full then some forgottenState else s.dir.indexState).bind
      IndexState.lastIndexedCommit) = recorded s mode := by
  unfold recorded
  split <;> rfl

theorem converges_iff_tracks {a : Action Blob} (h : FaithfulAction host s a)
    (hwf : WellFormed s.dir.fileIndex) : Converges host s a ↔ Tracks host s a := by
  cases a with
  | change repo => exact Iff.rfl
  | index mode includeUncommitted r now =>
    have hstep : Converges host s (.index mode includeUncommitted r now) ↔
        Converged host { s with dir := (indexCodebase mode includeUncommitted r now s.dir).1 } := by
      simp [Converges, step]
    rw [hstep]
    unfold indexCodebase planIncrementalIndex Tracks
    simp only [recorded_eq, h.isGit, h.head]
    cases hgit : s.repo.isGit with
    | false =>
      simp only [Bool.not_false, if_true, Bool.false_eq_true, false_imp_iff, iff_true]
      exact converged_without_git h hwf now _
    | true =>
      simp only [Bool.not_true, Bool.false_eq_true, if_false, forall_const]
      cases hlast : recorded s mode with
      | none => exact converged_full_iff h hwf now _ _
      | some last =>
        cases hhead : commit? s.repo.head with
        | none => exact converged_full_iff h hwf now _ _
        | some head => exact converged_diff_iff h hlast hhead hwf includeUncommitted now _

end Run

theorem wellFormed_step {s t : World Blob} {a : Action Blob} (h : WellFormed s.dir.fileIndex)
    (hstep : step s a = some t) : WellFormed t.dir.fileIndex := by
  cases a with
  | change repo =>
    obtain rfl := Option.some.inj hstep
    exact h
  | index mode includeUncommitted r now =>
    obtain rfl := Option.some.inj hstep
    exact wellFormed_applyPlan h _ now

theorem index_follows_iff (host : Host Blob) {s₀ : World Blob} (hstart : s₀.dir.fileIndex = [])
    {as : List (Action Blob)} (hfaithful : Each step s₀ as fun _ s a => FaithfulAction host s a) :
    (Each step s₀ as fun _ s a => Converges host s a) ↔
      Each step s₀ as fun _ s a => Tracks host s a := by
  have hwf : ∀ pre s, run step s₀ pre = some s → WellFormed s.dir.fileIndex := fun pre s hs =>
    run_invariant (I := fun s => WellFormed s.dir.fileIndex) (fun _ _ _ => wellFormed_step)
      (hstart ▸ wellFormed_nil) hs
  constructor
  · intro h pre a post s has hs
    exact (converges_iff_tracks (hfaithful pre a post s has hs) (hwf pre s hs)).mp
      (h pre a post s has hs)
  · intro h pre a post s has hs
    exact (converges_iff_tracks (hfaithful pre a post s has hs) (hwf pre s hs)).mpr
      (h pre a post s has hs)

/-! A project of one committed file whose working copy is edited. -/

def soleFile (content : String) : FileTree String :=
  fun path => if path = "src/a.ts" then some content else none

def soleHost : Host String where
  hash := id
  commit := fun _ => soleFile "one"
  visible := fun work path => (work path).isSome
  excluded := fun _ _ => false
  visible_work := fun _ _ h => Option.isSome_iff_ne_none.mp h

def soleRepo (content : String) : Repo String where
  isGit := true
  head := some "c1"
  branch := "main"
  staged := soleFile "one"
  work := fun path => (soleFile content path).map fun blob => ⟨blob, 0⟩

def soleReports (content : String) : Reports where
  files := [⟨"src/a.ts", content, 0⟩]
  isGitRepository := true
  headCommit := some "c1"
  currentBranch := "main"
  diff := []
  staged := []
  unstaged := if content = "one" then [] else [["M", "src/a.ts"]]
  untracked := []

def soleIndex (content : String) : Action String := .index .incremental true (soleReports content) 0

theorem diffReports_refl (x : FileTree Blob) : DiffReports x x [] where
  sound := by simp
  touched := fun _ htouched => absurd rfl htouched.2
  gone := fun _ hgone => absurd hgone.2 hgone.1
  once := by
    rintro _ _ _ ⟨_, hline, -⟩
    simp at hline

theorem soleRepo_tracked (content : String) : (soleRepo content).tracked = soleFile content := by
  funext path
  by_cases hpath : path = "src/a.ts" <;> simp [Repo.tracked, Repo.blobs, soleRepo, soleFile, hpath]

theorem diffReports_edited {content : String} (h : content ≠ "one") :
    DiffReports (soleFile "one") (soleFile content) [["M", "src/a.ts"]] where
  sound := by
    intro line hline
    obtain rfl := List.mem_singleton.mp hline
    exact ⟨.modified "src/a.ts", .modified (by simp [soleFile]) (by simp [soleFile])
      (by simp [soleFile, Ne.symm h]), .modified (by decide)⟩
  touched := by
    intro path htouched
    have hpath : path = "src/a.ts" := by
      by_contra hne
      simp [Touched, soleFile, hne] at htouched
    subst hpath
    exact Or.inr (Or.inl ⟨_, List.mem_singleton_self _, .modified (by decide)⟩)
  gone := by
    intro path hgone
    by_cases hpath : path = "src/a.ts" <;> simp [Gone, soleFile, hpath] at hgone
  once := by
    rintro _ _ _ ⟨_, hline, hprinted⟩
    obtain rfl := List.mem_singleton.mp hline
    have hread := readLine_printed hprinted
    simp [readLine] at hread

theorem faithful_soleReports (content : String) (dir : DataDir) :
    Faithful soleHost ⟨soleRepo content, dir⟩ .incremental (soleReports content) where
  isGit := rfl
  head := rfl
  files := by
    intro f hf
    obtain rfl := List.mem_singleton.mp hf
    exact ⟨⟨content, 0⟩, rfl, rfl, rfl⟩
  crawled := by
    intro path
    by_cases hpath : path = "src/a.ts" <;>
      simp [HasPath, soleReports, soleHost, soleRepo, soleFile, hpath]
  diff := fun _ _ _ _ => diffReports_refl _
  staged := fun _ _ => diffReports_refl _
  unstaged := by
    change DiffReports (soleFile "one") (soleRepo content).tracked _
    rw [soleRepo_tracked]
    by_cases hcontent : content = "one"
    · simp [soleReports, hcontent, diffReports_refl]
    · simpa [soleReports, hcontent] using diffReports_edited hcontent
  untracked := by
    intro path
    by_cases hpath : path = "src/a.ts" <;>
      simp [Repo.Untracked, soleReports, soleHost, soleRepo, soleFile, hpath]
  named := by simp [soleReports]

def soleWorld (content : String) : World String := ⟨soleRepo content, ⟨[], none⟩⟩

/-- An edit that is not committed is indexed. -/
theorem index_follows_edit : Each step (soleWorld "one")
    [soleIndex "one", .change (soleRepo "two"), soleIndex "two"]
    fun _ s a => Converges soleHost s a := by
  refine (index_follows_iff soleHost rfl ?_).mpr ?_
  · refine each_cons (faithful_soleReports "one" _) rfl (each_cons trivial rfl ?_)
    exact each_cons (faithful_soleReports "two" _) rfl (each_nil _ _)
  · refine each_cons (fun _ _ _ => rfl) rfl (each_cons trivial rfl (each_cons ?_ rfl (each_nil _ _)))
    intro _
    have hpath : ∀ path, (soleRepo "two").work path ≠ none → path = "src/a.ts" := by
      intro path hwork
      by_contra hne
      simp [soleRepo, soleFile, hne] at hwork
    refine ⟨fun path hvisible hgone => ?_, fun path hvisible _ => ?_, fun path hhidden hentry => ?_⟩
    · obtain rfl := hpath path (soleHost.visible_work _ path hvisible)
      simp [SeenGone, Gone, soleHost, soleRepo, soleFile, Repo.blobs] at hgone
    · obtain rfl := hpath path (soleHost.visible_work _ path hvisible)
      exact Or.inr ⟨rfl, Or.inr (Or.inl (by simp [Touched, soleRepo, soleFile, Repo.tracked, Repo.blobs]))⟩
    · refine absurd (Dict.get?_eq_none.mpr fun hkey => ?_) hentry
      obtain rfl : path = "src/a.ts" := List.mem_singleton.mp hkey
      cases hhidden

/-- An edit that is indexed before it is reverted stays in the index. -/
theorem reverted_edit_stays : ¬ ∀ (host : Host String) (s₀ : World String)
    (as : List (Action String)), s₀.dir = ⟨[], none⟩ →
      Each step s₀ as (fun _ s a => FaithfulAction host s a) →
      Each step s₀ as fun _ s a => Converges host s a := by
  intro hclaim
  have hruns := hclaim soleHost (soleWorld "one") [soleIndex "one", .change (soleRepo "two"),
    soleIndex "two", .change (soleRepo "one"), soleIndex "one"] rfl ?_
  · have hlast := hruns [soleIndex "one", .change (soleRepo "two"), soleIndex "two",
      .change (soleRepo "one")] _ [] _ rfl rfl _ rfl "src/a.ts"
    have hhash := congrArg (Option.map IndexedFileInfo.hash) hlast
    revert hhash
    decide +kernel
  · refine each_cons (faithful_soleReports "one" _) rfl (each_cons trivial rfl ?_)
    refine each_cons (faithful_soleReports "two" _) rfl (each_cons trivial rfl ?_)
    exact each_cons (faithful_soleReports "one" _) rfl (each_nil _ _)

end GitAwareIndexer
end Batiste
