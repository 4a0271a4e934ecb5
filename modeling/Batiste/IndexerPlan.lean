import Batiste.GitAwareIndexer

/-! What the plan of one run updates and removes, and the file index it leaves. -/
namespace Batiste
namespace GitAwareIndexer

open GitTracker TreeDiff

/-- Some file of the list has the path. -/
def HasPath (files : List FileInfo) (path : String) : Prop :=
  path ∈ files.map FileInfo.relativePath

theorem hasPath_of_mem {files : List FileInfo} {f : FileInfo} (h : f ∈ files) :
    HasPath files f.relativePath := List.mem_map.mpr ⟨f, h, rfl⟩

theorem hasPath_append (fs gs : List FileInfo) (path : String) :
    HasPath (fs ++ gs) path ↔ HasPath fs path ∨ HasPath gs path := by
  simp [HasPath]

theorem get?_updateFiles (files : FileIndex) (fs : List FileInfo) (now : ℚ)
    (target : String → Option IndexedFileInfo)
    (htarget : ∀ f ∈ fs, target f.relativePath = some (indexedInfo now f)) (path : String) :
    (fs.foldl (fun files file => files.updateFile (indexedInfo now file)) files).get? path =
      if path ∈ fs.map FileInfo.relativePath then target path else files.get? path := by
  induction fs generalizing files with
  | nil => simp
  | cons f fs ih =>
    rw [List.foldl_cons, ih _ fun g hg => htarget g (List.mem_cons_of_mem f hg)]
    have hupdate : (FileIndex.updateFile files (indexedInfo now f)).get? path =
        if path = f.relativePath then some (indexedInfo now f) else files.get? path :=
      Dict.get?_set files f.relativePath path (indexedInfo now f)
    rw [hupdate]
    by_cases hpath : path = f.relativePath
    · subst hpath
      simp [htarget f List.mem_cons_self]
    · simp [hpath]

theorem get?_removeFiles (files : FileIndex) (paths : List String) (path : String) :
    (paths.foldl FileIndex.removeFile files).get? path =
      if path ∈ paths then none else files.get? path := by
  induction paths generalizing files with
  | nil => simp
  | cons p paths ih =>
    have hremove : (FileIndex.removeFile files p).get? path =
        if path = p then none else files.get? path := Dict.get?_erase files p path
    rw [List.foldl_cons, ih, hremove]
    by_cases hpath : path = p <;> simp [hpath]

/-- The updates are made before the removals. -/
theorem get?_applyPlan (fileIndex : FileIndex) (plan : IncrementalIndexPlan) (now : ℚ)
    (target : String → Option IndexedFileInfo)
    (htarget : ∀ f ∈ plan.filesToIndex, target f.relativePath = some (indexedInfo now f))
    (path : String) : (applyPlan fileIndex plan now).get? path =
      patch fileIndex.get? target (HasPath plan.filesToIndex) (· ∈ plan.filesToRemove) path := by
  unfold applyPlan patch HasPath
  rw [get?_removeFiles, get?_updateFiles _ _ _ target htarget]
  congr

theorem mem_addUnindexed {fileIndex : FileIndex} {currentFiles filesToIndex : List FileInfo}
    {f : FileInfo} (h : f ∈ addUnindexed fileIndex currentFiles filesToIndex) :
    f ∈ filesToIndex ∨ f ∈ currentFiles := by
  unfold addUnindexed at h
  induction currentFiles generalizing filesToIndex with
  | nil => exact Or.inl h
  | cons file files ih =>
    rw [List.foldl_cons] at h
    have hcases := ih h
    split at hcases
    · grind
    · grind

theorem hasPath_addUnindexed (fileIndex : FileIndex) (currentFiles filesToIndex : List FileInfo)
    (path : String) : HasPath (addUnindexed fileIndex currentFiles filesToIndex) path ↔
      HasPath filesToIndex path ∨ HasPath currentFiles path ∧ fileIndex.get? path = none := by
  unfold addUnindexed
  induction currentFiles generalizing filesToIndex with
  | nil => simp [HasPath]
  | cons file files ih =>
    have hany : (filesToIndex.any fun f => f.relativePath == file.relativePath) = true ↔
        HasPath filesToIndex file.relativePath := by
      simp [HasPath, List.any_eq_true, List.mem_map]
    have hnone : (fileIndex.getFile file.relativePath).isNone = true ↔
        fileIndex.get? file.relativePath = none := Option.isNone_iff_eq_none
    have hcons : HasPath (file :: files) path ↔ path = file.relativePath ∨ HasPath files path := by
      simp [HasPath]
    have hone : HasPath [file] path ↔ path = file.relativePath := by
      simp [HasPath]
    rw [List.foldl_cons, ih, hcons]
    split
    · next hnew =>
      rw [hany, hnone] at hnew
      rw [hasPath_append, hone]
      by_cases hpath : path = file.relativePath
      · simp [hpath, hnew.1]
      · simp [hpath]
    · next hold =>
      rw [hany, hnone] at hold
      by_cases hpath : path = file.relativePath
      · subst hpath
        grind
      · simp [hpath]

section FromDiff

variable {currentFiles : List FileInfo}

theorem get?_currentFileMap (path : String) : (currentFileMap currentFiles).get? path =
    Dict.get? (currentFiles.map fun f => (f.relativePath, f)).reverse path := by
  rw [currentFileMap, Dict.get?_spread, Dict.get?_nil, Option.or_none]

theorem mem_of_currentFileMap {path : String} {f : FileInfo}
    (h : (currentFileMap currentFiles).get? path = some f) :
    f ∈ currentFiles ∧ f.relativePath = path := by
  rw [get?_currentFileMap] at h
  obtain ⟨g, hg, heq⟩ := List.mem_map.mp (List.mem_reverse.mp (Dict.mem_of_get? h))
  obtain ⟨hpath, rfl⟩ := Prod.mk.inj heq
  exact ⟨hg, hpath⟩

theorem currentFileMap_isSome (path : String) :
    (∃ f, (currentFileMap currentFiles).get? path = some f) ↔ HasPath currentFiles path := by
  rw [← Option.ne_none_iff_exists', get?_currentFileMap, ne_eq, Dict.get?_eq_none]
  simp [HasPath]

/-- The crawled files with a path of the list. -/
theorem hasPath_filterMap {α : Type} (currentFiles : List FileInfo) (xs : List α) (pathOf : α → String) (path : String) :
    HasPath (xs.filterMap fun x => (currentFileMap currentFiles).get? (pathOf x)) path ↔
      HasPath currentFiles path ∧ path ∈ xs.map pathOf := by
  unfold HasPath
  constructor
  · intro h
    obtain ⟨f, hf, rfl⟩ := List.mem_map.mp h
    obtain ⟨x, hx, hget⟩ := List.mem_filterMap.mp hf
    obtain ⟨hmem, hpath⟩ := mem_of_currentFileMap hget
    exact ⟨hasPath_of_mem hmem, List.mem_map.mpr ⟨x, hx, hpath.symm⟩⟩
  · rintro ⟨hcurrent, hxs⟩
    obtain ⟨x, hx, rfl⟩ := List.mem_map.mp hxs
    obtain ⟨f, hget⟩ := (currentFileMap_isSome (pathOf x)).mpr hcurrent
    obtain ⟨-, hpath⟩ := mem_of_currentFileMap hget
    exact List.mem_map.mpr ⟨f, List.mem_filterMap.mpr ⟨x, hx, hget⟩, hpath⟩

variable (fileIndex : FileIndex) {gitDiff : GitDiffResult}

theorem mem_planFromDiff {f : FileInfo}
    (h : f ∈ (planFromDiff fileIndex currentFiles gitDiff).filesToIndex) : f ∈ currentFiles := by
  cases mem_addUnindexed h with
  | inr hcurrent => exact hcurrent
  | inl hchanged =>
    simp only [List.mem_append, List.mem_filterMap] at hchanged
    obtain (⟨_, _, hget⟩ | ⟨_, _, hget⟩) | ⟨_, _, hget⟩ := hchanged
    all_goals exact (mem_of_currentFileMap hget).1

theorem mem_renamed_iff (hdistinct : gitDiff.Distinct) (path : String) :
    path ∈ gitDiff.renamed.map Prod.snd ↔ ∃ oldPath, gitDiff.Lists (.renamed oldPath path) := by
  rw [List.mem_map]
  constructor
  · rintro ⟨⟨oldPath, newPath⟩, hmem, rfl⟩
    exact ⟨oldPath, Dict.get?_of_mem hdistinct hmem⟩
  · rintro ⟨oldPath, hget⟩
    exact ⟨_, Dict.mem_of_get? hget, rfl⟩

theorem planFromDiff_updates (hdistinct : gitDiff.Distinct) (path : String) :
    HasPath (planFromDiff fileIndex currentFiles gitDiff).filesToIndex path ↔
      HasPath currentFiles path ∧ (Touches gitDiff.Lists path ∨ fileIndex.get? path = none) := by
  have hadded := hasPath_filterMap currentFiles gitDiff.added id path
  have hmodified := hasPath_filterMap currentFiles gitDiff.modified id path
  have hrenamed := hasPath_filterMap currentFiles gitDiff.renamed Prod.snd path
  rw [mem_renamed_iff hdistinct] at hrenamed
  simp only [id_eq, List.map_id] at hadded hmodified
  unfold planFromDiff Touches
  rw [hasPath_addUnindexed, hasPath_append, hasPath_append]
  rw [hadded, hmodified, hrenamed]
  simp only [GitDiffResult.Lists]
  grind

theorem planFromDiff_removes (path : String) :
    path ∈ (planFromDiff fileIndex currentFiles gitDiff).filesToRemove ↔
      Removes gitDiff.Lists path := by
  have hkeys : path ∈ gitDiff.renamed.map Prod.fst ↔
      ∃ newPath, gitDiff.Lists (.renamed path newPath) := by
    have hnone := not_congr (@Dict.get?_eq_none _ gitDiff.renamed path)
    rw [not_not] at hnone
    rw [← hnone, ← ne_eq, Option.ne_none_iff_exists']
    rfl
  simp only [planFromDiff, List.mem_append, hkeys]
  rfl

end FromDiff

/-! Without git every entry is compared with the crawled file. -/

section WithoutGit

variable (fileIndex : FileIndex) {currentFiles : List FileInfo}

/-- The entry does not show the file as it is. -/
def Outdated (fileIndex : FileIndex) (f : FileInfo) : Prop :=
  ∀ e, fileIndex.get? f.relativePath = some e → e.mtime ≠ f.modifiedAt ∨ e.hash ≠ f.hash

theorem mem_getChangedFiles (f : FileInfo) :
    f ∈ fileIndex.getChangedFiles currentFiles ↔ f ∈ currentFiles ∧ Outdated fileIndex f := by
  simp only [FileIndex.getChangedFiles, List.mem_filter, Outdated, FileIndex.getFile]
  refine and_congr_right fun _ => ?_
  cases fileIndex.get? f.relativePath with
  | none => simp
  | some e => simp

theorem mem_getDeletedFiles (path : String) : path ∈ fileIndex.getDeletedFiles currentFiles ↔
    fileIndex.get? path ≠ none ∧ ¬ HasPath currentFiles path := by
  have hkeys := not_congr (@Dict.get?_eq_none _ fileIndex path)
  rw [not_not] at hkeys
  rw [FileIndex.getDeletedFiles, List.mem_filter, ne_eq, hkeys]
  simp [HasPath]

end WithoutGit

/-- What every entry of an index is apart from the file's own data. -/
def WellFormed (fileIndex : FileIndex) : Prop :=
  ∀ path e, fileIndex.get? path = some e → e.relativePath = path ∧ e.chunkCount = 1

theorem wellFormed_nil : WellFormed [] := by
  intro path e h
  simp at h

theorem wellFormed_applyPlan {fileIndex : FileIndex} (h : WellFormed fileIndex)
    (plan : IncrementalIndexPlan) (now : ℚ) : WellFormed (applyPlan fileIndex plan now) := by
  have hupdated : WellFormed (plan.filesToIndex.foldl
      (fun files file => files.updateFile (indexedInfo now file)) fileIndex) := by
    refine List.foldlRecOn (motive := WellFormed) _ _ h ?_
    intro files hfiles f _ path e he
    have hupdate := Dict.get?_set files f.relativePath path (indexedInfo now f)
    rw [show Dict.get? (FileIndex.updateFile files (indexedInfo now f)) path = _ from hupdate] at he
    split at he
    · next hpath =>
      obtain rfl := Option.some.inj he
      exact ⟨hpath.symm, rfl⟩
    · exact hfiles path e he
  intro path e he
  rw [applyPlan, get?_removeFiles] at he
  split at he
  · simp at he
  · exact hupdated path e he

end GitAwareIndexer
end Batiste
