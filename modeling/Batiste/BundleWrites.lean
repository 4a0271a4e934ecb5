import Batiste.BundleRestore

/-! What a restore leaves on the disk when it stops at one of the files. -/
namespace Batiste
namespace Bundle

open ByteCodec

/-! ## The run, with the disk it leaves -/

/-- A directory of the host, by its absolute path with the dots resolved. -/
structure TargetDir where
  path : List String
  normal : normalize path = path

/-- The disk after the last write, and the error that stopped the run. -/
def restoreRun (target : List String) : Disk → List UnpackedFile → Disk × Option String
  | disk, [] => (disk, none)
  | disk, f :: files =>
    match writeUnpackedFile target disk f with
    | .ok next => restoreRun target next files
    | .error message => ((makeParents target disk f).toOption.getD disk, some message)

def restore (target : List String) (disk : Disk) (files : List UnpackedFile) :
    Disk × Option String :=
  match (if disk.exists (target.map utf8) then .ok disk else disk.mkdir (target.map utf8)) with
  | .error message => (disk, some message)
  | .ok disk => restoreRun target disk files

theorem foldlM_eq_restoreRun (target : List String) (disk : Disk) (files : List UnpackedFile) :
    files.foldlM (writeUnpackedFile target) disk =
      (restoreRun target disk files).2.elim (.ok (restoreRun target disk files).1) .error := by
  induction files generalizing disk with
  | nil => rfl
  | cons f files ih =>
    rw [List.foldlM_cons, restoreRun]
    cases hwrite : writeUnpackedFile target disk f with
    | error message => rfl
    | ok next => exact ih next

/-- The run says what the writer returns. -/
theorem writeUnpackedBundle_eq (target : List String) (disk : Disk) (files : List UnpackedFile) :
    writeUnpackedBundle target disk files =
      (restore target disk files).2.elim (.ok (restore target disk files).1) .error := by
  rw [writeUnpackedBundle, restore]
  cases (if disk.exists (target.map utf8) then .ok disk else disk.mkdir (target.map utf8) :
      Except String Disk) with
  | error message => rfl
  | ok disk => exact foldlM_eq_restoreRun target disk files

/-! ## Where a file is put -/

def placeOf (target : List String) (f : UnpackedFile) : List Bytes :=
  (normalize (target ++ segments f.path)).map utf8

theorem infix_of_mem_segments {s seg : String} (h : seg ∈ segments s) :
    seg.toList <:+: s.toList := by
  obtain ⟨piece, hpiece, rfl⟩ := List.mem_map.mp h
  rw [String.toList_ofList]
  have hjoin : ∀ pieces : List (List Char), piece ∈ pieces →
      piece <:+: ['/'].intercalate pieces := by
    intro pieces hmem
    induction pieces with
    | nil => exact absurd hmem List.not_mem_nil
    | cons first pieces ih =>
      by_cases hpieces : pieces = []
      · rw [hpieces, List.mem_singleton] at hmem
        rw [hmem, hpieces, List.intercalate_singleton]
      · rw [List.intercalate_cons_of_ne_nil hpieces]
        rcases List.mem_cons.mp hmem with rfl | hrest
        · rw [List.append_assoc]
          exact (List.prefix_append _ _).isInfix
        · exact (ih hrest).trans (List.suffix_append _ _).isInfix
  have hwhole := hjoin _ hpiece
  rwa [List.intercalate_splitOn] at hwhole

theorem normalize_concat (path : List String) (seg : String) : normalize (path ++ [seg]) =
    if seg = "" ∨ seg = "." then normalize path
    else if seg = ".." then (normalize path).dropLast
    else normalize path ++ [seg] := by
  rw [normalize, List.foldl_append]
  rfl

/-- A path without two dots in a row does not leave the directory it starts from. -/
theorem normalize_append_segments (above : List String) {segs : List String}
    (h : ".." ∉ segs) :
    normalize (above ++ segs) =
      normalize above ++ segs.filter fun seg => seg ≠ "" ∧ seg ≠ "." := by
  induction segs using List.reverseRecOn with
  | nil => simp
  | append_singleton segs seg ih =>
    rw [List.mem_append, not_or] at h
    have hseg : seg ≠ ".." := fun heq => h.2 (by simp [heq])
    rw [← List.append_assoc, normalize_concat, ih h.1, List.filter_append]
    by_cases hempty : seg = "" ∨ seg = "."
    · rw [if_pos hempty]
      rcases hempty with rfl | rfl <;> simp
    · rw [if_neg hempty, if_neg hseg]
      rw [not_or] at hempty
      simp [hempty.1, hempty.2]

theorem dots_not_segment {path : String} (h : hasDots path = false) : ".." ∉ segments path := by
  intro hmem
  have hinfix := infix_of_mem_segments hmem
  rw [hasDots, decide_eq_false_iff_not] at h
  exact h hinfix

/-! ## One file -/

variable {target : TargetDir} {disk : Disk}

theorem makeParents_ok {f : UnpackedFile} {next : Disk}
    (h : makeParents target.path disk f = .ok next) :
    hasDots f.path = false ∧
      disk.mkdir ((normalize (target.path ++ segments f.path)).dropLast.map utf8) = .ok next := by
  rw [makeParents] at h
  split_ifs at h with hrefused
  dsimp only at h
  split_ifs at h
  rw [Bool.or_eq_true, not_or] at hrefused
  exact ⟨Bool.eq_false_iff.mpr hrefused.2, h⟩

theorem mkdir_files {path : List Bytes} {next : Disk} (h : disk.mkdir path = .ok next) :
    next.files = disk.files ∧ next.dirs path = true ∧
      ∀ p, disk.dirs p = true → next.dirs p = true := by
  rw [Disk.mkdir] at h
  split_ifs at h
  obtain rfl := Except.ok.inj h
  refine ⟨rfl, ?_, fun p hp => ?_⟩
  · simp
  · simp [hp]

theorem writeFile_ok {path : List Bytes} {content : Bytes} {next : Disk}
    (h : disk.writeFile path content = .ok next) :
    disk.dirs path = false ∧ next.dirs = disk.dirs ∧
      next.files = Function.update disk.files path (some content) := by
  rw [Disk.writeFile] at h
  split_ifs at h with hdir
  obtain rfl := Except.ok.inj h
  exact ⟨Bool.eq_false_iff.mpr hdir, rfl, rfl⟩

/-- A file that is written is a file below the target, and the only one that changes. -/
structure Puts (target : TargetDir) (disk : Disk) (f : UnpackedFile) (next : Disk) : Prop where
  inside : target.path.map utf8 <+: placeOf target.path f
  free : disk.dirs (placeOf target.path f) = false
  files : next.files = Function.update disk.files (placeOf target.path f) (some f.content)
  dirs : ∀ p, disk.dirs p = true → next.dirs p = true

theorem writeUnpackedFile_ok {f : UnpackedFile} {next : Disk}
    (h : writeUnpackedFile target.path disk f = .ok next) : Puts target disk f next := by
  rw [writeUnpackedFile] at h
  cases hparents : makeParents target.path disk f with
  | error message =>
    rw [hparents] at h
    cases h
  | ok made =>
    rw [hparents] at h
    dsimp only at h
    split_ifs at h
    obtain ⟨hdots, hmkdir⟩ := makeParents_ok hparents
    obtain ⟨hsame, -, hgrow⟩ := mkdir_files hmkdir
    obtain ⟨hfree, hdirs, hfiles⟩ := writeFile_ok h
    refine ⟨?_, ?_, ?_, fun p hp => ?_⟩
    · rw [placeOf, normalize_append_segments target.path (dots_not_segment hdots), target.normal,
        List.map_append]
      exact List.prefix_append _ _
    · -- a directory that was there before is still there
      rw [Bool.eq_false_iff]
      exact fun hdir => Bool.eq_false_iff.mp hfree (hgrow _ hdir)
    · rw [hfiles, hsame]
      rfl
    · rw [hdirs]
      exact hgrow p hp

/-- What the disk holds behind a file that was refused. -/
theorem refused_files {f : UnpackedFile} :
    ((makeParents target.path disk f).toOption.getD disk).files = disk.files := by
  cases hparents : makeParents target.path disk f with
  | error message => rfl
  | ok made => exact (mkdir_files (makeParents_ok hparents).2).1

/-! ## The whole run -/

/-- The files of the host once some of the bundle have been written. -/
def filesAfter (target : TargetDir) (files : List Bytes → Option Bytes) (done : List UnpackedFile) :
    List Bytes → Option Bytes :=
  done.foldl (fun files f => Function.update files (placeOf target.path f) (some f.content)) files

/-- What was written when a run over `files` left `left`: the files before the one at which it
stopped, all of them where it did not stop, and nothing else. -/
structure WritesPrefix (target : TargetDir) (disk : Disk) (files : List UnpackedFile)
    (left : Disk × Option String) (done rest : List UnpackedFile) : Prop where
  split : files = done ++ rest
  written : left.1.files = filesAfter target disk.files done
  inside : ∀ f ∈ done, target.path.map utf8 <+: placeOf target.path f ∧
    disk.dirs (placeOf target.path f) = false
  whole : left.2 = none → rest = []
  stopped : ∀ message, left.2 = some message → ∃ f tail reached, rest = f :: tail ∧
    reached.files = left.1.files ∧ writeUnpackedFile target.path reached f = .error message

theorem restoreRun_writesPrefix (target : TargetDir) (disk : Disk) (files : List UnpackedFile) :
    ∃ done rest,
      WritesPrefix target disk files (restoreRun target.path disk files) done rest := by
  induction files generalizing disk with
  | nil => exact ⟨[], [], rfl, rfl, by simp, fun _ => rfl, fun _ h => by cases h⟩
  | cons f files ih =>
    rw [restoreRun]
    cases hwrite : writeUnpackedFile target.path disk f with
    | error message =>
      refine ⟨[], f :: files, rfl, refused_files, by simp, fun h => (by cases h), ?_⟩
      rintro _ ⟨⟩
      exact ⟨f, files, disk, rfl, refused_files.symm, hwrite⟩
    | ok next =>
      have hput := writeUnpackedFile_ok hwrite
      obtain ⟨done, rest, h⟩ := ih next
      refine ⟨f :: done, rest, by rw [h.split]; rfl, ?_, ?_, h.whole, h.stopped⟩
      · rw [h.written, hput.files]
        rfl
      · rw [List.forall_mem_cons]
        refine ⟨⟨hput.inside, hput.free⟩, fun g hg => ⟨(h.inside g hg).1, ?_⟩⟩
        rw [Bool.eq_false_iff]
        exact fun hdir => Bool.eq_false_iff.mp (h.inside g hg).2 (hput.dirs _ hdir)

/-- The target directory as a run finds or makes it. -/
theorem target_ready {target : TargetDir} {disk ready : Disk}
    (h : (if disk.exists (target.path.map utf8) then .ok disk
      else disk.mkdir (target.path.map utf8)) = Except.ok ready) :
    ready.files = disk.files ∧
      (disk.files (target.path.map utf8) = none → ready.dirs (target.path.map utf8) = true) := by
  split_ifs at h with hexists
  · obtain rfl := Except.ok.inj h
    refine ⟨rfl, fun hnone => ?_⟩
    rw [Disk.exists, hnone] at hexists
    simpa using hexists
  · exact ⟨(mkdir_files h).1, fun _ => (mkdir_files h).2.1⟩

/-- Every file a restore writes is inside the target directory. Either all are written, or it throws
and exactly the files before the one at which it stops have been; where the target cannot be made
none is. -/
theorem restore_confined (target : TargetDir) (disk : Disk) (files : List UnpackedFile) :
    ∃ done rest, files = done ++ rest ∧
      (restore target.path disk files).1.files = filesAfter target disk.files done ∧
      (∀ f ∈ done, target.path.map utf8 <+: placeOf target.path f ∧
        (disk.files (target.path.map utf8) = none →
          placeOf target.path f ≠ target.path.map utf8)) ∧
      ((restore target.path disk files).2 = none → rest = []) ∧
      ∀ message, (restore target.path disk files).2 = some message →
        (done = [] ∧ disk.mkdir (target.path.map utf8) = .error message) ∨
          ∃ f tail reached, rest = f :: tail ∧
            reached.files = (restore target.path disk files).1.files ∧
            writeUnpackedFile target.path reached f = .error message := by
  cases hready : (if disk.exists (target.path.map utf8) then .ok disk
      else disk.mkdir (target.path.map utf8) : Except String Disk) with
  | error message =>
    have hrestore : restore target.path disk files = (disk, some message) := by
      rw [restore, hready]
    rw [hrestore]
    refine ⟨[], files, rfl, rfl, by simp, fun h => (by cases h), ?_⟩
    rintro _ ⟨⟩
    split_ifs at hready
    exact .inl ⟨rfl, hready⟩
  | ok ready =>
    have hrestore : restore target.path disk files = restoreRun target.path ready files := by
      rw [restore, hready]
    obtain ⟨hfiles, hdir⟩ := target_ready hready
    obtain ⟨done, rest, h⟩ := restoreRun_writesPrefix target ready files
    rw [hrestore]
    refine ⟨done, rest, h.split, hfiles ▸ h.written, ?_, h.whole, fun message hm => ?_⟩
    · intro f hf
      refine ⟨(h.inside f hf).1, fun hnone heq => ?_⟩
      -- a directory is not written over
      have hfree := (h.inside f hf).2
      rw [heq, hdir hnone] at hfree
      cases hfree
    · exact .inr (h.stopped message hm)

/-- All files are written inside the target, or an error is thrown and no file of the host has
changed. -/
def AllOrNothing (target : TargetDir) (disk : Disk) (files : List UnpackedFile) : Prop :=
  ((restore target.path disk files).2 = none ∧
    (restore target.path disk files).1.files = filesAfter target disk.files files ∧
    ∀ f ∈ files, target.path.map utf8 <+: placeOf target.path f) ∨
  ((restore target.path disk files).2 ≠ none ∧
    (restore target.path disk files).1.files = disk.files)

/-- The second path is refused when the first file has been written. -/
theorem second_path_refused :
    ¬ AllOrNothing ⟨["restored"], by decide⟩ blankDisk [⟨"a", [1]⟩, ⟨"../b", [2]⟩] := by
  rintro (⟨hnone, -⟩ | ⟨-, hsame⟩)
  · revert hnone
    decide
  · have hwritten := congrFun hsame [utf8 "restored", utf8 "a"]
    revert hwritten
    decide

end Bundle
end Batiste
