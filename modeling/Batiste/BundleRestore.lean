import Batiste.BundleContainer

/-! The writer of a restore, into an empty directory. -/
namespace Batiste
namespace Bundle

open ByteCodec

variable {runtime : Runtime}

/-! ## Paths below the target -/

/-- A segment that stands for itself. -/
def Plain (seg : String) : Prop := seg ≠ "" ∧ seg ≠ "." ∧ seg ≠ ".."

theorem normalize_append (above : List String) {segs : List String}
    (h : ∀ seg ∈ segs, Plain seg) : normalize (above ++ segs) = normalize above ++ segs := by
  induction segs using List.reverseRecOn with
  | nil => rw [List.append_nil, List.append_nil]
  | append_singleton segs seg ih =>
    obtain ⟨hempty, hdot, hdots⟩ := h seg (by simp)
    have hrest := ih fun other hother => h other (List.mem_append_left _ hother)
    rw [normalize] at hrest
    rw [normalize, ← List.append_assoc, List.foldl_append, hrest, List.foldl_cons, List.foldl_nil,
      if_neg (by simp [hempty, hdot]), if_neg hdots, normalize, List.append_assoc]

theorem relativePath_append (target segs : List String) :
    relativePath target (target ++ segs) = segs := by
  induction target with
  | nil => cases segs <;> rfl
  | cons name target ih => rw [List.cons_append, relativePath, if_pos rfl, ih]

theorem intercalate_segments (s : String) : "/".intercalate (segments s) = s := by
  apply String.toList_inj.mp
  rw [String.toList_intercalate, segments, List.map_map]
  have hid : String.toList ∘ String.ofList = id := funext fun cs => String.toList_ofList
  rw [hid, List.map_id]
  exact List.intercalate_splitOn '/'

theorem hasDots_of_startsWith {s start : String} (hdots : hasDots start = true)
    (h : startsWith s start = true) : hasDots s = true := by
  rw [hasDots, decide_eq_true_iff] at hdots ⊢
  exact hdots.trans (List.isPrefixOf_iff_prefix.mp h).isInfix

/-- A path whose segments the file system allows as names. -/
def Listed (f : UnpackedFile) : Prop := ∀ name ∈ pathNames f.path, ValidName name

theorem Listed.plain {f : UnpackedFile} (h : Listed f) : ∀ seg ∈ segments f.path, Plain seg := by
  intro seg hseg
  obtain ⟨hne, -, -, hdot, hdots⟩ := h _ (List.mem_map_of_mem hseg)
  refine ⟨?_, ?_, ?_⟩ <;> rintro rfl
  · exact hne rfl
  · exact hdot (by decide)
  · exact hdots (by decide)

theorem Listed.relative {f : UnpackedFile} (h : Listed f) : startsWith f.path "/" = false := by
  rw [Bool.eq_false_iff]
  intro hslash
  obtain ⟨rest, hrest⟩ := List.isPrefixOf_iff_prefix.mp hslash
  have hempty : "" ∈ segments f.path := by
    rw [segments, ← hrest]
    simp [List.splitOn_cons_eq_if_modifyHead]
  exact (h.plain "" hempty).1 rfl

theorem Listed.no_slash {f : UnpackedFile} (h : Listed f) : endsWithSlash f.path = false := by
  rw [Bool.eq_false_iff]
  intro hslash
  rw [endsWithSlash, beq_iff_eq, List.getLast?_eq_some_iff] at hslash
  obtain ⟨before, hbefore⟩ := hslash
  have hempty : "" ∈ segments f.path := by
    rw [segments, hbefore, List.splitOn_append_cons_self]
    simp
  exact (h.plain "" hempty).1 rfl

theorem Listed.no_zero {f : UnpackedFile} (h : Listed f) :
    (segments f.path).any hasZero = false := by
  rw [List.any_eq_false]
  intro seg hseg hzero
  rw [hasZero, List.contains_iff_mem] at hzero
  exact (h _ (List.mem_map_of_mem hseg)).2.2.1 (mem_utf8 hzero (by decide))

theorem segments_ne_nil (s : String) : segments s ≠ [] := by
  rw [segments]
  exact fun h => List.splitOn_ne_nil '/' s.toList (List.map_eq_nil_iff.mp h)

theorem pathNames_ne_nil (s : String) : pathNames s ≠ [] :=
  fun h => segments_ne_nil s (List.map_eq_nil_iff.mp h)

/-- The directories of a path, and its file. -/
def Disk.put (disk : Disk) (path : List Bytes) (content : Bytes) : Except String Disk :=
  match disk.mkdir path.dropLast with
  | .error message => .error message
  | .ok disk => disk.writeFile path content

/-- The writer refuses two dots wherever they stand, and puts every other file. -/
theorem writeUnpackedFile_eq {target : List String} (htarget : normalize target = target)
    {f : UnpackedFile} (h : Listed f) (disk : Disk) :
    writeUnpackedFile target disk f =
      if hasDots f.path then .error ("Refusing to write suspicious bundle path: " ++ f.path)
      else disk.put (target.map utf8 ++ pathNames f.path) f.content := by
  rw [writeUnpackedFile, makeParents, h.relative, Bool.false_or]
  cases hdots : hasDots f.path with
  | true => rfl
  | false =>
    have habs : normalize (target ++ segments f.path) = target ++ segments f.path := by
      rw [normalize_append target h.plain, htarget]
    have hup : ∀ start, hasDots start = true → startsWith f.path start = false := by
      intro start hstart
      rw [Bool.eq_false_iff]
      intro hstarts
      rw [hasDots_of_startsWith hstart hstarts] at hdots
      cases hdots
    rw [if_neg Bool.false_ne_true, if_neg Bool.false_ne_true, habs]
    dsimp only
    have hzero : (segments f.path).dropLast.any hasZero = false := by
      have hall := h.no_zero
      rw [List.any_eq_false] at hall ⊢
      exact fun seg hseg => hall seg (List.mem_of_mem_dropLast hseg)
    rw [relativePath_append, intercalate_segments, hup ".." (by decide), hup "/.." (by decide),
      Bool.or_self, if_neg Bool.false_ne_true, hzero, h.no_zero, h.no_slash,
      if_neg Bool.false_ne_true, pathNames, ← List.map_append, List.map_dropLast]
    rfl

/-! ## Writes -/

theorem Disk.put_ok {disk : Disk} {path : List Bytes} (content : Bytes) (hne : path ≠ [])
    (hfree : ∀ above, above <+: path.dropLast → disk.files above = none)
    (hdir : disk.dirs path = false) :
    disk.put path content = .ok
      { files := Function.update disk.files path (some content)
        dirs := fun p => disk.dirs p || p.isPrefixOf path.dropLast } := by
  have habove : ¬ (path.dropLast.inits.any fun above => (disk.files above).isSome) = true := by
    rw [List.any_eq_true]
    rintro ⟨above, hmem, hsome⟩
    rw [hfree above ((List.mem_inits _ _).mp hmem)] at hsome
    cases hsome
  have hself : path.isPrefixOf path.dropLast = false := by
    rw [Bool.eq_false_iff]
    intro hbelow
    have hlength := (List.isPrefixOf_iff_prefix.mp hbelow).length_le
    have hpos := List.length_pos_iff.mpr hne
    rw [List.length_dropLast] at hlength
    omega
  have hparent : path.dropLast.isPrefixOf path.dropLast = true :=
    List.isPrefixOf_iff_prefix.mpr List.prefix_rfl
  have hnone : (disk.dirs path || path.isPrefixOf path.dropLast) = false := by
    rw [hdir, hself, Bool.or_self]
  have hsome : (disk.dirs path.dropLast || path.dropLast.isPrefixOf path.dropLast) = true := by
    rw [hparent, Bool.or_true]
  rw [Disk.put, Disk.mkdir, if_neg habove]
  dsimp only
  rw [Disk.writeFile, if_neg (ne_true_of_eq_false hnone), if_neg (ne_false_of_eq_true hsome)]

/-- A directory that is empty or not there yet. -/
structure EmptyTarget (disk : Disk) (target : List String) : Prop where
  normal : normalize target = target
  files : ∀ p, disk.files (target.map utf8 ++ p) = none
  dirs : ∀ p, p ≠ [] → disk.dirs (target.map utf8 ++ p) = false
  above : ∀ p, p <+: target.map utf8 → disk.files p = none

/-- The disk after some of the files. -/
structure Written (disk₀ : Disk) (target : List String) (done : List UnpackedFile) (disk : Disk) :
    Prop where
  written : ∀ f ∈ done, disk.files (target.map utf8 ++ pathNames f.path) = some f.content
  other : ∀ p, (∀ f ∈ done, target.map utf8 ++ pathNames f.path ≠ p) →
    disk.files p = disk₀.files p
  dirs : ∀ p, disk.dirs p = true → disk₀.dirs p = true ∨ p <+: target.map utf8 ∨
    ∃ f ∈ done, p <+: (target.map utf8 ++ pathNames f.path).dropLast

/-- Files that can stand in one directory: no file is a directory of another one, and a path has
one content. -/
structure Consistent (files : List UnpackedFile) : Prop where
  listed : ∀ f ∈ files, Listed f
  leaf : ∀ f ∈ files, ∀ g ∈ files, ¬ pathNames f.path <+: (pathNames g.path).dropLast
  content : ∀ f ∈ files, ∀ g ∈ files, pathNames f.path = pathNames g.path → f.content = g.content

theorem Consistent.sublist {files files' : List UnpackedFile} (h : Consistent files)
    (hs : ∀ f ∈ files', f ∈ files) : Consistent files' where
  listed f hf := h.listed f (hs f hf)
  leaf f hf g hg := h.leaf f (hs f hf) g (hs g hg)
  content f hf g hg := h.content f (hs f hf) g (hs g hg)

theorem Consistent.of_packed {root : FileTree} {rels : List String} {files : List UnpackedFile}
    (h : Packed runtime root.root rels files) : Consistent files where
  listed f hf := root.validName (h.read f hf)
  leaf f hf g hg hbelow := by
    obtain ⟨rest, hrest⟩ := hbelow.trans (List.dropLast_prefix _)
    have hlookup := h.read g hg
    rw [← hrest, Node.lookup_append, h.read f hf, Option.bind_some] at hlookup
    cases rest with
    | nil =>
      -- a path is no proper part of itself
      have hlength := hbelow.length_le
      have hpos := List.length_pos_iff.mpr (pathNames_ne_nil g.path)
      rw [List.append_nil] at hrest
      rw [hrest, List.length_dropLast] at hlength
      omega
    | cons name rest => cases hlookup
  content f hf g hg hsame := by
    have hlookup := h.read f hf
    rw [hsame, h.read g hg] at hlookup
    exact (Node.file.inj (Option.some.inj hlookup)).symm

theorem prefix_of_append_prefix {p q above : List Bytes} (h : above <+: p ++ q) :
    above <+: p ∨ ∃ rest, above = p ++ rest ∧ rest <+: q := by
  rcases List.prefix_or_prefix_of_prefix h (List.prefix_append p q) with hp | ⟨rest, rfl⟩
  · exact .inl hp
  · exact .inr ⟨rest, rfl, (List.prefix_append_right_inj p).mp h⟩

theorem Written.put {disk₀ disk : Disk} {target : List String} {done : List UnpackedFile}
    {f : UnpackedFile} (h : Written disk₀ target done disk) (hempty : EmptyTarget disk₀ target)
    (hc : Consistent (done ++ [f])) :
    ∃ disk', disk.put (target.map utf8 ++ pathNames f.path) f.content = .ok disk' ∧
      Written disk₀ target (done ++ [f]) disk' := by
  have hf : f ∈ done ++ [f] := by simp
  have hdone : ∀ g ∈ done, g ∈ done ++ [f] := fun g hg => List.mem_append_left _ hg
  have hne := pathNames_ne_nil f.path
  have hdrop : (target.map utf8 ++ pathNames f.path).dropLast =
      target.map utf8 ++ (pathNames f.path).dropLast := List.dropLast_append_of_ne_nil hne
  have hfree : ∀ above, above <+: (target.map utf8 ++ pathNames f.path).dropLast →
      disk.files above = none := by
    intro above habove
    rw [hdrop] at habove
    have hnone : disk₀.files above = none := by
      rcases prefix_of_append_prefix habove with hbelow | ⟨rest, rfl, -⟩
      · exact hempty.above above hbelow
      · exact hempty.files rest
    rw [← hnone]
    apply h.other
    rintro g hg rfl
    exact hc.leaf g (hdone g hg) f hf ((List.prefix_append_right_inj _).mp habove)
  have hdir : disk.dirs (target.map utf8 ++ pathNames f.path) = false := by
    rw [Bool.eq_false_iff]
    intro hdirs
    rcases h.dirs _ hdirs with hold | hbelow | ⟨g, hg, hbelow⟩
    · rw [hempty.dirs _ hne] at hold
      cases hold
    · have hlength := hbelow.length_le
      have hpos := List.length_pos_iff.mpr hne
      rw [List.length_append] at hlength
      omega
    · rw [List.dropLast_append_of_ne_nil (pathNames_ne_nil g.path)] at hbelow
      exact hc.leaf f hf g (hdone g hg) ((List.prefix_append_right_inj _).mp hbelow)
  refine ⟨_, Disk.put_ok f.content (by simp [hne]) hfree hdir, ?_, ?_, ?_⟩
  · intro g hg
    dsimp only
    by_cases hsame : pathNames g.path = pathNames f.path
    · rw [hsame, Function.update_self, hc.content g hg f hf hsame]
    · rw [Function.update_of_ne fun heq => hsame (List.append_cancel_left heq)]
      refine h.written g ((List.mem_append.mp hg).resolve_right ?_)
      intro hlast
      exact hsame (by rw [List.mem_singleton.mp hlast])
  · intro p hp
    dsimp only
    rw [Function.update_of_ne (hp f hf).symm]
    exact h.other p fun g hg => hp g (hdone g hg)
  · intro p hp
    rcases Bool.or_eq_true_iff.mp hp with hold | hnew
    · rcases h.dirs p hold with hold | hbelow | ⟨g, hg, hbelow⟩
      · exact .inl hold
      · exact .inr (.inl hbelow)
      · exact .inr (.inr ⟨g, hdone g hg, hbelow⟩)
    · exact .inr (.inr ⟨f, hf, List.isPrefixOf_iff_prefix.mp hnew⟩)

/-- The target before its first file. -/
theorem Written.start {disk₀ : Disk} {target : List String} (hempty : EmptyTarget disk₀ target) :
    ∃ disk, (if disk₀.exists (target.map utf8) then .ok disk₀ else disk₀.mkdir (target.map utf8)) =
      .ok disk ∧ Written disk₀ target [] disk := by
  split
  · exact ⟨disk₀, rfl, by simp, fun _ _ => rfl, fun _ h => .inl h⟩
  · have habove :
        ¬ ((target.map utf8).inits.any fun above => (disk₀.files above).isSome) = true := by
      rw [List.any_eq_true]
      rintro ⟨above, hmem, hsome⟩
      rw [hempty.above above ((List.mem_inits _ _).mp hmem)] at hsome
      cases hsome
    refine ⟨_, if_neg habove, by simp, fun _ _ => rfl, fun p hp => ?_⟩
    exact (Bool.or_eq_true_iff.mp hp).imp_right fun h => .inl (List.isPrefixOf_iff_prefix.mp h)

/-- One file with two dots in its path, and nothing is restored. -/
theorem foldlM_dots {target : List String} (htarget : normalize target = target)
    {files : List UnpackedFile} (hlisted : ∀ f ∈ files, Listed f) {disk disk' : Disk}
    (h : files.foldlM (writeUnpackedFile target) disk = .ok disk') :
    ∀ f ∈ files, hasDots f.path = false := by
  induction files generalizing disk with
  | nil => simp
  | cons f files ih =>
    rw [List.foldlM_cons, writeUnpackedFile_eq htarget (hlisted f List.mem_cons_self)] at h
    cases hdots : hasDots f.path with
    | true =>
      rw [hdots] at h
      cases h
    | false =>
      rw [hdots] at h
      cases hput : disk.put (target.map utf8 ++ pathNames f.path) f.content with
      | error message =>
        rw [if_neg Bool.false_ne_true, hput] at h
        cases h
      | ok next =>
        rw [if_neg Bool.false_ne_true, hput] at h
        exact List.forall_mem_cons.mpr
          ⟨hdots, ih (fun g hg => hlisted g (List.mem_cons_of_mem f hg)) h⟩

theorem foldlM_written {disk₀ : Disk} {target : List String} (hempty : EmptyTarget disk₀ target)
    {done files : List UnpackedFile} (hc : Consistent (done ++ files))
    (hdots : ∀ f ∈ files, hasDots f.path = false) {disk : Disk}
    (h : Written disk₀ target done disk) :
    ∃ disk', files.foldlM (writeUnpackedFile target) disk = .ok disk' ∧
      Written disk₀ target (done ++ files) disk' := by
  induction files generalizing done disk with
  | nil =>
    rw [List.append_nil]
    exact ⟨disk, rfl, h⟩
  | cons f files ih =>
    have hassoc : done ++ f :: files = done ++ [f] ++ files := by simp
    rw [hassoc] at hc ⊢
    obtain ⟨next, hput, hnext⟩ := h.put hempty
      (hc.sublist fun g hg => List.mem_append_left files hg)
    obtain ⟨disk', hrest, hwritten⟩ := ih hc
      (fun g hg => hdots g (List.mem_cons_of_mem f hg)) hnext
    refine ⟨disk', ?_, hwritten⟩
    rw [List.foldlM_cons, writeUnpackedFile_eq hempty.normal (hc.listed f (by simp)),
      hdots f List.mem_cons_self, if_neg Bool.false_ne_true, hput]
    exact hrest

/-! ## The mirror -/

/-- A file under the included roots of the firm memory. -/
def Included (root : FileTree) (includeModels : Bool) (p : List Bytes) (content : Bytes) : Prop :=
  underRoots (includesOf includeModels) p ∧ root.root.lookup p = some (.file content)

/-- The restore of a bundle leaves exactly the included files in the target directory. -/
def Restores (runtime : Runtime) (root : FileTree) (includeModels : Bool) (blob : Bytes)
    (passphrase : String) (target : List String) (disk : Disk) : Prop :=
  ∃ disk', runRestore runtime blob passphrase target disk = .ok disk' ∧
    ∀ p content, disk'.files (target.map utf8 ++ p) = some content ↔
      Included root includeModels p content

/-- A bundle that a push made is restored to exactly the included files, when the path of each of
them is a text without two dots in a row, and only then. -/
theorem mirror_lossless_iff (hlaw : runtime.Lawful) (root : FileTree) {includeModels : Bool}
    {passphrase : String} {blob : Bytes} {target : List String} {disk : Disk}
    (hpush : runPush runtime root.root includeModels passphrase = .ok blob)
    (hempty : EmptyTarget disk target) :
    Restores runtime root includeModels blob passphrase target disk ↔
      ∀ p content, Included root includeModels p content →
        ∃ rel, pathNames rel = p ∧ hasDots rel = false := by
  obtain ⟨files, hfiles, hrestore⟩ := restore_push hlaw hpush
  have hc := Consistent.of_packed hfiles
  have hmem : ∀ rel, (∃ f ∈ files, f.path = rel) ↔ ∃ content,
      Included root includeModels (pathNames rel) content := by
    intro rel
    rw [← List.mem_map, hfiles.paths, mem_allRelPaths]
    exact ⟨fun ⟨hroots, content, hfile⟩ => ⟨content, hroots, hfile⟩,
      fun ⟨content, hroots, hfile⟩ => ⟨hroots, content, hfile⟩⟩
  obtain ⟨start, hstart, hwritten⟩ := Written.start hempty
  have hrun : runRestore runtime blob passphrase target disk =
      files.foldlM (writeUnpackedFile target) start := by
    rw [hrestore, writeUnpackedBundle, hstart]
  -- what the run leaves, once every path is without dots
  have hafter : (∀ f ∈ files, hasDots f.path = false) → ∃ disk',
      runRestore runtime blob passphrase target disk = .ok disk' ∧
        ∀ p content, disk'.files (target.map utf8 ++ p) = some content ↔
          ∃ f ∈ files, pathNames f.path = p ∧ f.content = content := by
    intro hdots
    obtain ⟨disk', hdisk', hall⟩ := @foldlM_written _ _ hempty [] files hc hdots _ hwritten
    refine ⟨disk', hrun.trans hdisk', fun p content => ⟨fun hfile => ?_, ?_⟩⟩
    · by_contra hnone
      have hother : ∀ f ∈ files, target.map utf8 ++ pathNames f.path ≠ target.map utf8 ++ p := by
        intro f hf heq
        have hp : pathNames f.path = p := List.append_cancel_left heq
        have hcontent := hall.written f hf
        rw [hp, hfile] at hcontent
        exact hnone ⟨f, hf, hp, (Option.some.inj hcontent).symm⟩
      rw [hall.other _ hother, hempty.files] at hfile
      cases hfile
    · rintro ⟨f, hf, rfl, rfl⟩
      exact hall.written f hf
  constructor
  · rintro ⟨disk', hdisk', hexact⟩ p content hincluded
    have hdots := foldlM_dots hempty.normal hc.listed (hrun.symm.trans hdisk')
    obtain ⟨disk'', hdisk'', hfound⟩ := hafter hdots
    obtain rfl : disk' = disk'' := Except.ok.inj (hdisk'.symm.trans hdisk'')
    obtain ⟨f, hf, hp, -⟩ := (hfound p content).mp ((hexact p content).mpr hincluded)
    exact ⟨f.path, hp, hdots f hf⟩
  · intro htexts
    have hdots : ∀ f ∈ files, hasDots f.path = false := by
      intro f hf
      obtain ⟨content, hincluded⟩ := (hmem f.path).mp ⟨f, hf, rfl⟩
      obtain ⟨rel, hrel, hnone⟩ := htexts _ content hincluded
      rw [← pathNames_injective hrel]
      exact hnone
    obtain ⟨disk', hdisk', hfound⟩ := hafter hdots
    refine ⟨disk', hdisk', fun p content => (hfound p content).trans ⟨?_, fun hincluded => ?_⟩⟩
    · rintro ⟨f, hf, rfl, rfl⟩
      obtain ⟨content, hroots, -⟩ := (hmem f.path).mp ⟨f, hf, rfl⟩
      exact ⟨hroots, hfiles.read f hf⟩
    · obtain ⟨rel, rfl, -⟩ := htexts p content hincluded
      obtain ⟨f, hf, rfl⟩ := (hmem rel).mpr ⟨content, hincluded⟩
      have hread := hfiles.read f hf
      rw [hincluded.2] at hread
      exact ⟨f, hf, rfl, (Node.file.inj (Option.some.inj hread)).symm⟩

/-! ## Two recorded bundles -/

/-- The bundle of a directory with one file, `vector/a..b`. -/
def dottedRecording : Recording where
  raw :=
    [66, 84, 83, 84, 66, 78, 68, 49, 1, 0, 0, 0, 11, 0, 118, 101, 99, 116, 111, 114, 47, 97, 46,
     46, 98, 1, 0, 0, 0, 0, 0, 0, 0, 1]
  gz :=
    [31, 139, 8, 0, 0, 0, 0, 0, 0, 3, 115, 10, 9, 14, 113, 242, 115, 49, 100, 100, 96, 96, 224,
     102, 40, 75, 77, 46, 201, 47, 210, 79, 212, 211, 75, 2, 9, 128, 0, 35, 0, 77, 125, 93, 90,
     34, 0, 0, 0]
  ciphertext :=
    [52, 54, 5, 145, 47, 93, 89, 65, 62, 238, 94, 58, 225, 161, 140, 112, 245, 223, 99, 151, 124,
     203, 86, 11, 49, 56, 72, 130, 193, 246, 186, 42, 93, 126, 168, 56, 33, 203, 101, 86, 15, 116,
     14, 116, 235, 173, 195, 172, 135]
  tag :=
    [113, 248, 251, 227, 54, 202, 210, 151, 3, 223, 95, 129, 225, 114, 255, 114]

instance (name : Bytes) : Decidable (ValidName name) := by
  unfold ValidName
  infer_instance

/-- The names below a directory, when those of its entries and below them are valid. -/
theorem names_dir {entries : List (Bytes × Node)}
    (h : ∀ e ∈ entries, ValidName e.1 ∧ ∀ path below, e.2.lookup path = some (.dir below) →
      ∀ e' ∈ below, ValidName e'.1) (path : List Bytes) (below : List (Bytes × Node))
    (hpath : (Node.dir entries).lookup path = some (.dir below)) : ∀ e ∈ below, ValidName e.1 := by
  cases path with
  | nil =>
    cases hpath
    exact fun e he => (h e he).1
  | cons name path =>
    obtain ⟨child, hchild, hrest⟩ := Option.bind_eq_some_iff.mp hpath
    obtain ⟨e, he, rfl⟩ := Option.map_eq_some_iff.mp hchild
    exact (h e (List.mem_of_find?_eq_some he)).2 path below hrest

theorem names_file (content : Bytes) (path : List Bytes) (below : List (Bytes × Node))
    (hpath : (Node.file content).lookup path = some (.dir below)) :
    ∀ e ∈ below, ValidName e.1 := by
  cases path <;> cases hpath

/-- A directory with one file. -/
def memoryTree : FileTree where
  root := .dir [(utf8 "memory.db", .file [1, 2])]
  names := names_dir fun e he => by
    rw [List.mem_singleton.mp he]
    exact ⟨by decide, names_file _⟩

/-- A directory with one file, whose name has two dots in a row. -/
def dottedTree : FileTree where
  root := .dir [(utf8 "vector", .dir [(utf8 "a..b", .file [1])])]
  names := names_dir fun e he => by
    rw [List.mem_singleton.mp he]
    refine ⟨by decide, names_dir fun e' he' => ?_⟩
    rw [List.mem_singleton.mp he']
    exact ⟨by decide, names_file _⟩

/-- The blob that is uploaded for a recording. -/
def Recording.blob (r : Recording) : Bytes :=
  BUNDLE_MAGIC ++ List.replicate 16 7 ++ List.replicate 12 7 ++ r.tag ++ r.ciphertext

/-- A disk with nothing on it. -/
def blankDisk : Disk := ⟨fun _ => none, fun p => decide (p = [])⟩

theorem blankDisk_empty : EmptyTarget blankDisk ["restored"] where
  normal := by decide
  files _ := rfl
  dirs p _ := by simp [blankDisk]
  above _ _ := rfl

theorem memory_restored : Restores (recorded memoryRecording) memoryTree false
    memoryRecording.blob "p" ["restored"] blankDisk := by
  refine (mirror_lossless_iff (recorded_lawful memoryRecording (by decide) rfl (by decide))
    memoryTree (by decide +kernel) blankDisk_empty).mpr fun p content hincluded => ?_
  refine ⟨"memory.db", ?_, by decide⟩
  -- the tree has no other file
  have hlookup := hincluded.2
  cases p with
  | nil => cases hlookup
  | cons name rest =>
    obtain ⟨child, hchild, hrest⟩ := Option.bind_eq_some_iff.mp hlookup
    obtain ⟨e, he, rfl⟩ := Option.map_eq_some_iff.mp hchild
    have hkey : e.1 = name := by simpa using List.find?_some he
    have hentry := List.mem_singleton.mp (List.mem_of_find?_eq_some he)
    rw [hentry] at hkey hrest
    cases rest with
    | nil =>
      rw [← hkey]
      decide
    | cons other rest => cases hrest

/-- A file that the file system allows and a push takes is refused by the restore. -/
theorem dotted_refused :
    ¬ ∀ (runtime : Runtime) (root : FileTree) (includeModels : Bool) (passphrase : String)
      (blob : Bytes) (target : List String) (disk : Disk), runtime.Lawful →
      runPush runtime root.root includeModels passphrase = .ok blob → EmptyTarget disk target →
      Restores runtime root includeModels blob passphrase target disk := by
  intro h
  obtain ⟨disk', hrun, -⟩ := h (recorded dottedRecording) dottedTree false "p" dottedRecording.blob
    ["restored"] blankDisk (recorded_lawful dottedRecording (by decide) rfl (by decide))
    (by decide +kernel) blankDisk_empty
  have hrefused : (runRestore (recorded dottedRecording) dottedRecording.blob "p" ["restored"]
      blankDisk).isOk = false := by decide +kernel
  rw [hrun] at hrefused
  cases hrefused

end Bundle
end Batiste
