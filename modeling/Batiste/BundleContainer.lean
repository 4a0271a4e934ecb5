import Batiste.BundleWalk

/-! The container of a bundle and the header of an encrypted one: what was written is read back, and
what was cut is refused. -/
namespace Batiste
namespace Bundle

open ByteCodec

variable {runtime : Runtime}

/-! ## The container -/

def fileBytes (f : UnpackedFile) : Bytes :=
  le 2 (utf8 f.path).length ++ utf8 f.path ++ le 8 f.content.length ++ f.content

/-- What the fields of the container hold. -/
structure Fits (f : UnpackedFile) : Prop where
  path : (utf8 f.path).length < 2 ^ 16
  content : f.content.length < 2 ^ 53

variable (runtime) in
theorem unpackFiles_fileBytes (files : List UnpackedFile) (h : ∀ f ∈ files, Fits f)
    (rest : Bytes) :
    unpackFiles runtime files.length (files.flatMap fileBytes ++ rest) = .ok files := by
  induction files with
  | nil => rfl
  | cons f files ih =>
    obtain ⟨hpath, hcontent⟩ := h f List.mem_cons_self
    have hname : number (le 2 (utf8 f.path).length) = (utf8 f.path).length :=
      number_le (by norm_num at hpath ⊢; exact hpath)
    have hsize : number (le 8 f.content.length) = f.content.length :=
      number_le (hcontent.trans_le (by norm_num))
    have hbytes : (f :: files).flatMap fileBytes ++ rest = le 2 (utf8 f.path).length ++
        (utf8 f.path ++ (le 8 f.content.length ++
          (f.content ++ (files.flatMap fileBytes ++ rest)))) := by
      simp only [List.flatMap_cons, fileBytes, List.append_assoc]
    have hheader := length_le 2 (utf8 f.path).length
    have hlength := length_le 8 f.content.length
    rw [List.length_cons, hbytes, unpackFiles]
    dsimp only
    rw [List.take_left' hheader, List.drop_left' hheader, hname, List.take_left' rfl,
      List.drop_left' rfl, List.take_left' hlength, List.drop_left' hlength, hsize,
      List.take_left' rfl, List.drop_left' rfl, ih fun g hg => h g (List.mem_cons_of_mem f hg),
      decode_utf8]
    simp only [List.length_append, hheader, hlength]
    rw [if_neg (by omega), if_neg (by omega), if_neg (by omega), if_neg (by omega),
      if_neg (by omega)]
    rfl

/-- Files that the container has room for. -/
structure Container where
  files : List UnpackedFile
  fits : ∀ f ∈ files, Fits f
  count : files.length < 2 ^ 32

def Container.bytes (c : Container) : Bytes :=
  BUNDLE_INNER_MAGIC ++ le 4 c.files.length ++ c.files.flatMap fileBytes

theorem length_magic : BUNDLE_INNER_MAGIC.length = 8 := by decide

/-- The magic and the count of a stream. -/
theorem unpack_magic (hlossless : ∀ bs, runtime.gunzip (runtime.gzip bs) = .ok bs) {count : ℕ}
    (hcount : count < 2 ^ 32) (rest : Bytes) :
    unpackFmBundle runtime (runtime.gzip (BUNDLE_INNER_MAGIC ++ le 4 count ++ rest)) =
      unpackFiles runtime count rest := by
  have hfour := length_le 4 count
  rw [unpackFmBundle, hlossless]
  dsimp only
  rw [List.append_assoc, if_neg, List.take_left' rfl, if_neg (not_not.mpr rfl),
    List.drop_left' rfl, List.take_left' hfour, List.drop_left' hfour,
    number_le (by norm_num; omega)]
  rw [List.length_append, List.length_append, hfour]
  omega

theorem Container.unpack (c : Container)
    (hlossless : ∀ bs, runtime.gunzip (runtime.gzip bs) = .ok bs) :
    unpackFmBundle runtime (runtime.gzip c.bytes) = .ok c.files := by
  rw [Container.bytes, unpack_magic hlossless c.count]
  simpa using unpackFiles_fileBytes runtime c.files c.fits []

/-! ## A cut container -/

/-- A cut falls into the first part, or leaves it whole. -/
theorem prefix_append_cases {α : Type} {cut first second : List α} (h : cut <+: first ++ second) :
    cut.length < first.length ∨ ∃ rest, cut = first ++ rest ∧ rest <+: second := by
  rcases List.prefix_or_prefix_of_prefix h (List.prefix_append first second) with hcut | hfirst
  · rcases hcut.length_le.lt_or_eq with hlt | heq
    · exact .inl hlt
    · exact .inr ⟨[], by rw [List.append_nil, hcut.eq_of_length heq], List.nil_prefix⟩
  · obtain ⟨rest, rfl⟩ := hfirst
    exact .inr ⟨rest, rfl, (List.prefix_append_right_inj first).mp h⟩

/-- One file of a stream that is cut: each field is either cut or read, and what follows the last
is left. -/
theorem unpackFiles_cut_cons {f : UnpackedFile} (hfits : Fits f) {count : ℕ} {cut rest : Bytes}
    (h : cut <+: fileBytes f ++ rest) :
    (∃ message, unpackFiles runtime (count + 1) cut = .error message) ∨
      ∃ after, cut = fileBytes f ++ after ∧ after <+: rest ∧
        unpackFiles runtime (count + 1) cut = (unpackFiles runtime count after).map (f :: ·) := by
  obtain ⟨hpath, hcontent⟩ := hfits
  have hname : number (le 2 (utf8 f.path).length) = (utf8 f.path).length :=
    number_le (by norm_num at hpath ⊢; exact hpath)
  have hsize : number (le 8 f.content.length) = f.content.length :=
    number_le (hcontent.trans_le (by norm_num))
  have hheader := length_le 2 (utf8 f.path).length
  have hwidth := length_le 8 f.content.length
  simp only [fileBytes, List.append_assoc] at h
  rw [unpackFiles]
  dsimp only
  rcases prefix_append_cases h with hshort | ⟨afterLength, rfl, hnamed⟩
  · rw [if_pos (by omega)]
    exact .inl ⟨_, rfl⟩
  rw [List.length_append, hheader, if_neg (by omega), List.take_left' hheader,
    List.drop_left' hheader, hname]
  rcases prefix_append_cases hnamed with hshort | ⟨afterName, rfl, hsized⟩
  · rw [if_pos hshort]
    exact .inl ⟨_, rfl⟩
  rw [List.length_append, if_neg (by omega), List.take_left' rfl, List.drop_left' rfl]
  rcases prefix_append_cases hsized with hshort | ⟨afterSize, rfl, hbody⟩
  · rw [if_pos (by omega)]
    exact .inl ⟨_, rfl⟩
  rw [List.length_append, hwidth, if_neg (by omega), List.take_left' hwidth,
    List.drop_left' hwidth, hsize, if_neg (by omega)]
  rcases prefix_append_cases hbody with hshort | ⟨after, rfl, hafter⟩
  · rw [if_pos hshort]
    exact .inl ⟨_, rfl⟩
  refine .inr ⟨after, by simp only [fileBytes, List.append_assoc], hafter, ?_⟩
  rw [List.length_append, if_neg (by omega), List.take_left' rfl, List.drop_left' rfl, decode_utf8]

theorem unpackFiles_cut {files : List UnpackedFile} (hfits : ∀ f ∈ files, Fits f) {cut : Bytes}
    (h : cut <+: files.flatMap fileBytes) (hne : cut ≠ files.flatMap fileBytes) :
    ∃ message, unpackFiles runtime files.length cut = .error message := by
  induction files generalizing cut with
  | nil => exact absurd (List.prefix_nil.mp h) hne
  | cons f files ih =>
    rw [List.flatMap_cons] at h hne
    rw [List.forall_mem_cons] at hfits
    rcases unpackFiles_cut_cons hfits.1 h with herror | ⟨after, rfl, hafter, hread⟩
    · exact herror
    · obtain ⟨message, hmessage⟩ := ih hfits.2 hafter fun heq => hne (by rw [heq])
      exact ⟨message, by rw [List.length_cons, hread, hmessage]; rfl⟩

theorem Container.unpack_cut (c : Container)
    (hlossless : ∀ bs, runtime.gunzip (runtime.gzip bs) = .ok bs) {cut : Bytes}
    (h : cut <+: c.bytes) (hne : cut ≠ c.bytes) :
    ∃ message, unpackFmBundle runtime (runtime.gzip cut) = .error message := by
  have hhead : (BUNDLE_INNER_MAGIC ++ le 4 c.files.length).length = 12 := by
    rw [List.length_append, length_le, length_magic]
  rcases prefix_append_cases h with hshort | ⟨rest, rfl, hrest⟩
  · rw [unpackFmBundle, hlossless]
    dsimp only
    rw [if_pos (by rw [length_magic]; omega)]
    exact ⟨_, rfl⟩
  · rw [unpack_magic hlossless c.count]
    exact unpackFiles_cut c.fits hrest fun heq => hne (by rw [heq]; rfl)

/-! ## The encrypted header -/

/-- An encrypted bundle whose parts have the lengths of their fields. -/
structure Sealed where
  bundle : EncryptedBundle
  salt : bundle.salt.length = SALT_BYTES
  iv : bundle.iv.length = IV_BYTES
  tag : bundle.tag.length = TAG_BYTES

def headerBytes : ℕ := BUNDLE_MAGIC.length + SALT_BYTES + IV_BYTES + TAG_BYTES

theorem Sealed.unpack (s : Sealed) :
    unpackEncrypted runtime (packEncrypted s.bundle) = .ok s.bundle := by
  rw [unpackEncrypted, packEncrypted]
  dsimp only
  rw [List.append_assoc, List.append_assoc, List.append_assoc, if_neg, List.take_left' rfl,
    if_neg (not_not.mpr rfl), List.drop_left' rfl, List.take_left' s.salt, List.drop_left' s.salt,
    List.take_left' s.iv, List.drop_left' s.iv, List.take_left' s.tag, List.drop_left' s.tag]
  rw [List.length_append, List.length_append, List.length_append, List.length_append, s.salt,
    s.iv, s.tag]
  omega

/-- What is encrypted has the lengths of the fields. -/
theorem sealed_of_encryptBundle (hlaw : runtime.Lawful) {plaintext : Bytes} {passphrase : String}
    {enc : EncryptedBundle} (h : encryptBundle runtime plaintext passphrase = .ok enc) :
    ∃ s : Sealed, s.bundle = enc := by
  rw [encryptBundle] at h
  dsimp only at h
  split at h
  · cases h
  · cases h
    exact ⟨⟨_, hlaw.length_randomBytes SALT_BYTES, hlaw.length_randomBytes IV_BYTES,
      hlaw.length_tag _ _ _⟩, rfl⟩

/-! ## A recorded bundle -/

/-- What `zlib` and `crypto` made of one container, under the passphrase `p`. -/
structure Recording where
  raw : Bytes
  gz : Bytes
  ciphertext : Bytes
  tag : Bytes

def recordedKey : Bytes :=
  [79, 96, 213, 70, 155, 93, 5, 208, 60, 161, 77, 71, 84, 214, 176, 200, 147, 167, 222, 222, 174,
   81, 232, 164, 21, 7, 6, 26, 116, 128, 45, 214]

/-- The host of a recording; elsewhere it only marks what is compressed and encrypted. -/
def recorded (r : Recording) : Runtime where
  gzip bs := if bs = r.raw then r.gz else 0 :: bs
  gunzip bs :=
    if bs = r.gz then .ok r.raw
    else if bs.head? = some 0 then .ok bs.tail
    else .error "Z_DATA_ERROR"
  randomBytes n := List.replicate n 7
  pbkdf2 passphrase _ := if passphrase = "p" then recordedKey else []
  cipher key _ bs :=
    if key = recordedKey ∧ bs = r.gz then (r.ciphertext, r.tag) else (bs, List.replicate 16 0)
  decipher key _ tag bs :=
    if key = recordedKey ∧ tag = r.tag ∧ bs = r.ciphertext then .ok r.gz
    else if tag = List.replicate 16 0 then .ok bs
    else .error "Unsupported state or unable to authenticate data"
  replaced _ := "\uFFFD"
  maxLength := 2147483647

theorem recorded_lawful (r : Recording) (hgz : r.gz.head? ≠ some 0) (htag : r.tag.length = 16)
    (hzero : r.tag ≠ List.replicate 16 0) : (recorded r).Lawful where
  gunzip_gzip bs := by
    by_cases hraw : bs = r.raw
    · simp [recorded, hraw]
    · have hne : 0 :: bs ≠ r.gz := fun h => hgz (h ▸ rfl)
      simp [recorded, hraw, hne]
  length_randomBytes n := List.length_replicate
  length_tag key iv bs := by
    change (if key = recordedKey ∧ bs = r.gz then (r.ciphertext, r.tag)
      else (bs, List.replicate 16 0)).2.length = 16
    split
    · exact htag
    · exact List.length_replicate
  decipher_cipher key iv bs := by
    by_cases hseal : key = recordedKey ∧ bs = r.gz
    · simp [recorded, hseal]
    · have hsealed : (recorded r).cipher key iv bs = (bs, List.replicate 16 0) := if_neg hseal
      rw [hsealed]
      exact (if_neg fun h => hzero h.2.1.symm).trans (if_pos rfl)
  maxLength_lt := by
    change 2147483647 < 2 ^ 53
    norm_num

/-- The bundle of a directory with one file, `memory.db`. -/
def memoryRecording : Recording where
  raw :=
    [66, 84, 83, 84, 66, 78, 68, 49, 1, 0, 0, 0, 9, 0, 109, 101, 109, 111, 114, 121, 46, 100, 98,
     2, 0, 0, 0, 0, 0, 0, 0, 1, 2]
  gz :=
    [31, 139, 8, 0, 0, 0, 0, 0, 0, 3, 115, 10, 9, 14, 113, 242, 115, 49, 100, 100, 96, 96, 224,
     100, 200, 77, 205, 205, 47, 170, 212, 75, 73, 98, 98, 128, 0, 70, 38, 0, 171, 131, 25, 133,
     33, 0, 0, 0]
  ciphertext :=
    [52, 54, 5, 145, 47, 93, 89, 65, 62, 238, 94, 58, 225, 161, 140, 112, 245, 223, 99, 151, 124,
     203, 86, 9, 209, 62, 200, 97, 39, 115, 188, 46, 192, 207, 129, 186, 40, 13, 67, 117, 164,
     186, 106, 172, 144, 143, 195, 172]
  tag :=
    [67, 103, 13, 31, 157, 213, 115, 72, 146, 65, 30, 23, 64, 164, 53, 204]

/-! ## Both -/

/-- A container is read back whole and refused when it is cut anywhere; an encrypted bundle is read
back, and a stream that ends inside its header is refused. -/
theorem container_codec (hlossless : ∀ bs, runtime.gunzip (runtime.gzip bs) = .ok bs) :
    (∀ c : Container, unpackFmBundle runtime (runtime.gzip c.bytes) = .ok c.files ∧
      ∀ cut, cut <+: c.bytes → cut ≠ c.bytes →
        ∃ message, unpackFmBundle runtime (runtime.gzip cut) = .error message) ∧
    (∀ s : Sealed, unpackEncrypted runtime (packEncrypted s.bundle) = .ok s.bundle) ∧
      ∀ buf : Bytes, buf.length < headerBytes →
        ∃ message, unpackEncrypted runtime buf = .error message := by
  refine ⟨fun c => ⟨c.unpack hlossless, fun cut => c.unpack_cut hlossless⟩, Sealed.unpack, ?_⟩
  intro buf hshort
  exact ⟨_, if_pos hshort⟩

def memoryContainer : Container where
  files := [⟨"memory.db", [1, 2]⟩]
  fits := fun f hf => by
    rw [List.mem_singleton.mp hf]
    exact ⟨by decide, by decide⟩
  count := by decide

theorem memoryContainer_codec :
    unpackFmBundle (recorded memoryRecording) memoryRecording.gz = .ok memoryContainer.files := by
  have hread := ((container_codec (recorded_lawful memoryRecording (by decide) rfl
    (by decide)).gunzip_gzip).1 memoryContainer).1
  have hraw : memoryContainer.bytes = memoryRecording.raw := by decide +kernel
  rw [hraw] at hread
  exact hread

/-! A push and a restore of what it uploaded: which firm memory directories come back. -/

/-! ## Packing -/

theorem packFile_ok {root : Node} {rel : String} {packed : BundleEntry × Bytes}
    (h : packFile runtime root rel = .ok packed) :
    ∃ content, root.lookup (pathNames rel) = some (.file content) ∧
      content.length ≤ runtime.maxLength ∧ (utf8 rel).length < 2 ^ 16 ∧
        packed = (⟨rel, content.length⟩, fileBytes ⟨rel, content⟩) := by
  rw [packFile, readFile] at h
  split at h
  · cases h
  · rename_i content hread
    split_ifs at h with hlong
    cases h
    split at hread
    · rename_i found hlookup
      split_ifs at hread with hlarge
      cases hread
      exact ⟨content, hlookup, Nat.not_lt.mp hlarge, by omega, rfl⟩
    · cases hread
    · cases hread

/-- The files of a bundle: those that were listed, with their contents. -/
structure Packed (runtime : Runtime) (root : Node) (rels : List String)
    (files : List UnpackedFile) : Prop where
  paths : files.map UnpackedFile.path = rels
  read : ∀ f ∈ files, root.lookup (pathNames f.path) = some (.file f.content)
  fits : ∀ f ∈ files, f.content.length ≤ runtime.maxLength ∧ (utf8 f.path).length < 2 ^ 16

theorem mapM_packFile {root : Node} {rels : List String} {packed : List (BundleEntry × Bytes)}
    (h : rels.mapM (packFile runtime root) = .ok packed) :
    ∃ files, Packed runtime root rels files ∧ packed.map Prod.snd = files.map fileBytes := by
  induction rels generalizing packed with
  | nil =>
    cases h
    exact ⟨[], ⟨rfl, by simp, by simp⟩, rfl⟩
  | cons rel rels ih =>
    rw [List.mapM_cons] at h
    cases hrel : packFile runtime root rel with
    | error message =>
      rw [hrel] at h
      cases h
    | ok first =>
      rw [hrel] at h
      cases hrels : rels.mapM (packFile runtime root) with
      | error message =>
        rw [hrels] at h
        cases h
      | ok others =>
        rw [hrels] at h
        cases h
        obtain ⟨content, hlookup, hlarge, hlong, rfl⟩ := packFile_ok hrel
        obtain ⟨files, hfiles, hbytes⟩ := ih hrels
        refine ⟨⟨rel, content⟩ :: files, ⟨?_, ?_, ?_⟩, ?_⟩
        · rw [List.map_cons, hfiles.paths]
        · exact List.forall_mem_cons.mpr ⟨hlookup, hfiles.read⟩
        · exact List.forall_mem_cons.mpr ⟨⟨hlarge, hlong⟩, hfiles.fits⟩
        · rw [List.map_cons, List.map_cons, hbytes]

/-- A bundle that could be packed is unpacked to the files it was made of. -/
theorem unpack_packFmDir (hlaw : runtime.Lawful) {root : Node} {includes : List String}
    {packed : PackResult} (h : packFmDir runtime root includes = .ok packed) :
    ∃ files, Packed runtime root (allRelPaths runtime root includes) files ∧
      unpackFmBundle runtime packed.buffer = .ok files := by
  rw [packFmDir] at h
  split at h
  · cases h
  · rename_i entries hentries
    split_ifs at h with hcount
    cases h
    obtain ⟨files, hfiles, hbytes⟩ := mapM_packFile hentries
    have hlength : entries.length = files.length := by
      simpa only [List.length_map] using congrArg List.length hbytes
    have hflat : entries.flatMap Prod.snd = files.flatMap fileBytes := by
      rw [List.flatMap_def, hbytes, ← List.flatMap_def]
    let container : Container :=
      { files
        fits := fun f hf =>
          ⟨(hfiles.fits f hf).2, (hfiles.fits f hf).1.trans_lt hlaw.maxLength_lt⟩
        count := by omega }
    have hraw : BUNDLE_INNER_MAGIC ++ le 4 entries.length ++ entries.flatMap Prod.snd =
        container.bytes := by
      rw [hlength, hflat]
      rfl
    refine ⟨files, hfiles, ?_⟩
    dsimp only
    rw [hraw]
    exact container.unpack hlaw.gunzip_gzip

/-! ## Encryption -/

theorem decrypt_encryptBundle (hlaw : runtime.Lawful) {plaintext : Bytes} {passphrase : String}
    {enc : EncryptedBundle} (h : encryptBundle runtime plaintext passphrase = .ok enc) :
    unpackEncrypted runtime (packEncrypted enc) = .ok enc ∧
      decryptBundle runtime enc passphrase = .ok plaintext := by
  obtain ⟨s, rfl⟩ := sealed_of_encryptBundle hlaw h
  refine ⟨s.unpack, ?_⟩
  rw [decryptBundle, if_neg (not_not.mpr s.iv), if_neg (not_not.mpr s.salt),
    if_neg (not_not.mpr s.tag)]
  rw [encryptBundle] at h
  dsimp only at h
  split at h
  · cases h
  · rename_i key hkey
    rw [← Except.ok.inj h, hkey]
    exact hlaw.decipher_cipher key _ plaintext

/-- What a restore gets out of an uploaded bundle are the files that were listed. -/
theorem restore_push (hlaw : runtime.Lawful) {root : Node} {includeModels : Bool}
    {passphrase : String} {blob : Bytes}
    (h : runPush runtime root includeModels passphrase = .ok blob) :
    ∃ files, Packed runtime root (allRelPaths runtime root (includesOf includeModels)) files ∧
      ∀ target disk, runRestore runtime blob passphrase target disk =
        writeUnpackedBundle target disk files := by
  rw [runPush] at h
  split at h
  · cases h
  · rename_i packed hpacked
    cases henc : encryptBundle runtime packed.buffer passphrase with
    | error message =>
      rw [henc] at h
      cases h
    | ok enc =>
      rw [henc] at h
      cases h
      obtain ⟨files, hfiles, hunpack⟩ := unpack_packFmDir hlaw hpacked
      obtain ⟨hblob, hplain⟩ := decrypt_encryptBundle hlaw henc
      refine ⟨files, hfiles, fun target disk => ?_⟩
      rw [runRestore, hblob]
      dsimp only
      rw [hplain]
      dsimp only
      rw [hunpack]

end Bundle
end Batiste
