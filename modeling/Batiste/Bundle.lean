import Batiste.ByteCodec
import Batiste.JsString

/-! `batiste-fm sync drive`: the firm memory directory as one encrypted bundle, and its restore
into another directory. -/
namespace Batiste
namespace Bundle

open ByteCodec

/-! ## The directory that is packed -/

/-- What stands under a name on disk; names are bytes. -/
inductive Node
  | file (content : Bytes)
  | dir (entries : List (Bytes × Node))

def Node.child : Node → Bytes → Option Node
  | .file _, _ => none
  | .dir entries, name => (entries.find? fun e => e.1 = name).map Prod.snd

def Node.lookup : Node → List Bytes → Option Node
  | node, [] => some node
  | node, name :: rest => (node.child name).bind fun child => child.lookup rest

/-- A name that the file system allows: no slash, no zero byte, and not a dot or two. -/
def ValidName (name : Bytes) : Prop :=
  name ≠ [] ∧ 47 ∉ name ∧ 0 ∉ name ∧ name ≠ [46] ∧ name ≠ [46, 46]

/-- A directory as the file system keeps it. -/
structure FileTree where
  root : Node
  names : ∀ path entries, root.lookup path = some (.dir entries) →
    ∀ e ∈ entries, ValidName e.1

/-- What the commands take from the host: the codecs of `zlib` and `crypto`, the text of bytes
that are no UTF-8, and the longest file that is read in one piece. -/
structure Runtime where
  gzip : Bytes → Bytes
  gunzip : Bytes → Except String Bytes
  randomBytes : ℕ → Bytes
  pbkdf2 : String → Bytes → Bytes
  /-- the ciphertext and the tag, by key and iv -/
  cipher : Bytes → Bytes → Bytes → Bytes × Bytes
  /-- by key, iv and tag -/
  decipher : Bytes → Bytes → Bytes → Bytes → Except String Bytes
  replaced : Bytes → String
  maxLength : ℕ

structure Runtime.Lawful (runtime : Runtime) : Prop where
  gunzip_gzip : ∀ bs, runtime.gunzip (runtime.gzip bs) = .ok bs
  length_randomBytes : ∀ n, (runtime.randomBytes n).length = n
  length_tag : ∀ key iv bs, (runtime.cipher key iv bs).2.length = 16
  decipher_cipher : ∀ key iv bs,
    runtime.decipher key iv (runtime.cipher key iv bs).2 (runtime.cipher key iv bs).1 = .ok bs
  maxLength_lt : runtime.maxLength < 2 ^ 53

variable (runtime : Runtime)

/-- `toString('utf8')` -/
def Runtime.decode (bs : Bytes) : String := (text? bs).getD (runtime.replaced bs)

/-! ## Packing -/

/-- `s.split('/')` -/
def segments (s : String) : List String := (s.toList.splitOn '/').map String.ofList

def pathNames (rel : String) : List Bytes := (segments rel).map utf8

mutual
/-- The files below a node that is reached by `rel`.  A name is listed as text, and the text is
what is looked up. -/
def walkNode : Node → String → List String
  | .file _ => fun rel => [rel]
  | .dir entries => fun rel => entries.flatMap fun e =>
    ((walkEntries entries).find? fun walk => walk.1 = utf8 (runtime.decode e.1)).elim []
      fun walk => walk.2 (rel ++ "/" ++ runtime.decode e.1)

def walkEntries : List (Bytes × Node) → List (Bytes × (String → List String))
  | [] => []
  | (name, node) :: entries => (name, walkNode node) :: walkEntries entries
end

def walkFiles (root : Node) (rel : String) : List String :=
  (root.lookup (pathNames rel)).elim [] fun node => walkNode runtime node rel

def BUNDLE_INNER_MAGIC : Bytes := utf8 "BTSTBND1"

def DEFAULT_INCLUDES : List String :=
  ["memory.db", "vector", ".audit/document-audit.db", "checkpoints.json"]

def MODELS_DIR : String := "models"

structure BundleEntry where
  path : String
  size : ℕ
  deriving DecidableEq, Repr

structure PackResult where
  buffer : Bytes
  entries : List BundleEntry
  rawBytes : ℕ
  deriving DecidableEq, Repr

def readFile (root : Node) (rel : String) : Except String Bytes :=
  match root.lookup (pathNames rel) with
  | some (.file content) =>
    if runtime.maxLength < content.length then .error "ERR_FS_FILE_TOO_LARGE" else .ok content
  | some (.dir _) => .error "EISDIR"
  | none => .error "ENOENT"

/-- The header and the body of a file. -/
def packFile (root : Node) (rel : String) : Except String (BundleEntry × Bytes) :=
  match readFile runtime root rel with
  | .error message => .error message
  | .ok content =>
    if 0xffff < (utf8 rel).length then .error ("Path too long for bundle format: " ++ rel)
    else .ok (⟨rel, content.length⟩,
      le 2 (utf8 rel).length ++ utf8 rel ++ le 8 content.length ++ content)

def includesOf (includeModels : Bool) : List String :=
  DEFAULT_INCLUDES ++ if includeModels then [ MODELS_DIR] else []

/-- The paths of the files, in the order of the bundle. -/
def allRelPaths (root : Node) (includes : List String) : List String :=
  (includes.flatMap (walkFiles runtime root)).insertionSort fun a b => JsString.le a b

def packFmDir (root : Node) (includes : List String) : Except String PackResult :=
  match (allRelPaths runtime root includes).mapM (packFile runtime root) with
  | .error message => .error message
  | .ok files =>
    if 2 ^ 32 ≤ files.length then .error "ERR_OUT_OF_RANGE"
    else
      let raw := BUNDLE_INNER_MAGIC ++ le 4 files.length ++ files.flatMap Prod.snd
      .ok ⟨runtime.gzip raw, files.map Prod.fst, raw.length⟩

/-! ## Unpacking -/

structure UnpackedFile where
  path : String
  content : Bytes
  deriving DecidableEq, Repr

/-- The files of the inner stream behind its count. -/
def unpackFiles : ℕ → Bytes → Except String (List UnpackedFile)
  | 0, _ => .ok []
  | count + 1, raw =>
    if raw.length < 2 then .error "Truncated bundle (header)."
    else
      let nameLen := number (raw.take 2)
      let raw := raw.drop 2
      if raw.length < nameLen then .error "Truncated bundle (name)."
      else
        let path := runtime.decode (raw.take nameLen)
        let raw := raw.drop nameLen
        if raw.length < 8 then .error "Truncated bundle (size)."
        else
          let size := number (raw.take 8)
          let raw := raw.drop 8
          if 2 ^ 53 ≤ size then .error ("Bundle entry size out of range: " ++ path)
          else if raw.length < size then .error ("Truncated bundle (content of " ++ path ++ ").")
          else (unpackFiles count (raw.drop size)).map (⟨path, raw.take size⟩ :: ·)

def unpackFmBundle (buf : Bytes) : Except String (List UnpackedFile) :=
  match runtime.gunzip buf with
  | .error message => .error message
  | .ok raw =>
    if raw.length < BUNDLE_INNER_MAGIC.length + 4 then
      .error "Bundle inner stream too small to contain header."
    else if raw.take BUNDLE_INNER_MAGIC.length ≠ BUNDLE_INNER_MAGIC then
      .error ("Bad inner magic: expected " ++ runtime.decode BUNDLE_INNER_MAGIC ++ ", got " ++
        runtime.decode (raw.take BUNDLE_INNER_MAGIC.length) ++ ".")
    else
      let raw := raw.drop BUNDLE_INNER_MAGIC.length
      unpackFiles runtime (number (raw.take 4)) (raw.drop 4)

/-! ## Encryption -/

def BUNDLE_MAGIC : Bytes := utf8 "BTSTFMv1"

def SALT_BYTES : ℕ := 16

def IV_BYTES : ℕ := 12

def TAG_BYTES : ℕ := 16

structure EncryptedBundle where
  ciphertext : Bytes
  iv : Bytes
  salt : Bytes
  tag : Bytes
  deriving DecidableEq, Repr

def deriveKey (passphrase : String) (salt : Bytes) : Except String Bytes :=
  if passphrase = "" then .error "Passphrase is empty — refusing to derive key."
  else .ok (runtime.pbkdf2 passphrase salt)

def encryptBundle (plaintext : Bytes) (passphrase : String) : Except String EncryptedBundle :=
  let salt := runtime.randomBytes SALT_BYTES
  let iv := runtime.randomBytes IV_BYTES
  match deriveKey runtime passphrase salt with
  | .error message => .error message
  | .ok key =>
    let sealed := runtime.cipher key iv plaintext
    .ok { ciphertext := sealed.1, iv, salt, tag := sealed.2 }

def invalidLength (part : String) (expected got : ℕ) : String :=
  "Invalid " ++ part ++ " length: expected " ++ toString expected ++ ", got " ++ toString got ++ "."

def decryptBundle (input : EncryptedBundle) (passphrase : String) : Except String Bytes :=
  if input.iv.length ≠ IV_BYTES then .error (invalidLength "IV" IV_BYTES input.iv.length)
  else if input.salt.length ≠ SALT_BYTES then
    .error (invalidLength "salt" SALT_BYTES input.salt.length)
  else if input.tag.length ≠ TAG_BYTES then .error (invalidLength "tag" TAG_BYTES input.tag.length)
  else
    match deriveKey runtime passphrase input.salt with
    | .error message => .error message
    | .ok key => runtime.decipher key input.iv input.tag input.ciphertext

def packEncrypted (bundle : EncryptedBundle) : Bytes :=
  BUNDLE_MAGIC ++ bundle.salt ++ bundle.iv ++ bundle.tag ++ bundle.ciphertext

def unpackEncrypted (buf : Bytes) : Except String EncryptedBundle :=
  if buf.length < BUNDLE_MAGIC.length + SALT_BYTES + IV_BYTES + TAG_BYTES then
    .error "Encrypted bundle is too small to contain the header."
  else if buf.take BUNDLE_MAGIC.length ≠ BUNDLE_MAGIC then
    .error ("Bad magic header: expected " ++ runtime.decode BUNDLE_MAGIC ++ ", got " ++
      runtime.decode (buf.take BUNDLE_MAGIC.length) ++ ".")
  else
    let buf := buf.drop BUNDLE_MAGIC.length
    let salt := buf.take SALT_BYTES
    let buf := buf.drop SALT_BYTES
    let iv := buf.take IV_BYTES
    let buf := buf.drop IV_BYTES
    .ok { ciphertext := buf.drop TAG_BYTES, iv, salt, tag := buf.take TAG_BYTES }

/-! ## Writing -/

/-- The files and the directories of the host, by absolute path. -/
structure Disk where
  files : List Bytes → Option Bytes
  dirs : List Bytes → Bool

/-- `mkdir(path, { recursive: true })` -/
def Disk.mkdir (disk : Disk) (path : List Bytes) : Except String Disk :=
  if path.inits.any fun above => (disk.files above).isSome then .error "ENOTDIR"
  else .ok { disk with dirs := fun p => disk.dirs p || p.isPrefixOf path }

def Disk.writeFile (disk : Disk) (path : List Bytes) (content : Bytes) : Except String Disk :=
  if disk.dirs path then .error "EISDIR"
  else if disk.dirs path.dropLast = false then .error "ENOENT"
  else .ok { disk with files := Function.update disk.files path (some content) }

/-- The absolute path with its dots resolved. -/
def normalize (path : List String) : List String :=
  path.foldl (fun above name =>
    if name = "" ∨ name = "." then above
    else if name = ".." then above.dropLast
    else above ++ [name]) []

/-- `relative(from, to)` -/
def relativePath : List String → List String → List String
  | a :: as, b :: bs =>
    if a = b then relativePath as bs else List.replicate (as.length + 1) ".." ++ b :: bs
  | [], bs => bs
  | as, [] => List.replicate as.length ".."

def startsWith (s start : String) : Bool := start.toList.isPrefixOf s.toList

/-- `path.includes('..')` -/
def hasDots (path : String) : Bool := decide (['.', '.'] <:+: path.toList)

/-- A zero byte, which no path of the host may hold. -/
def hasZero (name : String) : Bool := name.toList.contains '\x00'

/-- `join` keeps a slash at the end of a path. -/
def endsWithSlash (path : String) : Bool := path.toList.getLast? == some '/'

/-- The checks of a path, and the directories above the file. -/
def makeParents (target : List String) (disk : Disk) (f : UnpackedFile) : Except String Disk :=
  if startsWith f.path "/" || hasDots f.path then
    .error ("Refusing to write suspicious bundle path: " ++ f.path)
  else
    let abs := normalize (target ++ segments f.path)
    let within := "/".intercalate (relativePath target abs)
    if startsWith within ".." || startsWith within "/.." then
      .error ("Bundle path escapes target dir: " ++ f.path)
    else if (relativePath target abs).dropLast.any hasZero then .error "ERR_INVALID_ARG_VALUE"
    else disk.mkdir (abs.dropLast.map utf8)

def writeUnpackedFile (target : List String) (disk : Disk) (f : UnpackedFile) :
    Except String Disk :=
  match makeParents target disk f with
  | .error message => .error message
  | .ok disk =>
    let abs := normalize (target ++ segments f.path)
    if (relativePath target abs).any hasZero then .error "ERR_INVALID_ARG_VALUE"
    else if endsWithSlash f.path then
      .error (if (disk.files (abs.map utf8)).isSome then "ENOTDIR" else "EISDIR")
    else disk.writeFile (abs.map utf8) f.content

def Disk.exists (disk : Disk) (path : List Bytes) : Bool :=
  disk.dirs path || (disk.files path).isSome

def writeUnpackedBundle (target : List String) (disk : Disk) (files : List UnpackedFile) :
    Except String Disk :=
  match (if disk.exists (target.map utf8) then .ok disk else disk.mkdir (target.map utf8)) with
  | .error message => .error message
  | .ok disk => files.foldlM (writeUnpackedFile target) disk

/-! ## The commands -/

/-- What `runPush` uploads. -/
def runPush (root : Node) (includeModels : Bool) (passphrase : String) : Except String Bytes :=
  match packFmDir runtime root (includesOf includeModels) with
  | .error message => .error message
  | .ok packed => (encryptBundle runtime packed.buffer passphrase).map packEncrypted

/-- What `runRestore` does with the bundle it has downloaded. -/
def runRestore (blob : Bytes) (passphrase : String) (target : List String) (disk : Disk) :
    Except String Disk :=
  match unpackEncrypted runtime blob with
  | .error message => .error message
  | .ok enc =>
    match decryptBundle runtime enc passphrase with
    | .error message => .error message
    | .ok innerGz =>
      match unpackFmBundle runtime innerGz with
      | .error message => .error message
      | .ok files => writeUnpackedBundle target disk files

end Bundle
end Batiste
