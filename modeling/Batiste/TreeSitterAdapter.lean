import Batiste.Json
import Batiste.NodePath

/-! `TreeSitterAdapter`: language lookup, parsing and the cache of parses.
Parsing with a strategy is a function of the source text. -/
namespace Batiste
namespace TreeSitterAdapter

open NodePath

/-- A text as its UTF-16 code units. -/
abbrev Source := List UInt16

/-! ## Files -/

inductive Entry
  | file (content : Source)
  | directory
  deriving DecidableEq, Repr

abbrev FileSystem := Dict Entry

def existsSync (fs : FileSystem) (path : String) : Bool := (fs.get? path).isSome

def isFile (fs : FileSystem) (path : String) : Bool :=
  match fs.get? path with
  | some (.file _) => true
  | _ => false

/-- `readFile(path, 'utf-8')`, or the message of the error. -/
def readFile (fs : FileSystem) (path : String) : Except String Source :=
  match fs.get? path with
  | some (.file content) => .ok content
  | some .directory => .error "EISDIR: illegal operation on a directory, read"
  | none => .error ("ENOENT: no such file or directory, open '" ++ path ++ "'")

/-- The working directory, and `toLowerCase`. -/
structure Host where
  cwd : String
  lowerCase : String → String

/-! ## Parses -/

structure ImportStatement where
  modulePath : String
  importedSymbols : List String
  isDefault : Bool
  isNamespace : Bool
  line : ℕ
  deriving DecidableEq, Repr

/-- What a strategy makes of the syntax tree of a source. -/
structure Parsed (Symbol : Type) where
  hasError : Bool
  symbols : List Symbol
  imports : List ImportStatement

/-- A strategy; its parser and extractors throw a message, or give the symbols and imports. -/
structure LanguageStrategy (Symbol : Type) where
  languageId : String
  extensions : List String
  parse : Source → Except String (Parsed Symbol)

structure ParseResult (Symbol : Type) where
  filePath : String
  language : String
  symbols : List Symbol
  imports : List ImportStatement
  errors : List String
  deriving DecidableEq, Repr

/-- `hash` is kept as a 32-bit number, and `hash & hash` cuts it down to one. -/
def hashSource (source : Source) : BitVec 32 :=
  source.foldl (fun hash char => (hash <<< 5) - hash + (char.toBitVec.zeroExtend 32)) 0

/-- A cache entry.  `source` and `strategy` say what the entry was made from: the adapter does not
keep them, and no function here reads them. -/
structure CachedParse (Symbol : Type) where
  result : ParseResult Symbol
  sourceHash : BitVec 32
  source : Source
  strategy : LanguageStrategy Symbol

structure Adapter (Symbol : Type) where
  legacyByExt : Dict (LanguageStrategy Symbol)
  cache : Dict (CachedParse Symbol)

variable {Symbol : Type} (host : Host)

/-- `indexLegacy` -/
def registerStrategy (adapter : Adapter Symbol) (strategy : LanguageStrategy Symbol) :
    Adapter Symbol :=
  { adapter with
    legacyByExt := strategy.extensions.foldl
      (fun byExt ext => byExt.set (host.lowerCase ext) strategy) adapter.legacyByExt }

def getStrategyForFile (adapter : Adapter Symbol) (filePath : String) :
    Option (LanguageStrategy Symbol) :=
  adapter.legacyByExt.get? (host.lowerCase (extname filePath))

def isSupported (adapter : Adapter Symbol) (filePath : String) : Bool :=
  (getStrategyForFile host adapter filePath).isSome

def unsupported (filePath : String) : ParseResult Symbol :=
  { filePath, language := "unknown", symbols := [], imports := []
    errors := ["Unsupported file type: " ++ extname filePath] }

/-- What is returned when a strategy parses a source. -/
def parseWith (strategy : LanguageStrategy Symbol) (source : Source) (filePath : String) :
    ParseResult Symbol :=
  match strategy.parse source with
  | .ok parsed =>
    { filePath, language := strategy.languageId, symbols := parsed.symbols
      imports := parsed.imports
      errors := if parsed.hasError then ["Parse tree contains errors"] else [] }
  | .error message =>
    { filePath, language := strategy.languageId, symbols := [], imports := []
      errors := ["Parse error: " ++ message] }

/-- A parse that threw is not cached. -/
def cacheParse (adapter : Adapter Symbol) (strategy : LanguageStrategy Symbol) (source : Source)
    (filePath : String) : Adapter Symbol :=
  match strategy.parse source with
  | .ok _ =>
    { adapter with
      cache := adapter.cache.set filePath
        { result := parseWith strategy source filePath, sourceHash := hashSource source
          source, strategy } }
  | .error _ => adapter

/-- The cached result of a path whose source has this hash. -/
def cachedResult (adapter : Adapter Symbol) (source : Source) (filePath : String) :
    Option (ParseResult Symbol) :=
  match adapter.cache.get? filePath with
  | some cached => if cached.sourceHash = hashSource source then some cached.result else none
  | none => none

def parseSource (adapter : Adapter Symbol) (source : Source) (filePath : String)
    (strategy : Option (LanguageStrategy Symbol)) : ParseResult Symbol × Adapter Symbol :=
  match strategy.or (getStrategyForFile host adapter filePath) with
  | none => (unsupported filePath, adapter)
  | some resolvedStrategy =>
    match cachedResult adapter source filePath with
    | some result => (result, adapter)
    | none =>
      (parseWith resolvedStrategy source filePath,
        cacheParse adapter resolvedStrategy source filePath)

def parseFile (fs : FileSystem) (adapter : Adapter Symbol) (filePath : String) :
    ParseResult Symbol × Adapter Symbol :=
  match getStrategyForFile host adapter filePath with
  | none => (unsupported filePath, adapter)
  | some strategy =>
    match readFile fs filePath with
    | .ok source => parseSource host adapter source filePath (some strategy)
    | .error message =>
      ({ filePath, language := strategy.languageId, symbols := [], imports := []
         errors := ["Failed to read file: " ++ message] }, adapter)

def clearCache (adapter : Adapter Symbol) : Adapter Symbol := { adapter with cache := [] }

def invalidateCache (adapter : Adapter Symbol) (filePath : String) : Adapter Symbol :=
  { adapter with cache := adapter.cache.erase filePath }

/-- "Aa" and "BB" have one hash. -/
example : hashSource [65, 97] = hashSource [66, 66] := by decide

end TreeSitterAdapter
end Batiste
