import Batiste.JsNumber
import Batiste.TreeSitterAdapter

/-! `RecursiveScout`: import resolution and the walk over the import graph. -/
namespace Batiste
namespace RecursiveScout

open NodePath TreeSitterAdapter

structure DependencyNode (Symbol : Type) where
  filePath : String
  imports : List ImportStatement
  symbols : List Symbol
  dependencies : List String
  dependents : List String
  deriving DecidableEq, Repr

structure DependencyGraph (Symbol : Type) where
  nodes : Dict (DependencyNode Symbol)
  roots : List String
  leaves : List String
  circularDeps : List (List String)
  deriving DecidableEq, Repr

/-- The options behind their defaults.  `maxDepth` is none where it was passed as `undefined`. -/
structure ScoutOptions where
  maxDepth : Option JsNumber := some (.finite 50)
  includeNodeModules : Bool := false
  extensions : List String := [".ts", ".tsx", ".js", ".jsx", ".py"]

/-- `depth > this.options.maxDepth` -/
def ScoutOptions.tooDeep (options : ScoutOptions) (depth : ℕ) : Bool :=
  match options.maxDepth with
  | some maxDepth => maxDepth.ltNat depth
  | none => false

/-! ## Import resolution -/

section Resolution

variable (host : Host) (fs : FileSystem) (options : ScoutOptions)

/-- `basePath.slice(0, -ext.length)` for the first extension the path ends with. -/
def withoutExt (basePath : String) : String :=
  match options.extensions.find? fun ext => ext.toList.isSuffixOf basePath.toList with
  | some ext =>
    String.ofList (basePath.toList.take
      (if ext.toList.length = 0 then 0 else basePath.toList.length - ext.toList.length))
  | none => basePath

def resolveWithExtensions (basePath : String) : Option String :=
  if isFile fs basePath then some basePath
  else
    let stem := withoutExt options basePath
    match (options.extensions.map fun ext => stem ++ ext).find? (isFile fs) with
    | some withExt => some withExt
    | none =>
      (options.extensions.map fun ext => resolve host.cwd [stem, "index" ++ ext]).find? (isFile fs)

def resolveImport (importPath fromFile : String) : Option String :=
  let first := importPath.toList.head?
  if !options.includeNodeModules && first != some '.' && first != some '/' then none
  else if first = some '.' then
    resolveWithExtensions host fs options (resolve host.cwd [dirname fromFile, importPath])
  else if first = some '/' then resolveWithExtensions host fs options importPath
  else none

/-- The resolved imports, each once. -/
def dependenciesOf (imports : List ImportStatement) (filePath : String) : List String :=
  imports.foldl (fun dependencies statement =>
    match resolveImport host fs options statement.modulePath filePath with
    | some resolved => if resolved ∈ dependencies then dependencies else dependencies ++ [resolved]
    | none => dependencies) []

end Resolution

/-! ## The walk -/

/-- What the walk has built so far, and the caches it parses with. -/
structure WalkState (Symbol C : Type) where
  nodes : Dict (DependencyNode Symbol)
  visited : List String
  circularDeps : List (List String)
  caches : C

section Walk

variable {Symbol C : Type} (host : Host) (fs : FileSystem) (options : ScoutOptions)
  (isSupported : String → Bool) (parse : C → String → ParseResult Symbol × C)

/-- Record a supported file and its imports. -/
def WalkState.record (w : WalkState Symbol C) (filePath : String) (parsed : ParseResult Symbol)
    (caches : C) : WalkState Symbol C :=
  { nodes := w.nodes.set filePath
      { filePath, imports := parsed.imports, symbols := parsed.symbols
        dependencies := dependenciesOf host fs options parsed.imports filePath, dependents := [] }
    visited := w.visited ++ [filePath]
    circularDeps := w.circularDeps
    caches }

/-- The cycle that a file on the current path closes. -/
def WalkState.addCycle (w : WalkState Symbol C) (currentPath : List String) (filePath : String) :
    WalkState Symbol C :=
  { w with circularDeps :=
      w.circularDeps ++ [currentPath.drop (currentPath.idxOf filePath) ++ [filePath]] }

/-- `walkDependencies`; none when the fuel is too small. -/
def walkDependencies : ℕ → List String → ℕ → WalkState Symbol C → String →
    Option (WalkState Symbol C)
  | 0, _, _, _, _ => none
  | fuel + 1, currentPath, depth, w, filePath =>
    if options.tooDeep depth then some w
    else if filePath ∈ currentPath then some (w.addCycle currentPath filePath)
    else if filePath ∈ w.visited then some w
    else if isSupported filePath then
      let (parsed, caches) := parse w.caches filePath
      (dependenciesOf host fs options parsed.imports filePath).foldlM
        (walkDependencies fuel (currentPath ++ [filePath]) (depth + 1))
        (w.record host fs options filePath parsed caches)
    else some { w with visited := w.visited ++ [filePath] }

/-- One entry point: it is walked if it exists. -/
def walkEntry (fuel : ℕ) (w : WalkState Symbol C) (entry : String) :
    Option (WalkState Symbol C) :=
  let resolvedEntry := resolve host.cwd [entry]
  if existsSync fs resolvedEntry then
    walkDependencies host fs options isSupported parse fuel [] 0 w resolvedEntry
  else some w

/-- `dep`'s node gets the file as a dependent. -/
def addDependent (filePath : String) (nodes : Dict (DependencyNode Symbol)) (dep : String) :
    Dict (DependencyNode Symbol) :=
  nodes.mapKey dep fun node =>
    if filePath ∈ node.dependents then node
    else { node with dependents := node.dependents ++ [filePath] }

/-- The reverse dependencies. -/
def linkDependents (nodes : Dict (DependencyNode Symbol)) : Dict (DependencyNode Symbol) :=
  nodes.foldl (fun linked entry => entry.2.dependencies.foldl (addDependent entry.1) linked) nodes

def toGraph (w : WalkState Symbol C) : DependencyGraph Symbol :=
  let nodes := linkDependents w.nodes
  { nodes
    roots := (nodes.filter fun entry => entry.2.dependents.length = 0).map Prod.fst
    leaves := (nodes.filter fun entry => entry.2.dependencies.length = 0).map Prod.fst
    circularDeps := w.circularDeps }

def buildWith (fuel : ℕ) (caches : C) (entryPoints : List String) :
    Option (DependencyGraph Symbol × C) :=
  (entryPoints.foldlM (walkEntry host fs options isSupported parse fuel)
    { nodes := [], visited := [], circularDeps := [], caches }).map fun w => (toGraph w, w.caches)

end Walk

/-! ## The scout -/

/-- An entry of `parseCache`.  `read` and `strategy` say what it was made from: the scout does not
keep them, and no function here reads them. -/
structure CachedFile (Symbol : Type) where
  result : ParseResult Symbol
  read : Except String Source
  strategy : Option (LanguageStrategy Symbol)

structure Scout (Symbol : Type) where
  adapter : Adapter Symbol
  parseCache : Dict (CachedFile Symbol)

variable {Symbol : Type} (host : Host) (fs : FileSystem) (options : ScoutOptions)

def parseFile (scout : Scout Symbol) (filePath : String) : ParseResult Symbol × Scout Symbol :=
  match scout.parseCache.get? filePath with
  | some cached => (cached.result, scout)
  | none =>
    let (result, adapter) := TreeSitterAdapter.parseFile host fs scout.adapter filePath
    (result,
      { adapter
        parseCache := scout.parseCache.set filePath
          { result, read := readFile fs filePath
            strategy := getStrategyForFile host scout.adapter filePath } })

/-- One step deeper than there are files. -/
def fuelFor (fs : FileSystem) : ℕ := fs.length + 1

def buildDependencyGraph (scout : Scout Symbol) (entryPoints : List String) :
    Option (DependencyGraph Symbol × Scout Symbol) :=
  buildWith host fs options (isSupported host scout.adapter) (parseFile host fs) (fuelFor fs) scout
    entryPoints

/-! ## Import paths -/

/-- What a file imports as the graph has it. -/
def DependencyGraph.dependenciesOf (graph : DependencyGraph Symbol) (file : String) : List String :=
  match graph.nodes.get? file with
  | some node => node.dependencies
  | none => []

/-- The loop of `findImportPath`; none when the fuel is too small. -/
def findLoop (toFile : String) (graph : DependencyGraph Symbol) :
    ℕ → List String → List (String × List String) → Option (Option (List String))
  | 0, _, _ => none
  | _ + 1, _, [] => some none
  | fuel + 1, visited, (file, path) :: queue =>
    if file = toFile then some (some path)
    else if file ∈ visited then findLoop toFile graph fuel visited queue
    else
      let visited := visited ++ [file]
      match graph.nodes.get? file with
      | some node =>
        findLoop toFile graph fuel visited
          (queue ++ (node.dependencies.filter (· ∉ visited)).map fun dep => (dep, path ++ [dep]))
      | none => findLoop toFile graph fuel visited queue

/-- A shortest path of imports; `some none` is the `null` of the source. -/
def findImportPath (fromFile toFile : String) (graph : DependencyGraph Symbol) :
    Option (Option (List String)) :=
  findLoop toFile graph ((graph.nodes.map fun entry => entry.2.dependencies.length).sum + 2) []
    [(fromFile, [fromFile])]

def clearCache (scout : Scout Symbol) : Scout Symbol := { scout with parseCache := [] }

end RecursiveScout
end Batiste
