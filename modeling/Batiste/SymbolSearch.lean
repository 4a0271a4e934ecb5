import Batiste.JsString
import Batiste.StoredForms

/-! The symbol search of `SymbolResolver` with a language server: the answers of the server, and the
locations that are returned. -/
namespace Batiste
namespace SymbolSearch

abbrev Text := List Char

/-! ## The language server -/

structure Location where
  uri : Text
  line : ℕ
  character : ℕ

structure DefinitionLocation where
  file : Text
  line : ℕ
  column : ℕ
deriving DecidableEq

/-- `text.replace(needle, '')` -/
def removeFirst (needle : Text) : Text → Text
  | [] => []
  | c :: cs =>
    if needle.isPrefixOf (c :: cs) then (c :: cs).drop needle.length else c :: removeFirst needle cs

def DefinitionLocation.ofLocation (loc : Location) : DefinitionLocation :=
  ⟨removeFirst "file://".toList loc.uri, loc.line, loc.character⟩

inductive Method
  | definition
  | references
deriving DecidableEq

structure Request where
  method : Method
  filePath : Text
  line : ℕ
  column : ℕ

inductive Result
  | null
  | one (loc : Location)
  | many (locs : List Location)

/-- What a request meets: the state of the client, the file, and the server's result unless the
request is rejected. -/
structure Exchange where
  initialized : Bool
  readable : Bool
  result : Option Result

/-- `none` when `map` is called on a single location. -/
def locations : Method → Result → Option (List Location)
  | _, .null => some []
  | _, .many locs => some locs
  | .definition, .one loc => some [loc]
  | .references, .one _ => none

def answer (method : Method) (e : Exchange) : List DefinitionLocation :=
  if e.initialized && e.readable then
    ((e.result.bind (locations method)).getD []).map DefinitionLocation.ofLocation
  else []

def findDefinition (e : Exchange) : List DefinitionLocation := answer .definition e

def findReferences (e : Exchange) : List DefinitionLocation := answer .references e

/-! ## The search -/

def indexOf (line symbolName : Text) : Option ℕ := line.tails.findIdx? symbolName.isPrefixOf

/-- The first line that holds the name, and the column in code units. -/
def findSymbolPosition (content : Option Text) (symbolName : Text) : Option (ℕ × ℕ) :=
  content.bind fun content => (content.splitOn '\n').zipIdx.findSome? fun line =>
    if line.1.isEmpty then none
    else (indexOf line.1 symbolName).map fun k =>
      (line.2, (JsString.codeUnits (String.ofList (line.1.take k))).length)

/-- What a search finds at its entry points, which are numbered in their order. -/
structure Session where
  lspClient : Bool
  readFile : ℕ → Text → Option Text
  sendRequest : ℕ → Request → Exchange

inductive Source
  | lsp
  | treeSitter
deriving DecidableEq

structure SymbolLocation where
  file : Text
  line : ℕ
  type : String
  name : Text
  source : Source
deriving DecidableEq

structure Search where
  definitions : List SymbolLocation
  references : List SymbolLocation

def addLocation (type : String) (symbolName : Text) (found : List SymbolLocation)
    (loc : DefinitionLocation) : List SymbolLocation :=
  if found.any fun d => d.file == loc.file && d.line == loc.line then found
  else found ++ [{ file := loc.file, line := loc.line + 1, type, name := symbolName, source := .lsp }]

def addDefinition (symbolName : Text) : List SymbolLocation → DefinitionLocation → List SymbolLocation :=
  addLocation "unknown" symbolName

def addReference (symbolName : Text) : List SymbolLocation → DefinitionLocation → List SymbolLocation :=
  addLocation "reference" symbolName

/-- One entry point, the `k`-th. -/
def searchEntry (session : Session) (symbolName : Text) (search : Search) (entryPoint : Text)
    (k : ℕ) : Search :=
  match findSymbolPosition (session.readFile k entryPoint) symbolName with
  | none => search
  | some (lineIndex, column) =>
    let defs := findDefinition (session.sendRequest k ⟨.definition, entryPoint, lineIndex, column⟩)
    let refs := findReferences (session.sendRequest k ⟨.references, entryPoint, lineIndex, column⟩)
    { definitions := defs.foldl (addDefinition symbolName) search.definitions
      references := refs.foldl (addReference symbolName) search.references }

structure SymbolSearchResult where
  symbolName : Text
  definitions : List SymbolLocation
  references : List SymbolLocation
  definitionCount : ℕ
  referenceCount : ℕ
  source : Source

def findSymbolWithLSP (session : Session) (symbolName : Text) (entryPoints : List Text) :
    SymbolSearchResult :=
  let search : Search :=
    if session.lspClient then
      entryPoints.zipIdx.foldl (fun s entry => searchEntry session symbolName s entry.1 entry.2) ⟨[], []⟩
    else ⟨[], []⟩
  { symbolName
    definitions := search.definitions
    references := search.references
    definitionCount := search.definitions.length
    referenceCount := search.references.length
    source := .lsp }

/-! ## The answers of the server -/

/-- The answer to the request of an entry point, if it makes one. -/
def answerAt (session : Session) (method : Method) (symbolName : Text) (entry : Text × ℕ) :
    List DefinitionLocation :=
  (findSymbolPosition (session.readFile entry.2 entry.1) symbolName).elim [] fun position =>
    answer method (session.sendRequest entry.2 ⟨method, entry.1, position.1, position.2⟩)

def answers (session : Session) (method : Method) (symbolName : Text) (entryPoints : List Text) :
    List DefinitionLocation :=
  if session.lspClient then entryPoints.zipIdx.flatMap (answerAt session method symbolName) else []

theorem searchEntry_eq (session : Session) (symbolName : Text) (s : Search) (entry : Text × ℕ) :
    searchEntry session symbolName s entry.1 entry.2 =
      ⟨(answerAt session .definition symbolName entry).foldl (addDefinition symbolName) s.definitions,
        (answerAt session .references symbolName entry).foldl (addReference symbolName) s.references⟩ := by
  rw [searchEntry, answerAt, answerAt]
  cases findSymbolPosition (session.readFile entry.2 entry.1) symbolName <;> rfl

theorem foldl_searchEntry (session : Session) (symbolName : Text) (entries : List (Text × ℕ))
    (s : Search) :
    entries.foldl (fun s entry => searchEntry session symbolName s entry.1 entry.2) s =
      ⟨(entries.flatMap (answerAt session .definition symbolName)).foldl (addDefinition symbolName)
          s.definitions,
        (entries.flatMap (answerAt session .references symbolName)).foldl (addReference symbolName)
          s.references⟩ := by
  induction entries generalizing s with
  | nil => rfl
  | cons entry entries ih =>
    rw [List.foldl_cons, ih, searchEntry_eq, List.flatMap_cons, List.flatMap_cons, List.foldl_append,
      List.foldl_append]

theorem definitions_eq (session : Session) (symbolName : Text) (entryPoints : List Text) :
    (findSymbolWithLSP session symbolName entryPoints).definitions =
      (answers session .definition symbolName entryPoints).foldl (addDefinition symbolName) [] := by
  rw [findSymbolWithLSP, answers]
  split
  · rw [foldl_searchEntry]
  · rfl

theorem references_eq (session : Session) (symbolName : Text) (entryPoints : List Text) :
    (findSymbolWithLSP session symbolName entryPoints).references =
      (answers session .references symbolName entryPoints).foldl (addReference symbolName) [] := by
  rw [findSymbolWithLSP, answers]
  split
  · rw [foldl_searchEntry]
  · rfl

/-! ## The places that are returned -/

structure Place where
  file : Text
  line : ℕ
deriving DecidableEq

def DefinitionLocation.place (loc : DefinitionLocation) : Place := ⟨loc.file, loc.line⟩

def SymbolLocation.place (loc : SymbolLocation) : Place := ⟨loc.file, loc.line⟩

/-- From lines that are counted from zero to lines that are counted from one. -/
def oneBased (p : Place) : Place := ⟨p.file, p.line + 1⟩

theorem oneBased_injective : Function.Injective oneBased := by
  rintro ⟨f, l⟩ ⟨f', l'⟩ h
  simpa [oneBased] using h

open StoredForms

theorem places_addLocation (type : String) (symbolName : Text) (found : List SymbolLocation)
    (loc : DefinitionLocation) :
    (addLocation type symbolName found loc).map SymbolLocation.place =
      store oneBased (found.map SymbolLocation.place) loc.place := by
  have hany : found.any (fun d => d.file == loc.file && d.line == loc.line) = true ↔
      loc.place ∈ found.map SymbolLocation.place := by
    simp [SymbolLocation.place, DefinitionLocation.place]
  rw [addLocation, store]
  by_cases hmem : loc.place ∈ found.map SymbolLocation.place
  · rw [if_pos (hany.mpr hmem), if_pos hmem]
  · rw [if_neg (hany.not.mpr hmem), if_neg hmem, List.map_append]
    rfl

theorem places_foldl (type : String) (symbolName : Text) (locs : List DefinitionLocation) :
    (locs.foldl (addLocation type symbolName) []).map SymbolLocation.place =
      collect oneBased (locs.map DefinitionLocation.place) := by
  rw [collect, List.foldl_map]
  exact (List.foldl_hom (List.map SymbolLocation.place) fun found loc =>
    (places_addLocation type symbolName found loc).symm).symm

/-- Each place of the answers is returned exactly once, and nothing else is. -/
def Exactly (returned : List SymbolLocation) (answers : List DefinitionLocation) : Prop :=
  (∀ a ∈ answers, (returned.map SymbolLocation.place).count (oneBased a.place) = 1) ∧
    ∀ d ∈ returned, ∃ a ∈ answers, oneBased a.place = d.place

/-- Each place of the answers comes exactly once before the line above it comes. -/
def OnceBeforeLineAbove (answers : List DefinitionLocation) : Prop :=
  OnceBefore oneBased (answers.map DefinitionLocation.place)

theorem exactly_iff (type : String) (symbolName : Text) (locs : List DefinitionLocation) :
    Exactly (locs.foldl (addLocation type symbolName) []) locs ↔ OnceBeforeLineAbove locs := by
  have honly : ∀ d ∈ locs.foldl (addLocation type symbolName) [], ∃ a ∈ locs,
      oneBased a.place = d.place := by
    intro d hd
    have hplace := List.mem_map_of_mem (f := SymbolLocation.place) hd
    rw [places_foldl] at hplace
    obtain ⟨p, hp, heq⟩ := exists_of_mem_collect hplace
    obtain ⟨a, ha, rfl⟩ := List.mem_map.mp hp
    exact ⟨a, ha, heq⟩
  have hrank : ∀ p, Place.line p < Place.line (oneBased p) := fun p => Nat.lt_succ_self p.line
  have honce : (∀ p ∈ locs.map DefinitionLocation.place, _) ↔ _ :=
    collect_once_iff oneBased_injective hrank
  rw [List.forall_mem_map] at honce
  rw [Exactly, places_foldl, and_iff_left honly, honce, OnceBeforeLineAbove]

/-- The search returns the distinct places of the answers exactly if each of them comes once before
the line above it does: later it is taken for that line, earlier it is returned each time. -/
theorem search_exactly_iff (session : Session) (symbolName : Text) (entryPoints : List Text) :
    (Exactly (findSymbolWithLSP session symbolName entryPoints).definitions
        (answers session .definition symbolName entryPoints) ↔
      OnceBeforeLineAbove (answers session .definition symbolName entryPoints)) ∧
    (Exactly (findSymbolWithLSP session symbolName entryPoints).references
        (answers session .references symbolName entryPoints) ↔
      OnceBeforeLineAbove (answers session .references symbolName entryPoints)) := by
  rw [definitions_eq, references_eq]
  exact ⟨exactly_iff "unknown" symbolName _, exactly_iff "reference" symbolName _⟩

/-- Two entry points whose definition is the same place. -/
def twoCallers : Session where
  lspClient := true
  readFile _ _ := some ['f']
  sendRequest _ _ := ⟨true, true, some (.one ⟨['a'], 4, 0⟩)⟩

/-- The definition of the two callers comes back twice. -/
theorem twoCallers_repeated : ¬∀ (session : Session) (symbolName : Text) (entryPoints : List Text),
    Exactly (findSymbolWithLSP session symbolName entryPoints).definitions
        (answers session .definition symbolName entryPoints) ∧
      Exactly (findSymbolWithLSP session symbolName entryPoints).references
        (answers session .references symbolName entryPoints) := by
  intro h
  have hdefs := (h twoCallers ['f'] [['b'], ['c']]).1.1 ⟨['a'], 4, 0⟩
  revert hdefs
  decide

end SymbolSearch
end Batiste
