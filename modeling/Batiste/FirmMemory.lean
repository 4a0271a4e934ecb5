import Batiste.Json
import Batiste.JsNumber

/-! The stores of firm memory: `SqlitePromptStore` and `SqliteFactStore` over one database and one
vector index, and `InMemoryPromptStore`.
A table lists its rows in the order they were inserted. -/
namespace Batiste
namespace FirmMemory

/-! ## Numbers -/

/-- `score >= x` -/
def atLeast (score : ℚ) : JsNumber → Bool
  | .finite value => decide (value ≤ score)
  | .nan => false
  | .infinity negative => negative

/-- `xs.slice(0, x)` -/
def sliceTo {α : Type} (x : JsNumber) (xs : List α) : List α :=
  match x with
  | .finite value =>
    if 0 ≤ value then xs.take ⌊value⌋.toNat else xs.take (xs.length - ⌊-value⌋.toNat)
  | .nan => []
  | .infinity negative => if negative then [] else xs

/-- `LIMIT x`: a number that is not a 64-bit integer is an error, a negative one is no limit. -/
def sqlLimit {α : Type} (x : JsNumber) (xs : List α) : Except String (List α) :=
  match x with
  | .finite value =>
    if value.den = 1 ∧ -2 ^ 63 ≤ value.num ∧ value.num < 2 ^ 63 then
      .ok (if value.num < 0 then xs else xs.take value.num.toNat)
    else .error "datatype mismatch"
  | _ => .error "datatype mismatch"

/-! ## Entries -/

inductive Sensitivity
  | «public»
  | internal
  | confidential
  | confidentialNda
  | privileged
  deriving DecidableEq, Repr

inductive FactKind
  | decision
  | precedent
  | clause
  | rejection
  | acceptance
  | observation
  deriving DecidableEq, Repr

/-- What prompts and facts have in common; `group` is the category or the kind. -/
structure Entry (Group Rest : Type) where
  id : String
  title : String
  group : Group
  body : String
  sensitivity : Sensitivity
  tags : List String
  rest : Rest
  created_at : String
  updated_at : String
  deriving DecidableEq, Repr

structure PromptRest where
  version : ℕ
  validated_on : Option String
  validated_by : Option String
  model_preference : String
  languages : List String
  supersedes : Option String
  deriving DecidableEq, Repr

structure FactRest where
  counterparty : Option String
  workstream : Option String
  vault_ref : Option String
  audit_ref : Option String
  deriving DecidableEq, Repr

abbrev PromptEntry := Entry String PromptRest

abbrev FactEntry := Entry FactKind FactRest

structure SearchOptions where
  limit : Option JsNumber := none
  minScore : Option JsNumber := none
  tags : Option (List String) := none
  sensitivity : Option (List Sensitivity) := none
  category : Option String := none
  kind : Option FactKind := none
  vectorOnly : Bool := false

inductive HitReason
  | lexical
  | vector
  | exactId
  deriving DecidableEq, Repr

structure SearchHit (E : Type) where
  entry : E
  score : ℚ
  reason : HitReason
  deriving DecidableEq, Repr

/-! ## Filters -/

section Filters

variable {Group Rest : Type} [DecidableEq Group]

/-- `category = ? AND sensitivity IN (...)`, or the checks of the in-memory store: a filter that is
not given, and an empty list, pass every entry. -/
def passes (group : Option Group) (sensitivity : Option (List Sensitivity))
    (e : Entry Group Rest) : Bool :=
  (match group with
    | some wanted => decide (e.group = wanted)
    | none => true) &&
    (sensitivity.getD [] = [] || (sensitivity.getD []).contains e.sensitivity)

/-- `tagSet.size === 0 || e.tags.some((t) => tagSet.has(t))` -/
def hasTag (tags : Option (List String)) (e : Entry Group Rest) : Bool :=
  tags.getD [] = [] || e.tags.any (tags.getD []).contains

end Filters

/-! ## The vector index -/

structure VectorRecord (Vector : Type) where
  id : String
  vector : Vector
  deriving DecidableEq, Repr

/-- What the stores take from outside: the embeddings of a namespace's model, the distance of the
index and how many rows it returns for a limit, and the tokens of a text. -/
structure Engine (Vector : Type) where
  embed : String → String → Vector
  embedQuery : String → String → Vector
  distance : Vector → Vector → ℚ
  rowCount : JsNumber → ℕ
  tokenize : String → List String

section Vectors

variable {Vector : Type}

/-- Delete, then add. -/
def upsert (records : List (VectorRecord Vector)) (record : VectorRecord Vector) :
    List (VectorRecord Vector) :=
  (records.filter fun r => r.id ≠ record.id) ++ [record]

def remove (records : List (VectorRecord Vector)) (id : String) : List (VectorRecord Vector) :=
  records.filter fun r => r.id ≠ id

/-- Closer to the query, or as close. -/
def Closer (engine : Engine Vector) (query : Vector) (r s : VectorRecord Vector) : Prop :=
  engine.distance query r.vector ≤ engine.distance query s.vector

instance (engine : Engine Vector) (query : Vector) : DecidableRel (Closer engine query) :=
  fun r s => inferInstanceAs (Decidable (engine.distance query r.vector ≤
    engine.distance query s.vector))

/-- The records from the nearest to the farthest. -/
def ranked (engine : Engine Vector) (query : Vector) (records : List (VectorRecord Vector)) :
    List (VectorRecord Vector) :=
  records.insertionSort (Closer engine query)

/-- `VectorStore.search` -/
def nearest (engine : Engine Vector) (records : List (VectorRecord Vector)) (query : Vector)
    (limit : JsNumber) : List (VectorRecord Vector) :=
  (ranked engine query records).take (engine.rowCount limit)

end Vectors

/-! ## Lexical scores -/

/-- `lexicalScore`, in exact arithmetic; a `Set` of tokens keeps each once. -/
def lexicalScore (tokenize : String → List String) (query body title : String)
    (tags : List String) : ℚ :=
  let qTokens := (tokenize query).dedup
  if qTokens.length = 0 then 0
  else
    let titleTokens := tokenize title
    let bodyTokens := tokenize body
    let tagTokens := tags.flatMap tokenize
    let hits := qTokens.countP fun q => q ∈ titleTokens || q ∈ bodyTokens
    let titleHits := qTokens.countP (· ∈ titleTokens)
    let tagHits := qTokens.countP (· ∈ tagTokens)
    (hits : ℚ) / qTokens.length * (6 / 10) + (titleHits : ℚ) / qTokens.length * (3 / 10) +
      (tagHits : ℚ) / qTokens.length * (1 / 10)

/-! ## The SQLite stores -/

/-- A row of any namespace. -/
structure Row (Group Rest : Type) where
  namespace_ : String
  entry : Entry Group Rest
  deriving DecidableEq, Repr

/-- One SQL table and its vectors. -/
structure Table (Group Rest Vector : Type) where
  rows : List (Row Group Rest)
  vectors : List (VectorRecord Vector)

def keyForVector (namespace_ id : String) : String := namespace_ ++ "::" ++ id

section Stores

variable {Group Rest Vector : Type} [DecidableEq Group] (engine : Engine Vector)
  (namespace_ : String)

def isRow (id : String) (row : Row Group Rest) : Bool :=
  decide (row.namespace_ = namespace_) && decide (row.entry.id = id)

/-- The SQL of `put`: an existing row keeps its place and its `created_at`. -/
def putRow (rows : List (Row Group Rest)) (entry : Entry Group Rest) (now : String) :
    List (Row Group Rest) :=
  if rows.any (isRow namespace_ entry.id) then
    rows.map fun row =>
      if isRow namespace_ entry.id row then
        { row with entry := { entry with created_at := row.entry.created_at, updated_at := now } }
      else row
  else
    rows ++ [{ namespace_, entry :=
      { entry with
        created_at := if entry.created_at = "" then now else entry.created_at
        updated_at := now } }]

def put (table : Table Group Rest Vector) (entry : Entry Group Rest) (now : String) :
    Table Group Rest Vector :=
  { rows := putRow namespace_ table.rows entry now
    vectors := upsert table.vectors
      { id := keyForVector namespace_ entry.id
        vector := engine.embed namespace_ (entry.title ++ "\n" ++ entry.body) } }

def delete (table : Table Group Rest Vector) (id : String) : Table Group Rest Vector :=
  { rows := table.rows.filter fun row => !isRow namespace_ id row
    vectors := remove table.vectors (keyForVector namespace_ id) }

/-- The entries of a namespace. -/
def entriesOf (table : Table Group Rest Vector) : List (Entry Group Rest) :=
  (table.rows.filter fun row => row.namespace_ = namespace_).map Row.entry

def get (table : Table Group Rest Vector) (id : String) : Option (Entry Group Rest) :=
  (entriesOf namespace_ table).find? fun e => e.id = id

/-- `list`: the SQL filters, the limit, and then the tags. -/
def list (table : Table Group Rest Vector) (group : Option Group) (options : SearchOptions) :
    Except String (List (Entry Group Rest)) :=
  (sqlLimit (options.limit.getD (.finite 1000))
    ((entriesOf namespace_ table).filter (passes group options.sensitivity))).map
      (·.filter (hasTag options.tags))

/-- The plain id of a key with the prefix of the namespace. -/
def plainId (key : String) : Option String :=
  let prefix_ := (namespace_ ++ "::").toList
  if prefix_.isPrefixOf key.toList then some (String.ofList (key.toList.drop prefix_.length))
  else none

/-- `vectorSearch`: ids and scores in the order of the hits. -/
def vectorSearch (table : Table Group Rest Vector) (query : String) (limit : JsNumber) : Dict ℚ :=
  (nearest engine table.vectors (engine.embedQuery namespace_ query) (limit.mulPos 3)).foldl
    (fun byId h =>
      match plainId namespace_ h.id with
      | some id =>
        byId.set id (1 / (1 + engine.distance (engine.embedQuery namespace_ query) h.vector))
      | none => byId) []

def vectorHits (candidates : List (Entry Group Rest)) (byId : Dict ℚ) :
    List (SearchHit (Entry Group Rest)) :=
  byId.filterMap fun hit =>
    (candidates.reverse.find? fun e => e.id = hit.1).map fun entry =>
      { entry, score := hit.2, reason := .vector }

def lexicalHits (query : String) (candidates : List (Entry Group Rest)) (seen : List String) :
    List (SearchHit (Entry Group Rest)) :=
  candidates.filterMap fun entry =>
    if entry.id ∈ seen then none
    else if entry.id = query then some { entry, score := 1, reason := .exactId }
    else
      let lex := lexicalScore engine.tokenize query entry.body entry.title entry.tags
      if lex ≤ 0 then none else some { entry, score := lex, reason := .lexical }

/-- What `search` makes of its candidates and of the hits of the index. -/
def assemble (query : String) (options : SearchOptions) (candidates : List (Entry Group Rest))
    (byId : Dict ℚ) : List (SearchHit (Entry Group Rest)) :=
  let found := vectorHits candidates byId
  let out :=
    if options.vectorOnly then found
    else found ++ lexicalHits engine query candidates (found.map fun h => h.entry.id)
  sliceTo (options.limit.getD (.finite 20))
    ((out.filter fun h => atLeast h.score (options.minScore.getD (.finite (1 / 20)))).insertionSort
      fun a b => b.score ≤ a.score)

def search (table : Table Group Rest Vector) (group : Option Group) (query : String)
    (options : SearchOptions) : Except String (List (SearchHit (Entry Group Rest))) := do
  let candidates ← list namespace_ table group { options with limit := none }
  return assemble engine query options candidates
    (vectorSearch engine namespace_ table query (options.limit.getD (.finite 20)))

end Stores

/-- `if (options.category)`: the empty text is no filter. -/
def categoryFilter (options : SearchOptions) : Option String :=
  options.category.filter fun category => category ≠ ""

namespace SqlitePromptStore

variable {Vector : Type} (engine : Engine Vector) (namespace_ : String)

def put (table : Table String PromptRest Vector) (entry : PromptEntry) (now : String) :
    Table String PromptRest Vector :=
  FirmMemory.put engine namespace_ table entry now

def list (table : Table String PromptRest Vector) (options : SearchOptions) :
    Except String (List PromptEntry) :=
  FirmMemory.list namespace_ table (categoryFilter options) options

def search (table : Table String PromptRest Vector) (query : String) (options : SearchOptions) :
    Except String (List (SearchHit PromptEntry)) :=
  FirmMemory.search engine namespace_ table (categoryFilter options) query options

end SqlitePromptStore

namespace SqliteFactStore

variable {Vector : Type} (engine : Engine Vector) (namespace_ : String)

def put (table : Table FactKind FactRest Vector) (entry : FactEntry) (now : String) :
    Table FactKind FactRest Vector :=
  FirmMemory.put engine namespace_ table entry now

def list (table : Table FactKind FactRest Vector) (options : SearchOptions) :
    Except String (List FactEntry) :=
  FirmMemory.list namespace_ table options.kind options

def search (table : Table FactKind FactRest Vector) (query : String) (options : SearchOptions) :
    Except String (List (SearchHit FactEntry)) :=
  FirmMemory.search engine namespace_ table options.kind query options

end SqliteFactStore

/-! ## The in-memory store -/

namespace InMemoryPromptStore

/-- The map: ids with their entries, in the order of insertion. -/
abbrev Data := Dict PromptEntry

def put (data : Data) (entry : PromptEntry) (now : String) : Data :=
  let stamped := { entry with updated_at := now }
  data.set entry.id
    (if (data.get? entry.id).isSome then stamped
     else { stamped with
       created_at := if stamped.created_at = "" then now else stamped.created_at })

def delete (data : Data) (id : String) : Data := data.erase id

def list (data : Data) (options : SearchOptions) : List PromptEntry :=
  let filtered := (data.map Prod.snd).filter fun e =>
    passes (categoryFilter options) options.sensitivity e && hasTag options.tags e
  match options.limit with
  | some limit => if limit.truthy then sliceTo limit filtered else filtered
  | none => filtered

end InMemoryPromptStore
end FirmMemory
end Batiste
