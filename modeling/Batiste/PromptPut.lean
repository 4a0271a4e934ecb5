import Batiste.FaultyAction
import Batiste.MemoryLists

/-! `put` of the SQLite stores as it runs: an SQL statement and then the vector index, each of which
can fail. -/
namespace Batiste
namespace PromptPut

open FaultyAction FirmMemory

/-! ## The outside -/

/-- A record of the vector index. -/
structure VectorRecord (Component : Type) where
  id : String
  vector : List Component
  updated_at : String

/-- The file system, the embedding model and LanceDB: calls that fail or answer, with `World` the
state they share. -/
structure Host (World Component Pipeline Handle : Type) where
  mkdirModels : World → Except String Unit × World
  pipeline : String → World → Except String Pipeline × World
  run : Pipeline → String → World → Except String (List Component) × World
  tableNames : World → Except String (List String) × World
  openTable : String → World → Except String Handle × World
  createTable : String → List (VectorRecord Component) → World → Except String Handle × World
  deleteWhere : Handle → String → World → Except String Unit × World
  add : Handle → List (VectorRecord Component) → World → Except String Unit × World

/-- The SQL statements of `put`. -/
inductive Statement (Group Rest : Type)
  | select (namespace_ id : String)
  | insert (namespace_ : String) (entry : Entry Group Rest)
  | update (namespace_ : String) (entry : Entry Group Rest)

/-- A `Backend` and what it works on; `embedder` is the pipeline of a loaded `EmbeddingEngine`,
`connected` that the vector store has its connection. -/
structure Backend (Group Rest World Pipeline Handle : Type) where
  rows : List (Row Group Rest)
  embedder : Option Pipeline
  initialized : Bool
  embedderReady : Bool
  connected : Bool
  tables : Dict Handle
  world : World

structure EmbeddingOptions where
  model : Option String := none
  dimensions : Option JsNumber := none

section Put

variable {Group Rest World Component Pipeline Handle : Type}
  (host : Host World Component Pipeline Handle)

/-- What the backend does. -/
abbrev Step (Group Rest World Pipeline Handle α : Type) :=
  Action (Backend Group Rest World Pipeline Handle) String α

/-- A call of the host. -/
def call {α : Type} (f : World → Except String α × World) :
    Step Group Rest World Pipeline Handle α :=
  external fun s => ((f s.world).1, { s with world := (f s.world).2 })

/-! ## `EmbeddingEngine` -/

namespace EmbeddingEngine

def initializeEngine (opts : EmbeddingOptions) : Step Group Rest World Pipeline Handle Unit := do
  if (← get).initialized then return
  call host.mkdirModels
  let model := opts.model.getD ""
  let embedder ← call (host.pipeline (if model = "" then "Xenova/all-MiniLM-L6-v2" else model))
  modify fun s => { s with embedder := some embedder, initialized := true }

/-- `opts.dimensions || DEFAULT_DIMS` -/
def dims (opts : EmbeddingOptions) : JsNumber :=
  let dimensions := opts.dimensions.getD .nan
  if dimensions.truthy then dimensions else .finite 384

def embed (opts : EmbeddingOptions) (text : String) :
    Step Group Rest World Pipeline Handle (List Component) := do
  let some embedder := (← get).embedder | throw "EmbeddingEngine not initialized"
  let arr ← call (host.run embedder ("search_document: " ++ text))
  return sliceTo (dims opts) arr

end EmbeddingEngine

/-! ## `VectorStore` -/

namespace VectorStore

/-- `r.id.replace(/'/g, "''")` between quotes -/
def quoted (id : String) : String := "'" ++ id.replace "'" "''" ++ "'"

def getTable (name : String) (sampleRecord : VectorRecord Component) :
    Step Group Rest World Pipeline Handle Handle := do
  if !(← get).connected then throw "VectorStore not initialized"
  let some cached := (← get).tables.get? name |
    let existing ← call host.tableNames
    let table ←
      if existing.contains name then call (host.openTable name)
      else do
        let table ← call (host.createTable name [sampleRecord])
        -- the id of the seed record stands between the quotes as it is
        call (host.deleteWhere table ("id = '" ++ sampleRecord.id ++ "'"))
        pure table
    modify fun s => { s with tables := s.tables.set name table }
    return table
  return cached

def upsert (tableName : String) (records : List (VectorRecord Component)) :
    Step Group Rest World Pipeline Handle Unit := do
  let some seed := records.head? | return
  let table ← getTable host tableName seed
  let ids := ",".intercalate (records.map fun r => quoted r.id)
  call (host.deleteWhere table ("id IN (" ++ ids ++ ")"))
  call (host.add table records)

end VectorStore

/-! ## `Backend` -/

def ensureEmbedder (opts : EmbeddingOptions) : Step Group Rest World Pipeline Handle Unit := do
  if (← get).embedderReady then return
  EmbeddingEngine.initializeEngine host opts
  modify fun s => { s with embedderReady := true }

def indexText (opts : EmbeddingOptions) (namespace_ table id text indexedAt : String) :
    Step Group Rest World Pipeline Handle Unit := do
  ensureEmbedder host opts
  let vector ← EmbeddingEngine.embed host opts text
  VectorStore.upsert host table
    [{ id := keyForVector namespace_ id, vector, updated_at := indexedAt }]

/-! ## `put` -/

/-- A statement runs, or throws and does nothing; `sqlError` says which. -/
def sql {α : Type} (sqlError : Statement Group Rest → List (Row Group Rest) → Option String)
    (statement : Statement Group Rest)
    (effect : List (Row Group Rest) → α × List (Row Group Rest)) :
    Step Group Rest World Pipeline Handle α :=
  external fun s =>
    match sqlError statement s.rows with
    | some e => (.error e, s)
    | none => (.ok (effect s.rows).1, { s with rows := (effect s.rows).2 })

/-- The `SELECT` and the `INSERT` or `UPDATE` of `put`. -/
def writeRow (sqlError : Statement Group Rest → List (Row Group Rest) → Option String)
    (namespace_ : String) (entry : Entry Group Rest) (now : String) :
    Step Group Rest World Pipeline Handle Unit := do
  let existing ← sql sqlError (.select namespace_ entry.id) fun rows =>
    (rows.any (isRow namespace_ entry.id), rows)
  if existing then
    sql sqlError (.update namespace_ entry) fun rows =>
      ((), rows.map (rewriteRow namespace_ entry now))
  else
    sql sqlError (.insert namespace_ entry) fun rows =>
      ((), rows ++ [{ namespace_, entry := stamped entry now }])

/-- `put` of either store, over its table. -/
def put (sqlError : Statement Group Rest → List (Row Group Rest) → Option String)
    (opts : EmbeddingOptions) (namespace_ table : String) (entry : Entry Group Rest)
    (now indexedAt : String) : Step Group Rest World Pipeline Handle Unit := do
  writeRow sqlError namespace_ entry now
  indexText host opts namespace_ table entry.id (entry.title ++ "\n" ++ entry.body) indexedAt

end Put

namespace SqlitePromptStore

variable {World Component Pipeline Handle : Type} (host : Host World Component Pipeline Handle)

def put (sqlError : Statement String PromptRest → List (Row String PromptRest) → Option String)
    (opts : EmbeddingOptions) (namespace_ : String) (entry : PromptEntry)
    (now indexedAt : String) : Step String PromptRest World Pipeline Handle Unit :=
  PromptPut.put host sqlError opts namespace_ "prompts" entry now indexedAt

end SqlitePromptStore

namespace SqliteFactStore

variable {World Component Pipeline Handle : Type} (host : Host World Component Pipeline Handle)

def put (sqlError : Statement FactKind FactRest → List (Row FactKind FactRest) → Option String)
    (opts : EmbeddingOptions) (namespace_ : String) (entry : FactEntry)
    (now indexedAt : String) : Step FactKind FactRest World Pipeline Handle Unit :=
  PromptPut.put host sqlError opts namespace_ "facts" entry now indexedAt

end SqliteFactStore

/-! ## What each part does to the rows -/

section Rows

variable {Group Rest World Component Pipeline Handle : Type}
  {host : Host World Component Pipeline Handle}
  {sqlError : Statement Group Rest → List (Row Group Rest) → Option String}
  {opts : EmbeddingOptions}

theorem call_keeps {α : Type} (f : World → Except String α × World) :
    Keeps Backend.rows (call f : Step Group Rest World Pipeline Handle α) :=
  Keeps.external fun _ => rfl

theorem initializeEngine_keeps : Keeps Backend.rows
    (EmbeddingEngine.initializeEngine host opts : Step Group Rest World Pipeline Handle Unit) := by
  unfold EmbeddingEngine.initializeEngine
  refine Keeps.bind Keeps.get fun s => ?_
  refine Keeps.ite (Keeps.pure ()) ?_
  refine Keeps.bind (call_keeps _) fun _ => ?_
  exact Keeps.bind (call_keeps _) fun _ => Keeps.modify fun _ => rfl

theorem embed_keeps (text : String) : Keeps Backend.rows
    (EmbeddingEngine.embed host opts text :
      Step Group Rest World Pipeline Handle (List Component)) := by
  unfold EmbeddingEngine.embed
  refine Keeps.bind Keeps.get fun s => ?_
  cases s.embedder with
  | none => exact Keeps.throw _
  | some embedder => exact Keeps.bind (call_keeps _) fun _ => Keeps.pure _

theorem getTable_keeps (name : String) (sampleRecord : VectorRecord Component) :
    Keeps Backend.rows
      (VectorStore.getTable host name sampleRecord :
        Step Group Rest World Pipeline Handle Handle) := by
  unfold VectorStore.getTable
  refine Keeps.bind Keeps.get fun s => ?_
  refine Keeps.ite (Keeps.throw _) ?_
  refine Keeps.bind Keeps.get fun t => ?_
  cases t.tables.get? name with
  | some cached => exact Keeps.pure cached
  | none =>
    refine Keeps.bind (call_keeps _) fun existing => ?_
    refine Keeps.ite (Keeps.bind (call_keeps _) fun table => ?_) ?_
    · exact Keeps.bind (Keeps.modify fun _ => rfl) fun _ => Keeps.pure table
    · refine Keeps.bind (call_keeps _) fun created => ?_
      refine Keeps.bind (call_keeps _) fun _ => Keeps.bind (Keeps.pure created) fun table => ?_
      exact Keeps.bind (Keeps.modify fun _ => rfl) fun _ => Keeps.pure table

theorem upsert_keeps (tableName : String) (records : List (VectorRecord Component)) :
    Keeps Backend.rows
      (VectorStore.upsert host tableName records :
        Step Group Rest World Pipeline Handle Unit) := by
  unfold VectorStore.upsert
  cases records.head? with
  | none => exact Keeps.pure ()
  | some seed =>
    refine Keeps.bind (getTable_keeps tableName seed) fun table => ?_
    exact Keeps.bind (call_keeps _) fun _ => call_keeps _

theorem ensureEmbedder_keeps : Keeps Backend.rows
    (ensureEmbedder host opts : Step Group Rest World Pipeline Handle Unit) := by
  unfold ensureEmbedder
  refine Keeps.bind Keeps.get fun s => ?_
  refine Keeps.ite (Keeps.pure ()) ?_
  exact Keeps.bind initializeEngine_keeps fun _ => Keeps.modify fun _ => rfl

/-- The vector index is another store: whatever happens there, the rows stay. -/
theorem indexText_keeps (namespace_ table id text indexedAt : String) : Keeps Backend.rows
    (indexText host opts namespace_ table id text indexedAt :
      Step Group Rest World Pipeline Handle Unit) := by
  unfold indexText
  refine Keeps.bind ensureEmbedder_keeps fun _ => ?_
  exact Keeps.bind (embed_keeps text) fun vector => upsert_keeps table _

variable (sqlError) in
/-- The SQL of `put` is done whole, or it throws and nothing is written. -/
theorem perform_writeRow (namespace_ : String) (entry : Entry Group Rest) (now : String)
    (s : Backend Group Rest World Pipeline Handle) :
    (∃ e, perform (writeRow sqlError namespace_ entry now) s = (.error e, s)) ∨
      perform (writeRow sqlError namespace_ entry now) s =
        (.ok (), { s with rows := putRow namespace_ s.rows entry now }) := by
  unfold writeRow
  rcases hselect : sqlError (.select namespace_ entry.id) s.rows with _ | e
  case some =>
    refine .inl ⟨e, perform_bind_error ?_ _⟩
    simp [sql, hselect]
  case none =>
    have hrun : perform (sql sqlError (.select namespace_ entry.id) fun rows =>
        (rows.any (isRow namespace_ entry.id), rows)) s =
          (.ok (s.rows.any (isRow namespace_ entry.id)), s) := by
      simp [sql, hselect]
    rw [perform_bind_ok hrun, putRow_eq]
    split
    case isTrue hexisting =>
      rcases hupdate : sqlError (.update namespace_ entry) s.rows with _ | e
      · exact .inr (by simp [sql, hupdate])
      · exact .inl ⟨e, by simp [sql, hupdate]⟩
    case isFalse hnew =>
      rcases hinsert : sqlError (.insert namespace_ entry) s.rows with _ | e
      · exact .inr (by simp [sql, hinsert])
      · exact .inl ⟨e, by simp [sql, hinsert]⟩

/-- A `put` whose SQL throws leaves the rows as they were. -/
theorem rows_put_of_error {namespace_ table : String} {entry : Entry Group Rest}
    {now indexedAt e : String} {s : Backend Group Rest World Pipeline Handle}
    (h : (perform (writeRow sqlError namespace_ entry now) s).1 = .error e) :
    (perform (put host sqlError opts namespace_ table entry now indexedAt) s).2.rows = s.rows := by
  rcases perform_writeRow sqlError namespace_ entry now s with ⟨e', hrun⟩ | hrun
  · unfold put
    rw [perform_bind_error hrun]
  · rw [hrun] at h
    cases h

/-- A `put` whose SQL goes through has written its row, whatever the vector index does. -/
theorem rows_put_of_ok {namespace_ table : String} {entry : Entry Group Rest}
    {now indexedAt : String} {s : Backend Group Rest World Pipeline Handle}
    (h : (perform (writeRow sqlError namespace_ entry now) s).1 = .ok ()) :
    (perform (put host sqlError opts namespace_ table entry now indexedAt) s).2.rows =
      putRow namespace_ s.rows entry now := by
  rcases perform_writeRow sqlError namespace_ entry now s with ⟨e, hrun⟩ | hrun
  · rw [hrun] at h
    cases h
  · unfold put
    rw [perform_bind_ok hrun, indexText_keeps]

end Rows

/-! ## What a rejected `put` leaves -/

/-- What `get` and `list` read. -/
def Backend.table {Group Rest World Pipeline Handle : Type}
    (s : Backend Group Rest World Pipeline Handle) : Table Group Rest Unit :=
  { rows := s.rows, vectors := [] }

/-- Two tables that `get` and `list` of the prompt store answer alike on. -/
def ReadsAlike {Vector Vector' : Type} (namespace_ : String) (before : Table String PromptRest Vector)
    (after : Table String PromptRest Vector') : Prop :=
  (∀ id, FirmMemory.get namespace_ after id = FirmMemory.get namespace_ before id) ∧
    ∀ options, FirmMemory.SqlitePromptStore.list namespace_ after options =
      FirmMemory.SqlitePromptStore.list namespace_ before options

theorem readsAlike_of_rows {Vector Vector' : Type} {namespace_ : String}
    {before : Table String PromptRest Vector} {after : Table String PromptRest Vector'}
    (h : after.rows = before.rows) : ReadsAlike namespace_ before after := by
  have hentries : entriesOf namespace_ after = entriesOf namespace_ before := by
    unfold entriesOf
    rw [h]
  refine ⟨fun id => ?_, fun options => ?_⟩
  · unfold FirmMemory.get
    rw [hentries]
  · unfold FirmMemory.SqlitePromptStore.list FirmMemory.list
    rw [hentries]

section Rejected

variable {World Component Pipeline Handle Vector : Type}

/-- A `put` that is rejected by its SQL changes nothing that is read; one that is rejected by the
vector index reads as a `put` that went through: the entry is stored. -/
theorem put_rejected (host : Host World Component Pipeline Handle) (engine : Engine Vector)
    (sqlError : Statement String PromptRest → List (Row String PromptRest) → Option String)
    (opts : EmbeddingOptions) (namespace_ : String) (entry : PromptEntry)
    (now indexedAt e : String) (vectors : List (FirmMemory.VectorRecord Vector))
    (s s' : Backend String PromptRest World Pipeline Handle)
    (h : perform (SqlitePromptStore.put host sqlError opts namespace_ entry now indexedAt) s =
      (.error e, s')) :
    ((perform (writeRow sqlError namespace_ entry now) s).1 = .error e ∧
      ReadsAlike namespace_ s.table s'.table) ∨
    ((perform (writeRow sqlError namespace_ entry now) s).1 = .ok () ∧
      ReadsAlike namespace_
        (FirmMemory.SqlitePromptStore.put engine namespace_ { rows := s.rows, vectors } entry now)
        s'.table) := by
  unfold SqlitePromptStore.put at h
  have hs' : s'.rows =
      (perform (put host sqlError opts namespace_ "prompts" entry now indexedAt) s).2.rows := by
    rw [h]
  rcases perform_writeRow sqlError namespace_ entry now s with ⟨e', hrun⟩ | hrun
  · have he : e' = e := by
      unfold put at h
      rw [perform_bind_error hrun] at h
      simpa using congrArg Prod.fst h
    subst he
    have hsql := congrArg Prod.fst hrun
    exact .inl ⟨hsql, readsAlike_of_rows (hs'.trans (rows_put_of_error hsql))⟩
  · have hsql := congrArg Prod.fst hrun
    exact .inr ⟨hsql, readsAlike_of_rows (hs'.trans (rows_put_of_ok hsql))⟩

end Rejected

/-! ## A model that cannot be loaded -/

/-- A host without a network: the embedding model is not there to load. -/
def offlineHost : Host Unit ℚ Unit Unit where
  mkdirModels world := (.ok (), world)
  pipeline _ world := (.error "fetch failed", world)
  run _ _ world := (.ok [], world)
  tableNames world := (.ok [], world)
  openTable _ world := (.ok (), world)
  createTable _ _ world := (.ok (), world)
  deleteWhere _ _ world := (.ok (), world)
  add _ _ world := (.ok (), world)

/-- A backend after `initialize`. -/
def freshBackend : Backend String PromptRest Unit Unit Unit where
  rows := []
  embedder := none
  initialized := false
  embedderReady := false
  connected := true
  tables := []
  world := ()

def ndaPrompt : PromptEntry where
  id := "nda"
  title := "Review an NDA"
  group := "legal"
  body := "Check the term."
  sensitivity := .internal
  tags := []
  rest :=
    { version := 1, validated_on := none, validated_by := none, model_preference := "any",
      languages := ["en"], supersedes := none }
  created_at := ""
  updated_at := ""

/-- No statement fails. -/
def soundSql : Statement String PromptRest → List (Row String PromptRest) → Option String :=
  fun _ _ => none

/-- The first `put` of a store whose model cannot be loaded: it is rejected, and `get` finds the
entry that was not there before. -/
theorem put_rejected_stores :
    (perform (SqlitePromptStore.put offlineHost soundSql {} "firm" ndaPrompt "t1" "t2")
      freshBackend).1 = .error "fetch failed" ∧
    FirmMemory.get "firm" freshBackend.table "nda" = none ∧
    FirmMemory.get "firm"
      (perform (SqlitePromptStore.put offlineHost soundSql {} "firm" ndaPrompt "t1" "t2")
        freshBackend).2.table "nda" =
      some { ndaPrompt with created_at := "t1", updated_at := "t1" } := by
  refine ⟨rfl, rfl, ?_⟩
  rfl

/-- An index that finds nothing. -/
def emptyEngine : Engine Unit where
  embed _ _ := ()
  embedQuery _ _ := ()
  distance _ _ := 0
  rowCount _ := 0
  tokenize _ := []

theorem put_rejected_offline :
    ((perform (writeRow soundSql "firm" ndaPrompt "t1") freshBackend).1 = .error "fetch failed" ∧
      ReadsAlike "firm" freshBackend.table
        (perform (SqlitePromptStore.put offlineHost soundSql {} "firm" ndaPrompt "t1" "t2")
          freshBackend).2.table) ∨
    ((perform (writeRow soundSql "firm" ndaPrompt "t1") freshBackend).1 = .ok () ∧
      ReadsAlike "firm"
        (FirmMemory.SqlitePromptStore.put emptyEngine "firm"
          { rows := freshBackend.rows, vectors := [] } ndaPrompt "t1")
        (perform (SqlitePromptStore.put offlineHost soundSql {} "firm" ndaPrompt "t1" "t2")
          freshBackend).2.table) :=
  put_rejected offlineHost emptyEngine soundSql {} "firm" ndaPrompt "t1" "t2" "fetch failed" []
    freshBackend _ rfl

end PromptPut
end Batiste
