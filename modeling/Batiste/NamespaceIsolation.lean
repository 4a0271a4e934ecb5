import Batiste.MemoryLists
import Batiste.Transition

/-! Several namespaces over one database and one vector index: what the operations of the others
leave of the answers that one namespace gets. -/
namespace Batiste
namespace FirmMemory

open StableSort Transition

/-! ## Operations -/

inductive Op (Group Rest : Type)
  | put (entry : Entry Group Rest) (now : String)
  | delete (id : String)
  | get (id : String)
  | list (options : SearchOptions)
  | search (query : String) (options : SearchOptions)

inductive Answer (E : Type)
  | done
  | entry (found : Option E)
  | entries (found : Except String (List E))
  | hits (found : Except String (List (SearchHit E)))
  deriving DecidableEq

section Tables

variable {Group Rest Vector : Type} [DecidableEq Group] (engine : Engine Vector)
  (group : SearchOptions → Option Group) (namespace_ : String)

/-- One operation on one table; `group` is the filter that the store reads from the options. -/
def performOn (table : Table Group Rest Vector) :
    Op Group Rest → Table Group Rest Vector × Answer (Entry Group Rest)
  | .put entry now => (put engine namespace_ table entry now, .done)
  | .delete id => (delete namespace_ table id, .done)
  | .get id => (table, .entry (get namespace_ table id))
  | .list options => (table, .entries (list namespace_ table (group options) options))
  | .search query options =>
    (table, .hits (search engine namespace_ table (group options) query options))

end Tables

/-! ## The records under some keys -/

section Records

variable {Vector : Type}

def within (keys : List String) (records : List (VectorRecord Vector)) :
    List (VectorRecord Vector) :=
  records.filter fun r => r.id ∈ keys

theorem within_remove_of_not_mem {keys : List String} {id : String} (h : id ∉ keys)
    (records : List (VectorRecord Vector)) :
    within keys (remove records id) = within keys records := by
  unfold within remove
  rw [List.filter_filter]
  apply List.filter_congr
  intro r _
  by_cases hr : r.id = id
  · simp [hr, h]
  · simp [hr]

theorem within_upsert_of_not_mem {keys : List String} (record : VectorRecord Vector)
    (h : record.id ∉ keys) (records : List (VectorRecord Vector)) :
    within keys (upsert records record) = within keys records := by
  show (remove records record.id ++ [record]).filter _ = _
  rw [List.filter_append, List.filter_cons_of_neg (by simpa using h), List.filter_nil,
    List.append_nil]
  exact within_remove_of_not_mem h records

/-- With the key among them. -/
theorem within_upsert {keys keys' : List String} {record : VectorRecord Vector}
    (h : ∀ key, key ∈ keys' ↔ key = record.id ∨ key ∈ keys)
    (records : List (VectorRecord Vector)) :
    within keys' (upsert records record) = upsert (within keys records) record := by
  unfold within upsert
  rw [List.filter_append, List.filter_cons_of_pos (by simp [h]), List.filter_nil,
    List.filter_filter, List.filter_filter]
  congr 1
  apply List.filter_congr
  intro r _
  by_cases hr : r.id = record.id <;> simp [hr, h]

/-- Without the key among them. -/
theorem within_remove {keys keys' : List String} {id : String}
    (h : ∀ key, key ∈ keys' ↔ key ≠ id ∧ key ∈ keys) (records : List (VectorRecord Vector)) :
    within keys' (remove records id) = remove (within keys records) id := by
  unfold within remove
  rw [List.filter_filter, List.filter_filter]
  apply List.filter_congr
  intro r _
  by_cases hr : r.id = id <;> simp [hr, h]

theorem nodup_remove {records : List (VectorRecord Vector)}
    (h : (records.map VectorRecord.id).Nodup) (id : String) :
    ((remove records id).map VectorRecord.id).Nodup :=
  h.sublist (List.Sublist.map _ List.filter_sublist)

theorem nodup_upsert {records : List (VectorRecord Vector)}
    (h : (records.map VectorRecord.id).Nodup) (record : VectorRecord Vector) :
    ((upsert records record).map VectorRecord.id).Nodup := by
  rw [upsert, List.map_append, List.nodup_append]
  refine ⟨nodup_remove h record.id, List.nodup_singleton _, ?_⟩
  intro id hid id' hid' heq
  obtain ⟨r, hr, rfl⟩ := List.mem_map.mp hid
  obtain rfl := List.mem_singleton.mp hid'
  simpa [heq] using List.of_mem_filter hr

end Records

/-! ## Keys of the vector index -/

section Keys

variable {Group Rest Vector : Type} {engine : Engine Vector} {namespace_ : String}

theorem keyForVector_inj {id id' : String}
    (h : keyForVector namespace_ id = keyForVector namespace_ id') : id = id' := by
  have hlist := congrArg String.toList h
  exact String.toList_inj.mp (by simpa [keyForVector] using hlist)

theorem key_of_plainId {key id : String} (h : plainId namespace_ key = some id) :
    key = keyForVector namespace_ id := by
  simp only [plainId, Option.ite_none_right_eq_some, List.isPrefixOf_iff_prefix] at h
  obtain ⟨⟨rest, hkey⟩, hid⟩ := h
  rw [← hkey, List.drop_left] at hid
  obtain rfl := Option.some.inj hid
  apply String.toList_inj.mp
  rw [← hkey]
  simp [keyForVector]

/-- The keys of the rows of a namespace. -/
def keysOf (namespace_ : String) (table : Table Group Rest Vector) : List String :=
  (entriesOf namespace_ table).map fun e => keyForVector namespace_ e.id

theorem mem_keysOf_put (table : Table Group Rest Vector) (entry : Entry Group Rest) (now : String)
    (key : String) :
    key ∈ keysOf namespace_ (put engine namespace_ table entry now) ↔
      key = keyForVector namespace_ entry.id ∨ key ∈ keysOf namespace_ table := by
  rw [keysOf, entriesOf_put]
  split
  case isTrue hany =>
    obtain ⟨e, he, hid⟩ := List.any_eq_true.mp hany
    have hold : ∀ e : Entry Group Rest,
        (if e.id = entry.id then rewritten entry now e else e).id = e.id := by
      intro e
      split
      case isTrue heq => exact heq.symm
      case isFalse => rfl
    rw [List.map_map]
    have hkeys : (fun e => keyForVector namespace_ e.id) ∘ (fun e =>
        if e.id = entry.id then rewritten entry now e else e) =
        fun e => keyForVector namespace_ e.id := by
      funext e
      exact congrArg (keyForVector namespace_) (hold e)
    rw [hkeys]
    constructor
    · exact Or.inr
    · rintro (rfl | hmem)
      · have heq : e.id = entry.id := by simpa using hid
        exact List.mem_map.mpr ⟨e, he, congrArg (keyForVector namespace_) heq⟩
      · exact hmem
  case isFalse =>
    rw [List.map_append, List.mem_append, or_comm]
    exact or_congr_left List.mem_singleton

theorem mem_keysOf_delete (table : Table Group Rest Vector) (id key : String) :
    key ∈ keysOf namespace_ (delete namespace_ table id) ↔
      key ≠ keyForVector namespace_ id ∧ key ∈ keysOf namespace_ table := by
  simp only [keysOf, entriesOf_delete, List.mem_map, List.mem_filter, decide_eq_true_eq]
  constructor
  · rintro ⟨e, ⟨he, hid⟩, rfl⟩
    exact ⟨fun h => hid (keyForVector_inj h), e, he, rfl⟩
  · rintro ⟨hne, e, he, rfl⟩
    exact ⟨e, ⟨he, fun h => hne (congrArg (keyForVector namespace_) h)⟩, rfl⟩

end Keys

/-! ## The hits of a namespace -/

section Order

variable {Vector : Type} (engine : Engine Vector) (query : Vector)

instance : IsTrans (VectorRecord Vector) (Closer engine query) :=
  ⟨fun _ _ _ hrs hst => le_trans hrs hst⟩

instance : Std.Total (Closer engine query) := ⟨fun _ _ => le_total _ _⟩

end Order

section Hits

variable {Group Rest Vector : Type} [DecidableEq Group] (engine : Engine Vector)
  (namespace_ : String)

/-- What a record of the index contributes to the answer. -/
def hitOf (query : String) (candidates : List (Entry Group Rest)) (r : VectorRecord Vector) :
    Option (SearchHit (Entry Group Rest)) :=
  (plainId namespace_ r.id).bind fun id =>
    (candidates.reverse.find? fun e => e.id = id).map fun entry =>
      { entry, reason := .vector
        score := 1 / (1 + engine.distance (engine.embedQuery namespace_ query) r.vector) }

variable {engine namespace_}

omit [DecidableEq Group] in
/-- A record of no candidate contributes nothing. -/
theorem mem_of_hitOf {query : String} {candidates : List (Entry Group Rest)}
    {r : VectorRecord Vector} (h : hitOf engine namespace_ query candidates r ≠ none) :
    r.id ∈ candidates.map fun e => keyForVector namespace_ e.id := by
  obtain ⟨hit, hhit⟩ := Option.ne_none_iff_exists'.mp h
  obtain ⟨id, hid, hmap⟩ := Option.bind_eq_some_iff.mp hhit
  obtain ⟨e, he, -⟩ := Option.map_eq_some_iff.mp hmap
  have heq : e.id = id := by simpa using List.find?_some he
  rw [key_of_plainId hid, ← heq]
  exact List.mem_map.mpr ⟨e, List.mem_reverse.mp (List.mem_of_find?_eq_some he), rfl⟩

omit [DecidableEq Group] in
theorem nodup_plainIds (engine : Engine Vector) (namespace_ : String)
    {records : List (VectorRecord Vector)} (h : (records.map VectorRecord.id).Nodup)
    (query : Vector) (limit : JsNumber) :
    ((nearest engine records query limit).filterMap fun r => plainId namespace_ r.id).Nodup := by
  have hsorted : ((ranked engine query records).map VectorRecord.id).Nodup :=
    ((List.perm_insertionSort _ records).map VectorRecord.id).nodup_iff.mpr h
  have hnearest : ((nearest engine records query limit).map VectorRecord.id).Nodup :=
    hsorted.sublist ((List.take_sublist _ _).map _)
  have hids : (nearest engine records query limit).filterMap (fun r => plainId namespace_ r.id) =
      ((nearest engine records query limit).map VectorRecord.id).filterMap (plainId namespace_) := by
    rw [List.filterMap_map]
    rfl
  rw [hids]
  apply hnearest.filterMap
  intro key key' id hkey hkey'
  rw [key_of_plainId hkey, key_of_plainId hkey']

omit [DecidableEq Group] in
theorem vectorSearch_eq {table : Table Group Rest Vector} (query : String) (limit : JsNumber)
    (hnodup : (table.vectors.map VectorRecord.id).Nodup) :
    vectorSearch engine namespace_ table query limit =
      (nearest engine table.vectors (engine.embedQuery namespace_ query)
        (limit.mulPos 3)).filterMap fun h => (plainId namespace_ h.id).map fun id =>
          (id, 1 / (1 + engine.distance (engine.embedQuery namespace_ query) h.vector)) := by
  set hits := nearest engine table.vectors (engine.embedQuery namespace_ query) (limit.mulPos 3)
  set score := fun h : VectorRecord Vector =>
    1 / (1 + engine.distance (engine.embedQuery namespace_ query) h.vector)
  have hspread : vectorSearch engine namespace_ table query limit = Dict.spread []
      (hits.filterMap fun h => (plainId namespace_ h.id).map fun id => (id, score h)) := by
    rw [Dict.spread, List.foldl_filterMap, vectorSearch]
    congr 1
    funext byId h
    cases plainId namespace_ h.id <;> rfl
  have hkeys : (hits.filterMap fun h =>
      (plainId namespace_ h.id).map fun id => (id, score h)).map Prod.fst =
        hits.filterMap fun h => plainId namespace_ h.id := by
    rw [List.map_filterMap]
    congr 1
    funext h
    cases plainId namespace_ h.id <;> rfl
  rw [hspread]
  apply Dict.spread_append (d := [])
  rw [List.nil_append, hkeys]
  exact nodup_plainIds engine namespace_ hnodup _ _

omit [DecidableEq Group] in
theorem vectorHits_eq {table : Table Group Rest Vector} (query : String) (limit : JsNumber)
    (candidates : List (Entry Group Rest))
    (hnodup : (table.vectors.map VectorRecord.id).Nodup) :
    vectorHits candidates (vectorSearch engine namespace_ table query limit) =
      (nearest engine table.vectors (engine.embedQuery namespace_ query)
        (limit.mulPos 3)).filterMap (hitOf engine namespace_ query candidates) := by
  rw [vectorSearch_eq query limit hnodup, vectorHits, List.filterMap_filterMap]
  congr 1
  funext r
  unfold hitOf
  cases plainId namespace_ r.id <;> rfl

end Hits

/-! ## What other namespaces leave alone -/

section Sharing

variable {Group Rest Vector : Type} [DecidableEq Group] (engine : Engine Vector) (mine : String)

/-- The operation of another namespace does not write under a key of a row of `mine`. -/
def Untouched (table : Table Group Rest Vector) (other : String) : Op Group Rest → Prop
  | .put entry _ => keyForVector other entry.id ∉ keysOf mine table
  | .delete id => keyForVector other id ∉ keysOf mine table
  | _ => True

/-- No record of another namespace keeps one of `mine` out of the rows that the index returns. -/
def Uncrowded (table : Table Group Rest Vector) : Op Group Rest → Prop
  | .search query options =>
    let records := ranked engine (engine.embedQuery mine query) table.vectors
    let count := engine.rowCount ((options.limit.getD (.finite 20)).mulPos 3)
    (∀ r ∈ records.take count, r.id ∈ keysOf mine table) ∨
      ∀ r ∈ records.drop count, r.id ∉ keysOf mine table
  | _ => True

/-- The table, as `mine` sees it, is the table that it has for itself. -/
structure Shares (table alone : Table Group Rest Vector) : Prop where
  entries : entriesOf mine table = entriesOf mine alone
  records : within (keysOf mine table) table.vectors = alone.vectors
  nodup : (table.vectors.map VectorRecord.id).Nodup

variable {engine mine} {table alone : Table Group Rest Vector}

theorem Shares.other (h : Shares mine table alone) {other : String} (hne : other ≠ mine)
    (group : SearchOptions → Option Group) {op : Op Group Rest}
    (hop : Untouched mine table other op) :
    Shares mine (performOn engine group other table op).1 alone := by
  cases op with
  | put entry now =>
    have hentries := entriesOf_put_other engine hne table entry now
    have hkeys : keysOf mine (put engine other table entry now) = keysOf mine table :=
      congrArg (List.map _) hentries
    refine ⟨hentries.trans h.entries, ?_, nodup_upsert h.nodup _⟩
    exact (congrArg (within · _) hkeys).trans
      ((within_upsert_of_not_mem ⟨keyForVector other entry.id, _⟩ hop table.vectors).trans h.records)
  | delete id =>
    have hentries := entriesOf_delete_other hne table id
    have hkeys : keysOf mine (delete other table id) = keysOf mine table :=
      congrArg (List.map _) hentries
    refine ⟨hentries.trans h.entries, ?_, nodup_remove h.nodup _⟩
    exact (congrArg (within · _) hkeys).trans
      ((within_remove_of_not_mem hop table.vectors).trans h.records)
  | get id => exact h
  | list options => exact h
  | search query options => exact h

omit [DecidableEq Group] in
/-- The rows that the index returns to `mine`, with and without the other records. -/
theorem Shares.nearest (h : Shares mine table alone) {query : String} {options : SearchOptions}
    (hop : Uncrowded engine mine table (.search query options : Op Group Rest)) :
    within (keysOf mine table) (FirmMemory.nearest engine table.vectors
        (engine.embedQuery mine query) ((options.limit.getD (.finite 20)).mulPos 3)) =
      FirmMemory.nearest engine alone.vectors (engine.embedQuery mine query)
        ((options.limit.getD (.finite 20)).mulPos 3) := by
  set count := engine.rowCount ((options.limit.getD (.finite 20)).mulPos 3)
  have hsort : ranked engine (engine.embedQuery mine query) alone.vectors =
      within (keysOf mine table) (ranked engine (engine.embedQuery mine query) table.vectors) := by
    rw [← h.records]
    exact (filter_insertionSort _ _).symm
  show within _ ((ranked engine _ table.vectors).take count) =
    (ranked engine _ alone.vectors).take count
  rw [hsort]
  have hfits : (∀ r ∈ (ranked engine (engine.embedQuery mine query) table.vectors).take count,
        r.id ∈ keysOf mine table) ∨
      ∀ r ∈ (ranked engine (engine.embedQuery mine query) table.vectors).drop count,
        r.id ∉ keysOf mine table := hop
  have hcut := (map_filter_take_eq_iff id (fun r : VectorRecord Vector => r.id ∈ keysOf mine table)
    (ranked engine (engine.embedQuery mine query) table.vectors) count).mpr (by simpa using hfits)
  rwa [List.map_id, List.map_id] at hcut

omit [DecidableEq Group] in
theorem mem_of_sqlLimit {limit : JsNumber} {xs ys : List (Entry Group Rest)}
    (h : sqlLimit limit xs = .ok ys) {e : Entry Group Rest} (he : e ∈ ys) : e ∈ xs := by
  unfold sqlLimit at h
  split at h
  · split at h
    · obtain rfl := Except.ok.inj h
      split at he
      · exact he
      · exact List.mem_of_mem_take he
    · cases h
  · cases h

theorem mem_of_list {group : Option Group} {options : SearchOptions}
    {found : List (Entry Group Rest)} (h : list mine table group options = .ok found)
    {e : Entry Group Rest} (he : e ∈ found) : e ∈ entriesOf mine table := by
  unfold list at h
  cases hlimit : sqlLimit (options.limit.getD (.finite 1000))
      ((entriesOf mine table).filter (passes group options.sensitivity)) with
  | error message => rw [hlimit] at h; cases h
  | ok limited =>
    rw [hlimit] at h
    obtain rfl := Except.ok.inj h
    exact List.mem_of_mem_filter (mem_of_sqlLimit hlimit (List.mem_of_mem_filter he))

theorem Shares.search (h : Shares mine table alone) (group : Option Group) {query : String}
    {options : SearchOptions}
    (hop : Uncrowded engine mine table (.search query options : Op Group Rest)) :
    search engine mine table group query options =
      search engine mine alone group query options := by
  have halone : (alone.vectors.map VectorRecord.id).Nodup := by
    rw [← h.records]
    exact h.nodup.sublist (List.Sublist.map _ List.filter_sublist)
  have hlist : list mine table group { options with limit := none } =
      list mine alone group { options with limit := none } := by
    simp only [list, h.entries]
  unfold FirmMemory.search
  rw [hlist]
  cases hcandidates : list mine alone group { options with limit := none } with
  | error message => rfl
  | ok candidates =>
    have hsubset : ∀ e ∈ candidates, e ∈ entriesOf mine table := by
      rw [h.entries]
      exact fun e he => mem_of_list hcandidates he
    have hhits : vectorHits candidates
        (vectorSearch engine mine table query (options.limit.getD (.finite 20))) =
      vectorHits candidates
        (vectorSearch engine mine alone query (options.limit.getD (.finite 20))) := by
      rw [vectorHits_eq query _ candidates h.nodup, vectorHits_eq query _ candidates halone,
        ← h.nearest hop, within, List.filterMap_filter]
      congr 1
      funext r
      split
      case isTrue => rfl
      case isFalse hmem =>
        by_contra hhit
        obtain ⟨e, he, hid⟩ := List.mem_map.mp (mem_of_hitOf hhit)
        have hkey : r.id ∈ keysOf mine table := List.mem_map.mpr ⟨e, hsubset e he, hid⟩
        exact hmem (by simpa using hkey)
    show Except.ok (assemble engine query options candidates _) = Except.ok (assemble _ _ _ _ _)
    simp only [assemble, hhits]

theorem Shares.own (h : Shares mine table alone) (group : SearchOptions → Option Group)
    {op : Op Group Rest} (hop : Uncrowded engine mine table op) :
    Shares mine (performOn engine group mine table op).1
        (performOn engine group mine alone op).1 ∧
      (performOn engine group mine table op).2 = (performOn engine group mine alone op).2 := by
  cases op with
  | put entry now =>
    refine ⟨⟨?_, ?_, nodup_upsert h.nodup _⟩, rfl⟩
    · show entriesOf mine (put engine mine table entry now) =
        entriesOf mine (put engine mine alone entry now)
      rw [entriesOf_put, entriesOf_put, h.entries]
    · refine (within_upsert (mem_keysOf_put table entry now) table.vectors).trans ?_
      rw [h.records]
      rfl
  | delete id =>
    refine ⟨⟨?_, ?_, nodup_remove h.nodup _⟩, rfl⟩
    · show entriesOf mine (delete mine table id) = entriesOf mine (delete mine alone id)
      rw [entriesOf_delete, entriesOf_delete, h.entries]
    · refine (within_remove (mem_keysOf_delete table id) table.vectors).trans ?_
      rw [h.records]
      rfl
  | get id => exact ⟨h, by simp only [performOn, get, h.entries]⟩
  | list options => exact ⟨h, by simp only [performOn, list, h.entries]⟩
  | search query options => exact ⟨h, congrArg Answer.hits (h.search (group options) hop)⟩

end Sharing

/-! ## Runs -/

/-- An operation on the prompts or the facts of a namespace. -/
structure Action where
  namespace_ : String
  op : Op String PromptRest ⊕ Op FactKind FactRest

abbrev Reply := Answer PromptEntry ⊕ Answer FactEntry

/-- One data directory. -/
structure Stores (Vector : Type) where
  prompts : Table String PromptRest Vector
  facts : Table FactKind FactRest Vector

section Runs

variable {Vector : Type} (engine : Engine Vector)

def Stores.empty : Stores Vector :=
  { prompts := { rows := [], vectors := [] }, facts := { rows := [], vectors := [] } }

def perform (s : Stores Vector) (a : Action) : Stores Vector × Reply :=
  match a.op with
  | .inl op =>
    let (prompts, answer) := performOn engine categoryFilter a.namespace_ s.prompts op
    ({ s with prompts }, .inl answer)
  | .inr op =>
    let (facts, answer) := performOn engine SearchOptions.kind a.namespace_ s.facts op
    ({ s with facts }, .inr answer)

def step (s : Stores Vector) (a : Action) : Option (Stores Vector) := some (perform engine s a).1

/-- Every action with the answer it gets. -/
def answers : Stores Vector → List Action → List (Action × Reply)
  | _, [] => []
  | s, a :: as => (a, (perform engine s a).2) :: answers (perform engine s a).1 as

/-- The action does not come between `mine` and its rows: it writes under none of their keys, and
a search of `mine` finds the index uncrowded. -/
def Apart (mine : String) (s : Stores Vector) (a : Action) : Prop :=
  match a.op with
  | .inl op =>
    if a.namespace_ = mine then Uncrowded engine mine s.prompts op
    else Untouched mine s.prompts a.namespace_ op
  | .inr op =>
    if a.namespace_ = mine then Uncrowded engine mine s.facts op
    else Untouched mine s.facts a.namespace_ op

/-- Both tables, as `mine` sees them, are those it has for itself. -/
structure SharesAll (mine : String) (s alone : Stores Vector) : Prop where
  prompts : Shares mine s.prompts alone.prompts
  facts : Shares mine s.facts alone.facts

variable {engine}

theorem SharesAll.other {mine : String} {s alone : Stores Vector} (h : SharesAll mine s alone)
    {a : Action} (hne : a.namespace_ ≠ mine) (hok : Apart engine mine s a) :
    SharesAll mine (perform engine s a).1 alone := by
  obtain ⟨other, op⟩ := a
  cases op with
  | inl op => exact ⟨h.prompts.other hne _ (by simpa [Apart, hne] using hok), h.facts⟩
  | inr op => exact ⟨h.prompts, h.facts.other hne _ (by simpa [Apart, hne] using hok)⟩

theorem SharesAll.own {mine : String} {s alone : Stores Vector} (h : SharesAll mine s alone)
    {a : Action} (heq : a.namespace_ = mine) (hok : Apart engine mine s a) :
    SharesAll mine (perform engine s a).1 (perform engine alone a).1 ∧
      (perform engine s a).2 = (perform engine alone a).2 := by
  obtain ⟨namespace_, op⟩ := a
  obtain rfl : mine = namespace_ := heq.symm
  cases op with
  | inl op =>
    have hop : Uncrowded engine mine s.prompts op := by simpa [Apart] using hok
    obtain ⟨hshares, hanswer⟩ := h.prompts.own categoryFilter hop
    exact ⟨⟨hshares, h.facts⟩, congrArg Sum.inl hanswer⟩
  | inr op =>
    have hop : Uncrowded engine mine s.facts op := by simpa [Apart] using hok
    obtain ⟨hshares, hanswer⟩ := h.facts.own SearchOptions.kind hop
    exact ⟨⟨h.prompts, hshares⟩, congrArg Sum.inr hanswer⟩

theorem sharesAll_empty (mine : String) :
    SharesAll mine (.empty : Stores Vector) (.empty : Stores Vector) :=
  ⟨⟨rfl, rfl, List.nodup_nil⟩, ⟨rfl, rfl, List.nodup_nil⟩⟩

theorem answers_shared {mine : String} {s alone : Stores Vector} (h : SharesAll mine s alone)
    {actions : List Action}
    (hok : Each (step engine) s actions fun _ s a => Apart engine mine s a) :
    (answers engine s actions).filter (fun r => r.1.namespace_ = mine) =
      answers engine alone (actions.filter fun a => a.namespace_ = mine) := by
  induction actions generalizing s alone with
  | nil => rfl
  | cons a actions ih =>
    rw [answers]
    by_cases heq : a.namespace_ = mine
    · obtain ⟨hshares, hanswer⟩ := h.own heq hok.head
      rw [List.filter_cons_of_pos (by simpa using heq), List.filter_cons_of_pos (by simpa using heq),
        answers, ih hshares (hok.tail rfl), hanswer]
    · rw [List.filter_cons_of_neg (by simpa using heq), List.filter_cons_of_neg (by simpa using heq),
        ih (h.other heq hok.head) (hok.tail rfl)]

/-- In a run whose actions all keep apart from `mine`, it gets the answers that it gets without the
others. -/
theorem namespaces_isolated (engine : Engine Vector) (mine : String) (actions : List Action)
    (hok : Each (step engine) .empty actions fun _ s a => Apart engine mine s a) :
    (answers engine .empty actions).filter (fun r => r.1.namespace_ = mine) =
      answers engine .empty (actions.filter fun a => a.namespace_ = mine) :=
  answers_shared (sharesAll_empty mine) hok

/-- Two firms with a prompt of one name. -/
def twoFirms : List Action :=
  [⟨"acme", .inl (.put (prompt "p1" "draft") "t0")⟩,
    ⟨"globex", .inl (.put (prompt "p1" "draft") "t1")⟩,
    ⟨"acme", .inl (.search "p1" { vectorOnly := true })⟩]

theorem namespaces_isolated_two_firms :
    (answers unitEngine .empty twoFirms).filter (fun r => r.1.namespace_ = "acme") =
      answers unitEngine .empty (twoFirms.filter fun a => a.namespace_ = "acme") := by
  refine namespaces_isolated unitEngine "acme" twoFirms
    (each_cons trivial rfl (each_cons ?_ rfl (each_cons (.inr ?_) rfl (each_nil _ _))))
  · show keyForVector "globex" "p1" ∉ keysOf "acme" _
    decide +kernel
  · decide +kernel

/-- A key that two namespaces share: the delete in the second takes the vector of the first. -/
def sharedKey : List Action :=
  [⟨"a", .inl (.put (prompt "b::x" "draft") "t0")⟩, ⟨"a::b", .inl (.delete "x")⟩,
    ⟨"a", .inl (.search "query" { vectorOnly := true })⟩]

theorem namespaces_leak : ¬ ∀ (engine : Engine Unit) (mine : String) (actions : List Action),
    (answers engine .empty actions).filter (fun r => r.1.namespace_ = mine) =
      answers engine .empty (actions.filter fun a => a.namespace_ = mine) := by
  intro hisolated
  have hbad := congrArg (List.map Prod.snd) (hisolated unitEngine "a" sharedKey)
  revert hbad
  decide +kernel

end Runs

end FirmMemory
end Batiste
