import Batiste.FirmMemory
import Batiste.StableSort

/-! What the two prompt stores list after the same puts and deletes. -/
namespace Batiste
namespace FirmMemory

open StableSort

/-! ## The entries of a namespace -/

section Entries

variable {Group Rest Vector : Type} {engine : Engine Vector}
  {namespace_ : String}

/-- What `put` makes of an entry that is already there. -/
def rewritten (entry : Entry Group Rest) (now : String) (old : Entry Group Rest) :
    Entry Group Rest :=
  { entry with created_at := old.created_at, updated_at := now }

/-- What `put` makes of a new entry. -/
def stamped (entry : Entry Group Rest) (now : String) : Entry Group Rest :=
  { entry with
    created_at := if entry.created_at = "" then now else entry.created_at
    updated_at := now }

theorem any_isRow (table : Table Group Rest Vector) (id : String) :
    table.rows.any (isRow namespace_ id) =
      (entriesOf namespace_ table).any fun e => e.id = id := by
  rw [entriesOf, List.any_map, List.any_filter]
  rfl

/-- The rows of `put` where the row is there already. -/
def rewriteRow (namespace_ : String) (entry : Entry Group Rest) (now : String)
    (row : Row Group Rest) : Row Group Rest :=
  if isRow namespace_ entry.id row then { row with entry := rewritten entry now row.entry } else row

@[simp] theorem rewriteRow_namespace (entry : Entry Group Rest) (now : String)
    (row : Row Group Rest) : (rewriteRow namespace_ entry now row).namespace_ = row.namespace_ := by
  unfold rewriteRow
  split <;> rfl

theorem putRow_eq (rows : List (Row Group Rest)) (entry : Entry Group Rest) (now : String) :
    putRow namespace_ rows entry now =
      if rows.any (isRow namespace_ entry.id) then rows.map (rewriteRow namespace_ entry now)
      else rows ++ [{ namespace_, entry := stamped entry now }] := rfl

theorem filter_map_rewriteRow (other : String) (rows : List (Row Group Rest))
    (entry : Entry Group Rest) (now : String) :
    (rows.map (rewriteRow namespace_ entry now)).filter (fun row => row.namespace_ = other) =
      (rows.filter fun row => row.namespace_ = other).map (rewriteRow namespace_ entry now) := by
  rw [List.filter_map]
  congr 1
  apply List.filter_congr
  intro row _
  simp

theorem entriesOf_put (table : Table Group Rest Vector) (entry : Entry Group Rest) (now : String) :
    entriesOf namespace_ (put engine namespace_ table entry now) =
      if (entriesOf namespace_ table).any fun e => e.id = entry.id then
        (entriesOf namespace_ table).map fun e =>
          if e.id = entry.id then rewritten entry now e else e
      else entriesOf namespace_ table ++ [stamped entry now] := by
  rw [← any_isRow]
  simp only [entriesOf, put, putRow_eq]
  split
  case isTrue =>
    rw [filter_map_rewriteRow, List.map_map, List.map_map]
    apply List.map_congr_left
    intro row hrow
    have hns : row.namespace_ = namespace_ := by simpa using List.of_mem_filter hrow
    by_cases hid : row.entry.id = entry.id <;> simp [rewriteRow, isRow, hns, hid]
  case isFalse => simp

theorem entriesOf_delete (table : Table Group Rest Vector) (id : String) :
    entriesOf namespace_ (delete namespace_ table id) =
      (entriesOf namespace_ table).filter fun e => e.id ≠ id := by
  rw [entriesOf, entriesOf, delete, List.filter_filter, List.filter_map, List.filter_filter]
  congr 1
  apply List.filter_congr
  intro row _
  by_cases hns : row.namespace_ = namespace_ <;> simp [isRow, hns]

/-- The operations of one namespace leave the entries of another alone. -/
theorem entriesOf_put_other (engine : Engine Vector) {other : String} (h : other ≠ namespace_)
    (table : Table Group Rest Vector) (entry : Entry Group Rest) (now : String) :
    entriesOf namespace_ (put engine other table entry now) = entriesOf namespace_ table := by
  simp only [entriesOf, put, putRow_eq]
  split
  case isTrue =>
    rw [filter_map_rewriteRow, List.map_map]
    apply List.map_congr_left
    intro row hrow
    have hns : row.namespace_ = namespace_ := by simpa using List.of_mem_filter hrow
    simp [rewriteRow, isRow, hns, Ne.symm h]
  case isFalse => simp [h]

theorem entriesOf_delete_other {other : String} (h : other ≠ namespace_)
    (table : Table Group Rest Vector) (id : String) :
    entriesOf namespace_ (delete other table id) = entriesOf namespace_ table := by
  rw [entriesOf, entriesOf, delete, List.filter_filter]
  congr 1
  apply List.filter_congr
  intro row _
  by_cases hns : row.namespace_ = namespace_
  · simp [isRow, hns, Ne.symm h]
  · simp [hns]

end Entries

/-! ## The same history on both stores -/

/-- A write; each store reads its own clock. -/
inductive Write
  | put (entry : PromptEntry) (sqlNow memoryNow : String)
  | delete (id : String)

section Histories

variable {Vector : Type} (engine : Engine Vector) (namespace_ : String)

def sqliteStep (table : Table String PromptRest Vector) : Write → Table String PromptRest Vector
  | .put entry now _ => SqlitePromptStore.put engine namespace_ table entry now
  | .delete id => delete namespace_ table id

def memoryStep (data : InMemoryPromptStore.Data) : Write → InMemoryPromptStore.Data
  | .put entry _ now => InMemoryPromptStore.put data entry now
  | .delete id => InMemoryPromptStore.delete data id

def sqliteAfter (history : List Write) : Table String PromptRest Vector :=
  history.foldl (sqliteStep engine namespace_) { rows := [], vectors := [] }

def memoryAfter (history : List Write) : InMemoryPromptStore.Data :=
  history.foldl memoryStep []

/-- An entry without its two times. -/
def untimed (e : PromptEntry) : PromptEntry := { e with created_at := "", updated_at := "" }

/-- An entry of the table and an entry of the map, which has it under its id. -/
structure Same (e : PromptEntry) (d : String × PromptEntry) : Prop where
  untimed_eq : untimed e = untimed d.2
  key : d.1 = e.id

/-- Both stores hold the same entries in the same order, up to their times. -/
def Alike (table : Table String PromptRest Vector) (data : InMemoryPromptStore.Data) : Prop :=
  List.Forall₂ Same (entriesOf namespace_ table) data

variable {engine namespace_}

/-- The entry that `InMemoryPromptStore.put` stores. -/
theorem memoryPut_eq (data : InMemoryPromptStore.Data) (entry : PromptEntry) (now : String) :
    ∃ stored : PromptEntry, InMemoryPromptStore.put data entry now = data.set entry.id stored ∧
      untimed stored = untimed entry := by
  refine ⟨_, rfl, ?_⟩
  split <;> rfl

theorem any_id {es : List PromptEntry} {data : InMemoryPromptStore.Data}
    (h : List.Forall₂ Same es data) (id : String) :
    (es.any fun e => e.id = id) = data.any fun d => d.1 == id := by
  induction h with
  | nil => rfl
  | cons hsame _ ih =>
    rw [List.any_cons, List.any_cons, ih, hsame.key]
    rfl

/-- Step by step: a known id keeps its place, a new one goes to the end. -/
theorem Alike.step {table : Table String PromptRest Vector} {data : InMemoryPromptStore.Data}
    (h : Alike namespace_ table data) (write : Write) :
    Alike namespace_ (sqliteStep engine namespace_ table write) (memoryStep data write) := by
  cases write with
  | put entry sqlNow memoryNow =>
    obtain ⟨stored, hput, huntimed⟩ := memoryPut_eq data entry memoryNow
    show List.Forall₂ Same (entriesOf namespace_ (put engine namespace_ table entry sqlNow))
      (InMemoryPromptStore.put data entry memoryNow)
    rw [hput, Dict.set, ← any_id h entry.id, entriesOf_put]
    split
    case isTrue =>
      rw [List.forall₂_map_left_iff, List.forall₂_map_right_iff]
      apply h.imp
      intro e d hsame
      rw [← hsame.key]
      split
      · exact ⟨huntimed.symm, rfl⟩
      · exact hsame
    case isFalse =>
      exact List.rel_append h (.cons ⟨huntimed.symm, rfl⟩ .nil)
  | delete id =>
    show List.Forall₂ Same (entriesOf namespace_ (delete namespace_ table id)) (Dict.erase data id)
    rw [entriesOf_delete]
    apply List.rel_filter _ h
    intro e d hsame
    simp [hsame.key]

theorem alike_after (engine : Engine Vector) (namespace_ : String) (history : List Write) :
    Alike namespace_ (sqliteAfter engine namespace_ history) (memoryAfter history) := by
  have hall : ∀ (table : Table String PromptRest Vector) (data : InMemoryPromptStore.Data),
      Alike namespace_ table data →
        Alike namespace_ (history.foldl (sqliteStep engine namespace_) table)
          (history.foldl memoryStep data) := by
    induction history with
    | nil => exact fun table data h => h
    | cons write history ih => exact fun table data h => ih _ _ (h.step write)
  exact hall _ _ .nil

/-- What both stores keep before the tags and the limit. -/
theorem alike_passed (engine : Engine Vector) (namespace_ : String) (history : List Write)
    (options : SearchOptions) :
    List.Forall₂ Same
      ((entriesOf namespace_ (sqliteAfter engine namespace_ history)).filter
        (passes (categoryFilter options) options.sensitivity))
      ((memoryAfter history).filter
        fun d => passes (categoryFilter options) options.sensitivity d.2) := by
  apply List.rel_filter _ (alike_after engine namespace_ history)
  intro e d hsame
  have hgroup : d.2.group = e.group := (congrArg Entry.group hsame.untimed_eq).symm
  have hsensitivity : d.2.sensitivity = e.sensitivity :=
    (congrArg Entry.sensitivity hsame.untimed_eq).symm
  simp [passes, hgroup, hsensitivity]

end Histories

/-! ## When the lists agree -/

section Agreement

variable {Vector : Type} (engine : Engine Vector) (namespace_ : String)

/-- The entries of a history that pass the category and the sensitivity. -/
def passed (history : List Write) (options : SearchOptions) : List PromptEntry :=
  (entriesOf namespace_ (sqliteAfter engine namespace_ history)).filter
    (passes (categoryFilter options) options.sensitivity)

/-- Where a limit before the tags does what the other store does: the tags drop nothing before a
positive limit, or everything behind it, and a limit that is no positive integer leaves nothing
to list. -/
def LimitFits (limit : Option JsNumber) (tags : Option (List String)) (es : List PromptEntry) :
    Prop :=
  match limit with
  | none => ∀ e ∈ es.drop 1000, ¬hasTag tags e
  | some (.finite value) =>
    (value.den = 1 ∧ -2 ^ 63 ≤ value.num ∧ value.num < 2 ^ 63) ∧
      if 0 < value.num then
        (∀ e ∈ es.take value.num.toNat, hasTag tags e) ∨
          ∀ e ∈ es.drop value.num.toNat, ¬hasTag tags e
      else ∀ e ∈ es, ¬hasTag tags e
  | some _ => False

variable {engine namespace_}

/-- The ids that both stores keep before the limit. -/
def taggedIds (engine : Engine Vector) (namespace_ : String) (history : List Write)
    (options : SearchOptions) : List String :=
  ((passed engine namespace_ history options).filter (hasTag options.tags)).map Entry.id

theorem map_sliceTo {α β : Type} (f : α → β) (x : JsNumber) (xs : List α) :
    (sliceTo x xs).map f = sliceTo x (xs.map f) := by
  cases x with
  | finite value =>
    simp only [sliceTo]
    split <;> simp [List.map_take]
  | nan => rfl
  | infinity negative => cases negative <;> rfl

theorem map_id_eq {es : List PromptEntry} {data : InMemoryPromptStore.Data}
    (h : List.Forall₂ Same es data) : es.map Entry.id = (data.map Prod.snd).map Entry.id := by
  induction h with
  | nil => rfl
  | cons hsame _ ih =>
    have hid : (untimed _).id = (untimed _).id := congrArg Entry.id hsame.untimed_eq
    rw [List.map_cons, List.map_cons, List.map_cons, ih]
    exact congrArg (· :: _) hid

theorem memory_ids (engine : Engine Vector) (namespace_ : String) (history : List Write)
    (options : SearchOptions) :
    (((memoryAfter history).map Prod.snd).filter fun e =>
        passes (categoryFilter options) options.sensitivity e && hasTag options.tags e).map
        Entry.id = taggedIds engine namespace_ history options := by
  have htagged := List.rel_filter (p := hasTag options.tags)
    (q := fun d : String × PromptEntry => hasTag options.tags d.2)
    (fun e d hsame => by
      have htags : (untimed e).tags = (untimed d.2).tags := congrArg Entry.tags hsame.untimed_eq
      simp only [hasTag]
      rw [show e.tags = d.2.tags from htags])
    (alike_passed engine namespace_ history options)
  rw [taggedIds, passed, map_id_eq htagged, List.filter_map, List.filter_filter]
  congr 2
  apply List.filter_congr
  intro d _
  exact Bool.and_comm _ _

theorem memory_list_ids (engine : Engine Vector) (namespace_ : String) (history : List Write)
    (options : SearchOptions) :
    (InMemoryPromptStore.list (memoryAfter history) options).map Entry.id =
      match options.limit with
      | some limit =>
        if limit.truthy then sliceTo limit (taggedIds engine namespace_ history options)
        else taggedIds engine namespace_ history options
      | none => taggedIds engine namespace_ history options := by
  unfold InMemoryPromptStore.list
  rw [← memory_ids engine namespace_]
  cases options.limit with
  | none => rfl
  | some limit =>
    dsimp only
    split
    · rw [map_sliceTo]
    · rfl

theorem sqlite_list_ids (history : List Write) (options : SearchOptions) :
    (SqlitePromptStore.list namespace_ (sqliteAfter engine namespace_ history) options).map
        (·.map Entry.id) =
      (sqlLimit (options.limit.getD (.finite 1000)) (passed engine namespace_ history options)).map
        fun es => (es.filter (hasTag options.tags)).map Entry.id := by
  unfold SqlitePromptStore.list list passed
  cases sqlLimit (options.limit.getD (.finite 1000)) _ <;> rfl

theorem sqlLimit_int {α : Type} {n : ℤ} (hn : -2 ^ 63 ≤ n ∧ n < 2 ^ 63) (xs : List α) :
    sqlLimit (.finite n) xs = .ok (if n < 0 then xs else xs.take n.toNat) := by
  unfold sqlLimit
  dsimp only
  rw [if_pos ⟨Rat.den_intCast n, hn⟩, Rat.num_intCast]

theorem sliceTo_int {α : Type} (n : ℤ) (xs : List α) :
    sliceTo (.finite n) xs =
      if 0 ≤ n then xs.take n.toNat else xs.take (xs.length - (-n).toNat) := by
  have hneg : ⌊-(n : ℚ)⌋ = -n := by
    rw [← Int.cast_neg, Int.floor_intCast]
  simp only [sliceTo, Int.floor_intCast, hneg, Int.cast_nonneg_iff]

/-- The tags of the ids that a limit leaves, for a limit that SQL takes. -/
theorem int_limit_iff {n : ℤ} (hn : -2 ^ 63 ≤ n ∧ n < 2 ^ 63) (tags : Option (List String))
    (es : List PromptEntry) :
    (sqlLimit (.finite n) es).map (fun es => (es.filter (hasTag tags)).map Entry.id) =
        .ok (if (JsNumber.finite n).truthy then
            sliceTo (.finite n) ((es.filter (hasTag tags)).map Entry.id)
          else (es.filter (hasTag tags)).map Entry.id) ↔
      if 0 < n then
        (∀ e ∈ es.take n.toNat, hasTag tags e) ∨ ∀ e ∈ es.drop n.toNat, ¬hasTag tags e
      else ∀ e ∈ es, ¬hasTag tags e := by
  have hnil : (es.filter (hasTag tags)).map Entry.id = [] ↔ ∀ e ∈ es, ¬hasTag tags e := by
    rw [List.map_eq_nil_iff, List.filter_eq_nil_iff]
  have htruthy : (JsNumber.finite n).truthy = true ↔ n ≠ 0 := by
    simp [JsNumber.truthy]
  rw [sqlLimit_int hn, sliceTo_int]
  rcases lt_trichotomy n 0 with hneg | rfl | hpos
  · -- SQL takes no limit, and the slice drops from the end
    rw [if_pos hneg, if_pos (htruthy.mpr hneg.ne), if_neg (by omega), if_neg (by omega), ← hnil]
    simp only [Except.map, Except.ok.injEq]
    constructor
    · intro h
      have hlength := congrArg List.length h
      rw [List.length_take] at hlength
      exact List.length_eq_zero_iff.mp (by omega)
    · intro h
      rw [h, List.take_nil]
  · -- SQL takes nothing, and the other store no limit
    rw [if_neg (by omega), if_neg (fun h => htruthy.mp h rfl), if_neg (by omega), ← hnil]
    simp only [Except.map, Except.ok.injEq]
    exact eq_comm
  · rw [if_neg (by omega), if_pos (htruthy.mpr hpos.ne'), if_pos hpos.le, if_pos hpos,
      ← map_filter_take_eq_iff Entry.id, List.map_take]
    simp only [Except.map, Except.ok.injEq]

/-- Both stores list the same ids exactly where the limit fits. -/
theorem lists_agree_iff (engine : Engine Vector) (namespace_ : String) (history : List Write)
    (options : SearchOptions) :
    (SqlitePromptStore.list namespace_ (sqliteAfter engine namespace_ history) options).map
          (·.map Entry.id) =
        .ok ((InMemoryPromptStore.list (memoryAfter history) options).map Entry.id) ↔
      LimitFits options.limit options.tags (passed engine namespace_ history options) := by
  rw [sqlite_list_ids, memory_list_ids engine namespace_]
  unfold LimitFits taggedIds
  cases options.limit with
  | none =>
    rw [Option.getD_none, show (1000 : ℚ) = ((1000 : ℤ) : ℚ) by norm_num,
      sqlLimit_int (by decide), if_neg (by decide)]
    simp only [Except.map, Except.ok.injEq]
    exact map_filter_take_eq_all_iff Entry.id _ _ 1000
  | some limit =>
    rw [Option.getD_some]
    cases limit with
    | nan => simp [sqlLimit, Except.map]
    | infinity negative => simp [sqlLimit, Except.map]
    | finite value =>
      dsimp only
      by_cases hvalue : value.den = 1 ∧ -2 ^ 63 ≤ value.num ∧ value.num < 2 ^ 63
      · obtain ⟨n, rfl⟩ : ∃ n : ℤ, value = n :=
          ⟨value.num, ((Rat.den_eq_one_iff value).mp hvalue.1).symm⟩
        rw [and_iff_right hvalue, Rat.num_intCast]
        exact int_limit_iff hvalue.2 options.tags _
      · rw [sqlLimit, if_neg hvalue]
        exact ⟨fun h => (nomatch h), fun h => absurd h.1 hvalue⟩

/-- A prompt with a tag. -/
def prompt (id tag : String) : PromptEntry where
  id
  title := id
  group := "style"
  body := ""
  sensitivity := .internal
  tags := [tag]
  rest :=
    { version := 1, validated_on := none, validated_by := none, model_preference := "any"
      languages := [], supersedes := none }
  created_at := ""
  updated_at := ""

/-- All texts at one point. -/
def unitEngine : Engine Unit where
  embed _ _ := ()
  embedQuery _ _ := ()
  distance _ _ := 0
  rowCount _ := 10
  tokenize text := [text]

/-- The limit of one takes the draft, which the tag then drops. -/
theorem lists_differ :
    ¬ ∀ (engine : Engine Unit) (namespace_ : String) (history : List Write)
      (options : SearchOptions),
      (SqlitePromptStore.list namespace_ (sqliteAfter engine namespace_ history) options).map
          (·.map Entry.id) =
        .ok ((InMemoryPromptStore.list (memoryAfter history) options).map Entry.id) := by
  intro hagree
  have hbad := hagree unitEngine "firm"
    [.put (prompt "p1" "draft") "t0" "t0", .put (prompt "p2" "final") "t1" "t1"]
    { tags := some ["final"], limit := some (.finite 1) }
  revert hbad
  decide +kernel

end Agreement
end FirmMemory
end Batiste
