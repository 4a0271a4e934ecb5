import Batiste.MemoryLists
import Batiste.Redaction

/-! The three readers of the audit ledger, `AuditLedger.query`, `tokenTotals` and `count`, over the
rows of `audit_log`. -/
namespace Batiste
namespace AuditLedger

open Audit
open FirmMemory (sqlLimit sqlLimit_int)
open Redaction (Entry Row)

/-! ## The readers -/

structure LedgerQuery where
  sessionId : Option String := none
  agentId : Option String := none
  tool : Option String := none
  result : Option AuditResult := none
  since : Option String := none
  limit : Option JsNumber := none

structure TokenTotals where
  inferences : ℕ
  inputTokens : ℕ
  outputTokens : ℕ
  cachedTokens : ℕ
  deriving DecidableEq, Repr

/-- `if (value) conditions.push('column = ?')`: the empty text is no condition. -/
def equals (value : Option String) (column : String) : Bool :=
  (value.filter (· ≠ "")).all fun text => decide (column = text)

/-- `if (q.since) conditions.push('timestamp >= ?')` -/
def notBefore (since : Option String) (timestamp : String) : Bool :=
  (since.filter (· ≠ "")).all fun text => decide (text ≤ timestamp)

/-- The conditions that `query` and `tokenTotals` push. -/
def LedgerQuery.conditions (q : LedgerQuery) (row : Row) : Bool :=
  equals q.sessionId row.session_id && equals q.agentId row.agent_id && equals q.tool row.tool &&
    (q.result.all fun result => decide (row.result = result)) && notBefore q.since row.timestamp

/-- The conditions that `count` pushes. -/
def LedgerQuery.countConditions (q : LedgerQuery) (row : Row) : Bool :=
  equals q.sessionId row.session_id && equals q.agentId row.agent_id &&
    notBefore q.since row.timestamp

def rowUsage (row : Row) : Option TokenUsage := do
  let modelId ← row.model_id
  let provider ← row.provider
  let inputTokens ← row.input_tokens
  let outputTokens ← row.output_tokens
  return ⟨inputTokens, outputTokens, row.cached_tokens, modelId, provider⟩

def toEntry (row : Row) : Entry where
  id := row.id
  timestamp := row.timestamp
  sessionId := row.session_id
  agentId := row.agent_id
  tool := row.tool
  args := row.args_json
  result := row.result
  durationMs := row.duration_ms
  astNodesAccessed := row.ast_nodes_accessed
  bytesTransferred := row.bytes_transferred
  usage := rowUsage row

/-- `ORDER BY timestamp DESC`; rows of one time come in the reverse order of the index. -/
def newestFirst (rows : List Row) : List Row :=
  rows.reverse.mergeSort fun a b => decide (b.timestamp ≤ a.timestamp)

section Readers

variable (log : List Row) (q : LedgerQuery)

def query : Except String (List Entry) := do
  let limit := (q.limit.filter JsNumber.truthy).getD (.finite 1000)
  let rows ← sqlLimit limit (newestFirst (log.filter q.conditions))
  return rows.map toEntry

def tokenTotals : TokenTotals :=
  let rows := log.filter fun row => row.model_id.isSome && q.conditions row
  { inferences := rows.length
    inputTokens := (rows.filterMap Row.input_tokens).sum
    outputTokens := (rows.filterMap Row.output_tokens).sum
    cachedTokens := (rows.filterMap Row.cached_tokens).sum }

def count : ℕ := (log.filter q.countConditions).length

/-! ## What they have to agree on -/

/-- The number and the sums of some usages. -/
def totalsOf (usages : List TokenUsage) : TokenTotals where
  inferences := usages.length
  inputTokens := (usages.map TokenUsage.inputTokens).sum
  outputTokens := (usages.map TokenUsage.outputTokens).sum
  cachedTokens := (usages.map fun usage => usage.cachedTokens.getD 0).sum

/-- The entries that satisfy all the filters. -/
def matching : List Entry := (log.filter q.conditions).map toEntry

structure Agree : Prop where
  count : count log q = (matching log q).length
  query : ∀ n : ℕ, log.length ≤ n → n < 2 ^ 63 →
    ∃ entries, query log { q with limit := some (.finite n) } = .ok entries ∧
      entries.Perm (matching log q)
  totals : tokenTotals log q = totalsOf ((matching log q).filterMap Entry.usage)

end Readers

/-- A row of an inference that lacks a part of its usage. -/
def HalfPopulated (row : Row) : Prop :=
  row.model_id ≠ none ∧
    (row.provider = none ∨ row.input_tokens = none ∨ row.output_tokens = none)

/-! ## The counts -/

theorem countP_eq_iff {α : Type*} {p r : α → Bool} {xs : List α} (h : ∀ a, p a → r a) :
    xs.countP p = xs.countP r ↔ ∀ a ∈ xs, r a → p a := by
  have hboth : xs.countP p = (xs.filter r).countP p := by
    rw [List.countP_filter]
    refine List.countP_congr fun a _ => ?_
    simpa using h a
  rw [hboth, List.countP_eq_length_filter (p := r), List.countP_eq_length]
  simp only [List.mem_filter, and_imp]

theorem conditions_iff (q : LedgerQuery) (row : Row) : q.conditions row ↔
    q.countConditions row ∧ equals q.tool row.tool ∧
      ∀ result, q.result = some result → row.result = result := by
  unfold LedgerQuery.conditions LedgerQuery.countConditions
  cases q.result <;> simp <;> tauto

theorem count_eq_iff (log : List Row) (q : LedgerQuery) :
    count log q = (matching log q).length ↔ ∀ row ∈ log, q.countConditions row →
      equals q.tool row.tool ∧ ∀ result, q.result = some result → row.result = result := by
  have himp : ∀ row, q.conditions row → q.countConditions row := fun row h =>
    ((conditions_iff q row).mp h).1
  rw [count, matching, List.length_map, ← List.countP_eq_length_filter,
    ← List.countP_eq_length_filter, eq_comm, countP_eq_iff himp]
  refine forall₂_congr fun row _ => forall_congr' fun hcount => ?_
  rw [conditions_iff]
  exact and_iff_right hcount

/-! ## The usage -/

theorem rowUsage_eq_none_iff (row : Row) : rowUsage row = none ↔
    row.model_id = none ∨ row.provider = none ∨ row.input_tokens = none ∨
      row.output_tokens = none := by
  unfold rowUsage
  cases row.model_id <;> cases row.provider <;> cases row.input_tokens <;>
    cases row.output_tokens <;> simp

theorem halfPopulated_iff (row : Row) :
    HalfPopulated row ↔ row.model_id.isSome ∧ ¬ (rowUsage row).isSome := by
  rw [Option.not_isSome_iff_eq_none, rowUsage_eq_none_iff, HalfPopulated, ← Option.isSome_iff_ne_none]
  refine and_congr_right fun hmodel => ?_
  rw [or_iff_right (Option.isSome_iff_ne_none.mp hmodel)]

/-- Where nothing is half populated, the columns hold what the usage does. -/
theorem columns_eq {row : Row} (h : ¬ HalfPopulated row) :
    (if row.model_id.isSome then row.input_tokens else none) =
        (rowUsage row).map TokenUsage.inputTokens ∧
      (if row.model_id.isSome then row.output_tokens else none) =
        (rowUsage row).map TokenUsage.outputTokens ∧
      (if row.model_id.isSome then row.cached_tokens else none) =
        (rowUsage row).bind TokenUsage.cachedTokens := by
  unfold HalfPopulated at h
  unfold rowUsage
  cases hmodel : row.model_id <;> cases hprovider : row.provider <;>
    cases hinput : row.input_tokens <;> cases houtput : row.output_tokens <;>
    simp_all

theorem sum_cached (usages : List TokenUsage) : (usages.filterMap TokenUsage.cachedTokens).sum =
    (usages.map fun usage => usage.cachedTokens.getD 0).sum := by
  induction usages with
  | nil => rfl
  | cons usage usages ih =>
    cases hcached : usage.cachedTokens with
    | none => simp [hcached, ih]
    | some tokens => simp [hcached, ih]

theorem rowUsage_isSome {row : Row} (h : (rowUsage row).isSome) : row.model_id.isSome := by
  by_contra hmodel
  have hnone := (rowUsage_eq_none_iff row).mpr (.inl (Option.not_isSome_iff_eq_none.mp hmodel))
  simp [hnone] at h

theorem length_usage_iff (rows : List Row) :
    (rows.filter fun row => row.model_id.isSome).length = (rows.filterMap rowUsage).length ↔
      ∀ row ∈ rows, ¬ HalfPopulated row := by
  rw [← List.countP_eq_length_filter, List.length_filterMap_eq_countP, eq_comm,
    countP_eq_iff fun _ => rowUsage_isSome]
  refine forall₂_congr fun row _ => ?_
  rw [halfPopulated_iff, not_and_not_right]

/-- The totals are those of the usage that the entries carry, where none of the rows that satisfy
the filters is half populated and only there. -/
theorem tokenTotals_eq_iff (log : List Row) (q : LedgerQuery) :
    tokenTotals log q = totalsOf ((matching log q).filterMap Entry.usage) ↔
      ∀ row ∈ log, q.conditions row → ¬ HalfPopulated row := by
  have husage : (matching log q).filterMap Entry.usage =
      (log.filter q.conditions).filterMap rowUsage := List.filterMap_map ..
  have hmeasured : (log.filter fun row => row.model_id.isSome && q.conditions row) =
      (log.filter q.conditions).filter fun row => row.model_id.isSome := List.filter_filter.symm
  rw [husage, tokenTotals, totalsOf, hmeasured]
  generalize hrows : log.filter q.conditions = rows
  have hiff : (∀ row ∈ log, q.conditions row → ¬ HalfPopulated row) ↔
      ∀ row ∈ rows, ¬ HalfPopulated row := by
    simp only [← hrows, List.mem_filter, and_imp]
  rw [hiff]
  constructor
  · intro htotals
    exact (length_usage_iff rows).mp (congrArg TokenTotals.inferences htotals)
  · intro hfull
    have hinput := List.filterMap_congr fun row hrow => (columns_eq (hfull row hrow)).1
    have houtput := List.filterMap_congr fun row hrow => (columns_eq (hfull row hrow)).2.1
    have hcached := List.filterMap_congr fun row hrow => (columns_eq (hfull row hrow)).2.2
    rw [TokenTotals.mk.injEq, ← sum_cached]
    simp only [List.filterMap_filter, List.map_filterMap, List.filterMap_filterMap]
    rw [hinput, houtput, hcached]
    exact ⟨(length_usage_iff rows).mpr hfull, rfl, rfl, rfl⟩

/-! ## The entries -/

theorem newestFirst_perm (rows : List Row) : (newestFirst rows).Perm rows :=
  (List.mergeSort_perm ..).trans (List.reverse_perm rows)

theorem sqlLimit_nat {α : Type} {n : ℕ} (h : n < 2 ^ 63) (xs : List α) :
    sqlLimit (.finite n) xs = .ok (xs.take n) := by
  have hlimit := sqlLimit_int (n := n) (by omega) xs
  rwa [Int.cast_natCast, if_neg (by omega), Int.toNat_natCast] at hlimit

/-- A limit that the ledger does not exceed leaves nothing out. -/
theorem query_ok (log : List Row) (q : LedgerQuery) {n : ℕ} (hsize : log.length ≤ n)
    (hrange : n < 2 ^ 63) : ∃ entries,
      query log { q with limit := some (.finite n) } = .ok entries ∧
        entries.Perm (matching log q) := by
  have hperm := newestFirst_perm (log.filter q.conditions)
  have hlength : (newestFirst (log.filter q.conditions)).length ≤ n :=
    hperm.length_eq.trans_le ((List.length_filter_le _ _).trans hsize)
  refine ⟨(newestFirst (log.filter q.conditions)).map toEntry, ?_, hperm.map _⟩
  have hlimit : ∃ m : ℕ, m < 2 ^ 63 ∧ n ≤ m ∧
      ((some (JsNumber.finite n)).filter JsNumber.truthy).getD (.finite 1000) = .finite m := by
    rcases Nat.eq_zero_or_pos n with rfl | hpos
    · exact ⟨1000, by norm_num, by norm_num, by simp [JsNumber.truthy, Option.filter]⟩
    · have htruthy : JsNumber.truthy (.finite n) = true := by simp [JsNumber.truthy, hpos.ne']
      exact ⟨n, hrange, le_refl n, by simp [Option.filter, htruthy]⟩
  obtain ⟨m, hm, hle, hlimit⟩ := hlimit
  unfold query
  dsimp only
  rw [hlimit, sqlLimit_nat hm]
  change Except.ok (((newestFirst (log.filter q.conditions)).take m).map toEntry) = _
  rw [List.take_of_length_le (hlength.trans hle)]

/-- The three readers agree where the tool and the result that are asked for rule out no row which
the other filters let through, and where no row that satisfies all filters is half populated. -/
theorem agree_iff (log : List Row) (q : LedgerQuery) : Agree log q ↔
    (∀ row ∈ log, q.countConditions row →
      equals q.tool row.tool ∧ ∀ result, q.result = some result → row.result = result) ∧
    ∀ row ∈ log, q.conditions row → ¬ HalfPopulated row := by
  rw [← count_eq_iff, ← tokenTotals_eq_iff]
  exact ⟨fun h => ⟨h.count, h.totals⟩, fun h => ⟨h.1, fun _ => query_ok log q, h.2⟩⟩

/-- An entry is read back as it was appended. -/
theorem toEntry_row (entry : Entry) : toEntry entry.row = entry := by
  obtain ⟨id, timestamp, sessionId, agentId, tool, args, result, durationMs, nodes, bytes, usage⟩ :=
    entry
  cases usage <;> rfl

theorem row_not_halfPopulated (entry : Entry) : ¬ HalfPopulated entry.row := by
  unfold HalfPopulated Redaction.Entry.row
  cases entry.usage <;> simp

/-- In a ledger of appended entries the totals are those of what was appended. -/
theorem tokenTotals_appended (entries : List Entry) (q : LedgerQuery) :
    tokenTotals (entries.map Entry.row) q =
      totalsOf ((entries.filter fun entry => q.conditions entry.row).filterMap Entry.usage) := by
  have hmatching : matching (entries.map Entry.row) q =
      entries.filter fun entry => q.conditions entry.row := by
    simp [matching, List.filter_map, Function.comp_def, toEntry_row]
  rw [← hmatching, tokenTotals_eq_iff]
  intro row hrow _
  obtain ⟨entry, -, rfl⟩ := List.mem_map.mp hrow
  exact row_not_halfPopulated entry

/-- An entry without usage. -/
def call (id tool : String) : Entry where
  id := id
  timestamp := "2026-01-01T00:00:00.000Z"
  sessionId := "s"
  agentId := "a"
  tool := tool
  args := .object []
  result := .success
  durationMs := 1

/-- The count of the calls of one tool counts those of the others. -/
theorem count_other_tool : ∃ db,
    (Redaction.append none (call "1" "grep") ⟨[], []⟩).bind
        (Redaction.append none (call "2" "read")) = .ok db ∧
      count db.audit_log { tool := some "grep" } = 2 ∧
      (matching db.audit_log { tool := some "grep" }).length = 1 ∧
      ¬ Agree db.audit_log { tool := some "grep" } := by
  refine ⟨⟨[(call "1" "grep").row, (call "2" "read").row], []⟩, rfl, by decide, by decide, ?_⟩
  intro hagree
  exact absurd hagree.count (by decide)

end AuditLedger
end Batiste
