import Batiste.AuditedHandler
import Batiste.ExecutorLineage

/-! The executor's lineage in the deployment's audit ledger: `parallel-bridge.ts`.
The ledger outlives the process; what its rows say of a run is all that is left of it. -/
namespace Batiste
namespace ParallelBridge

open Audit Executor Transition

/-- What the lineage recorder and the bridge add to an entry: clock readings and a drawn uuid. -/
structure Reading where
  uuid : String
  startedAt : String
  durationMs : ℚ

/-- `AtriumExecutorOptions` with a ledger, the readings, and what each append throws, if it does. -/
structure Bridge where
  sessionId : String
  agentId : String
  reading : ℕ → Reading
  fails : ℕ → Option String

def phaseText : LineagePhase → String
  | .start => "start"
  | .ended => "end"

def resultText : LineageResult → String
  | .success => "success"
  | .error => "error"

variable (bridge : Bridge)

def lineageToAuditEntry (n : ℕ) (entry : LineageEntry) : AuditEntry where
  id := (bridge.reading n).uuid
  timestamp := (bridge.reading n).startedAt
  sessionId := bridge.sessionId
  agentId := bridge.agentId
  tool := "parallel.op"
  args :=
    [("name", .string entry.name), ("phase", .string (phaseText entry.phase))] ++
      (entry.tag.map fun tag => ("tag", Json.string tag)).toList ++
      (if entry.phase = .ended then [("durationMs", .number (bridge.reading n).durationMs)]
        else []) ++
      (entry.result.map fun result => ("result", Json.string (resultText result))).toList ++
      (entry.error.map fun message =>
        ("error", Json.object [("message", .string message)])).toList
  result := if entry.phase = .ended ∧ entry.result = some .error then .error else .success
  durationMs := if entry.phase = .ended then (bridge.reading n).durationMs else 0

/-- The sink of `buildAtriumExecutor`: what the append throws is swallowed. -/
def onLineage (ledger : Ledger) (n : ℕ) (entry : LineageEntry) : Ledger :=
  match append (bridge.fails n) n (lineageToAuditEntry bridge n entry) ledger with
  | .ok ledger => ledger
  | .error _ => ledger

/-- The recorder calls the sink for each entry as it records it. -/
def ledgerOf (lineage : List Executor.Entry) : Ledger :=
  lineage.zipIdx.foldl (fun ledger e => onLineage bridge ledger e.2 e.1.2) []

/-! ## Reading the ledger -/

def field (key value : String) (row : AuditEntry) : Bool :=
  Dict.get? row.args key == some (.string value)

def started (row : AuditEntry) : Bool := field "phase" "start" row

def succeeded (row : AuditEntry) : Bool := field "phase" "end" row && field "result" "success" row

def failed (row : AuditEntry) : Bool := field "phase" "end" row && decide (row.result = .error)

def nameOf (row : AuditEntry) : String :=
  match Dict.get? row.args "name" with
  | some (.string name) => name
  | _ => ""

section Rows

variable {bridge} (n : ℕ) (entry : LineageEntry)

@[simp] theorem nameOf_row : nameOf (lineageToAuditEntry bridge n entry) = entry.name := rfl

theorem started_row :
    started (lineageToAuditEntry bridge n entry) = decide (entry.phase = .start) := by
  obtain ⟨name, phase, result, error, tag⟩ := entry
  cases phase <;> rfl

theorem get?_result : Dict.get? (lineageToAuditEntry bridge n entry).args "result" =
    entry.result.map fun result => Json.string (resultText result) := by
  obtain ⟨name, phase, result, error, tag⟩ := entry
  cases phase <;> cases result <;> cases error <;> cases tag <;> rfl

theorem succeeded_row : succeeded (lineageToAuditEntry bridge n entry) =
    (decide (entry.phase = .ended) && decide (entry.result = some .success)) := by
  unfold succeeded field
  rw [get?_result]
  obtain ⟨name, phase, result, error, tag⟩ := entry
  rcases result with _ | _ | _ <;> cases phase <;> rfl

theorem failed_row : failed (lineageToAuditEntry bridge n entry) =
    (decide (entry.phase = .ended) && decide (entry.result = some .error)) := by
  obtain ⟨name, phase, result, error, tag⟩ := entry
  rcases result with _ | _ | _ <;> cases phase <;> rfl

end Rows

def names (kind : AuditEntry → Bool) (rows : List AuditEntry) : List String :=
  (rows.filter kind).map nameOf

/-- A start with no end to it. -/
structure Unmatched (rows : List AuditEntry) (name : String) : Prop where
  begun : name ∈ names started rows
  unsucceeded : name ∉ names succeeded rows
  unfailed : name ∉ names failed rows

/-! ## The rows of a lineage -/

def rows (lineage : List Executor.Entry) : List AuditEntry := (ledgerOf bridge lineage).map Prod.snd

/-- The bridge on a day on which no append fails. -/
def Bridge.steady : Bridge := { bridge with fails := fun _ => none }

section Lineage

variable {bridge} {lineage : List Executor.Entry}

theorem foldl_onLineage (ledger : Ledger) (entries : List (Executor.Entry × ℕ)) :
    entries.foldl (fun ledger e => onLineage bridge ledger e.2 e.1.2) ledger =
      ledger ++ (entries.filter fun e => (bridge.fails e.2).isNone).map
        fun e => (e.2, lineageToAuditEntry bridge e.2 e.1.2) := by
  induction entries generalizing ledger with
  | nil => simp
  | cons e entries ih =>
    rw [List.foldl_cons, ih]
    cases hfails : bridge.fails e.2 with
    | none => simp [onLineage, append, hfails]
    | some message => simp [onLineage, append, hfails]

/-- Appends that fail take rows away, and change none. -/
theorem rows_sublist (bridge : Bridge) (lineage : List Executor.Entry) :
    (rows bridge lineage).Sublist (rows bridge.steady lineage) := by
  unfold rows ledgerOf
  rw [foldl_onLineage, foldl_onLineage]
  refine List.Sublist.map _ (List.Sublist.map _ (List.monotone_filter_right _ ?_))
  exact fun _ _ => rfl

theorem rows_steady : rows bridge.steady lineage =
    lineage.zipIdx.map fun e => lineageToAuditEntry bridge e.2 e.1.2 := by
  have hall : (lineage.zipIdx.filter fun e => (bridge.steady.fails e.2).isNone) =
      lineage.zipIdx := List.filter_eq_self.mpr fun _ _ => rfl
  unfold rows ledgerOf
  rw [foldl_onLineage, hall, List.nil_append, List.map_map]
  rfl

/-- The names on the rows of a kind are those of the entries of that kind. -/
theorem names_of_kind {kind : AuditEntry → Bool} {shows : LineageEntry → Bool}
    (h : ∀ n entry, kind (lineageToAuditEntry bridge n entry) = shows entry) :
    names kind (rows bridge.steady lineage) =
      (lineage.filter fun e => shows e.2).map fun e => e.2.name := by
  have hfst : lineage = lineage.zipIdx.map Prod.fst := (List.zipIdx_map_fst 0 lineage).symm
  conv_rhs => rw [hfst]
  rw [names, rows_steady, List.filter_map, List.filter_map, List.map_map, List.map_map]
  have hkind : (kind ∘ fun e : Executor.Entry × ℕ => lineageToAuditEntry bridge e.2 e.1.2) =
      (fun e : Executor.Entry => shows e.2) ∘ Prod.fst := funext fun e => h e.2 e.1.2
  rw [hkind]
  rfl

end Lineage

/-! ## Accounts of a run -/

section Run

variable {V : Type} {cfg : Config V} {s : Executor.State V}

def opName (plan : Plan V) (id : ℕ) : String := ((plan.op? id).map Operation.name).getD ""

theorem name_of_justified {entries : List Executor.Entry} {e : Executor.Entry}
    (h : Justified cfg entries e) : e.2.name = opName cfg.plan e.1 := by
  cases h with
  | start hop => simp [opName, hop, LineageEntry.start]
  | success hop => simp [opName, hop, LineageEntry.finish]
  | failure hop => simp [opName, hop, LineageEntry.finish]
  | skip hop => simp [opName, hop, LineageEntry.skip]

theorem names_of_recorded (h : Recorded cfg s) (kind : Executor.Entry → Bool) :
    (s.lineage.filter kind).map (fun e => e.2.name) =
      ((s.lineage.filter kind).map Prod.fst).map (opName cfg.plan) := by
  rw [List.map_map]
  refine List.map_congr_left fun e he => ?_
  obtain ⟨pre, post, hsplit⟩ := List.append_of_mem (List.mem_filter.mp he).1
  exact name_of_justified (h.told pre e post hsplit)

theorem count_filter_fst (kind : Executor.Entry → Bool) (id : ℕ) (lineage : List Executor.Entry) :
    ((lineage.filter kind).map Prod.fst).count id =
      lineage.countP fun e => decide (e.1 = id) && kind e := by
  rw [List.count_eq_countP, List.countP_map, List.countP_filter]
  refine List.countP_congr fun e _ => ?_
  simp

theorem started_perm (h : Log s) :
    ((s.lineage.filter fun e => decide (e.2.phase = .start)).map Prod.fst).Perm s.called := by
  rw [List.perm_iff_count]
  intro id
  rw [count_filter_fst]
  exact h.starts id

/-- The ends of an operation with a result, where that result says that the operation is `P`. -/
theorem countP_result (id : ℕ) (result : LineageResult) (P : Prop) [Decidable P]
    (hresult : ∀ e ∈ s.lineage, e.1 = id → e.2.phase = .ended →
      (e.2.result = some result ↔ P))
    (hone : P → s.lineage.countP (isEnd id) = 1) :
    (s.lineage.countP fun e => decide (e.1 = id) &&
      (decide (e.2.phase = .ended) && decide (e.2.result = some result))) = (decide P).toNat := by
  by_cases hP : P
  · rw [decide_eq_true hP, Bool.toNat_true, ← hone hP]
    refine List.countP_congr fun e he => ?_
    rw [isEnd, ← Bool.and_assoc, Bool.and_eq_true, Bool.and_eq_true, decide_eq_true_eq,
      decide_eq_true_eq, decide_eq_true_eq]
    refine and_iff_left_of_imp fun hend => ?_
    exact (hresult e he hend.1 hend.2).mpr hP
  · rw [decide_eq_false hP, Bool.toNat_false, List.countP_eq_zero]
    intro e he hall
    simp only [Bool.and_eq_true, decide_eq_true_eq] at hall
    exact hP ((hresult e he hall.1 hall.2.1).mp hall.2.2)

theorem succeeded_perm {ready : List ℕ} (h : Recorded cfg s) (hinv : Inv cfg [] ready s) :
    ((s.lineage.filter fun e => decide (e.2.phase = .ended) &&
      decide (e.2.result = some .success)).map Prod.fst).Perm (cfg.plan.ids.filter s.done) := by
  rw [List.perm_iff_count]
  intro id
  have hone : s.done id = true → s.lineage.countP (isEnd id) = 1 := fun hdone => by
    simp [hinv.log.ends id, hdone]
  rw [count_filter_fst, countP_result id .success (s.done id = true) (fun e he hid hended => ?_) hone]
  · rw [Bool.decide_eq_true]
    cases hdone : s.done id with
    | true =>
      have hid : id ∈ cfg.plan.ids := hinv.core.called_mem_ids (hinv.core.done_called hdone)
      have hnodup : (cfg.plan.ids.filter s.done).Nodup := cfg.plan.ids_nodup.filter _
      exact (List.count_eq_one_of_mem hnodup (List.mem_filter.mpr ⟨hid, hdone⟩)).symm
    | false =>
      refine (List.count_eq_zero_of_not_mem fun hmem => ?_).symm
      simp [(List.mem_filter.mp hmem).2] at hdone
  · subst hid
    rcases h.outcomes e he hended with ⟨hresult, hdone⟩ | ⟨hresult, hfailed⟩
    · simp [hresult, hdone]
    · have hopen : s.done e.1 = false := by
        by_contra hdone
        exact hinv.core.done_notMem_failed (by simpa using hdone) hfailed
      simp [hresult, hopen]

theorem failed_perm {ready : List ℕ} (h : Recorded cfg s) (hinv : Inv cfg [] ready s) :
    ((s.lineage.filter fun e => decide (e.2.phase = .ended) &&
      decide (e.2.result = some .error)).map Prod.fst).Perm s.failed := by
  rw [List.perm_iff_count]
  intro id
  have hone : id ∈ s.failed → s.lineage.countP (isEnd id) = 1 := fun hfailed => by
    simp [hinv.log.ends id, hfailed]
  rw [count_filter_fst, countP_result id .error (id ∈ s.failed) (fun e he hid hended => ?_) hone]
  · by_cases hfailed : id ∈ s.failed
    · rw [List.count_eq_one_of_mem hinv.core.failed_nodup hfailed, decide_eq_true hfailed]
      rfl
    · rw [List.count_eq_zero_of_not_mem hfailed, decide_eq_false hfailed]
      rfl
  · subst hid
    rcases h.outcomes e he hended with ⟨hresult, hdone⟩ | ⟨hresult, hfailed⟩
    · simp [hresult, hinv.core.done_notMem_failed hdone]
    · simp [hresult, hfailed]

/-- A call is running, done, failed, or has ended with an error without a text. -/
theorem open_iff {ready : List ℕ} (hinv : Inv cfg [] ready s) {id : ℕ} :
    (id ∈ s.called ∧ s.done id = false ∧ id ∉ s.failed) ↔
      id ∈ s.running.map Prod.fst ∨ id ∈ s.rejected := by
  constructor
  · rintro ⟨hcalled, hdone, hfailed⟩
    rcases hinv.core.called_cases id hcalled with hactive | hsome | hmem | hrejected
    · exact Or.inl (by simpa [State.active] using hactive)
    · exact absurd hsome (by simp [hdone])
    · exact absurd hmem hfailed
    · exact Or.inr hrejected
  · rintro (hrunning | hrejected)
    · obtain ⟨hcalled, hdone, hfailed, -⟩ := hinv.core.running_open hrunning
      exact ⟨hcalled, hdone, hfailed⟩
    · obtain ⟨hdone, hfailed, err, hcall, -⟩ := hinv.core.rejected_gave id hrejected
      exact ⟨hcall.called, hdone, hfailed⟩

/-- An operation whose name no other one has is named where it is listed, and nowhere else. -/
theorem mem_names_iff {op : Operation V} (hop : op ∈ cfg.plan.ops)
    (hunique : ∀ other ∈ cfg.plan.ops, other.name = op.name → other.id = op.id) {ids : List ℕ}
    (hids : ∀ id ∈ ids, id ∈ cfg.plan.ids) :
    op.name ∈ ids.map (opName cfg.plan) ↔ op.id ∈ ids := by
  have hself : cfg.plan.op? op.id = some op := Plan.op?_of_mem hop
  rw [List.mem_map]
  constructor
  · rintro ⟨id, hid, hname⟩
    obtain ⟨other, hother⟩ := Plan.mem_ids.mp (hids id hid)
    obtain ⟨hmem, rfl⟩ := Plan.op?_mem hother
    simp only [opName, hother, Option.map_some, Option.getD_some] at hname
    exact hunique other hmem hname ▸ hid
  · exact fun hid => ⟨op.id, hid, by simp [opName, hself]⟩

end Run

/-- At every moment of every run, whatever the order in which its promises settle: the rows of the
ledger name the operations that were called, that succeeded, and that failed or were skipped, each
once; and an operation of a name of its own has a start without an end exactly while its function
runs, or when it has ended with an error without a text.  Appends that fail only take rows away. -/
theorem ledger_accounts {V : Type} (host : Host) (opts : ExecutorOptions) (plan : Plan V)
    (bridge : Bridge) : ∃ cfg, configure host opts plan = .ok cfg ∧ cfg.plan = plan ∧
      ∀ s, Reachable (Executor.step cfg) (Executor.init cfg) s →
        (rows bridge s.lineage).Sublist (rows bridge.steady s.lineage) ∧
        (names started (rows bridge.steady s.lineage)).Perm (s.called.map (opName plan)) ∧
        (names succeeded (rows bridge.steady s.lineage)).Perm
          ((plan.ids.filter s.done).map (opName plan)) ∧
        (names failed (rows bridge.steady s.lineage)).Perm (s.failed.map (opName plan)) ∧
        ∀ op ∈ plan.ops, (∀ other ∈ plan.ops, other.name = op.name → other.id = op.id) →
          (Unmatched (rows bridge.steady s.lineage) op.name ↔
            op.id ∈ s.running.map Prod.fst ∨ op.id ∈ s.rejected) := by
  obtain ⟨cfg, hcfg, rfl, hv⟩ := configure_valid host opts plan
  refine ⟨cfg, hcfg, rfl, fun s hs => ?_⟩
  obtain ⟨hgood, hrec⟩ := reachable_recorded hv hs
  have hinv := hgood.round.inv
  have hstarted : (names started (rows bridge.steady s.lineage)).Perm
      (s.called.map (opName cfg.plan)) := by
    rw [names_of_kind started_row, names_of_recorded hrec]
    exact (started_perm hinv.log).map _
  have hsucceeded : (names succeeded (rows bridge.steady s.lineage)).Perm
      ((cfg.plan.ids.filter s.done).map (opName cfg.plan)) := by
    rw [names_of_kind succeeded_row, names_of_recorded hrec]
    exact (succeeded_perm hrec hinv).map _
  have hfailed : (names failed (rows bridge.steady s.lineage)).Perm
      (s.failed.map (opName cfg.plan)) := by
    rw [names_of_kind failed_row, names_of_recorded hrec]
    exact (failed_perm hrec hinv).map _
  refine ⟨rows_sublist bridge s.lineage, hstarted, hsucceeded, hfailed, fun op hop hunique => ?_⟩
  have hbegun := hstarted.mem_iff.trans
    (mem_names_iff hop hunique fun id hid => hinv.core.called_mem_ids hid)
  have hdone := hsucceeded.mem_iff.trans
    (mem_names_iff hop hunique fun id hid => (List.mem_filter.mp hid).1)
  have hfail := hfailed.mem_iff.trans
    (mem_names_iff hop hunique fun id hid => (hinv.core.failed_cause id hid).1)
  have hopid : op.id ∈ cfg.plan.ids := List.mem_map_of_mem hop
  rw [← open_iff hinv]
  constructor
  · rintro ⟨hyes, hno, hnot⟩
    refine ⟨hbegun.mp hyes, ?_, fun hmem => hnot (hfail.mpr hmem)⟩
    by_contra hsome
    exact hno (hdone.mpr (List.mem_filter.mpr ⟨hopid, by simpa using hsome⟩))
  · rintro ⟨hcalled, hopen, hnot⟩
    refine ⟨hbegun.mpr hcalled, fun hmem => ?_, fun hmem => hnot (hfail.mp hmem)⟩
    simp [(List.mem_filter.mp (hdone.mp hmem)).2] at hopen

end ParallelBridge
end Batiste
