import Batiste.ExecutorRun

/-! The contract of `Executor.run`, and exactly which plans it holds for.
The executor computes the meaning of the plan; the contract fails where a reached operation
fails with a value that `String` cannot convert. -/
namespace Batiste
namespace Executor

open Transition

variable {V : Type} {cfg : Config V}

/-- A call of `fn` has one outcome. -/
theorem CallGave.unique {s : State V} {id : ℕ} {out out' : FnCall V} (hnd : s.called.Nodup)
    (h : s.CallGave cfg id out) (h' : s.CallGave cfg id out') : out = out' := by
  obtain ⟨op, ctx, hop, hmem, rfl⟩ := h
  obtain ⟨op', ctx', hop', hmem', rfl⟩ := h'
  have hpair := List.inj_on_of_nodup_map hnd hmem hmem' rfl
  rw [hop] at hop'
  cases hop'
  cases hpair
  rfl

theorem CallFailed.not_resolved {s : State V} {id : ℕ} {err : Thrown} {v : V}
    (hnd : s.called.Nodup) (h : s.CallFailed cfg id err)
    (h' : s.CallGave cfg id (.returns (.resolve v))) : False := by
  rcases h with h | h
  · cases CallGave.unique hnd h h'
  · cases CallGave.unique hnd h h'

section Meaning

variable {limbo ready : List ℕ} {s : State V}

theorem results_value (h : Core cfg limbo ready s) :
    ∀ id ∈ cfg.plan.ids, ∀ v, s.results id = some v → cfg.plan.Value id v := by
  apply cfg.plan.dag.induction (P := fun id => ∀ v, s.results id = some v → cfg.plan.Value id v)
  intro id hid ih v hval
  obtain ⟨op, ctx, hop, hmem, hfn⟩ := (h.results_gave id v hval).1
  obtain ⟨-, hctx, hdeps⟩ := h.calls_ctx _ hmem
  obtain ⟨-, rfl⟩ := Plan.op?_mem hop
  simp only [Plan.depIds_of_op? hop] at hctx hdeps ih
  obtain rfl : ctx = ⟨op.depIds.map s.results⟩ := congrArg OperationContext.mk hctx
  exact .call s.results op v hop hdeps ih hfn

/-- A called operation is reached with the context it was called with. -/
theorem call_reached (h : Core cfg limbo ready s) {op : Operation V} {ctx : OperationContext V}
    (hop : cfg.plan.op? op.id = some op) (hmem : (op.id, ctx) ∈ s.calls) :
    cfg.plan.Reached op ctx := by
  obtain ⟨-, hctx, hdeps⟩ := h.calls_ctx _ hmem
  simp only [Plan.depIds_of_op? hop] at hctx hdeps
  refine ⟨hop, s.results, congrArg OperationContext.mk hctx, hdeps, fun d hd => ?_⟩
  have hid : d ∈ cfg.plan.ids := by
    have hdep : d ∈ cfg.plan.depIds op.id := by rwa [Plan.depIds_of_op? hop]
    exact (Plan.dep_lt hdep).2
  exact results_value h d hid

theorem callFailed_raises (h : Core cfg limbo ready s) {id : ℕ} {err : Thrown}
    (hcall : s.CallFailed cfg id err) : cfg.plan.Raises id err := by
  rcases hcall with ⟨op, ctx, hop, hmem, hfn⟩ | ⟨op, ctx, hop, hmem, hfn⟩
  · obtain ⟨-, rfl⟩ := Plan.op?_mem hop
    exact ⟨op, ctx, call_reached h hop hmem, rfl, Or.inl hfn⟩
  · obtain ⟨-, rfl⟩ := Plan.op?_mem hop
    exact ⟨op, ctx, call_reached h hop hmem, rfl, Or.inr hfn⟩

/-- What failed or was skipped has no value. -/
theorem failed_no_value (h : Core cfg limbo ready s) {id : ℕ} {v : V}
    (hv : cfg.plan.Value id v) : id ∉ s.failed := by
  induction hv with
  | call env op v hop hsome henv hfn ih =>
    intro hfail
    have hreached : cfg.plan.Reached op ⟨op.depIds.map env⟩ := ⟨hop, env, rfl, hsome, henv⟩
    rcases (h.failed_cause op.id hfail).2 with ⟨err, -, hcall, -⟩ | ⟨-, d, hd, hdf⟩
    · obtain ⟨op', ctx, hreached', hid, hfn'⟩ := callFailed_raises h hcall
      obtain ⟨rfl, rfl⟩ := hreached'.unique hreached hid
      rw [hfn] at hfn'
      simp at hfn'
    · rw [Plan.depIds_of_op? hop] at hd
      obtain ⟨w, hw⟩ := Option.isSome_iff_exists.mp (hsome d hd)
      exact ih d hd w hw hdf

/-- An operation that is reached and fails without a message is never settled. -/
theorem unprintable_open (h : Core cfg limbo ready s) {id : ℕ} {err : Thrown}
    (hraise : cfg.plan.Raises id err) (hmsg : err.message? = none) :
    s.done id = false ∧ id ∉ s.failed := by
  obtain ⟨op, ctx, hreached, rfl, hfn⟩ := hraise
  have hid : op.id ∈ cfg.plan.ids := Plan.mem_ids.mpr ⟨op, hreached.1⟩
  constructor
  · cases hval : s.results op.id with
    | none => simp [State.done, hval]
    | some v =>
      obtain ⟨op', ctx', hreached', heq, hfn'⟩ := (results_value h op.id hid v hval).reached
      obtain ⟨rfl, rfl⟩ := hreached'.unique hreached heq
      rw [hfn'] at hfn
      simp at hfn
  · intro hfail
    rcases (h.failed_cause op.id hfail).2 with ⟨err', message, hcall, hmsg'⟩ | ⟨-, d, hd, hdf⟩
    · obtain ⟨op', ctx', hreached', heq, hfn'⟩ := callFailed_raises h hcall
      obtain ⟨rfl, rfl⟩ := hreached'.unique hreached heq
      have herr : err = err' := by
        rcases hfn with hfn | hfn <;> rw [hfn] at hfn' <;> simpa using hfn'
      rw [← herr, hmsg] at hmsg'
      cases hmsg'
    · obtain ⟨hop, env, rfl, hsome, henv⟩ := hreached
      rw [Plan.depIds_of_op? hop] at hd
      obtain ⟨w, hw⟩ := Option.isSome_iff_exists.mp (hsome d hd)
      exact failed_no_value h (henv d hd w hw) hdf

end Meaning

/-- A done operation's transitive dependencies are done. -/
theorem done_transitive {limbo ready : List ℕ} {s : State V} (h : Core cfg limbo ready s)
    {id d : ℕ} (hdep : Relation.TransGen (fun i d => d ∈ cfg.plan.depIds i) id d)
    (hdone : s.done id = true) : s.done d = true := by
  have hstep : ∀ i d, s.done i = true → d ∈ cfg.plan.depIds i → s.done d = true := by
    intro i d hi hd
    obtain ⟨c, hmem, rfl⟩ := List.mem_map.mp (h.done_called hi)
    exact (h.calls_ctx c hmem).2.2 d hd
  induction hdep with
  | single hd => exact hstep _ _ hdone hd
  | tail _ hd ih => exact hstep _ _ ih hd

/-- What a caller of `run` relies on, for every order in which the promises settle. -/
structure RunContract (cfg : Config V) : Prop where
  terminates : ∃ n, ∀ as t, run (step cfg) (init cfg) as = some t → as.length ≤ n
  returns : ∀ t, Reachable (step cfg) (init cfg) t → Stuck (step cfg) t → t.control = .returned
  called_once : ∀ t, Reachable (step cfg) (init cfg) t → t.called.Nodup
  call_deps : ∀ s a t, Reachable (step cfg) (init cfg) s → step cfg s a = some t →
    ∀ c ∈ t.calls, c ∉ s.calls → (∀ d ∈ cfg.plan.depIds c.1, (s.results d).isSome) ∧
      c.2.deps = (cfg.plan.depIds c.1).map s.results
  in_results : ∀ t, Reachable (step cfg) (init cfg) t → t.control = .returned →
    ∀ id ∈ cfg.plan.ids, (t.results id).isSome ↔
      (∃ v, t.CallGave cfg id (.returns (.resolve v))) ∧
        ∀ d, Relation.TransGen (fun i d => d ∈ cfg.plan.depIds i) id d → (t.results d).isSome
  result_value : ∀ t, Reachable (step cfg) (init cfg) t → ∀ id v, t.results id = some v →
    t.CallGave cfg id (.returns (.resolve v))
  otherwise : ∀ t, Reachable (step cfg) (init cfg) t → t.control = .returned →
    ∀ id ∈ cfg.plan.ids, t.results id = none →
      (∃ err, t.CallFailed cfg id err) ∨ (id ∉ t.called ∧ ∃ d ∈ cfg.plan.depIds id, d ∈ t.failed)
  one_end : ∀ t, Reachable (step cfg) (init cfg) t → t.control = .returned →
    ∀ id ∈ cfg.plan.ids, t.lineage.countP (isEnd id) = 1
  starts : ∀ t, Reachable (step cfg) (init cfg) t → t.control = .returned →
    ∀ id ∈ cfg.plan.ids, t.lineage.countP (isStart id) = if id ∈ t.called then 1 else 0

/-- Nothing is rejected where every error has a message. -/
theorem rejected_eq_nil (hp : cfg.plan.Printable) {limbo ready : List ℕ} {s : State V}
    (h : Core cfg limbo ready s) : s.rejected = [] := by
  refine List.eq_nil_iff_forall_not_mem.mpr fun id hid => ?_
  obtain ⟨-, -, err, hcall, hmsg⟩ := h.rejected_gave id hid
  exact hp id err (callFailed_raises h hcall) hmsg

theorem contract_of_printable (hv : cfg.Valid) (hp : cfg.plan.Printable) : RunContract cfg := by
  have hclosed : ∀ t, Reachable (step cfg) (init cfg) t → t.control = .returned →
      ∀ id ∈ cfg.plan.ids, t.done id = true ∨ id ∈ t.failed := by
    intro t ht hret
    have hgood := reachable_good hv ht
    have hphase := hgood.phase
    simp only [Phase, hret] at hphase
    exact (pendingCount_eq_zero hgood.round.inv.counters).mp
      (hphase (rejected_eq_nil hp hgood.round.inv.core))
  constructor
  case terminates => exact ⟨_, fun as t ht => run_bounded hv ht⟩
  case returns =>
    intro t ht hstuck
    have hgood := reachable_good hv ht
    exact stuck_returned hgood hstuck (rejected_eq_nil hp hgood.round.inv.core)
  case called_once => exact fun t ht => (reachable_good hv ht).round.inv.core.calls_nodup
  case call_deps =>
    intro s a t hs ha c hc hnew
    have hgood := reachable_good hv hs
    rcases step_calls hv hgood ha with hcalls | hresults
    · exact absurd (hcalls ▸ hc) hnew
    · obtain ⟨-, hctx, hdeps⟩ := (step_good hv hgood ha).1.round.inv.core.calls_ctx c hc
      simp only [State.done, hresults] at hctx hdeps
      exact ⟨hdeps, hctx⟩
  case in_results =>
    intro t ht hret id hid
    have hcore := (reachable_good hv ht).round.inv.core
    constructor
    · intro hdone
      obtain ⟨v, hval⟩ := Option.isSome_iff_exists.mp hdone
      exact ⟨⟨v, (hcore.results_gave id v hval).1⟩, fun d hd => done_transitive hcore hd hdone⟩
    · rintro ⟨⟨v, hcall⟩, -⟩
      refine (hclosed t ht hret id hid).resolve_right fun hfail => ?_
      rcases (hcore.failed_cause id hfail).2 with ⟨err, -, hfailed, -⟩ | ⟨hun, -⟩
      · exact CallFailed.not_resolved hcore.calls_nodup hfailed hcall
      · exact hun hcall.called
  case result_value =>
    exact fun t ht id v hval => ((reachable_good hv ht).round.inv.core.results_gave id v hval).1
  case otherwise =>
    intro t ht hret id hid hnone
    have hcore := (reachable_good hv ht).round.inv.core
    have hfail : id ∈ t.failed := by
      refine (hclosed t ht hret id hid).resolve_left ?_
      simp [State.done, hnone]
    refine (hcore.failed_cause id hfail).2.imp_left ?_
    rintro ⟨err, -, hcall, -⟩
    exact ⟨err, hcall⟩
  case one_end =>
    intro t ht hret id hid
    rw [(reachable_good hv ht).round.inv.log.ends id]
    rcases hclosed t ht hret id hid with hdone | hfail
    · simp [hdone]
    · simp [hfail]
  case starts =>
    intro t ht hret id hid
    have hgood := reachable_good hv ht
    rw [hgood.round.inv.log.starts id]
    split_ifs with hc
    · exact List.count_eq_one_of_mem hgood.round.inv.core.calls_nodup hc
    · exact List.count_eq_zero_of_not_mem hc

theorem printable_of_contract (hv : cfg.Valid) (h : RunContract cfg) : cfg.plan.Printable := by
  intro id err hraise hmsg
  obtain ⟨n, hbound⟩ := h.terminates
  obtain ⟨as, t, ht, hstuck⟩ := exists_stuck hbound
  have hreach : Reachable (step cfg) (init cfg) t := ⟨as, ht⟩
  have hgood := reachable_good hv hreach
  have hid : id ∈ cfg.plan.ids := by
    obtain ⟨op, ctx, hreached, rfl, -⟩ := hraise
    exact Plan.mem_ids.mpr ⟨op, hreached.1⟩
  have hone := h.one_end t hreach (h.returns t hreach hstuck) id hid
  obtain ⟨hopen, hfail⟩ := unprintable_open hgood.round.inv.core hraise hmsg
  rw [hgood.round.inv.log.ends id] at hone
  simp [hopen, hfail] at hone

/-- The contract holds of a plan's runs, whatever the options and the machine, if and only if
every error a reached operation fails with has a message. -/
theorem run_contract_iff (host : Host) (opts : ExecutorOptions) (plan : Plan V) :
    (∃ cfg, configure host opts plan = .ok cfg ∧ RunContract cfg) ↔ plan.Printable := by
  obtain ⟨cfg, hcfg, rfl, hv⟩ := configure_valid host opts plan
  constructor
  · rintro ⟨cfg', hcfg', hcontract⟩
    rw [hcfg] at hcfg'
    cases hcfg'
    exact printable_of_contract hv hcontract
  · exact fun hp => ⟨cfg, hcfg, contract_of_printable hv hp⟩

/-- One operation, whose promise rejects with a value that `String` cannot convert. -/
def hangingPlan : Plan Unit where
  ops := [⟨0, "op", [], fun _ => .returns (.reject .unprintable), none⟩]
  sorted := by simp
  issued := by simp [Operation.depIds]

def hangingConfig : Config Unit := ⟨hangingPlan, [0], 2, fun _ => none⟩

/-- The promise rejects, the scheduler wakes up, finds the rejected promise still in flight and
waits for a wake-up that never comes. -/
theorem run_hangs : configure ⟨some 4, none⟩ {} hangingPlan = .ok hangingConfig ∧
    ∃ t, run (step hangingConfig) (init hangingConfig)
        [.iterate, .iterate, .settle 0, .resume, .iterate, .reap 0] = some t ∧
      Stuck (step hangingConfig) t ∧ t.control ≠ .returned ∧ t.results 0 = none ∧
      t.failed = [] ∧ t.lineage.countP (isEnd 0) = 0 := by
  refine ⟨rfl, _, rfl, ?_, by decide, rfl, rfl, rfl⟩
  intro a
  cases a <;> rfl

end Executor
end Batiste
