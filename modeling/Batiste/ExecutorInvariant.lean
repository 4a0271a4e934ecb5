import Batiste.Executor

/-! The invariant of the executor.
An operation whose `fn` was called and whose outcome is not yet recorded is active.  Between
the call of `fn` and the end of the same stretch of code, and between the settling of a
promise and the `finally` block, the operation is in limbo: active, but not `running`. -/
namespace Batiste
namespace Executor

variable {V : Type} {cfg : Config V}

/-- What `configure` guarantees. -/
structure Config.Valid (cfg : Config V) : Prop where
  perm : cfg.order.Perm cfg.plan.ids
  globalCap_pos : 0 < cfg.globalCap
  tagCap_pos : ∀ tag cap, cfg.tagCaps tag = some cap → 0 < cap

theorem one_le_floor {c : ℚ} (h : 1 ≤ c) : 0 < ⌊c⌋₊ := Nat.floor_pos.mpr h

theorem getCpuConcurrency_pos (host : Host) : 0 < getCpuConcurrency host := by
  simp [getCpuConcurrency]

theorem resolveGlobalCap_pos (host : Host) (opts : ExecutorOptions) :
    0 < resolveGlobalCap host opts := by
  unfold resolveGlobalCap
  split
  · exact getCpuConcurrency_pos host
  · split
    · exact Nat.one_pos
    · exact one_le_floor (not_lt.mp ‹_›)
  · exact Nat.one_pos

theorem resolveTagCap_pos {host : Host} {tag : String} {val : Concurrency} {cap : ℕ}
    (h : resolveTagCap host tag val = some cap) : 0 < cap := by
  unfold resolveTagCap at h
  split at h
  · split at h
    · obtain ⟨rpm, -, rfl⟩ := Option.map_eq_some_iff.mp h
      simp
    · obtain rfl := Option.some.inj h
      exact getCpuConcurrency_pos host
  · split at h
    · obtain rfl := Option.some.inj h
      exact one_le_floor ‹_›
    · simp at h
  · simp at h

/-- The sort of a plan never throws, and every resolved cap is positive. -/
theorem configure_valid (host : Host) (opts : ExecutorOptions) (plan : Plan V) :
    ∃ cfg : Config V, configure host opts plan = .ok cfg ∧ cfg.plan = plan ∧ cfg.Valid := by
  obtain ⟨order, hsort, hperm, -⟩ := plan.toposort_order
  refine ⟨⟨plan, order, resolveGlobalCap host opts, resolveTagCaps host opts⟩, ?_, rfl, hperm,
    resolveGlobalCap_pos host opts, ?_⟩
  · simp [configure, hsort, Except.map]
  · intro tag cap h
    obtain ⟨entry, -, hcap⟩ := Option.bind_eq_some_iff.mp h
    exact resolveTagCap_pos hcap

theorem Config.Valid.nodup (hv : cfg.Valid) : cfg.order.Nodup :=
  hv.perm.nodup_iff.mpr cfg.plan.ids_nodup

theorem Config.Valid.mem_order (hv : cfg.Valid) {id : ℕ} : id ∈ cfg.order ↔ id ∈ cfg.plan.ids :=
  hv.perm.mem_iff

theorem Config.Valid.mem_dependents (hv : cfg.Valid) {id d : ℕ} :
    id ∈ dependents cfg d ↔ d ∈ cfg.plan.depIds id := by
  have hmem := Countdown.mem_users hv.nodup cfg.plan.depIds id d
  rw [hv.mem_order] at hmem
  refine hmem.trans ⟨fun h => h.2, fun h => ⟨?_, h⟩⟩
  by_contra hno
  have hnone : cfg.plan.op? id = none :=
    Option.eq_none_iff_forall_ne_some.mpr fun op hop => hno (Plan.mem_ids.mpr ⟨op, hop⟩)
  simp [Plan.depIds, hnone] at h

theorem Config.Valid.count_dependents (hv : cfg.Valid) {id : ℕ} (hid : id ∈ cfg.plan.ids) (d : ℕ) :
    (dependents cfg d).count id = (cfg.plan.depIds id).count d := by
  rw [dependents, Plan.dependents, Countdown.count_users hv.nodup, if_pos (hv.mem_order.mpr hid)]

theorem Config.Valid.dependents_closed (hv : cfg.Valid) :
    ∀ d ∈ cfg.plan.ids, ∀ id ∈ dependents cfg d, id ∈ cfg.plan.ids := by
  intro d _ id hid
  exact hv.mem_order.mp ((Countdown.mem_users hv.nodup _ _ _).mp hid).1

namespace State

def done (s : State V) (id : ℕ) : Bool := (s.results id).isSome

def called (s : State V) : List ℕ := s.calls.map Prod.fst

/-- The operations whose outcome is outstanding. -/
def active (limbo : List ℕ) (s : State V) : List ℕ := s.running.map Prod.fst ++ limbo

/-- The `fn` of the operation was called, and this came of it. -/
def CallGave (cfg : Config V) (s : State V) (id : ℕ) (out : FnCall V) : Prop :=
  ∃ op ctx, cfg.plan.op? id = some op ∧ (id, ctx) ∈ s.calls ∧ op.fn ctx = out

def CallFailed (cfg : Config V) (s : State V) (id : ℕ) (err : Thrown) : Prop :=
  s.CallGave cfg id (.throws err) ∨ s.CallGave cfg id (.returns (.reject err))

theorem CallGave.called {s : State V} {id : ℕ} {out : FnCall V} (h : s.CallGave cfg id out) :
    id ∈ s.called := by
  obtain ⟨_, ctx, _, hmem, _⟩ := h
  exact List.mem_map_of_mem (f := Prod.fst) hmem

theorem CallFailed.called {s : State V} {id : ℕ} {err : Thrown} (h : s.CallFailed cfg id err) :
    id ∈ s.called := h.elim CallGave.called CallGave.called

theorem CallGave.mono {s t : State V} {id : ℕ} {out : FnCall V} (h : s.CallGave cfg id out)
    (hst : ∀ c ∈ s.calls, c ∈ t.calls) : t.CallGave cfg id out := by
  obtain ⟨op, ctx, hop, hmem, hfn⟩ := h
  exact ⟨op, ctx, hop, hst _ hmem, hfn⟩

theorem CallFailed.mono {s t : State V} {id : ℕ} {err : Thrown} (h : s.CallFailed cfg id err)
    (hst : ∀ c ∈ s.calls, c ∈ t.calls) : t.CallFailed cfg id err :=
  h.imp (fun h => h.mono hst) fun h => h.mono hst

end State

/-- The entry recorded when the operation is skipped. -/
def skipEntry (cfg : Config V) (upstream : String) (id : ℕ) : ℕ × LineageEntry :=
  (id, match cfg.plan.op? id with
    | some op => .skip op.name op.tag upstream
    | none => .skip "" none upstream)

/-- All the skips of one cascade at once. -/
def skipAll (cfg : Config V) (upstream : String) (new : List ℕ) (s : State V) : State V :=
  { s with
    failed := new.reverse ++ s.failed
    lineage := s.lineage ++ new.map (skipEntry cfg upstream)
    pendingCount := s.pendingCount - new.length }

theorem cascadeLoop_eq (hv : cfg.Valid) (upstream : String) (n : ℕ) (stack : List ℕ) (s : State V)
    (hst : ∀ id ∈ stack, id ∈ cfg.plan.ids) :
    cascadeLoop cfg upstream n stack s =
      skipAll cfg upstream (Worklist.visit (dependents cfg) n stack s.failed) s := by
  induction n generalizing stack s with
  | zero => simp [cascadeLoop, Worklist.visit, skipAll]
  | succ n ih =>
    cases stack with
    | nil => simp [cascadeLoop, Worklist.visit, skipAll]
    | cons id stack =>
      have hid : id ∈ cfg.plan.ids := hst id (by simp)
      have hrest : ∀ i ∈ stack, i ∈ cfg.plan.ids := fun i hi => hst i (by simp [hi])
      by_cases hf : id ∈ s.failed
      · simp only [cascadeLoop, Worklist.visit, hf, if_true]
        exact ih stack s hrest
      · obtain ⟨op, hop⟩ := Plan.mem_ids.mp hid
        obtain ⟨-, rfl⟩ := Plan.op?_mem hop
        simp only [cascadeLoop, Worklist.visit, hf, if_false, hop]
        rw [ih _ _ (fun i hi => by
          rcases List.mem_append.mp hi with hi | hi
          · exact hv.dependents_closed op.id hid i (List.mem_reverse.mp hi)
          · exact hrest i hi)]
        simp [skipAll, skipOp, skipEntry, hop]
        ring

/-- The operations a cascade from `originId` newly skips, in the order of their entries. -/
def skipped (cfg : Config V) (originId : ℕ) (failed : List ℕ) : List ℕ :=
  Worklist.visit (dependents cfg)
    ((dependents cfg originId).length +
      (cfg.plan.ids.map fun id => (dependents cfg id).length).sum)
    (dependents cfg originId).reverse failed

theorem cascadeSkip_eq (hv : cfg.Valid) {originId : ℕ} (hid : originId ∈ cfg.plan.ids)
    (originName : String) (s : State V) :
    cascadeSkip cfg originId originName s =
      skipAll cfg originName (skipped cfg originId s.failed) s := by
  rw [cascadeSkip, cascadeLoop_eq hv, skipped, List.length_reverse]
  intro id h
  exact hv.dependents_closed originId hid id (List.mem_reverse.mp h)

theorem skipped_fresh (cfg : Config V) (originId : ℕ) (failed : List ℕ) :
    (skipped cfg originId failed).Nodup ∧ ∀ id ∈ skipped cfg originId failed, id ∉ failed :=
  Worklist.visit_fresh _ _ _ _

/-- The users of the origin and of everything skipped have failed after the cascade. -/
theorem skipped_closed (hv : cfg.Valid) {originId : ℕ} (hid : originId ∈ cfg.plan.ids)
    (failed : List ℕ) {d id : ℕ} (hd : d = originId ∨ d ∈ skipped cfg originId failed)
    (huse : d ∈ cfg.plan.depIds id) : id ∈ failed ∨ id ∈ skipped cfg originId failed := by
  have hcomplete := Worklist.visit_complete (dependents cfg) cfg.plan.ids_nodup
    hv.dependents_closed
    ((dependents cfg originId).length + (cfg.plan.ids.map fun id => (dependents cfg id).length).sum)
    (dependents cfg originId).reverse failed
    (fun i hi => hv.dependents_closed originId hid i (List.mem_reverse.mp hi))
    (by
      have := Worklist.weight_le (dependents cfg) cfg.plan.ids failed
      rw [List.length_reverse]
      omega)
  rcases hd with rfl | hd
  · exact hcomplete.1 id (List.mem_reverse.mpr (hv.mem_dependents.mpr huse))
  · exact hcomplete.2 d hd id (hv.mem_dependents.mpr huse)

/-- What holds of the users of the origin and passes on to users holds of everything skipped. -/
theorem skipped_induction (hv : cfg.Valid) {originId : ℕ} (failed : List ℕ) {P : ℕ → Prop}
    (horigin : ∀ id, originId ∈ cfg.plan.depIds id → P id)
    (hstep : ∀ d id, P d → d ∈ cfg.plan.depIds id → P id) :
    ∀ id ∈ skipped cfg originId failed, P id := by
  intro id h
  obtain ⟨d, hd, hr⟩ := Worklist.visit_sound _ _ _ _ id h
  clear h
  induction hr with
  | refl => exact horigin d (hv.mem_dependents.mp (List.mem_reverse.mp hd))
  | tail _ huse ih => exact hstep _ _ ih (hv.mem_dependents.mp huse)

theorem skipped_cause (hv : cfg.Valid) {originId : ℕ} (failed : List ℕ) :
    ∀ id ∈ skipped cfg originId failed, originId ∈ cfg.plan.depIds id ∨
      ∃ d ∈ skipped cfg originId failed, d ∈ cfg.plan.depIds id := by
  intro id h
  refine (Worklist.visit_pushed _ _ _ _ id h).imp ?_ ?_
  · exact fun hs => hv.mem_dependents.mp (List.mem_reverse.mp hs)
  · exact fun ⟨d, hd, huse⟩ => ⟨d, hd, hv.mem_dependents.mp huse⟩

/-- Which operations are ready, active, done, failed, and why.  `ready` is the ready queue and
`limbo` the operation in limbo, if any. -/
structure Core (cfg : Config V) (limbo ready : List ℕ) (s : State V) : Prop where
  ready_nodup : ready.Nodup
  ready_ids : ∀ id ∈ ready, id ∈ cfg.plan.ids
  ready_iff : ∀ id ∈ cfg.plan.ids,
    id ∈ ready ↔ id ∉ s.called ∧ ∀ d ∈ cfg.plan.depIds id, s.done d = true
  calls_nodup : s.called.Nodup
  calls_ctx : ∀ c ∈ s.calls, c.1 ∈ cfg.plan.ids ∧
    c.2.deps = (cfg.plan.depIds c.1).map s.results ∧ ∀ d ∈ cfg.plan.depIds c.1, s.done d = true
  active_nodup : (s.active limbo).Nodup
  active_open : ∀ id ∈ s.active limbo,
    id ∈ s.called ∧ s.done id = false ∧ id ∉ s.failed ∧ id ∉ s.rejected
  called_cases : ∀ id ∈ s.called,
    id ∈ s.active limbo ∨ s.done id = true ∨ id ∈ s.failed ∨ id ∈ s.rejected
  running_gave : ∀ r ∈ s.running, s.CallGave cfg r.1 (.returns r.2)
  results_gave : ∀ id v, s.results id = some v →
    s.CallGave cfg id (.returns (.resolve v)) ∧ id ∉ s.failed
  failed_nodup : s.failed.Nodup
  failed_cause : ∀ id ∈ s.failed, id ∈ cfg.plan.ids ∧
    ((∃ err message, s.CallFailed cfg id err ∧ err.message? = some message) ∨
      id ∉ s.called ∧ ∃ d ∈ cfg.plan.depIds id, d ∈ s.failed)
  failed_users : ∀ id d, d ∈ s.failed → d ∈ cfg.plan.depIds id → id ∈ s.failed
  rejected_gave : ∀ id ∈ s.rejected, s.done id = false ∧ id ∉ s.failed ∧
    ∃ err, s.CallFailed cfg id err ∧ err.message? = none
  pending_eq : ∀ id ∈ cfg.plan.ids,
    s.pending id = some (Countdown.openUses cfg.plan.depIds s.done id : ℤ)

/-- The three counters. -/
structure Counters (cfg : Config V) (limbo : List ℕ) (s : State V) : Prop where
  pendingCount_eq :
    s.pendingCount = cfg.plan.ids.countP fun id => !s.done id && decide (id ∉ s.failed)
  globalInFlight_eq : s.globalInFlight = (s.active limbo).length
  tagInFlight_eq : ∀ tag, (s.tagInFlight tag).getD 0 =
    (s.active limbo).countP fun id => decide ((cfg.plan.op? id).bind Operation.tag = some tag)

def isEnd (id : ℕ) (e : ℕ × LineageEntry) : Bool := decide (e.1 = id) && decide (e.2.phase = .ended)

def isStart (id : ℕ) (e : ℕ × LineageEntry) : Bool := decide (e.1 = id) && decide (e.2.phase = .start)

/-- One end entry for every operation that is done or failed, one start entry for every call. -/
structure Log (s : State V) : Prop where
  ends : ∀ id, s.lineage.countP (isEnd id) = (s.done id || decide (id ∈ s.failed)).toNat
  starts : ∀ id, s.lineage.countP (isStart id) = s.called.count id

theorem Core.done_called {limbo ready : List ℕ} {s : State V} (h : Core cfg limbo ready s) {id : ℕ}
    (hd : s.done id = true) : id ∈ s.called := by
  obtain ⟨v, hval⟩ := Option.isSome_iff_exists.mp hd
  exact (h.results_gave id v hval).1.called

theorem Core.done_notMem_failed {limbo ready : List ℕ} {s : State V} (h : Core cfg limbo ready s)
    {id : ℕ} (hd : s.done id = true) : id ∉ s.failed := by
  obtain ⟨v, hval⟩ := Option.isSome_iff_exists.mp hd
  exact (h.results_gave id v hval).2

/-- A user of an operation that is not done has not been called. -/
theorem Core.user_uncalled {limbo ready : List ℕ} {s : State V} (h : Core cfg limbo ready s)
    {id d : ℕ} (hd : s.done d = false) (huse : d ∈ cfg.plan.depIds id) : id ∉ s.called := by
  intro hc
  obtain ⟨c, hmem, rfl⟩ := List.mem_map.mp hc
  simp [(h.calls_ctx c hmem).2.2 d huse] at hd

theorem Core.uncalled_open {limbo ready : List ℕ} {s : State V} (h : Core cfg limbo ready s)
    {id : ℕ} (hid : id ∉ s.called) : s.done id = false := by
  by_contra hd
  exact hid (h.done_called (by simpa using hd))

theorem Core.called_mem_ids {limbo ready : List ℕ} {s : State V} (h : Core cfg limbo ready s)
    {id : ℕ} (hid : id ∈ s.called) : id ∈ cfg.plan.ids := by
  obtain ⟨c, hmem, rfl⟩ := List.mem_map.mp hid
  exact (h.calls_ctx c hmem).1

theorem Core.ready_notMem_failed {limbo ready : List ℕ} {s : State V} (h : Core cfg limbo ready s)
    (id : ℕ) (hid : id ∈ ready) : id ∉ s.failed := by
  intro hf
  obtain ⟨hun, hdeps⟩ := (h.ready_iff id (h.ready_ids id hid)).mp hid
  rcases (h.failed_cause id hf).2 with ⟨err, message, hcall, -⟩ | ⟨-, d, hd, hdf⟩
  · exact hun hcall.called
  · exact h.done_notMem_failed (hdeps d hd) hdf

theorem init_core (hv : cfg.Valid) : Core cfg [] (init cfg).ready (init cfg) := by
  have hdeg : ∀ id ∈ cfg.plan.ids,
      (cfg.plan.indegree id).getD 0 = 0 ↔ cfg.plan.depIds id = [] := by
    intro id hid
    simp [Plan.indegree_eq hid]
  refine ⟨?_, ?_, ?_, ?_, ?_, ?_, ?_, ?_, ?_, ?_, ?_, ?_, ?_, ?_, ?_⟩
  · exact hv.nodup.filter _
  · intro id hid
    exact hv.mem_order.mp (List.mem_filter.mp hid).1
  · intro id hid
    simp only [init, List.mem_filter, hv.mem_order, hid, true_and, decide_eq_true_eq, hdeg id hid]
    simp [State.called, State.done, List.eq_nil_iff_forall_not_mem]
  all_goals simp [init, State.called, State.active, State.done]
  intro id hid
  simp [Plan.indegree_eq hid, Countdown.openUses, State.done]

theorem init_counters (hv : cfg.Valid) : Counters cfg [] (init cfg) := by
  refine ⟨?_, ?_, ?_⟩
  · have hlen := hv.perm.length_eq
    simp [init, State.done, hlen]
  · simp [init, State.active]
  · simp [init, State.active]

theorem init_log : Log (init cfg) := by
  constructor <;> simp [init, State.done, State.called]

end Executor
end Batiste
