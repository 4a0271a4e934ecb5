import Batiste.ExecutorStep

/-! One round of the scheduler loop.
While the ready queue is drained, its part already looked at stands in `ready` and the rest is
the argument of `drain`; the invariant sees both together. -/
namespace Batiste
namespace Executor

variable {V : Type} {cfg : Config V}

theorem Core.perm {limbo ready ready' : List ℕ} {s : State V} (h : Core cfg limbo ready s)
    (hp : ready'.Perm ready) : Core cfg limbo ready' s := by
  obtain ⟨hnd, hids, hiff, hrest⟩ := h
  constructor
  · exact hp.nodup_iff.mpr hnd
  · exact fun id hid => hids id (hp.mem_iff.mp hid)
  · exact fun id hid => hp.mem_iff.trans (hiff id hid)
  all_goals assumption

/-- The promises in flight: every running operation has one, and a promise without a running
operation has settled. -/
structure Flight (s : State V) : Prop where
  running_inFlight : ∀ id ∈ s.running.map Prod.fst, id ∈ s.inFlight
  inFlight_cases : ∀ id ∈ s.inFlight,
    id ∈ s.running.map Prod.fst ∨ id ∈ s.fulfilled ∨ id ∈ s.rejected
  fulfilled_closed : ∀ id ∈ s.fulfilled, s.done id = true ∨ id ∈ s.failed

structure Round (cfg : Config V) (ready : List ℕ) (s : State V) : Prop where
  inv : Inv cfg [] ready s
  flight : Flight s

/-- How many operations are neither called nor failed. -/
def uncalled (cfg : Config V) (s : State V) : ℕ :=
  cfg.plan.ids.countP fun id => decide (id ∉ s.called) && decide (id ∉ s.failed)

/-- Every operation in flight costs less than one that is still to be called: a call trades
five units for at most four, a settling gives three back, and removing a promise one. -/
def work (cfg : Config V) (s : State V) : ℕ :=
  5 * uncalled cfg s + 3 * s.running.length + s.inFlight.length

theorem work_push (s : State V) (id : ℕ) :
    work cfg { s with inFlight := s.inFlight ++ [id] } = work cfg s + 1 := by
  have hsame : uncalled cfg { s with inFlight := s.inFlight ++ [id] } = uncalled cfg s := rfl
  rw [work, hsame, List.length_append]
  rfl

/-- The uncalled operations only get fewer. -/
theorem uncalled_le {s t : State V} (hcalled : ∀ id ∈ s.called, id ∈ t.called)
    (hfailed : ∀ id ∈ s.failed, id ∈ t.failed) : uncalled cfg t ≤ uncalled cfg s := by
  apply List.countP_mono_left
  intro id _ h
  simp only [Bool.and_eq_true, decide_eq_true_eq] at h ⊢
  exact ⟨fun hc => h.1 (hcalled id hc), fun hf => h.2 (hfailed id hf)⟩

theorem uncalled_lt {s t : State V} {x : ℕ} (hx : x ∈ cfg.plan.ids) (hun : x ∉ s.called)
    (hok : x ∉ s.failed) (hxt : x ∈ t.called) (hcalled : ∀ id ∈ s.called, id ∈ t.called)
    (hfailed : ∀ id ∈ s.failed, id ∈ t.failed) : uncalled cfg t < uncalled cfg s := by
  have hremove := countP_remove (l := cfg.plan.ids) (r := [x])
    (p := fun id => decide (id ∉ s.called) && decide (id ∉ s.failed)) cfg.plan.ids_nodup (by simp)
    (by simp [hx, hun, hok])
  rw [uncalled, uncalled, ← hremove, List.length_singleton]
  apply Nat.lt_succ_of_le
  apply List.countP_mono_left
  intro id _ h
  simp only [Bool.and_eq_true, decide_eq_true_eq, List.mem_singleton] at h ⊢
  refine ⟨⟨fun hc => h.1 (hcalled id hc), fun hf => h.2 (hfailed id hf)⟩, ?_⟩
  rintro rfl
  exact h.1 hxt

/-- What the continuation of `runOp` does to the fields outside the invariant. -/
structure SettleEffect (op : Operation V) (s t : State V) : Prop where
  control : t.control = s.control
  running : t.running = s.running
  inFlight : t.inFlight = s.inFlight
  calls : t.calls = s.calls
  wakeups : t.wakeups = s.wakeups + 1
  failed : ∀ id ∈ s.failed, id ∈ t.failed
  done : ∀ id, s.done id = true → t.done id = true
  outcome : (t.fulfilled = op.id :: s.fulfilled ∧ t.rejected = s.rejected ∧
      (t.done op.id = true ∨ op.id ∈ t.failed)) ∨
    (t.fulfilled = s.fulfilled ∧ t.rejected = op.id :: s.rejected)

theorem settleOp_effect (hv : cfg.Valid) {op : Operation V} (hid : op.id ∈ cfg.plan.ids)
    (s : State V) (promise : Settlement V) : SettleEffect op s (settleOp cfg op s promise) := by
  cases promise with
  | resolve v =>
    refine ⟨rfl, rfl, rfl, rfl, rfl, fun _ h => h, ?_, Or.inl ⟨rfl, rfl, Or.inl ?_⟩⟩
    · intro id hd
      have hdone : (succeedOp cfg op v s).done id = _ := done_succeedOp op v s id
      rw [hd, Bool.true_or] at hdone
      exact hdone
    · simp [settleOp, State.done, finallyOp, succeedOp]
  | reject err =>
    cases hmsg : err.message? with
    | none =>
      have heq : settleOp cfg op s (.reject err) = finallyOp op false s := by
        simp [settleOp, hmsg]
      rw [heq]
      exact ⟨rfl, rfl, rfl, rfl, rfl, fun _ h => h, fun _ h => h, Or.inr ⟨rfl, rfl⟩⟩
    | some message =>
      have heq : settleOp cfg op s (.reject err) = finallyOp op true (failOp cfg op message s) := by
        simp [settleOp, hmsg]
      rw [heq, failOp_eq hv hid]
      refine ⟨rfl, rfl, rfl, rfl, rfl, fun id h => ?_, fun _ h => h,
        Or.inl ⟨rfl, rfl, Or.inr ?_⟩⟩
      · exact List.mem_append_right _ (List.mem_cons_of_mem _ h)
      · exact List.mem_append_right _ (List.mem_cons_self ..)

theorem settleOp_reject_results (hv : cfg.Valid) {op : Operation V} (hid : op.id ∈ cfg.plan.ids)
    (s : State V) (err : Thrown) : (settleOp cfg op s (.reject err)).results = s.results := by
  cases hmsg : err.message? with
  | none => simp [settleOp, hmsg, finallyOp]
  | some message =>
    simp only [settleOp, hmsg, failOp_eq hv hid]
    rfl

/-- The settled promise of an operation that is not running. -/
theorem SettleEffect.flight {op : Operation V} {s t : State V} (h : SettleEffect op s t)
    (hrun : ∀ id ∈ s.running.map Prod.fst, id ∈ s.inFlight)
    (hcases : ∀ id ∈ s.inFlight,
      id = op.id ∨ id ∈ s.running.map Prod.fst ∨ id ∈ s.fulfilled ∨ id ∈ s.rejected)
    (hclosed : ∀ id ∈ s.fulfilled, s.done id = true ∨ id ∈ s.failed) : Flight t := by
  have hkeep : ∀ id, s.done id = true ∨ id ∈ s.failed → t.done id = true ∨ id ∈ t.failed :=
    fun id => Or.imp (h.done id) (h.failed id)
  constructor
  · rw [h.running, h.inFlight]
    exact hrun
  · rw [h.running, h.inFlight]
    intro id hid
    rcases h.outcome with ⟨hful, hrej, -⟩ | ⟨hful, hrej⟩
    · rw [hful, hrej]
      rcases hcases id hid with rfl | hc
      · exact Or.inr (Or.inl (List.mem_cons_self ..))
      · exact hc.imp_right (Or.imp_left (List.mem_cons_of_mem _))
    · rw [hful, hrej]
      rcases hcases id hid with rfl | hc
      · exact Or.inr (Or.inr (List.mem_cons_self ..))
      · exact hc.imp_right (Or.imp_right (List.mem_cons_of_mem _))
  · intro id hid
    rcases h.outcome with ⟨hful, -, hout⟩ | ⟨hful, -⟩
    · rw [hful] at hid
      rcases List.mem_cons.mp hid with rfl | hid
      · exact hout
      · exact hkeep id (hclosed id hid)
    · rw [hful] at hid
      exact hkeep id (hclosed id hid)

/-- What a round leaves alone. -/
structure RoundEffect (s t : State V) : Prop where
  control : t.control = s.control
  results : t.results = s.results
  wakeups : s.wakeups ≤ t.wakeups
  rejected : t.rejected = [] → s.rejected = []

theorem RoundEffect.refl (s : State V) : RoundEffect s s := ⟨rfl, rfl, le_refl _, fun h => h⟩

theorem RoundEffect.trans {s t u : State V} (h : RoundEffect s t) (h' : RoundEffect t u) :
    RoundEffect s u :=
  ⟨h'.control.trans h.control, h'.results.trans h.results, h.wakeups.trans h'.wakeups,
    fun hu => h.rejected (h'.rejected hu)⟩

/-- A dispatch: the synchronous part of `runOp` and the entry in `inFlight`. -/
def dispatch (cfg : Config V) (op : Operation V) (s : State V) : State V :=
  { runOp cfg op s with inFlight := (runOp cfg op s).inFlight ++ [op.id] }

/-- A ready operation has no failed dependency, so `runOp` calls its `fn`. -/
theorem runOp_ready {op : Operation V} {pre post : List ℕ} {s : State V}
    (hop : cfg.plan.op? op.id = some op) (h : Core cfg [] (pre ++ op.id :: post) s) :
    runOp cfg op s = callOp cfg op s := by
  have hid : op.id ∈ cfg.plan.ids := Plan.mem_ids.mpr ⟨op, hop⟩
  have hdeps := ((h.ready_iff op.id hid).mp (by simp)).2
  have hnone : op.deps.find? (fun d => decide (d.id ∈ s.failed)) = none := by
    rw [List.find?_eq_none]
    intro d hd
    have hmem : d.id ∈ cfg.plan.depIds op.id := by
      rw [Plan.depIds_of_op? hop]
      exact List.mem_map_of_mem hd
    simpa using h.done_notMem_failed (hdeps d.id hmem)
  simp [runOp, hnone]

theorem Inv.perm {limbo ready ready' : List ℕ} {s : State V} (h : Inv cfg limbo ready s)
    (hp : ready'.Perm ready) : Inv cfg limbo ready' s := ⟨h.core.perm hp, h.counters, h.log⟩

theorem Round.setLoop {ready queue : List ℕ} {s : State V} {control : Control}
    (h : Round cfg ready s) : Round cfg ready { s with control := control, ready := queue } :=
  ⟨h.inv.setLoop, h.flight.running_inFlight, h.flight.inFlight_cases, h.flight.fulfilled_closed⟩

section Dispatch

variable {op : Operation V} {rest : List ℕ} {s : State V}

/-- The call of `fn` threw: the operation is settled within the same stretch of code. -/
theorem dispatch_throws (hv : cfg.Valid) (hop : cfg.plan.op? op.id = some op)
    (h : Round cfg (s.ready ++ op.id :: rest) s) {err : Thrown}
    (hfn : op.fn ⟨op.depIds.map s.results⟩ = .throws err) :
    Round cfg ((dispatch cfg op s).ready ++ rest) (dispatch cfg op s) ∧
      RoundEffect s (dispatch cfg op s) ∧ work cfg (dispatch cfg op s) < work cfg s := by
  have hid : op.id ∈ cfg.plan.ids := Plan.mem_ids.mpr ⟨op, hop⟩
  have hun := ((h.inv.core.ready_iff op.id hid).mp (by simp)).1
  have hok := h.inv.core.ready_notMem_failed op.id (by simp)
  let ctx : OperationContext V := ⟨op.depIds.map s.results⟩
  have hrun : runOp cfg op s = settleOp cfg op (enterOp op ctx s) (.reject err) := by
    rw [runOp_ready hop h.inv.core]
    simp [callOp, hfn, ctx]
  have henter : Inv cfg [op.id] (s.ready ++ rest) (enterOp op ctx s) := enterOp_inv hop h.inv
  have hgave : (enterOp op ctx s).Gave cfg op.id (.reject err) :=
    Or.inl ⟨op, ctx, hop, by simp [enterOp], hfn⟩
  obtain ⟨more, hready, hinv⟩ := settleOp_inv hv hop henter hgave
  have heffect := settleOp_effect hv hid (enterOp op ctx s) (.reject err)
  have hresults := settleOp_reject_results hv hid (enterOp op ctx s) err
  rw [← hrun] at hready hinv heffect hresults
  generalize ht : runOp cfg op s = t at *
  have hcalled : t.called = s.called ++ [op.id] := by
    simp [State.called, heffect.calls, enterOp]
  have hin : t.inFlight = s.inFlight := heffect.inFlight
  have hperm : (t.ready ++ rest).Perm (s.ready ++ rest ++ more) := by
    rw [hready]
    simp only [enterOp, List.append_assoc]
    exact List.Perm.append_left _ List.perm_append_comm
  have hflight : Flight { t with inFlight := t.inFlight ++ [op.id] } := by
    have hpushed : SettleEffect op { enterOp op ctx s with inFlight := s.inFlight ++ [op.id] }
        { t with inFlight := t.inFlight ++ [op.id] } :=
      { heffect with inFlight := by rw [hin] }
    refine hpushed.flight ?_ ?_ h.flight.fulfilled_closed
    · exact fun id hmem => List.mem_append_left _ (h.flight.running_inFlight id hmem)
    · intro id hmem
      rcases List.mem_append.mp hmem with hmem | hmem
      · exact Or.inr (h.flight.inFlight_cases id hmem)
      · exact Or.inl (List.mem_singleton.mp hmem)
  have hlt := uncalled_lt (t := t) hid hun hok (by simp [hcalled])
    (fun id hmem => by simp [hcalled, hmem]) heffect.failed
  have hrunning : t.running = s.running := heffect.running
  have heq : dispatch cfg op s = { t with inFlight := t.inFlight ++ [op.id] } := by
    rw [dispatch, ht]
  rw [heq]
  refine ⟨⟨(hinv.perm hperm).setLoop, hflight⟩, ⟨heffect.control, hresults, ?_, ?_⟩, ?_⟩
  · exact heffect.wakeups ▸ Nat.le_succ _
  · intro hrej
    rcases heffect.outcome with ⟨-, hrej', -⟩ | ⟨-, hrej'⟩
    · exact hrej'.symm.trans hrej
    · exact absurd (hrej'.symm.trans hrej) (List.cons_ne_nil _ _)
  · have hpush : work cfg { t with inFlight := t.inFlight ++ [op.id] } = work cfg t + 1 :=
      work_push t op.id
    rw [hpush]
    simp only [work, hrunning, hin]
    omega

/-- The call of `fn` returned a promise: the operation is running. -/
theorem dispatch_returns (hop : cfg.plan.op? op.id = some op)
    (h : Round cfg (s.ready ++ op.id :: rest) s) {promise : Settlement V}
    (hfn : op.fn ⟨op.depIds.map s.results⟩ = .returns promise) :
    Round cfg ((dispatch cfg op s).ready ++ rest) (dispatch cfg op s) ∧
      RoundEffect s (dispatch cfg op s) ∧ work cfg (dispatch cfg op s) < work cfg s := by
  have hid : op.id ∈ cfg.plan.ids := Plan.mem_ids.mpr ⟨op, hop⟩
  have hun := ((h.inv.core.ready_iff op.id hid).mp (by simp)).1
  have hok := h.inv.core.ready_notMem_failed op.id (by simp)
  let ctx : OperationContext V := ⟨op.depIds.map s.results⟩
  have henter : Inv cfg [op.id] (s.ready ++ rest) (enterOp op ctx s) := enterOp_inv hop h.inv
  let t : State V := { enterOp op ctx s with
    running := s.running ++ [(op.id, promise)]
    inFlight := s.inFlight ++ [op.id] }
  have heq : dispatch cfg op s = t := by
    simp only [dispatch, runOp_ready hop h.inv.core, callOp, hfn, t, ctx, enterOp]
  have hactive : (t.active []).Perm ((enterOp op ctx s).active [op.id]) := by
    simp [State.active, t, enterOp]
  have hgave : ∀ r ∈ t.running, (enterOp op ctx s).CallGave cfg r.1 (.returns r.2) := by
    intro r hr
    rcases List.mem_append.mp hr with hr | hr
    · exact henter.core.running_gave r hr
    · obtain rfl := List.mem_singleton.mp hr
      exact ⟨op, ctx, hop, by simp [enterOp], hfn⟩
  have hlt : uncalled cfg t < uncalled cfg s := uncalled_lt hid hun hok
    (by simp [State.called, t, enterOp]) (fun id hmem => by
      simp only [State.called, t, enterOp, List.map_append]
      exact List.mem_append_left _ hmem) (fun _ hmem => hmem)
  rw [heq]
  refine ⟨⟨henter.move hactive hgave, ?_, ?_, ?_⟩, ⟨rfl, rfl, le_refl _, fun hr => hr⟩, ?_⟩
  · intro id hmem
    simp only [t, List.map_append, List.map_cons, List.map_nil, List.mem_append] at hmem ⊢
    exact hmem.imp_left (h.flight.running_inFlight id)
  · intro id hmem
    simp only [t, List.map_append, List.map_cons, List.map_nil, List.mem_append] at hmem ⊢
    rcases hmem with hmem | hmem
    · exact (h.flight.inFlight_cases id hmem).imp_left Or.inl
    · exact Or.inl (Or.inr hmem)
  · exact h.flight.fulfilled_closed
  · have hrunning : t.running.length = s.running.length + 1 := by simp [t]
    have hin : t.inFlight.length = s.inFlight.length + 1 := by simp [t]
    simp only [work, hrunning, hin]
    omega

theorem dispatch_round (hv : cfg.Valid) (hop : cfg.plan.op? op.id = some op)
    (h : Round cfg (s.ready ++ op.id :: rest) s) :
    Round cfg ((dispatch cfg op s).ready ++ rest) (dispatch cfg op s) ∧
      RoundEffect s (dispatch cfg op s) ∧ work cfg (dispatch cfg op s) < work cfg s := by
  cases hfn : op.fn ⟨op.depIds.map s.results⟩ with
  | throws err => exact dispatch_throws hv hop h hfn
  | returns promise => exact dispatch_returns hop h hfn

end Dispatch

/-- An operation kept for a later round moves over to the part already looked at. -/
theorem Round.keep {id : ℕ} {rest : List ℕ} {s : State V}
    (h : Round cfg (s.ready ++ id :: rest) s) :
    Round cfg ({ s with ready := s.ready ++ [id] }.ready ++ rest)
      { s with ready := s.ready ++ [id] } := by
  have hperm : (s.ready ++ [id] ++ rest).Perm (s.ready ++ id :: rest) := by simp
  exact Round.setLoop ⟨h.inv.perm hperm, h.flight⟩

/-- No operation of the list can be dispatched. -/
def Blocked (cfg : Config V) (ids : List ℕ) (s : State V) : Prop :=
  ∀ id ∈ ids, ∀ op, cfg.plan.op? id = some op → canDispatch cfg s op = false

/-- A drain either dispatches something, or finds every operation blocked and keeps all. -/
theorem drain_round (hv : cfg.Valid) (rest : List ℕ) (dispatched : Bool) (s : State V)
    (h : Round cfg (s.ready ++ rest) s) :
    Round cfg (drain cfg rest dispatched s).1.ready (drain cfg rest dispatched s).1 ∧
    RoundEffect s (drain cfg rest dispatched s).1 ∧
    work cfg (drain cfg rest dispatched s).1 ≤ work cfg s ∧
    ((drain cfg rest dispatched s).2 = true →
      dispatched = true ∨ work cfg (drain cfg rest dispatched s).1 < work cfg s) ∧
    ((drain cfg rest dispatched s).2 = false → dispatched = false ∧ Blocked cfg rest s ∧
      (drain cfg rest dispatched s).1 = { s with ready := s.ready ++ rest }) := by
  induction rest generalizing dispatched s with
  | nil =>
    rw [List.append_nil] at h
    refine ⟨h, RoundEffect.refl s, le_refl _, Or.inl, ?_⟩
    intro hd
    exact ⟨hd, by simp [Blocked], by simp [drain]⟩
  | cons id rest ih =>
    have hid := h.inv.core.ready_ids id (by simp)
    have hok := h.inv.core.ready_notMem_failed id (by simp)
    obtain ⟨op, hop⟩ := Plan.mem_ids.mp hid
    obtain ⟨-, rfl⟩ := Plan.op?_mem hop
    cases hcan : canDispatch cfg s op with
    | false =>
      have heq : drain cfg (op.id :: rest) dispatched s =
          drain cfg rest dispatched { s with ready := s.ready ++ [op.id] } := by
        simp [drain, hok, hop, hcan]
      rw [heq]
      obtain ⟨hround, heffect, hle, hyes, hno⟩ := ih dispatched _ h.keep
      refine ⟨hround, ⟨heffect.control, heffect.results, heffect.wakeups, heffect.rejected⟩,
        hle, hyes, fun hd => ?_⟩
      obtain ⟨hdisp, hblocked, hstate⟩ := hno hd
      refine ⟨hdisp, ?_, by rw [hstate]; simp⟩
      intro i hi o ho
      rcases List.mem_cons.mp hi with rfl | hi
      · obtain rfl : op = o := by
          rw [hop] at ho
          exact Option.some.inj ho
        exact hcan
      · exact hblocked i hi o ho
    | true =>
      have heq : drain cfg (op.id :: rest) dispatched s =
          drain cfg rest true (dispatch cfg op s) := by
        simp [drain, hok, hop, hcan, dispatch]
      rw [heq]
      obtain ⟨hround, heffect, hlt⟩ := dispatch_round hv hop h
      obtain ⟨hround', heffect', hle, -, hno⟩ := ih true _ hround
      refine ⟨hround', heffect.trans heffect', by omega, fun _ => Or.inr (by omega), fun hd => ?_⟩
      exact absurd (hno hd).1 (by simp)

end Executor
end Batiste
