import Batiste.ExecutorRun

/-! The caps of the executor, at every moment of a run: between the stretches of code, and while
a round of the scheduler calls one `fn` after another. -/
namespace Batiste
namespace Executor

open Transition

variable {V : Type} (cfg : Config V)

/-- The operations in flight while each `fn` that a drain calls is running. -/
def drainMoments : List ℕ → State V → List (List ℕ)
  | [], _ => []
  | id :: rest, s =>
    if id ∈ s.failed then drainMoments rest s
    else match cfg.plan.op? id with
      | none => drainMoments rest s
      | some op =>
        if canDispatch cfg s op then
          let calling := if (op.deps.find? fun d => decide (d.id ∈ s.failed)).isNone then
            [s.running.map Prod.fst ++ [id]] else []
          let t := runOp cfg op s
          calling ++ drainMoments rest { t with inFlight := t.inFlight ++ [id] }
        else drainMoments rest { s with ready := s.ready ++ [id] }

/-- The operations that are started and unsettled, in a state and within the round that follows
it. -/
def moments (s : State V) : List (List ℕ) :=
  s.running.map Prod.fst ::
    if s.control = .loop ∧ 0 < s.pendingCount then drainMoments cfg s.ready { s with ready := [] }
    else []

def tagged (tag : String) (id : ℕ) : Bool :=
  decide ((cfg.plan.op? id).bind Operation.tag = some tag)

structure WithinCaps (ids : List ℕ) : Prop where
  global : ids.length ≤ cfg.globalCap
  tags : ∀ tag cap, cfg.tagCaps tag = some cap → ids.countP (tagged cfg tag) ≤ cap

variable {cfg}

theorem WithinCaps.sublist {ids ids' : List ℕ} (h : WithinCaps cfg ids) (hs : ids'.Sublist ids) :
    WithinCaps cfg ids' :=
  ⟨hs.length_le.trans h.global, fun tag cap hcap => (hs.countP_le).trans (h.tags tag cap hcap)⟩

/-- The check before a dispatch leaves room for the operation. -/
theorem WithinCaps.dispatch {op : Operation V} {s : State V} (hop : cfg.plan.op? op.id = some op)
    (hc : Counters cfg [] s) (hcan : canDispatch cfg s op = true)
    (h : WithinCaps cfg (s.running.map Prod.fst)) :
    WithinCaps cfg (s.running.map Prod.fst ++ [op.id]) := by
  have hactive : s.active [] = s.running.map Prod.fst := List.append_nil _
  rw [canDispatch, Bool.and_eq_true, decide_eq_true_iff] at hcan
  obtain ⟨hglobal, htag⟩ := hcan
  constructor
  · rw [hc.globalInFlight_eq, hactive] at hglobal
    rw [List.length_append, List.length_singleton]
    omega
  · intro tag cap hcap
    have hold := h.tags tag cap hcap
    rw [List.countP_append, List.countP_singleton, tagged, hop, Option.bind_some]
    by_cases hsame : op.tag = some tag
    · -- its own tag: the counter that was compared counts the same operations
      have hcount := hc.tagInFlight_eq tag
      simp only [hsame, Option.bind_some, hcap, Option.map_some, decide_eq_true_iff, hcount,
        hactive] at htag
      have hlt : (s.running.map Prod.fst).countP (tagged cfg tag) < cap := by exact_mod_cast htag
      rw [decide_eq_true hsame, if_pos rfl]
      exact hlt
    · simp only [hsame, decide_false, Bool.false_eq_true, if_false, Nat.add_zero]
      exact hold

/-- A dispatch starts its operation, and nothing else. -/
theorem dispatch_running (hv : cfg.Valid) {op : Operation V} {pre post : List ℕ} {s : State V}
    (hop : cfg.plan.op? op.id = some op) (h : Core cfg [] (pre ++ op.id :: post) s) :
    ((dispatch cfg op s).running.map Prod.fst).Sublist (s.running.map Prod.fst ++ [op.id]) := by
  have hid : op.id ∈ cfg.plan.ids := Plan.mem_ids.mpr ⟨op, hop⟩
  rw [dispatch, runOp_ready hop h]
  cases hfn : op.fn ⟨op.depIds.map s.results⟩ with
  | throws err =>
    have hrun : (callOp cfg op s).running = s.running := by
      simp only [callOp, hfn]
      exact (settleOp_effect hv hid _ (.reject err)).running
    change ((callOp cfg op s).running.map Prod.fst).Sublist _
    rw [hrun]
    exact List.sublist_append_left _ _
  | returns promise =>
    have hrun : (callOp cfg op s).running = s.running ++ [(op.id, promise)] := by
      simp only [callOp, hfn, enterOp]
    change ((callOp cfg op s).running.map Prod.fst).Sublist _
    rw [hrun, List.map_append]
    exact List.Sublist.refl _

/-- Every call of a drain is within the caps, and so is what the drain leaves running. -/
theorem drain_within (hv : cfg.Valid) (rest : List ℕ) (dispatched : Bool) (s : State V)
    (h : Round cfg (s.ready ++ rest) s) (hs : WithinCaps cfg (s.running.map Prod.fst)) :
    (∀ ids ∈ drainMoments cfg rest s, WithinCaps cfg ids) ∧
      WithinCaps cfg ((drain cfg rest dispatched s).1.running.map Prod.fst) := by
  induction rest generalizing dispatched s with
  | nil => exact ⟨by simp [drainMoments], hs⟩
  | cons id rest ih =>
    have hok := h.inv.core.ready_notMem_failed id (by simp)
    obtain ⟨op, hop⟩ := Plan.mem_ids.mp (h.inv.core.ready_ids id (by simp))
    obtain ⟨-, rfl⟩ := Plan.op?_mem hop
    cases hcan : canDispatch cfg s op with
    | false =>
      have hdrain : drain cfg (op.id :: rest) dispatched s =
          drain cfg rest dispatched { s with ready := s.ready ++ [op.id] } := by
        simp [drain, hok, hop, hcan]
      have hmoments : drainMoments cfg (op.id :: rest) s =
          drainMoments cfg rest { s with ready := s.ready ++ [op.id] } := by
        simp [drainMoments, hok, hop, hcan]
      rw [hdrain, hmoments]
      exact ih dispatched _ h.keep hs
    | true =>
      have hroom := hs.dispatch hop h.inv.counters hcan
      have hdrain : drain cfg (op.id :: rest) dispatched s =
          drain cfg rest true (dispatch cfg op s) := by
        simp [drain, hok, hop, hcan, dispatch]
      obtain ⟨hmoments, hleft⟩ := ih true _ (dispatch_round hv hop h).1
        (hroom.sublist (dispatch_running hv hop h.inv.core))
      rw [hdrain]
      refine ⟨fun ids hids => ?_, hleft⟩
      simp only [drainMoments, hok, hop, hcan, if_false, if_true] at hids
      rcases List.mem_append.mp hids with hids | hids
      · split at hids
        · exact List.mem_singleton.mp hids ▸ hroom
        · simp at hids
      · exact hmoments ids hids

def Control.left : Control → Bool
  | .loop | .awaiting _ => false
  | .draining _ | .returned | .threw => true

/-- Once the loop is left, nothing is running. -/
def Drained (s : State V) : Prop := s.control.left = true → s.running = []

/-- What a round leaves running is within the caps, and nothing when it leaves the loop. -/
theorem iterate_within (hv : cfg.Valid) {s : State V} (h : Good cfg s) (hloop : s.control = .loop)
    (hs : WithinCaps cfg (s.running.map Prod.fst)) :
    (∀ ids ∈ moments cfg s, WithinCaps cfg ids) ∧
      WithinCaps cfg ((iterate cfg s).running.map Prod.fst) ∧ Drained (iterate cfg s) := by
  have hstart : Round cfg ({ s with ready := [] }.ready ++ s.ready) { s with ready := [] } :=
    h.round.setLoop
  obtain ⟨hmoments, hleft⟩ := drain_within hv s.ready false _ hstart hs
  obtain ⟨hround, heffect, -, -, -⟩ := drain_round hv s.ready false _ hstart
  refine ⟨fun ids hids => ?_, ?_⟩
  · rcases List.mem_cons.mp hids with rfl | hids
    · exact hs
    · split at hids
      · exact hmoments ids hids
      · simp at hids
  · by_cases hpos : 0 < s.pendingCount
    · have hcontrol : (drain cfg s.ready false { s with ready := [] }).1.control = .loop :=
        heffect.control.trans hloop
      simp only [iterate, hpos, if_true]
      generalize drain cfg s.ready false { s with ready := [] } = r at *
      split_ifs with hzero hdisp hidle
      · exact ⟨hleft, fun _ => hround.inv.core.running_eq_nil hround.inv.counters hzero⟩
      · exact ⟨hleft, by simp [Drained, hcontrol, Control.left]⟩
      · refine ⟨hleft, fun _ => ?_⟩
        change r.1.running = []
        cases hrun : r.1.running with
        | nil => rfl
        | cons x xs =>
          have hmem := hround.flight.running_inFlight x.1 (by simp [hrun])
          simp [hidle.1] at hmem
      · exact ⟨hleft, fun hout => absurd hout (by simp [Control.left])⟩
    · have hzero : s.pendingCount = 0 := by
        have := pendingCount_nonneg h.round.inv.counters
        omega
      have heq : iterate cfg s = leaveLoop s := by simp [iterate, hpos]
      rw [heq]
      exact ⟨hs, fun _ => h.round.inv.core.running_eq_nil h.round.inv.counters hzero⟩

structure Capped (cfg : Config V) (s : State V) : Prop where
  good : Good cfg s
  within : WithinCaps cfg (s.running.map Prod.fst)
  drained : Drained s

theorem init_capped (hv : cfg.Valid) : Capped cfg (init cfg) :=
  ⟨init_good hv, ⟨Nat.zero_le _, fun _ _ _ => Nat.zero_le _⟩, fun _ => rfl⟩

theorem step_capped (hv : cfg.Valid) {s t : State V} {a : Action} (h : Capped cfg s)
    (ha : step cfg s a = some t) : Capped cfg t := by
  have hgood := (step_good hv h.good ha).1
  rcases step_cases ha with ⟨hloop, rfl⟩ | ⟨op, promise, hop, hmem, rfl⟩ | ⟨g, hg, -, rfl⟩ |
    ⟨id, -, -, rfl⟩ | ⟨ps, hps, -, rfl⟩ | ⟨ps, hps, rfl⟩
  · obtain ⟨-, hwithin, hdrained⟩ := iterate_within hv h.good hloop h.within
    exact ⟨hgood, hwithin, hdrained⟩
  · have heffect := settleOp_effect hv (Plan.mem_ids.mpr ⟨op, hop⟩)
      { s with running := s.running.filter fun r => r.1 != op.id } promise
    have hrest : (s.running.filter fun r => r.1 != op.id).Sublist s.running :=
      List.filter_sublist
    refine ⟨hgood, ?_, fun hout => ?_⟩
    · rw [heffect.running]
      exact h.within.sublist (hrest.map _)
    · rw [heffect.control] at hout
      rw [heffect.running]
      exact List.eq_nil_of_sublist_nil (h.drained hout ▸ hrest)
  · exact ⟨hgood, h.within, fun hout => absurd hout (by simp [Control.left])⟩
  · exact ⟨hgood, h.within, h.drained⟩
  · exact ⟨hgood, h.within, fun _ => h.drained (by rw [hps]; rfl)⟩
  · exact ⟨hgood, h.within, fun _ => h.drained (by rw [hps]; rfl)⟩

theorem reachable_capped (hv : cfg.Valid) {s : State V} (h : Reachable (step cfg) (init cfg) s) :
    Capped cfg s :=
  h.invariant (fun _ _ _ hs ha => step_capped hv hs ha) (init_capped hv)

/-- Every moment is within the caps. -/
theorem Capped.moments (hv : cfg.Valid) {s : State V} (h : Capped cfg s) :
    ∀ ids ∈ moments cfg s, WithinCaps cfg ids := by
  by_cases hloop : s.control = .loop
  · exact (iterate_within hv h.good hloop h.within).1
  · intro ids hids
    rw [Executor.moments, if_neg fun hc => hloop hc.1, List.mem_singleton] at hids
    exact hids ▸ h.within

/-- The caps hold at every moment of every run, and the counters are zero when it returns. -/
theorem run_within_caps (host : Host) (opts : ExecutorOptions) (plan : Plan V) :
    ∃ cfg, configure host opts plan = .ok cfg ∧ cfg.plan = plan ∧
      cfg.globalCap = resolveGlobalCap host opts ∧ cfg.tagCaps = resolveTagCaps host opts ∧
      ∀ s, Reachable (step cfg) (init cfg) s →
        (∀ ids ∈ moments cfg s, WithinCaps cfg ids) ∧
        (s.control = .returned →
          s.globalInFlight = 0 ∧ ∀ tag n, s.tagInFlight tag = some n → n = 0) := by
  obtain ⟨cfg, hcfg, hplan, hv⟩ := configure_valid host opts plan
  have hcaps : cfg.globalCap = resolveGlobalCap host opts ∧
      cfg.tagCaps = resolveTagCaps host opts := by
    obtain ⟨order, hsort, -⟩ := plan.toposort_order
    rw [configure, hsort] at hcfg
    cases hcfg
    exact ⟨rfl, rfl⟩
  refine ⟨cfg, hcfg, hplan, hcaps.1, hcaps.2, fun s hs => ?_⟩
  have hcapped := reachable_capped hv hs
  refine ⟨hcapped.moments hv, fun hreturned => ?_⟩
  have hrun : s.running = [] := hcapped.drained (by rw [hreturned]; rfl)
  have hcounters := hcapped.good.round.inv.counters
  have hactive : s.active [] = [] := by rw [State.active, hrun]; rfl
  constructor
  · rw [hcounters.globalInFlight_eq, hactive]
    rfl
  · intro tag n hn
    have hcount := hcounters.tagInFlight_eq tag
    rwa [hn, hactive] at hcount

end Executor
end Batiste
