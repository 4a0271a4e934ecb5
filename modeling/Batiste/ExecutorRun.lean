import Batiste.ExecutorRound
import Batiste.Plan

/-! Whole runs of the executor: every run is finite, and where it stops it has returned. -/
namespace Batiste
namespace Executor

open Transition

variable {V : Type} {cfg : Config V}

/-- Nothing ready, nothing running and nothing rejected: everything is done or has failed. -/
theorem all_closed {s : State V} (h : Core cfg [] [] s) (hrun : s.running = [])
    (hrej : s.rejected = []) : ∀ id ∈ cfg.plan.ids, s.done id = true ∨ id ∈ s.failed := by
  apply cfg.plan.dag.induction (P := fun id => s.done id = true ∨ id ∈ s.failed)
  intro id hid hdeps
  by_cases hfail : ∃ d ∈ cfg.plan.depIds id, d ∈ s.failed
  · obtain ⟨d, hd, hdf⟩ := hfail
    exact Or.inr (h.failed_users id d hdf hd)
  · push Not at hfail
    have hcalled : id ∈ s.called := by
      by_contra hun
      have hmem := (h.ready_iff id hid).mpr
        ⟨hun, fun d hd => (hdeps d hd).resolve_right (hfail d hd)⟩
      simp at hmem
    have hcases := h.called_cases id hcalled
    simpa [State.active, hrun, hrej] using hcases

theorem pendingCount_eq_zero {limbo : List ℕ} {s : State V} (h : Counters cfg limbo s) :
    s.pendingCount = 0 ↔ ∀ id ∈ cfg.plan.ids, s.done id = true ∨ id ∈ s.failed := by
  rw [h.pendingCount_eq, Int.natCast_eq_zero, List.countP_eq_zero]
  simp only [Bool.and_eq_true, Bool.not_eq_true', decide_eq_true_eq, not_and, not_not]
  refine forall₂_congr fun id _ => ?_
  cases s.done id <;> simp

theorem pendingCount_nonneg {limbo : List ℕ} {s : State V} (h : Counters cfg limbo s) :
    0 ≤ s.pendingCount := by
  rw [h.pendingCount_eq]
  exact Int.natCast_nonneg _

/-- Once everything is done or has failed, nothing is running. -/
theorem Core.running_eq_nil {ready : List ℕ} {s : State V} (h : Core cfg [] ready s)
    (hc : Counters cfg [] s) (hzero : s.pendingCount = 0) : s.running = [] := by
  cases hrun : s.running with
  | nil => rfl
  | cons r rs =>
    have hmem : r.1 ∈ s.running.map Prod.fst := by simp [hrun]
    obtain ⟨hcalled, hopen, hfail, -⟩ := h.running_open hmem
    have hclosed := (pendingCount_eq_zero hc).mp hzero r.1 (h.called_mem_ids hcalled)
    simp [hopen, hfail] at hclosed

/-- With nothing running, every operation could be dispatched. -/
theorem canDispatch_idle (hv : cfg.Valid) {s : State V} (hc : Counters cfg [] s)
    (hrun : s.running = []) (op : Operation V) : canDispatch cfg s op = true := by
  have hglobal : s.globalInFlight = 0 := by simp [hc.globalInFlight_eq, State.active, hrun]
  have htag : ∀ tag, (s.tagInFlight tag).getD 0 = 0 := by
    intro tag
    simp [hc.tagInFlight_eq, State.active, hrun]
  have hpos := hv.globalCap_pos
  rw [canDispatch, hglobal, Bool.and_eq_true]
  refine ⟨by simpa using hpos, ?_⟩
  split
  · rfl
  · rename_i tag cap heq
    obtain ⟨tag', -, hmap⟩ := Option.bind_eq_some_iff.mp heq
    obtain ⟨cap', hcap, hpair⟩ := Option.map_eq_some_iff.mp hmap
    cases hpair
    simpa [htag] using hv.tagCap_pos tag cap hcap

/-- Where the scheduler can stand, and why it is woken from there. -/
def Phase (s : State V) : Prop :=
  match s.control with
  | .loop => True
  | .awaiting promise =>
    promise ≤ s.wakeups ∧ (promise = s.wakeups → s.rejected = [] → s.running ≠ [])
  | .draining promises => (s.rejected = [] → s.pendingCount = 0) ∧
    ∀ id ∈ promises, id ∈ s.running.map Prod.fst ∨ id ∈ s.fulfilled ∨ id ∈ s.rejected
  | .returned => s.rejected = [] → s.pendingCount = 0
  | .threw => s.rejected ≠ []

structure Good (cfg : Config V) (s : State V) : Prop where
  round : Round cfg s.ready s
  phase : Phase s

theorem init_good (hv : cfg.Valid) : Good cfg (init cfg) where
  round := ⟨⟨init_core hv, init_counters hv, init_log⟩,
    by simp [init], by simp [init], by simp [init]⟩
  phase := by simp [Phase, init]

def phaseWeight (s : State V) : ℕ :=
  match s.control with
  | .loop => 3
  | .awaiting promise => if promise < s.wakeups then 4 else 2
  | .draining _ => 1
  | .returned | .threw => 0

/-- Lowered by every step. -/
def rank (cfg : Config V) (s : State V) : ℕ := work cfg s + phaseWeight s

theorem work_setControl (cfg : Config V) (s : State V) (control : Control) :
    work cfg { s with control := control } = work cfg s := rfl

theorem leaveLoop_good {s : State V} (h : Round cfg s.ready s)
    (hzero : s.rejected = [] → s.pendingCount = 0) :
    Good cfg (leaveLoop s) ∧ rank cfg (leaveLoop s) = work cfg s + 1 :=
  ⟨⟨h.setLoop, hzero, h.flight.inFlight_cases⟩, rfl⟩

/-- A round keeps the invariant, changes no result and lowers the rank. -/
theorem iterate_good (hv : cfg.Valid) {s : State V} (h : Good cfg s) (hloop : s.control = .loop) :
    Good cfg (iterate cfg s) ∧ rank cfg (iterate cfg s) < rank cfg s ∧
      (iterate cfg s).results = s.results := by
  have hrank : rank cfg s = work cfg s + 3 := by simp [rank, phaseWeight, hloop]
  by_cases hpos : 0 < s.pendingCount
  · have hstart : Round cfg ({ s with ready := [] }.ready ++ s.ready) { s with ready := [] } :=
      h.round.setLoop
    obtain ⟨hround, heffect, hle, hyes, hno⟩ := drain_round hv s.ready false _ hstart
    have hwork : work cfg { s with ready := [] } = work cfg s := rfl
    have hresults : (drain cfg s.ready false { s with ready := [] }).1.results = s.results :=
      heffect.results
    have hcontrol : (drain cfg s.ready false { s with ready := [] }).1.control = .loop :=
      heffect.control.trans hloop
    rw [hwork] at hle hyes
    simp only [iterate, hpos, if_true]
    generalize drain cfg s.ready false { s with ready := [] } = r at *
    have hleave : (r.1.rejected = [] → r.1.pendingCount = 0) →
        Good cfg (leaveLoop r.1) ∧ rank cfg (leaveLoop r.1) < rank cfg s ∧
          (leaveLoop r.1).results = s.results := by
      intro hzero
      obtain ⟨hgood, hr⟩ := leaveLoop_good hround hzero
      exact ⟨hgood, by omega, hresults⟩
    split_ifs with hzero hdisp hidle
    · exact hleave fun _ => hzero
    · refine ⟨⟨hround, by simp [Phase, hcontrol]⟩, ?_, hresults⟩
      have hlt := (hyes hdisp).resolve_left (by simp)
      have hr : rank cfg r.1 = work cfg r.1 + 3 := by simp [rank, phaseWeight, hcontrol]
      omega
    · -- the bail-out: with nothing rejected, there would be a ready operation
      apply hleave
      intro hrej
      have hrun : r.1.running = [] := by
        cases hcase : r.1.running with
        | nil => rfl
        | cons x xs =>
          have hmem := hround.flight.running_inFlight x.1 (by simp [hcase])
          simp [hidle.1] at hmem
      have hcore := hround.inv.core
      rw [hidle.2] at hcore
      exact (pendingCount_eq_zero hround.inv.counters).mpr (all_closed hcore hrun hrej)
    · refine ⟨⟨hround.setLoop, le_refl _, fun _ hrej hrun => ?_⟩, ?_, hresults⟩
      · obtain ⟨-, hblocked, hstate⟩ := hno (by simpa using hdisp)
        have hready : r.1.ready = [] := by
          rw [hstate]
          refine List.eq_nil_iff_forall_not_mem.mpr fun id hid => ?_
          obtain ⟨op, hop⟩ := Plan.mem_ids.mp (h.round.inv.core.ready_ids id hid)
          have hfree := canDispatch_idle hv hstart.inv.counters (by rw [hstate] at hrun; exact hrun) op
          rw [hblocked id hid op hop] at hfree
          exact Bool.false_ne_true hfree
        have hcore := hround.inv.core
        rw [hready] at hcore
        exact hzero ((pendingCount_eq_zero hround.inv.counters).mpr (all_closed hcore hrun hrej))
      · have hr : rank cfg { r.1 with control := .awaiting r.1.wakeups } = work cfg r.1 + 2 := by
          simp [rank, phaseWeight, work_setControl]
        refine lt_of_eq_of_lt hr ?_
        omega
  · have hnonneg := pendingCount_nonneg h.round.inv.counters
    have hzero : s.pendingCount = 0 := by omega
    have heq : iterate cfg s = leaveLoop s := by simp [iterate, hpos]
    rw [heq]
    obtain ⟨hgood, hr⟩ := leaveLoop_good h.round fun _ => hzero
    exact ⟨hgood, by omega, rfl⟩

/-- The continuation after an awaited `fn` keeps the invariant and lowers the rank. -/
theorem settle_good (hv : cfg.Valid) {s : State V} (h : Good cfg s) {op : Operation V}
    {promise : Settlement V} (hop : cfg.plan.op? op.id = some op)
    (hmem : (op.id, promise) ∈ s.running) {t : State V}
    (ht : t = settleOp cfg op { s with running := s.running.filter fun r => r.1 != op.id } promise) :
    Good cfg t ∧ rank cfg t < rank cfg s := by
  have hid : op.id ∈ cfg.plan.ids := Plan.mem_ids.mpr ⟨op, hop⟩
  have hcore := h.round.inv.core
  have hflight := h.round.flight
  have hact := active_take hcore.active_nodup hmem
  have hrest : ∀ r ∈ s.running.filter fun r => r.1 != op.id, r ∈ s.running :=
    fun r hr => (List.mem_filter.mp hr).1
  have hlimbo : Inv cfg [op.id] s.ready
      { s with running := s.running.filter fun r => r.1 != op.id } :=
    h.round.inv.move hact fun r hr => hcore.running_gave r (hrest r hr)
  have hgave : State.Gave cfg { s with running := s.running.filter fun r => r.1 != op.id }
      op.id promise := by
    have hcall := hcore.running_gave _ hmem
    cases promise with
    | resolve v => exact hcall
    | reject err => exact Or.inr hcall
  obtain ⟨more, hready, hinv⟩ := settleOp_inv hv hop hlimbo hgave
  have heffect := settleOp_effect hv hid
    { s with running := s.running.filter fun r => r.1 != op.id } promise
  rw [← ht] at hready hinv heffect
  have hgone : ∀ id ∈ s.running.map Prod.fst,
      id = op.id ∨ id ∈ (s.running.filter fun r => r.1 != op.id).map Prod.fst := by
    intro id hid
    obtain ⟨r, hr, rfl⟩ := List.mem_map.mp hid
    by_cases heq : r.1 = op.id
    · exact Or.inl heq
    · exact Or.inr (List.mem_map_of_mem (List.mem_filter.mpr ⟨hr, by simpa using heq⟩))
  have hcases : ∀ id, id ∈ s.running.map Prod.fst ∨ id ∈ s.fulfilled ∨ id ∈ s.rejected →
      id = op.id ∨ id ∈ (s.running.filter fun r => r.1 != op.id).map Prod.fst ∨
        id ∈ s.fulfilled ∨ id ∈ s.rejected := by
    intro id hor
    rcases hor with hr | hor
    · exact (hgone id hr).imp_right Or.inl
    · exact Or.inr (Or.inr hor)
  have hrejected : t.rejected = [] → s.rejected = [] := by
    intro hrej
    rcases heffect.outcome with ⟨-, hrej', -⟩ | ⟨-, hrej'⟩
    · exact hrej'.symm.trans hrej
    · exact absurd (hrej'.symm.trans hrej) (List.cons_ne_nil _ _)
  have hbusy : s.pendingCount ≠ 0 := by
    intro hzero
    have hnil := hcore.running_eq_nil h.round.inv.counters hzero
    rw [hnil] at hmem
    simp at hmem
  have hphase := h.phase
  refine ⟨⟨⟨hready ▸ hinv, ?_⟩, ?_⟩, ?_⟩
  · refine heffect.flight ?_ (fun id hin => hcases id (hflight.inFlight_cases id hin))
      hflight.fulfilled_closed
    intro id hin
    obtain ⟨r, hr, rfl⟩ := List.mem_map.mp hin
    exact hflight.running_inFlight r.1 (List.mem_map_of_mem (hrest r hr))
  · unfold Phase at hphase ⊢
    rw [heffect.control]
    have hwake : t.wakeups = s.wakeups + 1 := heffect.wakeups
    have hrun : t.running = s.running.filter fun r => r.1 != op.id := heffect.running
    cases hcontrol : s.control with
    | loop => trivial
    | awaiting g =>
      simp only [hcontrol] at hphase ⊢
      exact ⟨by omega, fun hg => by omega⟩
    | draining ps =>
      simp only [hcontrol] at hphase ⊢
      refine ⟨fun hrej => absurd (hphase.1 (hrejected hrej)) hbusy, fun id hin => ?_⟩
      rw [hrun]
      have hor := hcases id (hphase.2 id hin)
      rcases heffect.outcome with ⟨hful, hrej, -⟩ | ⟨hful, hrej⟩
      · rw [hful, hrej]
        simp only [List.mem_cons]
        tauto
      · rw [hful, hrej]
        simp only [List.mem_cons]
        tauto
    | returned =>
      simp only [hcontrol] at hphase ⊢
      exact fun hrej => absurd (hphase (hrejected hrej)) hbusy
    | threw =>
      simp only [hcontrol] at hphase ⊢
      exact fun hrej => hphase (hrejected hrej)
  · have hfewer : (s.running.filter fun r => r.1 != op.id).length < s.running.length :=
      List.length_filter_lt_length_iff_exists.mpr ⟨_, hmem, by simp⟩
    have hcalled : ∀ id ∈ s.called, id ∈ t.called := by
      intro id hc
      simpa [State.called, heffect.calls] using hc
    have hle : uncalled cfg t ≤ uncalled cfg s := uncalled_le hcalled heffect.failed
    have hweight : phaseWeight t ≤ phaseWeight s + 2 := by
      simp only [phaseWeight, heffect.control]
      cases s.control with
      | awaiting g => simp only; split_ifs <;> omega
      | _ => simp
    have hrun : t.running = s.running.filter fun r => r.1 != op.id := heffect.running
    have hin : t.inFlight = s.inFlight := heffect.inFlight
    simp only [rank, work, hrun, hin]
    omega

/-- Everything a step can do. -/
theorem step_cases {s t : State V} {a : Action} (hs : step cfg s a = some t) :
    (s.control = .loop ∧ t = iterate cfg s) ∨
    (∃ op promise, cfg.plan.op? op.id = some op ∧ (op.id, promise) ∈ s.running ∧
      t = settleOp cfg op { s with running := s.running.filter fun r => r.1 != op.id } promise) ∨
    (∃ promise, s.control = .awaiting promise ∧ promise < s.wakeups ∧
      t = { s with control := .loop }) ∨
    (∃ id ∈ s.inFlight, (id ∈ s.fulfilled ∨ id ∈ s.rejected) ∧
      t = { s with inFlight := s.inFlight.erase id }) ∨
    (∃ promises, s.control = .draining promises ∧ (∃ id ∈ promises, id ∈ s.rejected) ∧
      t = { s with control := .threw }) ∨
    (∃ promises, s.control = .draining promises ∧ t = { s with control := .returned }) := by
  cases a with
  | iterate =>
    simp only [step] at hs
    split_ifs at hs with hloop
    exact Or.inl ⟨hloop, (Option.some.inj hs).symm⟩
  | settle id =>
    simp only [step] at hs
    split_ifs at hs
    split at hs
    · rename_i id' promise op hfind hop
      obtain ⟨hmem, rfl⟩ := Plan.op?_mem hop
      have hin := List.mem_of_find?_eq_some hfind
      obtain rfl : id' = op.id := by simpa using List.find?_some hfind
      exact Or.inr (Or.inl ⟨op, promise, hop, hin, (Option.some.inj hs).symm⟩)
    · cases hs
  | resume =>
    simp only [step] at hs
    split at hs
    · rename_i promise hcontrol
      split_ifs at hs with hlt
      exact Or.inr (Or.inr (Or.inl ⟨promise, hcontrol, hlt, (Option.some.inj hs).symm⟩))
    · cases hs
  | reap id =>
    simp only [step] at hs
    split_ifs at hs with hcond
    exact Or.inr (Or.inr (Or.inr (Or.inl ⟨id, hcond.2.1, hcond.2.2, (Option.some.inj hs).symm⟩)))
  | finish =>
    simp only [step] at hs
    split at hs
    · rename_i promises hcontrol
      split_ifs at hs with hrej hful
      · have hany : ∃ id ∈ promises, id ∈ s.rejected := by simpa using hrej
        exact Or.inr (Or.inr (Or.inr (Or.inr (Or.inl
          ⟨promises, hcontrol, hany, (Option.some.inj hs).symm⟩))))
      · exact Or.inr (Or.inr (Or.inr (Or.inr (Or.inr
          ⟨promises, hcontrol, (Option.some.inj hs).symm⟩))))
    · cases hs

theorem reap_good {s : State V} (h : Good cfg s) {id : ℕ} (hin : id ∈ s.inFlight)
    (hdone : id ∈ s.fulfilled ∨ id ∈ s.rejected) :
    Good cfg { s with inFlight := s.inFlight.erase id } ∧
      rank cfg { s with inFlight := s.inFlight.erase id } < rank cfg s := by
  have hidle : id ∉ s.running.map Prod.fst := by
    intro hrun
    obtain ⟨-, hopen, hfail, hrej⟩ := h.round.inv.core.running_open hrun
    rcases hdone with hful | hrej'
    · have hclosed := h.round.flight.fulfilled_closed id hful
      simp [hopen, hfail] at hclosed
    · exact hrej hrej'
  refine ⟨⟨⟨h.round.inv.setLoop, ?_, ?_, h.round.flight.fulfilled_closed⟩, h.phase⟩, ?_⟩
  · intro i hi
    have hne : i ≠ id := fun hne => hidle (hne ▸ hi)
    exact (List.mem_erase_of_ne hne).mpr (h.round.flight.running_inFlight i hi)
  · exact fun i hi => h.round.flight.inFlight_cases i (List.mem_of_mem_erase hi)
  · have hlen := List.length_erase_of_mem hin
    have hpos := List.length_pos_of_mem hin
    have hun : uncalled cfg { s with inFlight := s.inFlight.erase id } = uncalled cfg s := rfl
    have hweight : phaseWeight { s with inFlight := s.inFlight.erase id } = phaseWeight s := rfl
    simp only [rank, work, hun, hweight, hlen]
    omega

/-- Every step keeps the invariant and lowers the rank. -/
theorem step_good (hv : cfg.Valid) {s t : State V} {a : Action} (h : Good cfg s)
    (hs : step cfg s a = some t) : Good cfg t ∧ rank cfg t < rank cfg s := by
  have hphase := h.phase
  rcases step_cases hs with ⟨hloop, rfl⟩ | ⟨op, promise, hop, hmem, ht⟩ | ⟨g, hcontrol, hlt, rfl⟩ |
    ⟨id, hin, hdone, rfl⟩ | ⟨ps, hcontrol, ⟨id, -, hrej⟩, rfl⟩ | ⟨ps, hcontrol, rfl⟩
  · have hgood := iterate_good hv h hloop
    exact ⟨hgood.1, hgood.2.1⟩
  · exact settle_good hv h hop hmem ht
  · refine ⟨⟨h.round.setLoop, trivial⟩, ?_⟩
    have hold : phaseWeight s = 4 := by simp [phaseWeight, hcontrol, hlt]
    have hnew : phaseWeight { s with control := .loop } = 3 := rfl
    simp only [rank, work_setControl, hold, hnew]
    omega
  · exact reap_good h hin hdone
  · refine ⟨⟨h.round.setLoop, fun hnil => ?_⟩, ?_⟩
    · have hnil' : s.rejected = [] := hnil
      simp [hnil'] at hrej
    · have hold : phaseWeight s = 1 := by simp [phaseWeight, hcontrol]
      have hnew : phaseWeight { s with control := .threw } = 0 := rfl
      simp only [rank, work_setControl, hold, hnew]
      omega
  · have hzero : s.rejected = [] → s.pendingCount = 0 := by
      simp only [Phase, hcontrol] at hphase
      exact hphase.1
    refine ⟨⟨h.round.setLoop, hzero⟩, ?_⟩
    have hold : phaseWeight s = 1 := by simp [phaseWeight, hcontrol]
    have hnew : phaseWeight { s with control := .returned } = 0 := rfl
    simp only [rank, work_setControl, hold, hnew]
    omega

/-- A step that calls anything changes no result. -/
theorem step_calls (hv : cfg.Valid) {s t : State V} {a : Action} (h : Good cfg s)
    (hs : step cfg s a = some t) : t.calls = s.calls ∨ t.results = s.results := by
  rcases step_cases hs with ⟨hloop, rfl⟩ | ⟨op, promise, hop, hmem, rfl⟩ | ⟨g, -, -, rfl⟩ |
    ⟨id, -, -, rfl⟩ | ⟨ps, -, -, rfl⟩ | ⟨ps, -, rfl⟩
  · exact Or.inr (iterate_good hv h hloop).2.2
  · exact Or.inl (settleOp_effect hv (Plan.mem_ids.mpr ⟨op, hop⟩) _ promise).calls
  all_goals exact Or.inl rfl

/-- With nothing rejected, the executor stops only after it has returned. -/
theorem stuck_returned {s : State V} (h : Good cfg s) (hstuck : Stuck (step cfg) s)
    (hrej : s.rejected = []) : s.control = .returned := by
  have hphase := h.phase
  have hidle : s.control ≠ .loop → s.running = [] := by
    intro hcontrol
    cases hrun : s.running with
    | nil => rfl
    | cons r rs =>
      have hmem : r ∈ s.running := by simp [hrun]
      have hcalled := (h.round.inv.core.running_open (List.mem_map_of_mem (f := Prod.fst) hmem)).1
      obtain ⟨op, hop⟩ := Plan.mem_ids.mp (h.round.inv.core.called_mem_ids hcalled)
      have hno := hstuck (.settle r.1)
      have hfind : s.running.find? (fun r' => r'.1 == r.1) = some r := by simp [hrun]
      simp [step, hcontrol, hfind, hop] at hno
  cases hcontrol : s.control with
  | loop =>
    have hno := hstuck .iterate
    simp [step, hcontrol] at hno
  | awaiting g =>
    have hno := hstuck .resume
    simp only [step, hcontrol] at hno
    simp only [Phase, hcontrol] at hphase
    split_ifs at hno with hlt
    exact absurd (hidle (by simp [hcontrol])) (hphase.2 (by omega) hrej)
  | draining ps =>
    have hno := hstuck .finish
    have hrun := hidle (by simp [hcontrol])
    simp only [Phase, hcontrol, hrun, hrej] at hphase
    have hful : ∀ id ∈ ps, id ∈ s.fulfilled := by
      intro id hid
      simpa using hphase.2 id hid
    simp only [step, hcontrol, hrej] at hno
    simp only [List.any_eq_true, List.not_mem_nil] at hno
    simp at hno
    obtain ⟨id, hid, hne⟩ := hno
    exact absurd (hful id hid) hne
  | returned => rfl
  | threw =>
    simp only [Phase, hcontrol] at hphase
    exact absurd hrej hphase

theorem reachable_good (hv : cfg.Valid) {s : State V} (h : Reachable (step cfg) (init cfg) s) :
    Good cfg s :=
  h.invariant (fun _ _ _ hs ha => (step_good hv hs ha).1) (init_good hv)

/-- Every run is at most as long as the rank of the start. -/
theorem run_bounded (hv : cfg.Valid) {s : State V} {as : List Action}
    (h : run (step cfg) (init cfg) as = some s) : as.length ≤ rank cfg (init cfg) := by
  have hlen := run_length_le (rank cfg) (fun s a t hs ha => (step_good (a := a) hv hs ha).1)
    (fun s a t hs ha => (step_good (a := a) hv hs ha).2) (init_good hv) h
  omega

end Executor
end Batiste
