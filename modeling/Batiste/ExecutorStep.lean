import Batiste.ExecutorInvariant

/-! Each stretch of `runOp` keeps the invariant of the executor. -/
namespace Batiste
namespace Executor

variable {V : Type} {cfg : Config V}

/-- Taking listed elements out of a count. -/
theorem countP_remove {l r : List ℕ} {p : ℕ → Bool} (hl : l.Nodup) (hr : r.Nodup)
    (hmem : ∀ x ∈ r, x ∈ l ∧ p x = true) :
    (l.countP fun x => p x && decide (x ∉ r)) + r.length = l.countP p := by
  have hsplit := List.countP_eq_countP_filter_add l p fun x => decide (x ∈ r)
  have hperm : (l.filter fun x => p x && decide (x ∈ r)).Perm r := by
    refine (List.perm_ext_iff_of_nodup (hl.filter _) hr).mpr fun x => ?_
    simp only [List.mem_filter, Bool.and_eq_true, decide_eq_true_eq]
    exact ⟨fun h => h.2.2, fun h => ⟨(hmem x h).1, (hmem x h).2, h⟩⟩
  have hlen := hperm.length_eq
  rw [← List.countP_eq_length_filter] at hlen
  rw [List.countP_filter, List.countP_filter, hlen] at hsplit
  simp only [decide_not] at hsplit ⊢
  omega

/-- A state that differs only in where its active operations are kept. -/
theorem Core.frame {limbo limbo' ready : List ℕ} {s t : State V} (h : Core cfg limbo ready s)
    (hcalls : t.calls = s.calls) (hres : t.results = s.results) (hfail : t.failed = s.failed)
    (hrej : t.rejected = s.rejected) (hpend : t.pending = s.pending)
    (hact : (t.active limbo').Perm (s.active limbo))
    (hrun : ∀ r ∈ t.running, s.CallGave cfg r.1 (.returns r.2)) : Core cfg limbo' ready t := by
  have hcalled : t.called = s.called := by simp [State.called, hcalls]
  have hdone : t.done = s.done := by
    funext id
    simp [State.done, hres]
  have hgave : ∀ id out, t.CallGave cfg id out ↔ s.CallGave cfg id out := by
    intro id out
    simp [State.CallGave, hcalls]
  have hfailed : ∀ id err, t.CallFailed cfg id err ↔ s.CallFailed cfg id err := by
    intro id err
    simp [State.CallFailed, hgave]
  constructor
  case ready_nodup => exact h.ready_nodup
  case ready_ids => exact h.ready_ids
  case ready_iff => simpa [hcalled, hdone] using h.ready_iff
  case calls_nodup => simpa [hcalled] using h.calls_nodup
  case calls_ctx => simpa [hcalls, hres, hdone] using h.calls_ctx
  case active_nodup => exact hact.nodup_iff.mpr h.active_nodup
  case active_open => simpa [hcalled, hdone, hfail, hrej, hact.mem_iff] using h.active_open
  case called_cases => simpa [hcalled, hdone, hfail, hrej, hact.mem_iff] using h.called_cases
  case running_gave => simpa [hgave] using hrun
  case results_gave => simpa [hres, hgave, hfail] using h.results_gave
  case failed_nodup => simpa [hfail] using h.failed_nodup
  case failed_cause => simpa [hfail, hfailed, hcalled] using h.failed_cause
  case failed_users => simpa [hfail] using h.failed_users
  case rejected_gave => simpa [hrej, hdone, hfail, hfailed] using h.rejected_gave
  case pending_eq => simpa [hpend, hdone] using h.pending_eq

theorem Counters.frame {limbo limbo' : List ℕ} {s t : State V} (h : Counters cfg limbo s)
    (hres : t.results = s.results) (hfail : t.failed = s.failed)
    (hcount : t.pendingCount = s.pendingCount) (hglobal : t.globalInFlight = s.globalInFlight)
    (htag : t.tagInFlight = s.tagInFlight) (hact : (t.active limbo').Perm (s.active limbo)) :
    Counters cfg limbo' t := by
  have hdone : t.done = s.done := by
    funext id
    simp [State.done, hres]
  constructor
  · simpa [hdone, hfail, hcount] using h.pendingCount_eq
  · simpa [hglobal, hact.length_eq] using h.globalInFlight_eq
  · simpa [htag, hact.countP_eq] using h.tagInFlight_eq

theorem Log.frame {s t : State V} (h : Log s) (hres : t.results = s.results)
    (hfail : t.failed = s.failed) (hcalls : t.calls = s.calls) (hlin : t.lineage = s.lineage) :
    Log t := by
  constructor
  · simpa [State.done, hres, hfail, hlin] using h.ends
  · simpa [State.called, hcalls, hlin] using h.starts

/-- A settled promise leaves `running` and its operation is in limbo. -/
theorem active_take {s : State V} {id : ℕ} {promise : Settlement V}
    (hnd : (s.active []).Nodup) (hmem : (id, promise) ∈ s.running) :
    (State.active [id] { s with running := s.running.filter fun r => r.1 != id }).Perm
      (s.active []) := by
  simp only [State.active, List.append_nil] at hnd ⊢
  have hrest : (s.running.filter fun r => r.1 != id).map Prod.fst = (s.running.map Prod.fst).erase id := by
    rw [hnd.erase_eq_filter, List.filter_map]
    rfl
  rw [hrest]
  exact (List.perm_append_singleton _ _).trans
    (List.perm_cons_erase (List.mem_map_of_mem (f := Prod.fst) hmem)).symm

/-- The operation in limbo is called and open, and it is not `running`. -/
theorem Core.limbo_open {id : ℕ} {ready : List ℕ} {s : State V} (h : Core cfg [id] ready s) :
    id ∈ s.called ∧ s.done id = false ∧ id ∉ s.failed ∧ id ∉ s.rejected ∧
      id ∉ s.running.map Prod.fst := by
  obtain ⟨hcalled, hdone, hfail, hrej⟩ := h.active_open id (by simp [State.active])
  refine ⟨hcalled, hdone, hfail, hrej, fun hrun => ?_⟩
  exact (List.nodup_append.mp h.active_nodup).2.2 id hrun id (by simp) rfl

theorem Core.running_open {limbo ready : List ℕ} {s : State V} (h : Core cfg limbo ready s)
    {id : ℕ} (hid : id ∈ s.running.map Prod.fst) :
    id ∈ s.called ∧ s.done id = false ∧ id ∉ s.failed ∧ id ∉ s.rejected :=
  h.active_open id (List.mem_append_left _ hid)

/-- The invariant, with the ready queue and the operation in limbo as parameters. -/
structure Inv (cfg : Config V) (limbo ready : List ℕ) (s : State V) : Prop where
  core : Core cfg limbo ready s
  counters : Counters cfg limbo s
  log : Log s

/-- Active operations may move between `running` and limbo; what else the loop keeps for itself
is not read. -/
theorem Inv.move {limbo limbo' ready queue inFlight : List ℕ} {s : State V} {control : Control}
    {running : List (ℕ × Settlement V)} (h : Inv cfg limbo ready s)
    (hact : (State.active limbo' { s with running := running }).Perm (s.active limbo))
    (hrun : ∀ r ∈ running, s.CallGave cfg r.1 (.returns r.2)) :
    Inv cfg limbo' ready
      { s with control := control, ready := queue, running := running, inFlight := inFlight } :=
  ⟨h.core.frame rfl rfl rfl rfl rfl hact hrun, h.counters.frame rfl rfl rfl rfl rfl hact,
    h.log.frame rfl rfl rfl rfl⟩

theorem Inv.setLoop {limbo ready queue inFlight : List ℕ} {s : State V} {control : Control}
    (h : Inv cfg limbo ready s) :
    Inv cfg limbo ready { s with control := control, ready := queue, inFlight := inFlight } :=
  h.move (List.Perm.refl _) h.core.running_gave

section Succeed

variable {op : Operation V} {ready : List ℕ} {s : State V}

/-- The operations released by a success. -/
def released (cfg : Config V) (op : Operation V) (s : State V) : List ℕ :=
  (Countdown.release 1 (fun id => decide (id ∉ s.failed)) (dependents cfg op.id) s.pending).2

theorem done_succeedOp (op : Operation V) (v : V) (s : State V) (id : ℕ) :
    (succeedOp cfg op v s).done id = (s.done id || decide (id = op.id)) := by
  by_cases h : id = op.id <;> simp [State.done, succeedOp, h]

theorem mem_ids_of_dep (hv : cfg.Valid) {id d : ℕ} (h : d ∈ cfg.plan.depIds id) :
    id ∈ cfg.plan.ids :=
  hv.mem_order.mp ((Countdown.mem_users hv.nodup _ _ _).mp (hv.mem_dependents.mpr h)).1

/-- A success releases the users whose last open dependency it was. -/
theorem mem_released (hv : cfg.Valid) (h : Core cfg [op.id] ready s) {id : ℕ} :
    id ∈ released cfg op s ↔ id ∉ s.failed ∧ op.id ∈ cfg.plan.depIds id ∧
      ∀ d ∈ cfg.plan.depIds id, s.done d = true ∨ d = op.id := by
  have hopen := h.limbo_open.2.1
  have hsum : ∀ x, Countdown.openUses cfg.plan.depIds s.done x = _ :=
    Countdown.openUses_finish hopen (fun _ => rfl)
  have hzero : Countdown.openUses cfg.plan.depIds
      (fun d => s.done d || decide (d = op.id)) id = 0 ↔ _ := Countdown.openUses_eq_zero
  simp only [Bool.or_eq_true, decide_eq_true_eq] at hzero
  by_cases hid : id ∈ cfg.plan.ids
  · rw [released, Countdown.mem_release (h.pending_eq id hid), hv.count_dependents hid, ← hzero,
      ← List.count_pos_iff (a := op.id)]
    have hsum := hsum id
    simp only [decide_eq_true_eq]
    refine and_congr_right fun _ => ?_
    omega
  · refine ⟨fun hrel => ?_, fun hrel => absurd (mem_ids_of_dep hv hrel.2.1) hid⟩
    have huse := hv.mem_dependents.mp (Countdown.release_subset _ _ _ _ hrel)
    exact absurd (mem_ids_of_dep hv huse) hid

theorem released_nodup (hv : cfg.Valid) (h : Core cfg [op.id] ready s) :
    (released cfg op s).Nodup := by
  apply Countdown.release_nodup
  intro id hid
  exact ⟨_, h.pending_eq id (mem_ids_of_dep hv (hv.mem_dependents.mp hid))⟩

theorem succeedOp_core (hv : cfg.Valid) (h : Core cfg [op.id] ready s) {v : V}
    (hgave : s.CallGave cfg op.id (.returns (.resolve v))) :
    Core cfg [] (ready ++ released cfg op s) (succeedOp cfg op v s) := by
  have hopen := h.limbo_open
  have hdone : ∀ id, (succeedOp cfg op v s).done id = _ := done_succeedOp op v s
  have hactive : (succeedOp cfg op v s).active [] = s.running.map Prod.fst := by
    simp [State.active, succeedOp]
  constructor
  case ready_nodup =>
    refine List.nodup_append.mpr ⟨h.ready_nodup, released_nodup hv h, ?_⟩
    rintro id hid _ hrel rfl
    have hdeps := ((h.ready_iff id (h.ready_ids id hid)).mp hid).2
    have huse := ((mem_released hv h).mp hrel).2.1
    simp [hdeps _ huse] at hopen
  case ready_ids =>
    intro id hid
    rcases List.mem_append.mp hid with hid | hid
    · exact h.ready_ids id hid
    · exact mem_ids_of_dep hv ((mem_released hv h).mp hid).2.1
  case ready_iff =>
    intro id hid
    have hready := h.ready_iff id hid
    simp only [hdone, Bool.or_eq_true, decide_eq_true_eq, List.mem_append, mem_released hv h]
    constructor
    · rintro (hr | ⟨-, huse, hdeps⟩)
      · exact ⟨(hready.mp hr).1, fun d hd => Or.inl ((hready.mp hr).2 d hd)⟩
      · exact ⟨h.user_uncalled hopen.2.1 huse, hdeps⟩
    · rintro ⟨hun, hdeps⟩
      by_cases huse : op.id ∈ cfg.plan.depIds id
      · refine Or.inr ⟨fun hf => ?_, huse, hdeps⟩
        rcases (h.failed_cause id hf).2 with ⟨err, message, hcall, -⟩ | ⟨-, d, hd, hdf⟩
        · exact hun hcall.called
        · rcases hdeps d hd with hdd | rfl
          · exact h.done_notMem_failed hdd hdf
          · exact hopen.2.2.1 hdf
      · refine Or.inl (hready.mpr ⟨hun, fun d hd => (hdeps d hd).resolve_right ?_⟩)
        rintro rfl
        exact huse hd
  case calls_nodup => exact h.calls_nodup
  case calls_ctx =>
    intro c hc
    obtain ⟨hid, hctx, hdeps⟩ := h.calls_ctx c hc
    refine ⟨hid, hctx.trans (List.map_congr_left fun d hd => ?_), fun d hd => ?_⟩
    · have hne : d ≠ op.id := by
        rintro rfl
        simp [hdeps _ hd] at hopen
      simp [succeedOp, Function.update_of_ne hne]
    · simp [hdone, hdeps d hd]
  case active_nodup =>
    rw [hactive]
    exact (List.nodup_append.mp h.active_nodup).1
  case active_open =>
    intro id hid
    rw [hactive] at hid
    obtain ⟨hcalled, hopen', hfail, hrej⟩ := h.running_open hid
    have hne : id ≠ op.id := fun hne => hopen.2.2.2.2 (hne ▸ hid)
    exact ⟨hcalled, by simp [hdone, hopen', hne], hfail, hrej⟩
  case called_cases =>
    intro id hid
    rw [hactive, hdone]
    have hcases := h.called_cases id hid
    simp only [State.active, List.mem_append, List.mem_singleton] at hcases
    rcases hcases with (hrun | rfl) | hd | hf | hr
    · exact Or.inl hrun
    · simp
    · simp [hd]
    · exact Or.inr (Or.inr (Or.inl hf))
    · exact Or.inr (Or.inr (Or.inr hr))
  case running_gave => exact h.running_gave
  case results_gave =>
    intro id w hw
    by_cases hid : id = op.id
    · subst hid
      obtain rfl : v = w := by simpa [succeedOp] using hw
      exact ⟨hgave, hopen.2.2.1⟩
    · exact h.results_gave id w (by simpa [succeedOp, Function.update_of_ne hid] using hw)
  case failed_nodup => exact h.failed_nodup
  case failed_cause => exact h.failed_cause
  case failed_users => exact h.failed_users
  case rejected_gave =>
    intro id hid
    obtain ⟨hd, hf, hcall⟩ := h.rejected_gave id hid
    have hne : id ≠ op.id := fun hne => hopen.2.2.2.1 (hne ▸ hid)
    exact ⟨by simp [hdone, hd, hne], hf, hcall⟩
  case pending_eq =>
    intro id hid
    have hsum : Countdown.openUses cfg.plan.depIds s.done id = _ :=
      Countdown.openUses_finish hopen.2.1 hdone id
    have hrel := Countdown.release_counter 1 (fun id => decide (id ∉ s.failed))
      (dependents cfg op.id) (h.pending_eq id hid)
    rw [hv.count_dependents hid, hsum] at hrel
    simpa [succeedOp] using hrel

end Succeed

section Fail

variable {op : Operation V} {ready : List ℕ} {s : State V} {message : String}

/-- The operations skipped by a failure. -/
def failSkips (cfg : Config V) (op : Operation V) (s : State V) : List ℕ :=
  skipped cfg op.id (op.id :: s.failed)

theorem failOp_eq (hv : cfg.Valid) (hid : op.id ∈ cfg.plan.ids) (message : String) (s : State V) :
    failOp cfg op message s = skipAll cfg op.name (failSkips cfg op s)
      { s with
        failed := op.id :: s.failed
        failureReason := Function.update s.failureReason op.id (some op.name)
        lineage := s.lineage ++ [(op.id, .finish op.name op.tag .error (some message))]
        pendingCount := s.pendingCount - 1 } := by
  rw [failOp, cascadeSkip_eq hv hid]
  rfl

/-- Whatever a failure skips has not been called, and can never be. -/
theorem failSkips_uncalled (hv : cfg.Valid) (h : Core cfg [op.id] ready s) :
    ∀ id ∈ failSkips cfg op s, id ∉ s.called :=
  skipped_induction hv _ (fun _ huse => h.user_uncalled h.limbo_open.2.1 huse)
    fun _ _ hd huse => h.user_uncalled (h.uncalled_open hd) huse

theorem failSkips_fresh (cfg : Config V) (op : Operation V) (s : State V) :
    (failSkips cfg op s).Nodup ∧
      ∀ id ∈ failSkips cfg op s, id ≠ op.id ∧ id ∉ s.failed := by
  obtain ⟨hnd, hfresh⟩ := skipped_fresh cfg op.id (op.id :: s.failed)
  refine ⟨hnd, fun id hid => ?_⟩
  have hno := hfresh id hid
  simp only [List.mem_cons, not_or] at hno
  exact hno

theorem mem_failed_failOp (hv : cfg.Valid) (hid : op.id ∈ cfg.plan.ids) {id : ℕ} :
    id ∈ (failOp cfg op message s).failed ↔
      id ∈ failSkips cfg op s ∨ id = op.id ∨ id ∈ s.failed := by
  simp [failOp_eq hv hid, skipAll]

theorem failOp_core (hv : cfg.Valid) (h : Core cfg [op.id] ready s) {err : Thrown}
    (hcall : s.CallFailed cfg op.id err) (hmsg : err.message? = some message) :
    Core cfg [] ready (failOp cfg op message s) := by
  have hid := h.called_mem_ids hcall.called
  have hopen := h.limbo_open
  have hun := failSkips_uncalled hv h
  have hfresh := failSkips_fresh cfg op s
  have hmem : ∀ id, id ∈ (failOp cfg op message s).failed ↔ _ :=
    fun id => mem_failed_failOp hv hid
  have hstill : ∀ id, id ∈ s.called → id ≠ op.id → id ∉ s.failed →
      id ∉ (failOp cfg op message s).failed := by
    intro i hcalled hne hfail
    rw [hmem]
    rintro (hskip | heq | hold)
    · exact hun i hskip hcalled
    · exact hne heq
    · exact hfail hold
  have heq := failOp_eq hv hid message s
  have hcalls : (failOp cfg op message s).calls = s.calls := by rw [heq]; rfl
  have hresults : (failOp cfg op message s).results = s.results := by rw [heq]; rfl
  have hrunning : (failOp cfg op message s).running = s.running := by rw [heq]; rfl
  have hrejected : (failOp cfg op message s).rejected = s.rejected := by rw [heq]; rfl
  have hpending : (failOp cfg op message s).pending = s.pending := by rw [heq]; rfl
  have hfailed : (failOp cfg op message s).failed =
      (failSkips cfg op s).reverse ++ op.id :: s.failed := by rw [heq]; rfl
  generalize failOp cfg op message s = t at *
  have hcalled : t.called = s.called := by simp [State.called, hcalls]
  have hdone : t.done = s.done := by
    funext i
    simp [State.done, hresults]
  have hactive : t.active [] = s.running.map Prod.fst := by simp [State.active, hrunning]
  have hgave : ∀ i out, t.CallGave cfg i out ↔ s.CallGave cfg i out := by
    intro i out
    simp [State.CallGave, hcalls]
  have hcf : ∀ i err, t.CallFailed cfg i err ↔ s.CallFailed cfg i err := by
    intro i err
    simp [State.CallFailed, hgave]
  constructor
  case ready_nodup => exact h.ready_nodup
  case ready_ids => exact h.ready_ids
  case ready_iff => simpa [hcalled, hdone] using h.ready_iff
  case calls_nodup => simpa [hcalled] using h.calls_nodup
  case calls_ctx => simpa [hcalls, hresults, hdone] using h.calls_ctx
  case active_nodup =>
    rw [hactive]
    exact (List.nodup_append.mp h.active_nodup).1
  case active_open =>
    intro i hi
    rw [hactive] at hi
    obtain ⟨hic, hio, hif, hir⟩ := h.running_open hi
    have hne : i ≠ op.id := fun hne => hopen.2.2.2.2 (hne ▸ hi)
    exact ⟨hcalled ▸ hic, hdone ▸ hio, hstill i hic hne hif, hrejected ▸ hir⟩
  case called_cases =>
    intro i hi
    rw [hcalled] at hi
    rw [hactive, hdone, hrejected, hmem]
    have hcases := h.called_cases i hi
    simp only [State.active, List.mem_append, List.mem_singleton] at hcases
    tauto
  case running_gave => simpa [hrunning, hgave] using h.running_gave
  case results_gave =>
    intro i w hw
    rw [hresults] at hw
    obtain ⟨hg, hf⟩ := h.results_gave i w hw
    have hne : i ≠ op.id := by
      rintro rfl
      simp [State.done, hw] at hopen
    exact ⟨(hgave i _).mpr hg, hstill i hg.called hne hf⟩
  case failed_nodup =>
    rw [hfailed]
    refine List.nodup_append.mpr ⟨List.nodup_reverse.mpr hfresh.1,
      List.nodup_cons.mpr ⟨hopen.2.2.1, h.failed_nodup⟩, ?_⟩
    rintro i hi _ hj rfl
    have hno := hfresh.2 i (List.mem_reverse.mp hi)
    rcases List.mem_cons.mp hj with hj | hj
    · exact hno.1 hj
    · exact hno.2 hj
  case failed_cause =>
    intro i hi
    rw [hmem] at hi
    rcases hi with hskip | rfl | hold
    · have hcause := skipped_cause hv _ i hskip
      have hdep : ∃ d ∈ cfg.plan.depIds i, d ∈ t.failed := by
        rcases hcause with huse | ⟨d, hd, huse⟩
        · exact ⟨op.id, huse, (hmem _).mpr (Or.inr (Or.inl rfl))⟩
        · exact ⟨d, huse, (hmem _).mpr (Or.inl hd)⟩
      refine ⟨?_, Or.inr ⟨by rw [hcalled]; exact hun i hskip, hdep⟩⟩
      obtain ⟨d, huse, -⟩ := hdep
      exact mem_ids_of_dep hv huse
    · exact ⟨hid, Or.inl ⟨err, message, (hcf _ _).mpr hcall, hmsg⟩⟩
    · obtain ⟨hi, hcause⟩ := h.failed_cause i hold
      refine ⟨hi, hcause.imp ?_ ?_⟩
      · rintro ⟨e, m, hc, hm⟩
        exact ⟨e, m, (hcf _ _).mpr hc, hm⟩
      · rintro ⟨hu, d, hd, hdf⟩
        exact ⟨by rw [hcalled]; exact hu, d, hd, (hmem d).mpr (Or.inr (Or.inr hdf))⟩
  case failed_users =>
    intro i d hd huse
    rw [hmem] at hd ⊢
    rcases hd with hskip | rfl | hold
    · have hclosed := skipped_closed hv hid _ (Or.inr hskip) huse
      simp only [List.mem_cons] at hclosed
      tauto
    · have hclosed := skipped_closed hv hid (op.id :: s.failed) (Or.inl rfl) huse
      simp only [List.mem_cons] at hclosed
      tauto
    · exact Or.inr (Or.inr (h.failed_users i d hold huse))
  case rejected_gave =>
    intro i hi
    rw [hrejected] at hi
    obtain ⟨hd, hf, e, hc, hm⟩ := h.rejected_gave i hi
    have hne : i ≠ op.id := fun hne => hopen.2.2.2.1 (hne ▸ hi)
    exact ⟨hdone ▸ hd, hstill i hc.called hne hf, e, (hcf _ _).mpr hc, hm⟩
  case pending_eq => simpa [hpending, hdone] using h.pending_eq

end Fail

section Counters

variable {op : Operation V} {ready : List ℕ} {s t : State V}

/-- The `finally` block takes the operation in limbo off both in-flight counters. -/
theorem Counters.finally (h : Counters cfg [op.id] s) (hop : cfg.plan.op? op.id = some op)
    (ok : Bool) (hglobal : t.globalInFlight = s.globalInFlight)
    (htag : t.tagInFlight = s.tagInFlight) (hrun : t.running = s.running)
    (hcount : t.pendingCount =
      cfg.plan.ids.countP fun id => !t.done id && decide (id ∉ t.failed)) :
    Counters cfg [] (finallyOp op ok t) := by
  have hactive : (finallyOp op ok t).active [] = s.running.map Prod.fst := by
    simp [State.active, finallyOp, hrun]
  constructor
  · exact hcount
  · have hold := h.globalInFlight_eq
    simp only [State.active, List.length_append, List.length_singleton] at hold
    rw [hactive]
    simp only [finallyOp, hglobal]
    omega
  · intro tag
    have hold := h.tagInFlight_eq tag
    rw [hactive]
    simp only [State.active, List.countP_append, List.countP_singleton, hop, Option.bind_some,
      decide_eq_true_eq] at hold
    cases hcase : op.tag with
    | none =>
      simp only [hcase, reduceCtorEq, if_false] at hold
      simp only [finallyOp, hcase, htag]
      exact hold
    | some tag' =>
      simp only [finallyOp, hcase, htag]
      by_cases hsame : tag = tag'
      · subst hsame
        simp only [hcase, if_true] at hold
        cases hval : s.tagInFlight tag with
        | none => simp [hval] at hold; omega
        | some k =>
          simp only [hval, Option.getD_some] at hold
          simp only [Function.update_self, Option.getD_some]
          omega
      · have hne : tag' ≠ tag := Ne.symm hsame
        simp only [hcase, Option.some.injEq, hne, if_false] at hold
        simp only [Function.update_of_ne hsame]
        exact hold

theorem succeedOp_pendingCount (hid : op.id ∈ cfg.plan.ids) (h : Counters cfg [op.id] s)
    (hcore : Core cfg [op.id] ready s) (v : V) :
    (succeedOp cfg op v s).pendingCount = cfg.plan.ids.countP fun id =>
      !(succeedOp cfg op v s).done id && decide (id ∉ (succeedOp cfg op v s).failed) := by
  obtain ⟨-, hopen, hfail, -⟩ := hcore.limbo_open
  have hcount := h.pendingCount_eq
  have hremove := countP_remove (l := cfg.plan.ids) (r := [op.id])
    (p := fun id => !s.done id && decide (id ∉ s.failed)) cfg.plan.ids_nodup (by simp)
    (by simp [hid, hopen, hfail])
  have hsame : (fun id => !(succeedOp cfg op v s).done id &&
      decide (id ∉ (succeedOp cfg op v s).failed)) =
      fun id => (!s.done id && decide (id ∉ s.failed)) && decide (id ∉ [op.id]) := by
    funext id
    have hf : (succeedOp cfg op v s).failed = s.failed := rfl
    simp only [done_succeedOp, hf, List.mem_singleton, Bool.not_or, decide_not]
    ac_rfl
  have hval : (succeedOp cfg op v s).pendingCount = s.pendingCount - 1 := rfl
  rw [hsame, hval]
  simp only [List.length_singleton] at hremove
  omega

theorem failOp_pendingCount (hv : cfg.Valid) (hid : op.id ∈ cfg.plan.ids)
    (h : Counters cfg [op.id] s) (hcore : Core cfg [op.id] ready s) (message : String) :
    (failOp cfg op message s).pendingCount = cfg.plan.ids.countP fun id =>
      !(failOp cfg op message s).done id && decide (id ∉ (failOp cfg op message s).failed) := by
  obtain ⟨-, hopen, hfail, -⟩ := hcore.limbo_open
  have hun := failSkips_uncalled hv hcore
  obtain ⟨hnd, hfresh⟩ := failSkips_fresh cfg op s
  have hids : ∀ id ∈ failSkips cfg op s, id ∈ cfg.plan.ids := by
    intro id hskip
    rcases skipped_cause hv _ id hskip with huse | ⟨d, -, huse⟩
    · exact mem_ids_of_dep hv huse
    · exact mem_ids_of_dep hv huse
  have hcount := h.pendingCount_eq
  have hremove := countP_remove (l := cfg.plan.ids) (r := op.id :: failSkips cfg op s)
    (p := fun id => !s.done id && decide (id ∉ s.failed)) cfg.plan.ids_nodup
    (List.nodup_cons.mpr ⟨fun hmem => (hfresh _ hmem).1 rfl, hnd⟩)
    (by
      intro id hmem
      rcases List.mem_cons.mp hmem with rfl | hmem
      · simp [hid, hopen, hfail]
      · simp [hids id hmem, hcore.uncalled_open (hun id hmem), (hfresh id hmem).2])
  have hsame : (fun id => !(failOp cfg op message s).done id &&
      decide (id ∉ (failOp cfg op message s).failed)) =
      fun id => (!s.done id && decide (id ∉ s.failed)) &&
        decide (id ∉ op.id :: failSkips cfg op s) := by
    funext id
    have hd : (failOp cfg op message s).done = s.done := by
      rw [failOp_eq hv hid]
      rfl
    rw [hd, Bool.eq_iff_iff]
    simp only [mem_failed_failOp hv hid, Bool.and_eq_true, Bool.not_eq_true', decide_eq_true_eq,
      List.mem_cons]
    tauto
  have hval : (failOp cfg op message s).pendingCount =
      s.pendingCount - 1 - (failSkips cfg op s).length := by
    rw [failOp_eq hv hid message s]
    rfl
  rw [hsame, hval]
  simp only [List.length_cons] at hremove
  omega

end Counters

section Lineage

variable {op : Operation V} {ready : List ℕ} {s : State V}

@[simp] theorem isEnd_finish (id i : ℕ) (name : String) (tag : Option String)
    (result : LineageResult) (error : Option String) :
    isEnd id (i, .finish name tag result error) = decide (i = id) := by
  simp [isEnd, LineageEntry.finish]

@[simp] theorem isEnd_start (id i : ℕ) (name : String) (tag : Option String) :
    isEnd id (i, .start name tag) = false := by
  simp [isEnd, LineageEntry.start]

@[simp] theorem isStart_finish (id i : ℕ) (name : String) (tag : Option String)
    (result : LineageResult) (error : Option String) :
    isStart id (i, .finish name tag result error) = false := by
  simp [isStart, LineageEntry.finish]

@[simp] theorem isStart_start (id i : ℕ) (name : String) (tag : Option String) :
    isStart id (i, .start name tag) = decide (i = id) := by
  simp [isStart, LineageEntry.start]

theorem isEnd_skipEntry (id i : ℕ) (upstream : String) :
    isEnd id (skipEntry cfg upstream i) = decide (i = id) := by
  cases h : cfg.plan.op? i <;> simp [skipEntry, isEnd, h, LineageEntry.skip]

theorem isStart_skipEntry (id i : ℕ) (upstream : String) :
    isStart id (skipEntry cfg upstream i) = false := by
  cases h : cfg.plan.op? i <;> simp [skipEntry, isStart, h, LineageEntry.skip]

theorem countP_skipEntries (id : ℕ) (upstream : String) (new : List ℕ) :
    (new.map (skipEntry cfg upstream)).countP (isEnd id) = new.count id ∧
      (new.map (skipEntry cfg upstream)).countP (isStart id) = 0 := by
  induction new with
  | nil => simp
  | cons i new ih =>
    simp only [List.map_cons, List.countP_cons, List.count_cons, isEnd_skipEntry,
      isStart_skipEntry, ih]
    simp

theorem succeedOp_log (h : Log s) (hcore : Core cfg [op.id] ready s) (v : V) :
    Log (succeedOp cfg op v s) := by
  obtain ⟨-, hopen, hfail, -⟩ := hcore.limbo_open
  constructor
  · intro id
    have hold := h.ends id
    have hf : (succeedOp cfg op v s).failed = s.failed := rfl
    have hlin : (succeedOp cfg op v s).lineage =
      s.lineage ++ [(op.id, .finish op.name op.tag .success none)] := rfl
    rw [hf, hlin, done_succeedOp, List.countP_append, hold, List.countP_singleton, isEnd_finish]
    by_cases heq : id = op.id
    · subst heq
      simp [hopen, hfail]
    · simp [heq, Ne.symm heq]
  · intro id
    have hlin : (succeedOp cfg op v s).lineage =
      s.lineage ++ [(op.id, .finish op.name op.tag .success none)] := rfl
    rw [hlin, List.countP_append, h.starts id, List.countP_singleton, isStart_finish]
    rfl

theorem failOp_log (hv : cfg.Valid) (hid : op.id ∈ cfg.plan.ids) (h : Log s)
    (hcore : Core cfg [op.id] ready s) (message : String) : Log (failOp cfg op message s) := by
  obtain ⟨-, hopen, hfail, -⟩ := hcore.limbo_open
  have hun := failSkips_uncalled hv hcore
  obtain ⟨hnd, hfresh⟩ := failSkips_fresh cfg op s
  have hlin : (failOp cfg op message s).lineage =
      s.lineage ++ [(op.id, .finish op.name op.tag .error (some message))] ++
        (failSkips cfg op s).map (skipEntry cfg op.name) := by
    rw [failOp_eq hv hid message s]
    rfl
  have hdone : (failOp cfg op message s).done = s.done := by
    rw [failOp_eq hv hid message s]
    rfl
  have hcalled : (failOp cfg op message s).called = s.called := by
    rw [failOp_eq hv hid message s]
    rfl
  constructor
  · intro id
    rw [hlin, List.countP_append, List.countP_append, h.ends id, (countP_skipEntries _ _ _).1,
      List.countP_singleton, isEnd_finish, hdone]
    by_cases hskip : id ∈ failSkips cfg op s
    · have hno := hfresh id hskip
      have hone := List.count_eq_one_of_mem hnd hskip
      simp [hone, hno.2, Ne.symm hno.1, hcore.uncalled_open (hun id hskip),
        mem_failed_failOp hv hid, hskip]
    · have hzero := List.count_eq_zero_of_not_mem hskip
      by_cases heq : id = op.id
      · subst heq
        simp [hopen, hfail, hzero, mem_failed_failOp hv hid]
      · simp [heq, Ne.symm heq, hzero, hskip, mem_failed_failOp hv hid]
  · intro id
    rw [hlin, List.countP_append, List.countP_append, h.starts id, (countP_skipEntries _ _ _).2,
      List.countP_singleton, isStart_finish, hcalled]
    rfl

end Lineage

/-- The calls of an operation in limbo gave this settlement, a synchronous throw included. -/
def State.Gave (cfg : Config V) (s : State V) (id : ℕ) : Settlement V → Prop
  | .resolve v => s.CallGave cfg id (.returns (.resolve v))
  | .reject err => s.CallFailed cfg id err

section Settle

variable {op : Operation V} {ready : List ℕ} {s : State V}

/-- An error without a text leaves the operation neither done nor failed. -/
theorem finallyOp_core (h : Core cfg [op.id] ready s) {err : Thrown}
    (hcall : s.CallFailed cfg op.id err) (hmsg : err.message? = none) :
    Core cfg [] ready (finallyOp op false s) := by
  have hopen := h.limbo_open
  have hactive : (finallyOp op false s).active [] = s.running.map Prod.fst := by
    simp [State.active, finallyOp]
  have hrej : (finallyOp op false s).rejected = op.id :: s.rejected := rfl
  constructor
  case ready_nodup => exact h.ready_nodup
  case ready_ids => exact h.ready_ids
  case ready_iff => exact h.ready_iff
  case calls_nodup => exact h.calls_nodup
  case calls_ctx => exact h.calls_ctx
  case active_nodup =>
    rw [hactive]
    exact (List.nodup_append.mp h.active_nodup).1
  case active_open =>
    intro id hid
    rw [hactive] at hid
    obtain ⟨hc, ho, hf, hr⟩ := h.running_open hid
    have hne : id ≠ op.id := fun hne => hopen.2.2.2.2 (hne ▸ hid)
    exact ⟨hc, ho, hf, by simp [hrej, hne, hr]⟩
  case called_cases =>
    intro id hid
    have hcases := h.called_cases id hid
    simp only [State.active, List.mem_append, List.mem_singleton] at hcases
    rw [hactive, hrej, List.mem_cons]
    have hd : (finallyOp op false s).done id = s.done id := rfl
    have hf : (finallyOp op false s).failed = s.failed := rfl
    rw [hd, hf]
    tauto
  case running_gave => exact h.running_gave
  case results_gave => exact h.results_gave
  case failed_nodup => exact h.failed_nodup
  case failed_cause => exact h.failed_cause
  case failed_users => exact h.failed_users
  case rejected_gave =>
    intro id hid
    rcases List.mem_cons.mp hid with rfl | hid
    · exact ⟨hopen.2.1, hopen.2.2.1, err, hcall, hmsg⟩
    · exact h.rejected_gave id hid
  case pending_eq => exact h.pending_eq

theorem Core.finally {limbo : List ℕ} {t : State V} (h : Core cfg limbo ready t) :
    Core cfg limbo ready (finallyOp op true t) :=
  h.frame rfl rfl rfl rfl rfl (List.Perm.refl _) h.running_gave

/-- The continuation of `runOp` settles the operation in limbo, whatever the settlement. -/
theorem settleOp_inv (hv : cfg.Valid) (hop : cfg.plan.op? op.id = some op)
    (h : Inv cfg [op.id] ready s) {promise : Settlement V} (hgave : s.Gave cfg op.id promise) :
    ∃ more, (settleOp cfg op s promise).ready = s.ready ++ more ∧
      Inv cfg [] (ready ++ more) (settleOp cfg op s promise) := by
  have hid : op.id ∈ cfg.plan.ids := Plan.mem_ids.mpr ⟨op, hop⟩
  cases promise with
  | resolve v =>
    refine ⟨released cfg op s, rfl, ?_, ?_, ?_⟩
    · exact (succeedOp_core hv h.core hgave).finally
    · exact h.counters.finally hop true rfl rfl rfl (succeedOp_pendingCount hid h.counters h.core v)
    · exact (succeedOp_log h.log h.core v).frame rfl rfl rfl rfl
  | reject err =>
    cases hmsg : err.message? with
    | none =>
      have heq : settleOp cfg op s (.reject err) = finallyOp op false s := by
        simp [settleOp, hmsg]
      rw [heq]
      refine ⟨[], by simp [finallyOp], ?_, ?_, ?_⟩
      · rw [List.append_nil]
        exact finallyOp_core h.core hgave hmsg
      · exact h.counters.finally hop false rfl rfl rfl h.counters.pendingCount_eq
      · exact h.log.frame rfl rfl rfl rfl
    | some message =>
      have heq : settleOp cfg op s (.reject err) = finallyOp op true (failOp cfg op message s) := by
        simp [settleOp, hmsg]
      have hfields := failOp_eq hv hid message s
      rw [heq]
      refine ⟨[], ?_, ?_, ?_, ?_⟩
      · rw [hfields]
        simp [finallyOp, skipAll]
      · rw [List.append_nil]
        exact (failOp_core hv h.core hgave hmsg).finally
      · refine h.counters.finally hop true ?_ ?_ ?_
          (failOp_pendingCount hv hid h.counters h.core message)
        · rw [hfields]; rfl
        · rw [hfields]; rfl
        · rw [hfields]; rfl
      · exact (failOp_log hv hid h.log h.core message).frame rfl rfl rfl rfl

end Settle

section Enter

variable {op : Operation V} {pre post : List ℕ} {s : State V}

theorem enterOp_core (hop : cfg.plan.op? op.id = some op)
    (h : Core cfg [] (pre ++ op.id :: post) s) :
    Core cfg [op.id] (pre ++ post) (enterOp op ⟨op.depIds.map s.results⟩ s) := by
  have hid : op.id ∈ cfg.plan.ids := Plan.mem_ids.mpr ⟨op, hop⟩
  have hperm : (pre ++ op.id :: post).Perm (op.id :: (pre ++ post)) := List.perm_middle
  obtain ⟨hno, hnd⟩ := List.nodup_cons.mp (hperm.nodup_iff.mp h.ready_nodup)
  obtain ⟨hun, hdeps⟩ := (h.ready_iff op.id hid).mp (by simp)
  have hfail := h.ready_notMem_failed op.id (by simp)
  have hopen := h.uncalled_open hun
  have hrej : op.id ∉ s.rejected := by
    intro hr
    obtain ⟨-, -, err, hcall, -⟩ := h.rejected_gave op.id hr
    exact hun hcall.called
  set t := enterOp op ⟨op.depIds.map s.results⟩ s with ht
  have hcalled : t.called = s.called ++ [op.id] := by simp [ht, State.called, enterOp]
  have hactive : t.active [op.id] = s.running.map Prod.fst ++ [op.id] := rfl
  have hold : s.active [] = s.running.map Prod.fst := by simp [State.active]
  have hsub : ∀ c ∈ s.calls, c ∈ t.calls := fun c hc => List.mem_append_left _ hc
  constructor
  case ready_nodup => exact hnd
  case ready_ids =>
    intro i hi
    exact h.ready_ids i (hperm.mem_iff.mpr (List.mem_cons_of_mem _ hi))
  case ready_iff =>
    intro i hi
    have hready := h.ready_iff i hi
    rw [hperm.mem_iff, List.mem_cons] at hready
    have hmem_called : i ∈ t.called ↔ i ∈ s.called ∨ i = op.id := by simp [hcalled]
    rw [hmem_called]
    constructor
    · intro hmem
      have hne : i ≠ op.id := fun hne => hno (hne ▸ hmem)
      have hstate := hready.mp (Or.inr hmem)
      exact ⟨by simp [hstate.1, hne], hstate.2⟩
    · rintro ⟨hun', hdeps'⟩
      simp only [not_or] at hun'
      exact (hready.mpr ⟨hun'.1, hdeps'⟩).resolve_left hun'.2
  case calls_nodup =>
    rw [hcalled]
    exact List.nodup_append.mpr ⟨h.calls_nodup, by simp, by
      rintro i hi _ hj rfl
      exact hun (List.mem_singleton.mp hj ▸ hi)⟩
  case calls_ctx =>
    intro c hc
    rcases List.mem_append.mp hc with hc | hc
    · exact h.calls_ctx c hc
    · obtain rfl := List.mem_singleton.mp hc
      refine ⟨hid, ?_, hdeps⟩
      simp [Plan.depIds_of_op? hop, ht, enterOp]
  case active_nodup =>
    rw [hactive]
    have hnd' := h.active_nodup
    rw [hold] at hnd'
    exact List.nodup_append.mpr ⟨hnd', by simp, by
      rintro i hi _ hj rfl
      obtain rfl := List.mem_singleton.mp hj
      exact hun (h.running_open hi).1⟩
  case active_open =>
    intro i hi
    rw [hactive] at hi
    rw [hcalled]
    rcases List.mem_append.mp hi with hi | hi
    · obtain ⟨hc, ho, hf, hr⟩ := h.running_open hi
      exact ⟨List.mem_append_left _ hc, ho, hf, hr⟩
    · obtain rfl := List.mem_singleton.mp hi
      exact ⟨by simp, hopen, hfail, hrej⟩
  case called_cases =>
    intro i hi
    rw [hcalled] at hi
    rw [hactive]
    rcases List.mem_append.mp hi with hi | hi
    · have hcases := h.called_cases i hi
      rw [hold] at hcases
      exact hcases.imp_left (List.mem_append_left _)
    · exact Or.inl (List.mem_append_right _ hi)
  case running_gave => exact fun r hr => (h.running_gave r hr).mono hsub
  case results_gave =>
    exact fun i w hw => ⟨(h.results_gave i w hw).1.mono hsub, (h.results_gave i w hw).2⟩
  case failed_nodup => exact h.failed_nodup
  case failed_cause =>
    intro i hi
    obtain ⟨hi', hcause⟩ := h.failed_cause i hi
    refine ⟨hi', hcause.imp ?_ ?_⟩
    · rintro ⟨e, m, hc, hm⟩
      exact ⟨e, m, hc.mono hsub, hm⟩
    · rintro ⟨hu, hd⟩
      have hne : i ≠ op.id := fun hne => hfail (hne ▸ hi)
      exact ⟨by simp [hcalled, hu, hne], hd⟩
  case failed_users => exact h.failed_users
  case rejected_gave =>
    intro i hi
    obtain ⟨hd, hf, e, hc, hm⟩ := h.rejected_gave i hi
    exact ⟨hd, hf, e, hc.mono hsub, hm⟩
  case pending_eq => exact h.pending_eq

theorem enterOp_counters (hop : cfg.plan.op? op.id = some op) (h : Counters cfg [] s)
    (ctx : OperationContext V) : Counters cfg [op.id] (enterOp op ctx s) := by
  have hactive : (enterOp op ctx s).active [op.id] = s.active [] ++ [op.id] := by
    simp [State.active, enterOp]
  constructor
  · exact h.pendingCount_eq
  · have hold := h.globalInFlight_eq
    rw [hactive]
    simp only [enterOp, List.length_append, List.length_singleton]
    omega
  · intro tag
    have hold := h.tagInFlight_eq tag
    rw [hactive, List.countP_append, List.countP_singleton]
    simp only [hop, Option.bind_some, decide_eq_true_eq]
    cases hcase : op.tag with
    | none => simpa [enterOp, hcase] using hold
    | some tag' =>
      by_cases hsame : tag = tag'
      · subst hsame
        simp only [enterOp, hcase, Function.update_self, Option.getD_some, if_true]
        omega
      · have hne : tag' ≠ tag := Ne.symm hsame
        simp only [enterOp, hcase, Function.update_of_ne hsame, Option.some.injEq, hne, if_false]
        omega

theorem enterOp_log (h : Log s) (ctx : OperationContext V) : Log (enterOp op ctx s) := by
  have hlin : (enterOp op ctx s).lineage = s.lineage ++ [(op.id, .start op.name op.tag)] := rfl
  constructor
  · intro id
    rw [hlin, List.countP_append, List.countP_singleton, isEnd_start, h.ends id]
    rfl
  · intro id
    have hcalled : (enterOp op ctx s).called = s.called ++ [op.id] := by
      simp [State.called, enterOp]
    rw [hlin, List.countP_append, List.countP_singleton, isStart_start, h.starts id, hcalled,
      List.count_append, List.count_singleton]
    simp

theorem enterOp_inv (hop : cfg.plan.op? op.id = some op)
    (h : Inv cfg [] (pre ++ op.id :: post) s) :
    Inv cfg [op.id] (pre ++ post) (enterOp op ⟨op.depIds.map s.results⟩ s) :=
  ⟨enterOp_core hop h.core, enterOp_counters hop h.counters _, enterOp_log h.log _⟩

end Enter

end Executor
end Batiste
