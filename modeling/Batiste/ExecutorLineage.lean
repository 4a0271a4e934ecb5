import Batiste.Chronicle
import Batiste.ExecutorRun

/-! What the lineage of a run tells: the graph that was executed can be read off it.
An operation starts after the successes of its dependencies, ends once, after its start, and is
skipped only after the failure of an operation it depends on, which the entry names. -/
namespace Batiste
namespace Executor

open Chronicle Transition

variable {V : Type} {cfg : Config V}

abbrev Entry := ℕ × LineageEntry

def Uses (cfg : Config V) (d id : ℕ) : Prop := d ∈ cfg.plan.depIds id

/-- The end of the operation stands in the lineage, a success. -/
def Succeeded (cfg : Config V) (entries : List Entry) (d : ℕ) : Prop :=
  ∃ op, cfg.plan.op? d = some op ∧ (d, .finish op.name op.tag .success none) ∈ entries

/-- The operation has started, and has not ended. -/
structure Unfinished (entries : List Entry) (id : ℕ) : Prop where
  started : ∃ e ∈ entries, e.1 = id ∧ e.2.phase = .start
  unended : ∀ e ∈ entries, e.1 = id → e.2.phase = .start

/-- What has to stand before an entry. -/
inductive Justified (cfg : Config V) (entries : List Entry) : Entry → Prop
  | start {op : Operation V} (hop : cfg.plan.op? op.id = some op)
    (hfresh : ∀ e ∈ entries, e.1 ≠ op.id)
    (hdeps : ∀ d ∈ cfg.plan.depIds op.id, Succeeded cfg entries d) :
    Justified cfg entries (op.id, .start op.name op.tag)
  | success {op : Operation V} (hop : cfg.plan.op? op.id = some op)
    (hopen : Unfinished entries op.id) :
    Justified cfg entries (op.id, .finish op.name op.tag .success none)
  | failure {op : Operation V} {message : String} (hop : cfg.plan.op? op.id = some op)
    (hopen : Unfinished entries op.id) :
    Justified cfg entries (op.id, .finish op.name op.tag .error (some message))
  | skip {op origin : Operation V} {message : String} (hop : cfg.plan.op? op.id = some op)
    (hfresh : ∀ e ∈ entries, e.1 ≠ op.id)
    (huses : Relation.TransGen (Uses cfg) origin.id op.id)
    (hfailed : (origin.id, .finish origin.name origin.tag .error (some message)) ∈ entries) :
    Justified cfg entries (op.id, .skip op.name op.tag origin.name)

/-! ## What the counts of the log say -/

section Log

variable {s : State V} {id : ℕ}

/-- An operation that is neither called nor failed has no entry. -/
theorem Log.fresh (h : Log s) (hcalled : id ∉ s.called) (hdone : s.done id = false)
    (hfailed : id ∉ s.failed) : ∀ e ∈ s.lineage, e.1 ≠ id := by
  intro e he hid
  have hends := h.ends id
  rw [hdone, decide_eq_false hfailed, Bool.or_false, Bool.toNat_false, List.countP_eq_zero] at hends
  have hstarts := h.starts id
  rw [List.count_eq_zero_of_not_mem hcalled, List.countP_eq_zero] at hstarts
  cases hphase : e.2.phase with
  | start => exact hstarts e he (by simp [isStart, hid, hphase])
  | ended => exact hends e he (by simp [isEnd, hid, hphase])

theorem Log.unfinished (h : Log s) (hcalled : id ∈ s.called) (hdone : s.done id = false)
    (hfailed : id ∉ s.failed) : Unfinished s.lineage id := by
  constructor
  · have hpos : 0 < s.lineage.countP (isStart id) := by
      rw [h.starts id]
      exact List.count_pos_iff.mpr hcalled
    obtain ⟨e, he, hstart⟩ := List.countP_pos_iff.mp hpos
    simp only [isStart, Bool.and_eq_true, decide_eq_true_eq] at hstart
    exact ⟨e, he, hstart⟩
  · intro e he hid
    have hends := h.ends id
    rw [hdone, decide_eq_false hfailed, Bool.or_false, Bool.toNat_false, List.countP_eq_zero]
      at hends
    cases hphase : e.2.phase with
    | start => rfl
    | ended => exact absurd (hends e he) (by simp [isEnd, hid, hphase])

end Log

/-! ## Steps -/

/-- What the end of an operation says came of it. -/
def Outcome (s : State V) (e : Entry) : Prop :=
  e.2.result = some .success ∧ s.done e.1 = true ∨ e.2.result = some .error ∧ e.1 ∈ s.failed

/-- The lineage so far, and the success it shows for each result. -/
structure Recorded (cfg : Config V) (s : State V) : Prop where
  told : Told (Justified cfg) s.lineage
  succeeded : ∀ d, s.done d = true → Succeeded cfg s.lineage d
  outcomes : ∀ e ∈ s.lineage, e.2.phase = .ended → Outcome s e

theorem Succeeded.append {entries : List Entry} {d : ℕ} (h : Succeeded cfg entries d)
    (more : List Entry) : Succeeded cfg (entries ++ more) d := by
  obtain ⟨op, hop, hmem⟩ := h
  exact ⟨op, hop, List.mem_append_left more hmem⟩

theorem Outcome.mono {s t : State V} {e : Entry} (h : Outcome s e)
    (hdone : s.done e.1 = true → t.done e.1 = true) (hfailed : e.1 ∈ s.failed → e.1 ∈ t.failed) :
    Outcome t e :=
  h.imp (And.imp_right hdone) (And.imp_right hfailed)

theorem Recorded.frame {s t : State V} (h : Recorded cfg s) (hlineage : t.lineage = s.lineage)
    (hresults : t.results = s.results) (hfailed : t.failed = s.failed) : Recorded cfg t := by
  constructor
  · rw [hlineage]
    exact h.told
  · intro d hd
    rw [hlineage]
    exact h.succeeded d (by simpa [State.done, hresults] using hd)
  · intro e he hended
    rw [hlineage] at he
    refine (h.outcomes e he hended).mono (fun hdone => ?_) fun hmem => hfailed ▸ hmem
    simpa [State.done, hresults] using hdone

section Operation

variable {op : Operation V} {ready : List ℕ} {s : State V}

theorem Recorded.enter (h : Recorded cfg s) (hop : cfg.plan.op? op.id = some op)
    (hinv : Inv cfg [] ready s) (hready : op.id ∈ ready) (ctx : OperationContext V) :
    Recorded cfg (enterOp op ctx s) := by
  have hid : op.id ∈ cfg.plan.ids := Plan.mem_ids.mpr ⟨op, hop⟩
  obtain ⟨hcalled, hdeps⟩ := (hinv.core.ready_iff op.id hid).mp hready
  have hfailed := hinv.core.ready_notMem_failed op.id hready
  have hfresh := hinv.log.fresh hcalled (hinv.core.uncalled_open hcalled) hfailed
  constructor
  · exact h.told.snoc (.start hop hfresh fun d hd => h.succeeded d (hdeps d hd))
  · exact fun d hd => (h.succeeded d hd).append _
  · intro e he hended
    rcases List.mem_append.mp he with he | he
    · exact (h.outcomes e he hended).mono id id
    · rw [List.mem_singleton.mp he] at hended
      cases hended

theorem Recorded.succeed (h : Recorded cfg s) (hop : cfg.plan.op? op.id = some op)
    (hinv : Inv cfg [op.id] ready s) (v : V) : Recorded cfg (succeedOp cfg op v s) := by
  obtain ⟨hcalled, hdone, hfailed, -⟩ := hinv.core.limbo_open
  constructor
  · exact h.told.snoc (.success hop (hinv.log.unfinished hcalled hdone hfailed))
  · intro d hd
    rw [done_succeedOp, Bool.or_eq_true] at hd
    by_cases heq : d = op.id
    · subst heq
      exact ⟨op, hop, List.mem_append_right _ (List.mem_singleton_self _)⟩
    · have hold : s.done d = true := hd.resolve_right (by simpa using heq)
      exact (h.succeeded d hold).append _
  · intro e he hended
    rcases List.mem_append.mp he with he | he
    · refine (h.outcomes e he hended).mono (fun hold => ?_) id
      rw [done_succeedOp, hold, Bool.true_or]
    · rw [List.mem_singleton.mp he]
      exact Or.inl ⟨rfl, by simp [done_succeedOp]⟩

/-- The entries of a cascade name the failure that set it off. -/
theorem Recorded.fail (hv : cfg.Valid) (h : Recorded cfg s) (hop : cfg.plan.op? op.id = some op)
    (hinv : Inv cfg [op.id] ready s) (message : String) :
    Recorded cfg (failOp cfg op message s) := by
  obtain ⟨hcalled, hdone, hfailed, -⟩ := hinv.core.limbo_open
  have hid : op.id ∈ cfg.plan.ids := Plan.mem_ids.mpr ⟨op, hop⟩
  have huncalled := failSkips_uncalled hv hinv.core
  obtain ⟨hnodup, hfresh⟩ := failSkips_fresh cfg op s
  have huses : ∀ id ∈ failSkips cfg op s, Relation.TransGen (Uses cfg) op.id id :=
    skipped_induction hv _ (fun id huse => .single huse) fun d id hd huse => hd.tail huse
  have hend : Told (Justified cfg)
      (s.lineage ++ [(op.id, .finish op.name op.tag .error (some message))]) :=
    h.told.snoc (.failure hop (hinv.log.unfinished hcalled hdone hfailed))
  rw [failOp_eq hv hid]
  constructor
  · refine hend.append fun pre e post hsplit => ?_
    obtain ⟨before, rest, hskips, hbefore, hrest⟩ := List.map_eq_append_iff.mp hsplit
    obtain ⟨id, after, rfl, hentry, -⟩ := List.map_eq_cons_iff.mp hrest
    have hmem : id ∈ failSkips cfg op s := by simp [hskips]
    have hskipped : id ∈ cfg.plan.ids := by
      rcases skipped_cause hv _ id hmem with huse | ⟨d, -, huse⟩
      · exact mem_ids_of_dep hv huse
      · exact mem_ids_of_dep hv huse
    obtain ⟨skipOp, hskipOp⟩ := Plan.mem_ids.mp hskipped
    obtain ⟨-, rfl⟩ := Plan.op?_mem hskipOp
    have hnew : ∀ f ∈ s.lineage ++ [(op.id, LineageEntry.finish op.name op.tag .error
        (some message))] ++ pre, f.1 ≠ skipOp.id := by
      intro f hf
      rw [List.mem_append, List.mem_append] at hf
      rcases hf with (hold | hlast) | hpre
      · exact hinv.log.fresh (huncalled _ hmem) (hinv.core.uncalled_open (huncalled _ hmem))
          (hfresh _ hmem).2 f hold
      · rw [List.mem_singleton.mp hlast]
        exact (hfresh _ hmem).1.symm
      · rw [← hbefore] at hpre
        obtain ⟨i, hi, rfl⟩ := List.mem_map.mp hpre
        rintro rfl
        rw [hskips] at hnodup
        exact (List.nodup_append.mp hnodup).2.2 _ hi _ List.mem_cons_self rfl
    rw [← hentry, skipEntry, hskipOp]
    have hcause : (op.id, LineageEntry.finish op.name op.tag .error (some message)) ∈
        s.lineage ++ [(op.id, LineageEntry.finish op.name op.tag .error (some message))] ++ pre := by
      simp
    exact .skip hskipOp hnew (huses _ hmem) hcause
  · exact fun d hd => ((h.succeeded d hd).append _).append _
  · intro e he hended
    simp only [skipAll, List.mem_append, List.mem_singleton] at he
    rcases he with (he | rfl) | he
    · exact (h.outcomes e he hended).mono id fun hold => by simp [skipAll, hold]
    · exact Or.inr ⟨rfl, by simp [skipAll]⟩
    · obtain ⟨id, hmem, rfl⟩ := List.mem_map.mp he
      refine Or.inr ⟨?_, by simp [skipAll, skipEntry, hmem]⟩
      unfold skipEntry
      cases cfg.plan.op? id <;> rfl

theorem Recorded.settle (hv : cfg.Valid) (h : Recorded cfg s) (hop : cfg.plan.op? op.id = some op)
    (hinv : Inv cfg [op.id] ready s) (promise : Settlement V) :
    Recorded cfg (settleOp cfg op s promise) := by
  cases promise with
  | resolve v => exact (h.succeed hop hinv v).frame rfl rfl rfl
  | reject err =>
    simp only [settleOp]
    cases err.message? with
    | none => exact h.frame rfl rfl rfl
    | some message => exact (h.fail hv hop hinv message).frame rfl rfl rfl

theorem Recorded.dispatch (hv : cfg.Valid) (h : Recorded cfg s)
    (hop : cfg.plan.op? op.id = some op) {rest : List ℕ}
    (hround : Round cfg (s.ready ++ op.id :: rest) s) : Recorded cfg (dispatch cfg op s) := by
  have henter := h.enter hop hround.inv (by simp) ⟨op.depIds.map s.results⟩
  rw [Executor.dispatch, runOp_ready hop hround.inv.core, callOp]
  cases hfn : op.fn ⟨op.depIds.map s.results⟩ with
  | throws err => exact (henter.settle hv hop (enterOp_inv hop hround.inv) _).frame rfl rfl rfl
  | returns promise => exact henter.frame rfl rfl rfl

end Operation

theorem Recorded.drain (hv : cfg.Valid) (rest : List ℕ) (dispatched : Bool) {s : State V}
    (h : Recorded cfg s) (hround : Round cfg (s.ready ++ rest) s) :
    Recorded cfg (drain cfg rest dispatched s).1 := by
  induction rest generalizing dispatched s with
  | nil => exact h
  | cons id rest ih =>
    have hok := hround.inv.core.ready_notMem_failed id (by simp)
    obtain ⟨op, hop⟩ := Plan.mem_ids.mp (hround.inv.core.ready_ids id (by simp))
    obtain ⟨-, rfl⟩ := Plan.op?_mem hop
    simp only [Executor.drain, hok, if_false, hop]
    split_ifs
    · exact ih true (h.dispatch hv hop hround) (dispatch_round hv hop hround).1
    · exact ih dispatched (h.frame rfl rfl rfl) hround.keep

theorem Recorded.step (hv : cfg.Valid) {s t : State V} {a : Action} (h : Recorded cfg s)
    (hgood : Good cfg s) (hs : step cfg s a = some t) : Recorded cfg t := by
  rcases step_cases hs with ⟨-, rfl⟩ | ⟨op, promise, hop, hmem, rfl⟩ | ⟨g, -, -, rfl⟩ |
    ⟨id, -, -, rfl⟩ | ⟨ps, -, -, rfl⟩ | ⟨ps, -, rfl⟩
  · have hdrain := (h.frame rfl rfl rfl : Recorded cfg { s with ready := [] }).drain hv s.ready false
      hgood.round.setLoop
    simp only [iterate]
    split_ifs
    · exact hdrain.frame rfl rfl rfl
    · exact hdrain
    · exact hdrain.frame rfl rfl rfl
    · exact hdrain.frame rfl rfl rfl
    · exact h.frame rfl rfl rfl
  · have hinv := hgood.round.inv
    have hlimbo : Inv cfg [op.id] s.ready
        { s with running := s.running.filter fun r => r.1 != op.id } :=
      hinv.move (active_take hinv.core.active_nodup hmem) fun r hr =>
        hinv.core.running_gave r (List.mem_filter.mp hr).1
    exact (h.frame rfl rfl rfl : Recorded cfg
      { s with running := s.running.filter fun r => r.1 != op.id }).settle hv hop hlimbo promise
  all_goals exact h.frame rfl rfl rfl

theorem reachable_recorded (hv : cfg.Valid) {s : State V}
    (h : Reachable (Executor.step cfg) (init cfg) s) : Good cfg s ∧ Recorded cfg s := by
  have hstart : Recorded cfg (init cfg) := ⟨told_nil, by simp [init, State.done], by simp [init]⟩
  exact h.invariant (I := fun s => Good cfg s ∧ Recorded cfg s)
    (fun s a t h ha => ⟨(step_good hv h.1 ha).1, h.2.step hv h.1 ha⟩) ⟨init_good hv, hstart⟩

/-- In every state of every run, the lineage tells its story in order. -/
theorem lineage_told (host : Host) (opts : ExecutorOptions) (plan : Plan V) :
    ∃ cfg, configure host opts plan = .ok cfg ∧ cfg.plan = plan ∧
      ∀ s, Reachable (Executor.step cfg) (init cfg) s → Told (Justified cfg) s.lineage := by
  obtain ⟨cfg, hcfg, hplan, hv⟩ := configure_valid host opts plan
  exact ⟨cfg, hcfg, hplan, fun s hs => (reachable_recorded hv hs).2.told⟩

end Executor
end Batiste
