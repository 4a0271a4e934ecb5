import Batiste.AgentPool

/-! Where the tasks of an agent pool are.
Every accepted task is counted in the places it stands in.  A stretch of code moves a task from
one place to another and leaves the count alone; only the `catch` callback of a rejected
dispatch takes one away. -/
namespace Batiste
namespace AgentPool

open Transition

variable {env : Env}

/-- The id of the assignment the agent executes and has not reported on. -/
def Agent.workOn (agent : Agent) : Option String :=
  match agent.currentTask with
  | some ⟨queued, false⟩ => some queued.assignment.taskId
  | _ => none

def Pool.working (s : Pool) : List String := s.agents.filterMap Agent.workOn

/-- How often the id occurs in the places a result moves a task to. -/
def Pool.settled (s : Pool) (x : String) : ℕ :=
  (s.retrying.map fun r => r.assignment.taskId).count x +
    (s.deadLetterQueue.map fun e => e.assignment.taskId).count x +
    if s.taskHistory x = some true then 1 else 0

/-- How often the id occurs in the places a task can be in. -/
def Pool.tally (s : Pool) (x : String) : ℕ :=
  (s.taskQueue.map fun q => q.assignment.taskId).count x + s.working.count x +
    s.rejecting.count x + s.settled x

/-- The claims of the callers: the ids they were given, in order. -/
def Pool.acceptedIds (s : Pool) : List String := s.accepted.map TaskAssignment.taskId

structure Inv (env : Env) (s : Pool) : Prop where
  nodup : (s.agents.map Agent.id).Nodup
  fresh : ∀ agent ∈ s.agents, agent.id < s.nextId
  idle_free : ∀ agent ∈ s.agents, agent.state = .idle → agent.currentTask = none
  queue_known : ∀ q ∈ s.taskQueue, q.assignment ∈ s.accepted
  work_known : ∀ agent ∈ s.agents, ∀ w, agent.currentTask = some w →
    w.queued.assignment ∈ s.accepted ∧ TaskAssignmentSchema env w.queued.assignment = true
  retry_known : ∀ r ∈ s.retrying,
    r.assignment ∈ s.accepted ∧ TaskAssignmentSchema env r.assignment = true
  dlq_known : ∀ e ∈ s.deadLetterQueue,
    e.assignment ∈ s.accepted ∧ TaskAssignmentSchema env e.assignment = true
  done_known : ∀ x, s.taskHistory x = some true → ∃ a ∈ s.accepted, a.taskId = x ∧
    TaskAssignmentSchema env a = true
  rejecting_invalid : ∀ x ∈ s.rejecting, ∃ a ∈ s.accepted, a.taskId = x ∧
    TaskAssignmentSchema env a = false
  inFlight_some : ∀ x i, s.inFlight x = some i →
    x ∈ s.rejecting ∨ ∃ agent ∈ s.agents, agent.id = i ∧ agent.workOn = some x
  work_inFlight : ∀ agent ∈ s.agents, ∀ x, agent.workOn = some x → s.inFlight x = some agent.id
  tally_le : ∀ x, s.tally x ≤ s.acceptedIds.count x
  tally_valid : ∀ a ∈ s.accepted, TaskAssignmentSchema env a = true → 1 ≤ s.tally a.taskId

theorem init_inv (spec : AgentPoolSpec) : Inv env (init spec) := by
  constructor <;> simp [init, Pool.tally, Pool.working, Pool.settled]

/-- The invariant does not read the other fields. -/
theorem Inv.frame {s t : Pool} (h : Inv env s) (hagents : t.agents = s.agents)
    (hqueue : t.taskQueue = s.taskQueue) (hflight : t.inFlight = s.inFlight)
    (hretry : t.retrying = s.retrying) (hhist : t.taskHistory = s.taskHistory)
    (hdlq : t.deadLetterQueue = s.deadLetterQueue) (hrej : t.rejecting = s.rejecting)
    (hnext : t.nextId = s.nextId) (hacc : t.accepted = s.accepted) : Inv env t := by
  have htally : t.tally = s.tally := by
    funext x
    simp only [Pool.tally, Pool.working, Pool.settled, hagents, hqueue, hretry, hhist, hdlq, hrej]
  have hids : t.acceptedIds = s.acceptedIds := by simp only [Pool.acceptedIds, hacc]
  constructor
  case nodup => simpa only [hagents] using h.nodup
  case fresh => simpa only [hagents, hnext] using h.fresh
  case idle_free => simpa only [hagents] using h.idle_free
  case queue_known => simpa only [hqueue, hacc] using h.queue_known
  case work_known => simpa only [hagents, hacc] using h.work_known
  case retry_known => simpa only [hretry, hacc] using h.retry_known
  case dlq_known => simpa only [hdlq, hacc] using h.dlq_known
  case done_known => simpa only [hhist, hacc] using h.done_known
  case rejecting_invalid => simpa only [hrej, hacc] using h.rejecting_invalid
  case inFlight_some => simpa only [hagents, hrej, hflight] using h.inFlight_some
  case work_inFlight => simpa only [hagents, hflight] using h.work_inFlight
  case tally_le => simpa only [htally, hids] using h.tally_le
  case tally_valid => simpa only [htally, hacc] using h.tally_valid

/-- Agents may change their state and their listing, as long as none becomes idle. -/
theorem Inv.mapAgents {s t : Pool} (h : Inv env s) (f : Agent → Agent)
    (ht : t = { s with agents := s.agents.map f })
    (hid : ∀ agent, (f agent).id = agent.id)
    (htask : ∀ agent, (f agent).currentTask = agent.currentTask)
    (hidle : ∀ agent, (f agent).state = .idle → agent.state = .idle) : Inv env t := by
  subst ht
  have hwork : ∀ agent, (f agent).workOn = agent.workOn := by
    intro agent
    simp only [Agent.workOn, htask]
  have hworking : Pool.working { s with agents := s.agents.map f } = s.working := by
    simp only [Pool.working, List.filterMap_map]
    exact List.filterMap_congr fun agent _ => hwork agent
  have htally : Pool.tally { s with agents := s.agents.map f } = s.tally := by
    funext x
    simp only [Pool.tally, hworking, Pool.settled]
  constructor
  case nodup =>
    have hmap : (s.agents.map f).map Agent.id = s.agents.map Agent.id := by
      rw [List.map_map]
      exact List.map_congr_left fun agent _ => hid agent
    simpa only [hmap] using h.nodup
  case fresh => simpa [hid] using h.fresh
  case idle_free =>
    intro agent hmem hst
    obtain ⟨old, hold, rfl⟩ := List.mem_map.mp hmem
    rw [htask]
    exact h.idle_free old hold (hidle old hst)
  case queue_known => exact h.queue_known
  case work_known => simpa [htask] using h.work_known
  case retry_known => exact h.retry_known
  case dlq_known => exact h.dlq_known
  case done_known => exact h.done_known
  case rejecting_invalid => exact h.rejecting_invalid
  case inFlight_some => simpa [hid, hwork] using h.inFlight_some
  case work_inFlight => simpa [hid, hwork] using h.work_inFlight
  case tally_le =>
    intro x
    rw [htally]
    exact h.tally_le x
  case tally_valid =>
    intro a ha hvalid
    rw [htally]
    exact h.tally_valid a ha hvalid

/-- A relation between pools that stopping an agent and planning for agents keep. -/
structure Scales (R : Pool → Pool → Prop) : Prop where
  refl : ∀ s, R s s
  trans : ∀ s t u, R s t → R t u → R s u
  stopped : ∀ s id, R s (mapAgent id Agent.stopped s)
  planned : ∀ (s : Pool) spawning deleting,
    R s { s with spawning := spawning, deleting := deleting }

namespace Scales

variable {R : Pool → Pool → Prop}

theorem checkAutoscaling (h : Scales R) (n : ℕ) (s : Pool) :
    R s (AgentPool.checkAutoscaling env n s) := by
  induction n generalizing s with
  | zero => exact h.refl s
  | succ n ih =>
    unfold AgentPool.checkAutoscaling
    split
    · exact h.refl s
    · dsimp only
      split_ifs
      · exact h.refl s
      · exact h.planned s _ s.deleting
      · split
        · exact h.refl s
        · rename_i agent _
          have hrec := h.trans _ _ _ (h.stopped s agent.id) (ih (mapAgent agent.id Agent.stopped s))
          exact h.trans _ _ _ hrec (h.planned _ _ _)
      · exact h.refl s

theorem stateChanged (h : Scales R) (s : Pool) : R s (AgentPool.stateChanged env s) :=
  h.checkAutoscaling _ s

theorem stopAll (h : Scales R) (ids : List ℕ) (s : Pool) : R s (AgentPool.stopAll env ids s) := by
  induction ids generalizing s with
  | nil => exact h.refl s
  | cons id ids ih =>
    exact h.trans _ _ _ (h.trans _ _ _ (h.stopped s id) (h.stateChanged _)) (ih _)

end Scales

theorem stopped_inv {s : Pool} (h : Inv env s) (id : ℕ) :
    Inv env (mapAgent id Agent.stopped s) := by
  refine h.mapAgents (fun agent => if agent.id = id then agent.stopped else agent) rfl ?_ ?_ ?_
  · intro agent
    split_ifs <;> rfl
  · intro agent
    split_ifs <;> rfl
  · intro agent
    split_ifs
    · intro hidle
      cases hidle
    · exact fun hidle => hidle

theorem scales_inv (env : Env) : Scales fun s t => Inv env s → Inv env t where
  refl _ := id
  trans _ _ _ hst htu h := htu (hst h)
  stopped _ id h := stopped_inv h id
  planned _ _ _ h := h.frame rfl rfl rfl rfl rfl rfl rfl rfl rfl

theorem stateChanged_inv {s : Pool} (h : Inv env s) : Inv env (stateChanged env s) :=
  (scales_inv env).stateChanged s h

theorem stopAll_inv (ids : List ℕ) {s : Pool} (h : Inv env s) : Inv env (stopAll env ids s) :=
  (scales_inv env).stopAll ids s h

/-- Replacing one agent changes a count of agents by its own. -/
theorem countP_update {agents : List Agent} {agent : Agent}
    (hnd : (agents.map Agent.id).Nodup) (hmem : agent ∈ agents) (f : Agent → Agent)
    (p : Agent → Bool) :
    (agents.map fun b => if b.id = agent.id then f b else b).countP p +
        (if p agent then 1 else 0) = agents.countP p + if p (f agent) then 1 else 0 := by
  induction agents with
  | nil => simp at hmem
  | cons b bs ih =>
    obtain ⟨hno, hnd'⟩ := List.nodup_cons.mp hnd
    rw [List.map_cons, List.countP_cons, List.countP_cons]
    by_cases hb : b.id = agent.id
    · have hsame : b = agent := by
        rcases List.mem_cons.mp hmem with heq | hin
        · exact heq.symm
        · exact absurd (hb ▸ List.mem_map_of_mem hin) hno
      subst hsame
      have hrest : (bs.map fun c => if c.id = b.id then f c else c) = bs := by
        conv_rhs => rw [← List.map_id bs]
        refine List.map_congr_left fun c hc => ?_
        have hne : c.id ≠ b.id := fun heq => hno (heq ▸ List.mem_map_of_mem hc)
        simp [hne]
      rw [hrest]
      simp only [if_true]
      omega
    · have hin : agent ∈ bs := by
        rcases List.mem_cons.mp hmem with rfl | hin
        · exact absurd rfl hb
        · exact hin
      have hrec := ih hnd' hin
      simp only [hb, if_false]
      omega

/-- Replacing one agent changes the ids worked on by its own. -/
theorem count_working_update {agents : List Agent} {agent : Agent}
    (hnd : (agents.map Agent.id).Nodup) (hmem : agent ∈ agents) (f : Agent → Agent) (x : String) :
    ((agents.map fun b => if b.id = agent.id then f b else b).filterMap Agent.workOn).count x +
        (if agent.workOn = some x then 1 else 0) =
      (agents.filterMap Agent.workOn).count x + if (f agent).workOn = some x then 1 else 0 := by
  have hcount := countP_update hnd hmem f fun b => b.workOn == some x
  simpa only [List.count_filterMap, beq_iff_eq] using hcount

theorem mem_mapAgent {id : ℕ} {f : Agent → Agent} {s : Pool} {b : Agent} :
    b ∈ (mapAgent id f s).agents ↔
      (∃ agent ∈ s.agents, agent.id = id ∧ f agent = b) ∨ (b ∈ s.agents ∧ b.id ≠ id) := by
  simp only [mapAgent, List.mem_map]
  constructor
  · rintro ⟨agent, hmem, rfl⟩
    split_ifs with hid
    · exact Or.inl ⟨agent, hmem, hid, rfl⟩
    · exact Or.inr ⟨hmem, hid⟩
  · rintro (⟨agent, hmem, hid, rfl⟩ | ⟨hmem, hne⟩)
    · exact ⟨agent, hmem, if_pos hid⟩
    · exact ⟨b, hmem, if_neg hne⟩

theorem mapAgent_ids (id : ℕ) (s : Pool) {f : Agent → Agent}
    (hf : ∀ agent, (f agent).id = agent.id) :
    (mapAgent id f s).agents.map Agent.id = s.agents.map Agent.id := by
  rw [mapAgent, List.map_map]
  refine List.map_congr_left fun agent _ => ?_
  simp only [Function.comp_apply]
  split_ifs
  · exact hf agent
  · rfl

theorem agent_eq {s : Pool} (h : Inv env s) {b c : Agent} (hb : b ∈ s.agents) (hc : c ∈ s.agents)
    (hid : b.id = c.id) : b = c := List.inj_on_of_nodup_map h.nodup hb hc hid

/-- One agent is replaced, the others stay. -/
theorem mem_mapAgent_of_mem {s : Pool} (h : Inv env s) {agent : Agent} (hmem : agent ∈ s.agents)
    (f : Agent → Agent) (b : Agent) :
    b ∈ (mapAgent agent.id f s).agents ↔ b = f agent ∨ (b ∈ s.agents ∧ b.id ≠ agent.id) := by
  rw [mem_mapAgent]
  refine or_congr_left ⟨?_, ?_⟩
  · rintro ⟨c, hc, hid, rfl⟩
    rw [agent_eq h hc hmem hid]
  · rintro rfl
    exact ⟨agent, hmem, rfl, rfl⟩

theorem mem_working {s : Pool} {x : String} :
    x ∈ s.working ↔ ∃ agent ∈ s.agents, agent.workOn = some x := by
  simp [Pool.working, List.mem_filterMap]

theorem tally_le_one {s : Pool} (h : Inv env s) (hdist : s.acceptedIds.Nodup) (x : String) :
    s.tally x ≤ 1 :=
  (h.tally_le x).trans (List.nodup_iff_count_le_one.mp hdist x)

/-- One agent gets another state and another work, and the count stays. -/
theorem Inv.replace {s t : Pool} {agent : Agent} (h : Inv env s) (hmem : agent ∈ s.agents)
    (f : Agent → Agent) (hf : ∀ b, (f b).id = b.id)
    (hagents : t.agents = (mapAgent agent.id f s).agents) (hnext : t.nextId = s.nextId)
    (hacc : t.accepted = s.accepted) (hrej : t.rejecting = s.rejecting)
    (hidle : (f agent).state = .idle → (f agent).currentTask = none)
    (hknown : ∀ w, (f agent).currentTask = some w →
      w.queued.assignment ∈ s.accepted ∧ TaskAssignmentSchema env w.queued.assignment = true)
    (hqueue : ∀ q ∈ t.taskQueue, q.assignment ∈ s.accepted)
    (hretry : ∀ r ∈ t.retrying,
      r.assignment ∈ s.accepted ∧ TaskAssignmentSchema env r.assignment = true)
    (hdlq : ∀ e ∈ t.deadLetterQueue,
      e.assignment ∈ s.accepted ∧ TaskAssignmentSchema env e.assignment = true)
    (hdone : ∀ x, t.taskHistory x = some true → ∃ a ∈ s.accepted, a.taskId = x ∧
      TaskAssignmentSchema env a = true)
    (hsome : ∀ x i, t.inFlight x = some i → (i = agent.id ∧ (f agent).workOn = some x) ∨
      (s.inFlight x = some i ∧ agent.workOn ≠ some x))
    (hwork : ∀ x, (f agent).workOn = some x → t.inFlight x = some agent.id)
    (hother : ∀ b ∈ s.agents, b.id ≠ agent.id → ∀ x, b.workOn = some x →
      t.inFlight x = s.inFlight x)
    (htally : t.tally = s.tally) : Inv env t := by
  have hmemt : ∀ b, b ∈ t.agents ↔ b = f agent ∨ (b ∈ s.agents ∧ b.id ≠ agent.id) := by
    rw [hagents]
    exact mem_mapAgent_of_mem h hmem f
  have hids : t.acceptedIds = s.acceptedIds := by simp only [Pool.acceptedIds, hacc]
  constructor
  case nodup =>
    rw [hagents, mapAgent_ids agent.id s hf]
    exact h.nodup
  case fresh =>
    intro b hb
    rw [hnext]
    rcases (hmemt b).mp hb with rfl | ⟨hb, -⟩
    · rw [hf]
      exact h.fresh agent hmem
    · exact h.fresh b hb
  case idle_free =>
    intro b hb hst
    rcases (hmemt b).mp hb with rfl | ⟨hb, -⟩
    · exact hidle hst
    · exact h.idle_free b hb hst
  case queue_known =>
    rw [hacc]
    exact hqueue
  case work_known =>
    intro b hb w hw
    rw [hacc]
    rcases (hmemt b).mp hb with rfl | ⟨hb, -⟩
    · exact hknown w hw
    · exact h.work_known b hb w hw
  case retry_known =>
    rw [hacc]
    exact hretry
  case dlq_known =>
    rw [hacc]
    exact hdlq
  case done_known =>
    rw [hacc]
    exact hdone
  case rejecting_invalid =>
    rw [hrej, hacc]
    exact h.rejecting_invalid
  case inFlight_some =>
    intro x i hflight
    rw [hrej]
    rcases hsome x i hflight with ⟨rfl, hnew⟩ | ⟨hold, hne⟩
    · exact Or.inr ⟨f agent, (hmemt _).mpr (Or.inl rfl), hf agent, hnew⟩
    · refine (h.inFlight_some x i hold).imp_right ?_
      rintro ⟨b, hb, hid, hwork'⟩
      have hdiff : b.id ≠ agent.id := by
        intro heq
        rw [agent_eq h hb hmem heq] at hwork'
        exact hne hwork'
      exact ⟨b, (hmemt b).mpr (Or.inr ⟨hb, hdiff⟩), hid, hwork'⟩
  case work_inFlight =>
    intro b hb x hwork'
    rcases (hmemt b).mp hb with rfl | ⟨hb, hne⟩
    · rw [hf]
      exact hwork x hwork'
    · rw [hother b hb hne x hwork']
      exact h.work_inFlight b hb x hwork'
  case tally_le =>
    intro x
    rw [htally, hids]
    exact h.tally_le x
  case tally_valid =>
    intro a ha hvalid
    rw [htally]
    exact h.tally_valid a (hacc ▸ ha) hvalid

theorem mem_of_selectAgent {random : ℕ} {a : TaskAssignment} {s : Pool} {agent : Agent}
    (h : selectAgent random a s = some agent) : agent ∈ s.agents ∧ agent.listed = true ∧
      agent.isAvailable = true ∧ agent.canHandle a = true := by
  have hmem : agent ∈ s.agents.filter fun agent =>
      agent.listed && agent.isAvailable && agent.canHandle a := by
    unfold selectAgent at h
    dsimp only at h
    split at h
    · exact List.mem_of_mem_head? h
    · exact List.mem_of_mem_head? h
    · exact List.mem_of_getElem? h
    · rcases Option.or_eq_some_iff.mp h with hfind | ⟨-, hhead⟩
      · exact List.mem_of_find?_eq_some hfind
      · exact List.mem_of_mem_head? hhead
  obtain ⟨hin, hcond⟩ := List.mem_filter.mp hmem
  simp only [Bool.and_eq_true] at hcond
  exact ⟨hin, hcond.1.1, hcond.1.2, hcond.2⟩

theorem selectAgent_some {random : ℕ} {a : TaskAssignment} {s : Pool} {agent : Agent}
    (h : selectAgent random a s = some agent) : agent ∈ s.agents ∧ agent.state = .idle := by
  obtain ⟨hmem, -, havailable, -⟩ := mem_of_selectAgent h
  exact ⟨hmem, of_decide_eq_true havailable⟩

section Assign

variable {s : Pool} {task : QueuedTask} {rest : List QueuedTask} {agent : Agent}

/-- A queued task stands nowhere else. -/
theorem queued_only (h : Inv env s) (hdist : s.acceptedIds.Nodup)
    (hqueue : s.taskQueue = task :: rest) :
    task.assignment.taskId ∉ s.working ∧ task.assignment.taskId ∉ s.rejecting := by
  have hone := tally_le_one h hdist task.assignment.taskId
  simp only [Pool.tally, hqueue, List.map_cons, List.count_cons_self] at hone
  constructor
  · intro hin
    have hpos := List.count_pos_iff.mpr hin
    omega
  · intro hin
    have hpos := List.count_pos_iff.mpr hin
    omega

/-- The payload does not parse: the dispatch is rejected. -/
theorem reject_inv (h : Inv env s) (hdist : s.acceptedIds.Nodup)
    (hqueue : s.taskQueue = task :: rest)
    (hinvalid : TaskAssignmentSchema env task.assignment = false) (i : ℕ) {t : Pool}
    (ht : t = { s with
      taskQueue := rest
      inFlight := Function.update s.inFlight task.assignment.taskId (some i)
      rejecting := s.rejecting ++ [task.assignment.taskId] }) : Inv env t := by
  have hnew := queued_only h hdist hqueue
  have hknown := h.queue_known task (by simp [hqueue])
  have htally : t.tally = s.tally := by
    funext x
    simp only [ht, Pool.tally, Pool.working, Pool.settled, hqueue, List.map_cons, List.count_cons,
      List.count_append, List.count_nil]
    omega
  subst ht
  constructor
  case nodup => exact h.nodup
  case fresh => exact h.fresh
  case idle_free => exact h.idle_free
  case queue_known => exact fun q hq => h.queue_known q (by simp [hqueue, show q ∈ rest from hq])
  case work_known => exact h.work_known
  case retry_known => exact h.retry_known
  case dlq_known => exact h.dlq_known
  case done_known => exact h.done_known
  case rejecting_invalid =>
    intro x hx
    rcases List.mem_append.mp hx with hx | hx
    · exact h.rejecting_invalid x hx
    · exact ⟨task.assignment, hknown, (List.mem_singleton.mp hx).symm, hinvalid⟩
  case inFlight_some =>
    intro x j hflight
    by_cases hx : x = task.assignment.taskId
    · exact Or.inl (by simp [hx])
    · have hold : s.inFlight x = some j := by simpa [Function.update_of_ne hx] using hflight
      exact (h.inFlight_some x j hold).imp_left (List.mem_append_left _)
  case work_inFlight =>
    intro b hb x hwork
    have hx : x ≠ task.assignment.taskId := by
      rintro rfl
      exact hnew.1 (mem_working.mpr ⟨b, hb, hwork⟩)
    simpa [Function.update_of_ne hx] using h.work_inFlight b hb x hwork
  case tally_le =>
    intro x
    rw [htally]
    exact h.tally_le x
  case tally_valid =>
    intro a ha hvalid
    rw [htally]
    exact h.tally_valid a ha hvalid

/-- The agent takes the task. -/
theorem take_inv (h : Inv env s) (hdist : s.acceptedIds.Nodup)
    (hqueue : s.taskQueue = task :: rest) (hmem : agent ∈ s.agents) (hidle : agent.state = .idle)
    (hvalid : TaskAssignmentSchema env task.assignment = true) {t : Pool}
    (ht : t = mapAgent agent.id
      (fun agent => { agent with state := .busy, currentTask := some ⟨task, false⟩ })
      { s with
        taskQueue := rest
        inFlight := Function.update s.inFlight task.assignment.taskId (some agent.id) }) :
    Inv env t := by
  have hnew := queued_only h hdist hqueue
  have hnone : agent.workOn = none := by simp [Agent.workOn, h.idle_free agent hmem hidle]
  have htally : t.tally = s.tally := by
    funext x
    have hcount := count_working_update h.nodup hmem
      (fun agent => { agent with state := .busy, currentTask := some ⟨task, false⟩ }) x
    have hsome : Agent.workOn { agent with state := .busy, currentTask := some ⟨task, false⟩ } =
      some task.assignment.taskId := rfl
    rw [hnone, hsome] at hcount
    simp only [Option.some.injEq, reduceCtorEq, if_false] at hcount
    simp only [ht, Pool.tally, Pool.working, Pool.settled, mapAgent, hqueue, List.map_cons,
      List.count_cons, beq_iff_eq]
    omega
  subst ht
  refine h.replace hmem
    (fun agent => { agent with state := .busy, currentTask := some ⟨task, false⟩ })
    (fun _ => rfl) rfl rfl rfl rfl (fun hst => by cases hst) ?_ ?_ h.retry_known h.dlq_known
    h.done_known ?_ ?_ ?_ htally
  · rintro w hw
    obtain rfl : Work.mk task false = w := by simpa using hw
    exact ⟨h.queue_known task (by simp [hqueue]), hvalid⟩
  · exact fun q hq => h.queue_known q (by simp [hqueue, show q ∈ rest from hq])
  · intro x i hflight
    have hflight' : Function.update s.inFlight task.assignment.taskId (some agent.id) x = some i :=
      hflight
    by_cases hx : x = task.assignment.taskId
    · subst hx
      exact Or.inl ⟨by simpa using hflight'.symm, rfl⟩
    · rw [Function.update_of_ne hx] at hflight'
      exact Or.inr ⟨hflight', by simp [hnone]⟩
  · intro x hwork
    obtain rfl : task.assignment.taskId = x := by simpa [Agent.workOn] using hwork
    exact Function.update_self ..
  · intro b hb _ x hwork
    refine Function.update_of_ne ?_ _ _
    rintro rfl
    exact hnew.1 (mem_working.mpr ⟨b, hb, hwork⟩)

theorem dispatchNext_inv (h : Inv env s) (hdist : s.acceptedIds.Nodup) (random : ℕ) :
    Inv env (dispatchNext env random s) := by
  unfold dispatchNext
  split
  · exact h
  · rename_i task rest hqueue
    split_ifs
    · exact h
    · split
      · exact h
      · rename_i agent hselect
        obtain ⟨hmem, hidle⟩ := selectAgent_some hselect
        unfold assignTaskToAgent
        split_ifs with hvalid
        · exact stateChanged_inv (take_inv h hdist hqueue hmem hidle hvalid rfl)
        · exact reject_inv h hdist hqueue (by simpa using hvalid) agent.id rfl

end Assign

/-- The order of the queue does not matter to the count. -/
theorem Inv.queue_perm {s t : Pool} (h : Inv env s) {queue : List QueuedTask}
    (hperm : queue.Perm s.taskQueue) (ht : t = { s with taskQueue := queue }) : Inv env t := by
  have htally : t.tally = s.tally := by
    funext x
    have hcount := (hperm.map fun q => q.assignment.taskId).count_eq x
    simp only [ht, Pool.tally, Pool.working, Pool.settled, hcount]
  have hids : t.acceptedIds = s.acceptedIds := by rw [ht]; rfl
  subst ht
  refine ⟨h.nodup, h.fresh, h.idle_free, ?_, h.work_known, h.retry_known, h.dlq_known,
    h.done_known, h.rejecting_invalid, h.inFlight_some, h.work_inFlight, ?_, ?_⟩
  · exact fun q hq => h.queue_known q (hperm.mem_iff.mp hq)
  · intro x
    rw [htally, hids]
    exact h.tally_le x
  · intro a ha hvalid
    rw [htally]
    exact h.tally_valid a ha hvalid

/-- A new task enters the queue and the accepted ones. -/
theorem submit_inv {s t : Pool} (h : Inv env s) (a : TaskAssignment) (now : ℤ)
    (ht : t = { s with
      taskQueue := s.taskQueue ++ [⟨a, 0, now⟩]
      accepted := s.accepted ++ [a] }) : Inv env t := by
  have htally : ∀ x, t.tally x = s.tally x + if a.taskId = x then 1 else 0 := by
    intro x
    simp only [ht, Pool.tally, Pool.working, Pool.settled, List.map_append, List.count_append,
      List.map_cons, List.map_nil, List.count_cons, List.count_nil, beq_iff_eq]
    omega
  have hids : ∀ x, t.acceptedIds.count x = s.acceptedIds.count x + if a.taskId = x then 1 else 0 := by
    intro x
    simp [ht, Pool.acceptedIds, List.count_append, List.count_cons]
  have hsub : ∀ b ∈ s.accepted, b ∈ t.accepted := by
    intro b hb
    simp [ht, hb]
  have htasks : ∀ q ∈ t.taskQueue, q ∈ s.taskQueue ∨ q = ⟨a, 0, now⟩ := by
    intro q hq
    simpa [ht] using hq
  have hlast : a ∈ t.accepted := by simp [ht]
  have hsplit : ∀ b ∈ t.accepted, b ∈ s.accepted ∨ b = a := by
    intro b hb
    simpa [ht] using hb
  subst ht
  refine ⟨h.nodup, h.fresh, h.idle_free, ?_, ?_, ?_, ?_, ?_, ?_, h.inFlight_some,
    h.work_inFlight, ?_, ?_⟩
  · intro q hq
    rcases htasks q hq with hq | rfl
    · exact hsub _ (h.queue_known q hq)
    · exact hlast
  · exact fun b hb w hw => (h.work_known b hb w hw).imp_left (hsub _)
  · exact fun r hr => (h.retry_known r hr).imp_left (hsub _)
  · exact fun e he => (h.dlq_known e he).imp_left (hsub _)
  · intro x hx
    obtain ⟨b, hb, hid⟩ := h.done_known x hx
    exact ⟨b, hsub b hb, hid⟩
  · intro x hx
    obtain ⟨b, hb, hid, hinvalid⟩ := h.rejecting_invalid x hx
    exact ⟨b, hsub b hb, hid, hinvalid⟩
  · intro x
    rw [htally, hids]
    exact Nat.add_le_add_right (h.tally_le x) _
  · intro b hb hvalid
    rw [htally]
    rcases hsplit b hb with hb | rfl
    · exact (h.tally_valid b hb hvalid).trans (Nat.le_add_right _ _)
    · simp

/-- A retry timer moves its task back to the queue. -/
theorem retry_inv {s t : Pool} (h : Inv env s) {index : ℕ} {r : ScheduledRetry}
    (hr : s.retrying[index]? = some r) (now : ℤ)
    (ht : t = { s with
      retrying := s.retrying.eraseIdx index
      taskQueue := s.taskQueue ++ [⟨r.assignment, r.retries, now⟩] }) : Inv env t := by
  obtain ⟨hlt, hget⟩ := List.getElem?_eq_some_iff.mp hr
  have hperm : (r :: s.retrying.eraseIdx index).Perm s.retrying := by
    rw [← hget]
    exact List.getElem_cons_eraseIdx_perm hlt
  have hknown := h.retry_known r (hperm.mem_iff.mp (List.mem_cons_self ..))
  have htally : t.tally = s.tally := by
    funext x
    have hcount := (hperm.map fun r => r.assignment.taskId).count_eq x
    simp only [List.map_cons, List.count_cons, beq_iff_eq] at hcount
    simp only [ht, Pool.tally, Pool.working, Pool.settled, List.map_append, List.count_append,
      List.map_cons, List.map_nil, List.count_cons, List.count_nil, beq_iff_eq]
    omega
  have hids : t.acceptedIds = s.acceptedIds := by rw [ht]; rfl
  subst ht
  refine ⟨h.nodup, h.fresh, h.idle_free, ?_, h.work_known, ?_, h.dlq_known, h.done_known,
    h.rejecting_invalid, h.inFlight_some, h.work_inFlight, ?_, ?_⟩
  · intro q hq
    rcases List.mem_append.mp hq with hq | hq
    · exact h.queue_known q hq
    · obtain rfl := List.mem_singleton.mp hq
      exact hknown.1
  · exact fun r' hr' => h.retry_known r' (hperm.mem_iff.mp (List.mem_cons_of_mem _ hr'))
  · intro x
    rw [htally, hids]
    exact h.tally_le x
  · intro a ha hvalid
    rw [htally]
    exact h.tally_valid a ha hvalid

/-- The `catch` callback drops a task, but never one whose payload parses. -/
theorem dispatchError_inv {s t : Pool} (h : Inv env s) (hdist : s.acceptedIds.Nodup) {x : String}
    (hx : x ∈ s.rejecting)
    (ht : t = { s with
      rejecting := s.rejecting.erase x
      inFlight := Function.update s.inFlight x none }) : Inv env t := by
  have hpos := List.count_pos_iff.mpr hx
  have hcount : ∀ y, (s.rejecting.erase x).count y =
      s.rejecting.count y - if x = y then 1 else 0 := by
    intro y
    by_cases hy : x = y
    · subst hy
      simp
    · simp [List.count_erase_of_ne (Ne.symm hy), hy]
  have htally : ∀ y, t.tally y = s.tally y - if x = y then 1 else 0 := by
    intro y
    have hqueue : t.taskQueue = s.taskQueue := by rw [ht]
    have hworking : t.working = s.working := by rw [ht]; rfl
    have hrej : t.rejecting = s.rejecting.erase x := by rw [ht]
    have hsettled : t.settled y = s.settled y := by rw [ht]; rfl
    rw [Pool.tally, Pool.tally, hqueue, hworking, hrej, hsettled, hcount]
    by_cases heq : x = y
    · subst heq
      simp only [if_true]
      omega
    · simp only [heq, if_false]
      omega
  have hids : t.acceptedIds = s.acceptedIds := by rw [ht]; rfl
  subst ht
  refine ⟨h.nodup, h.fresh, h.idle_free, h.queue_known, h.work_known, h.retry_known, h.dlq_known,
    h.done_known, ?_, ?_, ?_, ?_, ?_⟩
  · exact fun y hy => h.rejecting_invalid y (List.mem_of_mem_erase hy)
  · intro y i hflight
    by_cases hy : y = x
    · simp [hy] at hflight
    · have hold : s.inFlight y = some i := by simpa [Function.update_of_ne hy] using hflight
      exact (h.inFlight_some y i hold).imp_left fun hin => (List.mem_erase_of_ne hy).mpr hin
  · intro b hb y hwork
    have hy : y ≠ x := by
      rintro rfl
      have hone := tally_le_one h hdist y
      have hwpos : 0 < s.working.count y :=
        List.count_pos_iff.mpr (mem_working.mpr ⟨b, hb, hwork⟩)
      simp only [Pool.tally] at hone
      omega
    simpa [Function.update_of_ne hy] using h.work_inFlight b hb y hwork
  · intro y
    rw [htally, hids]
    exact (Nat.sub_le _ _).trans (h.tally_le y)
  · intro a ha hvalid
    rw [htally]
    have hne : x ≠ a.taskId := by
      rintro rfl
      obtain ⟨b, hb, hid, hinvalid⟩ := h.rejecting_invalid _ hx
      have heq : b = a := List.inj_on_of_nodup_map hdist hb ha hid
      rw [heq, hvalid] at hinvalid
      cases hinvalid
    simpa [hne] using h.tally_valid a ha hvalid

section Report

variable {s : Pool} {agent : Agent} {queued : QueuedTask}

/-- The agent once its result was sent. -/
def Agent.reported (queued : QueuedTask) (agent : Agent) : Agent :=
  { agent with currentTask := some ⟨queued, true⟩ }

/-- A result adds one to the places it moves tasks to. -/
theorem handleResult_settled (queued : QueuedTask) (result : TaskResult) (s : Pool)
    (hhist : s.taskHistory queued.assignment.taskId ≠ some true) (x : String) :
    (handleResult queued result s).settled x =
      s.settled x + if queued.assignment.taskId = x then 1 else 0 := by
  unfold handleResult Pool.settled
  dsimp only
  split
  · by_cases heq : queued.assignment.taskId = x
    · subst heq
      simp [hhist]
    · simp [heq, Function.update_of_ne (Ne.symm heq)]
  · split
    · simp only [List.map_append, List.count_append, List.map_cons, List.map_nil, List.count_cons,
        List.count_nil, beq_iff_eq]
      omega
    · have hbase : (if Function.update s.taskHistory queued.assignment.taskId (some false) x =
          some true then 1 else 0) = if s.taskHistory x = some true then 1 else 0 := by
        by_cases heq : queued.assignment.taskId = x
        · subst heq
          simp [hhist]
        · rw [Function.update_of_ne (Ne.symm heq)]
      rw [hbase]
      simp only [List.map_append, List.count_append, List.map_cons, List.map_nil, List.count_cons,
        List.count_nil, beq_iff_eq]
      omega

theorem handleResult_history (queued : QueuedTask) (result : TaskResult) (s : Pool) {x : String}
    (hx : x ≠ queued.assignment.taskId) :
    (handleResult queued result s).taskHistory x = s.taskHistory x := by
  unfold handleResult
  dsimp only
  split
  · exact Function.update_of_ne hx _ _
  · split
    · rfl
    · exact Function.update_of_ne hx _ _

/-- A result leaves the queue, the agents and the callers alone. -/
theorem handleResult_frame (queued : QueuedTask) (result : TaskResult) (s : Pool) :
    (handleResult queued result s).agents = s.agents ∧
      (handleResult queued result s).taskQueue = s.taskQueue ∧
      (handleResult queued result s).rejecting = s.rejecting ∧
      (handleResult queued result s).nextId = s.nextId ∧
      (handleResult queued result s).accepted = s.accepted ∧
      (handleResult queued result s).inFlight =
        Function.update s.inFlight queued.assignment.taskId none := by
  unfold handleResult
  dsimp only
  split_ifs <;> exact ⟨rfl, rfl, rfl, rfl, rfl, rfl⟩

theorem mem_handleResult_retrying {queued : QueuedTask} {result : TaskResult} {s : Pool}
    {r : ScheduledRetry} (hr : r ∈ (handleResult queued result s).retrying) :
    r ∈ s.retrying ∨ r.assignment = queued.assignment := by
  unfold handleResult at hr
  dsimp only at hr
  split_ifs at hr
  · exact Or.inl hr
  · rcases List.mem_append.mp hr with hr | hr
    · exact Or.inl hr
    · exact Or.inr (by rw [List.mem_singleton.mp hr])
  · exact Or.inl hr

theorem mem_handleResult_deadLetters {queued : QueuedTask} {result : TaskResult} {s : Pool}
    {e : DLQEntry} (he : e ∈ (handleResult queued result s).deadLetterQueue) :
    e ∈ s.deadLetterQueue ∨ e.assignment = queued.assignment := by
  unfold handleResult at he
  dsimp only at he
  split_ifs at he
  · exact Or.inl he
  · exact Or.inl he
  · rcases List.mem_append.mp he with he | he
    · exact Or.inl he
    · exact Or.inr (by rw [List.mem_singleton.mp he])

/-- The result moves the task from its agent to the retries, the dead letters or the history. -/
theorem report_inv (h : Inv env s) (hdist : s.acceptedIds.Nodup) (hmem : agent ∈ s.agents)
    (htask : agent.currentTask = some ⟨queued, false⟩) (result : TaskResult) {t : Pool}
    (ht : t = handleResult queued result (mapAgent agent.id (Agent.reported queued) s)) :
    Inv env t := by
  have hwork : agent.workOn = some queued.assignment.taskId := by simp [Agent.workOn, htask]
  have hknown := h.work_known agent hmem _ htask
  have hone := tally_le_one h hdist queued.assignment.taskId
  have hcount := count_working_update h.nodup hmem (Agent.reported queued)
  have hnone : (Agent.reported queued agent).workOn = none := rfl
  have hpos : 0 < s.working.count queued.assignment.taskId :=
    List.count_pos_iff.mpr (mem_working.mpr ⟨agent, hmem, hwork⟩)
  have hhist : s.taskHistory queued.assignment.taskId ≠ some true := by
    intro heq
    simp only [Pool.tally, Pool.settled, heq, if_true] at hone
    omega
  simp only [hwork, hnone, reduceCtorEq, if_false, Option.some.injEq] at hcount
  obtain ⟨hagents, hqueue, hrej, hnext, hacc, hflight⟩ :=
    handleResult_frame queued result (mapAgent agent.id (Agent.reported queued) s)
  rw [← ht] at hagents hqueue hrej hnext hacc hflight
  have htally : t.tally = s.tally := by
    funext x
    have hx := hcount x
    have hworking : t.working =
        (s.agents.map fun b => if b.id = agent.id then Agent.reported queued b else b).filterMap
          Agent.workOn := by
      rw [Pool.working, hagents]
      rfl
    have hold : s.agents.filterMap Agent.workOn = s.working := rfl
    have hsettled : t.settled x = s.settled x + if queued.assignment.taskId = x then 1 else 0 := by
      rw [ht]
      exact handleResult_settled queued result (mapAgent agent.id (Agent.reported queued) s) hhist x
    have hqueue' : t.taskQueue = s.taskQueue := hqueue
    have hrej' : t.rejecting = s.rejecting := hrej
    rw [← hworking, hold] at hx
    rw [Pool.tally, Pool.tally, hqueue', hrej', hsettled]
    omega
  -- no other agent works on the task
  have hother : ∀ b ∈ s.agents, b.id ≠ agent.id → ∀ x, b.workOn = some x →
      x ≠ queued.assignment.taskId := by
    rintro b hb hne _ hwork' rfl
    have hflight' := (h.work_inFlight b hb _ hwork').symm.trans (h.work_inFlight agent hmem _ hwork)
    exact hne (Option.some.inj hflight')
  refine h.replace hmem (Agent.reported queued) (fun _ => rfl) hagents hnext hacc hrej ?_ ?_ ?_ ?_
    ?_ ?_ ?_ ?_ ?_ htally
  · intro hst
    have hidle := h.idle_free agent hmem hst
    rw [htask] at hidle
    cases hidle
  · intro w hw
    obtain rfl : Work.mk queued true = w := by simpa [Agent.reported] using hw
    exact hknown
  · rw [hqueue]
    exact h.queue_known
  · intro r hr
    rw [ht] at hr
    rcases mem_handleResult_retrying hr with hr | heq
    · exact h.retry_known r hr
    · exact heq ▸ hknown
  · intro e he
    rw [ht] at he
    rcases mem_handleResult_deadLetters he with he | heq
    · exact h.dlq_known e he
    · exact heq ▸ hknown
  · intro x hx
    by_cases heq : x = queued.assignment.taskId
    · exact ⟨_, hknown.1, heq.symm, hknown.2⟩
    · rw [ht, handleResult_history queued result _ heq] at hx
      exact h.done_known x hx
  · intro x i hf
    rw [hflight] at hf
    by_cases hx : x = queued.assignment.taskId
    · simp [hx] at hf
    · rw [Function.update_of_ne hx] at hf
      exact Or.inr ⟨hf, by simpa [hwork] using Ne.symm hx⟩
  · intro x hx
    rw [hnone] at hx
    cases hx
  · intro b hb hne x hwork'
    rw [hflight]
    exact Function.update_of_ne (hother b hb hne x hwork') _ _

end Report

/-- The `finally` block of an agent that has reported. -/
theorem free_inv {s : Pool} {agent : Agent} {queued : QueuedTask} (h : Inv env s)
    (hmem : agent ∈ s.agents) (htask : agent.currentTask = some ⟨queued, true⟩) {t : Pool}
    (ht : t = mapAgent agent.id (fun b => { b with state := .idle, currentTask := none }) s) :
    Inv env t := by
  have hold : agent.workOn = none := by simp [Agent.workOn, htask]
  have htally : t.tally = s.tally := by
    funext x
    have hcount := count_working_update h.nodup hmem
      (fun b => { b with state := .idle, currentTask := none }) x
    have hnew : Agent.workOn { agent with state := .idle, currentTask := none } = none := rfl
    rw [hold, hnew] at hcount
    simp only [reduceCtorEq, if_false] at hcount
    simp only [ht, Pool.tally, Pool.working, Pool.settled, mapAgent]
    omega
  subst ht
  refine h.replace hmem (fun b => { b with state := .idle, currentTask := none }) (fun _ => rfl)
    rfl rfl rfl rfl (fun _ => rfl) (fun _ hw => by cases hw) h.queue_known h.retry_known
    h.dlq_known h.done_known ?_ (fun _ hw => by cases hw) (fun _ _ _ _ _ => rfl) htally
  exact fun x i hflight => Or.inr ⟨hflight, by simp [hold]⟩

theorem spawned_inv {s : Pool} (h : Inv env s) (capabilities : AgentCapability) {t : Pool}
    (ht : t = { s with
      agents := s.agents ++ [⟨s.nextId, capabilities, .idle, none, true⟩]
      nextId := s.nextId + 1 }) : Inv env t := by
  have hworking : t.working = s.working := by
    simp [ht, Pool.working, Agent.workOn, List.filterMap_append]
  have htally : t.tally = s.tally := by
    funext x
    have hqueue : t.taskQueue = s.taskQueue := by rw [ht]
    have hrej : t.rejecting = s.rejecting := by rw [ht]
    have hsettled : t.settled x = s.settled x := by rw [ht]; rfl
    rw [Pool.tally, Pool.tally, hqueue, hworking, hrej, hsettled]
  have hids : t.acceptedIds = s.acceptedIds := by rw [ht]; rfl
  have hmemt : ∀ b, b ∈ t.agents ↔ b ∈ s.agents ∨ b = ⟨s.nextId, capabilities, .idle, none, true⟩ := by
    intro b
    simp [ht]
  have hacc : t.accepted = s.accepted := by rw [ht]
  have hflight : t.inFlight = s.inFlight := by rw [ht]
  constructor
  case nodup =>
    have hmap : t.agents.map Agent.id = s.agents.map Agent.id ++ [s.nextId] := by simp [ht]
    rw [hmap]
    refine List.nodup_append.mpr ⟨h.nodup, by simp, ?_⟩
    rintro i hi _ hj rfl
    obtain ⟨b, hb, rfl⟩ := List.mem_map.mp hi
    have hlt := h.fresh b hb
    have heq := List.mem_singleton.mp hj
    omega
  case fresh =>
    intro b hb
    have hnext : t.nextId = s.nextId + 1 := by rw [ht]
    rw [hnext]
    rcases (hmemt b).mp hb with hb | rfl
    · exact Nat.lt_succ_of_lt (h.fresh b hb)
    · exact Nat.lt_succ_self _
  case idle_free =>
    intro b hb hst
    rcases (hmemt b).mp hb with hb | rfl
    · exact h.idle_free b hb hst
    · rfl
  case queue_known =>
    rw [ht]
    exact h.queue_known
  case work_known =>
    intro b hb w hw
    rw [hacc]
    rcases (hmemt b).mp hb with hb | rfl
    · exact h.work_known b hb w hw
    · cases hw
  case retry_known =>
    rw [ht]
    exact h.retry_known
  case dlq_known =>
    rw [ht]
    exact h.dlq_known
  case done_known =>
    rw [ht]
    exact h.done_known
  case rejecting_invalid =>
    rw [ht]
    exact h.rejecting_invalid
  case inFlight_some =>
    intro x i hf
    rw [hflight] at hf
    rcases h.inFlight_some x i hf with hin | ⟨b, hb, hid, hwork⟩
    · exact Or.inl (by rw [ht]; exact hin)
    · exact Or.inr ⟨b, (hmemt b).mpr (Or.inl hb), hid, hwork⟩
  case work_inFlight =>
    intro b hb x hwork
    rw [hflight]
    rcases (hmemt b).mp hb with hb | rfl
    · exact h.work_inFlight b hb x hwork
    · cases hwork
  case tally_le =>
    intro x
    rw [htally, hids]
    exact h.tally_le x
  case tally_valid =>
    intro a ha hvalid
    rw [htally]
    exact h.tally_valid a (hacc ▸ ha) hvalid

theorem scales_accepted : Scales fun s t => t.accepted = s.accepted where
  refl _ := rfl
  trans _ _ _ hst htu := htu.trans hst
  stopped _ _ := rfl
  planned _ _ _ := rfl

theorem stateChanged_accepted (s : Pool) : (stateChanged env s).accepted = s.accepted :=
  scales_accepted.stateChanged s

theorem stopAll_accepted (ids : List ℕ) (s : Pool) : (stopAll env ids s).accepted = s.accepted :=
  scales_accepted.stopAll ids s

theorem dispatchNext_accepted (random : ℕ) (s : Pool) :
    (dispatchNext env random s).accepted = s.accepted := by
  unfold dispatchNext
  split
  · rfl
  · split_ifs
    · rfl
    · split
      · rfl
      · unfold assignTaskToAgent
        split_ifs
        · exact stateChanged_accepted _
        · rfl

theorem handleResult_accepted (queued : QueuedTask) (result : TaskResult) (s : Pool) :
    (handleResult queued result s).accepted = s.accepted :=
  (handleResult_frame queued result s).2.2.2.2.1

theorem find_agent {s : Pool} {id : ℕ} {agent : Agent}
    (h : s.agents.find? (fun agent => decide (agent.id = id)) = some agent) :
    agent ∈ s.agents ∧ agent.id = id :=
  ⟨List.mem_of_find?_eq_some h, by simpa using List.find?_some h⟩

/-- What one stretch of code does, and when it can run. -/
inductive Stretch (env : Env) (s : Pool) : Action → Pool → Prop
  | started (hrunning : s.isRunning = true) : Stretch env s .start s
  | start (hrunning : s.isRunning = false) : Stretch env s .start { s with
      isRunning := true
      spawning := s.spawning ++ List.replicate s.spec.replicas (createAgentForRole s.spec) }
  | submitTask (b : TaskAssignment) (now : ℤ) (random : ℕ) (hopen : s.draining = false) :
      Stretch env s (.submitTask b now random) (dispatchNext env random
        { enqueue ⟨b, 0, now⟩ s with accepted := s.accepted ++ [b] })
  | report (agent : Agent) (queued : QueuedTask) (result : TaskResult) (hmem : agent ∈ s.agents)
      (htask : agent.currentTask = some ⟨queued, false⟩) :
      Stretch env s (.report agent.id result) (handleResult queued result
        (mapAgent agent.id (fun agent => { agent with currentTask := some ⟨queued, true⟩ }) s))
  | free (agent : Agent) (queued : QueuedTask) (random : ℕ) (hmem : agent ∈ s.agents)
      (htask : agent.currentTask = some ⟨queued, true⟩) :
      Stretch env s (.free agent.id random) (dispatchNext env random (stateChanged env
        (mapAgent agent.id (fun agent => { agent with state := .idle, currentTask := none }) s)))
  | dispatchError (taskId : String) (hrejecting : taskId ∈ s.rejecting) :
      Stretch env s (.dispatchError taskId) { s with
        rejecting := s.rejecting.erase taskId
        inFlight := Function.update s.inFlight taskId none }
  | retry (index : ℕ) (r : ScheduledRetry) (now : ℤ) (random : ℕ)
      (hr : s.retrying[index]? = some r) :
      Stretch env s (.retry index now random) (dispatchNext env random
        (enqueue ⟨r.assignment, r.retries, now⟩ { s with retrying := s.retrying.eraseIdx index }))
  | spawned (capabilities : AgentCapability) (spawning : List AgentCapability)
      (hspawning : s.spawning = capabilities :: spawning) : Stretch env s .spawned { s with
        spawning := spawning
        agents := s.agents ++ [⟨s.nextId, capabilities, .idle, none, true⟩]
        nextId := s.nextId + 1 }
  | terminateAgent (id : ℕ)
      (hlisted : (s.agents.any fun agent => agent.listed && decide (agent.id = id)) = true) :
      Stretch env s (.terminateAgent id) { stateChanged env (mapAgent id Agent.stopped s) with
        deleting := (stateChanged env (mapAgent id Agent.stopped s)).deleting ++ [id] }
  | deleted (id : ℕ) (hid : id ∈ s.deleting) : Stretch env s (.deleted id)
      { mapAgent id (fun agent => { agent with listed := false }) s with
        deleting := s.deleting.erase id }
  | stop : Stretch env s .stop { s with draining := true, stopping := s.stopping + 1 }
  | drained (hstopping : 0 < s.stopping) : Stretch env s .drained
      (stopAll env ((s.agents.filter Agent.listed).map Agent.id) { s with
        isRunning := false
        draining := false
        stopping := s.stopping - 1
        clearing := s.clearing + 1 })
  | cleared (hclearing : 0 < s.clearing) : Stretch env s .cleared { s with
      agents := s.agents.map fun agent => { agent with listed := false }
      clearing := s.clearing - 1 }
  | setLoadBalancingStrategy (strategy : LoadBalancingStrategy) :
      Stretch env s (.setLoadBalancingStrategy strategy)
        { s with loadBalancingStrategy := strategy }
  | updateSpec (spec : AgentPoolSpec) : Stretch env s (.updateSpec spec) { s with
      spec := spec
      spawning := s.spawning ++
        List.replicate (spec.replicas - s.spec.replicas) (createAgentForRole spec) }

theorem stretch_of_step {s t : Pool} {a : Action} (hs : step env s a = some t) :
    Stretch env s a t := by
  cases a with
  | start =>
    simp only [step] at hs
    split_ifs at hs with hrunning <;> cases hs
    · exact .started hrunning
    · exact .start (by simpa using hrunning)
  | submitTask b now random =>
    simp only [step] at hs
    split_ifs at hs with hdraining
    cases hs
    exact .submitTask b now random (by simpa using hdraining)
  | report id result =>
    simp only [step] at hs
    split at hs
    · rename_i hfind
      cases hs
      obtain ⟨hmem, rfl⟩ := find_agent hfind
      exact .report _ _ result hmem rfl
    · cases hs
  | free id random =>
    simp only [step] at hs
    split at hs
    · rename_i hfind
      cases hs
      obtain ⟨hmem, rfl⟩ := find_agent hfind
      exact .free _ _ random hmem rfl
    · cases hs
  | dispatchError x =>
    simp only [step] at hs
    split_ifs at hs with hx
    cases hs
    exact .dispatchError x hx
  | retry index now random =>
    simp only [step] at hs
    split at hs
    · cases hs
    · rename_i r hr
      cases hs
      exact .retry index r now random hr
  | spawned =>
    simp only [step] at hs
    split at hs
    · cases hs
    · rename_i capabilities spawning hspawning
      cases hs
      exact .spawned capabilities spawning hspawning
  | terminateAgent id =>
    simp only [step] at hs
    split_ifs at hs with hlisted
    cases hs
    exact .terminateAgent id hlisted
  | deleted id =>
    simp only [step] at hs
    split_ifs at hs with hid
    cases hs
    exact .deleted id hid
  | drained =>
    simp only [step] at hs
    split_ifs at hs with hstopping
    cases hs
    exact .drained hstopping
  | cleared =>
    simp only [step] at hs
    split_ifs at hs with hclearing
    cases hs
    exact .cleared hclearing
  | stop =>
    cases hs
    exact .stop
  | setLoadBalancingStrategy strategy =>
    cases hs
    exact .setLoadBalancingStrategy strategy
  | updateSpec spec =>
    cases hs
    exact .updateSpec spec

/-- Nothing is taken out of the accepted tasks. -/
theorem step_accepted {s t : Pool} {a : Action} (hs : step env s a = some t) :
    t.accepted = s.accepted ∨ ∃ b, t.accepted = s.accepted ++ [b] := by
  cases stretch_of_step hs with
  | submitTask b now random => exact Or.inr ⟨b, dispatchNext_accepted random _⟩
  | report agent queued result => exact Or.inl (handleResult_accepted _ _ _)
  | free agent queued random =>
    exact Or.inl ((dispatchNext_accepted random _).trans (stateChanged_accepted _))
  | retry index r now random => exact Or.inl (dispatchNext_accepted random _)
  | terminateAgent id => exact Or.inl (stateChanged_accepted _)
  | drained => exact Or.inl (stopAll_accepted _ _)
  | started | start | dispatchError | spawned | deleted | stop | cleared
  | setLoadBalancingStrategy | updateSpec => exact Or.inl rfl

theorem step_distinct {s t : Pool} {a : Action} (hs : step env s a = some t)
    (hdist : t.acceptedIds.Nodup) : s.acceptedIds.Nodup := by
  rcases step_accepted hs with hacc | ⟨b, hacc⟩
  · simpa only [Pool.acceptedIds, hacc] using hdist
  · rw [Pool.acceptedIds, hacc, List.map_append] at hdist
    exact (List.nodup_append.mp hdist).1

/-- Every step keeps the invariant, as long as the ids stay distinct. -/
theorem step_inv {s t : Pool} {a : Action} (h : Inv env s) (hs : step env s a = some t)
    (hdist : t.acceptedIds.Nodup) : Inv env t := by
  have hdist' := step_distinct hs hdist
  cases stretch_of_step hs with
  | started => exact h
  | start => exact h.frame rfl rfl rfl rfl rfl rfl rfl rfl rfl
  | submitTask b now random =>
    have hsubmit : Inv env { enqueue ⟨b, 0, now⟩ s with accepted := s.accepted ++ [b] } :=
      (submit_inv h b now rfl).queue_perm (List.perm_insertionSort _ _) rfl
    refine dispatchNext_inv hsubmit ?_ random
    simpa only [Pool.acceptedIds, dispatchNext_accepted] using hdist
  | report agent queued result hmem htask => exact report_inv h hdist' hmem htask result rfl
  | free agent queued random hmem htask =>
    refine dispatchNext_inv (stateChanged_inv (free_inv h hmem htask rfl)) ?_ random
    simpa only [Pool.acceptedIds, dispatchNext_accepted] using hdist
  | dispatchError x hx => exact dispatchError_inv h hdist' hx rfl
  | retry index r now random hr =>
    exact dispatchNext_inv ((retry_inv h hr now rfl).queue_perm (List.perm_insertionSort _ _) rfl)
      hdist' random
  | spawned capabilities spawning =>
    have hspawned := spawned_inv h capabilities rfl
    exact hspawned.frame rfl rfl rfl rfl rfl rfl rfl rfl rfl
  | terminateAgent id =>
    exact (stateChanged_inv (stopped_inv h id)).frame rfl rfl rfl rfl rfl rfl rfl rfl rfl
  | deleted id =>
    have hunlisted : Inv env (mapAgent id (fun agent => { agent with listed := false }) s) := by
      refine h.mapAgents (fun agent => if agent.id = id then { agent with listed := false }
        else agent) rfl ?_ ?_ ?_ <;> intro agent <;> split_ifs <;> simp
    exact hunlisted.frame rfl rfl rfl rfl rfl rfl rfl rfl rfl
  | drained => exact stopAll_inv _ (h.frame rfl rfl rfl rfl rfl rfl rfl rfl rfl)
  | cleared =>
    have hunlisted := h.mapAgents (fun agent => { agent with listed := false }) rfl
      (fun _ => rfl) (fun _ => rfl) fun _ hidle => hidle
    exact hunlisted.frame rfl rfl rfl rfl rfl rfl rfl rfl rfl
  | stop | setLoadBalancingStrategy | updateSpec =>
    exact h.frame rfl rfl rfl rfl rfl rfl rfl rfl rfl

theorem reachable_inv {spec : AgentPoolSpec} {s : Pool}
    (h : Reachable (step env) (init spec) s) (hdist : s.acceptedIds.Nodup) : Inv env s := by
  have hall : s.acceptedIds.Nodup → Inv env s :=
    h.invariant (fun _ _ _ hinv hs hd => step_inv (hinv (step_distinct hs hd)) hs hd)
      fun _ => init_inv spec
  exact hall hdist

/-- The places a task can be in. -/
inductive Place
  | pending | inFlight | scheduledRetry | completed | deadLetter
  deriving DecidableEq, Repr

def Pool.At (s : Pool) (x : String) : Place → Prop
  | .pending => ∃ q ∈ s.taskQueue, q.assignment.taskId = x
  | .inFlight => (s.inFlight x).isSome
  | .scheduledRetry => ∃ r ∈ s.retrying, r.assignment.taskId = x
  | .completed => s.taskHistory x = some true
  | .deadLetter => ∃ e ∈ s.deadLetterQueue, e.assignment.taskId = x

/-- The task is in exactly one place, and in flight only while an agent works on it. -/
def Pool.Kept (s : Pool) (x : String) : Prop :=
  (∃! place, s.At x place) ∧
    ∀ i, s.inFlight x = some i → ∃ agent ∈ s.agents, agent.id = i ∧ agent.workOn = some x

/-- A task that does not parse is never worked on, retried, completed or dead-lettered. -/
theorem invalid_inactive {s : Pool} (h : Inv env s) (hdist : s.acceptedIds.Nodup)
    {a : TaskAssignment} (ha : a ∈ s.accepted) (hinvalid : TaskAssignmentSchema env a = false) :
    (∀ agent ∈ s.agents, agent.workOn ≠ some a.taskId) ∧ ¬ s.At a.taskId .scheduledRetry ∧
      ¬ s.At a.taskId .completed ∧ ¬ s.At a.taskId .deadLetter := by
  have hdiff : ∀ b ∈ s.accepted, TaskAssignmentSchema env b = true → b.taskId ≠ a.taskId := by
    intro b hb hvalid hid
    have heq : b = a := List.inj_on_of_nodup_map hdist hb ha hid
    rw [heq, hinvalid] at hvalid
    cases hvalid
  refine ⟨?_, ?_, ?_, ?_⟩
  · intro agent hmem hwork
    cases htask : agent.currentTask with
    | none => simp [Agent.workOn, htask] at hwork
    | some w =>
      have hknown := h.work_known agent hmem w htask
      have hid : w.queued.assignment.taskId = a.taskId := by
        obtain ⟨queued, reported⟩ := w
        cases reported with
        | true => simp [Agent.workOn, htask] at hwork
        | false => simpa [Agent.workOn, htask] using hwork
      exact hdiff _ hknown.1 hknown.2 hid
  · rintro ⟨r, hr, hid⟩
    exact hdiff _ (h.retry_known r hr).1 (h.retry_known r hr).2 hid
  · intro hdone
    obtain ⟨b, hb, hid, hvalid⟩ := h.done_known _ hdone
    exact hdiff b hb hvalid hid
  · rintro ⟨e, he, hid⟩
    exact hdiff _ (h.dlq_known e he).1 (h.dlq_known e he).2 hid

theorem valid_kept {s : Pool} (h : Inv env s) (hdist : s.acceptedIds.Nodup) {a : TaskAssignment}
    (ha : a ∈ s.accepted) (hvalid : TaskAssignmentSchema env a = true) : s.Kept a.taskId := by
  have hge := h.tally_valid a ha hvalid
  have hle := tally_le_one h hdist a.taskId
  have hrej : a.taskId ∉ s.rejecting := by
    intro hin
    obtain ⟨b, hb, hid, hinvalid⟩ := h.rejecting_invalid _ hin
    have heq : b = a := List.inj_on_of_nodup_map hdist hb ha hid
    rw [heq, hvalid] at hinvalid
    cases hinvalid
  have hwork : ∀ i, s.inFlight a.taskId = some i →
      ∃ agent ∈ s.agents, agent.id = i ∧ agent.workOn = some a.taskId :=
    fun i hi => (h.inFlight_some _ i hi).resolve_left hrej
  have hzero : s.rejecting.count a.taskId = 0 := List.count_eq_zero_of_not_mem hrej
  have hpending : s.At a.taskId .pending ↔
      0 < (s.taskQueue.map fun q => q.assignment.taskId).count a.taskId := by
    simp [Pool.At, List.count_pos_iff]
  have hflight : s.At a.taskId .inFlight ↔ 0 < s.working.count a.taskId := by
    rw [List.count_pos_iff, mem_working]
    constructor
    · intro hat
      obtain ⟨i, hi⟩ := Option.isSome_iff_exists.mp hat
      obtain ⟨agent, hmem, -, hw⟩ := hwork i hi
      exact ⟨agent, hmem, hw⟩
    · rintro ⟨agent, hmem, hw⟩
      simp [Pool.At, h.work_inFlight agent hmem _ hw]
  have hretry : s.At a.taskId .scheduledRetry ↔
      0 < (s.retrying.map fun r => r.assignment.taskId).count a.taskId := by
    simp [Pool.At, List.count_pos_iff]
  have hdlq : s.At a.taskId .deadLetter ↔
      0 < (s.deadLetterQueue.map fun e => e.assignment.taskId).count a.taskId := by
    simp [Pool.At, List.count_pos_iff]
  have hdone : s.At a.taskId .completed ↔
      0 < if s.taskHistory a.taskId = some true then 1 else 0 := by
    by_cases hcase : s.taskHistory a.taskId = some true <;> simp [Pool.At, hcase]
  simp only [Pool.tally, Pool.settled, hzero] at hge hle
  generalize hn₁ : (s.taskQueue.map fun q => q.assignment.taskId).count a.taskId = n₁ at *
  generalize hn₂ : s.working.count a.taskId = n₂ at *
  generalize hn₃ : (s.retrying.map fun r => r.assignment.taskId).count a.taskId = n₃ at *
  generalize hn₄ : (s.deadLetterQueue.map fun e => e.assignment.taskId).count a.taskId = n₄ at *
  generalize hn₅ : (if s.taskHistory a.taskId = some true then 1 else 0) = n₅ at *
  have hplaces : ∃ place, s.At a.taskId place := by
    by_contra hno
    have h₁ := mt hpending.mpr (fun hat => hno ⟨_, hat⟩)
    have h₂ := mt hflight.mpr (fun hat => hno ⟨_, hat⟩)
    have h₃ := mt hretry.mpr (fun hat => hno ⟨_, hat⟩)
    have h₄ := mt hdlq.mpr (fun hat => hno ⟨_, hat⟩)
    have h₅ := mt hdone.mpr (fun hat => hno ⟨_, hat⟩)
    omega
  refine ⟨?_, hwork⟩
  obtain ⟨place, hat⟩ := hplaces
  refine ⟨place, hat, fun other hother => ?_⟩
  cases place <;> cases other <;> first
    | rfl
    | (simp only [hpending, hflight, hretry, hdlq, hdone] at hat hother
       omega)

/-- A task that waits in the queue is nowhere else. -/
theorem pending_kept {s : Pool} (h : Inv env s) (hdist : s.acceptedIds.Nodup) {a : TaskAssignment}
    (ha : a ∈ s.accepted) (hinvalid : TaskAssignmentSchema env a = false)
    (hpending : s.At a.taskId .pending) : s.Kept a.taskId := by
  obtain ⟨hwork, hretry, hdone, hdlq⟩ := invalid_inactive h hdist ha hinvalid
  have hflight : s.inFlight a.taskId = none := by
    cases hcase : s.inFlight a.taskId with
    | none => rfl
    | some i =>
      rcases h.inFlight_some _ i hcase with hrej | ⟨agent, hmem, -, hw⟩
      · have hone := tally_le_one h hdist a.taskId
        obtain ⟨q, hq, hid⟩ := hpending
        have hqueue : 0 < (s.taskQueue.map fun q => q.assignment.taskId).count a.taskId :=
          List.count_pos_iff.mpr (List.mem_map.mpr ⟨q, hq, hid⟩)
        have hpos := List.count_pos_iff.mpr hrej
        simp only [Pool.tally] at hone
        omega
      · exact absurd hw (hwork agent hmem)
  refine ⟨⟨.pending, hpending, fun other hother => ?_⟩, fun i hi => ?_⟩
  · cases other with
    | pending => rfl
    | inFlight => simp [Pool.At, hflight] at hother
    | scheduledRetry => exact absurd hother hretry
    | completed => exact absurd hother hdone
    | deadLetter => exact absurd hother hdlq
  · rw [hflight] at hi
    cases hi

/-- In every reachable state of a pool, an accepted task is kept if and only if its assignment
parses or it still waits for its first dispatch. -/
theorem task_kept_iff (env : Env) (spec : AgentPoolSpec) (s : Pool)
    (hs : Reachable (step env) (init spec) s) (hdist : s.acceptedIds.Nodup) (a : TaskAssignment)
    (ha : a ∈ s.accepted) :
    s.Kept a.taskId ↔ TaskAssignmentSchema env a = true ∨ s.At a.taskId .pending := by
  have h := reachable_inv hs hdist
  cases hcase : TaskAssignmentSchema env a with
  | true => simp [valid_kept h hdist ha hcase]
  | false =>
    simp only [Bool.false_eq_true, false_or]
    refine ⟨fun hkept => ?_, pending_kept h hdist ha hcase⟩
    obtain ⟨hwork, hretry, hdone, hdlq⟩ := invalid_inactive h hdist ha hcase
    obtain ⟨⟨place, hat, -⟩, hagent⟩ := hkept
    cases place with
    | pending => exact hat
    | inFlight =>
      obtain ⟨i, hi⟩ := Option.isSome_iff_exists.mp hat
      obtain ⟨agent, hmem, -, hw⟩ := hagent i hi
      exact absurd hw (hwork agent hmem)
    | scheduledRetry => exact absurd hat hretry
    | completed => exact absurd hat hdone
    | deadLetter => exact absurd hat hdlq

theorem nowhere_not_kept {s : Pool} {x : String} (hqueue : s.taskQueue = [])
    (hflight : s.inFlight x = none) (hretry : s.retrying = []) (hdlq : s.deadLetterQueue = [])
    (hhist : s.taskHistory x = none) : ¬ s.Kept x := by
  rintro ⟨⟨place, hat, -⟩, -⟩
  cases place <;> simp [Pool.At, hqueue, hflight, hretry, hdlq, hhist] at hat

/-- The shape of a string, hexadecimal digits written as zeros. -/
def hexShape (x : String) : List Char :=
  x.toList.map fun c =>
    if c.isDigit || ('a' ≤ c && c ≤ 'f') || ('A' ≤ c && c ≤ 'F') then '0' else c

def plainEnv : Env where
  uuid x := hexShape x = "00000000-0000-0000-0000-000000000000".toList
  datetime x := hexShape x = "0000-00-00T00:00:00Z".toList
  utilization busy total := (busy : ℚ) / (max total 1 : ℕ) * 100

def coderSpec : AgentPoolSpec := { replicas := 1, role := .coder }

/-- A task with the id `task-1` goes to the idle agent, whose schema rejects it, and the
`catch` callback takes it out of flight: it is nowhere. -/
theorem task_lost : ∃ t, run (step plainEnv) (init coderSpec)
      [.start, .spawned, .submitTask { taskId := "task-1" } 0 0, .dispatchError "task-1"] = some t ∧
    t.acceptedIds = ["task-1"] ∧ ¬ t.Kept "task-1" := by
  exact ⟨_, rfl, rfl, nowhere_not_kept rfl rfl rfl rfl rfl⟩

def uuidTask : TaskAssignment := { taskId := "0f8fad5b-d9cb-469f-a165-70867728950e" }

def uuidRun : List Action := [.start, .spawned, .submitTask uuidTask 0 0]

/-- A task with a uuid is kept while the agent works on it. -/
theorem task_kept_busy : ∃ t, run (step plainEnv) (init coderSpec) uuidRun = some t ∧
    t.Kept uuidTask.taskId :=
  ⟨_, rfl, (task_kept_iff plainEnv coderSpec _ ⟨uuidRun, rfl⟩ (by decide) uuidTask
    (by decide)).mpr (Or.inl (by decide))⟩

end AgentPool
end Batiste
