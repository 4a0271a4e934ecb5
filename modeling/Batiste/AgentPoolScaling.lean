import Batiste.AgentPoolRun

/-! How many agents an autoscaled pool has.
A decision to spawn or to terminate is taken on the size of the pool's map, which changes only
when the awaited call goes on; and the state change of a terminated agent takes the decision to
terminate again, until no idle agent is left. -/
namespace Batiste
namespace AgentPool

open Transition

variable {env : Env}

def Agent.isBusy (agent : Agent) : Bool := agent.listed && decide (agent.state = .busy)

def Agent.isLive (agent : Agent) : Bool := agent.listed && decide (agent.state ≠ .terminated)

/-- `agents.size` -/
def Pool.size (s : Pool) : ℕ := (s.agents.filter Agent.listed).length

def Pool.busy (s : Pool) : ℕ := (s.agents.filter Agent.isBusy).length

/-- The agents of the pool that are not terminated. -/
def Pool.live (s : Pool) : ℕ := (s.agents.filter Agent.isLive).length

/-- How many of the agents that the start calls for have not been spawned. -/
def Pool.owed (s : Pool) : ℕ := s.spec.replicas - s.nextId

theorem busy_le_live (s : Pool) : s.busy ≤ s.live := by
  refine (List.monotone_filter_right s.agents fun agent h => ?_).length_le
  simp only [Agent.isBusy, Agent.isLive, Bool.and_eq_true, decide_eq_true_eq] at h ⊢
  exact ⟨h.1, by rw [h.2]; decide⟩

/-! ## The decisions -/

section Decisions

variable (env : Env) (a : Autoscaling) (s : Pool)

def ScalesUp : Prop :=
  a.targetUtilization < env.utilization s.busy s.size ∧ (s.size : ℚ) < a.maxReplicas

def ScalesDown : Prop :=
  env.utilization s.busy s.size < a.targetUtilization / 2 ∧ a.minReplicas < s.size

instance : Decidable (ScalesUp env a s) := inferInstanceAs (Decidable (_ ∧ _))

instance : Decidable (ScalesDown env a s) := inferInstanceAs (Decidable (_ ∧ _))

/-- The agent that a decision to scale down terminates. -/
def idleAgent : Option Agent := s.agents.find? fun agent => agent.listed && agent.isAvailable

/-- A decision to spawn leaves room for what is still to be spawned, and one that terminates an
agent is taken while enough agents are busy. -/
structure SafeCheck : Prop where
  up : ScalesUp env a s → ((s.size + s.spawning.length + 1 : ℕ) : ℚ) ≤ a.maxReplicas
  down : ¬ ScalesUp env a s → ScalesDown env a s → (idleAgent s).isSome →
    a.minReplicas ≤ (s.busy + s.owed : ℕ)

end Decisions

theorem checkAutoscaling_succ (n : ℕ) {s : Pool} {a : Autoscaling}
    (hspec : s.spec.autoscaling = some a) :
    checkAutoscaling env (n + 1) s =
      if !a.enabled then s
      else if ScalesUp env a s then
        { s with spawning := s.spawning ++ [createAgentForRole s.spec] }
      else if ScalesDown env a s then
        match idleAgent s with
        | none => s
        | some agent =>
          let s := checkAutoscaling env n (mapAgent agent.id Agent.stopped s)
          { s with deleting := s.deleting ++ [agent.id] }
      else s := by
  rw [checkAutoscaling, hspec]
  rfl

/-! ## The agents of a pool -/

/-- The ids are distinct, an agent that works is busy, and an agent to be deleted is terminated. -/
structure Roster (s : Pool) : Prop where
  nodup : (s.agents.map Agent.id).Nodup
  fresh : ∀ agent ∈ s.agents, agent.id < s.nextId
  works : ∀ agent ∈ s.agents, agent.currentTask ≠ none → agent.state = .busy
  deleting_fresh : ∀ id ∈ s.deleting, id < s.nextId
  deleting_terminated : ∀ agent ∈ s.agents, agent.id ∈ s.deleting → agent.state = .terminated

theorem count_mapAgent {s : Pool} (h : Roster s) {agent : Agent} (hmem : agent ∈ s.agents)
    (f : Agent → Agent) (p : Agent → Bool) :
    ((mapAgent agent.id f s).agents.filter p).length + (if p agent then 1 else 0) =
      (s.agents.filter p).length + if p (f agent) then 1 else 0 := by
  rw [← List.countP_eq_length_filter, ← List.countP_eq_length_filter]
  exact countP_update h.nodup hmem f p

theorem idleAgent_some {s : Pool} {agent : Agent} (h : idleAgent s = some agent) :
    agent ∈ s.agents ∧ agent.listed = true ∧ agent.state = .idle := by
  have hcond := List.find?_some h
  simp only [Bool.and_eq_true, Agent.isAvailable, decide_eq_true_eq] at hcond
  exact ⟨List.mem_of_find?_eq_some h, hcond⟩

/-- An idle agent is stopped. -/
theorem Roster.stop {s : Pool} (h : Roster s) {agent : Agent} (hidle : idleAgent s = some agent) :
    Roster (mapAgent agent.id Agent.stopped s) ∧
      (mapAgent agent.id Agent.stopped s).size = s.size ∧
      (mapAgent agent.id Agent.stopped s).busy = s.busy := by
  obtain ⟨hmem, hlisted, hstate⟩ := idleAgent_some hidle
  refine ⟨⟨?_, ?_, ?_, h.deleting_fresh, ?_⟩, ?_, ?_⟩
  · have hids := @mapAgent_ids agent.id s Agent.stopped fun _ => rfl
    exact hids ▸ h.nodup
  · intro b hb
    rcases mem_mapAgent.mp hb with ⟨c, hc, -, rfl⟩ | ⟨hb, -⟩
    · exact h.fresh c hc
    · exact h.fresh b hb
  · intro b hb htask
    rcases mem_mapAgent.mp hb with ⟨c, hc, hid, rfl⟩ | ⟨hb, -⟩
    · -- the stopped agent was idle, so it had no task
      have hbusy := h.works c hc htask
      rw [List.inj_on_of_nodup_map h.nodup hc hmem hid, hstate] at hbusy
      cases hbusy
    · exact h.works b hb htask
  · intro b hb hdeleting
    rcases mem_mapAgent.mp hb with ⟨c, -, -, rfl⟩ | ⟨hb, -⟩
    · rfl
    · exact h.deleting_terminated b hb hdeleting
  · have hcount := count_mapAgent h hmem Agent.stopped Agent.listed
    exact Nat.add_right_cancel hcount
  · have hcount := count_mapAgent h hmem Agent.stopped Agent.isBusy
    simp only [Agent.isBusy, Agent.stopped, hstate, reduceCtorEq, decide_false, Bool.and_false,
      Bool.false_eq_true, if_false, Nat.add_zero] at hcount
    exact hcount

/-- What `checkAutoscaling` does to a pool with this policy. -/
structure Scaled (env : Env) (a : Autoscaling) (s t : Pool) : Prop where
  roster : Roster t
  size : t.size = s.size
  busy : t.busy = s.busy
  spec : t.spec = s.spec
  nextId : t.nextId = s.nextId
  running : t.isRunning = s.isRunning
  terminated : ∀ id, (∀ b ∈ s.agents, b.id = id → b.state = .terminated) →
    ∀ b ∈ t.agents, b.id = id → b.state = .terminated
  spawning : t.spawning.length = s.spawning.length ∨
    ScalesUp env a s ∧ t.spawning.length = s.spawning.length + 1
  agents : t.agents = s.agents ∨
    ¬ ScalesUp env a s ∧ ScalesDown env a s ∧ (idleAgent s).isSome

theorem Scaled.refl {a : Autoscaling} {s : Pool} (h : Roster s) : Scaled env a s s :=
  ⟨h, rfl, rfl, rfl, rfl, rfl, fun _ hs => hs, Or.inl rfl, Or.inl rfl⟩

theorem checkAutoscaling_scaled (n : ℕ) {a : Autoscaling} {s : Pool}
    (hspec : s.spec.autoscaling = some a) (h : Roster s) :
    Scaled env a s (checkAutoscaling env n s) := by
  induction n generalizing s with
  | zero => exact Scaled.refl h
  | succ n ih =>
    rw [checkAutoscaling_succ n hspec]
    split_ifs with henabled hup hdown
    · exact Scaled.refl h
    · refine ⟨⟨h.nodup, h.fresh, h.works, h.deleting_fresh, h.deleting_terminated⟩, rfl, rfl, rfl,
        rfl, rfl, fun _ hs => hs, Or.inr ⟨hup, by simp⟩, Or.inl rfl⟩
    · cases hidle : idleAgent s with
      | none => exact Scaled.refl h
      | some agent =>
        obtain ⟨hmem, -, -⟩ := idleAgent_some hidle
        obtain ⟨hroster, hsize, hbusy⟩ := h.stop hidle
        have hscaled := ih (s := mapAgent agent.id Agent.stopped s) hspec hroster
        have hstopped : ∀ id, (∀ b ∈ s.agents, b.id = id → b.state = .terminated) ∨ id = agent.id →
            ∀ b ∈ (mapAgent agent.id Agent.stopped s).agents, b.id = id →
              b.state = .terminated := by
          intro id hid b hb hbid
          rcases mem_mapAgent.mp hb with ⟨c, -, -, rfl⟩ | ⟨hb, hne⟩
          · rfl
          · rcases hid with hs | rfl
            · exact hs b hb hbid
            · exact absurd hbid hne
        -- the same counts take the same decision again
        have hspawning := hscaled.spawning
        have hagain : ¬ ScalesUp env a (mapAgent agent.id Agent.stopped s) := by
          rw [ScalesUp, hsize, hbusy]
          exact hup
        simp only [hagain, false_and, or_false] at hspawning
        refine ⟨⟨hscaled.roster.nodup, hscaled.roster.fresh, hscaled.roster.works, ?_, ?_⟩,
          hscaled.size.trans hsize, hscaled.busy.trans hbusy, hscaled.spec, hscaled.nextId,
          hscaled.running, fun id hs => hscaled.terminated id (hstopped id (Or.inl hs)),
          Or.inl hspawning, Or.inr ⟨hup, hdown, by rw [hidle]; rfl⟩⟩
        · intro id hid
          rcases List.mem_append.mp hid with hold | hnew
          · exact hscaled.roster.deleting_fresh id hold
          · rw [List.mem_singleton.mp hnew]
            exact lt_of_lt_of_eq (h.fresh agent hmem) hscaled.nextId.symm
        · intro b hb hid
          rcases List.mem_append.mp hid with hold | hnew
          · exact hscaled.roster.deleting_terminated b hb hold
          · exact hscaled.terminated agent.id (hstopped agent.id (Or.inr rfl)) b hb
              (List.mem_singleton.mp hnew)
    · exact Scaled.refl h

/-! ## The bounds -/

/-- The agents there are and those still to be spawned are at most the maximum, and the live ones
and those that the start still owes at least the minimum. -/
structure Bounded (spec : AgentPoolSpec) (a : Autoscaling) (s : Pool) : Prop where
  roster : Roster s
  spec_eq : s.spec = spec
  unstarted : s.isRunning = false → s.agents = [] ∧ s.spawning = []
  upper : ((s.size + s.spawning.length : ℕ) : ℚ) ≤ a.maxReplicas
  lower : a.minReplicas ≤ (s.live + s.owed : ℕ)

variable {spec : AgentPoolSpec} {a : Autoscaling}

theorem stateChanged_bounded {s : Pool} (hspec : spec.autoscaling = some a) (h : Bounded spec a s)
    (hrunning : s.isRunning = true) (hsafe : SafeCheck env a s) : Bounded spec a (stateChanged env s) := by
  have hscaled : Scaled env a s (checkAutoscaling env (s.agents.length + 1) s) :=
    checkAutoscaling_scaled _ (h.spec_eq ▸ hspec) h.roster
  change Bounded spec a (checkAutoscaling env (s.agents.length + 1) s)
  generalize checkAutoscaling env (s.agents.length + 1) s = t at hscaled
  have howed : t.owed = s.owed := by rw [Pool.owed, Pool.owed, hscaled.spec, hscaled.nextId]
  refine ⟨hscaled.roster, hscaled.spec.trans h.spec_eq, fun hstopped => ?_, ?_, ?_⟩
  · rw [hscaled.running, hrunning] at hstopped
    cases hstopped
  · rcases hscaled.spawning with hsame | ⟨hup, hmore⟩
    · rw [hscaled.size, hsame]
      exact h.upper
    · rw [hscaled.size, hmore]
      exact hsafe.up hup
  · rw [howed]
    rcases hscaled.agents with hsame | ⟨hup, hdown, hidle⟩
    · rw [Pool.live, hsame]
      exact h.lower
    · refine (hsafe.down hup hdown hidle).trans ?_
      have hbusy := busy_le_live t
      rw [hscaled.busy] at hbusy
      exact_mod_cast Nat.add_le_add_right hbusy _

/-- An agent that is not terminated gets another state and another task. -/
theorem Bounded.replace {s t : Pool} (h : Bounded spec a s) {agent : Agent}
    (hmem : agent ∈ s.agents) (f : Agent → Agent) (hid : ∀ b, (f b).id = b.id)
    (hlisted : (f agent).listed = agent.listed) (hlive : agent.state ≠ .terminated)
    (hstill : (f agent).state ≠ .terminated)
    (hworks : (f agent).currentTask ≠ none → (f agent).state = .busy)
    (hagents : t.agents = (mapAgent agent.id f s).agents) (hspec : t.spec = s.spec)
    (hrunning : t.isRunning = s.isRunning) (hspawning : t.spawning = s.spawning)
    (hdeleting : t.deleting = s.deleting) (hnext : t.nextId = s.nextId) : Bounded spec a t := by
  have hsize : t.size = s.size := by
    have hcount := count_mapAgent h.roster hmem f Agent.listed
    rw [← hagents, hlisted] at hcount
    exact Nat.add_right_cancel hcount
  have hcount : t.live = s.live := by
    have hcount := count_mapAgent h.roster hmem f Agent.isLive
    rw [← hagents, Agent.isLive, Agent.isLive, hlisted, decide_eq_true hlive,
      decide_eq_true hstill] at hcount
    exact Nat.add_right_cancel hcount
  have hmemt : ∀ b ∈ t.agents, b = f agent ∨ b ∈ s.agents := by
    intro b hb
    rw [hagents] at hb
    rcases mem_mapAgent.mp hb with ⟨c, hc, hcid, rfl⟩ | ⟨hb, -⟩
    · rw [List.inj_on_of_nodup_map h.roster.nodup hc hmem hcid]
      exact Or.inl rfl
    · exact Or.inr hb
  refine ⟨⟨?_, ?_, ?_, ?_, ?_⟩, hspec.trans h.spec_eq, fun hstopped => ?_, ?_, ?_⟩
  · rw [hagents, mapAgent_ids agent.id s hid]
    exact h.roster.nodup
  · intro b hb
    rw [hnext]
    rcases hmemt b hb with rfl | hb
    · rw [hid]
      exact h.roster.fresh agent hmem
    · exact h.roster.fresh b hb
  · intro b hb htask
    rcases hmemt b hb with rfl | hb
    · exact hworks htask
    · exact h.roster.works b hb htask
  · rw [hdeleting, hnext]
    exact h.roster.deleting_fresh
  · intro b hb hdel
    rw [hdeleting] at hdel
    rcases hmemt b hb with rfl | hb
    · rw [hid] at hdel
      exact absurd (h.roster.deleting_terminated agent hmem hdel) hlive
    · exact h.roster.deleting_terminated b hb hdel
  · obtain ⟨hnone, -⟩ := h.unstarted (hrunning ▸ hstopped)
    rw [hnone] at hmem
    simp at hmem
  · rw [hsize, hspawning]
    exact h.upper
  · rw [hcount, Pool.owed, hspec, hnext]
    exact h.lower

/-- The bounds do not read the other fields. -/
theorem Bounded.frame {s t : Pool} (h : Bounded spec a s) (hagents : t.agents = s.agents)
    (hspec : t.spec = s.spec) (hrunning : t.isRunning = s.isRunning)
    (hspawning : t.spawning = s.spawning) (hdeleting : t.deleting = s.deleting)
    (hnext : t.nextId = s.nextId) : Bounded spec a t := by
  have hsize : t.size = s.size := by rw [Pool.size, hagents]; rfl
  have hlive : t.live = s.live := by rw [Pool.live, hagents]; rfl
  have howed : t.owed = s.owed := by rw [Pool.owed, Pool.owed, hspec, hnext]
  obtain ⟨⟨hnodup, hfresh, hworks, hdfresh, hdterm⟩, hs, hunstarted, hupper, hlower⟩ := h
  refine ⟨⟨?_, ?_, ?_, ?_, ?_⟩, hspec.trans hs, ?_, ?_, ?_⟩
  · rwa [hagents]
  · rwa [hagents, hnext]
  · rwa [hagents]
  · rwa [hdeleting, hnext]
  · rwa [hagents, hdeleting]
  · rwa [hrunning, hagents, hspawning]
  · rwa [hsize, hspawning]
  · rwa [hlive, howed]

/-! ## Dispatching -/

/-- The state in which an assigned agent's change of state calls `checkAutoscaling`. -/
def assignedState (agent : Agent) (task : QueuedTask) (rest : List QueuedTask) (s : Pool) : Pool :=
  mapAgent agent.id (fun agent => { agent with state := .busy, currentTask := some ⟨task, false⟩ })
    { s with
      taskQueue := rest
      inFlight := Function.update s.inFlight task.assignment.taskId (some agent.id) }

def dispatchChecks (env : Env) (random : ℕ) (s : Pool) : List Pool :=
  match s.taskQueue with
  | [] => []
  | task :: rest =>
    if !s.isRunning then []
    else match selectAgent random task.assignment s with
      | none => []
      | some agent =>
        if TaskAssignmentSchema env task.assignment then [assignedState agent task rest s] else []

theorem dispatchNext_bounded {s : Pool} (hspec : spec.autoscaling = some a) (random : ℕ)
    (h : Bounded spec a s) (hsafe : ∀ p ∈ dispatchChecks env random s, SafeCheck env a p) :
    Bounded spec a (dispatchNext env random s) := by
  unfold dispatchNext
  unfold dispatchChecks at hsafe
  split
  case h_1 => exact h
  case h_2 task rest hqueue =>
    simp only [hqueue] at hsafe
    by_cases hrunning : s.isRunning = true
    · rw [if_neg (by simp [hrunning])] at hsafe ⊢
      cases hselect : selectAgent random task.assignment s with
      | none => exact h
      | some agent =>
        simp only [hselect] at hsafe
        obtain ⟨hmem, hstate⟩ := selectAgent_some hselect
        dsimp only
        unfold assignTaskToAgent
        split_ifs with hparses
        · rw [if_pos hparses] at hsafe
          refine stateChanged_bounded hspec ?_ hrunning (hsafe _ (List.mem_singleton.mpr rfl))
          exact h.replace hmem
            (fun agent => { agent with state := .busy, currentTask := some ⟨task, false⟩ })
            (fun _ => rfl) rfl (by simp [hstate]) (by simp) (fun _ => rfl) rfl rfl rfl rfl rfl rfl
        · exact h.frame rfl rfl rfl rfl rfl rfl
    · rw [if_pos (by simp [hrunning])]
      exact h

/-! ## Steps -/

/-- What a caller does and what the program goes on with; the pool is not stopped or respecified,
and its agents are terminated by the pool itself. -/
def Action.serves : Action → Bool
  | .start | .submitTask _ _ _ | .report _ _ | .free _ _ | .dispatchError _ | .retry _ _ _
  | .spawned | .deleted _ | .setLoadBalancingStrategy _ => true
  | _ => false

/-- The state in which a freed agent's change of state calls `checkAutoscaling`. -/
def freedState (id : ℕ) (s : Pool) : Pool :=
  mapAgent id (fun agent => { agent with state := .idle, currentTask := none }) s

/-- The states in which a step calls `checkAutoscaling` by a change to busy or idle. -/
def checks (env : Env) (s : Pool) : Action → List Pool
  | .submitTask b now random =>
    dispatchChecks env random { enqueue ⟨b, 0, now⟩ s with accepted := s.accepted ++ [b] }
  | .retry index now random =>
    match s.retrying[index]? with
    | none => []
    | some r => dispatchChecks env random
        (enqueue ⟨r.assignment, r.retries, now⟩ { s with retrying := s.retrying.eraseIdx index })
  | .free id random =>
    freedState id s :: dispatchChecks env random (stateChanged env (freedState id s))
  | _ => []

theorem spawned_bounded {s : Pool} (h : Bounded spec a s) {capabilities : AgentCapability}
    {spawning : List AgentCapability} (hspawning : s.spawning = capabilities :: spawning) {t : Pool}
    (ht : t = { s with
      spawning := spawning
      agents := s.agents ++ [⟨s.nextId, capabilities, .idle, none, true⟩]
      nextId := s.nextId + 1 }) : Bounded spec a t := by
  subst ht
  have hupper := h.upper
  have hlower := h.lower
  rw [hspawning, List.length_cons] at hupper
  refine ⟨⟨?_, ?_, ?_, ?_, ?_⟩, h.spec_eq, fun hstopped => ?_, ?_, ?_⟩
  · rw [List.map_append]
    refine List.nodup_append.mpr ⟨h.roster.nodup, by simp, ?_⟩
    rintro i hi _ hj rfl
    obtain ⟨b, hb, rfl⟩ := List.mem_map.mp hi
    exact absurd (List.mem_singleton.mp hj) (Nat.ne_of_lt (h.roster.fresh b hb))
  · intro b hb
    rcases List.mem_append.mp hb with hb | hb
    · exact Nat.lt_succ_of_lt (h.roster.fresh b hb)
    · rw [List.mem_singleton.mp hb]
      exact Nat.lt_succ_self _
  · intro b hb htask
    rcases List.mem_append.mp hb with hb | hb
    · exact h.roster.works b hb htask
    · rw [List.mem_singleton.mp hb] at htask
      exact absurd rfl htask
  · exact fun id hid => Nat.lt_succ_of_lt (h.roster.deleting_fresh id hid)
  · intro b hb hdel
    rcases List.mem_append.mp hb with hb | hb
    · exact h.roster.deleting_terminated b hb hdel
    · rw [List.mem_singleton.mp hb] at hdel
      exact absurd (h.roster.deleting_fresh _ hdel) (lt_irrefl _)
  · obtain ⟨-, hnone⟩ := h.unstarted hstopped
    rw [hspawning] at hnone
    cases hnone
  · refine le_of_eq_of_le ?_ hupper
    simp only [Pool.size, List.filter_append, List.length_append]
    simp
    ring
  · refine hlower.trans ?_
    have hlive : s.live + s.owed ≤ (s.live + 1) + (s.spec.replicas - (s.nextId + 1)) := by
      rw [Pool.owed]
      omega
    simp only [Pool.live, Pool.owed, List.filter_append, List.length_append] at hlive ⊢
    exact_mod_cast hlive

/-- A terminated agent leaves the map. -/
theorem deleted_bounded {s t : Pool} (h : Bounded spec a s) {id : ℕ} (hid : id ∈ s.deleting)
    (ht : t = { mapAgent id (fun agent => { agent with listed := false }) s with
      deleting := s.deleting.erase id }) : Bounded spec a t := by
  have hmemt : ∀ b ∈ t.agents, ∃ c ∈ s.agents, c.id = b.id ∧ c.state = b.state ∧
      c.currentTask = b.currentTask := by
    intro b hb
    rw [ht] at hb
    rcases mem_mapAgent.mp hb with ⟨c, hc, -, rfl⟩ | ⟨hb, -⟩
    · exact ⟨c, hc, rfl, rfl, rfl⟩
    · exact ⟨b, hb, rfl, rfl, rfl⟩
  have hagents : t.agents = s.agents.map fun b =>
      if b.id = id then { b with listed := false } else b := by rw [ht]; rfl
  have hids : t.agents.map Agent.id = s.agents.map Agent.id := by
    rw [ht]
    exact mapAgent_ids id s fun _ => rfl
  have hlive : t.live = s.live := by
    rw [Pool.live, Pool.live, hagents, ← List.countP_eq_length_filter,
      ← List.countP_eq_length_filter, List.countP_map]
    refine List.countP_congr fun b hb => ?_
    simp only [Function.comp_apply]
    split_ifs with hbid
    · simp [Agent.isLive, h.roster.deleting_terminated b hb (hbid ▸ hid)]
    · exact Iff.rfl
  have hsize : t.size ≤ s.size := by
    rw [Pool.size, Pool.size, hagents, ← List.countP_eq_length_filter,
      ← List.countP_eq_length_filter, List.countP_map]
    refine List.countP_mono_left fun b _ hlisted => ?_
    simp only [Function.comp_apply] at hlisted
    split_ifs at hlisted
    exact hlisted
  have hspawning : t.spawning = s.spawning := by rw [ht]; rfl
  have howed : t.owed = s.owed := by rw [ht]; rfl
  refine ⟨⟨?_, ?_, ?_, ?_, ?_⟩, ?_, ?_, ?_, ?_⟩
  · exact hids ▸ h.roster.nodup
  · intro b hb
    obtain ⟨c, hc, hcid, -, -⟩ := hmemt b hb
    rw [ht]
    exact hcid ▸ h.roster.fresh c hc
  · intro b hb htask
    obtain ⟨c, hc, -, hstate, hcurrent⟩ := hmemt b hb
    exact hstate ▸ h.roster.works c hc (hcurrent ▸ htask)
  · rw [ht]
    exact fun i hi => h.roster.deleting_fresh i (List.mem_of_mem_erase hi)
  · intro b hb hdel
    obtain ⟨c, hc, hcid, hstate, -⟩ := hmemt b hb
    rw [ht] at hdel
    exact hstate ▸ h.roster.deleting_terminated c hc (hcid ▸ List.mem_of_mem_erase hdel)
  · rw [ht]
    exact h.spec_eq
  · intro hstopped
    rw [ht] at hstopped
    obtain ⟨hnone, hspawn⟩ := h.unstarted hstopped
    rw [hagents, hspawning, hnone]
    exact ⟨rfl, hspawn⟩
  · rw [hspawning]
    refine le_trans ?_ h.upper
    exact_mod_cast Nat.add_le_add_right hsize _
  · rw [hlive, howed]
    exact h.lower

theorem handleResult_bounded {s : Pool} (h : Bounded spec a s) (queued : QueuedTask)
    (result : TaskResult) : Bounded spec a (handleResult queued result s) := by
  unfold handleResult
  dsimp only
  split_ifs <;> exact h.frame rfl rfl rfl rfl rfl rfl

/-- An agent with a task is busy, so it is not terminated. -/
theorem Roster.working {s : Pool} (h : Roster s) {agent : Agent} (hmem : agent ∈ s.agents)
    {w : Work} (hw : agent.currentTask = some w) : agent.state ≠ .terminated := by
  rw [h.works agent hmem (by simp [hw])]
  decide

/-- A step whose checks are safe keeps the bounds. -/
theorem step_bounded {s t : Pool} {b : Action} (hspec : spec.autoscaling = some a)
    (hmax : (spec.replicas : ℚ) ≤ a.maxReplicas) (hserves : b.serves = true)
    (h : Bounded spec a s) (hsafe : ∀ p ∈ checks env s b, SafeCheck env a p)
    (hs : step env s b = some t) : Bounded spec a t := by
  cases stretch_of_step hs with
  | started => exact h
  | start hrunning =>
    obtain ⟨hagents, hspawning⟩ := h.unstarted hrunning
    refine ⟨⟨h.roster.nodup, h.roster.fresh, h.roster.works, h.roster.deleting_fresh,
      h.roster.deleting_terminated⟩, h.spec_eq, (fun hstopped => by cases hstopped), ?_, h.lower⟩
    simp only [Pool.size, hagents, hspawning, h.spec_eq, List.filter_nil, List.length_nil,
      List.nil_append, List.length_replicate, Nat.zero_add]
    exact hmax
  | submitTask c now random _ =>
    exact dispatchNext_bounded hspec random (h.frame rfl rfl rfl rfl rfl rfl) hsafe
  | report agent queued result hmem htask =>
    have hlive := h.roster.working hmem htask
    have hbusy := h.roster.works _ hmem (by simp [htask])
    exact handleResult_bounded (h.replace hmem
      (fun agent => { agent with currentTask := some ⟨queued, true⟩ }) (fun _ => rfl) rfl hlive
      hlive (fun _ => hbusy) rfl rfl rfl rfl rfl rfl) queued result
  | free agent queued random hmem htask =>
    have hrunning : s.isRunning = true := by
      by_contra hstopped
      rw [(h.unstarted (by simpa using hstopped)).1] at hmem
      simp at hmem
    have hfreed := h.replace hmem
      (fun agent => { agent with state := .idle, currentTask := none }) (fun _ => rfl) rfl
      (h.roster.working hmem htask) (by simp) (fun hsome => absurd rfl hsome) rfl rfl rfl rfl rfl rfl
    refine dispatchNext_bounded hspec random
      (stateChanged_bounded hspec hfreed hrunning (hsafe _ List.mem_cons_self))
      fun p hp => hsafe p (List.mem_cons_of_mem _ hp)
  | dispatchError x => exact h.frame rfl rfl rfl rfl rfl rfl
  | retry index r now random hr =>
    simp only [checks, hr] at hsafe
    exact dispatchNext_bounded hspec random (h.frame rfl rfl rfl rfl rfl rfl) hsafe
  | spawned capabilities spawning hspawning => exact spawned_bounded h hspawning rfl
  | deleted id hid => exact deleted_bounded h hid rfl
  | setLoadBalancingStrategy strategy => exact h.frame rfl rfl rfl rfl rfl rfl
  | terminateAgent | stop | drained | cleared | updateSpec => cases hserves

/-! ## Runs -/

/-- At most the maximum of agents in the map, and at least the minimum that is not terminated as
soon as the replicas have been spawned. -/
structure Pool.WithinReplicas (a : Autoscaling) (s : Pool) : Prop where
  max : (s.size : ℚ) ≤ a.maxReplicas
  min : s.spec.replicas ≤ s.nextId → a.minReplicas ≤ (s.live : ℚ)

theorem Bounded.within {s : Pool} (h : Bounded spec a s) : s.WithinReplicas a := by
  constructor
  · refine le_trans ?_ h.upper
    exact_mod_cast Nat.le_add_right _ _
  · intro hspawned
    have hlower := h.lower
    rwa [Pool.owed, Nat.sub_eq_zero_of_le hspawned, Nat.add_zero] at hlower

theorem init_bounded (hmin : a.minReplicas ≤ spec.replicas) (hmax : (spec.replicas : ℚ) ≤ a.maxReplicas) :
    Bounded spec a (init spec) := by
  refine ⟨⟨by simp [init], by simp [init], by simp [init], by simp [init], by simp [init]⟩, rfl,
    fun _ => ⟨rfl, rfl⟩, ?_, ?_⟩
  · refine le_trans ?_ hmax
    exact_mod_cast Nat.zero_le _
  · simpa [Pool.live, Pool.owed, init] using hmin

/-- In a run whose checks are all safe the replicas stay within their bounds. -/
theorem run_within_replicas (env : Env) (spec : AgentPoolSpec) (a : Autoscaling)
    (hspec : spec.autoscaling = some a) (hmin : a.minReplicas ≤ spec.replicas)
    (hmax : (spec.replicas : ℚ) ≤ a.maxReplicas) (as : List Action)
    (hserves : ∀ b ∈ as, b.serves = true)
    (hsafe : Each (step env) (init spec) as fun _ s b => ∀ p ∈ checks env s b, SafeCheck env a p) :
    ∀ pre post s, as = pre ++ post → run (step env) (init spec) pre = some s →
      s.WithinReplicas a := by
  intro pre post s has hs
  have hok : Each (step env) (init spec) pre fun _ s b =>
      b.serves = true ∧ ∀ p ∈ checks env s b, SafeCheck env a p := by
    intro pre' b post' u hpre hu
    have hsplit : as = pre' ++ b :: (post' ++ post) := by simp [has, hpre]
    exact ⟨hserves b (by simp [hsplit]), hsafe pre' b _ u hsplit hu⟩
  have hbounded : Bounded spec a s :=
    run_history (I := fun _ s => Bounded spec a s) (init_bounded hmin hmax)
      (fun _ _ _ _ _ h hok ht => step_bounded hspec hmax hok.1 h hok.2 ht) hok hs
  exact hbounded.within

/-- One coder, at most two, at a target of 80 percent. -/
def growingSpec : AgentPoolSpec :=
  { replicas := 1, role := .coder, autoscaling := some ⟨true, 1, 2, 80⟩ }

/-- The task of the only coder calls for a second one, and there is room for it. -/
theorem second_coder_spawned : ∃ t, run (step plainEnv) (init growingSpec)
      [.start, .spawned, .submitTask uuidTask 0 0] = some t ∧ t.WithinReplicas ⟨true, 1, 2, 80⟩ := by
  have hruns : (run (step plainEnv) (init growingSpec)
      [.start, .spawned, .submitTask uuidTask 0 0]).isSome = true := by decide +kernel
  obtain ⟨t, ht⟩ := Option.isSome_iff_exists.mp hruns
  refine ⟨t, ht, run_within_replicas plainEnv growingSpec ⟨true, 1, 2, 80⟩ rfl (by decide)
    (by decide) [.start, .spawned, .submitTask uuidTask 0 0] (by decide) ?_ _ [] t rfl ht⟩
  have hfirst : Each (step plainEnv) (init growingSpec) [.start, .spawned] fun _ s b =>
      ∀ p ∈ checks plainEnv s b, SafeCheck plainEnv ⟨true, 1, 2, 80⟩ p :=
    each_cons (by simp [checks]) rfl (each_cons (by simp [checks]) rfl (each_nil _ _))
  refine each_snoc hfirst rfl fun p hp => ?_
  obtain rfl := List.mem_singleton.mp hp
  constructor
  · intro _
    change ((2 : ℕ) : ℚ) ≤ 2
    norm_num
  · intro hkeep
    refine absurd ⟨?_, ?_⟩ hkeep
    · change (80 : ℚ) < ((1 : ℕ) : ℚ) / ((1 : ℕ) : ℚ) * 100
      norm_num
    · change ((1 : ℕ) : ℚ) < 2
      norm_num

/-- Two coders, at least one and at most three, at a target of 80 percent. -/
def shrinkingSpec : AgentPoolSpec :=
  { replicas := 2, role := .coder, autoscaling := some ⟨true, 1, 3, 80⟩ }

/-- The agent that becomes free and the other idle one are both terminated; and two decisions to
spawn are taken before the first agent is in the map. -/
theorem replicas_out_of_bounds :
    (∃ t, run (step plainEnv) (init shrinkingSpec) [.start, .spawned, .spawned,
        .submitTask uuidTask 0 0, .report 0 { success := true }, .free 0 0] = some t ∧
      t.live = 0 ∧ ¬ t.WithinReplicas ⟨true, 1, 3, 80⟩) ∧
    ∃ t, run (step plainEnv) (init growingSpec) [.start, .spawned, .submitTask uuidTask 0 0,
        .report 0 { success := true }, .free 0 0, .submitTask uuidTask 1 0, .spawned,
        .spawned] = some t ∧
      t.size = 3 ∧ ¬ t.WithinReplicas ⟨true, 1, 2, 80⟩ := by
  have hshrunk : (run (step plainEnv) (init shrinkingSpec) [.start, .spawned, .spawned,
      .submitTask uuidTask 0 0, .report 0 { success := true }, .free 0 0]).map
      (fun t => (t.spec.replicas, t.nextId, t.live)) = some (2, 2, 0) := by decide +kernel
  have hgrown : (run (step plainEnv) (init growingSpec) [.start, .spawned,
      .submitTask uuidTask 0 0, .report 0 { success := true }, .free 0 0,
      .submitTask uuidTask 1 0, .spawned, .spawned]).map Pool.size = some 3 := by decide +kernel
  obtain ⟨t, ht, hcounts⟩ := Option.map_eq_some_iff.mp hshrunk
  obtain ⟨u, hu, hsize⟩ := Option.map_eq_some_iff.mp hgrown
  simp only [Prod.mk.injEq] at hcounts
  obtain ⟨hreplicas, hnext, hlive⟩ := hcounts
  refine ⟨⟨t, ht, hlive, fun h => ?_⟩, ⟨u, hu, hsize, fun h => ?_⟩⟩
  · have hmin := h.min (by omega)
    rw [hlive] at hmin
    norm_num at hmin
  · have hmax := h.max
    rw [hsize] at hmax
    norm_num at hmax

end AgentPool
end Batiste
