import Batiste.AgentPoolRun

/-! Whether an agent pool leaves an agent idle that could handle a queued task.
A stretch of code adds one task to the queue, or makes one agent available, or neither; then
`dispatchNext` looks at the head of the queue, once. -/
namespace Batiste
namespace AgentPool

open Transition

variable {env : Env}

/-- An available agent of the pool can handle the task. -/
def Pool.Serves (s : Pool) (q : QueuedTask) : Prop :=
  ∃ agent ∈ s.agents, agent.listed = true ∧ agent.isAvailable = true ∧
    agent.canHandle q.assignment = true

/-- While the pool is running, no queued task has an available agent that can handle it. -/
def Pool.Conserving (s : Pool) : Prop :=
  s.isRunning = true → ∀ q ∈ s.taskQueue, ¬ s.Serves q

/-! ## Selecting an agent -/

/-- Every strategy selects an agent when there is one. -/
theorem selectAgent_eq_none {random : ℕ} {task : QueuedTask} {s : Pool} :
    selectAgent random task.assignment s = none ↔ ¬ s.Serves task := by
  constructor
  · rintro h ⟨agent, hmem, hlisted, havailable, hcan⟩
    have hin : agent ∈ s.agents.filter fun agent =>
        agent.listed && agent.isAvailable && agent.canHandle task.assignment := by
      rw [List.mem_filter]
      exact ⟨hmem, by simp [hlisted, havailable, hcan]⟩
    have hpos := List.length_pos_of_mem hin
    unfold selectAgent at h
    dsimp only at h
    split at h
    · simp [List.head?_eq_none_iff.mp h] at hin
    · simp [List.head?_eq_none_iff.mp h] at hin
    · exact absurd (Nat.mod_lt random hpos) (not_lt.mpr (List.getElem?_eq_none_iff.mp h))
    · have hhead := (Option.or_eq_none_iff.mp h).2
      simp [List.head?_eq_none_iff.mp hhead] at hin
  · intro h
    cases hselect : selectAgent random task.assignment s with
    | none => rfl
    | some agent =>
      exact absurd ⟨agent, mem_of_selectAgent hselect⟩ h

/-! ## Stretches that make no agent available -/

/-- The same queue, and no agent available that was not. -/
structure Narrows (s t : Pool) : Prop where
  running : t.isRunning = s.isRunning
  queue : t.taskQueue = s.taskQueue
  agents : ∀ b ∈ t.agents, b.listed = true → b.isAvailable = true →
    ∃ c ∈ s.agents, c.listed = true ∧ c.isAvailable = true ∧ c.id = b.id ∧
      c.capabilities = b.capabilities

theorem canHandle_congr {b c : Agent} (h : c.capabilities = b.capabilities) (a : TaskAssignment) :
    c.canHandle a = b.canHandle a := by
  unfold Agent.canHandle
  rw [h]

theorem Narrows.refl (s : Pool) : Narrows s s :=
  ⟨rfl, rfl, fun b hb hlisted havailable => ⟨b, hb, hlisted, havailable, rfl, rfl⟩⟩

theorem Narrows.trans {s t u : Pool} (h : Narrows s t) (h' : Narrows t u) : Narrows s u := by
  refine ⟨h'.running.trans h.running, h'.queue.trans h.queue, fun b hb hlisted havailable => ?_⟩
  obtain ⟨c, hc, hclisted, hcavailable, hid, hcap⟩ := h'.agents b hb hlisted havailable
  obtain ⟨d, hd, hdlisted, hdavailable, hid', hcap'⟩ := h.agents c hc hclisted hcavailable
  exact ⟨d, hd, hdlisted, hdavailable, hid'.trans hid, hcap'.trans hcap⟩

theorem Narrows.serves {s t : Pool} (h : Narrows s t) {q : QueuedTask} (hq : t.Serves q) :
    s.Serves q := by
  obtain ⟨b, hb, hlisted, havailable, hcan⟩ := hq
  obtain ⟨c, hc, hclisted, hcavailable, -, hcap⟩ := h.agents b hb hlisted havailable
  exact ⟨c, hc, hclisted, hcavailable, (canHandle_congr hcap _).trans hcan⟩

theorem Narrows.conserving {s t : Pool} (h : Narrows s t) (hs : s.Conserving) : t.Conserving := by
  intro hrunning q hq hserves
  exact hs (h.running ▸ hrunning) q (h.queue ▸ hq) (h.serves hserves)

/-- Agents that change without becoming available. -/
theorem narrows_mapAgents {s t : Pool} (f : Agent → Agent) (hrunning : t.isRunning = s.isRunning)
    (hqueue : t.taskQueue = s.taskQueue) (hagents : t.agents = s.agents.map f)
    (hid : ∀ b, (f b).id = b.id) (hcap : ∀ b, (f b).capabilities = b.capabilities)
    (hlisted : ∀ b, (f b).listed = true → b.listed = true)
    (havailable : ∀ b, (f b).listed = true → (f b).isAvailable = true → b.isAvailable = true) :
    Narrows s t := by
  refine ⟨hrunning, hqueue, fun b hb hblisted hbavailable => ?_⟩
  rw [hagents] at hb
  obtain ⟨c, hc, rfl⟩ := List.mem_map.mp hb
  exact ⟨c, hc, hlisted c hblisted, havailable c hblisted hbavailable, (hid c).symm, (hcap c).symm⟩

theorem narrows_mapAgent (s : Pool) (id : ℕ) (f : Agent → Agent) (hid : ∀ b, (f b).id = b.id)
    (hcap : ∀ b, (f b).capabilities = b.capabilities)
    (hlisted : ∀ b, (f b).listed = true → b.listed = true)
    (havailable : ∀ b, (f b).listed = true → (f b).isAvailable = true → b.isAvailable = true) :
    Narrows s (mapAgent id f s) := by
  refine narrows_mapAgents (fun b => if b.id = id then f b else b) rfl rfl rfl ?_ ?_ ?_ ?_
  all_goals intro b; split
  · exact hid b
  · rfl
  · exact hcap b
  · rfl
  · exact hlisted b
  · exact fun h => h
  · exact havailable b
  · exact fun _ h => h

theorem narrows_stopped (s : Pool) (id : ℕ) : Narrows s (mapAgent id Agent.stopped s) :=
  narrows_mapAgent s id Agent.stopped (fun _ => rfl) (fun _ => rfl) (fun _ h => h)
    fun b _ h => by simp [Agent.stopped, Agent.isAvailable] at h

theorem scales_narrows : Scales Narrows where
  refl := Narrows.refl
  trans _ _ _ hst htu := hst.trans htu
  stopped := narrows_stopped
  planned s _ _ := ⟨rfl, rfl, (Narrows.refl s).agents⟩

theorem narrows_stateChanged (s : Pool) : Narrows s (stateChanged env s) :=
  scales_narrows.stateChanged s

theorem stopAll_isRunning (ids : List ℕ) (s : Pool) :
    (stopAll env ids s).isRunning = s.isRunning :=
  (scales_narrows.stopAll ids s).running

/-! ## One dispatch -/

/-- When the pool looks at its queue, an available agent can handle the head, whose assignment
parses, or no available agent can handle a task behind it. -/
def Pool.Served (env : Env) (s : Pool) : Prop :=
  s.isRunning = true → ∀ head rest, s.taskQueue = head :: rest →
    (s.Serves head ∧ TaskAssignmentSchema env head.assignment = true) ∨ ∀ q ∈ rest, ¬ s.Serves q

/-- All that an available agent can handle is one task of the queue, or is handled by one agent. -/
def Pool.OneNew (s : Pool) : Prop :=
  (∃ task old, s.taskQueue.Perm (task :: old) ∧ ∀ q ∈ old, ¬ s.Serves q) ∨
  ∃ id, ∀ q ∈ s.taskQueue, ∀ agent ∈ s.agents, agent.listed = true → agent.isAvailable = true →
    agent.canHandle q.assignment = true → agent.id = id

/-- After an assignment the rest of the queue has no available agent. -/
theorem assigned_conserving {s : Pool} {head : QueuedTask} {rest : List QueuedTask} {agent : Agent}
    {random : ℕ} (hnew : s.OneNew) (hqueue : s.taskQueue = head :: rest)
    (hselect : selectAgent random head.assignment s = some agent) {t : Pool}
    (hagents : t.agents = (mapAgent agent.id
      (fun b => { b with state := .busy, currentTask := some ⟨head, false⟩ }) s).agents)
    (hrest : t.taskQueue = rest) : t.Conserving := by
  obtain ⟨hmem, hlisted, havailable, hcan⟩ := mem_of_selectAgent hselect
  intro _ q hq hserves
  obtain ⟨b, hb, hblisted, hbavailable, hbcan⟩ := hserves
  rw [hrest] at hq
  rw [hagents] at hb
  rcases mem_mapAgent.mp hb with ⟨c, -, -, rfl⟩ | ⟨hold, hne⟩
  · simp [Agent.isAvailable] at hbavailable
  · rcases hnew with ⟨task, old, hperm, hnone⟩ | ⟨id, hone⟩
    · -- the head is the new task, so what is left is old
      have hserved : s.Serves head := ⟨agent, hmem, hlisted, havailable, hcan⟩
      have hin : head ∈ task :: old := hperm.mem_iff.mp (by simp [hqueue])
      obtain rfl : head = task :=
        (List.mem_cons.mp hin).resolve_right fun hin => hnone head hin hserved
      rw [hqueue] at hperm
      exact hnone q (hperm.cons_inv.mem_iff.mp hq) ⟨b, hold, hblisted, hbavailable, hbcan⟩
    · have hthis := hone head (by simp [hqueue]) agent hmem hlisted havailable hcan
      have hthat := hone q (by simp [hqueue, hq]) b hold hblisted hbavailable hbcan
      exact hne (hthat.trans hthis.symm)

theorem dispatchNext_conserving_iff (random : ℕ) {s : Pool}
    (hnew : s.isRunning = true → s.OneNew) :
    (dispatchNext env random s).Conserving ↔ s.Served env := by
  unfold dispatchNext
  split
  case h_1 hnil =>
    refine iff_of_true (fun _ q hq => ?_) fun _ head rest hcons => ?_
    · simp [hnil] at hq
    · simp [hnil] at hcons
  case h_2 head rest hcons =>
    by_cases hrunning : s.isRunning = true
    · have hserved : s.Served env ↔
          (s.Serves head ∧ TaskAssignmentSchema env head.assignment = true) ∨
            ∀ q ∈ rest, ¬ s.Serves q := by
        simp [Pool.Served, hrunning, hcons]
      rw [if_neg (by simp [hrunning]), hserved]
      cases hselect : selectAgent random head.assignment s with
      | none =>
        have hhead := selectAgent_eq_none.mp hselect
        simp [Pool.Conserving, hrunning, hcons, hhead]
      | some agent =>
        have hhead : s.Serves head := ⟨agent, mem_of_selectAgent hselect⟩
        dsimp only
        unfold assignTaskToAgent
        split_ifs with hparses
        · refine iff_of_true ((narrows_stateChanged _).conserving ?_) (Or.inl ⟨hhead, hparses⟩)
          exact assigned_conserving (hnew hrunning) hcons hselect rfl rfl
        · simp only [hparses, and_false, false_or, Bool.false_eq_true]
          exact ⟨fun h q hq => h hrunning q hq, fun h _ q hq => h q hq⟩
    · rw [if_pos (by simp [hrunning])]
      exact iff_of_true (fun h => absurd h hrunning) fun h => absurd h hrunning

/-! ## Steps -/

/-- The agent that an arrival adds to the pool. -/
def arriving (s : Pool) (capabilities : AgentCapability) : Agent :=
  ⟨s.nextId, capabilities, .idle, none, true⟩

/-- What a step must meet: the agents of a pool that starts, and the agent that arrives, can handle
nothing in the queue; and whenever the pool looks at its queue, it is served. -/
def Heeds (env : Env) (s : Pool) : Action → Prop
  | .start => s.isRunning = true ∨ ∀ q ∈ s.taskQueue, ¬ s.Serves q
  | .spawned => s.isRunning = true → ∀ capabilities ∈ s.spawning.head?, ∀ q ∈ s.taskQueue,
    (arriving s capabilities).canHandle q.assignment = false
  | .submitTask a now _ => (enqueue ⟨a, 0, now⟩ s).Served env
  | .retry index now _ => ∀ r ∈ s.retrying[index]?,
    (enqueue ⟨r.assignment, r.retries, now⟩ s).Served env
  | .free id _ => (stateChanged env (mapAgent id
      (fun agent => { agent with state := .idle, currentTask := none }) s)).Served env
  | _ => True

theorem enqueue_oneNew {s : Pool} (task : QueuedTask) (h : s.Conserving)
    (hrunning : s.isRunning = true) : (enqueue task s).OneNew := by
  refine Or.inl ⟨task, s.taskQueue, ?_, fun q hq hserves => h hrunning q hq hserves⟩
  exact (List.perm_insertionSort _ _).trans (List.perm_append_singleton _ _)

/-- The dispatch after a task was added. -/
theorem enqueued_conserving_iff {s t : Pool} (task : QueuedTask) (random : ℕ) (h : s.Conserving)
    (hrunning : t.isRunning = s.isRunning) (hagents : t.agents = s.agents)
    (hqueue : t.taskQueue = (enqueue task s).taskQueue) :
    (dispatchNext env random t).Conserving ↔ (enqueue task s).Served env := by
  have hserves : ∀ q, t.Serves q ↔ (enqueue task s).Serves q := by
    intro q
    rw [Pool.Serves, hagents]
    exact Iff.rfl
  have hserved : t.Served env ↔ (enqueue task s).Served env := by
    simp only [Pool.Served, hserves, hrunning, hqueue]
    exact Iff.rfl
  rw [← hserved]
  refine dispatchNext_conserving_iff random fun hrun => ?_
  have hnew := enqueue_oneNew task h (hrunning ▸ hrun)
  unfold Pool.OneNew at hnew ⊢
  simp only [hserves, hqueue, hagents]
  exact hnew

theorem freed_oneNew {s : Pool} (id : ℕ) (h : s.Conserving) (hrunning : s.isRunning = true) :
    (stateChanged env (mapAgent id
      (fun agent => { agent with state := .idle, currentTask := none }) s)).OneNew := by
  refine Or.inr ⟨id, fun q hq agent hmem hlisted havailable hcan => ?_⟩
  have hnarrows := @narrows_stateChanged env (mapAgent id
    (fun agent => { agent with state := .idle, currentTask := none }) s)
  obtain ⟨c, hc, hclisted, hcavailable, hid, hcap⟩ := hnarrows.agents agent hmem hlisted havailable
  rcases mem_mapAgent.mp hc with ⟨b, -, hbid, rfl⟩ | ⟨hold, -⟩
  · exact hid.symm.trans hbid
  · rw [hnarrows.queue] at hq
    exact absurd ⟨c, hold, hclisted, hcavailable, (canHandle_congr hcap _).trans hcan⟩
      (h hrunning q hq)

theorem narrows_handleResult (queued : QueuedTask) (result : TaskResult) (s : Pool) :
    Narrows s (handleResult queued result s) := by
  unfold handleResult
  dsimp only
  split_ifs <;> exact ⟨rfl, rfl, (Narrows.refl s).agents⟩

/-- The agent that arrives is the only new one. -/
theorem spawned_conserving_iff {s t : Pool} (h : s.Conserving) {capabilities : AgentCapability}
    (hrunning : t.isRunning = s.isRunning) (hqueue : t.taskQueue = s.taskQueue)
    (hagents : t.agents = s.agents ++ [arriving s capabilities]) :
    t.Conserving ↔ (s.isRunning = true → ∀ q ∈ s.taskQueue,
      (arriving s capabilities).canHandle q.assignment = false) := by
  unfold Pool.Conserving
  rw [hrunning, hqueue]
  refine forall_congr' fun hrun => forall₂_congr fun q hq => ?_
  constructor
  · intro hnone
    by_contra hcan
    exact hnone ⟨arriving s capabilities, by simp [hagents], rfl, rfl, by simpa using hcan⟩
  · rintro hcannot ⟨agent, hmem, hlisted, havailable, hcan⟩
    rw [hagents] at hmem
    rcases List.mem_append.mp hmem with hold | hnew
    · exact h hrun q hq ⟨agent, hold, hlisted, havailable, hcan⟩
    · rw [List.mem_singleton.mp hnew, hcannot] at hcan
      cases hcan

/-- A step keeps the work conserved exactly when it heeds the queue. -/
theorem step_conserving_iff {s t : Pool} {a : Action} (h : s.Conserving)
    (hs : step env s a = some t) : t.Conserving ↔ Heeds env s a := by
  have hkeeps : Narrows s t → (t.Conserving ↔ True) :=
    fun hnarrows => iff_of_true (hnarrows.conserving h) trivial
  cases stretch_of_step hs with
  | started hrunning => exact iff_of_true h (Or.inl hrunning)
  | start hrunning =>
    simp only [Heeds, hrunning, Bool.false_eq_true, false_or]
    exact ⟨fun ht q hq hserves => ht rfl q hq hserves, fun hnone _ q hq => hnone q hq⟩
  | submitTask b now random _ =>
    exact enqueued_conserving_iff ⟨b, 0, now⟩ random h rfl rfl rfl
  | report agent queued result =>
    refine hkeeps (Narrows.trans ?_ (narrows_handleResult _ _ _))
    exact narrows_mapAgent s agent.id (fun agent => { agent with currentTask := some ⟨queued, true⟩ })
      (fun _ => rfl) (fun _ => rfl) (fun _ hl => hl) fun _ _ ha => ha
  | free agent queued random =>
    refine dispatchNext_conserving_iff random fun hrunning => freed_oneNew agent.id h ?_
    rwa [(narrows_stateChanged _).running] at hrunning
  | retry index r now random hr =>
    simp only [Heeds, hr, Option.mem_def, Option.some.injEq, forall_eq']
    exact enqueued_conserving_iff ⟨r.assignment, r.retries, now⟩ random h rfl rfl rfl
  | spawned capabilities spawning hspawning =>
    simp only [Heeds, hspawning, List.head?_cons, Option.mem_def, Option.some.injEq, forall_eq']
    exact spawned_conserving_iff h rfl rfl rfl
  | terminateAgent id =>
    have hnarrows := (narrows_stopped s id).trans (@narrows_stateChanged env _)
    exact hkeeps ⟨hnarrows.running, hnarrows.queue, hnarrows.agents⟩
  | deleted id =>
    have hnarrows : Narrows s (mapAgent id (fun agent => { agent with listed := false }) s) :=
      narrows_mapAgent s id _ (fun _ => rfl) (fun _ => rfl) (fun _ hl => by cases hl)
        fun _ hl _ => by cases hl
    exact hkeeps ⟨hnarrows.running, hnarrows.queue, hnarrows.agents⟩
  | drained =>
    refine iff_of_true (fun hrunning => ?_) trivial
    rw [stopAll_isRunning] at hrunning
    cases hrunning
  | cleared =>
    refine hkeeps ⟨rfl, rfl, fun b hb hlisted _ => ?_⟩
    obtain ⟨c, -, rfl⟩ := List.mem_map.mp hb
    cases hlisted
  | dispatchError | stop | setLoadBalancingStrategy | updateSpec =>
    exact hkeeps ⟨rfl, rfl, (Narrows.refl s).agents⟩

/-! ## Runs -/

theorem init_conserving (spec : AgentPoolSpec) : (init spec).Conserving := by
  intro hrunning
  cases hrunning

/-- Every state of a run conserves work exactly when every step of it heeds the queue. -/
theorem run_conserving_iff (env : Env) (spec : AgentPoolSpec) (as : List Action) :
    (∀ pre post s, as = pre ++ post → run (step env) (init spec) pre = some s → s.Conserving) ↔
      Each (step env) (init spec) as fun _ s a => (step env s a).isSome → Heeds env s a := by
  constructor
  · intro h pre a post s has hs henabled
    obtain ⟨t, ht⟩ := Option.isSome_iff_exists.mp henabled
    have hpre := h pre (a :: post) s has hs
    exact (step_conserving_iff hpre ht).mp (h (pre ++ [a]) post t (by simp [has]) (run_snoc hs ht))
  · intro h pre post s has hs
    refine run_history (I := fun _ s => s.Conserving) (init_conserving spec) ?_
      (Each.initial (has ▸ h)) hs
    intro _ u a t _ hu hok ht
    exact (step_conserving_iff hu ht).mpr (hok (by rw [ht]; rfl))

/-- A task that only a reviewer can handle. -/
def reviewTask : TaskAssignment :=
  { taskId := "7c9e6679-7425-40de-944b-e07fc1f90ae7"
    requiredCapabilities := some { role := some .reviewer } }

/-- A task submitted before the start waits beside an idle agent, and so does one behind a task
that no agent of the pool can handle. -/
theorem task_waits :
    (∃ t, run (step plainEnv) (init coderSpec) [.submitTask uuidTask 0 0, .start, .spawned] =
      some t ∧ ¬ t.Conserving) ∧
    ∃ t, run (step plainEnv) (init coderSpec)
        [.start, .spawned, .submitTask reviewTask 0 0, .submitTask uuidTask 1 0] = some t ∧
      ¬ t.Conserving := by
  refine ⟨⟨_, rfl, fun h => ?_⟩, ⟨_, rfl, fun h => ?_⟩⟩
  · refine h rfl ⟨uuidTask, 0, 0⟩ (by decide) ⟨_, List.mem_cons_self, rfl, rfl, rfl⟩
  · refine h rfl ⟨uuidTask, 0, 1⟩ (by decide) ⟨_, List.mem_cons_self, rfl, rfl, rfl⟩

end AgentPool
end Batiste
