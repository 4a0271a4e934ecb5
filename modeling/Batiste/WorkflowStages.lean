import Batiste.AgentPool
import Batiste.Json
import Batiste.Trail

/-! The stages of a workflow, as `Orchestrator.executeStage` runs them one after another.  What the
pools of agents answer is a parameter. -/
namespace Batiste
namespace WorkflowStages

open AgentPool

/-! ## Workflows -/

inductive WorkflowPattern
  | sequential | parallel | pipeline | council
  deriving DecidableEq, Repr

/-- `timeout` is never read, and the numbers of the retry policy only after a rejected review. -/
structure WorkflowStage where
  id : String
  name : String
  requiredRoles : List AgentRole
  pattern : WorkflowPattern
  vetoRequired : Bool

/-- The condition of a transition is never read. -/
structure Transition where
  source : String
  target : String

structure WorkflowDefinition where
  stages : List WorkflowStage
  entryPoint : String
  terminalStages : List String
  transitions : List Transition

/-- A task that has been handed to the pool of a role. -/
structure Submitted where
  taskId : String
  role : AgentRole
  description : String
  context : Dict Json

/-- The pools as the `k`th stage of a run meets them, the ones of its roles by their places. -/
structure Host where
  hasPool : ℕ → AgentRole → Bool
  draining : ℕ → ℕ → Bool
  completed : ℕ → ℕ → Bool
  taskId : ℕ → ℕ → String
  hasReviewer : ℕ → Bool
  reviewerDraining : ℕ → Bool
  reviewId : ℕ → String

/-! ## One stage -/

def roleText : AgentRole → String
  | .orchestrator => "orchestrator"
  | .coder => "coder"
  | .reviewer => "reviewer"
  | .tester => "tester"
  | .documenter => "documenter"
  | .analyst => "analyst"
  | .debugger => "debugger"

/-- The error of `submitTask`. -/
def refusal : String := "Pool is draining — not accepting new tasks"

section Stage

variable (h : Host) (k : ℕ) (stage : WorkflowStage)

/-- A pool gets the result of the one before it. -/
def executeSequential : ℕ → List AgentRole → Dict Json → List Json →
    List Submitted × Except String Json
  | _, [], _, results => ([], .ok (.array results))
  | i, role :: roles, currentInput, results =>
    if h.draining k i then ([], .error refusal)
    else
      let result := Json.object [("completed", .bool (h.completed k i))]
      let rest := executeSequential (i + 1) roles (currentInput.set "_previousResult" result)
        (results ++ [result])
      (⟨h.taskId k i, role, "Stage: " ++ stage.name, currentInput⟩ :: rest.1, rest.2)

/-- The pools that do not drain have got their tasks when the promise of all is rejected. -/
def executeParallel (input : Dict Json) : List Submitted × Except String Json :=
  let places := stage.requiredRoles.zipIdx
  (places.filterMap fun p =>
      if h.draining k p.2 then none
      else some ⟨h.taskId k p.2, p.1, "Stage: " ++ stage.name ++ " (parallel)", input⟩,
    if places.any fun p => h.draining k p.2 then .error refusal
    else .ok (.array (places.map fun p =>
      .object [("taskId", .string (h.taskId k p.2)), ("submitted", .bool true)])))

def executeCouncil (input : Dict Json) : List Submitted × Except String Json :=
  let r := executeParallel h k stage input
  (r.1, r.2.map fun results =>
    .object [("pattern", .string "council"), ("results", results), ("consensus", .bool true)])

def executePattern (input : Dict Json) : List Submitted × Except String Json :=
  match stage.pattern with
  | .sequential | .pipeline => executeSequential h k stage 0 stage.requiredRoles input []
  | .parallel => executeParallel h k stage input
  | .council => executeCouncil h k stage input

/-- Reviewers get a task, but what they decide is not waited for: the stage is always approved. -/
def checkVeto (result : Json) : List Submitted × Except String Unit :=
  if h.hasReviewer k then
    if h.reviewerDraining k then ([], .error refusal)
    else
      ([⟨h.reviewId k, .reviewer, "Review output from stage: " ++ stage.name,
        [("result", result)]⟩], .ok ())
  else ([], .ok ())

/-- The pools of the roles, the work of the pattern, and the review where one is required. -/
def performStage (input : Dict Json) : List Submitted × Except String Json :=
  if stage.requiredRoles.any fun role => !h.hasPool k role then
    ([], .error ("Missing pools for roles: " ++
      String.intercalate ", " (stage.requiredRoles.map roleText)))
  else
    let work := executePattern h k stage input
    match work.2 with
    | .error message => (work.1, .error message)
    | .ok result =>
      if stage.vetoRequired then
        let review := checkVeto h k stage result
        (work.1 ++ review.1, review.2.map fun _ => result)
      else (work.1, .ok result)

end Stage

/-! ## A run -/

inductive Ending
  | completed (result : Json)
  | failed (error : String)

structure Execution where
  currentStage : String
  input : Dict Json
  started : List String
  tasks : List Submitted
  ending : Option Ending

def WorkflowDefinition.stage? (w : WorkflowDefinition) (id : String) : Option WorkflowStage :=
  w.stages.find? fun s => s.id = id

/-- Where a stage leads: its first transition, unless it is terminal. -/
def WorkflowDefinition.next (w : WorkflowDefinition) (id : String) : Option String :=
  if id ∈ w.terminalStages then none
  else (w.transitions.find? fun t => t.source = id).map Transition.target

/-- One call of `executeStage`, as far as the call it ends with. -/
def executeStage (h : Host) (w : WorkflowDefinition) (e : Execution) : Execution :=
  match w.stage? e.currentStage with
  | none => { e with ending := some (.failed ("Stage not found: " ++ e.currentStage)) }
  | some stage =>
    let work := performStage h e.started.length stage e.input
    let e := { e with started := e.started ++ [stage.id], tasks := e.tasks ++ work.1 }
    match work.2 with
    | .error message => { e with ending := some (.failed message) }
    | .ok result =>
      match w.next stage.id with
      | some target =>
        { e with currentStage := target, input := e.input.set "_previousResult" result }
      | none => { e with ending := some (.completed result) }

def advance (h : Host) (w : WorkflowDefinition) (e : Execution) : Execution :=
  if e.ending.isSome then e else executeStage h w e

def entry (w : WorkflowDefinition) (input : Dict Json) : Execution :=
  ⟨w.entryPoint, input, [], [], none⟩

/-- `executeWorkflow` after some of its stages. -/
def executeWorkflow (h : Host) (w : WorkflowDefinition) (input : Dict Json) (n : ℕ) : Execution :=
  (advance h w)^[n] (entry w input)

/-! ## What a completed run is -/

/-- Every role of the stage has a pool that takes its task, and so have the reviewers if they are
asked. -/
structure Admits (h : Host) (k : ℕ) (stage : WorkflowStage) : Prop where
  pools : ∀ role ∈ stage.requiredRoles, h.hasPool k role = true
  accept : ∀ p ∈ stage.requiredRoles.zipIdx, h.draining k p.2 = false
  review : stage.vetoRequired = true → h.hasReviewer k = true → h.reviewerDraining k = false

def resultOf (h : Host) (k : ℕ) (stage : WorkflowStage) : Json :=
  let submitted := Json.array (stage.requiredRoles.zipIdx.map fun p =>
    .object [("taskId", .string (h.taskId k p.2)), ("submitted", .bool true)])
  match stage.pattern with
  | .sequential | .pipeline =>
    .array (stage.requiredRoles.zipIdx.map fun p =>
      .object [("completed", .bool (h.completed k p.2))])
  | .parallel => submitted
  | .council =>
    .object [("pattern", .string "council"), ("results", submitted), ("consensus", .bool true)]

/-- The tasks of the stages of a path, each of which gets the result of the one before it. -/
def tasksAlong (h : Host) : ℕ → Dict Json → List WorkflowStage → List Submitted
  | _, _, [] => []
  | k, input, stage :: path =>
    (performStage h k stage input).1 ++
      tasksAlong h (k + 1) (input.set "_previousResult" (resultOf h k stage)) path

/-- The path leads over the transitions from a stage to an end, and all its stages are admitted, the
first as the `k`th one of the run. -/
structure Path (h : Host) (w : WorkflowDefinition) (k : ℕ) (id : String)
    (path : List WorkflowStage) : Prop where
  route : Trail.Ends w.next id (path.map WorkflowStage.id)
  defined : ∀ stage ∈ path, w.stage? stage.id = some stage
  admitted : ∀ i stage, path[i]? = some stage → Admits h (k + i) stage

/-- What a completed execution has done: it has started the stages of the path, handed out their
tasks, and ended with the result of the last one. -/
structure Follows (h : Host) (k : ℕ) (e : Execution) (path : List WorkflowStage) (e' : Execution) :
    Prop where
  started : e'.started = e.started ++ path.map WorkflowStage.id
  tasks : e'.tasks = e.tasks ++ tasksAlong h k e.input path
  ending : ∃ stage, path.getLast? = some stage ∧
    e'.ending = some (.completed (resultOf h (k + (path.length - 1)) stage))

/-! ## The work of one stage -/

section Stage

variable {h : Host} {k : ℕ} {stage : WorkflowStage} {input : Dict Json} {result : Json}

theorem executeSequential_ok_iff {i : ℕ} {roles : List AgentRole} {results : List Json} :
    (executeSequential h k stage i roles input results).2 = .ok result ↔
      (∀ p ∈ roles.zipIdx i, h.draining k p.2 = false) ∧
        result = .array (results ++ (roles.zipIdx i).map fun p =>
          .object [("completed", .bool (h.completed k p.2))]) := by
  induction roles generalizing i input results with
  | nil =>
    rw [executeSequential, Except.ok.injEq, List.zipIdx_nil, List.map_nil, List.append_nil]
    exact ⟨fun hres => ⟨fun p hp => absurd hp List.not_mem_nil, hres.symm⟩, fun hres => hres.2.symm⟩
  | cons role roles ih =>
    rw [executeSequential, List.zipIdx_cons, List.forall_mem_cons, List.map_cons]
    by_cases hdraining : h.draining k i = true
    · simp [hdraining]
    · rw [Bool.not_eq_true] at hdraining
      simp only [hdraining, Bool.false_eq_true, if_false, ih, true_and, List.append_assoc,
        List.cons_append, List.nil_append]

theorem executeParallel_ok_iff :
    (executeParallel h k stage input).2 = .ok result ↔
      (∀ p ∈ stage.requiredRoles.zipIdx, h.draining k p.2 = false) ∧
        result = .array (stage.requiredRoles.zipIdx.map fun p =>
          .object [("taskId", .string (h.taskId k p.2)), ("submitted", .bool true)]) := by
  rw [executeParallel]
  by_cases hdraining : (stage.requiredRoles.zipIdx.any fun p => h.draining k p.2) = true
  · rw [if_pos hdraining]
    obtain ⟨p, hp, hdrains⟩ := List.any_eq_true.mp hdraining
    refine ⟨fun hok => absurd hok (by simp), fun hall => ?_⟩
    exact absurd hdrains (by simp [hall.1 p hp])
  · rw [if_neg hdraining, Except.ok.injEq, eq_comm]
    rw [Bool.not_eq_true, List.any_eq_false] at hdraining
    exact ⟨fun hres => ⟨fun p hp => by simpa using hdraining p hp, hres⟩, And.right⟩

theorem executePattern_ok_iff :
    (executePattern h k stage input).2 = .ok result ↔
      (∀ p ∈ stage.requiredRoles.zipIdx, h.draining k p.2 = false) ∧
        result = resultOf h k stage := by
  unfold executePattern resultOf
  cases stage.pattern with
  | sequential => exact executeSequential_ok_iff
  | pipeline => exact executeSequential_ok_iff
  | parallel => exact executeParallel_ok_iff
  | council =>
    simp only [executeCouncil]
    cases hwork : (executeParallel h k stage input).2 with
    | error message =>
      have hnot : ∀ result, ¬ (executeParallel h k stage input).2 = .ok result := by simp [hwork]
      simp only [executeParallel_ok_iff] at hnot
      refine ⟨fun hok => absurd hok (by simp [Except.map]), fun hall => ?_⟩
      exact absurd ⟨hall.1, rfl⟩ (hnot _)
    | ok results =>
      obtain ⟨hall, rfl⟩ := executeParallel_ok_iff.mp hwork
      rw [Except.map, Except.ok.injEq]
      exact ⟨fun hres => ⟨hall, hres.symm⟩, fun hres => hres.2.symm⟩

theorem checkVeto_ok_iff : (checkVeto h k stage result).2 = .ok () ↔
    (h.hasReviewer k = true → h.reviewerDraining k = false) := by
  rw [checkVeto]
  cases h.hasReviewer k <;> cases h.reviewerDraining k <;> simp

/-- A stage comes to its result just when it is admitted. -/
theorem performStage_ok_iff : (performStage h k stage input).2 = .ok result ↔
    Admits h k stage ∧ result = resultOf h k stage := by
  rw [performStage]
  by_cases hmissing : (stage.requiredRoles.any fun role => !h.hasPool k role) = true
  · rw [if_pos hmissing]
    obtain ⟨role, hrole, hnone⟩ := List.any_eq_true.mp hmissing
    refine ⟨fun hok => absurd hok (by simp), fun hall => ?_⟩
    exact absurd hnone (by simp [hall.1.pools role hrole])
  have hpools : ∀ role ∈ stage.requiredRoles, h.hasPool k role = true := by
    simpa using hmissing
  rw [if_neg hmissing]
  have hpattern : ∀ result, (executePattern h k stage input).2 = .ok result ↔
      (∀ p ∈ stage.requiredRoles.zipIdx, h.draining k p.2 = false) ∧
        result = resultOf h k stage := fun _ => executePattern_ok_iff
  generalize executePattern h k stage input = work at hpattern ⊢
  obtain ⟨tasks, answer⟩ := work
  cases answer with
  | error message =>
    refine ⟨fun hok => absurd hok (by simp), fun hall => ?_⟩
    exact absurd ((hpattern _).mpr ⟨hall.1.accept, rfl⟩) (by simp)
  | ok work =>
    obtain ⟨haccept, rfl⟩ := (hpattern work).mp rfl
    by_cases hveto : stage.vetoRequired = true
    · have hreview : (checkVeto h k stage (resultOf h k stage)).2 = .ok () ↔
          (h.hasReviewer k = true → h.reviewerDraining k = false) := checkVeto_ok_iff
      simp only [hveto, if_true]
      generalize checkVeto h k stage (resultOf h k stage) = review at hreview ⊢
      obtain ⟨tasks', verdict⟩ := review
      cases verdict with
      | error message =>
        refine ⟨fun hok => absurd hok (by simp [Except.map]), fun hall => ?_⟩
        exact absurd (hreview.mpr (hall.1.review hveto)) (by simp)
      | ok done =>
        constructor
        · intro hok
          exact ⟨⟨hpools, haccept, fun _ => hreview.mp rfl⟩, (Except.ok.inj hok).symm⟩
        · rintro ⟨-, rfl⟩
          rfl
    · simp only [hveto, Bool.false_eq_true, if_false]
      constructor
      · intro hok
        exact ⟨⟨hpools, haccept, fun hrequired => absurd hrequired hveto⟩, (Except.ok.inj hok).symm⟩
      · rintro ⟨-, rfl⟩
        rfl

end Stage

/-! ## Runs -/

section Run

variable {h : Host} {w : WorkflowDefinition}

theorem stage?_id {id : String} {stage : WorkflowStage} (hstage : w.stage? id = some stage) :
    stage.id = id := by
  rw [WorkflowDefinition.stage?] at hstage
  simpa using List.find?_some hstage

section Path

variable {k : ℕ} {id : String} {stage : WorkflowStage} {path : List WorkflowStage}

theorem Path.last (hstage : w.stage? id = some stage) (hadmits : Admits h k stage)
    (hnext : w.next stage.id = none) : Path h w k id [stage] := by
  have hid : stage.id = id := stage?_id hstage
  refine ⟨?_, ?_, ?_⟩
  · rw [List.map_singleton, ← hid]
    exact .last hnext
  · intro s hs
    rw [List.mem_singleton.mp hs, hid]
    exact hstage
  · intro i s hs
    cases i with
    | zero =>
      obtain rfl := Option.some.inj hs
      exact hadmits
    | succ i => exact absurd hs (by simp)

theorem Path.cons {target : String} (hstage : w.stage? id = some stage)
    (hadmits : Admits h k stage) (hnext : w.next stage.id = some target)
    (hpath : Path h w (k + 1) target path) : Path h w k id (stage :: path) := by
  have hid : stage.id = id := stage?_id hstage
  refine ⟨?_, ?_, ?_⟩
  · rw [List.map_cons, ← hid]
    exact .step hnext hpath.route
  · refine List.forall_mem_cons.mpr ⟨?_, hpath.defined⟩
    rw [hid]
    exact hstage
  · intro i s hs
    cases i with
    | zero =>
      obtain rfl := Option.some.inj hs
      exact hadmits
    | succ i =>
      have hlater := hpath.admitted i s hs
      rwa [Nat.add_right_comm] at hlater

/-- The first stage of a path, and the path behind it. -/
theorem Path.uncons (hpath : Path h w k id path) :
    ∃ stage rest, path = stage :: rest ∧ w.stage? id = some stage ∧ Admits h k stage ∧
      (rest = [] ∧ w.next stage.id = none ∨
        ∃ target, w.next stage.id = some target ∧ Path h w (k + 1) target rest) := by
  obtain ⟨ids, hids⟩ := hpath.route.exists_cons
  cases path with
  | nil => exact absurd hids (by simp)
  | cons stage rest =>
    obtain ⟨rfl, -⟩ := List.cons.inj hids
    refine ⟨stage, rest, rfl, hpath.defined stage List.mem_cons_self,
      hpath.admitted 0 stage rfl, ?_⟩
    have hroute := hpath.route
    rw [List.map_cons] at hroute
    cases hrest : rest.map WorkflowStage.id with
    | nil =>
      rw [hrest] at hroute
      cases hroute with
      | last hnext => exact Or.inl ⟨List.map_eq_nil_iff.mp hrest, hnext⟩
      | step _ hnil => exact absurd hnil.exists_cons (by simp)
    | cons target ids =>
      rw [hrest] at hroute
      cases hroute with
      | step hnext htail =>
        obtain ⟨ids', htarget⟩ := htail.exists_cons
        obtain ⟨rfl, -⟩ := List.cons.inj htarget
        refine Or.inr ⟨target, hnext, ?_, ?_, ?_⟩
        · rwa [hrest]
        · exact fun s hs => hpath.defined s (List.mem_cons_of_mem _ hs)
        · intro i s hs
          have hlater := hpath.admitted (i + 1) s hs
          rwa [← Nat.add_assoc, Nat.add_right_comm] at hlater

end Path

section Step

variable {e : Execution} {stage : WorkflowStage}

theorem executeStage_next (hstage : w.stage? e.currentStage = some stage)
    (hadmits : Admits h e.started.length stage) {target : String}
    (hnext : w.next stage.id = some target) :
    executeStage h w e =
      { currentStage := target
        input := e.input.set "_previousResult" (resultOf h e.started.length stage)
        started := e.started ++ [stage.id]
        tasks := e.tasks ++ (performStage h e.started.length stage e.input).1
        ending := e.ending } := by
  have hwork : (performStage h e.started.length stage e.input).2 =
      .ok (resultOf h e.started.length stage) := performStage_ok_iff.mpr ⟨hadmits, rfl⟩
  rw [executeStage, hstage]
  simp only [hwork, hnext]

theorem executeStage_last (hstage : w.stage? e.currentStage = some stage)
    (hadmits : Admits h e.started.length stage) (hnext : w.next stage.id = none) :
    executeStage h w e =
      { e with
        started := e.started ++ [stage.id]
        tasks := e.tasks ++ (performStage h e.started.length stage e.input).1
        ending := some (.completed (resultOf h e.started.length stage)) } := by
  have hwork : (performStage h e.started.length stage e.input).2 =
      .ok (resultOf h e.started.length stage) := performStage_ok_iff.mpr ⟨hadmits, rfl⟩
  rw [executeStage, hstage]
  simp only [hwork, hnext]

/-- A stage that is not admitted fails the execution. -/
theorem executeStage_failed (hnot : ¬ ∃ stage, w.stage? e.currentStage = some stage ∧
    Admits h e.started.length stage) :
    ∃ message, (executeStage h w e).ending = some (.failed message) := by
  rw [executeStage]
  cases hstage : w.stage? e.currentStage with
  | none => exact ⟨_, rfl⟩
  | some stage =>
    cases hwork : (performStage h e.started.length stage e.input).2 with
    | error message => exact ⟨message, by simp [hwork]⟩
    | ok result => exact absurd ⟨stage, hstage, (performStage_ok_iff.mp hwork).1⟩ hnot

theorem executeStage_started : e.started <+: (executeStage h w e).started := by
  rw [executeStage]
  cases w.stage? e.currentStage with
  | none => exact List.prefix_refl _
  | some stage =>
    simp only
    split
    · exact List.prefix_append _ _
    · split <;> exact List.prefix_append _ _

end Step

theorem advance_open {e : Execution} (hopen : e.ending = none) :
    advance h w e = executeStage h w e := by
  rw [advance, hopen, if_neg (by simp)]

theorem advance_ended {e : Execution} {ending : Ending} (hended : e.ending = some ending) :
    advance h w e = e := by
  rw [advance, if_pos (by rw [hended]; rfl)]

theorem iterate_ended {e : Execution} {ending : Ending} (hended : e.ending = some ending) (n : ℕ) :
    (advance h w)^[n] e = e := Function.iterate_fixed (advance_ended hended) n

/-- An execution that completes has a path in front of it. -/
theorem path_of_completed {n : ℕ} {e : Execution} {result : Json} (hopen : e.ending = none)
    (hrun : ((advance h w)^[n] e).ending = some (.completed result)) :
    ∃ path, Path h w e.started.length e.currentStage path := by
  induction n generalizing e with
  | zero => exact absurd (hopen.symm.trans hrun) (by simp)
  | succ n ih =>
    rw [Function.iterate_succ_apply, advance_open hopen] at hrun
    by_cases hadmitted : ∃ stage, w.stage? e.currentStage = some stage ∧
        Admits h e.started.length stage
    · obtain ⟨stage, hstage, hadmits⟩ := hadmitted
      cases hnext : w.next stage.id with
      | none => exact ⟨[stage], .last hstage hadmits hnext⟩
      | some target =>
        rw [executeStage_next hstage hadmits hnext] at hrun
        obtain ⟨path, hpath⟩ := ih (by exact hopen) hrun
        rw [List.length_append, List.length_singleton] at hpath
        exact ⟨stage :: path, .cons hstage hadmits hnext hpath⟩
    · obtain ⟨message, hfailed⟩ := executeStage_failed hadmitted
      rw [iterate_ended hfailed, hfailed] at hrun
      exact absurd hrun (by simp)

/-- An execution with a path in front of it follows the path to its end. -/
theorem follows_of_path {path : List WorkflowStage} {n : ℕ} {e : Execution}
    (hopen : e.ending = none) (hpath : Path h w e.started.length e.currentStage path)
    (hn : path.length ≤ n) : Follows h e.started.length e path ((advance h w)^[n] e) := by
  induction path generalizing n e with
  | nil =>
    obtain ⟨stage, rest, hnil, -⟩ := hpath.uncons
    exact absurd hnil (by simp)
  | cons stage path ih =>
    obtain ⟨stage', rest, hcons, hstage, hadmits, hrest⟩ := hpath.uncons
    obtain ⟨rfl, rfl⟩ := List.cons.inj hcons
    obtain ⟨m, rfl⟩ : ∃ m, n = m + 1 := ⟨n - 1, by simp at hn; omega⟩
    rw [Function.iterate_succ_apply, advance_open hopen]
    rcases hrest with ⟨rfl, hnext⟩ | ⟨target, hnext, hrest⟩
    · rw [executeStage_last hstage hadmits hnext, iterate_ended rfl]
      exact ⟨rfl, by simp [tasksAlong], stage, rfl, rfl⟩
    · rw [executeStage_next hstage hadmits hnext]
      have hlength : (e.started ++ [stage.id]).length = e.started.length + 1 := by simp
      have hfollows := ih (n := m) (e := ⟨target,
        e.input.set "_previousResult" (resultOf h e.started.length stage), e.started ++ [stage.id],
        e.tasks ++ (performStage h e.started.length stage e.input).1, e.ending⟩) hopen
        (hlength.symm ▸ hrest) (by simpa using hn)
      obtain ⟨hstarted, htasks, last, hlast, hending⟩ := hfollows
      refine ⟨?_, ?_, last, ?_, ?_⟩
      · rw [hstarted, List.append_assoc]
        rfl
      · rw [htasks, tasksAlong, List.append_assoc, hlength]
      · rw [List.getLast?_cons, hlast]
        rfl
      · rw [hending, hlength]
        have hpos : 0 < path.length := List.length_pos_of_mem (List.mem_of_getLast? hlast)
        rw [List.length_cons, show e.started.length + 1 + (path.length - 1) =
          e.started.length + (path.length + 1 - 1) by omega]

theorem started_grows {m n : ℕ} (hmn : m ≤ n) (e : Execution) :
    ((advance h w)^[m] e).started <+: ((advance h w)^[n] e).started := by
  obtain ⟨d, rfl⟩ := Nat.exists_eq_add_of_le' hmn
  rw [Function.iterate_add_apply]
  clear hmn
  generalize (advance h w)^[m] e = e
  induction d generalizing e with
  | zero => exact List.prefix_refl _
  | succ d ih =>
    rw [Function.iterate_succ_apply]
    refine List.IsPrefix.trans ?_ (ih _)
    rw [advance]
    split
    · exact List.prefix_refl _
    · exact executeStage_started

theorem completed_fixed {m n : ℕ} {e : Execution} {result : Json} (hmn : m ≤ n)
    (hm : ((advance h w)^[m] e).ending = some (.completed result)) :
    (advance h w)^[n] e = (advance h w)^[m] e := by
  obtain ⟨d, rfl⟩ := Nat.exists_eq_add_of_le' hmn
  rw [Function.iterate_add_apply, iterate_ended hm]

end Run

/-! ## Completed workflows -/

section Workflow

variable {h : Host} {w : WorkflowDefinition} {input : Dict Json}

/-- A path starts no stage twice, and so at most all of them. -/
theorem Path.bounded {k : ℕ} {id : String} {path : List WorkflowStage}
    (hpath : Path h w k id path) :
    (path.map WorkflowStage.id).Nodup ∧ path.length ≤ w.stages.length := by
  refine ⟨hpath.route.nodup, ?_⟩
  have hsub : path.map WorkflowStage.id ⊆ w.stages.map WorkflowStage.id := by
    intro id hid
    obtain ⟨stage, hstage, rfl⟩ := List.mem_map.mp hid
    exact List.mem_map_of_mem (List.mem_of_find?_eq_some (hpath.defined stage hstage))
  simpa using hpath.route.length_le hsub

/-- A workflow completes just when its transitions lead over admitted stages to an end, which takes
at most all its stages.  It has then followed that path; an execution that starts a stage a second
time never completes. -/
theorem workflow_completes (h : Host) (w : WorkflowDefinition) (input : Dict Json) :
    (∀ n result, (executeWorkflow h w input n).ending = some (.completed result) →
      ∃ path, Path h w 0 w.entryPoint path ∧
        Follows h 0 (entry w input) path (executeWorkflow h w input n)) ∧
    (∀ path, Path h w 0 w.entryPoint path → path.length ≤ w.stages.length ∧
      ∀ n, path.length ≤ n → Follows h 0 (entry w input) path (executeWorkflow h w input n)) ∧
    ∀ n, ¬ (executeWorkflow h w input n).started.Nodup →
      ∀ m result, (executeWorkflow h w input m).ending ≠ some (.completed result) := by
  have hfollowed : ∀ n result, (executeWorkflow h w input n).ending = some (.completed result) →
      ∃ path, Path h w 0 w.entryPoint path ∧
        Follows h 0 (entry w input) path (executeWorkflow h w input n) := by
    intro n result hcompleted
    obtain ⟨path, hpath⟩ := path_of_completed (e := entry w input) rfl hcompleted
    refine ⟨path, hpath, ?_⟩
    -- the execution stays as it is from here to the end of the path
    have hfixed : executeWorkflow h w input (max n path.length) = executeWorkflow h w input n :=
      completed_fixed (le_max_left n path.length) hcompleted
    rw [← hfixed]
    exact follows_of_path (e := entry w input) rfl hpath (le_max_right n path.length)
  refine ⟨hfollowed, fun path hpath => ⟨hpath.bounded.2, fun n hn =>
    follows_of_path (e := entry w input) rfl hpath hn⟩, fun n hrepeat m result hcompleted => ?_⟩
  obtain ⟨path, hpath, hfollows⟩ := hfollowed m result hcompleted
  have hnodup : (executeWorkflow h w input m).started.Nodup := by
    rw [hfollows.started]
    exact hpath.bounded.1
  refine hrepeat ?_
  rcases le_total n m with hnm | hmn
  · exact hnodup.sublist (started_grows hnm (entry w input)).sublist
  · rwa [executeWorkflow, completed_fixed hmn hcompleted]

end Workflow

def codeReview : WorkflowDefinition where
  stages :=
    [⟨"implement", "Implementation", [.coder], .sequential, false⟩,
      ⟨"review", "Code Review", [.reviewer], .sequential, true⟩]
  entryPoint := "implement"
  terminalStages := ["review"]
  transitions := [⟨"implement", "review"⟩]

/-- Pools that are all there and take what they get. -/
def readyHost : Host where
  hasPool := fun _ _ => true
  draining := fun _ _ => false
  completed := fun _ _ => true
  taskId := fun k i => toString k ++ "-" ++ toString i
  hasReviewer := fun _ => true
  reviewerDraining := fun _ => false
  reviewId := toString

example : (executeWorkflow readyHost codeReview [] 2).started = ["implement", "review"] ∧
    (executeWorkflow readyHost codeReview [] 2).tasks.map Submitted.role =
      [.coder, .reviewer, .reviewer] := ⟨rfl, rfl⟩

end WorkflowStages
end Batiste
