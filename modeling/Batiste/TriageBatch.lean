import Batiste.ActionWrites
import Batiste.MergeRuns
import Batiste.SimilarClusters

/-! `manage_task triage` with `apply`: what a batch leaves of the targets of its merges. -/
namespace Batiste
namespace TriageBatch

open JsonText TaskActions TaskMerge ManageTask
open TaskReconciler (Records)
open SimilarClusters (groupsOf_grouped mem_of_pickTarget)

/-! ## The targets of the clusters -/

section Clusters

/-- The tasks of the groups are among some tasks, and no id is in two groups. -/
structure Apart (tasks : List Task) (groups : Dict (List Task)) : Prop where
  mem : ∀ g ∈ groups, ∀ task ∈ g.2, task ∈ tasks
  one : ∀ g ∈ groups, ∀ g' ∈ groups, ∀ task ∈ g.2, ∀ task' ∈ g'.2, task.id = task'.id → g = g'

variable {pairs : List SimPair}

theorem apart_groups (tasks : List Task) : Apart tasks (groupsOf pairs tasks) := by
  obtain ⟨root, hgrouped, -⟩ := groupsOf_grouped pairs tasks
  constructor
  · intro g hg task htask
    exact List.mem_of_mem_filter ((hgrouped.mem_iff hg).mp htask).1
  · intro g hg g' hg' task htask task' htask' hid
    exact hgrouped.unique hg hg' htask htask' (congrArg root hid)

variable {numberText : ℚ → String} {sim : Similarity}

/-- The target of a cluster is a member, and the others are proposed for it. -/
theorem clusterOf_members {tasks members : List Task} {cluster : SimCluster}
    (hcluster : clusterOf numberText sim pairs tasks members = some cluster) :
    ∃ target ∈ members, cluster.targetId = target.id ∧ ∀ m ∈ cluster.merges,
      ∃ source ∈ members, m.sourceId = source.id ∧ source.id ≠ target.id := by
  obtain ⟨target, htarget, rfl⟩ := Option.map_eq_some_iff.mp hcluster
  refine ⟨target, mem_of_pickTarget htarget, rfl, fun m hm => ?_⟩
  obtain ⟨source, hsource, rfl⟩ := List.mem_map.mp hm
  obtain ⟨hsource, hne⟩ := List.mem_filter.mp hsource
  exact ⟨source, hsource, rfl, by simpa using hne⟩

/-- What is proposed for one target is no target itself. -/
theorem sources_no_targets {threshold : ℚ} {tasks : List Task} {cluster cluster' : SimCluster}
    (hcluster : cluster ∈ clusterSimilar numberText sim threshold tasks)
    (hcluster' : cluster' ∈ clusterSimilar numberText sim threshold tasks) {m : ProposedMerge}
    (hm : m ∈ cluster.merges) : m.sourceId ≠ cluster'.targetId := by
  unfold clusterSimilar at hcluster hcluster'
  rw [List.mem_insertionSort] at hcluster hcluster'
  obtain ⟨g, hg, hof⟩ := List.mem_filterMap.mp hcluster
  obtain ⟨g', hg', hof'⟩ := List.mem_filterMap.mp hcluster'
  obtain ⟨target, htarget, htargetId, hmerges⟩ := clusterOf_members hof
  obtain ⟨target', htarget', htargetId', -⟩ := clusterOf_members hof'
  obtain ⟨source, hsource, hsourceId, hne⟩ := hmerges m hm
  intro heq
  have hid : source.id = target'.id := hsourceId.symm.trans (heq.trans htargetId')
  obtain rfl := (apart_groups tasks).one g hg g' hg' source hsource target' htarget' hid
  rw [hof] at hof'
  obtain rfl := Option.some.inj hof'
  exact hne (hsourceId.symm.trans (heq.trans htargetId))

end Clusters

/-! ## The candidates -/

section Candidates

variable {rt : Runtime} {sim : Similarity} {now : ℤ} {tasks open_ : List Task}

theorem mem_pushed {all out : List TriageCandidate} {c : TriageCandidate}
    (hc : c ∈ all.foldl pushCandidate out) : c ∈ out ∨ c ∈ all := by
  induction all generalizing out with
  | nil => exact .inl hc
  | cons d all ih =>
    rcases ih hc with hout | hall
    · unfold pushCandidate at hout
      split at hout
      · exact .inl hout
      · rcases List.mem_append.mp hout with hold | hlast
        · exact .inl hold
        · exact .inr (List.mem_singleton.mp hlast ▸ List.mem_cons_self)
    · exact .inr (List.mem_cons_of_mem d hall)

/-- A merge is proposed by a cluster. -/
theorem mergeCandidates_mem {c : TriageCandidate}
    (hc : c ∈ mergeCandidates rt sim now tasks open_) :
    c.kind = .merge ∧ c.taskId ∈ tasks.map Task.id ∧
      ∃ cluster ∈ clusterSimilar rt.numberText sim THRESHOLD_SAME open_, ∃ m ∈ cluster.merges,
        c.taskId = m.sourceId ∧ c.mergeInto = some cluster.targetId := by
  obtain ⟨cluster, hcluster, hc⟩ := List.mem_flatMap.mp hc
  cases htarget : tasks.find? fun task => task.id = cluster.targetId with
  | none => simp [htarget] at hc
  | some target =>
    rw [htarget] at hc
    obtain ⟨m, hm, hc⟩ := List.mem_filterMap.mp hc
    obtain ⟨source, hsource, rfl⟩ := Option.map_eq_some_iff.mp hc
    have htargetId : target.id = cluster.targetId := by simpa using List.find?_some htarget
    have hsourceId : source.id = m.sourceId := by simpa using List.find?_some hsource
    exact ⟨rfl, List.mem_map_of_mem (List.mem_of_find?_eq_some hsource), cluster, hcluster, m, hm,
      hsourceId, congrArg some htargetId⟩

/-- The candidates of the other kinds name no target. -/
theorem triage_mem {staleDays minGroup : Option ℚ} {c : TriageCandidate}
    (hc : c ∈ triage rt sim tasks now staleDays minGroup) :
    c ∈ mergeCandidates rt sim now tasks (tasks.filter isOpen) ∨
      ∃ kind reason, kind ≠ .merge ∧ ∃ task ∈ tasks, c = candidate rt kind now task reason := by
  unfold triage at hc
  rw [List.mem_insertionSort] at hc
  have hall := (mem_pushed hc).resolve_left List.not_mem_nil
  have hopen : ∀ task ∈ tasks.filter isOpen, task ∈ tasks := fun task htask =>
    (List.mem_filter.mp htask).1
  simp only [List.mem_append] at hall
  rcases hall with (((hobsolete | habandoned) | hmerge) | hgroup) | horphan
  · obtain ⟨task, htask, hc⟩ := List.mem_filterMap.mp hobsolete
    obtain ⟨word, -, hc⟩ := Option.bind_eq_some_iff.mp hc
    split at hc <;> cases hc
    exact .inr ⟨_, _, by decide, task, hopen task htask, rfl⟩
  · obtain ⟨task, htask, rfl⟩ := List.mem_map.mp habandoned
    exact .inr ⟨_, _, by decide, task, hopen task (List.mem_filter.mp htask).1, rfl⟩
  · exact .inl hmerge
  · obtain ⟨prefix_, -, hc⟩ := List.mem_flatMap.mp hgroup
    dsimp only at hc
    split at hc
    · exact absurd hc List.not_mem_nil
    · split at hc
      · exact absurd hc List.not_mem_nil
      · obtain ⟨task, htask, rfl⟩ := List.mem_map.mp hc
        have hgroup := (List.mem_filter.mp (List.mem_filter.mp htask).1).1
        exact .inr ⟨_, _, by decide, task, hopen task hgroup, rfl⟩
  · obtain ⟨task, htask, hc⟩ := List.mem_filterMap.mp horphan
    obtain ⟨parentId, -, hc⟩ := Option.bind_eq_some_iff.mp hc
    obtain ⟨parent, -, hc⟩ := Option.bind_eq_some_iff.mp hc
    split at hc <;> cases hc
    exact .inr ⟨_, _, by decide, task, hopen task htask, rfl⟩

/-- What the candidates of a batch are like. -/
structure Proposed (tasks : List Task) (candidates : List TriageCandidate) : Prop where
  onBoard : ∀ c ∈ candidates, c.taskId ∈ tasks.map Task.id
  aimed : ∀ c ∈ candidates, c.kind = .merge ↔ c.mergeInto.isSome
  /-- No target of a merge is merged itself. -/
  kept : ∀ c ∈ candidates, ∀ d ∈ candidates, c.mergeInto = some d.taskId → d.mergeInto = none

theorem triage_proposed (staleDays minGroup : Option ℚ) :
    Proposed tasks (triage rt sim tasks now staleDays minGroup) where
  onBoard := by
    intro c hc
    rcases triage_mem hc with hmerge | ⟨kind, reason, -, task, htask, rfl⟩
    · exact (mergeCandidates_mem hmerge).2.1
    · exact List.mem_map_of_mem htask
  aimed := by
    intro c hc
    rcases triage_mem hc with hmerge | ⟨kind, reason, hkind, task, -, rfl⟩
    · obtain ⟨hkind, -, cluster, -, m, -, -, hinto⟩ := mergeCandidates_mem hmerge
      exact iff_of_true hkind (hinto ▸ rfl)
    · exact iff_of_false hkind (by simp [candidate])
  kept := by
    intro c hc d hd htarget
    rcases triage_mem hd with hmerge | ⟨kind, reason, -, task, -, rfl⟩
    · rcases triage_mem hc with hmerge' | ⟨kind, reason, -, task, -, rfl⟩
      · obtain ⟨-, -, cluster, hcluster, m, hm, htaskId, -⟩ := mergeCandidates_mem hmerge
        obtain ⟨-, -, cluster', hcluster', -, -, -, hinto⟩ := mergeCandidates_mem hmerge'
        refine absurd ?_ (sources_no_targets hcluster hcluster' hm)
        rw [← htaskId]
        exact Option.some.inj (htarget.symm.trans hinto)
      · cases htarget
    · rfl

end Candidates

/-! ## One candidate -/

def openIn (b : Board) (id : String) : Bool := (b.get id).any isOpen

/-- Both tasks are open, and the plan of the merge is no error. -/
def GoesThrough (h : Handler) (host : CallHost) (b : Board) (c : TriageCandidate)
    (targetId : String) : Prop :=
  ∃ source target plan, b.get c.taskId = some source ∧ b.get targetId = some target ∧
    isOpen source = true ∧ isOpen target = true ∧ planMerge h.rt.numberText
      (mergeInput host source target (some ("triage: " ++ c.reason)) b.rows) = .ok plan

/-- The candidate closes its task. -/
def Archives (c : TriageCandidate) : Prop := c.kind = .archive ∨ c.kind = .abandonRunning

section Step

variable {h : Handler} {host : CallHost} {batch batch' : Batch} {c : TriageCandidate}

theorem openIn_changed {b b' : Board} {f : Task → Task} (hids : ∀ row, (f row).id = row.id)
    (hrows : b'.rows.map timeless = (b.rows.map timeless).map f) (id : String) :
    openIn b' id = (b.get id).any fun row => isOpen (f (timeless row)) := by
  have htimeless : ∀ task : Option Task, task.any isOpen = (task.map timeless).any isOpen := by
    intro task
    cases task <;> rfl
  unfold openIn
  rw [htimeless (b'.get id), get_changed hids hrows id]
  cases b.get id <;> rfl

theorem openIn_kept {b b' : Board} {f : Task → Task} (hids : ∀ row, (f row).id = row.id)
    (hrows : b'.rows.map timeless = (b.rows.map timeless).map f) {id : String}
    (hopen : ∀ row, row.id = id → isOpen (f row) = isOpen row) : openIn b' id = openIn b id := by
  rw [openIn_changed hids hrows]
  unfold openIn
  cases hget : b.get id with
  | none => rfl
  | some row =>
    have hid : row.id = id := Board.get_id hget
    exact hopen (timeless row) hid

/-- No write of a batch opens a task. -/
theorem openIn_writes {b b' : Board} (hwrites : Writes (fun _ => False) b b') {id : String}
    (hopen : openIn b' id = true) : openIn b id = true := by
  unfold openIn at hopen
  cases hget : b'.get id with
  | none => simp [hget] at hopen
  | some new =>
    obtain ⟨old, hold, hrow⟩ := hwrites.rows new (Board.get_mem hget)
    rw [hget] at hopen
    have hid : old.id = id := hrow.id.symm.trans (Board.get_id hget)
    rw [openIn, ← hid, Board.get_of_mem hold]
    exact (hrow.opens hopen).resolve_right not_false

/-- A merge closes its source only. -/
theorem isOpen_mergedRow {plan : MergePlan} {sourceId targetId : String} {row : Task}
    (hne : row.id ≠ sourceId) : isOpen (mergedRow plan sourceId targetId row) = isOpen row := by
  unfold mergedRow halfMerged
  dsimp only
  rw [if_neg hne]
  split <;> split <;> rfl

/-- A merge that is planned is carried out, and closes its source only. -/
theorem applyMerge_planned {source target : Task} {reason : Option String} {s : Session}
    {plan : MergePlan} (hsource : s.board.get source.id = some source)
    (htarget : s.board.get target.id = some target) (hplan : planMerge h.rt.numberText
      (mergeInput host source target reason s.board.rows) = .ok plan) :
    ∃ s' reply, applyMerge h host source target reason s = .ok (s', reply) ∧
      ∀ id, id ≠ source.id → openIn s'.board id = openIn s.board id := by
  have hplanned : (planMerge h.rt.numberText (mergeInput host source target reason
      s.board.rows)).mapError Failure.input = .ok plan :=
    mapError_ok_iff.mpr hplan
  by_cases halready : plan.alreadyMerged = true
  · refine ⟨s, .alreadyMerged source.id target.id, ?_, fun _ _ => rfl⟩
    exact bind_ok_iff.mpr ⟨plan, hplanned, if_pos halready⟩
  · obtain ⟨s', hwrites⟩ : ∃ s', (mergeWrites plan).foldlM
        (mergeWrite host plan source.id target.id) s = .ok s' :=
      mergeWrites_succeed _ (by rw [hsource]; rfl) (by rw [htarget]; rfl)
    refine ⟨s', .merged source.id target.id plan.reparent plan.notesAppended,
      bind_ok_iff.mpr ⟨plan, hplanned, ?_⟩, fun id hne => ?_⟩
    · rw [if_neg halready]
      exact bind_ok_iff.mpr ⟨s', mapError_ok_iff.mpr hwrites, rfl⟩
    · exact openIn_kept (mergedRow_id plan source.id target.id) (merge_timeless hwrites)
        fun row hid => isOpen_mergedRow (hid ▸ hne)

/-- A merge candidate goes through, or leaves the batch with its board. -/
theorem applyMergeCandidate_cases (h : Handler) (host : CallHost) (c : TriageCandidate)
    (targetId : String) (batch : Batch) :
    (GoesThrough h host batch.session.board c targetId ∧
      (applyMergeCandidate h host c targetId batch).merged =
        batch.merged ++ [(c.taskId, targetId)] ∧
      ∀ id, id ≠ c.taskId → openIn (applyMergeCandidate h host c targetId batch).session.board id =
        openIn batch.session.board id) ∨
    (¬ GoesThrough h host batch.session.board c targetId ∧
      (applyMergeCandidate h host c targetId batch).merged = batch.merged ∧
      (applyMergeCandidate h host c targetId batch).session = batch.session) := by
  unfold applyMergeCandidate
  split
  case h_2 hnone =>
    refine .inr ⟨?_, rfl, rfl⟩
    rintro ⟨source, target, -, hsource, htarget, -⟩
    exact hnone source target hsource htarget
  case h_1 source target hsource htarget =>
    have hsame : ∀ {source' target' : Task}, batch.session.board.get c.taskId = some source' →
        batch.session.board.get targetId = some target' → source' = source ∧ target' = target :=
      fun hsource' htarget' => ⟨Option.some.inj (hsource'.symm.trans hsource),
        Option.some.inj (htarget'.symm.trans htarget)⟩
    by_cases hopen : (isOpen source && isOpen target) = true
    · rw [if_pos hopen]
      obtain ⟨hopenSource, hopenTarget⟩ := Bool.and_eq_true_iff.mp hopen
      cases hplan : planMerge h.rt.numberText (mergeInput host source target
          (some ("triage: " ++ c.reason)) batch.session.board.rows) with
      | ok plan =>
        obtain ⟨session, reply, hmerge, hothers⟩ := applyMerge_planned
          ((Board.get_id hsource).symm ▸ hsource) ((Board.get_id htarget).symm ▸ htarget) hplan
        rw [hmerge]
        refine .inl ⟨⟨source, target, plan, hsource, htarget, hopenSource, hopenTarget, hplan⟩, rfl,
          fun id hne => hothers id ?_⟩
        rwa [Board.get_id hsource]
      | error message =>
        have hmerge : applyMerge h host source target (some ("triage: " ++ c.reason))
            batch.session = .error (.input message) := by
          rw [applyMerge, hplan]
          rfl
        rw [hmerge]
        refine .inr ⟨?_, rfl, rfl⟩
        rintro ⟨source', target', plan, hsource', htarget', -, -, hok⟩
        obtain ⟨rfl, rfl⟩ := hsame hsource' htarget'
        rw [hplan] at hok
        cases hok
    · rw [if_neg hopen]
      refine .inr ⟨?_, rfl, rfl⟩
      rintro ⟨source', target', plan, hsource', htarget', hopenSource, hopenTarget, -⟩
      obtain ⟨rfl, rfl⟩ := hsame hsource' htarget'
      exact hopen (Bool.and_eq_true_iff.mpr ⟨hopenSource, hopenTarget⟩)

/-- What a candidate that is applied makes of the batch. -/
inductive Applied (h : Handler) (host : CallHost) (batch : Batch) (c : TriageCandidate)
    (batch' : Batch) : Prop
  | merged (targetId : String) (into : c.mergeInto = some targetId)
      (goes : GoesThrough h host batch.session.board c targetId)
      (pair : batch'.merged = batch.merged ++ [(c.taskId, targetId)])
  | archived (kind : Archives c) (pair : batch'.merged = batch.merged)
      (closed : openIn batch'.session.board c.taskId = false)
  | left (kind : ¬ Archives c)
      (none : ∀ targetId, c.mergeInto = some targetId →
        ¬ GoesThrough h host batch.session.board c targetId)
      (pair : batch'.merged = batch.merged) (session : batch'.session = batch.session)

theorem patchTask_failed {clock : ℕ → TaskManager.Clocks} {s s' : Session} {taskId : String}
    {entries : Dict Json} (hpatched : s.patchTask clock taskId
      { status := some .failed, metadata := some entries } = .ok s') :
    openIn s'.board taskId = false ∧
      ∀ id, id ≠ taskId → openIn s'.board id = openIn s.board id := by
  have hrows := patchTask_timeless hpatched
  have hids : ∀ row : Task, (if row.id = taskId then
      patched { status := some .failed, metadata := some entries } row else row).id = row.id := by
    intro row
    split
    · exact patched_id _ _
    · rfl
  constructor
  · rw [openIn_changed hids hrows]
    cases hget : s.board.get taskId with
    | none => rfl
    | some row =>
      have hid : row.id = taskId := Board.get_id hget
      rw [Option.any_some, if_pos (show (timeless row).id = taskId from hid)]
      rfl
  · intro id hne
    refine openIn_kept hids hrows fun row hid => ?_
    rw [if_neg (hid ▸ hne)]

theorem applyCandidate_applied (hkind : c.kind = .merge ↔ c.mergeInto.isSome)
    (hstep : applyCandidate h host batch c = .ok batch') :
    Applied h host batch c batch' ∧ ∀ id, id ≠ c.taskId →
      openIn batch'.session.board id = openIn batch.session.board id := by
  have hother : ∀ {kind : CandidateKind}, c.kind = kind → kind ≠ .merge → c.mergeInto = none := by
    intro kind hof hne
    cases hinto : c.mergeInto with
    | none => rfl
    | some targetId => exact absurd (hof.symm.trans (hkind.mpr (hinto ▸ rfl))) hne
  unfold applyCandidate at hstep
  split at hstep
  case h_1 hdone =>
    cases hstep
    refine ⟨.left (by simp [Archives, hdone]) ?_ rfl rfl, fun _ _ => rfl⟩
    rw [hother hdone (by decide)]
    exact fun _ hsome => (nomatch hsome)
  case h_2 targetId hmerge hinto =>
    cases hstep
    rcases applyMergeCandidate_cases h host c targetId batch with
      ⟨hgoes, hpair, hothers⟩ | ⟨hnot, hpair, hsession⟩
    · exact ⟨.merged targetId hinto hgoes hpair, hothers⟩
    · refine ⟨.left (by simp [Archives, hmerge]) ?_ hpair hsession, fun id _ => by rw [hsession]⟩
      intro targetId' hinto'
      obtain rfl := Option.some.inj (hinto.symm.trans hinto')
      exact hnot
  case h_3 hdone hmerge =>
    split at hstep
    · cases hstep
    · next session hpatched =>
      cases hstep
      obtain ⟨hclosed, hothers⟩ := patchTask_failed hpatched
      refine ⟨.archived ?_ rfl hclosed, hothers⟩
      unfold Archives
      cases hcase : c.kind with
      | archive => exact .inl rfl
      | abandonRunning => exact .inr rfl
      | closeParentDone => exact absurd hcase hdone
      | merge =>
        obtain ⟨targetId, hinto⟩ := Option.isSome_iff_exists.mp (hkind.mp hcase)
        exact absurd hinto (hmerge targetId hcase)

end Step

/-! ## A batch -/

/-- After a merge that goes through, no candidate archives its target. -/
def TargetsSpared (h : Handler) (host : CallHost) (candidates : List TriageCandidate)
    (s : Session) : Prop :=
  ∀ pre c post targetId batch, candidates = pre ++ c :: post → c.mergeInto = some targetId →
    pre.foldlM (applyCandidate h host) { session := s } = .ok batch →
      GoesThrough h host batch.session.board c targetId →
        ∀ d ∈ post, d.taskId = targetId → ¬ Archives d

theorem foldlM_split {ε σ α : Type} {f : σ → α → Except ε σ} {pre post : List α} {a : α} {s s' : σ}
    (hrun : (pre ++ a :: post).foldlM f s = .ok s') :
    ∃ mid next, pre.foldlM f s = .ok mid ∧ f mid a = .ok next ∧ post.foldlM f next = .ok s' := by
  rw [List.foldlM_append] at hrun
  obtain ⟨mid, hpre, hrun⟩ := bind_ok_iff.mp hrun
  rw [List.foldlM_cons] at hrun
  obtain ⟨next, hstep, hpost⟩ := bind_ok_iff.mp hrun
  exact ⟨mid, next, hpre, hstep, hpost⟩

section Run

variable {h : Handler} {host : CallHost} {candidates : List TriageCandidate} {batch batch' : Batch}
  {tasks : List Task}

/-- What the batch has closed stays closed. -/
theorem run_closed (hrun : candidates.foldlM (applyCandidate h host) batch = .ok batch')
    {id : String} (hopen : openIn batch'.session.board id = true) :
    openIn batch.session.board id = true := by
  have hwrites := foldlM_related
    (R := fun b c : Batch => Writes (fun _ => False) b.session.board c.session.board)
    (fun _ => .refl) (fun _ _ _ => .trans) (applyCandidate_writes h host) candidates batch
  rw [hrun] at hwrites
  exact openIn_writes hwrites hopen

theorem run_pairs (haimed : ∀ c ∈ candidates, c.kind = .merge ↔ c.mergeInto.isSome)
    (hrun : candidates.foldlM (applyCandidate h host) batch = .ok batch') :
    batch.merged ⊆ batch'.merged := by
  induction candidates generalizing batch with
  | nil =>
    cases hrun
    exact List.Subset.refl _
  | cons c candidates ih =>
    rw [List.foldlM_cons] at hrun
    obtain ⟨next, hstep, hrest⟩ := bind_ok_iff.mp hrun
    have hnext : batch.merged ⊆ next.merged := by
      obtain ⟨happlied, -⟩ := applyCandidate_applied (haimed c List.mem_cons_self) hstep
      cases happlied with
      | merged targetId into goes pair => exact pair ▸ List.subset_append_left _ _
      | archived kind pair closed => exact pair ▸ List.Subset.refl _
      | left kind none pair session => exact pair ▸ List.Subset.refl _
    exact List.Subset.trans hnext (ih (fun d hd => haimed d (List.mem_cons_of_mem c hd)) hrest)

/-- A pair is of a merge that went through. -/
theorem run_merged (haimed : ∀ c ∈ candidates, c.kind = .merge ↔ c.mergeInto.isSome)
    (hrun : candidates.foldlM (applyCandidate h host) batch = .ok batch') {p : String × String}
    (hp : p ∈ batch'.merged) : p ∈ batch.merged ∨ ∃ pre c post mid, candidates = pre ++ c :: post ∧
      pre.foldlM (applyCandidate h host) batch = .ok mid ∧ c.mergeInto = some p.2 ∧
      GoesThrough h host mid.session.board c p.2 := by
  induction candidates using List.reverseRecOn generalizing batch' with
  | nil =>
    cases hrun
    exact .inl hp
  | append_singleton candidates c ih =>
    obtain ⟨mid, next, hpre, hstep, hpost⟩ := foldlM_split hrun
    cases hpost
    obtain ⟨happlied, -⟩ := applyCandidate_applied (haimed c (by simp)) hstep
    have hearlier : p ∈ mid.merged → p ∈ batch.merged ∨ ∃ pre d post mid,
        candidates ++ [c] = pre ++ d :: post ∧
          pre.foldlM (applyCandidate h host) batch = .ok mid ∧ d.mergeInto = some p.2 ∧
          GoesThrough h host mid.session.board d p.2 := by
      intro hmem
      rcases ih (fun d hd => haimed d (List.mem_append_left _ hd)) hpre hmem with
        hold | ⟨pre, d, post, mid', rfl, hrest⟩
      · exact .inl hold
      · exact .inr ⟨pre, d, post ++ [c], mid', by simp, hrest⟩
    cases happlied with
    | merged targetId into goes pair =>
      rcases List.mem_append.mp (pair ▸ hp) with hold | hlast
      · exact hearlier hold
      · obtain rfl := List.mem_singleton.mp hlast
        exact .inr ⟨candidates, c, [], mid, rfl, hpre, into, goes⟩
    | archived kind pair closed => exact hearlier (pair ▸ hp)
    | left kind none pair session => exact hearlier (pair ▸ hp)

/-- A task that no candidate archives or merges stays as it is. -/
theorem run_kept (haimed : ∀ c ∈ candidates, c.kind = .merge ↔ c.mergeInto.isSome) {id : String}
    (hspared : ∀ c ∈ candidates, c.taskId = id → ¬ Archives c ∧ c.mergeInto = none)
    (hrun : candidates.foldlM (applyCandidate h host) batch = .ok batch') :
    openIn batch'.session.board id = openIn batch.session.board id := by
  induction candidates generalizing batch with
  | nil =>
    cases hrun
    rfl
  | cons c candidates ih =>
    rw [List.foldlM_cons] at hrun
    obtain ⟨next, hstep, hrest⟩ := bind_ok_iff.mp hrun
    obtain ⟨happlied, hothers⟩ := applyCandidate_applied (haimed c List.mem_cons_self) hstep
    have hnext : openIn next.session.board id = openIn batch.session.board id := by
      by_cases hid : c.taskId = id
      · obtain ⟨hkind, hnone⟩ := hspared c List.mem_cons_self hid
        cases happlied with
        | merged targetId into goes pair => exact absurd (hnone.symm.trans into) (by simp)
        | archived kind pair closed => exact absurd kind hkind
        | left kind none pair session => rw [session]
      · exact hothers id (Ne.symm hid)
    rw [ih (fun d hd => haimed d (List.mem_cons_of_mem c hd))
      (fun d hd => hspared d (List.mem_cons_of_mem c hd)) hrest, hnext]

theorem goesThrough_ne {b : Board} {c : TriageCandidate} {targetId : String}
    (hgoes : GoesThrough h host b c targetId) :
    targetId ≠ c.taskId ∧ openIn b targetId = true := by
  obtain ⟨source, target, plan, hsource, htarget, -, hopen, hplan⟩ := hgoes
  refine ⟨?_, by rw [openIn, htarget]; exact hopen⟩
  rintro rfl
  obtain rfl := Option.some.inj (hsource.symm.trans htarget)
  simp [planMerge, mergeInput] at hplan

/-- The targets of the merges of a batch are open at its end, exactly when no candidate archives
one of them later. -/
theorem batch_kept_iff (hproposed : Proposed tasks candidates) {s : Session}
    (hrun : candidates.foldlM (applyCandidate h host) { session := s } = .ok batch) :
    (∀ p ∈ batch.merged, openIn batch.session.board p.2 = true) ↔
      TargetsSpared h host candidates s := by
  constructor
  · rintro hall pre c post targetId mid rfl hinto hpre hgoes d hd rfl harchives
    obtain ⟨mid', next, hpre', hstep, hpost⟩ := foldlM_split hrun
    obtain rfl := Except.ok.inj (hpre.symm.trans hpre')
    have hmem : ∀ e ∈ post, e ∈ pre ++ c :: post := fun e he => by simp [he]
    have hpair : (c.taskId, d.taskId) ∈ next.merged := by
      obtain ⟨happlied, -⟩ := applyCandidate_applied (hproposed.aimed c (by simp)) hstep
      cases happlied with
      | merged targetId into goes pair =>
        obtain rfl := Option.some.inj (hinto.symm.trans into)
        simp [pair]
      | archived kind pair closed =>
        have hkind := (hproposed.aimed c (by simp)).mpr (hinto ▸ rfl)
        simp [Archives, hkind] at kind
      | left kind none pair session => exact absurd hgoes (none d.taskId hinto)
    have hlater := run_pairs (fun e he => hproposed.aimed e (hmem e he)) hpost hpair
    obtain ⟨pre', post', rfl⟩ := List.append_of_mem hd
    obtain ⟨before, after, -, hclose, hrest⟩ := foldlM_split hpost
    obtain ⟨happlied, -⟩ := applyCandidate_applied (hproposed.aimed d (hmem d hd)) hclose
    cases happlied with
    | merged targetId into goes pair =>
      have hnone := hproposed.kept c (by simp) d (hmem d hd) hinto
      exact absurd (hnone.symm.trans into) (by simp)
    | archived kind pair closed =>
      have hopen := run_closed hrest (hall _ hlater)
      exact absurd (closed.symm.trans hopen) (by simp)
    | left kind none pair session => exact kind harchives
  · intro hspared p hp
    rcases run_merged hproposed.aimed hrun hp with
      hnil | ⟨pre, c, post, mid, rfl, hpre, hinto, hgoes⟩
    · exact absurd hnil List.not_mem_nil
    obtain ⟨mid', next, hpre', hstep, hpost⟩ := foldlM_split hrun
    obtain rfl := Except.ok.inj (hpre.symm.trans hpre')
    have hmem : ∀ e ∈ post, e ∈ pre ++ c :: post := fun e he => by simp [he]
    obtain ⟨hne, hopen⟩ := goesThrough_ne hgoes
    have hkept : ∀ d ∈ post, d.taskId = p.2 → ¬ Archives d ∧ d.mergeInto = none := fun d hd hid =>
      ⟨hspared pre c post p.2 mid rfl hinto hpre hgoes d hd hid,
        hproposed.kept c (by simp) d (hmem d hd) (hid ▸ hinto)⟩
    rw [run_kept (fun e he => hproposed.aimed e (hmem e he)) hkept hpost]
    have hothers := (applyCandidate_applied (hproposed.aimed c (by simp)) hstep).2
    rw [hothers p.2 hne]
    exact hopen

/-- Every candidate is applied or left. -/
theorem run_succeeds (hids : ∀ c ∈ candidates, (batch.session.board.get c.taskId).isSome) :
    ∃ batch', candidates.foldlM (applyCandidate h host) batch = .ok batch' := by
  induction candidates generalizing batch with
  | nil => exact ⟨batch, rfl⟩
  | cons c candidates ih =>
    obtain ⟨next, hstep⟩ : ∃ next, applyCandidate h host batch c = .ok next := by
      unfold applyCandidate
      split
      · exact ⟨_, rfl⟩
      · exact ⟨_, rfl⟩
      · obtain ⟨session, hpatched⟩ := patchTask_succeeds _ (hids c List.mem_cons_self)
        exact ⟨_, by rw [hpatched]⟩
    have hwrites : Writes (fun _ => False) batch.session.board
        (reached (applyCandidate h host batch c)).session.board :=
      applyCandidate_writes h host batch c
    rw [hstep] at hwrites
    have hlater : ∀ d ∈ candidates, (next.session.board.get d.taskId).isSome := fun d hd =>
      get_isSome hwrites.ids (hids d (List.mem_cons_of_mem c hd))
    obtain ⟨batch', hrest⟩ := ih hlater
    exact ⟨batch', by rw [List.foldlM_cons, hstep]; exact hrest⟩

end Run

/-! ## The call -/

/-- A batch is carried out, and the tasks merged in it have their targets open at its end, exactly
when no candidate archives one of them later. -/
theorem merged_kept_iff {h : Handler} {host : CallHost} {raw : Dict Json} {args : TaskArgs}
    (s : Records) (hrequest : request h host raw = some (.triage, args))
    (happly : args.apply = some true) (hconfirm : args.confirm = some "TRIAGE") :
    ∃ s' ids pairs errors skipped,
      handleTool h host raw s = (s', .ok (.triaged ids pairs errors skipped)) ∧
        ((∀ p ∈ pairs, openIn s'.board p.2 = true) ↔ TargetsSpared h host
          (triage h.rt h.sim s.board.rows host.nowSec args.staleDays args.minGroup)
          ⟨s.board, 0⟩) := by
  rcases handleTool_cases h host raw s with ⟨hnone, -⟩ | ⟨action, args', hsome, hcall⟩
  · rw [hrequest] at hnone
    cases hnone
  rw [hrequest] at hsome
  cases hsome
  have hproposed : Proposed s.board.rows
      (triage h.rt h.sim s.board.rows host.nowSec args.staleDays args.minGroup) :=
    triage_proposed args.staleDays args.minGroup
  have haction : triageAction h host args ⟨s.board, 0⟩ = triageApply h host
      (triage h.rt h.sim s.board.rows host.nowSec args.staleDays args.minGroup) ⟨s.board, 0⟩ := by
    simp [triageAction, happly, hconfirm]
  revert hproposed haction
  generalize triage h.rt h.sim s.board.rows host.nowSec args.staleDays args.minGroup = candidates
  intro hproposed haction
  obtain ⟨batch, hrun⟩ : ∃ batch, candidates.foldlM (applyCandidate h host)
      { session := ⟨s.board, 0⟩ } = .ok batch := by
    refine run_succeeds fun c hc => ?_
    obtain ⟨row, hrow, hid⟩ := List.mem_map.mp (hproposed.onBoard c hc)
    rw [← hid, Board.get_of_mem hrow]
    rfl
  refine ⟨{ s with board := batch.session.board }, batch.applied, batch.merged, batch.errors,
    candidates.length - batch.applied.length, ?_, batch_kept_iff hproposed hrun⟩
  simp [hcall, manageTask, onBoard, haction, triageApply, hrun]

/-! ## A target that is given up -/

/-- Tasks are alike when they have one label. -/
def oneLabel : Similarity :=
  { unlike with
    allPairs := fun tasks _ => tasks.tails.flatMap fun
      | a :: later => (later.filter fun b => b.label = a.label).map fun b => ⟨a.id, b.id, 1⟩
      | [] => []
    scoreIndexed := fun _ _ _ => 1 }

def labelHandler : Handler := ⟨asciiRuntime, oneLabel, "/repo"⟩

def duplicateCall (label : String) : Dict Json :=
  createCall label ++ [("allowDuplicate", .bool true)]

def runningCall (taskId : String) : Dict Json :=
  [("action", .string "update"), ("taskId", .string taskId), ("status", .string "running")]

def triageCall : Dict Json :=
  [("action", .string "triage"), ("apply", .bool true), ("confirm", .string "TRIAGE")]

/-- Two tasks of one label; the older one is running. -/
def gatewayTwice : Records :=
  serve labelHandler (blank none []) [(callAt 1 "t1", createCall "publicar gateway"),
    (callAt 86401 "t2", duplicateCall "publicar gateway"), (callAt 432001 "", runningCall "t1")]

theorem triage_request : ∃ args,
    request labelHandler (callAt 864001 "") triageCall = some (.triage, args) ∧
      args.apply = some true ∧ args.confirm = some "TRIAGE" := by
  have hargs : (request labelHandler (callAt 864001 "") triageCall).map
      (fun r => (r.1, r.2.apply, r.2.confirm)) = some (.triage, some true, some "TRIAGE") := by
    decide +kernel
  obtain ⟨⟨action, args⟩, hrequest, hfields⟩ := Option.map_eq_some_iff.mp hargs
  simp only [Prod.mk.injEq] at hfields
  obtain ⟨rfl, happly, hconfirm⟩ := hfields
  exact ⟨args, hrequest, happly, hconfirm⟩

def pairsOf : Except Failure Reply → List (String × String)
  | .ok (.triaged _ pairs _ _) => pairs
  | _ => []

theorem pairsOf_mem {reply : Except Failure Reply} {p : String × String} (h : p ∈ pairsOf reply) :
    ∃ ids pairs errors skipped, reply = .ok (.triaged ids pairs errors skipped) ∧ p ∈ pairs := by
  unfold pairsOf at h
  split at h
  · exact ⟨_, _, _, _, rfl, h⟩
  · exact absurd h List.not_mem_nil

theorem merged_kept_iff_twice :
    ∃ args, request labelHandler (callAt 864001 "") triageCall = some (.triage, args) ∧
      args.apply = some true ∧ args.confirm = some "TRIAGE" ∧ ∃ s' ids pairs errors skipped,
        handleTool labelHandler (callAt 864001 "") triageCall gatewayTwice =
            (s', .ok (.triaged ids pairs errors skipped)) ∧
          ((∀ p ∈ pairs, openIn s'.board p.2 = true) ↔
            TargetsSpared labelHandler (callAt 864001 "")
              (triage labelHandler.rt labelHandler.sim gatewayTwice.board.rows
                (callAt 864001 "").nowSec args.staleDays args.minGroup)
              ⟨gatewayTwice.board, 0⟩) := by
  obtain ⟨args, hrequest, happly, hconfirm⟩ := triage_request
  exact ⟨args, hrequest, happly, hconfirm, merged_kept_iff gatewayTwice hrequest happly hconfirm⟩

/-- The younger task is merged into the running one, which the batch then gives up. -/
theorem target_given_up :
    ¬ ∀ (h : Handler) (host : CallHost) (raw : Dict Json) (args : TaskArgs) (s s' : Records)
      (ids : List String) (pairs errors : List (String × String)) (skipped : ℤ),
        request h host raw = some (.triage, args) → args.apply = some true →
          handleTool h host raw s = (s', .ok (.triaged ids pairs errors skipped)) →
            ∀ p ∈ pairs, openIn s'.board p.2 = true := by
  intro hall
  obtain ⟨args, hrequest, happly, -⟩ := triage_request
  obtain ⟨hmerged, hclosed⟩ :
      ("t2", "t1") ∈ pairsOf (handleTool labelHandler (callAt 864001 "") triageCall
        gatewayTwice).2 ∧
      openIn (handleTool labelHandler (callAt 864001 "") triageCall gatewayTwice).1.board "t1" =
        false := by
    decide +kernel
  obtain ⟨ids, pairs, errors, skipped, hreply, hmem⟩ := pairsOf_mem hmerged
  have hopen := hall _ _ _ args gatewayTwice _ ids pairs errors skipped hrequest happly
    (Prod.ext rfl hreply) ("t2", "t1") hmem
  exact absurd (hclosed.symm.trans hopen) (by simp)

end TriageBatch
end Batiste
