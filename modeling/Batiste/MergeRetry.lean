import Batiste.MergeRuns

/-! A merge that is interrupted at one of its writes and run again. -/
namespace Batiste
namespace ManageTask

open TaskActions TaskMerge
open TaskManager (Clocks Patch Call)

/-! ## Times -/

/-- A note, a record or a mark without its time. -/
def dropAt : Json → Json
  | .object fields => .object (Dict.erase fields "at")
  | value => value

/-- A field of the metadata without the times that a merge writes. -/
def untimedField (key : String) (value : Json) : Json :=
  match value with
  | .array items =>
    if key = "notes" ∨ key = "mergedFrom" then .array (items.map dropAt) else .array items
  | value => if key = "obsolete" then dropAt value else value

def untimedMeta (entries : Dict Json) : Dict Json :=
  entries.map fun e => (e.1, untimedField e.1 e.2)

/-- A task apart from the times. -/
def untimed (task : Task) : Task :=
  { task with
    updatedAt := none
    context := { task.context with metadata := task.context.metadata.map untimedMeta } }

/-- The tasks are the same on both boards, apart from the times. -/
def SameTasks (ids : List String) (b c : Board) : Prop :=
  ∀ id ∈ ids, (b.get id).map untimed = (c.get id).map untimed

theorem untimedMeta_set (entries : Dict Json) (key : String) (value : Json) :
    untimedMeta (entries.set key value) =
      (untimedMeta entries).set key (untimedField key value) := by
  have hany : (untimedMeta entries).any (fun e => e.1 == key) = entries.any fun e => e.1 == key := by
    rw [untimedMeta, List.any_map]
    rfl
  unfold Dict.set
  rw [hany]
  split
  · rw [untimedMeta, untimedMeta, List.map_map, List.map_map]
    refine List.map_congr_left fun e _ => ?_
    by_cases hkey : e.1 = key <;> simp [hkey]
  · simp [untimedMeta]

theorem untimedMeta_spread (entries patch : Dict Json) :
    untimedMeta (entries.spread patch) = (untimedMeta entries).spread (untimedMeta patch) := by
  induction patch generalizing entries with
  | nil => rfl
  | cons e patch ih =>
    show untimedMeta ((entries.set e.1 e.2).spread patch) = _
    rw [ih, untimedMeta_set]
    rfl

theorem untimedMeta_append (d e : Dict Json) :
    untimedMeta (d ++ e) = untimedMeta d ++ untimedMeta e := List.map_append

/-! ## Plans at two times -/

section Times

variable {numberText : ℚ → String} {inp inp' : MergeInput}

/-- The same merge at two times. -/
structure SamePlan (inp inp' : MergeInput) : Prop where
  source : inp'.source = inp.source
  target : inp'.target = inp.target
  reason : inp'.reason = inp.reason

theorem dropAt_note (text : String) (h : SamePlan inp inp') :
    dropAt (note inp' text) = dropAt (note inp text) := by
  simp [dropAt, note, Dict.erase, h.source]

theorem map_movedNotes (h : SamePlan inp inp') :
    (movedNotes numberText inp').map dropAt = (movedNotes numberText inp).map dropAt := by
  have hextra : (stateOf numberText inp').2 ++ (linksOf numberText inp').2 =
      (stateOf numberText inp).2 ++ (linksOf numberText inp).2 := by
    simp only [stateOf, linksOf, h.source, h.target]
  simp only [movedNotes, List.map_append, List.map_map, hextra, h.source]
  congr 1
  · refine List.map_congr_left fun n _ => ?_
    simp only [Function.comp_apply, movedNote, h.source]
    exact dropAt_note _ h
  · split
    · rfl
    · simp only [List.map_cons, List.map_nil]
      rw [dropAt_note _ h]

theorem dropAt_header (h : SamePlan inp inp') : dropAt (header inp') = dropAt (header inp) := by
  obtain ⟨source, target, children, all, reason, nowSec, nowIso⟩ := inp'
  obtain ⟨rfl, rfl, rfl⟩ := h
  exact dropAt_note _ ⟨rfl, rfl, rfl⟩

theorem dropAt_mergedRecord (h : SamePlan inp inp') :
    dropAt (mergedRecord inp') = dropAt (mergedRecord inp) := by
  simp [dropAt, mergedRecord, Dict.erase, givenReason, h.source, h.reason]

theorem idOf_mergedRecord (inp : MergeInput) :
    idOf (mergedRecord inp) = some (.string inp.source.id) := rfl

/-- Two lists of records that differ in their times only take up the same records. -/
theorem addRecords_untimed (records : List Json) {acc acc' : List Json}
    (hids : acc'.map idOf = acc.map idOf) (h : acc'.map dropAt = acc.map dropAt) :
    (records.foldl addRecord acc').map dropAt = (records.foldl addRecord acc).map dropAt := by
  induction records generalizing acc acc' with
  | nil => exact h
  | cons record records ih =>
    have hany : (acc'.any fun x => decide (idOf x = idOf record)) =
        acc.any fun x => decide (idOf x = idOf record) := by
      have hmap : ∀ xs : List Json, (xs.any fun x => decide (idOf x = idOf record)) =
          (xs.map idOf).any fun id => decide (id = idOf record) := by
        intro xs
        rw [List.any_map]
        rfl
      rw [hmap, hmap, hids]
    rw [List.foldl_cons, List.foldl_cons]
    refine ih ?_ ?_
    · unfold addRecord
      rw [hany]
      split
      · exact hids
      · rw [List.map_append, List.map_append, hids]
    · unfold addRecord
      rw [hany]
      split
      · exact h
      · rw [List.map_append, List.map_append, h]

theorem map_mergedFrom (h : SamePlan inp inp') :
    (mergedFrom inp').map dropAt = (mergedFrom inp).map dropAt := by
  simp only [mergedFrom, List.foldl_cons, h.source, h.target]
  have hany : ∀ i : MergeInput, i.source = inp.source →
      addRecord (itemsOf (metaAt inp.target "mergedFrom")) (mergedRecord i) =
        if (itemsOf (metaAt inp.target "mergedFrom")).any
            (fun x => decide (idOf x = some (.string inp.source.id)))
        then itemsOf (metaAt inp.target "mergedFrom")
        else itemsOf (metaAt inp.target "mergedFrom") ++ [mergedRecord i] := by
    intro i hi
    rw [addRecord, idOf_mergedRecord, hi]
  rw [hany inp' h.source, hany inp rfl]
  refine addRecords_untimed _ ?_ ?_
  · split
    · rfl
    · simp only [List.map_append, List.map_cons, List.map_nil, idOf_mergedRecord, h.source]
  · split
    · rfl
    · simp only [List.map_append, List.map_cons, List.map_nil, dropAt_mergedRecord h]

theorem untimed_targetPatch (h : SamePlan inp inp') :
    untimedMeta (targetPatch numberText inp') = untimedMeta (targetPatch numberText inp) := by
  have hstate : (stateOf numberText inp').1 = (stateOf numberText inp).1 := by
    simp only [stateOf, h.source, h.target]
  have hlinks : (linksOf numberText inp').1 = (linksOf numberText inp).1 := by
    simp only [linksOf, h.source, h.target]
  have hunion : ∀ key, unionAt inp' key = unionAt inp key := by
    intro key
    simp only [unionAt, h.source, h.target]
  simp only [targetPatch, untimedMeta_append, hstate, hlinks, hunion, h.source, h.target]
  congr 5
  simp only [untimedMeta, List.map_cons, List.map_nil, untimedField, List.map_append, List.map_cons,
    true_or, or_true, if_true, map_movedNotes h, dropAt_header h, map_mergedFrom h]

theorem untimed_sourcePatch (h : SamePlan inp inp') :
    untimedMeta (sourcePatch inp') = untimedMeta (sourcePatch inp) := by
  simp [sourcePatch, untimedMeta, untimedField, dropAt, Dict.erase, givenReason, h.target, h.reason]

end Times

/-! ## The walk up the parents of a board that is half merged -/

section Half

variable {host : CallHost} {plan : MergePlan} {source target : Task} {children : List String}
  {b c : Board}

/-- A merge of which the target is patched and some children are handed over. -/
structure HalfMerged (plan : MergePlan) (source target : Task) (children : List String)
    (b c : Board) : Prop where
  ne : source.id ≠ target.id
  getSource : b.get source.id = some source
  getTarget : b.get target.id = some target
  handed : ∀ row ∈ b.rows, row.id ∈ children → row.parentId = some source.id
  rows : c.rows.map timeless = (b.rows.map timeless).map (halfMerged plan target.id children)

theorem half_get (h : HalfMerged plan source target children b c) {id : String} {row : Task}
    (hrow : b.get id = some row) : ∃ row', c.get id = some row' ∧
      timeless row' = halfMerged plan target.id children (timeless row) := by
  have hget := get_changed (halfMerged_id plan target.id children) h.rows id
  rw [hrow, Option.map_some] at hget
  exact Option.map_eq_some_iff.mp hget

theorem half_none (h : HalfMerged plan source target children b c) {id : String}
    (hnone : b.get id = none) : c.get id = none := by
  have hget := get_changed (halfMerged_id plan target.id children) h.rows id
  rw [hnone, Option.map_none] at hget
  exact Option.map_eq_none_iff.mp hget

theorem halfMerged_parent {row : Task} (hrow : row.id ∉ children) :
    (halfMerged plan target.id children row).parentId = row.parentId := by
  simp only [halfMerged, if_neg hrow]
  split
  · exact patched_parent _ _
  · rfl

/-- The parents of the target are the same when the source is none of them. -/
theorem half_meets (h : HalfMerged plan source target children b c) (fuel : ℕ) (seen : List String)
    {row row' : Task} (hrow : b.get row.id = some row) (hrow' : c.get row.id = some row')
    (hmeets : meetsSource b.rows source.id fuel seen (some row) = false) :
    meetsSource c.rows source.id fuel seen (some row') = false := by
  induction fuel generalizing seen row row' with
  | zero => rfl
  | succ fuel ih =>
    obtain ⟨found, hfound, htimeless⟩ := half_get h hrow
    obtain rfl := Option.some.inj (hfound.symm.trans hrow')
    have hid : found.id = row.id := Board.get_id hfound
    rw [meetsSource] at hmeets ⊢
    rw [hid]
    split at hmeets
    · cases hmeets
    next hne =>
    rw [if_neg hne]
    split at hmeets
    · next hseen => rw [if_pos hseen]
    next hseen =>
    rw [if_neg hseen]
    have hmem : row ∈ b.rows := Board.get_mem hrow
    by_cases hchild : row.id ∈ children
    · have hparent := h.handed row hmem hchild
      have hfind : (b.rows.find? fun task => decide (task.id = source.id)) = some source := by
        rw [← h.getSource]
        rfl
      rw [hparent, Option.bind_some, hfind] at hmeets
      cases fuel with
      | zero => cases hparent' : found.parentId.bind _ <;> rfl
      | succ fuel =>
        rw [meetsSource, if_pos rfl] at hmeets
        cases hmeets
    · have hsame : found.parentId = row.parentId :=
        (congrArg Task.parentId htimeless).trans (halfMerged_parent hchild)
      rw [hsame]
      cases hparent : row.parentId with
      | none => cases fuel <;> rfl
      | some parentId =>
        rw [hparent, Option.bind_some] at hmeets
        rw [Option.bind_some]
        have hfind : ∀ board : Board, (board.rows.find? fun task => decide (task.id = parentId)) =
            board.get parentId := fun _ => rfl
        rw [hfind] at hmeets ⊢
        cases habove : b.get parentId with
        | none =>
          rw [half_none h habove]
          cases fuel <;> rfl
        | some above =>
          obtain ⟨above', habove', -⟩ := half_get h habove
          rw [habove] at hmeets
          rw [habove']
          have hid := Board.get_id habove
          exact ih _ (hid.symm ▸ habove) (hid.symm ▸ habove') hmeets

theorem half_target (h : HalfMerged plan source target children b c) :
    ∃ target', c.get target.id = some target' ∧ target'.status = target.status ∧
      metaOf target' = (metaOf target).spread plan.targetPatch := by
  obtain ⟨target', hget, htimeless⟩ := half_get h h.getTarget
  have hhalf : (halfMerged plan target.id children (timeless target)).status = target.status ∧
      metaOf (halfMerged plan target.id children (timeless target)) =
        (metaOf target).spread plan.targetPatch := by
    unfold halfMerged
    rw [if_pos (show (timeless target).id = target.id from rfl)]
    by_cases hmem : (timeless target).id ∈ children
    · simp only [if_pos hmem]
      exact ⟨rfl, rfl⟩
    · simp only [if_neg hmem]
      exact ⟨rfl, rfl⟩
  exact ⟨target', hget, (congrArg Task.status htimeless).trans hhalf.1,
    (congrArg metaOf htimeless).trans hhalf.2⟩

theorem half_source (h : HalfMerged plan source target children b c) :
    ∃ source', c.get source.id = some source' ∧ source'.status = source.status ∧
      metaOf source' = metaOf source := by
  obtain ⟨source', hget, htimeless⟩ := half_get h h.getSource
  have hhalf : (halfMerged plan target.id children (timeless source)).status = source.status ∧
      metaOf (halfMerged plan target.id children (timeless source)) = metaOf source := by
    unfold halfMerged
    rw [if_neg (show ¬ (timeless source).id = target.id from h.ne)]
    by_cases hmem : (timeless source).id ∈ children
    · simp only [if_pos hmem]
      exact ⟨rfl, rfl⟩
    · simp only [if_neg hmem]
      exact ⟨rfl, rfl⟩
  exact ⟨source', hget, (congrArg Task.status htimeless).trans hhalf.1,
    (congrArg metaOf htimeless).trans hhalf.2⟩

end Half

/-! ## Running a merge to the end -/

section Retry

variable {h : Handler} {host : CallHost} {args : TaskArgs} {s : Session}

/-- What a merge of two open tasks writes. -/
def newPlan (numberText : ℚ → String) (inp : MergeInput) : MergePlan where
  alreadyMerged := false
  targetPatch := targetPatch numberText inp
  sourcePatch := sourcePatch inp
  reparent := (inp.sourceChildren.filter fun child => child.id ≠ inp.target.id).map Task.id
  notesAppended := 1 + (movedNotes numberText inp).length

/-- Two tasks that can be merged. -/
structure Mergeable (all : List Task) (source target : Task) : Prop where
  ne : source.id ≠ target.id
  isNew : ¬ (isObsolete source = true ∧ metaAt source "mergedInto" = some (.string target.id))
  openSource : isOpen source = true
  openTarget : isOpen target = true
  meets : meetsSource all source.id (all.length + 1) [] (some target) = false

theorem not_closed_of_open {task : Task} (hopen : isOpen task = true) : isClosed task = false := by
  unfold isOpen at hopen
  unfold isClosed archived
  cases hstatus : task.status <;> simp_all

theorem planMerge_iff {numberText : ℚ → String} {inp : MergeInput} {plan : MergePlan} :
    (planMerge numberText inp = .ok plan ∧ plan.alreadyMerged = false) ↔
      Mergeable inp.all inp.source inp.target ∧ plan = newPlan numberText inp := by
  constructor
  · rintro ⟨hplan, hnew⟩
    obtain ⟨hne, hsource, htarget, hmeets, heq⟩ := planMerge_ok hplan hnew
    refine ⟨⟨hne, fun hmerged => ?_, hsource, htarget, hmeets⟩, heq⟩
    rw [planMerge] at hplan
    simp only [if_neg hne, if_pos hmerged] at hplan
    obtain rfl := Except.ok.inj hplan
    cases hnew
  · rintro ⟨hm, rfl⟩
    refine ⟨?_, rfl⟩
    rw [planMerge]
    simp only [if_neg hm.ne, if_neg hm.isNew, not_closed_of_open hm.openSource,
      not_closed_of_open hm.openTarget, hm.openSource, hm.openTarget, hm.meets]
    rfl

/-- A merge of two tasks that can be merged goes through. -/
theorem merge_succeeds {source target : Task}
    (hsource : s.board.get (args.sourceId.getD "") = some source)
    (htarget : s.board.get (args.targetId.getD "") = some target)
    (hm : Mergeable s.board.rows source target) :
    ∃ s' reply, merge h host args s = .ok (s', reply) ∧
      s'.board.rows.map timeless = (s.board.rows.map timeless).map
        (mergedRow (newPlan h.rt.numberText
          (mergeInput host source target args.reason s.board.rows)) source.id target.id) := by
  set plan := newPlan h.rt.numberText (mergeInput host source target args.reason s.board.rows)
    with hplan
  have hplanned : planMerge h.rt.numberText
      (mergeInput host source target args.reason s.board.rows) = .ok plan :=
    (planMerge_iff.mpr ⟨hm, hplan⟩).1
  have hsourceSome : (s.board.get source.id).isSome := by
    rw [Board.get_id hsource, hsource]
    rfl
  have htargetSome : (s.board.get target.id).isSome := by
    rw [Board.get_id htarget, htarget]
    rfl
  obtain ⟨s', hwrites⟩ := @mergeWrites_succeed host plan source.id target.id s (mergeWrites plan)
    hsourceSome htargetSome
  refine ⟨s', .merged source.id target.id plan.reparent plan.notesAppended, ?_,
    merge_timeless hwrites⟩
  have happly : applyMerge h host source target args.reason s =
      .ok (s', .merged source.id target.id plan.reparent plan.notesAppended) := by
    refine bind_ok_iff.mpr ⟨plan, mapError_ok_iff.mpr hplanned, ?_⟩
    have hnew : ¬ plan.alreadyMerged = true := by simp [hplan, newPlan]
    rw [if_neg hnew]
    exact bind_ok_iff.mpr ⟨s', mapError_ok_iff.mpr hwrites, rfl⟩
  simp only [merge, need, hsource, htarget]
  exact happly

end Retry

/-! ## Tasks apart from the times -/

theorem metaOf_untimed (task : Task) : metaOf (untimed task) = untimedMeta (metaOf task) := by
  unfold metaOf untimed
  cases task.context.metadata <;> rfl

/-- Times are left out before a patch as well as after it. -/
theorem untimed_patched (status : Option TaskStatus) (patch : Dict Json) (row : Task) :
    untimed (patched { status, metadata := some patch } row) =
      patched { status, metadata := some (untimedMeta patch) } (untimed row) := by
  have hspread : untimedMeta ((metaOf row).spread patch) =
      (metaOf (untimed row)).spread (untimedMeta patch) := by
    rw [untimedMeta_spread, metaOf_untimed]
  unfold metaOf at hspread
  simp only [untimed, patched, TaskManager.mergeMetadata, Option.map_some]
  rw [hspread]
  rfl

theorem untimed_mergedRow {plan plan' : MergePlan} (sourceId targetId : String) (row : Task)
    (htarget : untimedMeta plan.targetPatch = untimedMeta plan'.targetPatch)
    (hsource : untimedMeta plan.sourcePatch = untimedMeta plan'.sourcePatch)
    (hreparent : plan.reparent = plan'.reparent) :
    untimed (mergedRow plan sourceId targetId row) =
      untimed (mergedRow plan' sourceId targetId row) := by
  have habsorbed : untimed (if row.id = targetId then
      patched { metadata := some plan.targetPatch } row else row) =
      untimed (if row.id = targetId then
        patched { metadata := some plan'.targetPatch } row else row) := by
    split
    · rw [untimed_patched, untimed_patched, htarget]
    · rfl
  have hhalf : untimed (halfMerged plan targetId plan.reparent row) =
      untimed (halfMerged plan' targetId plan'.reparent row) := by
    unfold halfMerged
    rw [hreparent]
    by_cases hmem : row.id ∈ plan'.reparent
    · simp only [if_pos hmem]
      exact congrArg (fun task : Task => { task with parentId := readParent (some targetId) }) habsorbed
    · simp only [if_neg hmem]
      exact habsorbed
  unfold mergedRow
  simp only
  split
  · rw [untimed_patched, untimed_patched, hsource, hhalf]
  · exact hhalf

theorem get?_untimedMeta (entries : Dict Json) (key : String) :
    (untimedMeta entries).get? key = (entries.get? key).map (untimedField key) := by
  induction entries with
  | nil => rfl
  | cons e entries ih =>
    have hcons : untimedMeta (e :: entries) = (e.1, untimedField e.1 e.2) :: untimedMeta entries := rfl
    rw [hcons, Dict.get?_cons, Dict.get?_cons, ih]
    split
    · next hkey => rw [hkey]; rfl
    · rfl

/-- The number of notes is that of a task apart from the times. -/
theorem notes_untimed {task task' : Task} (h : untimed task = untimed task') :
    (itemsOf (metaAt task "notes")).length = (itemsOf (metaAt task' "notes")).length := by
  have hlength : ∀ value : Option Json,
      (itemsOf (value.map (untimedField "notes"))).length = (itemsOf value).length := by
    intro value
    cases value with
    | none => rfl
    | some value => cases value <;> simp [untimedField, itemsOf]
  have hmeta := congrArg metaOf h
  rw [metaOf_untimed, metaOf_untimed] at hmeta
  unfold metaAt
  rw [← hlength, ← get?_untimedMeta, hmeta, get?_untimedMeta, hlength]

/-! ## Retries -/

/-- The writes of a merge up to the one that fails, the `k`th. -/
def interruptedMerge (h : Handler) (host : CallHost) (args : TaskArgs) (k : ℕ) (s : Session) :
    Except Failure Session := do
  let source ← need s.board (args.sourceId.getD "")
  let target ← need s.board (args.targetId.getD "")
  let plan ← (planMerge h.rt.numberText
    (mergeInput host source target args.reason s.board.rows)).mapError .input
  (((mergeWrites plan).take k).foldlM (mergeWrite host plan source.id target.id) s).mapError .error

section Retry

variable {h : Handler} {host host' : CallHost} {args : TaskArgs} {s failed once retried : Session}
  {source target : Task}

theorem sameTasks_of_plans {b c d : Board} (plan plan' : MergePlan) (sourceId targetId : String)
    (htarget : untimedMeta plan.targetPatch = untimedMeta plan'.targetPatch)
    (hsource : untimedMeta plan.sourcePatch = untimedMeta plan'.sourcePatch)
    (hreparent : plan.reparent = plan'.reparent)
    (hc : c.rows.map timeless = (b.rows.map timeless).map (mergedRow plan sourceId targetId))
    (hd : d.rows.map timeless = (b.rows.map timeless).map (mergedRow plan' sourceId targetId))
    (ids : List String) : SameTasks ids c d := by
  intro id _
  have hdrop : ∀ row : Option Task, row.map untimed = (row.map timeless).map untimed := by
    intro row
    rw [Option.map_map]
    rfl
  rw [hdrop, hdrop (d.get id), get_changed (mergedRow_id plan sourceId targetId) hc,
    get_changed (mergedRow_id plan' sourceId targetId) hd, Option.map_map, Option.map_map]
  refine congrArg (fun f => (b.get id).map f) (funext fun row => ?_)
  exact untimed_mergedRow sourceId targetId (timeless row) htarget hsource hreparent

/-- The first writes of a merge leave it half done. -/
theorem half_of_take {plan : MergePlan} {k : ℕ} (hk : k < plan.reparent.length + 1)
    (hne : source.id ≠ target.id) (hsource : s.board.get source.id = some source)
    (htarget : s.board.get target.id = some target)
    (hplan : plan.reparent = ((s.board.rows.filter fun task => task.parentId = some source.id).filter
      fun child => child.id ≠ target.id).map Task.id)
    (hwrites : ((mergeWrites plan).take (k + 1)).foldlM
      (mergeWrite host plan source.id target.id) s = .ok failed) :
    HalfMerged plan source target (plan.reparent.take k) s.board failed.board := by
  refine ⟨hne, hsource, htarget, fun row hrow hmem => ?_, ?_⟩
  · have hreparent := List.mem_of_mem_take hmem
    rw [hplan] at hreparent
    simp only [List.mem_map, List.mem_filter, decide_eq_true_eq] at hreparent
    obtain ⟨child, ⟨⟨hchild, hparent⟩, -⟩, hid⟩ := hreparent
    rwa [← List.inj_on_of_nodup_map s.board.nodup hchild hrow hid]
  · have htake : (mergeWrites plan).take (k + 1) =
        MergeWrite.patchTarget :: (plan.reparent.take k).map MergeWrite.reparent := by
      have hwhole : mergeWrites plan =
          MergeWrite.patchTarget :: (plan.reparent.map MergeWrite.reparent ++ [.patchSource]) := rfl
      rw [hwhole, List.take_succ_cons, List.take_append_of_le_length (by simpa using by omega),
        List.map_take]
    rw [htake] at hwrites
    rw [mergeWrites_timeless hwrites]
    exact List.map_congr_left fun row _ => half_fold plan source.id target.id _ row

/-- What is merged half can be merged again. -/
theorem mergeable_again {plan : MergePlan} {children : List String} {source' target' : Task}
    (hm : Mergeable s.board.rows source target)
    (hhalf : HalfMerged plan source target children s.board failed.board)
    (hsource' : failed.board.get source.id = some source') (hsourceStatus : source'.status = source.status)
    (hsourceMeta : metaOf source' = metaOf source)
    (htarget' : failed.board.get target.id = some target')
    (htargetStatus : target'.status = target.status) :
    Mergeable failed.board.rows source' target' := by
  have hsourceId := Board.get_id hsource'
  have htargetId := Board.get_id htarget'
  have hlength : failed.board.rows.length = s.board.rows.length := by
    have hlengths := congrArg List.length hhalf.rows
    simpa using hlengths
  refine ⟨?_, ?_, ?_, ?_, ?_⟩
  · rw [hsourceId, htargetId]
    exact hm.ne
  · rw [isObsolete, metaAt, hsourceMeta, htargetId]
    exact hm.isNew
  · rw [isOpen, hsourceStatus]
    exact hm.openSource
  · rw [isOpen, htargetStatus]
    exact hm.openTarget
  · rw [hsourceId, hlength]
    exact half_meets hhalf _ _ hhalf.getTarget htarget' hm.meets

/-- The target of a merge has its notes, the header and what is moved after it. -/
theorem merged_noteCount {b c : Board} {inp : MergeInput} {numberText : ℚ → String}
    (hne : inp.source.id ≠ inp.target.id) (htarget : b.get inp.target.id = some inp.target)
    (hc : c.rows.map timeless = (b.rows.map timeless).map
      (mergedRow (newPlan numberText inp) inp.source.id inp.target.id)) :
    ∃ merged, c.get inp.target.id = some merged ∧
      (itemsOf (metaAt merged "notes")).length =
        (itemsOf (metaAt inp.target "notes")).length + 1 + (movedNotes numberText inp).length := by
  have hget := get_changed (mergedRow_id (newPlan numberText inp) inp.source.id inp.target.id) hc
    inp.target.id
  rw [htarget, Option.map_some] at hget
  obtain ⟨merged, hmerged, htimeless⟩ := Option.map_eq_some_iff.mp hget
  have hmeta : metaOf merged = (metaOf inp.target).spread (targetPatch numberText inp) := by
    refine (congrArg metaOf htimeless).trans ?_
    rw [mergedRow_meta _ hne, if_neg (show ¬ (timeless inp.target).id = inp.source.id from hne.symm),
      if_pos (show (timeless inp.target).id = inp.target.id from rfl)]
    rfl
  refine ⟨merged, hmerged, ?_⟩
  rw [merged_notes hmeta, List.length_append, List.length_cons]
  omega

/-- The merge is run again after its target was patched: its notes are appended twice. -/
theorem notes_twice {children : List String} {plan : MergePlan} {inp : MergeInput}
    (hplan : plan = newPlan h.rt.numberText inp) (hinp : inp.source = source ∧ inp.target = target)
    (hm : Mergeable s.board.rows source target)
    (hhalf : HalfMerged plan source target children s.board failed.board)
    (hargs : args.sourceId.getD "" = source.id ∧ args.targetId.getD "" = target.id)
    (honce : once.board.rows.map timeless =
      (s.board.rows.map timeless).map (mergedRow plan source.id target.id)) :
    ∃ retried reply, merge h host' args failed = .ok (retried, reply) ∧
      ∀ ids, target.id ∈ ids → ¬ SameTasks ids once.board retried.board := by
  obtain ⟨source', hsource', hsourceStatus, hsourceMeta⟩ := half_source hhalf
  obtain ⟨target', htarget', htargetStatus, htargetMeta⟩ := half_target hhalf
  have hagain := mergeable_again hm hhalf hsource' hsourceStatus hsourceMeta htarget' htargetStatus
  obtain ⟨retried, reply, hretry, hrows⟩ := @merge_succeeds h host' args failed source' target'
    (by rw [hargs.1, hsource']) (by rw [hargs.2, htarget']) hagain
  refine ⟨retried, reply, hretry, fun ids hids hsame => ?_⟩
  obtain ⟨rfl, rfl⟩ := hinp
  subst hplan
  obtain ⟨merged, hmerged, hcount⟩ := merged_noteCount hm.ne hhalf.getTarget honce
  have htargetId := Board.get_id htarget'
  have hself : failed.board.get target'.id = some target' := by rw [htargetId, htarget']
  obtain ⟨merged', hmerged', hcount'⟩ := @merged_noteCount _ _
    (mergeInput host' source' target' args.reason failed.board.rows) _ hagain.ne hself hrows
  have hhalfNotes := merged_notes htargetMeta
  have htasks := hsame inp.target.id hids
  have hmergedId : retried.board.get inp.target.id = some merged' := htargetId ▸ hmerged'
  rw [hmerged, hmergedId] at htasks
  have hnotes := notes_untimed (Option.some.inj htasks)
  have hlength := congrArg List.length hhalfNotes
  rw [List.length_append, List.length_cons] at hlength
  rw [hcount, hcount'] at hnotes
  change _ = (itemsOf (metaAt target' "notes")).length + 1 + _ at hnotes
  omega

end Retry

/-- A merge that goes through, interrupted at any of its writes and run again to the end, leaves the
source, the target and the children as one run does, apart from the times, exactly when the write
that failed was the first. -/
theorem retry_iff (h : Handler) (host host' : CallHost) (args : TaskArgs) (s once : Session)
    (sourceId targetId : String) (reparented : List String) (notesAppended : ℕ)
    (honce : merge h host args s =
      .ok (once, .merged sourceId targetId reparented notesAppended))
    (k : ℕ) (hk : k < reparented.length + 2) :
    ∃ failed retried reply, interruptedMerge h host args k s = .ok failed ∧
      merge h host' args failed = .ok (retried, reply) ∧
      (SameTasks (sourceId :: targetId :: reparented) once.board retried.board ↔ k = 0) := by
  obtain ⟨source, hneedSource, hmerge⟩ := bind_ok_iff.mp honce
  obtain ⟨target, hneedTarget, hmerge⟩ := bind_ok_iff.mp hmerge
  have hsource := need_ok hneedSource
  have htarget := need_ok hneedTarget
  have hsourceId := Board.get_id hsource
  have htargetId := Board.get_id htarget
  rcases applyMerge_cases hmerge with ⟨-, hreply⟩ | ⟨plan, hplanned, hnew, hwrites, hreply⟩
  · cases hreply
  cases hreply
  obtain ⟨hm, hplan⟩ := planMerge_iff.mp ⟨hplanned, hnew⟩
  have hne : source.id ≠ target.id := hm.ne
  have hrows := merge_timeless hwrites
  have hinterrupted : ∀ failed, ((mergeWrites plan).take k).foldlM
      (mergeWrite host plan source.id target.id) s = .ok failed →
      interruptedMerge h host args k s = .ok failed := by
    intro failed hfailed
    refine bind_ok_iff.mpr ⟨source, hneedSource, bind_ok_iff.mpr ⟨target, hneedTarget, ?_⟩⟩
    exact bind_ok_iff.mpr ⟨plan, mapError_ok_iff.mpr hplanned, mapError_ok_iff.mpr hfailed⟩
  cases k with
  | zero =>
    obtain ⟨retried, reply, hretry, hretried⟩ := @merge_succeeds h host' args s source target
      hsource htarget hm
    have hsame : SamePlan (mergeInput host source target args.reason s.board.rows)
        (mergeInput host' source target args.reason s.board.rows) := ⟨rfl, rfl, rfl⟩
    refine ⟨s, retried, reply, hinterrupted s rfl, hretry, iff_of_true ?_ rfl⟩
    subst hplan
    exact sameTasks_of_plans
      (newPlan h.rt.numberText (mergeInput host source target args.reason s.board.rows))
      (newPlan h.rt.numberText (mergeInput host' source target args.reason s.board.rows))
      source.id target.id (untimed_targetPatch hsame).symm
      (untimed_sourcePatch hsame).symm rfl hrows hretried _
  | succ k =>
    have hsourceSome : (s.board.get source.id).isSome := by
      rw [hsourceId, hsource]
      rfl
    have htargetSome : (s.board.get target.id).isSome := by
      rw [htargetId, htarget]
      rfl
    obtain ⟨failed, hfailed⟩ := @mergeWrites_succeed host plan source.id target.id s
      ((mergeWrites plan).take (k + 1)) hsourceSome htargetSome
    have hhalf := half_of_take (by omega) hne (by rw [hsourceId, hsource])
      (by rw [htargetId, htarget]) (by rw [hplan]; rfl) hfailed
    obtain ⟨retried, reply, hretry, hdiffer⟩ := @notes_twice h host' args s failed once
      source target _ plan _ hplan ⟨rfl, rfl⟩ hm hhalf ⟨hsourceId.symm, htargetId.symm⟩ hrows
    exact ⟨failed, retried, reply, hinterrupted failed hfailed, hretry,
      iff_of_false (hdiffer _ (by simp)) (by simp)⟩

/-! ## Two tasks -/

/-- A board with two open tasks. -/
def pairBoard : Session :=
  ⟨(serve plainHandler (blank none [])
    [(callAt 1 "a", createCall "deploy"), (callAt 2 "b", createCall "publish")]).board, 0⟩

def mergeBIntoA : TaskArgs := { sourceId := some "b", targetId := some "a" }

/-- The notes of a task after a merge. -/
def noteCount (result : Except Failure (Session × Reply)) (taskId : String) : Option ℕ :=
  match result with
  | .ok (s, _) => (s.board.get taskId).map fun task => (itemsOf (metaAt task "notes")).length
  | .error _ => none

theorem noteCount_eq {result : Except Failure (Session × Reply)} {taskId : String} {n : ℕ}
    (h : noteCount result taskId = some n) : ∃ s reply task, result = .ok (s, reply) ∧
      s.board.get taskId = some task ∧ (itemsOf (metaAt task "notes")).length = n := by
  unfold noteCount at h
  split at h
  · next s reply =>
    obtain ⟨task, htask, hlength⟩ := Option.map_eq_some_iff.mp h
    exact ⟨s, reply, task, rfl, htask, hlength⟩
  · cases h

/-- The first write fails. -/
theorem retry_iff_first : ∃ once failed retried reply reply',
    merge plainHandler (callAt 3 "c") mergeBIntoA pairBoard = .ok (once, reply) ∧
    interruptedMerge plainHandler (callAt 3 "c") mergeBIntoA 0 pairBoard = .ok failed ∧
    merge plainHandler (callAt 4 "d") mergeBIntoA failed = .ok (retried, reply') ∧
    SameTasks ["b", "a"] once.board retried.board := by
  have hreply : mergedPair ((merge plainHandler (callAt 3 "c") mergeBIntoA pairBoard).map Prod.snd) =
      some ("b", "a", [], 1) := by decide +kernel
  obtain ⟨⟨once, reply⟩, honce, hmerged⟩ := map_ok_iff.mp (reply_of_mergedPair hreply)
  obtain rfl : reply = .merged "b" "a" [] 1 := hmerged
  obtain ⟨failed, retried, reply', hfailed, hretried, hiff⟩ := retry_iff plainHandler (callAt 3 "c")
    (callAt 4 "d") mergeBIntoA pairBoard once "b" "a" [] 1 honce 0 (by decide)
  exact ⟨once, failed, retried, _, reply', honce, hfailed, hretried, hiff.mpr rfl⟩

/-- The second write fails: the source is not archived, and the retry appends the note again. -/
theorem retry_appends_twice : ¬ ∀ (once failed retried : Session) (reply reply' : Reply),
    merge plainHandler (callAt 3 "c") mergeBIntoA pairBoard = .ok (once, reply) →
    interruptedMerge plainHandler (callAt 3 "c") mergeBIntoA 1 pairBoard = .ok failed →
    merge plainHandler (callAt 4 "d") mergeBIntoA failed = .ok (retried, reply') →
    SameTasks ["b", "a"] once.board retried.board := by
  intro hclaim
  obtain ⟨once, reply, task, honce, htask, hcount⟩ := noteCount_eq
    (show noteCount (merge plainHandler (callAt 3 "c") mergeBIntoA pairBoard) "a" = some 1 by
      decide +kernel)
  have htwice : noteCount ((interruptedMerge plainHandler (callAt 3 "c") mergeBIntoA 1 pairBoard).bind
      (merge plainHandler (callAt 4 "d") mergeBIntoA)) "a" = some 2 := by decide +kernel
  obtain ⟨retried, reply', task', hretry, htask', hcount'⟩ := noteCount_eq htwice
  obtain ⟨failed, hfailed, hretried⟩ := bind_ok_iff.mp hretry
  have hsame := hclaim once failed retried reply reply' honce hfailed hretried "a" (by simp)
  rw [htask, htask'] at hsame
  have hnotes := notes_untimed (Option.some.inj hsame)
  omega

end ManageTask
end Batiste
