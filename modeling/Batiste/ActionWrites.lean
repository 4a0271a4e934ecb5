import Batiste.TaskWrites

/-! What each action of `manage_task` writes, as a relation between the boards before and after. -/
namespace Batiste
namespace ManageTask

open TaskActions TaskMerge
open TaskManager (Clocks Patch Call)
open TaskReconciler (Records)

/-! ## Metadata -/

theorem field_keys (key : String) (value : Option Json) :
    ((field key value).map Prod.fst).Sublist [key] := by
  cases value <;> simp [field]

section Actions

variable {h : Handler} {host : CallHost} {args : TaskArgs} {s s' : Session} {reply : Reply}

def structuredKeys : List String := ["state", "links", "phase", "progressAt", "tags", "notes"]

theorem structured_keys (h : Handler) (host : CallHost) (args : TaskArgs) (old : Dict Json) :
    ((structured h host args old).map Prod.fst).Sublist structuredKeys := by
  simp only [structured, List.map_append]
  exact (((((field_keys _ _).append (field_keys _ _)).append (field_keys _ _)).append
    (field_keys _ _)).append (field_keys _ _)).append (field_keys _ _)

theorem structured_nodup (h : Handler) (host : CallHost) (args : TaskArgs) (old : Dict Json) :
    ((structured h host args old).map Prod.fst).Nodup :=
  List.Nodup.sublist (structured_keys h host args old) (by decide)

theorem plain_structured (h : Handler) (host : CallHost) (args : TaskArgs) (old : Dict Json) :
    Plain (structured h host args old) := by
  intro key hkey
  have hall : ∀ key ∈ structuredKeys, key ∉ watched := by decide
  exact hall key ((structured_keys h host args old).subset hkey)

theorem plain_pair {key : String} (value : Json) (hkey : key ∉ watched) :
    Plain [(key, value)] := plain_field (some value) hkey

theorem mem_of_nonempty {entries entries' : Dict Json} (hentries : nonempty entries = some entries') :
    entries' = entries := by
  unfold nonempty at hentries
  split at hentries
  · cases hentries
  · exact (Option.some.inj hentries).symm

theorem need_ok {b : Board} {taskId : String} {task : Task} (hneed : need b taskId = .ok task) :
    b.get taskId = some task := by
  unfold need at hneed
  split at hneed
  · next htask => rw [htask, Except.ok.inj hneed]
  · cases hneed

/-! ## Update and close -/

/-- A task is completed with a proof. -/
theorem closedMeta_ok {before : Task} {status : TaskStatus} {closed : Dict Json}
    (hclosed : closedMeta host args before status = .ok closed) :
    (status = .completed ∧ ∃ fields proof, closed = [("closed", .object fields)] ∧
        Dict.get? fields "proof" = some (.string proof) ∧ proof ≠ "") ∨
      status ≠ .completed ∧ closed = [] := by
  unfold closedMeta at hclosed
  split at hclosed
  · next hcompleted =>
    split at hclosed
    · cases hclosed
    · next proof hproof =>
      obtain rfl := Except.ok.inj hclosed
      refine .inl ⟨hcompleted, _, proof, rfl, rfl, ?_⟩
      simpa using (Option.filter_eq_some_iff.mp hproof).2
  · next hne => exact .inr ⟨hne, (Except.ok.inj hclosed).symm⟩

theorem reopened_keys (host : CallHost) (args : TaskArgs) (before : Task) :
    ((reopenedMeta host args before).map Prod.fst).Sublist ["reopened", "obsolete"] := by
  unfold reopenedMeta
  split
  · rw [List.map_append]
    exact (field_keys _ _).append (field_keys _ _)
  · simp

theorem statusMeta_ok {before : Task} {status : TaskStatus} {entries : Dict Json}
    (hmeta : statusMeta host args before status = .ok entries) :
    ∃ closed, closedMeta host args before status = .ok closed ∧
      entries = field "progressAt" (some (seconds host)) ++ closed ++
        reopenedMeta host args before := by
  obtain ⟨-, -, hmeta⟩ := bind_ok_iff.mp hmeta
  obtain ⟨closed, hclosed, hmeta⟩ := bind_ok_iff.mp hmeta
  exact ⟨closed, hclosed, (Except.ok.inj hmeta).symm⟩

/-- The fields that a change of the status writes, and the evidence of a completed task. -/
theorem statusMeta_fields {before : Task} {status : TaskStatus} {entries : Dict Json}
    (hmeta : statusMeta host args before status = .ok entries) :
    (entries.map Prod.fst).Sublist ["progressAt", "closed", "reopened", "obsolete"] ∧
      (status = .completed → ∃ fields proof, entries.get? "closed" = some (.object fields) ∧
        Dict.get? fields "proof" = some (.string proof) ∧ proof ≠ "") := by
  obtain ⟨closed, hclosed, rfl⟩ := statusMeta_ok hmeta
  have hreopened := reopened_keys host args before
  rcases closedMeta_ok hclosed with ⟨-, fields, proof, rfl, hproof⟩ | ⟨hopen, rfl⟩
  · refine ⟨?_, fun _ => ⟨fields, proof, rfl, hproof⟩⟩
    rw [List.map_append]
    exact List.Sublist.append (List.Sublist.refl ["progressAt", "closed"]) hreopened
  · refine ⟨?_, fun hcompleted => absurd hcompleted hopen⟩
    rw [List.append_nil, List.map_append]
    exact (List.Sublist.append (List.Sublist.refl ["progressAt"]) hreopened).trans (by decide)

/-- The patch of an update leaves the key alone, and completes a task with evidence only. -/
theorem updateMeta_ok {before : Task} {entries : Dict Json}
    (hmeta : updateMeta h host args before = .ok entries) :
    "dedupeKey" ∉ entries.map Prod.fst ∧
      (Proven before → args.status.getD before.status = .completed →
        Evidence ((metaOf before).spread entries)) := by
  have hcommon := plain_structured h host args (metaOf before)
  have hkey := fun hmem => hcommon "dedupeKey" hmem (by decide)
  have hkept : args.status.getD before.status = before.status → Proven before →
      args.status.getD before.status = .completed →
        Evidence ((metaOf before).spread (structured h host args (metaOf before))) := by
    intro hsame hold hcompleted
    exact (hold (hsame ▸ hcompleted)).spread (fun hmem => hcommon _ hmem (by decide))
      fun hmem => hcommon _ hmem (by decide)
  unfold updateMeta at hmeta
  split at hmeta
  case h_1 status hstatus =>
    split at hmeta
    · obtain ⟨changed, hchanged, rfl⟩ := map_ok_iff.mp hmeta
      obtain ⟨hkeys, hevidence⟩ := statusMeta_fields hchanged
      refine ⟨fun hmem => ?_, fun _ hcompleted => ?_⟩
      · rcases Dict.mem_keys_spread.mp hmem with hmem | hmem
        · exact hkey hmem
        · exact absurd (hkeys.subset hmem) (by decide)
      · obtain ⟨fields, proof, hclosed, hproof, hne⟩ := hevidence (by simpa [hstatus] using hcompleted)
        refine evidence_of_closed
          (Dict.nodup_spread (structured_nodup h host args (metaOf before)) _) ?_ hproof hne
        rw [Dict.get?_spread_of_nodup _ (List.Nodup.sublist hkeys (by decide)), hclosed,
          Option.some_or]
    · next hsame =>
      obtain rfl := Except.ok.inj hmeta
      exact ⟨hkey, hkept (by simpa [hstatus] using hsame)⟩
  case h_2 hstatus =>
    obtain rfl := Except.ok.inj hmeta
    exact ⟨hkey, hkept (by rw [hstatus]; rfl)⟩

theorem nonempty_spread (d entries : Dict Json) :
    (((nonempty entries).map d.spread)).getD d = d.spread entries := by
  unfold nonempty
  split
  · next hnil => rw [hnil]; rfl
  · rfl

/-- An update opens a closed task only when it is given such a status. -/
def Reopens (args : TaskArgs) (taskId : String) : Prop :=
  args.taskId.getD "" = taskId ∧ (args.status = some .pending ∨ args.status = some .running)

theorem savePatch_writes {before : Task} {entries : Dict Json}
    (hsave : savePatch host args before.id entries s = .ok s')
    (hbefore : s.board.get (args.taskId.getD "") = some before)
    (hmeta : updateMeta h host args before = .ok entries) :
    Writes (Reopens args) s.board s'.board := by
  unfold savePatch at hsave
  split at hsave
  · refine perform_writes hsave fun task htask => ?_
    have hid := Board.get_id hbefore
    rw [hid, hbefore] at htask
    obtain rfl := Option.some.inj htask
    obtain ⟨hkey, hevidence⟩ := updateMeta_ok hmeta
    refine patch_rewritten _ (fun entries' hentries => ?_) (fun hold hcompleted => ?_) fun hopen => ?_
    · rwa [mem_of_nonempty hentries]
    · rw [nonempty_spread]
      exact hevidence hold hcompleted
    · cases hstatus : args.status with
      | none => exact .inl (by simpa [isOpen, hstatus] using hopen)
      | some status => exact .inr ⟨hid.symm, by simpa [hstatus] using hopen⟩
  · obtain rfl := Except.ok.inj hsave
    exact .refl

theorem saveOutput_writes {taskId : String} {reopens : String → Prop}
    (hsave : saveOutput host args taskId s = .ok s') : Writes reopens s.board s'.board := by
  unfold saveOutput at hsave
  split at hsave
  · exact perform_writes hsave fun task _ => ⟨rfl, rfl, fun hold => hold, .inl⟩
  · obtain rfl := Except.ok.inj hsave
    exact .refl

theorem update_writes (hupdate : update h host args s = .ok (s', reply)) :
    Writes (Reopens args) s.board s'.board := by
  obtain ⟨before, hbefore, hupdate⟩ := bind_ok_iff.mp hupdate
  obtain ⟨entries, hentries, hupdate⟩ := bind_ok_iff.mp hupdate
  obtain ⟨patched, hpatched, hupdate⟩ := bind_ok_iff.mp hupdate
  obtain ⟨cached, hcached, hupdate⟩ := bind_ok_iff.mp hupdate
  cases hupdate
  exact (savePatch_writes (mapError_ok_iff.mp hpatched) (need_ok hbefore) hentries).trans
    (saveOutput_writes (mapError_ok_iff.mp hcached))

variable {reopens : String → Prop}

theorem close_writes (hclose : close h host args s = .ok (s', reply))
    (hproof : args.proof.getD "" ≠ "") : Writes reopens s.board s'.board := by
  obtain ⟨before, hbefore, hclose⟩ := bind_ok_iff.mp hclose
  split at hclose
  · cases hclose
    exact .refl
  · next hopen =>
    obtain ⟨-, -, hclose⟩ := bind_ok_iff.mp hclose
    obtain ⟨patched, hpatched, hclose⟩ := bind_ok_iff.mp hclose
    cases hclose
    refine perform_writes (mapError_ok_iff.mp hpatched) fun task htask => ?_
    have hcommon := plain_structured h host args (metaOf before)
    refine patch_rewritten _ ?_ (fun _ _ => ?_) (by simp)
    · rintro _ ⟨⟩ hmem
      rcases Dict.mem_keys_spread.mp hmem with hmem | hmem
      · exact hcommon _ hmem (by decide)
      · simp at hmem
    · have hfields : Dict.get? [("proof", Json.string (args.proof.getD "")), ("at", seconds host)]
          "proof" = some (.string (args.proof.getD "")) := rfl
      refine evidence_of_closed
        (Dict.nodup_spread (structured_nodup h host args (metaOf before)) _) ?_ hfields hproof
      rw [Dict.get?_spread_of_nodup _ (by simp)]
      rfl

theorem archive_writes (harchive : archive h host args s = .ok (s', reply)) :
    Writes reopens s.board s'.board := by
  obtain ⟨before, hbefore, harchive⟩ := bind_ok_iff.mp harchive
  split at harchive
  · cases harchive
  · obtain ⟨patched, hpatched, harchive⟩ := bind_ok_iff.mp harchive
    cases harchive
    refine patchTask_plain (mapError_ok_iff.mp hpatched) ?_ (.inr rfl)
    rintro _ ⟨⟩
    exact plain_append.mpr ⟨plain_structured _ _ _ _, plain_pair _ (by decide)⟩

theorem renew_writes (hrenew : renew h host args s = .ok (s', reply)) :
    Writes reopens s.board s'.board := by
  obtain ⟨before, hbefore, hrenew⟩ := bind_ok_iff.mp hrenew
  split at hrenew
  · cases hrenew
  · obtain ⟨patched, hpatched, hrenew⟩ := bind_ok_iff.mp hrenew
    cases hrenew
    refine patchTask_plain (mapError_ok_iff.mp hpatched) ?_ (.inl rfl)
    rintro _ ⟨⟩
    exact plain_append.mpr ⟨plain_structured _ _ _ _, plain_pair _ (by decide)⟩

/-! ## Merge and triage -/

theorem plain_unlessEmpty {α : Type} [DecidableEq α] {key : String} {value : List α → Json}
    (xs : List α) (hkey : key ∉ watched) : Plain (unlessEmpty key value xs) := by
  unfold unlessEmpty
  split
  · simp [Plain]
  · exact plain_pair _ hkey

theorem plain_targetPatch (numberText : ℚ → String) (inp : MergeInput) :
    Plain (targetPatch numberText inp) := by
  unfold targetPatch
  simp only [plain_append]
  refine ⟨⟨⟨⟨⟨?_, plain_unlessEmpty _ (by decide)⟩, plain_unlessEmpty _ (by decide)⟩,
    plain_unlessEmpty _ (by decide)⟩, plain_unlessEmpty _ (by decide)⟩, plain_field _ (by decide)⟩
  have hall : ∀ key ∈ ["notes", "mergedFrom"], key ∉ watched := by decide
  exact fun key hkey => hall key (by simpa using hkey)

theorem plain_sourcePatch (inp : MergeInput) : Plain (sourcePatch inp) := by
  unfold sourcePatch
  rw [plain_append]
  have hall : ∀ key ∈ ["obsolete", "mergedInto"], key ∉ watched := by decide
  exact ⟨fun key hkey => hall key (by simpa using hkey), plain_field _ (by decide)⟩

/-- A plan that is carried out. -/
theorem planMerge_ok {numberText : ℚ → String} {inp : MergeInput} {plan : MergePlan}
    (hplan : planMerge numberText inp = .ok plan) (hnew : plan.alreadyMerged = false) :
    inp.source.id ≠ inp.target.id ∧ isOpen inp.source = true ∧ isOpen inp.target = true ∧
      meetsSource inp.all inp.source.id (inp.all.length + 1) [] (some inp.target) = false ∧
      plan = {
        alreadyMerged := false
        targetPatch := targetPatch numberText inp
        sourcePatch := sourcePatch inp
        reparent := (inp.sourceChildren.filter fun child => child.id ≠ inp.target.id).map Task.id
        notesAppended := 1 + (movedNotes numberText inp).length } := by
  unfold planMerge at hplan
  simp only at hplan
  split at hplan
  · cases hplan
  next hids =>
  split at hplan
  · obtain rfl := Except.ok.inj hplan
    cases hnew
  split at hplan
  · cases hplan
  split at hplan
  · cases hplan
  split at hplan
  · cases hplan
  next hopen =>
  split at hplan
  · cases hplan
  next hmeets =>
  obtain rfl := Except.ok.inj hplan
  simp only [Bool.or_eq_true, Bool.not_eq_true', not_or, Bool.not_eq_false] at hopen
  exact ⟨hids, hopen.1, hopen.2, by simpa using hmeets, rfl⟩

theorem mergeWrite_writes {plan : MergePlan} (htarget : Plain plan.targetPatch)
    (hsource : Plain plan.sourcePatch) {sourceId targetId : String} {write : MergeWrite}
    (hwrite : mergeWrite host plan sourceId targetId s write = .ok s') :
    Writes reopens s.board s'.board := by
  cases write with
  | patchTarget => exact patchTask_plain hwrite (by rintro _ ⟨⟩; exact htarget) (.inl rfl)
  | reparent child =>
    simp only [mergeWrite] at hwrite
    split at hwrite
    · cases hwrite
      exact .refl
    · next task htask =>
      cases hwrite
      have hrow : Rewritten (reopens task.id) task { task with parentId := some targetId } :=
        ⟨rfl, rfl, fun hold => hold, .inl⟩
      exact .save (by rw [Board.get_id htask, htask]) hrow _
  | patchSource => exact patchTask_plain hwrite (by rintro _ ⟨⟩; exact hsource) (.inr rfl)

theorem mergeWrites_writes {plan : MergePlan} (htarget : Plain plan.targetPatch)
    (hsource : Plain plan.sourcePatch) {sourceId targetId : String} {writes : List MergeWrite}
    (hwrites : writes.foldlM (mergeWrite host plan sourceId targetId) s = .ok s') :
    Writes reopens s.board s'.board := by
  induction writes generalizing s with
  | nil =>
    cases hwrites
    exact .refl
  | cons write writes ih =>
    rw [List.foldlM_cons] at hwrites
    obtain ⟨mid, hmid, hwrites⟩ := bind_ok_iff.mp hwrites
    exact (mergeWrite_writes htarget hsource hmid).trans (ih hwrites)

theorem applyMerge_writes {source target : Task} {reason : Option String}
    (hmerge : applyMerge h host source target reason s = .ok (s', reply)) :
    Writes reopens s.board s'.board := by
  obtain ⟨plan, hplan, hmerge⟩ := bind_ok_iff.mp hmerge
  split at hmerge
  · cases hmerge
    exact .refl
  · next hnew =>
    obtain ⟨merged, hmerged, hmerge⟩ := bind_ok_iff.mp hmerge
    cases hmerge
    have hplan := (planMerge_ok (mapError_ok_iff.mp hplan) (by simpa using hnew)).2.2.2.2
    refine mergeWrites_writes ?_ ?_ (mapError_ok_iff.mp hmerged)
    · rw [hplan]
      exact plain_targetPatch _ _
    · rw [hplan]
      exact plain_sourcePatch _

theorem merge_writes (hmerge : merge h host args s = .ok (s', reply)) :
    Writes reopens s.board s'.board := by
  obtain ⟨source, -, hmerge⟩ := bind_ok_iff.mp hmerge
  obtain ⟨target, -, hmerge⟩ := bind_ok_iff.mp hmerge
  exact applyMerge_writes hmerge

theorem applyMergeCandidate_writes (h : Handler) (host : CallHost) (c : TriageCandidate)
    (targetId : String) (batch : Batch) :
    Writes reopens batch.session.board
      (applyMergeCandidate h host c targetId batch).session.board := by
  unfold applyMergeCandidate
  split
  · split
    · split
      · next hmerge => exact applyMerge_writes hmerge
      · exact .refl
    · exact .refl
  · exact .refl

theorem applyCandidate_writes (h : Handler) (host : CallHost) (batch : Batch)
    (c : TriageCandidate) : Writes reopens batch.session.board
      (reached (applyCandidate h host batch c)).session.board := by
  unfold applyCandidate
  split
  · exact .refl
  · exact applyMergeCandidate_writes h host c _ batch
  · split
    · exact .refl
    · next session hpatched =>
      exact patchTask_plain hpatched (by rintro _ ⟨⟩; exact plain_pair _ (by decide)) (.inr rfl)

theorem triageApply_board (h : Handler) (host : CallHost) (candidates : List TriageCandidate)
    (s : Session) : (triageApply h host candidates s).1 =
      (reached (candidates.foldlM (applyCandidate h host) { session := s })).session := by
  unfold triageApply
  split
  · next herror => rw [herror]; rfl
  · next hok => rw [hok]; rfl

theorem triageApply_writes (h : Handler) (host : CallHost) (candidates : List TriageCandidate)
    (s : Session) : Writes reopens s.board (triageApply h host candidates s).1.board := by
  rw [triageApply_board]
  exact foldlM_related (R := fun b c : Batch => Writes reopens b.session.board c.session.board)
    (fun _ => .refl) (fun _ _ _ => .trans) (applyCandidate_writes h host) candidates { session := s }

theorem triageAction_writes (h : Handler) (host : CallHost) (args : TaskArgs) (s : Session) :
    Writes reopens s.board (triageAction h host args s).1.board := by
  unfold triageAction
  simp only
  split
  · exact .refl
  · split
    · exact .refl
    · exact triageApply_writes h host _ s

/-! ## Create -/

theorem createMeta_nodup (h : Handler) (host : CallHost) (args : TaskArgs) :
    ((createMeta h host args).map Prod.fst).Nodup := by
  have hkeys : ((createMeta h host args).map Prod.fst).Sublist (structuredKeys ++ ["dedupeKey"]) := by
    rw [createMeta, List.map_append]
    exact (structured_keys h host args []).append (field_keys _ _)
  exact List.Nodup.sublist hkeys (by decide)

/-- The board `c` is `b` with the new row. -/
structure Inserted (h : Handler) (host : CallHost) (args : TaskArgs) (b c : Board) (row : Task) :
    Prop where
  id : row.id = host.uuid
  status : row.status = .pending
  parent : row.parentId = args.parentId.filter fun parentId => parentId ≠ ""
  above : ∀ parentId, row.parentId = some parentId → (b.get parentId).isSome
  fields : metaOf row = createMeta h host args
  get : ∀ id, c.get id = if id = host.uuid then some row else b.get id

theorem needParent_ok {b : Board} {parentId : Option String}
    (hparent : needParent args b = .ok parentId) :
    parentId = (args.parentId.filter fun parentId => parentId ≠ "") ∧
      readParent parentId = parentId ∧
      ∀ above, parentId = some above → (b.get above).isSome := by
  unfold needParent at hparent
  split at hparent
  · next hnone =>
    obtain rfl := Except.ok.inj hparent
    exact ⟨hnone.symm, rfl, by simp⟩
  · next above habove =>
    split at hparent
    · cases hparent
    · next hsome =>
      obtain rfl := Except.ok.inj hparent
      have hne := (Option.filter_eq_some_iff.mp habove).2
      refine ⟨habove.symm, by simpa [readParent] using hne, ?_⟩
      rintro _ ⟨⟩
      simpa [Option.isSome_iff_ne_none] using hsome

/-- The save of the new task and the patch after it leave one new row. -/
theorem insertTask_ok {label : String} (hinsert : insertTask h host args label s = .ok s') :
    ∃ row, Inserted h host args s.board s'.board row := by
  obtain ⟨parentId, hparent, hinsert⟩ := bind_ok_iff.mp hinsert
  obtain ⟨hfilter, hread, habove⟩ := needParent_ok hparent
  obtain ⟨createdAt, hget⟩ := Board.get_save_any s.board (host.clock s.saves).database
    { id := host.uuid, parentId, label, status := .pending
      context := { toolOutputs := some [], metadata := some [] } }
  set row := Board.stored (host.clock s.saves).database createdAt
    { id := host.uuid, parentId, label, status := .pending
      context := { toolOutputs := some [], metadata := some [] } } with hrow
  have hrowParent : row.parentId = parentId := hread
  split at hinsert
  · next entries hentries =>
    obtain rfl := mem_of_nonempty hentries
    have hpatched := mapError_ok_iff.mp hinsert
    have hself : (s.insert host.clock host.uuid label parentId).board.get host.uuid = some row :=
      (hget host.uuid).trans (if_pos rfl)
    simp only [Session.patchTask, Session.perform, hself] at hpatched
    obtain rfl := Except.ok.inj hpatched
    have hparent' : readParent row.parentId = parentId := by rw [hrowParent, hread]
    refine ⟨Board.stored (host.clock (s.saves + 1)).database row.createdAt
      ((Call.patchTask { metadata := some (createMeta h host args) }).apply
        (host.clock (s.saves + 1)) row), rfl, rfl, hparent'.trans hfilter,
      fun above h => habove above (hparent'.symm.trans h), ?_, fun id => ?_⟩
    · exact Dict.spread_append (d := []) (by simpa using createMeta_nodup h host args)
    · refine (Board.get_save _ hself id).trans ?_
      change (if id = host.uuid then _ else
        (s.insert host.clock host.uuid label parentId).board.get id) = _
      by_cases hid : id = host.uuid
      · rw [if_pos hid, if_pos hid]
        rfl
      · rw [if_neg hid, if_neg hid]
        exact (hget id).trans (if_neg hid)
  · next hempty =>
    obtain rfl := Except.ok.inj hinsert
    refine ⟨row, rfl, rfl, hrowParent.trans hfilter, fun above h => habove above (hrowParent ▸ h), ?_,
      hget⟩
    unfold nonempty at hempty
    split at hempty
    · next hnil => exact hnil.symm
    · cases hempty

theorem absorbPatch_keys (h : Handler) (host : CallHost) (args : TaskArgs) (label : String)
    (score : ℚ) (old : Dict Json) :
    ((absorbPatch h host args label score old).map Prod.fst).Sublist ["notes", "links", "tags"] := by
  simp only [absorbPatch, List.map_append]
  exact ((field_keys _ _).append (field_keys _ _)).append (field_keys _ _)

theorem plain_absorbPatch (h : Handler) (host : CallHost) (args : TaskArgs) (label : String)
    (score : ℚ) (old : Dict Json) : Plain (absorbPatch h host args label score old) := by
  simp only [absorbPatch, plain_append]
  exact ⟨⟨plain_field _ (by decide), plain_field _ (by decide)⟩, plain_field _ (by decide)⟩

/-- A creation is answered with an open task, is absorbed by one, or inserts a row. -/
theorem create_cases (hcreate : create h host args s = .ok (s', reply)) :
    s' = s ∨
      (∃ task label score, s.patchTask host.clock task.id
        { metadata := some (absorbPatch h host args label score (metaOf task)) } = .ok s' ∧
          task ∈ s.board.rows) ∨
      reply = .created host.uuid ∧
        findExisting h args (args.label.getD "") s.board.rows = none ∧
        ∃ row, Inserted h host args s.board s'.board row := by
  simp only [create] at hcreate
  split at hcreate
  · cases hcreate
    exact .inl rfl
  next hnone =>
  split at hcreate
  · split at hcreate
    · cases hcreate
    · next task htask =>
      obtain ⟨patched, hpatched, hcreate⟩ := map_ok_iff.mp hcreate
      cases hcreate
      exact .inr (.inl ⟨task, _, _, mapError_ok_iff.mp hpatched, List.mem_of_find?_eq_some htask⟩)
  · obtain ⟨inserted, hinserted, hcreate⟩ := map_ok_iff.mp hcreate
    cases hcreate
    exact .inr (.inr ⟨rfl, hnone, insertTask_ok hinserted⟩)

theorem create_writes (hcreate : create h host args s = .ok (s', reply)) :
    Writes reopens s.board s'.board ∨
      findExisting h args (args.label.getD "") s.board.rows = none ∧
        ∃ row, Inserted h host args s.board s'.board row := by
  rcases create_cases hcreate with rfl | ⟨task, label, score, hpatched, -⟩ | ⟨-, hnone, hrow⟩
  · exact .inl .refl
  · refine .inl (patchTask_plain hpatched ?_ (.inl rfl))
    rintro _ ⟨⟩
    exact plain_absorbPatch _ _ _ _ _ _
  · exact .inr ⟨hnone, hrow⟩

/-! ## Reconciliation -/

theorem close_reached (git : TaskReconciler.Host) (now : ℚ) (sha value : String) (task : Task)
    (p : TaskReconciler.Progress) : Writes reopens p.board
      (reached (TaskReconciler.close git now sha value task p)).board := by
  unfold TaskReconciler.close
  simp only
  split
  · exact .refl
  next b hb =>
  have hwrites : Writes reopens p.board b := by
    unfold TaskManager.updateStatus TaskManager.perform at hb
    split at hb
    · cases hb
    next old hold =>
    obtain rfl := Except.ok.inj hb
    have hold' : p.board.get ((Call.updateStatus .completed (some (TaskReconciler.proof now sha
        value))).apply (git.clock p.closed.length) old).id = some old := by
      rw [(TaskManager.apply_fixed _ old _).1, Board.get_id hold, hold]
    refine .save hold' ⟨rfl, ?_, fun _ _ => .inr ⟨sha, ?_⟩, fun hopen => ?_⟩ _
    · exact Dict.get?_spread_of_not_mem _ (by simp [TaskReconciler.proof])
    · show Dict.get? (Dict.spread _ _) _ = _
      rw [Dict.get?_spread_of_nodup _ (by simp [TaskReconciler.proof])]
      rfl
    · simp [isOpen, Call.apply, TaskManager.mergeMetadata] at hopen
  cases git.auditSink with
  | none => exact hwrites
  | some sink =>
    simp only
    split <;> exact hwrites

theorem closeTrailer_reached (git : TaskReconciler.Host) (now : ℚ) (p : TaskReconciler.Progress)
    (trailer : String × String) : Writes reopens p.board
      (reached (TaskReconciler.closeTrailer git now p trailer)).board := by
  unfold TaskReconciler.closeTrailer
  simp only
  split
  · exact .refl
  · split
    · exact .refl
    · split
      · exact .refl
      · exact close_reached git now trailer.1 trailer.2 _ p

theorem reconcile_writes (repoPath : String) (git : TaskReconciler.Host)
    (opts : TaskReconciler.ReconcileOptions) (s : Records) :
    Writes reopens s.board (TaskReconciler.reconcileFromGit repoPath git opts s).1.board := by
  unfold TaskReconciler.reconcileFromGit
  simp only
  split
  · exact .refl
  next commits warnings hread =>
  have hloop := foldlM_related
    (R := fun p q : TaskReconciler.Progress => Writes reopens p.board q.board)
    (fun _ => .refl) (fun _ _ _ => .trans)
    (closeTrailer_reached git (opts.now.getD (git.date / 1000 : ℤ)))
    (TaskReconciler.trailers commits) (TaskReconciler.start s)
  split
  · next hfold => rw [hfold] at hloop; exact hloop
  · next hfold => rw [hfold] at hloop; exact hloop

/-! ## The handler -/

/-- The action and the arguments of a call that gets through. -/
def request (h : Handler) (host : CallHost) (raw : Dict Json) : Option (TaskAction × TaskArgs) :=
  match normalizeTaskArgs h.rt raw host.now with
  | .error _ => none
  | .ok (action, normalized, _) =>
    match validateInput normalized with
    | .error _ => none
    | .ok args => some (action, args)

/-- A call that does not get through changes nothing. -/
theorem handleTool_cases (h : Handler) (host : CallHost) (raw : Dict Json) (s : Records) :
    (request h host raw = none ∧ (handleTool h host raw s).1 = s) ∨
      ∃ action args, request h host raw = some (action, args) ∧
        handleTool h host raw s = manageTask h host action args s := by
  cases hnorm : normalizeTaskArgs h.rt raw host.now with
  | error message => exact .inl ⟨by simp [request, hnorm], by simp [handleTool, hnorm]⟩
  | ok normalized =>
    cases hvalid : validateInput normalized.2.1 with
    | error paths =>
      exact .inl ⟨by simp [request, hnorm, hvalid], by simp [handleTool, hnorm, hvalid]⟩
    | ok args =>
      exact .inr ⟨normalized.1, args, by simp [request, hnorm, hvalid],
        by simp [handleTool, hnorm, hvalid]⟩

theorem request_ok {raw : Dict Json} {action : TaskAction}
    (hrequest : request h host raw = some (action, args)) :
    ∃ normalized warnings, normalizeTaskArgs h.rt raw host.now = .ok (action, normalized, warnings) ∧
      validateInput normalized = .ok args := by
  unfold request at hrequest
  split at hrequest
  · cases hrequest
  · next normalized warnings hnorm =>
    split at hrequest
    · cases hrequest
    · next hvalid =>
      cases hrequest
      exact ⟨normalized, warnings, hnorm, hvalid⟩

theorem checkRequired_ok {name : String} {action : TaskAction} {raw : Dict Json}
    (hcheck : checkRequired name action raw = .ok ()) :
    ∀ req ∈ (ACTION_SPECS action).required, isMissing (raw.get? req) = false := by
  unfold checkRequired at hcheck
  split at hcheck
  · next hnone =>
    intro req hreq
    simpa using List.find?_eq_none.mp hnone req hreq
  · cases hcheck

theorem normalizeToolOutput_proof {raw normalized : Dict Json}
    (houtput : normalizeToolOutput raw = .ok normalized) :
    normalized.get? "proof" = raw.get? "proof" := by
  unfold normalizeToolOutput at houtput
  split at houtput
  · rw [Except.ok.inj houtput]
  · split at houtput
    · cases houtput
    · rw [← Except.ok.inj houtput, Dict.get?_set, if_neg (by decide)]
  · cases houtput

/-- A text field that passes the schema is a text. -/
theorem validateInput_text {normalized : Dict Json} {key : String} {value : Json}
    (hvalid : validateInput normalized = .ok args) (hkey : (key, .text) ∈ ManageTaskInput)
    (hvalue : normalized.get? key = some value) : ∃ text, value = .string text := by
  unfold validateInput at hvalid
  simp only at hvalid
  split at hvalid
  · cases hvalid
  · next hfound =>
    have hnone := List.flatMap_eq_nil_iff.mp (not_not.mp hfound) _ hkey
    simp only [hvalue, Option.map_some, Option.getD_some] at hnone
    cases value <;> simp [issues] at hnone ⊢

/-- A close that gets through has a proof. -/
theorem close_proof {raw : Dict Json} (hrequest : request h host raw = some (.close, args)) :
    args.proof.getD "" ≠ "" := by
  obtain ⟨normalized, warnings, hnorm, hvalid⟩ := request_ok hrequest
  obtain ⟨named, hnamed, hnorm⟩ := bind_ok_iff.mp hnorm
  obtain ⟨replaced, hreplaced, hnorm⟩ := bind_ok_iff.mp hnorm
  obtain ⟨-, -, hnorm⟩ := bind_ok_iff.mp hnorm
  obtain ⟨_, hrequired, hnorm⟩ := bind_ok_iff.mp hnorm
  obtain ⟨fields, hfields, hnorm⟩ := bind_ok_iff.mp hnorm
  simp only [pure, Except.pure, Except.ok.injEq, Prod.mk.injEq] at hnorm
  obtain ⟨hclose, rfl, -⟩ := hnorm
  rw [hclose] at hrequired hfields
  have hgiven := checkRequired_ok hrequired "proof" (by decide)
  have hsame : fields.get? "proof" = replaced.1.get? "proof" := by
    obtain ⟨created, hcreated, hfields⟩ := bind_ok_iff.mp hfields
    obtain ⟨-, -, hfields⟩ := bind_ok_iff.mp hfields
    obtain ⟨-, -, hfields⟩ := bind_ok_iff.mp hfields
    obtain ⟨output, houtput, hfields⟩ := bind_ok_iff.mp hfields
    obtain ⟨merged, hmerged, hfields⟩ := bind_ok_iff.mp hfields
    obtain rfl : replaced.1 = created := Except.ok.inj hcreated
    obtain rfl : output = merged := Except.ok.inj hmerged
    obtain rfl : output = fields := Except.ok.inj hfields
    exact normalizeToolOutput_proof houtput
  rw [← hsame] at hgiven
  cases hvalue : fields.get? "proof" with
  | none => simp [hvalue, isMissing] at hgiven
  | some value =>
    obtain ⟨text, rfl⟩ := validateInput_text hvalid (by simp [ManageTaskInput]) hvalue
    have htext : args.proof = some text := by
      unfold validateInput at hvalid
      simp only at hvalid
      split at hvalid
      · cases hvalid
      · obtain rfl := Except.ok.inj hvalid
        simp [textAt, hvalue]
    rw [htext]
    rintro rfl
    rw [hvalue] at hgiven
    exact absurd hgiven (by decide)

/-- What a call writes. -/
theorem handleTool_writes (h : Handler) (host : CallHost) (raw : Dict Json) (s : Records) :
    Writes (fun id => ∃ args, request h host raw = some (.update, args) ∧ Reopens args id)
        s.board (handleTool h host raw s).1.board ∨
      (∃ args, request h host raw = some (.create, args) ∧
        findExisting h args (args.label.getD "") s.board.rows = none ∧
        ∃ row, Inserted h host args s.board (handleTool h host raw s).1.board row) ∨
      (handleTool h host raw s).1.board = .empty := by
  rcases handleTool_cases h host raw s with ⟨-, hsame⟩ | ⟨action, args, hrequest, heq⟩
  · rw [hsame]
    exact .inl .refl
  rw [heq]
  have hwhole : ∀ result : Except Failure (Session × Reply),
      (∀ s' reply, result = .ok (s', reply) →
        Writes (fun id => ∃ args, request h host raw = some (.update, args) ∧ Reopens args id)
          s.board s'.board) →
      Writes (fun id => ∃ args, request h host raw = some (.update, args) ∧ Reopens args id)
        s.board (whole ⟨s.board, 0⟩ result).1.board := by
    intro result hresult
    cases result with
    | error failure => exact .refl
    | ok out => exact hresult out.1 out.2 rfl
  cases action with
  | create =>
    cases hcreate : create h host args ⟨s.board, 0⟩ with
    | error failure =>
      simp only [manageTask, onBoard, hcreate, whole]
      exact .inl .refl
    | ok out =>
      simp only [manageTask, onBoard, hcreate, whole]
      rcases create_writes hcreate with hwrites | ⟨hnone, row, hrow⟩
      · exact .inl hwrites
      · exact .inr (.inl ⟨args, hrequest, hnone, row, hrow⟩)
  | update =>
    exact .inl (hwhole _ fun s' reply hok =>
      (update_writes hok).mono fun id hid => ⟨args, hrequest, hid⟩)
  | close => exact .inl (hwhole _ fun s' reply hok => close_writes hok (close_proof hrequest))
  | archive => exact .inl (hwhole _ fun s' reply hok => archive_writes hok)
  | renew => exact .inl (hwhole _ fun s' reply hok => renew_writes hok)
  | merge => exact .inl (hwhole _ fun s' reply hok => merge_writes hok)
  | triage => exact .inl (triageAction_writes h host args ⟨s.board, 0⟩)
  | reconcile => exact .inl (reconcile_writes _ _ _ s)
  | clear =>
    simp only [manageTask, onBoard, clear]
    split
    · exact .inl .refl
    · exact .inr (.inr rfl)
  | get =>
    refine .inl (hwhole _ fun s' reply hok => ?_)
    obtain ⟨task, -, hread⟩ := map_ok_iff.mp hok
    cases hread
    exact .refl
  | list => exact .inl .refl
  | tree => exact .inl .refl
  | stale => exact .inl .refl
  | report => exact .inl .refl

end Actions

/-! Runs of `manage_task` calls: a task is completed only with evidence. -/

/-- Calls one after another. -/
def serve (h : Handler) (s : Records) (calls : List (CallHost × Dict Json)) : Records :=
  calls.foldl (fun s call => (handleTool h call.1 call.2 s).1) s

/-- The records of a project without tasks. -/
def blank (lastSha : Option String) (evidence : List TaskReconciler.Evidence) : Records :=
  ⟨.empty, lastSha, evidence⟩

theorem proven_inserted {h : Handler} {host : CallHost} {args : TaskArgs} {b c : Board} {new : Task}
    (hnew : Inserted h host args b c new) (hb : ∀ row ∈ b.rows, Proven row) :
    ∀ row ∈ c.rows, Proven row := by
  intro row hrow
  have hget := Board.get_of_mem hrow
  rw [hnew.get] at hget
  split at hget
  · obtain rfl := Option.some.inj hget
    intro hcompleted
    rw [hnew.status] at hcompleted
    cases hcompleted
  · exact hb row (Board.get_mem hget)

/-- A call keeps the evidence of the tasks that are completed. -/
theorem handleTool_proven (h : Handler) (host : CallHost) (raw : Dict Json) {s : Records}
    (hs : ∀ row ∈ s.board.rows, Proven row) :
    ∀ row ∈ (handleTool h host raw s).1.board.rows, Proven row := by
  rcases handleTool_writes h host raw s with hwrites | ⟨args, -, -, new, hnew⟩ | hempty
  · exact hwrites.proven hs
  · exact proven_inserted hnew hs
  · rw [hempty]
    exact fun row hrow => absurd hrow (List.not_mem_nil)

theorem serve_proven (h : Handler) {s : Records} (calls : List (CallHost × Dict Json))
    (hs : ∀ row ∈ s.board.rows, Proven row) : ∀ row ∈ (serve h s calls).board.rows, Proven row := by
  induction calls generalizing s with
  | nil => exact hs
  | cons call calls ih => exact ih (handleTool_proven h call.1 call.2 hs)

/-- After any calls on an empty board a completed task has the proof of its close, or the commit
that it was reconciled from. -/
theorem completed_with_evidence (h : Handler) (lastSha : Option String)
    (evidence : List TaskReconciler.Evidence) (calls : List (CallHost × Dict Json)) :
    ∀ row ∈ (serve h (blank lastSha evidence) calls).board.rows,
      row.status = .completed → Evidence (metaOf row) :=
  serve_proven h calls fun _ hrow => absurd hrow List.not_mem_nil

/-! ## A run -/

/-- Whole numbers and ASCII letters, as the language prints and lowers them; no date is read. -/
def asciiRuntime : Runtime where
  numberText := fun value => toString value.num
  lowerCase := fun text => String.ofList (text.toList.map Char.toLower)
  parseDate := fun _ => none
  isoDay := fun _ => none

/-- A board on which no two tasks are alike. -/
def unlike : Similarity where
  allPairs := fun _ _ => []
  scoreIndexed := fun _ _ _ => 0
  findSimilar := fun _ _ => []
  obsoleteWord := fun _ => none
  localeLe := fun _ _ => true

def plainHandler : Handler := ⟨asciiRuntime, unlike, "/repo"⟩

/-- A call at a second, with the id that it would give to a new task. -/
def callAt (second : ℤ) (uuid : String) : CallHost where
  now := second * 1000
  nowIso := toString second
  uuid
  clock := fun _ => ⟨second * 1000, second⟩
  reconciler := ⟨fun _ => .ok "", second * 1000, fun _ => ⟨second * 1000, second⟩, none⟩

def createCall (label : String) : Dict Json :=
  [("action", .string "create"), ("label", .string label)]

def closeCall (taskId proof : String) : Dict Json :=
  [("action", .string "close"), ("taskId", .string taskId), ("proof", .string proof)]

theorem completed_with_evidence_closed :
    ∃ row ∈ (serve plainHandler (blank none [])
        [(callAt 1 "t1", createCall "deploy"), (callAt 2 "t2", closeCall "t1" "abc1234")]).board.rows,
      row.status = .completed ∧ Evidence (metaOf row) := by
  have hstatus : (serve plainHandler (blank none [])
      [(callAt 1 "t1", createCall "deploy"),
        (callAt 2 "t2", closeCall "t1" "abc1234")]).board.rows.map Task.status = [.completed] := by
    decide +kernel
  obtain ⟨row, hrow, hcompleted⟩ := List.mem_map.mp (hstatus ▸ List.mem_singleton.mpr rfl)
  exact ⟨row, hrow, hcompleted, completed_with_evidence _ _ _ _ row hrow hcompleted⟩

end ManageTask
end Batiste
