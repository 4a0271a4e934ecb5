import Batiste.ActionWrites

/-! The rows that the writes of a merge leave, apart from the times of their saves. -/
namespace Batiste
namespace ManageTask

open TaskActions TaskMerge
open TaskManager (Clocks Patch Call)

/-- A task without the time of its last save. -/
def timeless (task : Task) : Task := { task with updatedAt := none }

/-- What a patch makes of a task. -/
def patched (patch : Patch) (task : Task) : Task :=
  TaskManager.mergeMetadata patch.metadata
    { task with status := patch.status.getD task.status, label := patch.label.getD task.label }

theorem timeless_patched (patch : Patch) (task : Task) :
    timeless (patched patch task) = patched patch (timeless task) := by
  unfold patched TaskManager.mergeMetadata
  split <;> rfl

theorem patched_id (patch : Patch) (task : Task) : (patched patch task).id = task.id :=
  (TaskManager.mergeMetadata_fixed patch.metadata _).1

theorem patched_parent (patch : Patch) (task : Task) :
    (patched patch task).parentId = task.parentId :=
  (TaskManager.mergeMetadata_fixed patch.metadata _).2.1

/-- The rows after a save; the row of the task becomes what `change` makes of it. -/
theorem save_timeless {b : Board} {old new : Task} (now : ℤ) (hold : b.get new.id = some old)
    (change : Task → Task)
    (hnew : timeless (Board.stored now old.createdAt new) = change (timeless old)) :
    (b.save now new).rows.map timeless = (b.rows.map timeless).map fun row =>
      if row.id = new.id then change row else row := by
  have hmem : new.id ∈ b.rows.map Task.id :=
    Board.get_id hold ▸ List.mem_map_of_mem (Board.get_mem hold)
  rw [Board.save_rows now hmem, List.map_map, List.map_map]
  refine List.map_congr_left fun row hrow => ?_
  by_cases hid : row.id = new.id
  · obtain rfl : row = old := by
      rw [← hid, Board.get_of_mem hrow] at hold
      exact Option.some.inj hold
    simp only [Function.comp_apply, if_pos hid]
    rw [hnew, if_pos (show (timeless row).id = new.id from hid)]
  · simp only [Function.comp_apply, if_neg hid]
    rw [if_neg (show ¬ (timeless row).id = new.id from hid)]

theorem patchTask_timeless {clock : ℕ → Clocks} {s s' : Session} {taskId : String} {patch : Patch}
    (h : s.patchTask clock taskId patch = .ok s') :
    s'.board.rows.map timeless = (s.board.rows.map timeless).map fun row =>
      if row.id = taskId then patched patch row else row := by
  unfold Session.patchTask Session.perform at h
  split at h
  case h_1 => cases h
  case h_2 task htask =>
    cases h
    have hid : (patched patch task).id = taskId := (patched_id patch task).trans (Board.get_id htask)
    have hparent : readParent (patched patch task).parentId = (patched patch task).parentId := by
      rw [patched_parent]
      exact s.board.parents task (Board.get_mem htask)
    have hcreated : (patched patch task).createdAt = task.createdAt :=
      (TaskManager.mergeMetadata_fixed patch.metadata _).2.2.1
    rw [← hid]
    refine save_timeless _ (hid ▸ htask) (patched patch) ?_
    rw [← timeless_patched]
    simp only [timeless, Board.stored]
    rw [← hcreated]
    exact congrArg (fun parentId => { patched patch task with parentId, updatedAt := none }) hparent

theorem patchTask_succeeds {clock : ℕ → Clocks} {s : Session} {taskId : String} (patch : Patch)
    (h : (s.board.get taskId).isSome) : ∃ s', s.patchTask clock taskId patch = .ok s' := by
  obtain ⟨task, htask⟩ := Option.isSome_iff_exists.mp h
  exact ⟨_, by rw [Session.patchTask, Session.perform, htask]⟩

/-! ## The writes of a merge -/

section Merge

variable {host : CallHost} (plan : MergePlan) (sourceId targetId : String)

/-- What a write of a merge makes of a row. -/
def writeRow (row : Task) : MergeWrite → Task
  | .patchTarget =>
    if row.id = targetId then patched { metadata := some plan.targetPatch } row else row
  | .reparent child =>
    if row.id = child then { row with parentId := readParent (some targetId) } else row
  | .patchSource =>
    if row.id = sourceId then
      patched { status := some .failed, metadata := some plan.sourcePatch } row
    else row

variable {plan sourceId targetId} {s s' : Session}

theorem mergeWrite_timeless {write : MergeWrite}
    (h : mergeWrite host plan sourceId targetId s write = .ok s') :
    s'.board.rows.map timeless =
      (s.board.rows.map timeless).map fun row => writeRow plan sourceId targetId row write := by
  cases write with
  | patchTarget => exact patchTask_timeless h
  | patchSource => exact patchTask_timeless h
  | reparent child =>
    simp only [mergeWrite] at h
    split at h
    case h_1 hnone =>
      cases h
      refine (List.map_id _).symm.trans (List.map_congr_left fun row hrow => ?_)
      have hne : row.id ≠ child := by
        rintro rfl
        obtain ⟨row', hrow', rfl⟩ := List.mem_map.mp hrow
        have hsome : s.board.get row'.id = some row' := Board.get_of_mem hrow'
        exact absurd (hnone.symm.trans hsome) (by simp)
      simp only [writeRow, if_neg hne, id]
    case h_2 task htask =>
      cases h
      have hid := Board.get_id htask
      have hsave := save_timeless (host.clock s.saves).database
        (show s.board.get ({ task with parentId := some targetId } : Task).id = some task by
          rw [← htask, hid])
        (fun row => { row with parentId := readParent (some targetId) }) rfl
      refine hsave.trans (List.map_congr_left fun row _ => ?_)
      change (if row.id = task.id then _ else row) = _
      rw [hid]
      rfl

theorem writeRow_id (plan : MergePlan) (sourceId targetId : String) (row : Task)
    (write : MergeWrite) : (writeRow plan sourceId targetId row write).id = row.id := by
  cases write with
  | patchTarget =>
    simp only [writeRow]
    split
    · exact patched_id _ _
    · rfl
  | reparent child =>
    simp only [writeRow]
    split <;> rfl
  | patchSource =>
    simp only [writeRow]
    split
    · exact patched_id _ _
    · rfl

theorem mergeWrite_ids {write : MergeWrite}
    (h : mergeWrite host plan sourceId targetId s write = .ok s') :
    s'.board.rows.map Task.id = s.board.rows.map Task.id := by
  have hrows := congrArg (List.map Task.id) (mergeWrite_timeless h)
  simp only [List.map_map] at hrows
  refine hrows.trans (List.map_congr_left fun row _ => ?_)
  exact writeRow_id plan sourceId targetId (timeless row) write

theorem get_isSome {b c : Board} {id : String} (h : c.rows.map Task.id = b.rows.map Task.id)
    (hb : (b.get id).isSome) : (c.get id).isSome := by
  obtain ⟨task, htask⟩ := Option.isSome_iff_exists.mp hb
  have hmem : id ∈ c.rows.map Task.id :=
    h ▸ List.mem_map.mpr ⟨task, Board.get_mem htask, Board.get_id htask⟩
  obtain ⟨row, hrow, rfl⟩ := List.mem_map.mp hmem
  rw [Board.get_of_mem hrow]
  rfl

theorem mergeWrites_timeless {writes : List MergeWrite}
    (h : writes.foldlM (mergeWrite host plan sourceId targetId) s = .ok s') :
    s'.board.rows.map timeless =
      (s.board.rows.map timeless).map fun row =>
        writes.foldl (writeRow plan sourceId targetId) row := by
  induction writes generalizing s with
  | nil =>
    cases h
    exact (List.map_id _).symm
  | cons write writes ih =>
    rw [List.foldlM_cons] at h
    obtain ⟨mid, hmid, hrest⟩ := bind_ok_iff.mp h
    rw [ih hrest, mergeWrite_timeless hmid, List.map_map]
    rfl

/-- The writes that are left go through as long as the source and the target are on the board. -/
theorem mergeWrites_succeed (writes : List MergeWrite)
    (hsource : (s.board.get sourceId).isSome) (htarget : (s.board.get targetId).isSome) :
    ∃ s', writes.foldlM (mergeWrite host plan sourceId targetId) s = .ok s' := by
  induction writes generalizing s with
  | nil => exact ⟨s, rfl⟩
  | cons write writes ih =>
    obtain ⟨mid, hmid⟩ : ∃ mid, mergeWrite host plan sourceId targetId s write = .ok mid := by
      cases write with
      | patchTarget => exact patchTask_succeeds _ htarget
      | patchSource => exact patchTask_succeeds _ hsource
      | reparent child =>
        simp only [mergeWrite]
        split
        · exact ⟨_, rfl⟩
        · exact ⟨_, rfl⟩
    have hids := mergeWrite_ids hmid
    obtain ⟨s', hs'⟩ := ih (get_isSome hids hsource) (get_isSome hids htarget)
    exact ⟨s', by rw [List.foldlM_cons, hmid]; exact hs'⟩

/-- The children are handed over one by one. -/
theorem reparent_fold (plan : MergePlan) (sourceId targetId : String) (children : List String)
    (row : Task) : (children.map MergeWrite.reparent).foldl (writeRow plan sourceId targetId) row =
      if row.id ∈ children then { row with parentId := readParent (some targetId) } else row := by
  induction children generalizing row with
  | nil => simp
  | cons child children ih =>
    have hid := writeRow_id plan sourceId targetId row (.reparent child)
    rw [List.map_cons, List.foldl_cons, ih, hid]
    by_cases hchild : row.id = child
    · simp [writeRow, hchild]
    · simp [writeRow, hchild]

/-- A row when the target is patched and some children are handed over. -/
def halfMerged (plan : MergePlan) (targetId : String) (children : List String) (row : Task) : Task :=
  let absorbed :=
    if row.id = targetId then patched { metadata := some plan.targetPatch } row else row
  if row.id ∈ children then { absorbed with parentId := readParent (some targetId) } else absorbed

theorem half_fold (plan : MergePlan) (sourceId targetId : String) (children : List String)
    (row : Task) : (MergeWrite.patchTarget :: children.map MergeWrite.reparent).foldl
        (writeRow plan sourceId targetId) row = halfMerged plan targetId children row := by
  have hid := writeRow_id plan sourceId targetId row .patchTarget
  rw [List.foldl_cons, reparent_fold]
  by_cases hmem : row.id ∈ children
  · rw [if_pos (hid ▸ hmem)]
    simp only [halfMerged, if_pos hmem]
    rfl
  · rw [if_neg (hid ▸ hmem)]
    simp only [halfMerged, if_neg hmem]
    rfl

/-- A row after all the writes. -/
def mergedRow (plan : MergePlan) (sourceId targetId : String) (row : Task) : Task :=
  let half := halfMerged plan targetId plan.reparent row
  if row.id = sourceId then
    patched { status := some .failed, metadata := some plan.sourcePatch } half
  else half

theorem halfMerged_id (plan : MergePlan) (targetId : String) (children : List String) (row : Task) :
    (halfMerged plan targetId children row).id = row.id := by
  have habsorbed : (if row.id = targetId then patched { metadata := some plan.targetPatch } row
      else row).id = row.id := by
    split
    · exact patched_id _ _
    · rfl
  by_cases hmem : row.id ∈ children
  · simp only [halfMerged, if_pos hmem]
    exact habsorbed
  · simp only [halfMerged, if_neg hmem]
    exact habsorbed

theorem merged_fold (plan : MergePlan) (sourceId targetId : String) (row : Task) :
    (mergeWrites plan).foldl (writeRow plan sourceId targetId) row =
      mergedRow plan sourceId targetId row := by
  have hwrites : mergeWrites plan =
      (MergeWrite.patchTarget :: plan.reparent.map MergeWrite.reparent) ++ [.patchSource] := rfl
  rw [hwrites, List.foldl_append, half_fold, List.foldl_cons, List.foldl_nil]
  simp only [writeRow, mergedRow, halfMerged_id]

/-- The rows after a merge. -/
theorem merge_timeless
    (h : (mergeWrites plan).foldlM (mergeWrite host plan sourceId targetId) s = .ok s') :
    s'.board.rows.map timeless =
      (s.board.rows.map timeless).map (mergedRow plan sourceId targetId) := by
  rw [mergeWrites_timeless h]
  exact List.map_congr_left fun row _ => merged_fold plan sourceId targetId row

end Merge

end ManageTask
end Batiste
