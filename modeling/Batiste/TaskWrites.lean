import Batiste.ManageTask

/-! What the actions of `manage_task` write: each save of a task that exists keeps its key and its
evidence, and only an update opens a task that is closed. -/
namespace Batiste
namespace ManageTask

open TaskActions TaskMerge
open TaskManager (Clocks Patch Call)
open TaskReconciler (Records)

/-! ## Results -/

section Results

variable {ε ε' α β : Type}

theorem bind_ok_iff {x : Except ε α} {f : α → Except ε β} {b : β} :
    (x >>= f) = .ok b ↔ ∃ a, x = .ok a ∧ f a = .ok b := by
  cases x with
  | error e => exact ⟨fun h => (nomatch h), fun h => (nomatch h.choose_spec.1)⟩
  | ok a => exact ⟨fun h => ⟨a, rfl, h⟩, by rintro ⟨_, ⟨⟩, h⟩; exact h⟩

theorem mapError_ok_iff {x : Except ε α} {f : ε → ε'} {a : α} :
    x.mapError f = .ok a ↔ x = .ok a := by
  cases x <;> simp [Except.mapError]

theorem map_ok_iff {x : Except ε α} {f : α → β} {b : β} :
    x.map f = .ok b ↔ ∃ a, x = .ok a ∧ f a = b := by
  cases x <;> simp [Except.map]

/-- The state at the end of a loop, and the one that an error leaves. -/
def reached {σ : Type} : Except (ε × σ) σ → σ
  | .ok s => s
  | .error e => e.2

/-- What each step relates, a loop relates, also when it ends with an error. -/
theorem foldlM_related {σ : Type} {R : σ → σ → Prop} {f : σ → α → Except (ε × σ) σ}
    (hrefl : ∀ s, R s s) (htrans : ∀ s t u, R s t → R t u → R s u)
    (hstep : ∀ s a, R s (reached (f s a))) (as : List α) (s : σ) :
    R s (reached (as.foldlM f s)) := by
  induction as generalizing s with
  | nil => exact hrefl s
  | cons a as ih =>
    have ha := hstep s a
    rw [List.foldlM_cons]
    cases hf : f s a with
    | error e =>
      rw [hf] at ha
      exact ha
    | ok t =>
      rw [hf] at ha
      exact htrans s t _ ha (ih t)

end Results

/-! ## Evidence -/

/-- The proof of a close is a text that is not empty, or the task was reconciled from a commit. -/
def Evidence (entries : Dict Json) : Prop :=
  (∃ fields proof, entries.get? "closed" = some (.object fields) ∧
    Dict.get? fields "proof" = some (.string proof) ∧ proof ≠ "") ∨
  ∃ sha, entries.get? "reconciledFromCommit" = some (.string sha)

/-- Completed only with evidence. -/
def Proven (task : Task) : Prop := task.status = .completed → Evidence (metaOf task)

/-- A patch without the fields of the evidence keeps it. -/
theorem Evidence.spread {entries : Dict Json} (h : Evidence entries) {patch : Dict Json}
    (hclosed : "closed" ∉ patch.map Prod.fst)
    (hcommit : "reconciledFromCommit" ∉ patch.map Prod.fst) : Evidence (entries.spread patch) := by
  unfold Evidence
  rw [Dict.get?_spread_of_not_mem _ hclosed, Dict.get?_spread_of_not_mem _ hcommit]
  exact h

theorem evidence_of_closed {entries patch : Dict Json} (hnodup : (patch.map Prod.fst).Nodup)
    {fields : Dict Json} {proof : String} (hclosed : patch.get? "closed" = some (.object fields))
    (hproof : Dict.get? fields "proof" = some (.string proof)) (hne : proof ≠ "") :
    Evidence (entries.spread patch) := by
  refine .inl ⟨fields, proof, ?_, hproof, hne⟩
  rw [Dict.get?_spread_of_nodup _ hnodup, hclosed, Option.some_or]

/-! ## One write -/

/-- What a save may make of a task; `reopens` says that it may open one that is closed. -/
structure Rewritten (reopens : Prop) (old new : Task) : Prop where
  id : new.id = old.id
  key : metaAt new "dedupeKey" = metaAt old "dedupeKey"
  proven : Proven old → Proven new
  opens : isOpen new = true → isOpen old = true ∨ reopens

namespace Rewritten

variable {reopens reopens' : Prop} {a b c : Task}

theorem refl : Rewritten reopens a a := ⟨rfl, rfl, fun h => h, .inl⟩

theorem trans (h : Rewritten reopens a b) (h' : Rewritten reopens b c) : Rewritten reopens a c :=
  ⟨h'.id.trans h.id, h'.key.trans h.key, fun ha => h'.proven (h.proven ha),
    fun hopen => (h'.opens hopen).elim h.opens .inr⟩

theorem mono (h : Rewritten reopens a b) (hmono : reopens → reopens') : Rewritten reopens' a b :=
  ⟨h.id, h.key, h.proven, fun hopen => (h.opens hopen).imp_right hmono⟩

/-- The row that a save writes. -/
theorem stored (h : Rewritten reopens a b) (now : ℤ) (createdAt : Option ℤ) :
    Rewritten reopens a (Board.stored now createdAt b) :=
  ⟨h.id, h.key, h.proven, h.opens⟩

end Rewritten

/-- What some saves of tasks on the board make of it. -/
structure Writes (reopens : String → Prop) (b c : Board) : Prop where
  ids : c.rows.map Task.id = b.rows.map Task.id
  rows : ∀ new ∈ c.rows, ∃ old ∈ b.rows, Rewritten (reopens old.id) old new

namespace Writes

variable {reopens reopens' : String → Prop} {b c d : Board}

theorem refl : Writes reopens b b := ⟨rfl, fun new hnew => ⟨new, hnew, .refl⟩⟩

theorem trans (h : Writes reopens b c) (h' : Writes reopens c d) : Writes reopens b d := by
  refine ⟨h'.ids.trans h.ids, fun new hnew => ?_⟩
  obtain ⟨mid, hmid, hlast⟩ := h'.rows new hnew
  obtain ⟨old, hold, hfirst⟩ := h.rows mid hmid
  exact ⟨old, hold, hfirst.trans (hfirst.id ▸ hlast)⟩

theorem mono (h : Writes reopens b c) (hmono : ∀ id, reopens id → reopens' id) :
    Writes reopens' b c := by
  refine ⟨h.ids, fun new hnew => ?_⟩
  obtain ⟨old, hold, hrow⟩ := h.rows new hnew
  exact ⟨old, hold, hrow.mono (hmono old.id)⟩

theorem save {old new : Task} (hold : b.get new.id = some old)
    (hnew : Rewritten (reopens old.id) old new) (now : ℤ) :
    Writes reopens b (b.save now new) := by
  refine ⟨Board.save_rows_map now hold Task.id hnew.id, fun row hrow => ?_⟩
  have hmem : new.id ∈ b.rows.map Task.id :=
    Board.get_id hold ▸ List.mem_map_of_mem (Board.get_mem hold)
  rw [Board.save_rows now hmem] at hrow
  obtain ⟨row', hrow', rfl⟩ := List.mem_map.mp hrow
  by_cases hid : row'.id = new.id
  · obtain rfl : row' = old := by
      rw [← hid, Board.get_of_mem hrow'] at hold
      exact Option.some.inj hold
    rw [if_pos hid]
    exact ⟨row', hrow', hnew.stored now _⟩
  · rw [if_neg hid]
    exact ⟨row', hrow', .refl⟩

/-- Rows with evidence keep it. -/
theorem proven (h : Writes reopens b c) (hb : ∀ row ∈ b.rows, Proven row) :
    ∀ row ∈ c.rows, Proven row := by
  intro row hrow
  obtain ⟨old, hold, hnew⟩ := h.rows row hrow
  exact hnew.proven (hb old hold)

end Writes

variable {reopens : String → Prop}

/-- A save of a call, for a task that is on the board. -/
theorem perform_writes {clock : ℕ → Clocks} {s s' : Session} {taskId : String} {call : Call}
    (h : s.perform clock taskId call = .ok s')
    (hcall : ∀ task, s.board.get taskId = some task →
      Rewritten (reopens task.id) task (call.apply (clock s.saves) task)) :
    Writes reopens s.board s'.board := by
  unfold Session.perform at h
  split at h
  case h_1 => cases h
  case h_2 task htask =>
    cases h
    have hnew := hcall task htask
    exact .save (by rw [hnew.id, Board.get_id htask, htask]) hnew _

/-! ## Patches -/

/-- The fields that the evidence and the key of a task are in. -/
def watched : List String := ["closed", "reconciledFromCommit", "dedupeKey"]

/-- A patch that leaves the evidence and the key alone. -/
def Plain (patch : Dict Json) : Prop := ∀ key ∈ patch.map Prod.fst, key ∉ watched

theorem plain_append {d e : Dict Json} : Plain (d ++ e) ↔ Plain d ∧ Plain e := by
  simp only [Plain, List.map_append, List.mem_append, or_imp, forall_and]

theorem plain_field {key : String} (value : Option Json) (hkey : key ∉ watched) :
    Plain (field key value) := by
  intro key' hkey'
  cases value with
  | none => simp [field] at hkey'
  | some value =>
    obtain rfl : key' = key := by simpa [field] using hkey'
    exact hkey

/-- A patch that keeps the status and the evidence, or that completes the task with evidence. -/
theorem patch_rewritten {reopens : Prop} {task : Task} {patch : Patch} (now : Clocks)
    (hkey : ∀ entries, patch.metadata = some entries → "dedupeKey" ∉ entries.map Prod.fst)
    (hproven : Proven task →
      patch.status.getD task.status = .completed →
        Evidence (((patch.metadata.map (metaOf task).spread)).getD (metaOf task)))
    (hopens : patch.status.getD task.status = .pending ∨ patch.status.getD task.status = .running →
      isOpen task = true ∨ reopens) :
    Rewritten reopens task ((Call.patchTask patch).apply now task) := by
  have hmeta : metaOf ((Call.patchTask patch).apply now task) =
      ((patch.metadata.map (metaOf task).spread)).getD (metaOf task) := by
    cases h : patch.metadata <;> simp [Call.apply, TaskManager.mergeMetadata, metaOf, h]
  have hstatus : ((Call.patchTask patch).apply now task).status = patch.status.getD task.status :=
    (TaskManager.mergeMetadata_fixed patch.metadata _).2.2.2.1
  refine ⟨(TaskManager.apply_fixed now task _).1, ?_, ?_, ?_⟩
  · unfold metaAt
    rw [hmeta]
    cases h : patch.metadata with
    | none => rfl
    | some entries => exact Dict.get?_spread_of_not_mem _ (hkey entries h)
  · intro hold hcompleted
    rw [hmeta]
    exact hproven hold (hstatus ▸ hcompleted)
  · intro hopen
    refine hopens ?_
    rw [← hstatus]
    simpa [isOpen] using hopen

/-- Plain fields, under a status that does not complete or open the task. -/
theorem plain_rewritten {reopens : Prop} {task : Task} {patch : Patch} (now : Clocks)
    (hplain : ∀ entries, patch.metadata = some entries → Plain entries)
    (hstatus : patch.status = none ∨ patch.status = some .failed ∨
      patch.status = some task.status) :
    Rewritten reopens task ((Call.patchTask patch).apply now task) := by
  have hsame : patch.status.getD task.status = .failed ∨
      patch.status.getD task.status = task.status := by
    rcases hstatus with h | h | h <;> simp [h]
  refine patch_rewritten now (fun entries h hmem => hplain entries h _ hmem (by decide)) ?_ ?_
  · intro hold hcompleted
    have hevidence : Evidence (metaOf task) := by
      rcases hsame with h | h <;> rw [h] at hcompleted
      · cases hcompleted
      · exact hold hcompleted
    cases h : patch.metadata with
    | none => exact hevidence
    | some entries =>
      exact hevidence.spread (fun hmem => hplain entries h _ hmem (by decide))
        fun hmem => hplain entries h _ hmem (by decide)
  · intro hopen
    rcases hsame with h | h <;> rw [h] at hopen
    · simp at hopen
    · exact .inl (by simpa [isOpen] using hopen)

/-- A patch of plain fields, under a status that does not complete or open the task. -/
theorem patchTask_plain {clock : ℕ → Clocks} {s s' : Session} {taskId : String} {patch : Patch}
    (h : s.patchTask clock taskId patch = .ok s')
    (hplain : ∀ entries, patch.metadata = some entries → Plain entries)
    (hstatus : patch.status = none ∨ patch.status = some .failed) :
    Writes reopens s.board s'.board :=
  perform_writes h fun _ _ =>
    plain_rewritten _ hplain (hstatus.elim .inl fun hfailed => .inr (.inl hfailed))

/-- The row of a task that is patched. -/
theorem patchTask_get {clock : ℕ → Clocks} {s s' : Session} {taskId : String} {task : Task}
    {patch : Patch} (htask : s.board.get taskId = some task)
    (h : s.patchTask clock taskId patch = .ok s') :
    s'.board.get taskId = some (Board.stored (clock s.saves).database task.createdAt
      (TaskManager.Call.apply (clock s.saves) task (.patchTask patch))) := by
  unfold Session.patchTask Session.perform at h
  rw [htask] at h
  obtain rfl := Except.ok.inj h
  have hid : (TaskManager.Call.apply (clock s.saves) task (.patchTask patch)).id = taskId :=
    (TaskManager.apply_fixed _ _ _).1.trans (Board.get_id htask)
  rw [Session.save, Board.get_save _ (hid ▸ htask), if_pos hid.symm]

end ManageTask
end Batiste
