import Batiste.ActionWrites
import Batiste.MergeContents

/-! Runs of creations and merges: the parents stay a forest, and a merge loses nothing. -/
namespace Batiste
namespace ManageTask

open TaskActions TaskMerge
open TaskReconciler (Records)

def parentOf (b : Board) (id : String) : Option String := (b.get id).bind Task.parentId

/-- A board whose parents form a forest, and whose states and links hold texts. -/
structure Grown (b : Board) : Prop where
  named : ∀ row ∈ b.rows, row.id ≠ ""
  above : ∀ row ∈ b.rows, ∀ parentId, row.parentId = some parentId → (b.get parentId).isSome
  acyclic : Forest.Acyclic (parentOf b)
  textual : ∀ row ∈ b.rows, Textual row

/-! ## Rows apart from their times -/

section Change

variable {b c : Board} {f : Task → Task} (hids : ∀ row, (f row).id = row.id)
  (hrows : c.rows.map timeless = (b.rows.map timeless).map f)

include hids hrows

theorem get_changed (id : String) :
    (c.get id).map timeless = (b.get id).map fun row => f (timeless row) := by
  have hfind : ∀ (rows : List Task) (g : Task → Task), (∀ row, (g row).id = row.id) →
      (rows.find? fun row => row.id == id).map g =
        (rows.map g).find? fun row => row.id == id := by
    intro rows g hg
    rw [List.find?_map]
    congr 1
    refine congrArg (fun p => rows.find? p) (funext fun row => ?_)
    simp [hg]
  rw [Board.get, hfind _ timeless fun _ => rfl, hrows, ← hfind _ f hids, ← hfind _ timeless fun _ => rfl,
    Option.map_map]
  rfl

omit hids in
theorem mem_changed {row : Task} (hrow : row ∈ c.rows) :
    ∃ old ∈ b.rows, timeless row = f (timeless old) := by
  have hmem : timeless row ∈ (b.rows.map timeless).map f := hrows ▸ List.mem_map_of_mem hrow
  obtain ⟨_, hmid, hold⟩ := List.mem_map.mp hmem
  obtain ⟨old, hmem, rfl⟩ := List.mem_map.mp hmid
  exact ⟨old, hmem, hold.symm⟩

theorem parentOf_changed (id : String) :
    parentOf c id = (b.get id).bind fun row => (f (timeless row)).parentId := by
  have hget := get_changed hids hrows id
  unfold parentOf
  cases hc : c.get id with
  | none =>
    rw [hc] at hget
    rw [Option.map_eq_none_iff.mp hget.symm]
    rfl
  | some row =>
    rw [hc] at hget
    obtain ⟨old, hold, hrow⟩ := Option.map_eq_some_iff.mp hget.symm
    rw [hold, Option.bind_some, Option.bind_some, hrow]
    rfl

/-- A change that keeps the parents a forest and the texts texts. -/
theorem grown_changed (hb : Grown b) (hacyclic : Forest.Acyclic (parentOf c))
    (habove : ∀ row ∈ b.rows, ∀ parentId, (f (timeless row)).parentId = some parentId →
      (b.get parentId).isSome)
    (htextual : ∀ row ∈ b.rows, Textual (f (timeless row))) : Grown c where
  named := by
    intro row hrow
    obtain ⟨old, hold, heq⟩ := mem_changed hrows hrow
    have hid : row.id = old.id := (congrArg Task.id heq).trans (hids _)
    exact hid ▸ hb.named old hold
  above := by
    intro row hrow parentId hparent
    obtain ⟨old, hold, heq⟩ := mem_changed hrows hrow
    have hsome := habove old hold parentId ((congrArg Task.parentId heq).symm.trans hparent)
    have hget := congrArg Option.isSome (get_changed hids hrows parentId)
    rw [Option.isSome_map, Option.isSome_map] at hget
    rw [hget]
    exact hsome
  acyclic := hacyclic
  textual := by
    intro row hrow
    obtain ⟨old, hold, heq⟩ := mem_changed hrows hrow
    have htimeless : Textual (timeless row) := heq ▸ htextual old hold
    exact htimeless

end Change

/-! ## The walk up the parents -/

theorem meetsSource_eq {b : Board} (hb : Grown b) (sourceId : String) (fuel : ℕ)
    (seen : List String) {task : Task} (htask : task ∈ b.rows) :
    meetsSource b.rows sourceId fuel seen (some task) =
      Forest.leadsTo (parentOf b) sourceId fuel seen (some task.id) := by
  induction fuel generalizing seen task with
  | zero => rfl
  | succ fuel ih =>
    have hparent : parentOf b task.id = task.parentId := by
      rw [parentOf, Board.get_of_mem htask, Option.bind_some]
    rw [meetsSource, Forest.leadsTo, hparent]
    split
    · rfl
    · split
      · rfl
      · cases habove : task.parentId with
        | none => cases fuel <;> rfl
        | some parentId =>
          obtain ⟨parent, hget⟩ := Option.isSome_iff_exists.mp (hb.above task htask parentId habove)
          have hfind : (b.rows.find? fun row => decide (row.id = parentId)) = some parent := by
            rw [← hget]
            rfl
          rw [Option.bind_some, hfind, ih _ (Board.get_mem hget), Board.get_id hget]

/-- A merge that is not cyclic leaves no path from the target to the source. -/
theorem not_descends {b : Board} (hb : Grown b) {sourceId : String} {target : Task}
    (htarget : target ∈ b.rows)
    (hmeets : meetsSource b.rows sourceId (b.rows.length + 1) [] (some target) = false) :
    ¬ Forest.Descends (parentOf b) target.id sourceId := by
  intro hdescends
  have hnodes : ∀ a above, parentOf b a = some above → above ∈ "" :: b.rows.map Task.id := by
    intro a above h
    obtain ⟨row, hrow, hparent⟩ := Option.bind_eq_some_iff.mp h
    obtain ⟨parent, hget⟩ :=
      Option.isSome_iff_exists.mp (hb.above row (Board.get_mem hrow) above hparent)
    exact List.mem_cons_of_mem _
      (List.mem_map.mpr ⟨parent, Board.get_mem hget, Board.get_id hget⟩)
  have hleads := Forest.leadsTo_of_reaches hb.acyclic hnodes
    (List.mem_cons_of_mem "" (List.mem_map_of_mem htarget)) hdescends.to_reflTransGen
  rw [List.length_cons, List.length_map, ← meetsSource_eq hb sourceId _ _ htarget, hmeets] at hleads
  cases hleads

/-! ## Merges -/

section Merge

variable {h : Handler} {host : CallHost} {args : TaskArgs} {s s' : Session} {reply : Reply}

/-- The rows that a merge reparents are the children of the source. -/
theorem mem_reparent {b : Board} {source target row : Task} (hrow : row ∈ b.rows)
    (htarget : target.parentId ≠ some source.id) (hmem : target ∈ b.rows) :
    row.id ∈ (((b.rows.filter fun task => task.parentId = some source.id).filter
        fun child => child.id ≠ target.id).map Task.id) ↔ row.parentId = some source.id := by
  simp only [List.mem_map, List.mem_filter, decide_eq_true_eq]
  constructor
  · rintro ⟨child, ⟨⟨hchild, hparent⟩, -⟩, hid⟩
    rwa [← List.inj_on_of_nodup_map b.nodup hchild hrow hid]
  · intro hparent
    refine ⟨row, ⟨⟨hrow, hparent⟩, fun hid => ?_⟩, rfl⟩
    rw [List.inj_on_of_nodup_map b.nodup hrow hmem hid] at hparent
    exact htarget hparent

theorem mergedRow_parent (plan : MergePlan) (sourceId targetId : String) (row : Task) :
    (mergedRow plan sourceId targetId row).parentId =
      if row.id ∈ plan.reparent then readParent (some targetId) else row.parentId := by
  have hhalf : (halfMerged plan targetId plan.reparent row).parentId =
      if row.id ∈ plan.reparent then readParent (some targetId) else row.parentId := by
    by_cases hmem : row.id ∈ plan.reparent
    · simp only [halfMerged, if_pos hmem]
    · simp only [halfMerged, if_neg hmem]
      split
      · exact patched_parent _ _
      · rfl
  unfold mergedRow
  split
  · exact (patched_parent _ _).trans hhalf
  · exact hhalf

theorem mergedRow_id (plan : MergePlan) (sourceId targetId : String) (row : Task) :
    (mergedRow plan sourceId targetId row).id = row.id := by
  have hhalf := halfMerged_id plan targetId plan.reparent row
  unfold mergedRow
  split
  · exact (patched_id _ _).trans hhalf
  · exact hhalf

theorem mergedRow_meta (plan : MergePlan) {sourceId targetId : String} (hne : sourceId ≠ targetId)
    (row : Task) : metaOf (mergedRow plan sourceId targetId row) =
      if row.id = sourceId then (metaOf row).spread plan.sourcePatch
      else if row.id = targetId then (metaOf row).spread plan.targetPatch
      else metaOf row := by
  have hhalf : metaOf (halfMerged plan targetId plan.reparent row) =
      if row.id = targetId then (metaOf row).spread plan.targetPatch else metaOf row := by
    by_cases hmem : row.id ∈ plan.reparent
    · simp only [halfMerged, if_pos hmem]
      split <;> rfl
    · simp only [halfMerged, if_neg hmem]
      split <;> rfl
  unfold mergedRow
  by_cases hsource : row.id = sourceId
  · rw [if_pos hsource, if_pos hsource]
    rw [if_neg (hsource ▸ hne)] at hhalf
    exact congrArg (fun fields => Dict.spread fields plan.sourcePatch) hhalf
  · rw [if_neg hsource, if_neg hsource]
    exact hhalf

/-- A merge changes nothing, or carries its plan out. -/
theorem applyMerge_cases {source target : Task} {reason : Option String}
    (hmerge : applyMerge h host source target reason s = .ok (s', reply)) :
    (s' = s ∧ reply = .alreadyMerged source.id target.id) ∨
      ∃ plan, planMerge h.rt.numberText
          (mergeInput host source target reason s.board.rows) = .ok plan ∧
        plan.alreadyMerged = false ∧
        (mergeWrites plan).foldlM (mergeWrite host plan source.id target.id) s = .ok s' ∧
        reply = .merged source.id target.id plan.reparent plan.notesAppended := by
  obtain ⟨plan, hplan, hmerge⟩ := bind_ok_iff.mp hmerge
  split at hmerge
  · cases hmerge
    exact .inl ⟨rfl, rfl⟩
  · next hnew =>
    obtain ⟨merged, hmerged, hmerge⟩ := bind_ok_iff.mp hmerge
    cases hmerge
    exact .inr ⟨plan, mapError_ok_iff.mp hplan, by simpa using hnew, mapError_ok_iff.mp hmerged, rfl⟩

theorem sourcePatch_keys (inp : MergeInput) {key : String} (hkey : key ∈ ["state", "links"]) :
    key ∉ (sourcePatch inp).map Prod.fst := by
  have hkeys : ((sourcePatch inp).map Prod.fst).Sublist
      ["obsolete", "mergedInto", "mergeReason"] := by
    rw [sourcePatch, List.map_append]
    exact List.Sublist.append (List.Sublist.refl ["obsolete", "mergedInto"]) (field_keys _ _)
  have hall : ∀ key ∈ ["state", "links"], key ∉ ["obsolete", "mergedInto", "mergeReason"] := by
    decide
  exact fun hmem => hall key hkey (hkeys.subset hmem)

/-- A merge that is carried out, on a board that creations and merges have made. -/
structure Merging (h : Handler) (host : CallHost) (reason : Option String) (source target : Task)
    (plan : MergePlan) (s s' : Session) : Prop where
  grown : Grown s.board
  getSource : s.board.get source.id = some source
  getTarget : s.board.get target.id = some target
  planned : planMerge h.rt.numberText
    (mergeInput host source target reason s.board.rows) = .ok plan
  isNew : plan.alreadyMerged = false
  writes : (mergeWrites plan).foldlM (mergeWrite host plan source.id target.id) s = .ok s'

namespace Merging

variable {reason : Option String} {source target : Task} {plan : MergePlan}
  (hm : Merging h host reason source target plan s s')

include hm

theorem ne : source.id ≠ target.id := (planMerge_ok hm.planned hm.isNew).1

theorem plan_eq : plan.targetPatch = targetPatch h.rt.numberText
      (mergeInput host source target reason s.board.rows) ∧
    plan.sourcePatch = sourcePatch (mergeInput host source target reason s.board.rows) ∧
    plan.reparent = ((s.board.rows.filter fun task => task.parentId = some source.id).filter
      fun child => child.id ≠ target.id).map Task.id := by
  rw [(planMerge_ok hm.planned hm.isNew).2.2.2.2]
  exact ⟨rfl, rfl, rfl⟩

theorem rows : s'.board.rows.map timeless =
    (s.board.rows.map timeless).map (mergedRow plan source.id target.id) :=
  merge_timeless hm.writes

theorem outside : ¬ Forest.Descends (parentOf s.board) target.id source.id :=
  not_descends hm.grown (Board.get_mem hm.getTarget) (planMerge_ok hm.planned hm.isNew).2.2.2.1

theorem child_parent {row : Task} (hrow : row ∈ s.board.rows) :
    (mergedRow plan source.id target.id (timeless row)).parentId =
      if row.parentId = some source.id then some target.id else row.parentId := by
  have hmem := Board.get_mem hm.getTarget
  have hparent : target.parentId ≠ some source.id := by
    intro hchild
    refine hm.outside (Relation.TransGen.single ?_)
    rw [parentOf, hm.getTarget, Option.bind_some, hchild]
  have hread : readParent (some target.id) = some target.id := by
    simp [readParent, hm.grown.named target hmem]
  have hchild := mem_reparent hrow hparent hmem
  rw [mergedRow_parent, hread, hm.plan_eq.2.2]
  exact if_congr hchild rfl rfl

theorem parents : parentOf s'.board = Forest.redirect (parentOf s.board) source.id target.id := by
  funext id
  rw [parentOf_changed (mergedRow_id plan source.id target.id) hm.rows]
  cases hget : s.board.get id with
  | none => simp [Forest.redirect, parentOf, hget]
  | some row =>
    rw [Option.bind_some, hm.child_parent (Board.get_mem hget)]
    simp [Forest.redirect, parentOf, hget]

theorem meta_eq (row : Task) : metaOf (mergedRow plan source.id target.id (timeless row)) =
    if row.id = source.id then (metaOf row).spread plan.sourcePatch
    else if row.id = target.id then (metaOf row).spread plan.targetPatch
    else metaOf row := mergedRow_meta plan hm.ne (timeless row)

theorem target_meta : metaOf (mergedRow plan source.id target.id (timeless target)) =
    (metaOf target).spread (targetPatch h.rt.numberText
      (mergeInput host source target reason s.board.rows)) := by
  rw [hm.meta_eq, if_neg (Ne.symm hm.ne), if_pos rfl, hm.plan_eq.1]

theorem target_textual : Textual target := hm.grown.textual target (Board.get_mem hm.getTarget)

theorem source_textual : Textual source := hm.grown.textual source (Board.get_mem hm.getSource)

theorem textual {row : Task} (hrow : row ∈ s.board.rows) :
    Textual (mergedRow plan source.id target.id (timeless row)) := by
  by_cases hsource : row.id = source.id
  · intro key hkey e he
    rw [metaAt, hm.meta_eq, if_pos hsource, hm.plan_eq.2.1,
      Dict.get?_spread_of_not_mem _ (sourcePatch_keys _ hkey)] at he
    exact hm.grown.textual row hrow key hkey e he
  by_cases htarget : row.id = target.id
  · obtain rfl := List.inj_on_of_nodup_map s.board.nodup hrow (Board.get_mem hm.getTarget) htarget
    exact @merged_textual _ (mergeInput host source row reason s.board.rows) _ hm.target_meta
      hm.target_textual hm.source_textual
  · intro key hkey e he
    rw [metaAt, hm.meta_eq, if_neg hsource, if_neg htarget] at he
    exact hm.grown.textual row hrow key hkey e he

/-- The parents are a forest again. -/
theorem grown' : Grown s'.board := by
  refine grown_changed (mergedRow_id plan source.id target.id) hm.rows hm.grown ?_ ?_
    fun row hrow => hm.textual hrow
  · rw [hm.parents]
    exact Forest.acyclic_redirect hm.grown.acyclic hm.outside
  · intro row hrow parentId habove
    rw [hm.child_parent hrow] at habove
    split at habove
    · rw [← Option.some.inj habove, hm.getTarget]
      rfl
    · exact hm.grown.above row hrow parentId habove

/-- The source has no children left. -/
theorem childless {row : Task} (hrow : row ∈ s'.board.rows) : row.parentId ≠ some source.id := by
  intro hchild
  obtain ⟨old, hold, heq⟩ := mem_changed hm.rows hrow
  have hparent : (timeless row).parentId = some source.id := hchild
  rw [heq, hm.child_parent hold] at hparent
  split at hparent
  · exact hm.ne (Option.some.inj hparent).symm
  · next hother => exact hother hparent

/-- The target has what the source had. -/
theorem absorbed : ∃ merged, s'.board.get target.id = some merged ∧
    Absorbed source target merged := by
  have hget := get_changed (mergedRow_id plan source.id target.id) hm.rows target.id
  rw [hm.getTarget, Option.map_some] at hget
  obtain ⟨merged, hmerged, htimeless⟩ := Option.map_eq_some_iff.mp hget
  have hmeta : metaOf merged = _ := (congrArg metaOf htimeless).trans hm.target_meta
  exact ⟨merged, hmerged,
    @merged_absorbed _ (mergeInput host source target reason s.board.rows) _ hmeta
      hm.target_textual hm.source_textual⟩

end Merging

end Merge

/-! ## Creations -/

section Create

variable {h : Handler} {host : CallHost} {args : TaskArgs} {s s' : Session}

/-- The values of a state and of links that are sent are texts. -/
def Texts (args : TaskArgs) : Prop :=
  ∀ fields, args.state = some fields ∨ args.links = some fields →
    ∀ e ∈ fields, ∃ text, e.2 = Json.string text

theorem fieldsAt_texts {normalized fields : Dict Json} {key : String} {keys : List String}
    (hfields : fieldsAt normalized key keys = some fields) :
    ∀ e ∈ fields, ∃ text, e.2 = .string text := by
  unfold fieldsAt at hfields
  split at hfields
  · obtain rfl := Option.some.inj hfields
    intro e he
    obtain ⟨k, -, hk⟩ := List.mem_filterMap.mp he
    split at hk
    · next text _ =>
      obtain rfl := Option.some.inj hk
      exact ⟨text, rfl⟩
    · cases hk
  · cases hfields

theorem request_texts {raw : Dict Json} {action : TaskAction}
    (hrequest : request h host raw = some (action, args)) : Texts args := by
  obtain ⟨normalized, -, -, hvalid⟩ := request_ok hrequest
  unfold validateInput at hvalid
  simp only at hvalid
  split at hvalid
  · cases hvalid
  · obtain rfl := Except.ok.inj hvalid
    rintro fields (hstate | hlinks)
    · exact fieldsAt_texts hstate
    · exact fieldsAt_texts hlinks

/-- A new row has the texts that were sent. -/
theorem inserted_textual {b c : Board} {new : Task} (hnew : Inserted h host args b c new)
    (hargs : Texts args) : Textual new := by
  intro key hkey e he
  have hmem : ∃ fields, (args.state = some fields ∨ args.links = some fields) ∧ e ∈ fields := by
    rcases List.mem_pair.mp hkey with rfl | rfl
    · simp only [metaAt, hnew.fields, createMeta, structured, newState, Dict.get?_append,
        get?_field] at he
      cases hstate : args.state with
      | none => simp [hstate, fieldsOf] at he
      | some state =>
        simp only [hstate, if_true, Option.map_some, Option.some_or, fieldsOf] at he
        exact ⟨state, .inl rfl, (Dict.mem_spread he).resolve_left (by simp)⟩
    · simp only [metaAt, hnew.fields, createMeta, structured, Dict.get?_append, get?_field] at he
      cases hlinks : args.links with
      | none => simp [hlinks, fieldsOf] at he
      | some links =>
        simp only [hlinks, if_true, Option.map_some, fieldsOf] at he
        have hspread : e ∈ Dict.spread [] links ∧ ¬ e.2 = .string "" := by simpa using he
        exact ⟨links, .inr rfl, (Dict.mem_spread hspread.1).resolve_left (by simp)⟩
  obtain ⟨fields, hfields, hmem⟩ := hmem
  exact hargs fields hfields e hmem

/-- A new row whose id is new hangs under a task that exists. -/
theorem grown_inserted {b c : Board} {new : Task} (hb : Grown b)
    (hnew : Inserted h host args b c new) (hargs : Texts args) (hfresh : b.get host.uuid = none)
    (hnamed : host.uuid ≠ "") : Grown c := by
  have hparents : parentOf c = Function.update (parentOf b) host.uuid new.parentId := by
    funext id
    rw [parentOf, hnew.get]
    by_cases hid : id = host.uuid
    · rw [if_pos hid, hid, Function.update_self, Option.bind_some]
    · rw [if_neg hid, Function.update_of_ne hid, parentOf]
  have hrow : ∀ row ∈ c.rows, row = new ∨ row ∈ b.rows := by
    intro row hrow
    have hget := Board.get_of_mem hrow
    rw [hnew.get] at hget
    split at hget
    · exact .inl (Option.some.inj hget).symm
    · exact .inr (Board.get_mem hget)
  have hkeeps : ∀ id, (b.get id).isSome → (c.get id).isSome := by
    intro id hsome
    rw [hnew.get]
    split
    · rfl
    · exact hsome
  constructor
  case named =>
    intro row hmem
    rcases hrow row hmem with rfl | hold
    · exact hnew.id ▸ hnamed
    · exact hb.named row hold
  case above =>
    intro row hmem parentId hparent
    rcases hrow row hmem with rfl | hold
    · exact hkeeps parentId (hnew.above parentId hparent)
    · exact hkeeps parentId (hb.above row hold parentId hparent)
  case acyclic =>
    rw [hparents]
    refine Forest.acyclic_update hb.acyclic (fun id habove => ?_) fun habove => ?_
    · obtain ⟨row, hget, hparent⟩ := Option.bind_eq_some_iff.mp habove
      have hsome := hb.above row (Board.get_mem hget) _ hparent
      rw [hfresh] at hsome
      cases hsome
    · have hsome := hnew.above _ habove
      rw [hfresh] at hsome
      cases hsome
  case textual =>
    intro row hmem
    rcases hrow row hmem with rfl | hold
    · exact inserted_textual hnew hargs
    · exact hb.textual row hold

/-- A task that takes the place of a new one gets texts only. -/
theorem absorbed_textual (h : Handler) (host : CallHost) (label : String) (score : ℚ) {task : Task}
    (htask : Textual task) (hargs : Texts args) :
    Textual (patched { metadata := some (absorbPatch h host args label score (metaOf task)) }
      (timeless task)) := by
  have hkeys : ((absorbPatch h host args label score (metaOf task)).map Prod.fst).Sublist
      ["notes", "links", "tags"] := absorbPatch_keys h host args label score _
  intro key hkey e he
  change e ∈ fieldsOf (Dict.get? (Dict.spread (metaOf task)
    (absorbPatch h host args label score (metaOf task))) key) at he
  rw [Dict.get?_spread_of_nodup _ (List.Nodup.sublist hkeys (by decide))] at he
  rcases List.mem_pair.mp hkey with rfl | rfl
  · simp only [absorbPatch, Dict.get?_append, get?_field] at he
    exact htask "state" (by simp) e (by simpa [metaAt] using he)
  · simp only [absorbPatch, Dict.get?_append, get?_field] at he
    cases hlinks : args.links with
    | none => exact htask "links" (by simp) e (by simpa [hlinks, metaAt] using he)
    | some links =>
      have hspread : e ∈ Dict.spread links (fieldsOf (Dict.get? (metaOf task) "links")) := by
        simpa [hlinks, fieldsOf] using he
      rcases Dict.mem_spread hspread with hmem | hmem
      · exact hargs links (.inr hlinks) e hmem
      · exact htask "links" (by simp) e hmem

/-- A task that takes the place of a new one keeps its parent. -/
theorem grown_absorbed {task : Task} {label : String} {score : ℚ} (hs : Grown s.board)
    (htask : task ∈ s.board.rows) (hargs : Texts args)
    (hpatched : s.patchTask host.clock task.id
      { metadata := some (absorbPatch h host args label score (metaOf task)) } = .ok s') :
    Grown s'.board := by
  have hrows := patchTask_timeless hpatched
  have hids : ∀ row : Task, (if row.id = task.id then
      patched { metadata := some (absorbPatch h host args label score (metaOf task)) } row
      else row).id = row.id := by
    intro row
    split
    · exact patched_id _ _
    · rfl
  have hparent : ∀ row : Task, (if row.id = task.id then
      patched { metadata := some (absorbPatch h host args label score (metaOf task)) } row
      else row).parentId = row.parentId := by
    intro row
    split
    · exact patched_parent _ _
    · rfl
  refine grown_changed hids hrows hs ?_ ?_ ?_
  · have hparents : parentOf s'.board = parentOf s.board := by
      funext id
      rw [parentOf_changed hids hrows]
      exact congrArg (Option.bind (s.board.get id)) (funext fun row => hparent (timeless row))
    rw [hparents]
    exact hs.acyclic
  · intro row hrow parentId habove
    rw [hparent] at habove
    exact hs.above row hrow parentId habove
  · intro row hrow
    by_cases hid : row.id = task.id
    · obtain rfl := List.inj_on_of_nodup_map s.board.nodup hrow htask hid
      rw [if_pos (show (timeless row).id = row.id from rfl)]
      exact absorbed_textual h host label score (hs.textual row htask) hargs
    · rw [if_neg (show ¬ (timeless row).id = task.id from hid)]
      exact hs.textual row hrow

end Create

/-! ## Runs -/

/-- A call that creates a task or merges two, if it gets through. -/
def CreatesOrMerges (h : Handler) (call : CallHost × Dict Json) : Prop :=
  ∀ action, (request h call.1 call.2).map Prod.fst = some action →
    action = .create ∨ action = .merge

theorem merge_cases {h : Handler} {host : CallHost} {args : TaskArgs} {s s' : Session}
    {reply : Reply} (hs : Grown s.board) (hmerge : merge h host args s = .ok (s', reply)) :
    (s' = s ∧ ∃ sourceId targetId, reply = .alreadyMerged sourceId targetId) ∨
      ∃ source target plan, Merging h host args.reason source target plan s s' ∧
        reply = .merged source.id target.id plan.reparent plan.notesAppended := by
  obtain ⟨source, hsource, hmerge⟩ := bind_ok_iff.mp hmerge
  obtain ⟨target, htarget, hmerge⟩ := bind_ok_iff.mp hmerge
  rcases applyMerge_cases hmerge with ⟨rfl, hreply⟩ | ⟨plan, hplan, hnew, hwrites, hreply⟩
  · exact .inl ⟨rfl, _, _, hreply⟩
  · refine .inr ⟨source, target, plan, ⟨hs, ?_, ?_, hplan, hnew, hwrites⟩, hreply⟩
    · rw [Board.get_id (need_ok hsource), need_ok hsource]
    · rw [Board.get_id (need_ok htarget), need_ok htarget]

theorem rows_of_ids {b c : Board} (h : c.rows.map Task.id = b.rows.map Task.id) (uuid : String) :
    ∀ row ∈ c.rows, row.id = uuid ∨ row.id ∈ b.rows.map Task.id :=
  fun _ hrow => .inr (h ▸ List.mem_map_of_mem hrow)

/-- A creation or a merge keeps the forest, and adds no row but that of its own id. -/
theorem grown_call {h : Handler} {host : CallHost} {raw : Dict Json} {s : Records}
    (hs : Grown s.board) (hcall : CreatesOrMerges h (host, raw))
    (hfresh : s.board.get host.uuid = none) (hnamed : host.uuid ≠ "") :
    Grown (handleTool h host raw s).1.board ∧
      ∀ row ∈ (handleTool h host raw s).1.board.rows,
        row.id = host.uuid ∨ row.id ∈ s.board.rows.map Task.id := by
  rcases handleTool_cases h host raw s with ⟨-, heq⟩ | ⟨action, args, hrequest, heq⟩
  · rw [heq]
    exact ⟨hs, rows_of_ids rfl _⟩
  rw [heq]
  rcases hcall action (by rw [hrequest]; rfl) with rfl | rfl
  · cases hcreate : create h host args ⟨s.board, 0⟩ with
    | error failure =>
      simp only [manageTask, onBoard, hcreate, whole]
      exact ⟨hs, rows_of_ids rfl _⟩
    | ok out =>
      simp only [manageTask, onBoard, hcreate, whole]
      rcases create_cases hcreate with hsame | ⟨task, label, score, hpatched, htask⟩ |
        ⟨-, -, new, hnew⟩
      · rw [hsame]
        exact ⟨hs, rows_of_ids rfl _⟩
      · refine ⟨grown_absorbed hs htask (request_texts hrequest) hpatched, rows_of_ids ?_ _⟩
        have hwrites : Writes (fun _ => False) s.board out.1.board := patchTask_plain hpatched
          (by rintro _ ⟨⟩; exact plain_absorbPatch _ _ _ _ _ _) (.inl rfl)
        exact hwrites.ids
      · refine ⟨grown_inserted hs hnew (request_texts hrequest) hfresh hnamed, fun row hrow => ?_⟩
        have hget := Board.get_of_mem hrow
        rw [hnew.get] at hget
        split at hget
        · next hid => exact .inl hid
        · exact .inr (List.mem_map_of_mem (Board.get_mem hget))
  · cases hmerge : merge h host args ⟨s.board, 0⟩ with
    | error failure =>
      simp only [manageTask, onBoard, hmerge, whole]
      exact ⟨hs, rows_of_ids rfl _⟩
    | ok out =>
      simp only [manageTask, onBoard, hmerge, whole]
      rcases merge_cases hs hmerge with ⟨hsame, -⟩ | ⟨source, target, plan, hmerging, -⟩
      · rw [hsame]
        exact ⟨hs, rows_of_ids rfl _⟩
      · refine ⟨hmerging.grown', rows_of_ids ?_ _⟩
        have hwrites : Writes (fun _ => False) s.board out.1.board := merge_writes hmerge
        exact hwrites.ids

theorem grown_blank (lastSha : Option String) (evidence : List TaskReconciler.Evidence) :
    Grown (blank lastSha evidence).board where
  named := fun _ hrow => absurd hrow List.not_mem_nil
  above := fun _ hrow => absurd hrow List.not_mem_nil
  acyclic := Forest.acyclic_none
  textual := fun _ hrow => absurd hrow List.not_mem_nil

theorem grown_serve {h : Handler} {calls : List (CallHost × Dict Json)} {s : Records}
    (hs : Grown s.board) (hcalls : ∀ call ∈ calls, CreatesOrMerges h call)
    (hnamed : ∀ call ∈ calls, call.1.uuid ≠ "")
    (hfresh : (calls.map fun call => call.1.uuid).Nodup)
    (hrows : ∀ row ∈ s.board.rows, row.id ∉ calls.map fun call => call.1.uuid) :
    Grown (serve h s calls).board := by
  induction calls generalizing s with
  | nil => exact hs
  | cons call calls ih =>
    have hnew : s.board.get call.1.uuid = none := by
      by_contra hsome
      obtain ⟨row, hrow⟩ := Option.ne_none_iff_exists'.mp hsome
      exact hrows row (Board.get_mem hrow) (by simp [Board.get_id hrow])
    rw [List.map_cons, List.nodup_cons] at hfresh
    obtain ⟨hgrown, hids⟩ := grown_call hs (hcalls call List.mem_cons_self) hnew
      (hnamed call List.mem_cons_self)
    refine ih hgrown (fun next hnext => hcalls next (List.mem_cons_of_mem _ hnext))
      (fun next hnext => hnamed next (List.mem_cons_of_mem _ hnext)) hfresh.2 fun row hrow => ?_
    rcases hids row hrow with hid | hmem
    · exact hid ▸ hfresh.1
    · obtain ⟨old, hold, hid⟩ := List.mem_map.mp hmem
      exact hid ▸ fun hin => hrows old hold (List.mem_cons_of_mem _ hin)

/-- After any creations and merges on an empty board, each with an id of its own, the parents are
acyclic; and a merge that is then carried out leaves the source without children, keeps the notes
of the target first, and hands over what the source has. -/
theorem merge_loses_nothing (h : Handler) (lastSha : Option String)
    (evidence : List TaskReconciler.Evidence) (calls : List (CallHost × Dict Json))
    (hcalls : ∀ call ∈ calls, CreatesOrMerges h call)
    (hnamed : ∀ call ∈ calls, call.1.uuid ≠ "")
    (hfresh : (calls.map fun call => call.1.uuid).Nodup) :
    Forest.Acyclic (parentOf (serve h (blank lastSha evidence) calls).board) ∧
      ∀ (host : CallHost) (raw : Dict Json) (args : TaskArgs) (sourceId targetId : String)
        (reparented : List String) (notesAppended : ℕ),
        request h host raw = some (.merge, args) →
        (handleTool h host raw (serve h (blank lastSha evidence) calls)).2 =
          .ok (.merged sourceId targetId reparented notesAppended) →
        (∀ row ∈ (handleTool h host raw (serve h (blank lastSha evidence) calls)).1.board.rows,
          row.parentId ≠ some sourceId) ∧
        ∃ source target merged,
          (serve h (blank lastSha evidence) calls).board.get sourceId = some source ∧
          (serve h (blank lastSha evidence) calls).board.get targetId = some target ∧
          (handleTool h host raw (serve h (blank lastSha evidence) calls)).1.board.get targetId =
            some merged ∧
          Absorbed source target merged := by
  have hs := grown_serve (grown_blank lastSha evidence) hcalls hnamed hfresh
    fun row hrow => absurd hrow List.not_mem_nil
  refine ⟨hs.acyclic, ?_⟩
  generalize serve h (blank lastSha evidence) calls = s at hs
  intro host raw args sourceId targetId reparented notesAppended hrequest hreply
  rcases handleTool_cases h host raw s with ⟨hnone, -⟩ | ⟨action, args', hrequest', heq⟩
  · rw [hnone] at hrequest
    cases hrequest
  obtain ⟨rfl, rfl⟩ := Prod.mk.inj (Option.some.inj (hrequest.symm.trans hrequest'))
  rw [heq] at hreply ⊢
  cases hmerge : merge h host args ⟨s.board, 0⟩ with
  | error failure =>
    simp only [manageTask, onBoard, hmerge, whole] at hreply
    cases hreply
  | ok out =>
    simp only [manageTask, onBoard, hmerge, whole] at hreply ⊢
    rcases merge_cases hs hmerge with ⟨-, sourceId', targetId', hsame⟩ |
      ⟨source, target, plan, hmerging, hdone⟩
    · rw [hsame] at hreply
      cases hreply
    · rw [hdone] at hreply
      cases hreply
      obtain ⟨merged, hget, habsorbed⟩ := hmerging.absorbed
      exact ⟨fun row hrow => hmerging.childless hrow, source, target, merged, hmerging.getSource,
        hmerging.getTarget, hget, habsorbed⟩

def mergeCall (sourceId targetId : String) : Dict Json :=
  [("action", .string "merge"), ("sourceId", .string sourceId), ("targetId", .string targetId)]

/-- The two tasks and the notes of a merge that was carried out. -/
def mergedPair : Except Failure Reply → Option (String × String × List String × ℕ)
  | .ok (.merged sourceId targetId reparented notesAppended) =>
    some (sourceId, targetId, reparented, notesAppended)
  | _ => none

theorem reply_of_mergedPair {result : Except Failure Reply} {sourceId targetId : String}
    {reparented : List String} {notesAppended : ℕ}
    (h : mergedPair result = some (sourceId, targetId, reparented, notesAppended)) :
    result = .ok (.merged sourceId targetId reparented notesAppended) := by
  unfold mergedPair at h
  split at h
  · cases h
    rfl
  · cases h

theorem creates_of_request {h : Handler} {call : CallHost × Dict Json} {action : TaskAction}
    (hrequest : (request h call.1 call.2).map Prod.fst = some action)
    (haction : action = .create ∨ action = .merge) : CreatesOrMerges h call := by
  intro action' haction'
  obtain rfl := Option.some.inj (hrequest.symm.trans haction')
  exact haction

/-- Two tasks, the second below the first, are merged into one. -/
theorem merge_loses_nothing_two :
    ∃ source target merged,
      (serve plainHandler (blank none [])
        [(callAt 1 "a", createCall "deploy" ++ [("note", .string "first try")]),
          (callAt 2 "b", createCall "publish" ++ [("parentId", .string "a")])]).board.get "b" =
            some source ∧
      (serve plainHandler (blank none [])
        [(callAt 1 "a", createCall "deploy" ++ [("note", .string "first try")]),
          (callAt 2 "b", createCall "publish" ++ [("parentId", .string "a")])]).board.get "a" =
            some target ∧
      Absorbed source target merged := by
  have hcalls : ∀ call ∈ [(callAt 1 "a", createCall "deploy" ++ [("note", .string "first try")]),
      (callAt 2 "b", createCall "publish" ++ [("parentId", .string "a")])],
      CreatesOrMerges plainHandler call := by
    intro call hcall
    rcases List.mem_pair.mp hcall with rfl | rfl
    · exact creates_of_request (show _ = some TaskAction.create by decide +kernel) (.inl rfl)
    · exact creates_of_request (show _ = some TaskAction.create by decide +kernel) (.inl rfl)
  obtain ⟨-, hmerges⟩ := merge_loses_nothing plainHandler none []
    [(callAt 1 "a", createCall "deploy" ++ [("note", .string "first try")]),
      (callAt 2 "b", createCall "publish" ++ [("parentId", .string "a")])]
    hcalls (by decide +kernel) (by decide +kernel)
  obtain ⟨⟨action, args⟩, hrequest, haction⟩ := Option.map_eq_some_iff.mp
    (show (request plainHandler (callAt 3 "c") (mergeCall "b" "a")).map Prod.fst = some .merge by
      decide +kernel)
  obtain rfl : action = .merge := haction
  obtain ⟨-, source, target, merged, hsource, htarget, -, habsorbed⟩ := hmerges (callAt 3 "c")
    (mergeCall "b" "a") args "b" "a" [] 1 hrequest (reply_of_mergedPair (by decide +kernel))
  exact ⟨source, target, merged, hsource, htarget, habsorbed⟩

end ManageTask
end Batiste
