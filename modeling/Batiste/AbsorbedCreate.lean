import Batiste.ActionWrites
import Batiste.MergeContents

/-! A creation of `manage_task` that a similar open task takes the place of: what of the call
this task has afterwards. -/
namespace Batiste
namespace AbsorbedCreate

open JsonText TaskActions TaskMerge ManageTask
open TaskReconciler (Records)

/-- The texts of the notes of a task. -/
def noteTexts (task : Task) : List String := (textNotes task).map Prod.snd

def Occurs (text inside : String) : Prop := text.toList <:+: inside.toList

def Noted (notes : List String) (text : String) : Prop := ∃ note ∈ notes, Occurs text note

section Kept

variable (numberText : ℚ → String)

/-- One note has the key and the value. -/
def NotedEntry (notes : List String) (e : String × Json) : Prop :=
  ∃ note ∈ notes, Occurs e.1 note ∧ Occurs (valueText numberText e.2) note

/-- Each value of a call is in a field of the task or in the text of one of its notes. -/
structure Present (args : TaskArgs) (task : Task) : Prop where
  label : ∀ label, args.label = some label → task.label = label ∨ Noted (noteTexts task) label
  note : ∀ note, args.note = some note → Noted (noteTexts task) note
  state : ∀ state, args.state = some state → ∀ e ∈ state,
    Dict.get? (fieldsOf (metaAt task "state")) e.1 = some e.2 ∨
      NotedEntry numberText (noteTexts task) e
  links : ∀ links, args.links = some links → ∀ e ∈ links,
    Dict.get? (fieldsOf (metaAt task "links")) e.1 = some e.2 ∨
      NotedEntry numberText (noteTexts task) e
  tags : ∀ tags, args.tags = some tags → ∀ tag ∈ tags,
    .string tag ∈ itemsOf (metaAt task "tags") ∨ Noted (noteTexts task) tag
  phase : ∀ phase, args.phase = some phase →
    metaAt task "phase" = some (.string phase) ∨ Noted (noteTexts task) phase
  parentId : ∀ parentId, args.parentId = some parentId →
    task.parentId = some parentId ∨ Noted (noteTexts task) parentId

/-- A value that has what the old one had. -/
def Retains : Json → Json → Prop
  | .null, _ => True
  | .array old, .array new => ∀ item ∈ old, item ∈ new
  | .object old, .object new =>
    ∀ key value, Dict.get? old key = some value → Dict.get? new key = some value
  | old, new => old = new

/-- The fields of the task are as they were, and its metadata has what it had. -/
structure Unremoved (old new : Task) : Prop where
  fixed : new.id = old.id ∧ new.label = old.label ∧ new.status = old.status ∧
    new.parentId = old.parentId ∧ new.createdAt = old.createdAt
  context : new.context.toolOutputs = old.context.toolOutputs ∧ new.context.rest = old.context.rest
  entries : ∀ key value, metaAt old key = some value →
    ∃ value', metaAt new key = some value' ∧ Retains value value'

def LosesNothing (args : TaskArgs) (old new : Task) : Prop :=
  Present numberText args new ∧ Unremoved old new

end Kept

/-- The text of the note that stands for the creation. -/
def absorbText (h : Handler) (host : CallHost) (args : TaskArgs) (label : String) (score : ℚ) :
    String :=
  "[create correlato " ++ host.nowIso ++ ", score " ++ h.rt.numberText score ++ "] " ++
    label ++ match args.note with
      | some note => if note = "" then "" else " — " ++ note
      | none => ""

/-- No value, or an array. -/
def Listed : Option Json → Prop
  | none | some .null | some (.array _) => True
  | _ => False

/-- No value, or an object in which no key is found twice. -/
def Keyed : Option Json → Prop
  | none | some .null => True
  | some (.object fields) => ∀ key, Dict.get? fields.reverse key = Dict.get? fields key
  | _ => False

/-- The state, the phase and the parent of the call are those of the task, and the task has no
other link under a key of the call, unless a note tells them; what the call writes over is of the
kind that it is read as. -/
structure Fits (h : Handler) (host : CallHost) (args : TaskArgs) (score : ℚ) (task : Task) :
    Prop where
  state : ∀ state, args.state = some state → ∀ e ∈ state,
    Dict.get? (fieldsOf (metaAt task "state")) e.1 = some e.2 ∨ NotedEntry h.rt.numberText
      (noteTexts task ++ [absorbText h host args (args.label.getD "") score]) e
  links : ∀ links, args.links = some links → ∀ e ∈ links,
    (∀ value, Dict.get? (fieldsOf (metaAt task "links")) e.1 = some value → value = e.2) ∨
      NotedEntry h.rt.numberText
        (noteTexts task ++ [absorbText h host args (args.label.getD "") score]) e
  phase : ∀ phase, args.phase = some phase → metaAt task "phase" = some (.string phase) ∨
    Noted (noteTexts task ++ [absorbText h host args (args.label.getD "") score]) phase
  parentId : ∀ parentId, args.parentId = some parentId → task.parentId = some parentId ∨
    Noted (noteTexts task ++ [absorbText h host args (args.label.getD "") score]) parentId
  notesListed : Listed (metaAt task "notes")
  tagsListed : args.tags ≠ none → Listed (metaAt task "tags")
  linksKeyed : args.links ≠ none → Keyed (metaAt task "links")

/-! ## Values that are written over -/

theorem Retains.refl (value : Json) : Retains value value := by
  cases value <;> simp [Retains]

theorem retains_items {old : Option Json} {items : List Json}
    (hitems : ∀ item ∈ itemsOf old, item ∈ items) :
    (∀ value, old = some value → Retains value (.array items)) ↔ Listed old := by
  cases old with
  | none => simp [Listed]
  | some value => cases value <;> simp_all [Retains, Listed, itemsOf]

theorem Keyed.get?_reverse {old : Option Json} (h : Keyed old) (key : String) :
    Dict.get? (fieldsOf old).reverse key = Dict.get? (fieldsOf old) key := by
  cases old with
  | none => rfl
  | some value =>
    cases value with
    | object fields => exact h key
    | _ => rfl

theorem retains_spread (links : Dict Json) (old : Option Json) :
    (∀ value, old = some value → Retains value (.object (Dict.spread links (fieldsOf old)))) ↔
      Keyed old := by
  cases old with
  | none => simp [Keyed]
  | some value =>
    cases value with
    | object fields =>
      simp only [Option.some.injEq, forall_eq', Retains, Keyed, fieldsOf, Dict.get?_spread]
      constructor
      · intro hkept key
        cases hget : Dict.get? fields key with
        | none =>
          rw [Dict.get?_eq_none] at hget ⊢
          rwa [List.map_reverse, List.mem_reverse]
        | some value =>
          have hvalue := hkept key value hget
          cases hlast : Dict.get? fields.reverse key with
          | none =>
            rw [Dict.get?_eq_none, List.map_reverse, List.mem_reverse, ← Dict.get?_eq_none,
              hget] at hlast
            cases hlast
          | some last =>
            rwa [hlast, Option.some_or] at hvalue
      · intro hkeyed key value hget
        rw [hkeyed key, hget, Option.some_or]
    | _ => simp [Retains, Keyed]

/-! ## The task afterwards -/

section Absorbed

variable {h : Handler} {host : CallHost} {args : TaskArgs} {label : String} {score : ℚ}
variable {task new : Task}

/-- The note of the creation. -/
def absorbNote (h : Handler) (host : CallHost) (args : TaskArgs) (label : String) (score : ℚ) :
    Json :=
  .object [("at", .string host.nowIso), ("text", .string (absorbText h host args label score)),
    ("via", .string "create")]

theorem absorbPatch_eq (h : Handler) (host : CallHost) (args : TaskArgs) (label : String)
    (score : ℚ) (old : Dict Json) : absorbPatch h host args label score old =
      field "notes" (some (.array (itemsOf (old.get? "notes") ++
        [absorbNote h host args label score]))) ++
      field "links" (args.links.map fun links =>
        .object (Dict.spread links (fieldsOf (old.get? "links")))) ++
      field "tags" (args.tags.map fun tags =>
        .array (uniq (itemsOf (old.get? "tags") ++ tags.map Json.string))) := rfl

theorem absorbPatch_nodup (h : Handler) (host : CallHost) (args : TaskArgs) (label : String)
    (score : ℚ) (old : Dict Json) :
    ((absorbPatch h host args label score old).map Prod.fst).Nodup := by
  have hall : ["notes", "links", "tags"].Nodup := by decide
  exact hall.sublist (absorbPatch_keys h host args label score old)

/-- The row that the task becomes. -/
structure Absorbed (h : Handler) (host : CallHost) (args : TaskArgs) (label : String) (score : ℚ)
    (task new : Task) : Prop where
  fixed : new.id = task.id ∧ new.label = task.label ∧ new.status = task.status ∧
    new.parentId = task.parentId ∧ new.createdAt = task.createdAt
  context : new.context.toolOutputs = task.context.toolOutputs ∧
    new.context.rest = task.context.rest
  fields : metaOf new = Dict.spread (metaOf task)
    (absorbPatch h host args label score (metaOf task))

theorem Absorbed.metaAt_eq (hnew : Absorbed h host args label score task new) (key : String) :
    metaAt new key = (Dict.get? (absorbPatch h host args label score (metaOf task)) key).or
      (metaAt task key) := by
  rw [metaAt, hnew.fields, Dict.get?_spread_of_nodup _ (absorbPatch_nodup _ _ _ _ _ _)]
  rfl

theorem Absorbed.notes (hnew : Absorbed h host args label score task new) :
    metaAt new "notes" = some (.array (itemsOf (metaAt task "notes") ++
      [absorbNote h host args label score])) := by
  rw [hnew.metaAt_eq]
  simp [absorbPatch_eq, Dict.get?_append, get?_field, metaAt]

theorem Absorbed.links (hnew : Absorbed h host args label score task new) :
    metaAt new "links" = (args.links.map fun links =>
      .object (Dict.spread links (fieldsOf (metaAt task "links")))).or (metaAt task "links") := by
  rw [hnew.metaAt_eq]
  simp [absorbPatch_eq, Dict.get?_append, get?_field, metaAt]

theorem Absorbed.tags (hnew : Absorbed h host args label score task new) :
    metaAt new "tags" = (args.tags.map fun tags =>
      .array (uniq (itemsOf (metaAt task "tags") ++ tags.map Json.string))).or
        (metaAt task "tags") := by
  rw [hnew.metaAt_eq]
  simp [absorbPatch_eq, Dict.get?_append, get?_field, metaAt]

theorem Absorbed.other (hnew : Absorbed h host args label score task new) {key : String}
    (hkey : key ∉ ["notes", "links", "tags"]) : metaAt new key = metaAt task key := by
  obtain ⟨hnotes, hlinks, htags⟩ : "notes" ≠ key ∧ "links" ≠ key ∧ "tags" ≠ key := by
    refine ⟨?_, ?_, ?_⟩ <;> rintro rfl <;> simp at hkey
  rw [hnew.metaAt_eq]
  simp [absorbPatch_eq, Dict.get?_append, get?_field, hnotes, hlinks, htags]

theorem Absorbed.noteTexts_eq (hnew : Absorbed h host args label score task new) :
    noteTexts new = noteTexts task ++ [absorbText h host args label score] := by
  unfold noteTexts textNotes
  rw [hnew.notes]
  simp [itemsOf, absorbNote, Dict.get?_cons]

theorem Absorbed.unremoved_iff (hnew : Absorbed h host args label score task new) :
    Unremoved task new ↔ Listed (metaAt task "notes") ∧
      (args.tags ≠ none → Listed (metaAt task "tags")) ∧
        (args.links ≠ none → Keyed (metaAt task "links")) := by
  have hnotes : (∀ value, metaAt task "notes" = some value → ∃ value',
      metaAt new "notes" = some value' ∧ Retains value value') ↔ Listed (metaAt task "notes") := by
    simp only [hnew.notes, Option.some.injEq, exists_eq_left']
    exact retains_items fun item hitem => List.mem_append_left _ hitem
  have htags : (∀ value, metaAt task "tags" = some value → ∃ value',
      metaAt new "tags" = some value' ∧ Retains value value') ↔
        (args.tags ≠ none → Listed (metaAt task "tags")) := by
    rw [hnew.tags]
    cases args.tags with
    | none => simp +contextual [Retains.refl]
    | some tags =>
      simp only [Option.map_some, Option.some_or, Option.some.injEq, exists_eq_left', ne_eq,
        reduceCtorEq, not_false_eq_true, forall_const]
      exact retains_items fun item hitem => by
        simpa [uniq] using Or.inr hitem
  have hlinks : (∀ value, metaAt task "links" = some value → ∃ value',
      metaAt new "links" = some value' ∧ Retains value value') ↔
        (args.links ≠ none → Keyed (metaAt task "links")) := by
    rw [hnew.links]
    cases args.links with
    | none => simp +contextual [Retains.refl]
    | some links =>
      simp only [Option.map_some, Option.some_or, Option.some.injEq, exists_eq_left', ne_eq,
        reduceCtorEq, not_false_eq_true, forall_const]
      exact retains_spread links _
  constructor
  · intro hkept
    exact ⟨hnotes.mp (hkept.entries "notes"), htags.mp (hkept.entries "tags"),
      hlinks.mp (hkept.entries "links")⟩
  · rintro ⟨hlisted, htagged, hkeyed⟩
    refine ⟨hnew.fixed, hnew.context, fun key => ?_⟩
    by_cases hkey : key ∈ ["notes", "links", "tags"]
    · simp only [List.mem_cons, List.not_mem_nil, or_false] at hkey
      rcases hkey with rfl | rfl | rfl
      · exact hnotes.mpr hlisted
      · exact hlinks.mpr hkeyed
      · exact htags.mpr htagged
    · intro value hvalue
      exact ⟨value, (hnew.other hkey).trans hvalue, Retains.refl value⟩

/-- The label and the note stand in the note that is appended. -/
theorem Absorbed.noted_texts (hnew : Absorbed h host args label score task new) :
    Noted (noteTexts new) label ∧ ∀ note, args.note = some note → Noted (noteTexts new) note := by
  have hmem : absorbText h host args label score ∈ noteTexts new := by
    rw [hnew.noteTexts_eq]
    exact List.mem_append_right _ (List.mem_singleton.mpr rfl)
  refine ⟨⟨_, hmem, ?_⟩, fun note hnote => ⟨_, hmem, ?_⟩⟩
  · unfold Occurs absorbText
    simp only [String.toList_append]
    exact List.infix_append _ _ _
  · unfold Occurs absorbText
    rw [hnote]
    by_cases hempty : note = ""
    · simp [hempty]
    · simp only [hempty, if_false, String.toList_append]
      exact ((List.suffix_append _ _).trans (List.suffix_append _ _)).isInfix

/-- A link of the call is the task's, unless the task had another one. -/
theorem Absorbed.link_iff (hnew : Absorbed h host args label score task new) {links : Dict Json}
    (hlinks : args.links = some links) (hnodup : (links.map Prod.fst).Nodup)
    (hkeyed : Keyed (metaAt task "links")) {e : String × Json} (he : e ∈ links) :
    Dict.get? (fieldsOf (metaAt new "links")) e.1 = some e.2 ↔
      ∀ value, Dict.get? (fieldsOf (metaAt task "links")) e.1 = some value → value = e.2 := by
  rw [hnew.links, hlinks, Option.map_some, Option.some_or]
  change Dict.get? (Dict.spread links (fieldsOf (metaAt task "links"))) e.1 = some e.2 ↔ _
  rw [Dict.get?_spread, hkeyed.get?_reverse, Dict.get?_of_mem hnodup he]
  cases Dict.get? (fieldsOf (metaAt task "links")) e.1 <;> simp

theorem Absorbed.losesNothing_iff
    (hnew : Absorbed h host args (args.label.getD "") score task new)
    (hnodup : ∀ links, args.links = some links → (links.map Prod.fst).Nodup) :
    LosesNothing h.rt.numberText args task new ↔ Fits h host args score task := by
  have hstate : metaAt new "state" = metaAt task "state" := hnew.other (by decide)
  have hphase : metaAt new "phase" = metaAt task "phase" := hnew.other (by decide)
  have hlink : ∀ links, args.links = some links → Keyed (metaAt task "links") → ∀ e ∈ links,
      Dict.get? (fieldsOf (metaAt new "links")) e.1 = some e.2 ↔
        ∀ value, Dict.get? (fieldsOf (metaAt task "links")) e.1 = some value → value = e.2 :=
    fun links hlinks hkeyed _ he => hnew.link_iff hlinks (hnodup links hlinks) hkeyed he
  constructor
  · rintro ⟨hpresent, hunremoved⟩
    obtain ⟨hlisted, htagged, hkeyed⟩ := hnew.unremoved_iff.mp hunremoved
    refine ⟨?_, ?_, ?_, ?_, hlisted, htagged, hkeyed⟩
    · rw [← hstate, ← hnew.noteTexts_eq]
      exact hpresent.state
    · intro links hlinks e he
      rw [← hlink links hlinks (hkeyed (by simp [hlinks])) e he, ← hnew.noteTexts_eq]
      exact hpresent.links links hlinks e he
    · rw [← hphase, ← hnew.noteTexts_eq]
      exact hpresent.phase
    · rw [← hnew.fixed.2.2.2.1, ← hnew.noteTexts_eq]
      exact hpresent.parentId
  · intro hfits
    refine ⟨?_, hnew.unremoved_iff.mpr ⟨hfits.notesListed, hfits.tagsListed, hfits.linksKeyed⟩⟩
    refine ⟨fun label hlabel => ?_, hnew.noted_texts.2, ?_, ?_, ?_, ?_, ?_⟩
    · have hnoted := hnew.noted_texts.1
      rw [hlabel] at hnoted
      exact Or.inr hnoted
    · rw [hstate, hnew.noteTexts_eq]
      exact hfits.state
    · intro links hlinks e he
      rw [hlink links hlinks (hfits.linksKeyed (by simp [hlinks])) e he, hnew.noteTexts_eq]
      exact hfits.links links hlinks e he
    · intro tags htags tag htag
      refine Or.inl ?_
      rw [hnew.tags, htags]
      simp [itemsOf, uniq, htag]
    · rw [hphase, hnew.noteTexts_eq]
      exact hfits.phase
    · rw [hnew.fixed.2.2.2.1, hnew.noteTexts_eq]
      exact hfits.parentId

end Absorbed

/-! ## The call -/

section Call

variable {h : Handler} {host : CallHost} {raw : Dict Json} {args : TaskArgs} {s s' : Records}
variable {taskId : String} {score : ℚ}

/-- The parsed arguments of a field have the keys that the schema names. -/
theorem fieldsAt_keys {args : Dict Json} {key : String} {keys : List String} {fields : Dict Json}
    (hfields : fieldsAt args key keys = some fields) : (fields.map Prod.fst).Sublist keys := by
  unfold fieldsAt at hfields
  split at hfields
  · obtain rfl := Option.some.inj hfields
    induction keys with
    | nil => exact List.Sublist.refl _
    | cons key keys ih =>
      rw [List.filterMap_cons]
      split
      · next hnone => exact (ih rfl).cons key
      · next entry hsome =>
        have hkey : entry.1 = key := by
          split at hsome <;> cases hsome
          rfl
        rw [List.map_cons, hkey]
        exact (ih rfl).cons_cons key
  · cases hfields

theorem request_links {action : TaskAction} (hrequest : request h host raw = some (action, args))
    {links : Dict Json} (hlinks : args.links = some links) : (links.map Prod.fst).Nodup := by
  obtain ⟨normalized, warnings, -, hvalid⟩ := request_ok hrequest
  unfold validateInput at hvalid
  dsimp only at hvalid
  split at hvalid
  · cases hvalid
  · obtain rfl := Except.ok.inj hvalid
    have hall : LINK_KEYS.Nodup := by decide
    exact hall.sublist (fieldsAt_keys hlinks)

/-- A creation that is answered with another task patches that task. -/
theorem create_absorbed {s s' : Session}
    (hcreate : create h host args s = .ok (s', .absorbed taskId score)) :
    ∃ old new, s.board.get taskId = some old ∧ s'.board.get taskId = some new ∧
      Absorbed h host args (args.label.getD "") score old new := by
  simp only [create] at hcreate
  split at hcreate
  · cases hcreate
  split at hcreate
  · split at hcreate
    · cases hcreate
    · next task htask =>
      obtain ⟨patched, hpatched, hcreate⟩ := map_ok_iff.mp hcreate
      cases hcreate
      have hmem := List.mem_of_find?_eq_some htask
      have hget := Board.get_of_mem hmem
      refine ⟨task, _, hget, patchTask_get hget (mapError_ok_iff.mp hpatched), ?_⟩
      exact ⟨⟨rfl, rfl, rfl, s.board.parents task hmem, rfl⟩, ⟨rfl, rfl⟩, rfl⟩
  · obtain ⟨inserted, -, hcreate⟩ := map_ok_iff.mp hcreate
    cases hcreate

/-- A creation that is answered with a similar task loses nothing, exactly when what it says of
the state, the links, the phase and the parent fits this task. -/
theorem create_keeps_iff (hrequest : request h host raw = some (.create, args))
    (hreply : handleTool h host raw s = (s', .ok (.absorbed taskId score))) :
    ∃ old new, s.board.get taskId = some old ∧ s'.board.get taskId = some new ∧
      (LosesNothing h.rt.numberText args old new ↔ Fits h host args score old) := by
  rcases handleTool_cases h host raw s with ⟨hnone, -⟩ | ⟨action, args', hsome, hcall⟩
  · rw [hrequest] at hnone
    cases hnone
  · rw [hrequest] at hsome
    cases hsome
    rw [hreply] at hcall
    simp only [manageTask, onBoard] at hcall
    cases hcreate : create h host args ⟨s.board, 0⟩ with
    | error failure =>
      rw [hcreate] at hcall
      simp [whole] at hcall
    | ok result =>
      rw [hcreate] at hcall
      simp only [whole, Prod.mk.injEq, Except.ok.injEq] at hcall
      obtain ⟨rfl, hresult⟩ := hcall
      obtain ⟨session, reply⟩ := result
      obtain rfl : Reply.absorbed taskId score = reply := hresult
      obtain ⟨old, new, hold, hnew, habsorbed⟩ := create_absorbed hcreate
      exact ⟨old, new, hold, hnew,
        habsorbed.losesNothing_iff fun links hlinks => request_links hrequest hlinks⟩

end Call

/-! ## A phase that is lost -/

/-- The labels of the tasks below have the same words for the index. -/
def alike : Similarity :=
  { unlike with findSimilar := fun _ open_ => open_.map fun task => ⟨task.id, task.label, 1⟩ }

def alikeHandler : Handler := ⟨asciiRuntime, alike, "/repo"⟩

/-- The board with the task `deploy gateway`. -/
def gatewayBoard : Records :=
  (handleTool alikeHandler (callAt 1 "t1") (createCall "deploy gateway") (blank none [])).1

def publishCall : Dict Json := createCall "publicar gateway"

def builtCall : Dict Json := publishCall ++ [("phase", .string "built")]

def absorbedBy : Except Failure Reply → Option (String × ℚ)
  | .ok (.absorbed taskId score) => some (taskId, score)
  | _ => none

theorem absorbedBy_eq {reply : Except Failure Reply} {taskId : String} {score : ℚ}
    (h : absorbedBy reply = some (taskId, score)) : reply = .ok (.absorbed taskId score) := by
  unfold absorbedBy at h
  split at h
  · cases h
    rfl
  · cases h

theorem gateway_call {raw : Dict Json}
    (hargs : (request alikeHandler (callAt 2 "t2") raw).map Prod.fst = some .create)
    (habsorbed : absorbedBy (handleTool alikeHandler (callAt 2 "t2") raw gatewayBoard).2 =
      some ("t1", 1)) :
    ∃ args s', request alikeHandler (callAt 2 "t2") raw = some (.create, args) ∧
      handleTool alikeHandler (callAt 2 "t2") raw gatewayBoard =
        (s', .ok (.absorbed "t1" 1)) := by
  obtain ⟨⟨action, args⟩, hrequest, haction⟩ := Option.map_eq_some_iff.mp hargs
  obtain rfl : action = .create := haction
  exact ⟨args, _, hrequest, Prod.ext rfl (absorbedBy_eq habsorbed)⟩

theorem publish_kept :
    ∃ args s', request alikeHandler (callAt 2 "t2") publishCall = some (.create, args) ∧
      handleTool alikeHandler (callAt 2 "t2") publishCall gatewayBoard =
        (s', .ok (.absorbed "t1" 1)) ∧
      ∃ old new, gatewayBoard.board.get "t1" = some old ∧ s'.board.get "t1" = some new ∧
        (LosesNothing alikeHandler.rt.numberText args old new ↔
          Fits alikeHandler (callAt 2 "t2") args 1 old) := by
  obtain ⟨hargs, habsorbed⟩ :
      (request alikeHandler (callAt 2 "t2") publishCall).map Prod.fst = some .create ∧
      absorbedBy (handleTool alikeHandler (callAt 2 "t2") publishCall gatewayBoard).2 =
        some ("t1", 1) := by
    decide +kernel
  obtain ⟨args, s', hrequest, hreply⟩ := gateway_call hargs habsorbed
  exact ⟨args, s', hrequest, hreply, create_keeps_iff hrequest hreply⟩

/-- The task that takes the place of one in the phase `built` does not tell it. -/
theorem phase_untold :
    ¬ ∀ (h : Handler) (host : CallHost) (raw : Dict Json) (args : TaskArgs) (s s' : Records)
      (taskId : String) (score : ℚ) (old new : Task),
        request h host raw = some (.create, args) →
          handleTool h host raw s = (s', .ok (.absorbed taskId score)) →
            s.board.get taskId = some old → s'.board.get taskId = some new →
              LosesNothing h.rt.numberText args old new := by
  intro hall
  -- One evaluation of the call for all five.
  obtain ⟨hargs, habsorbed, hphase, htexts, hold⟩ :
      (request alikeHandler (callAt 2 "t2") builtCall).map Prod.fst = some .create ∧
      absorbedBy (handleTool alikeHandler (callAt 2 "t2") builtCall gatewayBoard).2 =
        some ("t1", 1) ∧
      (request alikeHandler (callAt 2 "t2") builtCall).bind (fun r => r.2.phase) = some "built" ∧
      ((handleTool alikeHandler (callAt 2 "t2") builtCall gatewayBoard).1.board.get
        "t1").map (fun task => (metaAt task "phase", noteTexts task)) =
          some (none, ["[create correlato 2, score 1] publicar gateway"]) ∧
      (gatewayBoard.board.get "t1").isSome = true := by
    decide +kernel
  obtain ⟨args, s', hrequest, hreply⟩ := gateway_call hargs habsorbed
  obtain ⟨old, hold⟩ := Option.isSome_iff_exists.mp hold
  rw [hreply] at htexts
  obtain ⟨new, hnew, hnotes⟩ := Option.map_eq_some_iff.mp htexts
  obtain ⟨hnone, hnotes⟩ := Prod.mk.inj hnotes
  rw [hrequest] at hphase
  have hpresent := (hall _ _ _ args _ s' _ _ old new hrequest hreply hold hnew).1.phase "built"
    hphase
  rw [hnone, hnotes] at hpresent
  rcases hpresent with hfield | ⟨note, hnote, hoccurs⟩
  · cases hfield
  · rw [List.mem_singleton.mp hnote] at hoccurs
    have hnot : ¬ "built".toList <:+: "[create correlato 2, score 1] publicar gateway".toList := by
      decide +kernel
    exact hnot hoccurs

end AbsorbedCreate
end Batiste
