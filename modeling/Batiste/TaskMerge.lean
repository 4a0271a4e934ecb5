import Batiste.Forest
import Batiste.Triage

/-! `planMerge` of `task-merge.ts`: what a merge of two tasks writes. -/
namespace Batiste
namespace TaskMerge

open JsonText TaskActions

structure MergeInput where
  source : Task
  target : Task
  /-- The children of the source. -/
  sourceChildren : List Task
  /-- The board that `getById` reads. -/
  all : List Task
  reason : Option String
  nowSec : ℤ
  nowIso : String

structure MergePlan where
  alreadyMerged : Bool
  targetPatch : Dict Json
  sourcePatch : Dict Json
  reparent : List String
  notesAppended : ℕ
  deriving DecidableEq

def isClosed (task : Task) : Bool := task.status == .completed || archived task

/-- The fields of a value that is an object. -/
def fieldsOf : Option Json → Dict Json
  | some (.object fields) => fields
  | _ => []

/-- The items of a value that is an array. -/
def itemsOf : Option Json → List Json
  | some (.array items) => items
  | _ => []

/-- A field, or no field. -/
def field (key : String) (value : Option Json) : Dict Json :=
  match value with
  | some value => [(key, value)]
  | none => []

/-- `xs.length ? { [key]: value(xs) } : {}` -/
def unlessEmpty {α : Type} [DecidableEq α] (key : String) (value : List α → Json) (xs : List α) :
    Dict Json :=
  if xs = [] then [] else [(key, value xs)]

def metaAt (task : Task) (key : String) : Option Json := Dict.get? (metaOf task) key

def phaseIdx (numberText : ℚ → String) (task : Task) : ℕ :=
  (PHASES.idxOf? (asText numberText (match metaAt task "phase" with
    | none | some .null => some (.string "todo")
    | phase => phase))).getD 0

/-- Whether the walk from a task up its parents meets the source; it ends at a task it has seen. -/
def meetsSource (all : List Task) (sourceId : String) : ℕ → List String → Option Task → Bool
  | 0, _, _ => false
  | _ + 1, _, none => false
  | fuel + 1, seen, some current =>
    if current.id = sourceId then true
    else if current.id ∈ seen then false
    else meetsSource all sourceId fuel (current.id :: seen)
      (current.parentId.bind fun parentId => all.find? fun task => task.id = parentId)

section Plan

variable (numberText : ℚ → String)

/-- The notes of the source that have a text, with their time. -/
def textNotes (source : Task) : List (Option Json × String) :=
  (itemsOf (metaAt source "notes")).filterMap fun
    | .object fields =>
      match Dict.get? fields "text" with
      | some (.string text) => some (Dict.get? fields "at", text)
      | _ => none
    | _ => none

def note (inp : MergeInput) (text : String) : Json :=
  .object [("at", .string inp.nowIso), ("text", .string text),
    ("mergedFrom", .string inp.source.id)]

/-- The reason, unless it is empty. -/
def givenReason (inp : MergeInput) : Option String := inp.reason.filter fun reason => reason ≠ ""

def header (inp : MergeInput) : Json :=
  let reason := match givenReason inp with
    | some reason => " — " ++ reason
    | none => ""
  note inp ("[mesclada de " ++ shortId inp.source.id ++ "] \"" ++ inp.source.label ++ "\"" ++ reason)

def movedNote (inp : MergeInput) (n : Option Json × String) : Json :=
  let time := match n.1 with
    | some at_ => if at_.truthy then " em " ++ valueText numberText at_ else ""
    | none => ""
  note inp ("[de " ++ shortId inp.source.id ++ time ++ "] " ++ n.2)

/-- A union of the fields in which the target wins, and the texts of the source's values that
lose.  `keeps` says that the target has a value of its own, and `same` that it is that of the
source. -/
def unite (keeps : Json → Bool) (same : Json → Json → Bool) (lost : String → Json → String)
    (source target : Dict Json) : Dict Json × List String :=
  source.foldl (fun acc e =>
    match acc.1.get? e.1 with
    | none => (acc.1.set e.1 e.2, acc.2)
    | some value =>
      if !keeps value then (acc.1.set e.1 e.2, acc.2)
      else if same value e.2 then acc
      else (acc.1, acc.2 ++ [lost e.1 e.2])) (target, [])

/-- An empty state value of the target gives way. -/
def uniteState (source target : Dict Json) : Dict Json × List String :=
  unite (fun value => decide (value ≠ .string ""))
    (fun a b => stringify numberText a = stringify numberText b)
    (fun key value => "state." ++ key ++ " da origem: " ++ match value with
      | .string text => text
      | value => stringify numberText value) source target

def uniteLinks (source target : Dict Json) : Dict Json × List String :=
  unite (fun _ => true) Json.strictEquals
    (fun key value => "links." ++ key ++ " da origem: " ++ valueText numberText value) source target

/-- `[...new Set(xs)]` -/
def uniq (xs : List Json) : List Json := xs.reverse.dedup.reverse

def stateOf (inp : MergeInput) : Dict Json × List String :=
  uniteState numberText (fieldsOf (metaAt inp.source "state"))
    (fieldsOf (metaAt inp.target "state"))

def linksOf (inp : MergeInput) : Dict Json × List String :=
  uniteLinks numberText (fieldsOf (metaAt inp.source "links"))
    (fieldsOf (metaAt inp.target "links"))

def unionAt (inp : MergeInput) (key : String) : List Json :=
  uniq (itemsOf (metaAt inp.target key) ++ itemsOf (metaAt inp.source key))

/-- The notes that a merge appends after the header. -/
def movedNotes (inp : MergeInput) : List Json :=
  let extra := (stateOf numberText inp).2 ++ (linksOf numberText inp).2
  let kept := if extra = [] then []
    else [note inp ("[de " ++ shortId inp.source.id ++ "] valores divergentes preservados: " ++
      "; ".intercalate extra)]
  (textNotes inp.source).map (movedNote numberText inp) ++ kept

def idOf : Json → Option Json
  | .object fields => Dict.get? fields "id"
  | _ => none

/-- The record of this merge in the target. -/
def mergedRecord (inp : MergeInput) : Json :=
  .object ([("id", .string inp.source.id), ("label", .string inp.source.label),
      ("at", .number inp.nowSec), ("status", .string (statusName inp.source.status))] ++
    field "reason" ((givenReason inp).map Json.string) ++
    [("notes", .number (textNotes inp.source).length)] ++
    unlessEmpty "carried" (fun carried => .array (carried.map fun m => (idOf m).getD .null))
      (itemsOf (metaAt inp.source "mergedFrom")))

/-- A record is added unless there is one of the same id. -/
def addRecord (records : List Json) (m : Json) : List Json :=
  if records.any fun x => idOf x = idOf m then records else records ++ [m]

def mergedFrom (inp : MergeInput) : List Json :=
  (mergedRecord inp :: itemsOf (metaAt inp.source "mergedFrom")).foldl addRecord
    (itemsOf (metaAt inp.target "mergedFrom"))

def targetPatch (inp : MergeInput) : Dict Json :=
  [("notes", .array (itemsOf (metaAt inp.target "notes") ++
      header inp :: movedNotes numberText inp)),
    ("mergedFrom", .array (mergedFrom inp))] ++
    unlessEmpty "state" Json.object (stateOf numberText inp).1 ++
    unlessEmpty "links" Json.object (linksOf numberText inp).1 ++
    unlessEmpty "tags" Json.array (unionAt inp "tags") ++
    unlessEmpty "refs" Json.array (unionAt inp "refs") ++
    field "phase" (if phaseIdx numberText inp.target < phaseIdx numberText inp.source then
      metaAt inp.source "phase" else none)

def sourcePatch (inp : MergeInput) : Dict Json :=
  [("obsolete", .object [("reason", .string ("mesclada em " ++ inp.target.id)),
      ("at", .number inp.nowSec)]),
    ("mergedInto", .string inp.target.id)] ++
    field "mergeReason" ((givenReason inp).map Json.string)

def sameTaskMessage : String :=
  "merge: sourceId e targetId sao a mesma tarefa. Exemplo: \x7b\"action\":\"merge\"," ++
    "\"sourceId\":\"<id-da-copia>\",\"targetId\":\"<id-que-fica>\"\x7d"

def planMerge (inp : MergeInput) : Except String MergePlan :=
  let source := inp.source
  let target := inp.target
  if source.id = target.id then .error sameTaskMessage
  else if isObsolete source ∧ metaAt source "mergedInto" = some (.string target.id) then
    .ok { alreadyMerged := true, targetPatch := [], sourcePatch := [], reparent := []
          notesAppended := 0 }
  else if isClosed source then
    .error ("merge: a origem " ++ source.id ++ " ja esta fechada (" ++ statusName source.status ++
      "); so se mescla tarefa aberta.")
  else if isClosed target then
    .error ("merge: o alvo " ++ target.id ++ " ja esta fechado (" ++ statusName target.status ++
      "); escolha um alvo aberto (ou reabra com update reopen:true).")
  else if !isOpen source || !isOpen target then
    .error "merge: origem e alvo precisam estar abertas (pending/running)."
  else if meetsSource inp.all source.id (inp.all.length + 1) [] (some target) then
    .error ("merge ciclico: o alvo " ++ target.id ++ " e descendente da origem " ++ source.id ++
      ". Mescle na outra direcao (origem e alvo trocados).")
  else .ok {
    alreadyMerged := false
    targetPatch := targetPatch numberText inp
    sourcePatch := sourcePatch inp
    reparent := (inp.sourceChildren.filter fun child => child.id ≠ target.id).map Task.id
    notesAppended := 1 + (movedNotes numberText inp).length }

end Plan

end TaskMerge
end Batiste
