import Batiste.JsonText
import Batiste.TaskManager

/-! The arguments of `manage_task`: what `normalizeTaskArgs` of `task-actions.ts` makes of them, and
what the schema `ManageTaskInput` lets through. -/
namespace Batiste
namespace TaskActions

open JsonText

inductive TaskAction
  | create | update | get | list | tree | clear | reconcile | stale
  | close | archive | renew | merge | triage | report
  deriving DecidableEq, Repr

def TASK_ACTIONS : List (String × TaskAction) :=
  [("create", .create), ("update", .update), ("get", .get), ("list", .list), ("tree", .tree),
    ("clear", .clear), ("reconcile", .reconcile), ("stale", .stale), ("close", .close),
    ("archive", .archive), ("renew", .renew), ("merge", .merge), ("triage", .triage),
    ("report", .report)]

def PHASES : List String := ["todo", "doing", "built", "deployed", "verified"]
def LABEL_MAX : ℕ := 120
def DAY : ℤ := 86400
def RENEW_MAX_DAYS : ℤ := 45
def RENEW_MIN_REASON : ℕ := 15
def RENEW_WARN_COUNT : ℚ := 2

structure ActionSpec where
  required : List String
  optional : List String
  /-- The first of its examples. -/
  example_ : String

def COMMON_META : List String := ["state", "links", "phase", "tags", "note"]

def ACTION_SPECS : TaskAction → ActionSpec
  | .create =>
    { required := ["label"]
      optional := ["parentId", "dedupeKey", "allowDuplicate"] ++ COMMON_META
      example_ := "\x7b\"action\":\"create\",\"label\":\"hefesto-pacote-segunda\",\"state\":\x7b" ++
        "\"next\":\"deploy\",\"gate\":\"prova-no-ar\"\x7d\x7d" }
  | .update =>
    { required := ["taskId"]
      optional := ["status", "label", "toolOutput", "proof", "reason", "reopen"] ++ COMMON_META
      example_ := "\x7b\"action\":\"update\",\"taskId\":\"<id>\",\"status\":\"running\",\"note\"" ++
        ":\"comecei o deploy\"\x7d" }
  | .get =>
    { required := ["taskId"]
      optional := []
      example_ := "\x7b\"action\":\"get\",\"taskId\":\"<id>\"\x7d" }
  | .list =>
    { required := []
      optional := ["status", "olderThanDays", "labelPrefix", "limit", "compact"]
      example_ := "\x7b\"action\":\"list\",\"status\":\"pending\",\"olderThanDays\":60,\"compact" ++
        "\":true,\"limit\":20\x7d" }
  | .tree =>
    { required := []
      optional := []
      example_ := "\x7b\"action\":\"tree\"\x7d" }
  | .clear =>
    { required := []
      optional := ["confirm"]
      example_ := "\x7b\"action\":\"clear\",\"confirm\":\"APAGAR 239 TAREFAS\"\x7d   // N = cont" ++
        "agem atual" }
  | .reconcile =>
    { required := []
      optional := ["since", "staleDays"]
      example_ := "\x7b\"action\":\"reconcile\"\x7d" }
  | .stale =>
    { required := []
      optional := ["staleDays", "runningStaleHours"]
      example_ := "\x7b\"action\":\"stale\",\"staleDays\":30\x7d" }
  | .close =>
    { required := ["taskId", "proof"]
      optional := ["links", "note"]
      example_ := "\x7b\"action\":\"close\",\"taskId\":\"<id>\",\"proof\":\"commit e36e6ef + pro" ++
        "va-no-ar verde https://x.cachola.tech/\"\x7d" }
  | .archive =>
    { required := ["taskId", "reason"]
      optional := ["note"]
      example_ := "\x7b\"action\":\"archive\",\"taskId\":\"<id>\",\"reason\":\"plano fora do ar;" ++
        " superado por X\"\x7d" }
  | .renew =>
    { required := ["taskId", "until", "reason"]
      optional := []
      example_ := "\x7b\"action\":\"renew\",\"taskId\":\"<id>\",\"until\":\"2026-12-01\",\"reaso" ++
        "n\":\"aguardando resposta do cliente\"\x7d" }
  | .merge =>
    { required := ["sourceId", "targetId"]
      optional := ["reason"]
      example_ := "\x7b\"action\":\"merge\",\"sourceId\":\"<id-da-copia>\",\"targetId\":\"<id-qu" ++
        "e-fica>\",\"reason\":\"mesma entrega, nomes diferentes\"\x7d" }
  | .triage =>
    { required := []
      optional := ["staleDays", "minGroup", "apply", "confirm"]
      example_ := "\x7b\"action\":\"triage\"\x7d" }
  | .report =>
    { required := []
      optional := ["months"]
      example_ := "\x7b\"action\":\"report\"\x7d" }

def ALL_KEYS : List String :=
  ["action", "taskId", "label", "parentId", "status", "toolOutput", "since", "staleDays",
    "runningStaleHours", "proof", "reason", "until", "reopen", "confirm", "apply", "minGroup",
    "olderThanDays", "labelPrefix", "limit", "compact", "months", "dedupeKey", "allowDuplicate",
    "help", "sourceId", "targetId"] ++ COMMON_META

def ALIASES : List (String × String) :=
  [("id", "taskId"), ("task_id", "taskId"), ("task", "taskId"), ("evidence", "proof"),
    ("motivo", "reason")]

/-! ## A guess at an unknown key -/

/-- The rest of a row, from the entry `left`; `prev` is the row above from the entry before it. -/
def levenshteinRow (a : Char) (left : ℕ) : List Char → List ℕ → List ℕ
  | b :: bs, diagonal :: up :: prev =>
    let here := min (min (up + 1) (left + 1)) (diagonal + if a = b then 0 else 1)
    left :: levenshteinRow a here bs (up :: prev)
  | _, _ => [left]

def levenshtein (a b : String) : ℕ :=
  let last := (a.toList.zipIdx 1).foldl (fun prev c => levenshteinRow c.1 c.2 b.toList prev)
    (List.range (b.toList.length + 1))
  last.getLast?.getD 0

/-- An alias, or the first of the closest keys at a distance below 3. -/
def didYouMean (lowerCase : String → String) (key : String) : Option String :=
  match ALIASES.find? fun pair => pair.1 = key with
  | some pair => some pair.2
  | none =>
    (ALL_KEYS.foldl (fun best k =>
      let d := levenshtein (lowerCase key) (lowerCase k)
      if d < best.2 then (some k, d) else best) (none, 3)).1

def exampleFor (action : TaskAction) : String := (ACTION_SPECS action).example_

/-! ## Normalisation -/

/-- What the language supplies: the text of a number, `toLowerCase`, `Date.parse` in milliseconds
and the first ten characters of `toISOString`, which a time out of range does not have. -/
structure Runtime where
  numberText : ℚ → String
  lowerCase : String → String
  parseDate : String → Option ℤ
  isoDay : ℤ → Option String

section Normalisation

variable (rt : Runtime)

def capUntil (iso : String) (now : ℤ) : Except String String :=
  match rt.parseDate iso with
  | none => .ok iso
  | some time =>
    let days := (time - now) / (DAY * 1000)
    if RENEW_MAX_DAYS < days then
      .error ("until " ++ iso ++ " esta " ++ rt.numberText days ++ " dias a frente; o teto do " ++
        "renew e " ++ rt.numberText RENEW_MAX_DAYS ++ " dias. Passou disso: arquive ou feche.")
    else .ok iso

/-- The number of `/^\+(\d+)d$/`. -/
def relativeDays (text : List Char) : Option ℕ :=
  match text with
  | '+' :: rest =>
    let digits := rest.takeWhile Char.isDigit
    if digits ≠ [] ∧ rest.dropWhile Char.isDigit = ['d'] then
      some (digits.foldl (fun n c => n * 10 + (c.toNat - 48)) 0)
    else none
  | _ => none

/-- `/^\d{4}-\d{2}-\d{2}$/` -/
def isDay (text : List Char) : Bool :=
  match text with
  | [a, b, c, d, '-', e, f, '-', g, h] => [a, b, c, d, e, f, g, h].all Char.isDigit
  | _ => false

def parseUntil (text : String) (now : ℤ) : Except String String :=
  match relativeDays (trimText text).toList with
  | some days =>
    match rt.isoDay (now + days * DAY * 1000) with
    | none => .error "Invalid time value"
    | some iso => capUntil rt iso now
  | none =>
    if !isDay (trimText text).toList || (rt.parseDate text).isNone then
      .error ("until invalido '" ++ text ++ "'. Use AAAA-MM-DD ou +Nd. Exemplo: " ++
        exampleFor .renew)
    else capUntil rt (trimText text) now

/-- One alias is replaced by the key it stands for. -/
def replaceAlias (acc : Dict Json × List String) (pair : String × String) :
    Except String (Dict Json × List String) :=
  match acc.1.get? pair.1 with
  | none => .ok acc
  | some value =>
    match acc.1.get? pair.2 with
    | none =>
      .ok ((acc.1.set pair.2 value).erase pair.1,
        acc.2 ++ ["campo '" ++ pair.1 ++ "' aceito como alias de '" ++ pair.2 ++
          "' (preferido: '" ++ pair.2 ++ "')"])
    | some canon =>
      if canon.strictEquals value then .ok (acc.1.erase pair.1, acc.2)
      else .error ("'" ++ pair.1 ++ "' e '" ++ pair.2 ++
        "' foram enviados com valores diferentes; envie so '" ++ pair.2 ++ "'.")

def checkKeys (name : String) (action : TaskAction) (args : Dict Json) : Except String Unit :=
  match args.find? fun e => e.1 ∉ ALL_KEYS with
  | none => .ok ()
  | some (key, _) =>
    let guess := match didYouMean rt.lowerCase key with
      | some guess => " (voce quis dizer '" ++ guess ++ "'?)"
      | none => ""
    .error ("campo desconhecido '" ++ key ++ "' em manage_task." ++ name ++ guess ++
      ". Campos aceitos nesta acao: " ++ ", ".intercalate
        ("action" :: (ACTION_SPECS action).required ++ (ACTION_SPECS action).optional) ++
      ". Exemplo: " ++ exampleFor action)

/-- Not given, `null` or a blank text. -/
def isMissing : Option Json → Bool
  | none => true
  | some .null => true
  | some (.string text) => trimText text = ""
  | some _ => false

def checkRequired (name : String) (action : TaskAction) (args : Dict Json) : Except String Unit :=
  match (ACTION_SPECS action).required.find? fun req => isMissing (args.get? req) with
  | none => .ok ()
  | some req =>
    .error ("campo obrigatorio '" ++ req ++ "' ausente em manage_task." ++ name ++ ". Exemplo: " ++
      exampleFor action)

def normalizeCreate (args : Dict Json) : Except String (Dict Json) :=
  let label := trimText (asText rt.numberText (args.get? "label"))
  if LABEL_MAX < textLength label then
    .error ("label com " ++ rt.numberText (textLength label) ++ " chars (limite " ++
      rt.numberText LABEL_MAX ++ "). Label e titulo, nao estado: mova o resto para state " ++
      "(\x7b\"next\":\"...\",\"gate\":\"...\"\x7d), links ou note. Exemplo: " ++ exampleFor .create)
  else .ok (args.set "label" (.string label))

def mutating : List String :=
  ["status", "label", "toolOutput", "state", "links", "phase", "tags", "note", "proof", "reason"]

def checkUpdate (args : Dict Json) : Except String Unit :=
  if !mutating.any fun k => (args.get? k).isSome then
    .error ("update sem nada para mudar. Envie ao menos um de: status, state, links, phase, " ++
      "tags, note, toolOutput. Exemplo: " ++ exampleFor .update)
  else
    match args.get? "label" with
    | some (.string label) =>
      if LABEL_MAX < textLength label then
        .error ("label com " ++ rt.numberText (textLength label) ++ " chars (limite " ++
          rt.numberText LABEL_MAX ++ "); use note/state para o resto.")
      else .ok ()
    | _ => .ok ()

def checkPhase (args : Dict Json) : Except String Unit :=
  if (args.get? "phase").isSome ∧ asText rt.numberText (args.get? "phase") ∉ PHASES then
    .error ("phase invalida '" ++ asText rt.numberText (args.get? "phase") ++ "'. Use: " ++
      ", ".intercalate PHASES ++ ".")
  else .ok ()

def toolOutputMessage : String :=
  "toolOutput deve ser objeto \x7b\"output\": ...\x7d (toolName e opcional, padrao \"manual\"). " ++
    "Exemplo: \x7b\"action\":\"update\",\"taskId\":\"<id>\",\"toolOutput\":\x7b\"toolName\":" ++
    "\"deploy\",\"output\":\x7b\"ok\":true\x7d\x7d\x7d"

def normalizeToolOutput (args : Dict Json) : Except String (Dict Json) :=
  match args.get? "toolOutput" with
  | none => .ok args
  | some (.object fields) =>
    match Dict.get? fields "output" with
    | none => .error toolOutputMessage
    | some output =>
      let toolName := match Dict.get? fields "toolName" with
        | some (.string name) => if name = "" then "manual" else name
        | _ => "manual"
      .ok (args.set "toolOutput" (.object [("toolName", .string toolName), ("output", output)]))
  | some _ => .error toolOutputMessage

def normalizeMerge (args : Dict Json) : Except String (Dict Json) :=
  let text := fun key => trimText (asText rt.numberText (args.get? key))
  if text "sourceId" = text "targetId" then
    .error ("merge: sourceId e targetId sao a mesma tarefa. Exemplo: " ++ exampleFor .merge)
  else
    let ids := (args.set "sourceId" (.string (text "sourceId"))).set "targetId"
      (.string (text "targetId"))
    .ok (if (args.get? "reason").isSome then ids.set "reason" (.string (text "reason")) else ids)

def normalizeRenew (args : Dict Json) (now : ℤ) : Except String (Dict Json) := do
  let until_ ← parseUntil rt (asText rt.numberText (args.get? "until")) now
  let reason := match args.get? "reason" with
    | none | some .null => ""
    | some reason => trimText (asText rt.numberText (some reason))
  if textLength reason < RENEW_MIN_REASON then
    .error ("reason do renew precisa de ao menos " ++ rt.numberText RENEW_MIN_REASON ++
      " caracteres (explique o bloqueio de verdade). Exemplo: " ++ exampleFor .renew)
  else .ok ((args.set "until" (.string until_)).set "reason" (.string reason))

/-- The action, under the name it was sent with. -/
def actionOf (raw : Dict Json) : Except String (String × TaskAction) :=
  let invalid := .error ("action invalida: " ++
    ((raw.get? "action").map (stringify rt.numberText)).getD "undefined" ++ ". Use uma de: " ++
    ", ".intercalate (TASK_ACTIONS.map Prod.fst) ++
    ". Exemplo: \x7b\"action\":\"list\",\"compact\":true\x7d")
  match raw.get? "action" with
  | some (.string name) =>
    match TASK_ACTIONS.find? fun a => a.1 = name with
    | some found => .ok found
    | none => invalid
  | _ => invalid

/-- The steps for some actions only, in their order; `now` is the time in milliseconds. -/
def normalizeFields (action : TaskAction) (now : ℤ) (args : Dict Json) :
    Except String (Dict Json) := do
  let created ← (if action = .create then normalizeCreate rt args else .ok args)
  let _ ← (if action = .update then checkUpdate rt created else .ok ())
  let _ ← checkPhase rt created
  let output ← normalizeToolOutput created
  let merged ← (if action = .merge then normalizeMerge rt output else .ok output)
  (if action = .renew then normalizeRenew rt merged now else .ok merged)

def normalizeTaskArgs (raw : Dict Json) (now : ℤ) :
    Except String (TaskAction × Dict Json × List String) := do
  let named ← actionOf rt raw
  let replaced ← ALIASES.foldlM replaceAlias (raw, [])
  let _ ← checkKeys rt named.1 named.2 replaced.1
  let _ ← checkRequired named.1 named.2 replaced.1
  let normalized ← normalizeFields rt named.2 now replaced.1
  return (named.2, normalized, replaced.2)

end Normalisation

/-! ## The schema -/

inductive FieldKind
  | text
  | number
  | flag
  | oneOf (values : List String)
  | texts
  /-- An object whose fields are optional texts; other fields are dropped. -/
  | fields (keys : List String)
  | toolOutput

def STATE_KEYS : List String := ["next", "gate"]
def LINK_KEYS : List String := ["commit", "deploy", "release", "url"]

/-- `ManageTaskInput`; every field but the action is optional. -/
def ManageTaskInput : List (String × FieldKind) :=
  [("taskId", .text), ("sourceId", .text), ("targetId", .text), ("label", .text),
    ("parentId", .text), ("status", .oneOf ["pending", "running", "completed", "failed"]),
    ("toolOutput", .toolOutput), ("since", .text), ("staleDays", .number),
    ("runningStaleHours", .number), ("proof", .text), ("reason", .text), ("until", .text),
    ("reopen", .flag), ("confirm", .text), ("apply", .flag), ("minGroup", .number),
    ("olderThanDays", .number), ("labelPrefix", .text), ("limit", .number), ("compact", .flag),
    ("months", .number), ("dedupeKey", .text), ("allowDuplicate", .flag),
    ("state", .fields STATE_KEYS), ("links", .fields LINK_KEYS), ("phase", .oneOf PHASES),
    ("tags", .texts), ("note", .text)]

def isText : Json → Bool
  | .string _ => true
  | _ => false

/-- The paths of the issues that the schema has with a value. -/
def issues (key : String) : FieldKind → Json → List String
  | .text, .string _ => []
  | .number, .number _ => []
  | .flag, .bool _ => []
  | .oneOf values, .string value => if value ∈ values then [] else [key]
  | .texts, .array items =>
    (items.zipIdx.filter fun item => !isText item.1).map fun item => key ++ "." ++ toString item.2
  | .fields keys, .object fields =>
    (keys.filter fun k => ((Dict.get? fields k).map fun value => !isText value).getD false).map
      fun k => key ++ "." ++ k
  | .toolOutput, .object fields =>
    if ((Dict.get? fields "toolName").map fun value => !isText value).getD false then
      [key ++ ".toolName"]
    else []
  | _, _ => [key]

structure ToolOutput where
  toolName : String
  output : Json

/-- What the schema makes of the arguments. -/
structure TaskArgs where
  taskId : Option String := none
  sourceId : Option String := none
  targetId : Option String := none
  label : Option String := none
  parentId : Option String := none
  status : Option TaskStatus := none
  toolOutput : Option ToolOutput := none
  since : Option String := none
  staleDays : Option ℚ := none
  proof : Option String := none
  reason : Option String := none
  until_ : Option String := none
  reopen : Option Bool := none
  confirm : Option String := none
  apply : Option Bool := none
  minGroup : Option ℚ := none
  dedupeKey : Option String := none
  allowDuplicate : Option Bool := none
  state : Option (Dict Json) := none
  links : Option (Dict Json) := none
  phase : Option String := none
  tags : Option (List String) := none
  note : Option String := none

section Reading

variable (args : Dict Json)

def textAt (key : String) : Option String :=
  match args.get? key with
  | some (.string text) => some text
  | _ => none

def numberAt (key : String) : Option ℚ :=
  match args.get? key with
  | some (.number value) => some value
  | _ => none

def flagAt (key : String) : Option Bool :=
  match args.get? key with
  | some (.bool value) => some value
  | _ => none

def statusOf : String → Option TaskStatus
  | "pending" => some .pending
  | "running" => some .running
  | "completed" => some .completed
  | "failed" => some .failed
  | _ => none

/-- The texts among the fields, in the order of the schema. -/
def fieldsAt (key : String) (keys : List String) : Option (Dict Json) :=
  match args.get? key with
  | some (.object fields) => some (keys.filterMap fun k =>
      match Dict.get? fields k with
      | some (.string text) => some (k, .string text)
      | _ => none)
  | _ => none

def textsAt (key : String) : Option (List String) :=
  match args.get? key with
  | some (.array items) => some (items.filterMap fun
      | .string text => some text
      | _ => none)
  | _ => none

def toolOutputAt : Option ToolOutput :=
  match args.get? "toolOutput" with
  | some (.object fields) => some {
      toolName := match Dict.get? fields "toolName" with
        | some (.string name) => name
        | _ => "manual"
      output := (Dict.get? fields "output").getD .null }
  | _ => none

end Reading

/-- `validateInput` for `manage_task`: the parsed arguments, or the paths of the issues. -/
def validateInput (args : Dict Json) : Except (List String) TaskArgs :=
  let found := ManageTaskInput.flatMap fun field =>
    ((args.get? field.1).map (issues field.1 field.2)).getD []
  if found ≠ [] then .error found
  else .ok {
    taskId := textAt args "taskId"
    sourceId := textAt args "sourceId"
    targetId := textAt args "targetId"
    label := textAt args "label"
    parentId := textAt args "parentId"
    status := (textAt args "status").bind statusOf
    toolOutput := toolOutputAt args
    since := textAt args "since"
    staleDays := numberAt args "staleDays"
    proof := textAt args "proof"
    reason := textAt args "reason"
    until_ := textAt args "until"
    reopen := flagAt args "reopen"
    confirm := textAt args "confirm"
    apply := flagAt args "apply"
    minGroup := numberAt args "minGroup"
    dedupeKey := textAt args "dedupeKey"
    allowDuplicate := flagAt args "allowDuplicate"
    state := fieldsAt args "state" STATE_KEYS
    links := fieldsAt args "links" LINK_KEYS
    phase := textAt args "phase"
    tags := textsAt args "tags"
    note := textAt args "note" }

end TaskActions
end Batiste
