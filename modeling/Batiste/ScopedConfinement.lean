import Batiste.ScopedHandler

/-! What of the arguments and results of the code server the scoped handler confines to the
policy. -/
namespace Batiste
namespace Scope

variable {isMatch : GlobEngine} {policy : AccessPolicy}

/-! The arguments. -/

theorem get?_filterLists (args : Dict Json) (key : String) :
    (arrayKeys.foldl (fun d key => d.mapKey key (filterItems isMatch policy)) args).get? key =
      if key ∈ arrayKeys then (args.get? key).map (filterItems isMatch policy)
      else args.get? key := by
  have hidem : ∀ value, filterItems isMatch policy (filterItems isMatch policy value) =
      filterItems isMatch policy value := by
    intro value
    cases value <;> simp [filterItems, List.filter_filter]
  have hfold : ∀ (keys : List String) (d : Dict Json),
      (keys.foldl (fun d key => d.mapKey key (filterItems isMatch policy)) d).get? key =
        if key ∈ keys then (d.get? key).map (filterItems isMatch policy) else d.get? key := by
    intro keys
    induction keys with
    | nil => simp
    | cons k keys ih =>
      intro d
      rw [List.foldl_cons, ih, Dict.get?_mapKey]
      by_cases hk : key = k
      · subst hk
        simp only [if_true, Option.map_map, List.mem_cons, true_or]
        split
        · congr 1
          exact funext hidem
        · rfl
      · simp [hk]
  exact hfold arrayKeys args

theorem deniedPath_eq_none {args : Dict Json} {keys : List String} :
    deniedPath isMatch policy args keys = none ↔
      ∀ key ∈ keys, ∀ text, args.get? key = some (.string text) →
        isAllowed isMatch policy text = true := by
  induction keys with
  | nil => simp [deniedPath]
  | cons key keys ih =>
    rw [deniedPath, List.forall_mem_cons, ← ih]
    split
    · next text htext =>
      split
      · next hallowed => simp [htext, hallowed]
      · next hdenied => simp [htext, hdenied]
    · next hother =>
      refine (and_iff_right ?_).symm
      intro text htext
      exact absurd htext (hother text)

/-- Some argument that the handler looks at is a path outside the policy. -/
def Rejected (isMatch : GlobEngine) (policy : AccessPolicy) (args : Dict Json) : Prop :=
  ∃ key ∈ stringKeys, ∃ text, args.get? key = some (.string text) ∧
    isAllowed isMatch policy text = false

theorem stringKeys_not_array {key : String} (h : key ∈ stringKeys) : key ∉ arrayKeys := by
  revert key
  decide

theorem deniedPath_filterLists_iff (args : Dict Json) :
    deniedPath isMatch policy
      (arrayKeys.foldl (fun d key => d.mapKey key (filterItems isMatch policy)) args) stringKeys =
        none ↔ ¬ Rejected isMatch policy args := by
  rw [deniedPath_eq_none]
  unfold Rejected
  push Not
  refine forall₂_congr fun key hkey => ?_
  rw [get?_filterLists, if_neg (stringKeys_not_array hkey)]
  simp

theorem filterArgs_rejected {args : Dict Json} (h : Rejected isMatch policy args) :
    ∃ message, filterArgs isMatch policy args = .error message := by
  simp only [filterArgs]
  split
  · exact ⟨_, rfl⟩
  · next hnone => exact absurd h ((deniedPath_filterLists_iff args).mp hnone)

theorem filterArgs_ok {args : Dict Json} (h : ¬ Rejected isMatch policy args) :
    ∃ filtered, filterArgs isMatch policy args = .ok filtered ∧ ∀ key, filtered.get? key =
      if key ∈ arrayKeys then (args.get? key).map (filterItems isMatch policy)
      else if key = "maxDepth" then (args.get? key).map (limitDepth policy)
      else args.get? key := by
  have hnone := (deniedPath_filterLists_iff args).mpr h
  refine ⟨_, by simp only [filterArgs, hnone]; rfl, fun key => ?_⟩
  rw [Dict.get?_mapKey, get?_filterLists]
  by_cases hkey : key = "maxDepth"
  · have harray : "maxDepth" ∉ arrayKeys := by decide
    simp [hkey, harray]
  · simp [hkey]

section Filtered

variable {args filtered : Dict Json} (hargs : ¬ Rejected isMatch policy args)
  (hfiltered : ∀ key, filtered.get? key =
    if key ∈ arrayKeys then (args.get? key).map (filterItems isMatch policy)
    else if key = "maxDepth" then (args.get? key).map (limitDepth policy) else args.get? key)

include hfiltered

theorem listAt_filtered {key : String} (hkey : key ∈ arrayKeys) :
    ∀ path ∈ listAt filtered key, isAllowed isMatch policy path = true := by
  intro path hpath
  rw [listAt, hfiltered, if_pos hkey] at hpath
  cases hvalue : args.get? key with
  | none => simp [hvalue] at hpath
  | some value =>
    rw [hvalue, Option.map_some] at hpath
    cases value with
    | array items =>
      simp only [filterItems, List.mem_filterMap, List.mem_filter] at hpath
      obtain ⟨item, ⟨-, hallows⟩, htext⟩ := hpath
      cases item with
      | string text =>
        obtain rfl := Option.some.inj htext
        exact hallows
      | _ => simp at htext
    | _ => simp [filterItems] at hpath

theorem get?_filtered {key : String} (harray : key ∉ arrayKeys) (hdepth : key ≠ "maxDepth") :
    filtered.get? key = args.get? key := by
  rw [hfiltered, if_neg harray, if_neg hdepth]

include hargs

theorem textAt_filtered {key : String} (hkey : key ∈ stringKeys) :
    ∀ path ∈ textAt filtered key, isAllowed isMatch policy path = true := by
  intro path hpath
  have hdepth : key ≠ "maxDepth" := by
    rintro rfl
    revert hkey
    decide
  rw [textAt, get?_filtered hfiltered (stringKeys_not_array hkey) hdepth] at hpath
  split at hpath
  · next text htext =>
    obtain rfl := List.mem_singleton.mp hpath
    by_contra hdenied
    exact hargs ⟨key, hkey, path, htext, by simpa using hdenied⟩
  · simp at hpath

end Filtered

/-- The path arguments that the handler does not look at. -/
def ToolName.unlistedPaths (args : Dict Json) : ToolName → List String
  | .orchestrateAgents => taskFiles args
  | .summarizeCodebase => textAt args "scope"
  | .vaultValidate => textAt args "repoRoot"
  | _ => []

theorem pathArguments_allowed_iff {args filtered : Dict Json} (hargs : ¬ Rejected isMatch policy args)
    (hfiltered : ∀ key, filtered.get? key =
      if key ∈ arrayKeys then (args.get? key).map (filterItems isMatch policy)
      else if key = "maxDepth" then (args.get? key).map (limitDepth policy) else args.get? key)
    (tool : ToolName) :
    (∀ path ∈ tool.pathArguments filtered, isAllowed isMatch policy path = true) ↔
      ∀ path ∈ tool.unlistedPaths args, isAllowed isMatch policy path = true := by
  have hlist : ∀ key ∈ arrayKeys, ∀ path ∈ listAt filtered key,
      isAllowed isMatch policy path = true := fun _ hkey => listAt_filtered hfiltered hkey
  have htext : ∀ key ∈ stringKeys, ∀ path ∈ textAt filtered key,
      isAllowed isMatch policy path = true := fun _ hkey => textAt_filtered hargs hfiltered hkey
  have hsame : ∀ key, key ∉ arrayKeys → key ≠ "maxDepth" → filtered.get? key = args.get? key :=
    fun _ => get?_filtered hfiltered
  have hcovered : ∀ paths : List String, (∀ path ∈ paths, isAllowed isMatch policy path = true) →
      ((∀ path ∈ paths, isAllowed isMatch policy path = true) ↔
        ∀ path ∈ ([] : List String), isAllowed isMatch policy path = true) :=
    fun _ hpaths => iff_of_true hpaths fun _ hpath => absurd hpath List.not_mem_nil
  simp only [arrayKeys, stringKeys, List.forall_mem_cons] at hlist htext
  cases tool with
  | orchestrateAgents =>
    rw [ToolName.pathArguments, ToolName.unlistedPaths, taskFiles, taskFiles,
      hsame "task" (by decide) (by decide)]
  | summarizeCodebase =>
    rw [ToolName.pathArguments, ToolName.unlistedPaths, textAt, textAt,
      hsame "scope" (by decide) (by decide)]
  | vaultValidate =>
    have hroot : textAt filtered "repoRoot" = textAt args "repoRoot" := by
      rw [textAt, textAt, hsame "repoRoot" (by decide) (by decide)]
    rw [ToolName.pathArguments, ToolName.unlistedPaths, List.forall_mem_append, hroot]
    exact and_iff_right htext.1
  | runTdd => exact hcovered _ (List.forall_mem_append.mpr ⟨htext.2.2.1, htext.2.2.2.1⟩)
  | analyzeDependency => exact hcovered _ hlist.2.1
  | validateCode => exact hcovered _ hlist.1
  | executeSandbox => exact hcovered _ htext.2.2.2.2.1
  | manageTask => exact Iff.rfl
  | findSymbol => exact hcovered _ hlist.2.1
  | indexCodebase => exact hcovered _ hlist.1
  | autoFix => exact hcovered _ hlist.1
  | contextBudget => exact Iff.rfl
  | vaultIndex => exact hcovered _ htext.1

/-! The results. -/

/-- The filter of the array under a key of the result. -/
def filterOf (isMatch : GlobEngine) (policy : AccessPolicy) (key : String) :
    Option (Json → Bool) :=
  if key = "files" then some (keepsFile isMatch policy)
  else if key = "definitions" ∨ key = "references" then some (keepsEntry isMatch policy)
  else none

/-- The text stands in the value under a key, and not only in items that its filter drops. -/
def ShownAt (isMatch : GlobEngine) (policy : AccessPolicy) (text key : String) : Json → Prop
  | .array items => ∃ item ∈ items,
      (∀ keeps, filterOf isMatch policy key = some keeps → keeps item = true) ∧
        Json.Mentions text item
  | value => Json.Mentions text value

/-- The text stands in a result, and not only in items that the filters drop. -/
def Shown (isMatch : GlobEngine) (policy : AccessPolicy) (text : String) : Json → Prop
  | .object fields => ∃ e ∈ fields, e.1 = text ∨ ShownAt isMatch policy text e.1 e.2
  | result => Json.Mentions text result

/-- Reading the entries of the result throws. -/
def Unreadable : Json → Bool
  | .object fields =>
    hasNullItem (Dict.get? fields "definitions") || hasNullItem (Dict.get? fields "references")
  | _ => false

/-- The value under a key after the filters. -/
def filterAt (isMatch : GlobEngine) (policy : AccessPolicy) (key : String) (value : Json) : Json :=
  match filterOf isMatch policy key with
  | some keeps => filterArray keeps value
  | none => value

theorem mentions_filterAt (text key : String) (value : Json) :
    Json.Mentions text (filterAt isMatch policy key value) ↔
      ShownAt isMatch policy text key value := by
  unfold filterAt
  cases hkeeps : filterOf isMatch policy key with
  | none => cases value <;> simp [ShownAt, hkeeps, Json.mentions_array]
  | some keeps =>
    cases value <;> simp [ShownAt, hkeeps, filterArray, Json.mentions_array, and_assoc]

theorem mapKey_filters (fields : Dict Json) :
    ((fields.mapKey "files" (filterArray (keepsFile isMatch policy))).mapKey "definitions"
      (filterArray (keepsEntry isMatch policy))).mapKey "references"
      (filterArray (keepsEntry isMatch policy)) =
        fields.map fun e => (e.1, filterAt isMatch policy e.1 e.2) := by
  simp only [Dict.mapKey, List.map_map]
  refine List.map_congr_left fun e _ => ?_
  by_cases hfiles : e.1 = "files"
  · simp [filterAt, filterOf, hfiles]
  by_cases hdefinitions : e.1 = "definitions"
  · simp [filterAt, filterOf, hdefinitions]
  by_cases hreferences : e.1 = "references"
  · simp [filterAt, filterOf, hreferences]
  · simp [filterAt, filterOf, hfiles, hdefinitions, hreferences]

theorem filterResult_object (fields : Dict Json) : filterResult isMatch policy (.object fields) =
    if Unreadable (.object fields) then .error readError
    else .ok (.object (fields.map fun e => (e.1, filterAt isMatch policy e.1 e.2))) := by
  rw [← mapKey_filters]
  have hdefinitions : (Dict.mapKey fields "files" (filterArray (keepsFile isMatch policy))).get?
      "definitions" = Dict.get? fields "definitions" := by simp [Dict.get?_mapKey]
  have hreferences : ((Dict.mapKey fields "files" (filterArray (keepsFile isMatch policy))).mapKey
      "definitions" (filterArray (keepsEntry isMatch policy))).get? "references" =
        Dict.get? fields "references" := by simp [Dict.get?_mapKey]
  simp only [filterResult, filterEntries, Unreadable, hdefinitions]
  by_cases hnull : hasNullItem (Dict.get? fields "definitions") = true
  · simp [hnull, Except.bind]
  by_cases hnull' : hasNullItem (Dict.get? fields "references") = true
  · simp [hnull, hnull', hreferences, Except.bind, Except.map]
  · simp [hnull, hnull', hreferences, Except.bind, Except.map]

/-- A result that can be read keeps what the filters do not drop. -/
theorem filterResult_cases (result : Json) :
    (Unreadable result = true ∧ filterResult isMatch policy result = .error readError) ∨
      Unreadable result = false ∧ ∃ filtered, filterResult isMatch policy result = .ok filtered ∧
        ∀ text, Json.Mentions text filtered ↔ Shown isMatch policy text result := by
  cases result with
  | object fields =>
    rw [filterResult_object]
    cases hread : Unreadable (.object fields) with
    | true => exact Or.inl ⟨rfl, rfl⟩
    | false =>
      refine Or.inr ⟨rfl, _, rfl, fun text => ?_⟩
      rw [Json.mentions_object, Shown]
      simp only [List.mem_map, exists_exists_and_eq_and, mentions_filterAt]
  | _ => exact Or.inr ⟨rfl, _, rfl, fun _ => Iff.rfl⟩

/-- The inner handler runs with allowed paths only, and no path outside the policy is in the
answer; `isPath` tells which texts of a result are paths. -/
structure Confined (isMatch : GlobEngine) (policy : AccessPolicy) (isPath : String → Bool)
    (tool : ToolName) (call : Call) : Prop where
  arguments : ∀ args, call.ran = some args → ∀ path ∈ tool.pathArguments args,
    isAllowed isMatch policy path = true
  result : ∀ result, call.answer = .ok result → ∀ text, isPath text = true →
    Json.Mentions text result → isAllowed isMatch policy text = true

theorem confined_iff (isMatch : GlobEngine) (policy : AccessPolicy) (isPath : String → Bool)
    (tool : ToolName) (args : Dict Json) (reply : Except String Json) :
    Confined isMatch policy isPath tool (handleTool isMatch policy args reply) ↔
      Rejected isMatch policy args ∨
        (∀ path ∈ tool.unlistedPaths args, isAllowed isMatch policy path = true) ∧
          ∀ result, reply = .ok result → Unreadable result = true ∨
            ∀ text, isPath text = true → Shown isMatch policy text result →
              isAllowed isMatch policy text = true := by
  by_cases hrejected : Rejected isMatch policy args
  · obtain ⟨message, hmessage⟩ := filterArgs_rejected hrejected
    simp only [hrejected, true_or, iff_true, handleTool, hmessage]
    constructor <;> simp
  rw [or_iff_right hrejected]
  obtain ⟨filtered, hargs, hfiltered⟩ := filterArgs_ok hrejected
  have harguments := pathArguments_allowed_iff hrejected hfiltered tool
  simp only [handleTool, hargs]
  constructor
  · intro h
    refine ⟨harguments.mp (h.arguments filtered rfl), fun result hreply => ?_⟩
    subst hreply
    rcases filterResult_cases result with
      ⟨hunreadable, -⟩ | ⟨-, answer, hanswer, hmentions⟩
    · exact Or.inl hunreadable
    · exact Or.inr fun text hpath hshown =>
        h.result answer hanswer text hpath ((hmentions text).mpr hshown)
  · rintro ⟨hunlisted, hreply⟩
    refine ⟨fun args' hran => ?_, fun answer hanswer text hpath hmention => ?_⟩
    · obtain rfl := Option.some.inj hran
      exact harguments.mpr hunlisted
    · cases reply with
      | error message => cases hanswer
      | ok result =>
        rcases filterResult_cases result with
          ⟨-, herror⟩ | ⟨hreadable, answer', hanswer', hmentions⟩
        · rw [Except.bind, herror] at hanswer
          cases hanswer
        · rw [Except.bind, hanswer'] at hanswer
          obtain rfl := Except.ok.inj hanswer
          have hshown := (hreply result rfl).resolve_left (by simp [hreadable])
          exact hshown text hpath ((hmentions text).mp hmention)

/-- The engine on patterns `directory/**` where the directory is `src`. -/
def srcEngine : GlobEngine :=
  fun path patterns => patterns.contains "src/**" && "src/".toList.isPrefixOf path.toList

def srcPolicy : AccessPolicy where
  name := "src-only"
  allowedPaths := ["src/**"]
  deniedPaths := []
  maxDepth := 10

/-- A definition in scope whose symbol is called outside it. -/
def foundSymbol : Json := .object
  [("symbolName", .string "login"),
    ("definitions", .array [.object [("file", .string "src/login.ts"), ("line", .number 1)]]),
    ("callSites", .array [.object [("file", .string "infra/deploy.ts"), ("line", .number 7)]])]

/-- A directory outside the policy is summarised, and a call site outside it is returned. -/
theorem outside_paths_pass :
    ¬ Confined srcEngine srcPolicy (fun text => text.toList.contains '/') .summarizeCodebase
        (handleTool srcEngine srcPolicy [("scope", .string "infra/secrets")] (.ok .null)) ∧
      ¬ Confined srcEngine srcPolicy (fun text => text.toList.contains '/') .findSymbol
        (handleTool srcEngine srcPolicy
          [("symbolName", .string "login"), ("entryPoints", .array [.string "src/login.ts"])]
          (.ok foundSymbol)) := by
  constructor
  · intro h
    have hscope := h.arguments _ rfl "infra/secrets" List.mem_cons_self
    revert hscope
    decide +kernel
  · intro h
    have hsite := h.result _ rfl "infra/deploy.ts" (by decide +kernel)
      (.field (List.mem_cons_of_mem _ (List.mem_cons_of_mem _ List.mem_cons_self))
        (.item List.mem_cons_self (.field List.mem_cons_self .string)))
    revert hsite
    decide +kernel

end Scope
end Batiste
