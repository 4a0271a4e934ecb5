import Batiste.Json

/-! `scope.ts`: what a token may call, and with which paths.
The engine of regular expressions is a parameter: it gives the test of an expression, or the
text of the error that its constructor throws. -/
namespace Batiste
namespace Auth

/-- `operations`, `maxTokensBudget` and `prompts` are read by other checks. -/
structure ScopeDefinition where
  tools : Option (List String) := none
  files : Option (List String) := none
  maxRequests : Option ℚ := none

structure ScopeCheckResult where
  allowed : Bool
  reason : Option String := none

abbrev RegExp := String → Except String (String → Bool)

/-- `text.replace(/pattern/g, by)` for a plain nonempty pattern; `skip` characters belong to a
match that has been replaced. -/
def replaceAll (pattern by_ : List Char) : ℕ → List Char → List Char
  | _, [] => []
  | skip + 1, _ :: cs => replaceAll pattern by_ skip cs
  | 0, c :: cs =>
    if pattern.isPrefixOf (c :: cs) then by_ ++ replaceAll pattern by_ (pattern.length - 1) cs
    else c :: replaceAll pattern by_ 0 cs

def globstar : List Char := "\x7b\x7bGLOBSTAR\x7d\x7d".toList

/-- The regular expression of a glob pattern. -/
def globSource (pattern : String) : String :=
  let dots := replaceAll ['.'] ['\\', '.'] 0 pattern.toList
  let stars := replaceAll ['*', '*'] globstar 0 dots
  let star := replaceAll ['*'] "[^/]*".toList 0 stars
  "^" ++ String.ofList (replaceAll globstar ['.', '*'] 0 star) ++ "$"

variable (regExp : RegExp)

def matchGlob (filePath pattern : String) : Except String Bool :=
  match regExp (globSource pattern) with
  | .error message => .error message
  | .ok test => .ok (test filePath)

def matchesAnyPattern (filePath : String) : List String → Except String Bool
  | [] => .ok false
  | pattern :: patterns =>
    match matchGlob regExp filePath pattern with
    | .error message => .error message
    | .ok true => .ok true
    | .ok false => matchesAnyPattern filePath patterns

def arrayKeys : List String := ["paths", "entryPoints", "files"]

def stringKeys : List String :=
  ["path", "filePath", "testFilePath", "implementationFilePath", "workingDir"]

def asString : Json → Option String
  | .string text => some text
  | _ => none

/-- The paths that one argument holds, as far as its key is known. -/
def pathsAt (key : String) : Json → List String
  | .array items => if key ∈ arrayKeys then items.filterMap asString else []
  | .string text => if key ∈ stringKeys then [text] else []
  | _ => []

def extractFilePaths (args : Dict Json) : List String :=
  args.flatMap fun arg => pathsAt arg.1 arg.2

def checkFiles (patterns : List String) : List String → Except String ScopeCheckResult
  | [] => .ok { allowed := true }
  | filePath :: rest =>
    match matchesAnyPattern regExp filePath patterns with
    | .error message => .error message
    | .ok false =>
      .ok { allowed := false, reason := some ("File '" ++ filePath ++ "' not in scope") }
    | .ok true => checkFiles patterns rest

def checkScope (scope : ScopeDefinition) (toolName : String) (args : Dict Json) :
    Except String ScopeCheckResult :=
  let tools := scope.tools.getD []
  let files := scope.files.getD []
  if tools ≠ [] ∧ toolName ∉ tools then
    .ok { allowed := false, reason := some ("Tool '" ++ toolName ++ "' not in scope") }
  else if files ≠ [] then checkFiles regExp files (extractFilePaths args)
  else .ok { allowed := true }

/-- Without a list of tools, or with an empty one, every tool is in scope. -/
def ToolInScope (scope : ScopeDefinition) (toolName : String) : Prop :=
  scope.tools.getD [] ≠ [] → toolName ∈ scope.tools.getD []

def FileInScope (scope : ScopeDefinition) (filePath : String) : Prop :=
  scope.files.getD [] ≠ [] → ∃ pattern ∈ scope.files.getD [],
    matchGlob regExp filePath pattern = .ok true

variable {regExp}

theorem exists_of_matchesAnyPattern {filePath : String} {patterns : List String}
    (h : matchesAnyPattern regExp filePath patterns = .ok true) :
    ∃ pattern ∈ patterns, matchGlob regExp filePath pattern = .ok true := by
  induction patterns with
  | nil => simp [matchesAnyPattern] at h
  | cons pattern patterns ih =>
    simp only [matchesAnyPattern] at h
    split at h
    · cases h
    · rename_i hmatch
      exact ⟨pattern, List.mem_cons_self, hmatch⟩
    · obtain ⟨found, hfound, hmatch⟩ := ih h
      exact ⟨found, List.mem_cons_of_mem pattern hfound, hmatch⟩

theorem matches_of_checkFiles {patterns filePaths : List String} {result : ScopeCheckResult}
    (h : checkFiles regExp patterns filePaths = .ok result) (hallowed : result.allowed = true) :
    ∀ filePath ∈ filePaths, ∃ pattern ∈ patterns, matchGlob regExp filePath pattern = .ok true := by
  induction filePaths with
  | nil => simp
  | cons filePath rest ih =>
    simp only [checkFiles] at h
    split at h
    · cases h
    · cases h
      simp at hallowed
    · rename_i hmatch
      intro other hother
      rcases List.mem_cons.mp hother with rfl | hrest
      · exact exists_of_matchesAnyPattern hmatch
      · exact ih h other hrest

/-- What the check lets through is in scope, as far as the check finds the paths. -/
theorem inScope_of_checkScope {scope : ScopeDefinition} {toolName : String} {args : Dict Json}
    {result : ScopeCheckResult} (h : checkScope regExp scope toolName args = .ok result)
    (hallowed : result.allowed = true) :
    ToolInScope scope toolName ∧
      ∀ filePath ∈ extractFilePaths args, FileInScope regExp scope filePath := by
  simp only [checkScope] at h
  split_ifs at h with htools hfiles
  · cases h
    simp at hallowed
  · refine ⟨fun hne => ?_, fun filePath hpath hne => ?_⟩
    · by_contra hnot
      exact htools ⟨hne, hnot⟩
    · exact matches_of_checkFiles h hallowed filePath hpath
  · refine ⟨fun hne => ?_, fun filePath hpath hne => ?_⟩
    · by_contra hnot
      exact htools ⟨hne, hnot⟩
    · exact absurd hne hfiles

end Auth
end Batiste
