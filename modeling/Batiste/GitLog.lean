import Batiste.JsString

/-! What `TaskReconciler.ts` reads from `git log`: commits and their `Task-done:` trailers.
Text is taken apart as a list of characters. -/
namespace Batiste
namespace GitLog

open JsString

/-- `text.split(/\r?\n/)`. -/
def lines : List Char → List (List Char)
  | [] => [[]]
  | '\r' :: '\n' :: cs => [] :: lines cs
  | '\n' :: cs => [] :: lines cs
  | c :: cs =>
    match lines cs with
    | [] => [[c]]
    | line :: rest => (c :: line) :: rest

/-- What follows a key, in any letter case. -/
def afterKey : List Char → List Char → Option (List Char)
  | [], cs => some cs
  | k :: ks, c :: cs => if k.toLower = c.toLower then afterKey ks cs else none
  | _ :: _, [] => none

def TASK_DONE_TRAILER : String := "Task-done"

/-- The match of `^Task-done:\s*(.+?)\s*$` on a line, trimmed.  In a blank value the group
matches one of the blanks, unless all of them end lines. -/
def trailerValue (line : List Char) : Option (List Char) :=
  (afterKey (TASK_DONE_TRAILER ++ ":").toList line).bind fun rest =>
    let value := trim rest
    if value = [] then
      if rest.all isLineTerminator then none else some []
    else if value.any isLineTerminator then none
    else some value

def extractTaskDoneTrailers (body : List Char) : List String :=
  (lines body).filterMap fun line => (trailerValue line).map String.ofList

structure ParsedCommit where
  sha : String
  doneTrailers : List String
  deriving DecidableEq

/-- Walk the tokens in pairs of a sha and a body. -/
def parseTokens : List (List Char) → List ParsedCommit
  | sha :: body :: rest =>
    if trim sha = [] then parseTokens rest
    else ⟨String.ofList (trim sha), extractTaskDoneTrailers body⟩ :: parseTokens rest
  | _ => []

def parseGitLog (stdout : String) : List ParsedCommit :=
  parseTokens (stdout.toList.splitOn '\x00')

def DEFAULT_INITIAL_COMMITS : ℕ := 200

/-- The arguments of `git`; an empty `since` counts as none. -/
def logArgs (repoPath : String) (since : Option String) : List String :=
  ["-C", repoPath, "log", "-z", "--format=%H%x00%B"] ++
    match since.filter fun ref => ref != "" with
    | some ref => [ref ++ "..HEAD"]
    | none => ["-n", toString DEFAULT_INITIAL_COMMITS]

def markerWarning (repoPath ref : String) : String :=
  "marker ref " ++ (ref.take 12).toString ++ " is not reachable in " ++ repoPath ++
    "; scanned the last " ++ toString DEFAULT_INITIAL_COMMITS ++
    " commits instead (trailers older than that window may have been missed)"

/-- `git` answers with its output or with the text of its failure.  When it does not know
`since`, the recent window is read instead. -/
def readCommits (repoPath : String) (git : List String → Except String String)
    (since : Option String) : Except String (List ParsedCommit × List String) :=
  match git (logArgs repoPath since) with
  | .ok stdout => .ok (parseGitLog stdout, [])
  | .error message =>
    match since.filter fun ref => ref != "" with
    | none => .error ("git log failed in " ++ repoPath ++ ": " ++ message)
    | some ref =>
      match git (logArgs repoPath none) with
      | .ok stdout => .ok (parseGitLog stdout, [markerWarning repoPath ref])
      | .error message => .error ("git log failed in " ++ repoPath ++ ": " ++ message)

/-! A repository with a linear history, and what `git log` prints of it.
How `git` resolves a revision is a parameter; a call of `git` may also fail. -/

/-- A commit: its name has no blanks around it, and neither text holds a NUL. -/
structure Commit where
  sha : String
  body : String
  sha_trimmed : trim sha.toList = sha.toList
  sha_ne : sha.toList ≠ []
  sha_plain : '\x00' ∉ sha.toList
  body_plain : '\x00' ∉ body.toList

/-- The commits from the oldest to `HEAD`. -/
structure History where
  commits : List Commit
  nodup : (commits.map Commit.sha).Nodup

/-- What `--format=%H%x00%B` with `-z` prints. -/
def render (commits : List Commit) : String :=
  String.ofList <| commits.flatMap fun c =>
    c.sha.toList ++ '\x00' :: (c.body.toList ++ ['\x00'])

def Commit.parsed (c : Commit) : ParsedCommit := ⟨c.sha, extractTaskDoneTrailers c.body.toList⟩

theorem parseGitLog_render (commits : List Commit) :
    parseGitLog (render commits) = commits.map Commit.parsed := by
  unfold parseGitLog render
  rw [String.toList_ofList]
  induction commits with
  | nil => rfl
  | cons c rest ih =>
    simp only [List.flatMap_cons, List.append_assoc, List.cons_append, List.nil_append]
    rw [List.splitOn_append_cons_self_of_not_mem c.sha_plain,
      List.splitOn_append_cons_self_of_not_mem c.body_plain, parseTokens,
      if_neg (by rw [c.sha_trimmed]; exact c.sha_ne), ih, c.sha_trimmed, String.ofList_toList]
    rfl

/-- The number that a text of digits stands for. -/
def count (digits : String) : ℕ := digits.toList.foldl (fun n c => 10 * n + (c.toNat - 48)) 0

/-- The revision before `..HEAD`. -/
def lowerBound (range : String) : String :=
  String.ofList (range.toList.take (range.toList.length - "..HEAD".toList.length))

/-- What a revision stands for: the number of commits up to it. -/
abbrev Revisions := History → String → Option ℕ

/-- The two forms of `git log` that `readCommits` calls: the last commits, or all after a
revision, the newest first. -/
def gitLog (rev : Revisions) (h : History) (args : List String) : Except String String :=
  match args.reverse with
  | n :: flag :: _ =>
    if flag = "-n" then .ok (render (h.commits.reverse.take (count n)))
    else
      match rev h (lowerBound n) with
      | some k => .ok (render (h.commits.drop k).reverse)
      | none => .error ("fatal: ambiguous argument '" ++ n ++ "': unknown revision")
  | _ => .error "fatal: bad arguments"

/-- `git`, where it fails with the messages of `fails`. -/
def git (rev : Revisions) (h : History) (fails : List String → Option String)
    (args : List String) : Except String String :=
  match fails args with
  | some message => .error message
  | none => gitLog rev h args

theorem lowerBound_range (ref : String) : lowerBound (ref ++ "..HEAD") = ref := by
  simp [lowerBound]

theorem gitLog_recent (rev : Revisions) (h : History) (repoPath : String) :
    gitLog rev h (logArgs repoPath none) =
      .ok (render (h.commits.drop (h.commits.length - DEFAULT_INITIAL_COMMITS)).reverse) := by
  have hcount : count (toString DEFAULT_INITIAL_COMMITS) = DEFAULT_INITIAL_COMMITS := by decide
  simp only [gitLog, logArgs, Option.filter_none, List.reverse_cons, List.reverse_nil,
    List.nil_append, List.cons_append, if_true, hcount, List.take_reverse]

theorem gitLog_since (rev : Revisions) (h : History) (repoPath : String) {ref : String}
    (href : ref ≠ "") :
    gitLog rev h (logArgs repoPath (some ref)) =
      match rev h ref with
      | some k => .ok (render (h.commits.drop k).reverse)
      | none => .error ("fatal: ambiguous argument '" ++ (ref ++ "..HEAD") ++
          "': unknown revision") := by
  have hfilter : (some ref).filter (fun r => r != "") = some ref := by simp [href]
  simp only [gitLog, logArgs, hfilter, List.reverse_cons, List.reverse_nil, List.nil_append,
    List.cons_append, lowerBound_range]
  rw [if_neg (by decide)]

/-- Where the window of a call begins, counted from the oldest commit; none when the call ends
with an error of `git`. -/
def windowStart (rev : Revisions) (h : History) (fails : List String → Option String)
    (repoPath : String) (since : Option String) : Option ℕ :=
  let recent := if (fails (logArgs repoPath none)).isNone then
    some (h.commits.length - DEFAULT_INITIAL_COMMITS) else none
  match since.filter fun ref => ref != "" with
  | none => recent
  | some ref => if (fails (logArgs repoPath since)).isNone then (rev h ref).or recent else recent

theorem logArgs_blank {repoPath : String} {since : Option String}
    (h : since.filter (fun ref => ref != "") = none) :
    logArgs repoPath since = logArgs repoPath none := by
  simp [logArgs, h]

theorem git_recent (rev : Revisions) (h : History) (fails : List String → Option String)
    (repoPath : String) :
    (git rev h fails (logArgs repoPath none)).toOption =
      if (fails (logArgs repoPath none)).isNone then
        some (render (h.commits.drop (h.commits.length - DEFAULT_INITIAL_COMMITS)).reverse)
      else none := by
  cases hfails : fails (logArgs repoPath none) with
  | none => simp [git, hfails, gitLog_recent, Except.toOption]
  | some message => simp [git, hfails, Except.toOption]

theorem git_since (rev : Revisions) (h : History) (fails : List String → Option String)
    (repoPath : String) {ref : String} (href : ref ≠ "") :
    (git rev h fails (logArgs repoPath (some ref))).toOption =
      if (fails (logArgs repoPath (some ref))).isNone then
        (rev h ref).map fun k => render (h.commits.drop k).reverse
      else none := by
  cases hfails : fails (logArgs repoPath (some ref)) with
  | some message => simp [git, hfails, Except.toOption]
  | none =>
    simp only [git, hfails, gitLog_since rev h repoPath href, Option.isNone_none, if_true]
    cases rev h ref <;> rfl

/-- What `readCommits` reads, whatever it warns of. -/
theorem readCommits_toOption (repoPath : String) (answer : List String → Except String String)
    (since : Option String) :
    (readCommits repoPath answer since).toOption.map Prod.fst =
      match since.filter fun ref => ref != "" with
      | none => (answer (logArgs repoPath none)).toOption.map parseGitLog
      | some _ => ((answer (logArgs repoPath since)).toOption.or
          (answer (logArgs repoPath none)).toOption).map parseGitLog := by
  unfold readCommits
  cases hsince : since.filter fun ref => ref != "" with
  | none =>
    rw [logArgs_blank hsince]
    cases answer (logArgs repoPath none) <;> rfl
  | some ref =>
    cases answer (logArgs repoPath since) with
    | ok stdout => rfl
    | error message => cases answer (logArgs repoPath none) <;> rfl

/-- The calls read the commits from there to `HEAD`. -/
theorem readCommits_git (rev : Revisions) (h : History) (fails : List String → Option String)
    (repoPath : String) (since : Option String) :
    (readCommits repoPath (git rev h fails) since).toOption.map Prod.fst =
      (windowStart rev h fails repoPath since).map fun k =>
        (h.commits.drop k).reverse.map Commit.parsed := by
  rw [readCommits_toOption, windowStart]
  cases hsince : since.filter fun ref => ref != "" with
  | none =>
    simp only [git_recent]
    split_ifs <;> simp [parseGitLog_render]
  | some ref =>
    obtain ⟨rfl, href⟩ := Option.filter_eq_some_iff.mp hsince
    simp only [git_recent, git_since rev h fails repoPath (bne_iff_ne.mp href)]
    by_cases hone : (fails (logArgs repoPath (some ref))).isNone <;>
      by_cases htwo : (fails (logArgs repoPath none)).isNone <;>
      cases rev h ref <;> simp [hone, htwo, parseGitLog_render]

end GitLog
end Batiste
