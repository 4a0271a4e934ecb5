import Batiste.GitLog

/-! The stream of commits that `parseGitLog` decodes: which lists of commits it gives back, with
which trailers. -/
namespace Batiste
namespace GitLog

open JsString

/-! ## Commits and their stream -/

/-- A commit whose sha is not blank; its body is without NUL and its lines end in LF or CRLF. -/
structure LogCommit where
  sha : String
  body : String
  sha_nonblank : trim sha.toList ≠ []
  body_nul : '\x00' ∉ body.toList
  body_breaks : ∀ line ∈ lines body.toList, ∀ c ∈ line, isLineTerminator c = false

/-- `sha NUL body NUL` of each commit. -/
def stream : List LogCommit → List Char
  | [] => []
  | commit :: rest =>
    commit.sha.toList ++ '\x00' :: (commit.body.toList ++ '\x00' :: stream rest)

/-- The trimmed value of a line that begins with the key, where it is not empty. -/
def taskDone (line : List Char) : Option String :=
  (afterKey (TASK_DONE_TRAILER ++ ":").toList line).bind fun rest =>
    if trim rest = [] then none else some (String.ofList (trim rest))

def taskDoneTrailers (body : String) : List String := (lines body.toList).filterMap taskDone

def decoded (commit : LogCommit) : ParsedCommit := ⟨commit.sha, taskDoneTrailers commit.body⟩

/-- A sha that the decoding keeps. -/
def LogCommit.Plain (commit : LogCommit) : Prop :=
  '\x00' ∉ commit.sha.toList ∧ trim commit.sha.toList = commit.sha.toList

/-- A line of the key and nothing but white space, of which there is some. -/
def BlankTrailer (line : List Char) : Prop :=
  ∃ rest, afterKey (TASK_DONE_TRAILER ++ ":").toList line = some rest ∧ rest ≠ [] ∧ trim rest = []

/-! ## The trailers -/

theorem afterKey_suffix {key line rest : List Char} (h : afterKey key line = some rest) :
    rest <:+ line := by
  induction key generalizing line with
  | nil =>
    rw [afterKey, Option.some.injEq] at h
    exact h ▸ List.suffix_refl _
  | cons k key ih =>
    cases line with
    | nil => cases h
    | cons c line =>
      rw [afterKey] at h
      split_ifs at h
      exact (ih h).trans (List.suffix_cons c line)

theorem trim_subset (cs : List Char) : trim cs ⊆ cs := fun _ hc =>
  (List.dropWhile_suffix _).subset ((List.rdropWhile_prefix _ _).subset hc)

/-- In a line without line terminators the group of the pattern matches a blank if there is one. -/
theorem trailerValue_eq {line rest : List Char} (hline : ∀ c ∈ line, isLineTerminator c = false)
    (h : afterKey (TASK_DONE_TRAILER ++ ":").toList line = some rest) : trailerValue line =
      if trim rest = [] then if rest = [] then none else some [] else some (trim rest) := by
  have hrest : ∀ c ∈ rest, isLineTerminator c = false := fun c hc =>
    hline c ((afterKey_suffix h).subset hc)
  have hany : (trim rest).any isLineTerminator = false := by
    rw [List.any_eq_false]
    exact fun c hc => Bool.eq_false_iff.mp (hrest c (trim_subset rest hc))
  have hall : rest.all isLineTerminator = true ↔ rest = [] := by
    rw [List.all_eq_true]
    constructor
    · intro hterm
      rw [List.eq_nil_iff_forall_not_mem]
      exact fun c hc => Bool.eq_false_iff.mp (hrest c hc) (hterm c hc)
    · rintro rfl
      exact fun c hc => absurd hc List.not_mem_nil
  rw [trailerValue, h, Option.bind_some]
  simp [hany, hall]

theorem trailerValue_none {line : List Char}
    (h : afterKey (TASK_DONE_TRAILER ++ ":").toList line = none) : trailerValue line = none := by
  rw [trailerValue, h, Option.bind_none]

theorem trailerValue_of_not_blank {line : List Char}
    (hline : ∀ c ∈ line, isLineTerminator c = false) (h : ¬ BlankTrailer line) :
    (trailerValue line).map String.ofList = taskDone line := by
  cases hrest : afterKey (TASK_DONE_TRAILER ++ ":").toList line with
  | none => rw [trailerValue_none hrest, taskDone, hrest, Option.map_none, Option.bind_none]
  | some rest =>
    rw [trailerValue_eq hline hrest, taskDone, hrest, Option.bind_some]
    by_cases hblank : trim rest = []
    · have hempty : rest = [] := by
        by_contra hne
        exact h ⟨rest, hrest, hne, hblank⟩
      rw [if_pos hblank, if_pos hblank, if_pos hempty, Option.map_none]
    · rw [if_neg hblank, if_neg hblank, Option.map_some]

theorem empty_notMem_taskDoneTrailers (body : String) : "" ∉ taskDoneTrailers body := by
  intro hempty
  obtain ⟨line, -, hvalue⟩ := List.mem_filterMap.mp hempty
  obtain ⟨rest, -, hrest⟩ := Option.bind_eq_some_iff.mp hvalue
  split_ifs at hrest with hblank
  rw [Option.some.injEq, String.ofList_eq_empty_iff] at hrest
  exact hblank hrest

theorem extractTaskDoneTrailers_iff (commit : LogCommit) :
    extractTaskDoneTrailers commit.body.toList = taskDoneTrailers commit.body ↔
      ∀ line ∈ lines commit.body.toList, ¬ BlankTrailer line := by
  constructor
  · rintro hequal line hline ⟨rest, hrest, hne, hblank⟩
    have hvalue : trailerValue line = some [] := by
      rw [trailerValue_eq (commit.body_breaks line hline) hrest, if_pos hblank, if_neg hne]
    refine empty_notMem_taskDoneTrailers commit.body (hequal ▸ ?_)
    exact List.mem_filterMap.mpr ⟨line, hline, by rw [hvalue]; rfl⟩
  · intro h
    exact List.filterMap_congr fun line hline =>
      trailerValue_of_not_blank (commit.body_breaks line hline) (h line hline)

/-! ## The decoding -/

theorem parseTokens_plain {tokens : List (List Char)} (htokens : ∀ t ∈ tokens, '\x00' ∉ t)
    {parsed : ParsedCommit} (h : parsed ∈ parseTokens tokens) :
    '\x00' ∉ parsed.sha.toList ∧ trim parsed.sha.toList = parsed.sha.toList := by
  induction tokens using parseTokens.induct with
  | case1 sha body rest hblank ih =>
    rw [parseTokens, if_pos hblank] at h
    exact ih (fun t ht => htokens t (by simp [ht])) h
  | case2 sha body rest hblank ih =>
    rw [parseTokens, if_neg hblank] at h
    rcases List.mem_cons.mp h with rfl | h
    · rw [String.toList_ofList]
      exact ⟨fun hnul => htokens sha (by simp) (trim_subset sha hnul), trim_trim sha⟩
    · exact ih (fun t ht => htokens t (by simp [ht])) h
  | case3 tokens hshort =>
    rw [parseTokens] at h
    · exact absurd h List.not_mem_nil
    · exact hshort

theorem parseGitLog_stream {commits : List LogCommit} (h : ∀ commit ∈ commits, commit.Plain) :
    parseGitLog (String.ofList (stream commits)) = commits.map fun commit =>
      ⟨commit.sha, extractTaskDoneTrailers commit.body.toList⟩ := by
  rw [parseGitLog, String.toList_ofList]
  induction commits with
  | nil => rfl
  | cons commit rest ih =>
    obtain ⟨hplain, hrest⟩ := List.forall_mem_cons.mp h
    rw [stream, List.splitOn_append_cons_self, List.splitOn_append_cons_self,
      List.splitOn_eq_singleton hplain.1, List.splitOn_eq_singleton commit.body_nul,
      List.singleton_append, List.singleton_append, parseTokens, if_neg commit.sha_nonblank,
      hplain.2, String.ofList_toList, ih hrest, List.map_cons]

/-- The stream of some commits is decoded to these and their trailers where every sha is plain and
no line of a body is a blank trailer, and only there. -/
theorem parseGitLog_stream_iff (commits : List LogCommit) :
    parseGitLog (String.ofList (stream commits)) = commits.map decoded ↔
      (∀ commit ∈ commits, commit.Plain) ∧
        ∀ commit ∈ commits, ∀ line ∈ lines commit.body.toList, ¬ BlankTrailer line := by
  have htrailers (hplain : ∀ commit ∈ commits, commit.Plain) :
      parseGitLog (String.ofList (stream commits)) = commits.map decoded ↔
        ∀ commit ∈ commits, ∀ line ∈ lines commit.body.toList, ¬ BlankTrailer line := by
    rw [parseGitLog_stream hplain, List.map_inj_left]
    refine forall₂_congr fun commit _ => ?_
    rw [← extractTaskDoneTrailers_iff, decoded, ParsedCommit.mk.injEq, and_iff_right rfl]
  constructor
  · intro hdecoded
    have hplain : ∀ commit ∈ commits, commit.Plain := by
      intro commit hcommit
      have hparsed := List.mem_map_of_mem (f := decoded) hcommit
      rw [← hdecoded] at hparsed
      exact parseTokens_plain (fun _ => notMem_splitOn) hparsed
    exact ⟨hplain, (htrailers hplain).mp hdecoded⟩
  · rintro ⟨hplain, hblank⟩
    exact (htrailers hplain).mpr hblank

/-- A line of the key and one blank. -/
def keyOnly : String := "Ship it\n\nTask-done: "

theorem keyOnly_lines : ∀ line ∈ lines keyOnly.toList, ∀ c ∈ line, isLineTerminator c = false := by
  simp [keyOnly, lines, isLineTerminator]

/-- A blank value is taken for a trailer. -/
theorem parseGitLog_keyOnly : ∃ commit : LogCommit, commit.Plain ∧ commit.body = keyOnly ∧
    parseGitLog (String.ofList (stream [commit])) = [⟨commit.sha, [""]⟩] ∧
      decoded commit = ⟨commit.sha, []⟩ := by
  refine ⟨⟨"4f2a", keyOnly, by decide, by decide, keyOnly_lines⟩, ?_, rfl, ?_, ?_⟩
  · exact ⟨by decide, by decide⟩
  · decide +kernel
  · decide +kernel

end GitLog
end Batiste
