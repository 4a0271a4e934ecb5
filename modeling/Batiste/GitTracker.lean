import Batiste.Json
import Batiste.TreeDiff

/-! The changed files that the git tracker reads from `git diff --name-status` and
`git ls-files`. -/
namespace Batiste
namespace GitTracker

open TreeDiff

abbrev FileTree (Blob : Type) := String → Option Blob

/-- What one line of `git diff --name-status -M` says. -/
inductive Change
  | added (path : String)
  | modified (path : String)
  | deleted (path : String)
  | renamed (oldPath newPath : String)
deriving DecidableEq

/-- The tab-separated parts of a line; a missing part reads as an empty one. -/
def readLine (parts : List String) : Option Change :=
  let status := parts.getD 0 ""
  let filePath := parts.getD 1 ""
  if status = "" ∨ filePath = "" then none
  else if status = "A" then some (.added filePath)
  else if status = "M" then some (.modified filePath)
  else if status = "D" then some (.deleted filePath)
  else if status.toList.head? = some 'R' then
    let newPath := parts.getD 2 ""
    if newPath = "" then none else some (.renamed filePath newPath)
  else none

structure GitDiffResult where
  added : List String
  modified : List String
  deleted : List String
  renamed : Dict String

namespace GitDiffResult

def empty : GitDiffResult := ⟨[], [], [], []⟩

/-- The body of the loop of `getDiff`. -/
def push (result : GitDiffResult) : Change → GitDiffResult
  | .added path => { result with added := result.added ++ [path] }
  | .modified path => { result with modified := result.modified ++ [path] }
  | .deleted path => { result with deleted := result.deleted ++ [path] }
  | .renamed oldPath newPath => { result with renamed := result.renamed.set oldPath newPath }

/-- The body of the loop of `parseDiffOutput`. -/
def pushNew (result : GitDiffResult) : Change → GitDiffResult
  | .added path =>
    if path ∈ result.added then result else { result with added := result.added ++ [path] }
  | .modified path =>
    if path ∈ result.modified then result
    else { result with modified := result.modified ++ [path] }
  | .deleted path =>
    if path ∈ result.deleted then result else { result with deleted := result.deleted ++ [path] }
  | .renamed oldPath newPath =>
    if (result.renamed.get? oldPath).isSome then result
    else { result with renamed := result.renamed.set oldPath newPath }

end GitDiffResult

def getDiff (output : List (List String)) : GitDiffResult :=
  (output.filterMap readLine).foldl GitDiffResult.push .empty

def parseDiffOutput (output : List (List String)) (result : GitDiffResult) : GitDiffResult :=
  (output.filterMap readLine).foldl GitDiffResult.pushNew result

def getWorkingTreeChanges (stagedOutput unstagedOutput : List (List String))
    (untrackedOutput : List String) : GitDiffResult :=
  let result := parseDiffOutput unstagedOutput (parseDiffOutput stagedOutput .empty)
  { result with
    added := untrackedOutput.foldl (fun added line =>
      if line ≠ "" ∧ line ∉ added then added ++ [line] else added) result.added }

/-- `mergeGitDiffs` of the indexer. -/
def mergeGitDiffs (target source : GitDiffResult) : GitDiffResult :=
  let added := source.added.foldl (fun added path =>
    if path ∉ added ∧ path ∉ target.modified then added ++ [path] else added) target.added
  let modified := source.modified.foldl (fun modified path =>
    if path ∉ modified ∧ path ∉ added then modified ++ [path] else modified) target.modified
  let deleted := source.deleted.foldl (fun deleted path =>
    if path ∉ deleted then deleted ++ [path] else deleted) target.deleted
  let renamed := source.renamed.foldl (fun (renamed : Dict String) entry =>
    if (renamed.get? entry.1).isSome then renamed else renamed.set entry.1 entry.2) target.renamed
  { added, modified, deleted, renamed }

/-! What a list of changes, or a diff result, says about a path. -/

def Touches (listed : Change → Prop) (path : String) : Prop :=
  listed (.added path) ∨ listed (.modified path) ∨ ∃ oldPath, listed (.renamed oldPath path)

def Removes (listed : Change → Prop) (path : String) : Prop :=
  listed (.deleted path) ∨ ∃ newPath, listed (.renamed path newPath)

/-- No path is renamed to two paths. -/
def RenamesOnce (listed : Change → Prop) : Prop :=
  Relator.RightUnique fun oldPath newPath => listed (.renamed oldPath newPath)

def GitDiffResult.Lists (result : GitDiffResult) : Change → Prop
  | .added path => path ∈ result.added
  | .modified path => path ∈ result.modified
  | .deleted path => path ∈ result.deleted
  | .renamed oldPath newPath => result.renamed.get? oldPath = some newPath

theorem renamesOnce_lists (result : GitDiffResult) : RenamesOnce result.Lists :=
  fun _ _ _ hfirst hsecond => Option.some.inj (hfirst.symm.trans hsecond)

theorem lists_empty (c : Change) : ¬ GitDiffResult.empty.Lists c := by
  cases c <;> simp [GitDiffResult.Lists, GitDiffResult.empty]

section Push

variable {result : GitDiffResult} {c : Change}
  (hunique : RenamesOnce fun a => result.Lists a ∨ a = c)

include hunique

theorem lists_push (a : Change) : (result.push c).Lists a ↔ result.Lists a ∨ a = c := by
  cases c with
  | added path => cases a <;> simp [GitDiffResult.push, GitDiffResult.Lists]
  | modified path => cases a <;> simp [GitDiffResult.push, GitDiffResult.Lists]
  | deleted path => cases a <;> simp [GitDiffResult.push, GitDiffResult.Lists]
  | renamed oldPath newPath =>
    cases a with
    | renamed first second =>
      simp only [GitDiffResult.push, GitDiffResult.Lists, Dict.get?_set, Change.renamed.injEq]
      split
      · next hfirst =>
        subst hfirst
        constructor
        · intro h
          exact Or.inr ⟨rfl, (Option.some.inj h).symm⟩
        · intro h
          have hsecond : newPath = second := by
            refine hunique (Or.inr rfl) ?_
            rcases h with h | ⟨-, rfl⟩
            · exact Or.inl h
            · exact Or.inr rfl
          rw [hsecond]
      · next hfirst => simp [hfirst]
    | _ => simp [GitDiffResult.push, GitDiffResult.Lists]

theorem lists_pushNew (a : Change) : (result.pushNew c).Lists a ↔ result.Lists a ∨ a = c := by
  by_cases hnew : result.pushNew c = result.push c
  · rw [hnew]
    exact lists_push hunique a
  have hkept : result.pushNew c = result ∧ result.Lists c := by
    cases c with
    | renamed oldPath newPath =>
      simp only [GitDiffResult.pushNew, GitDiffResult.push] at hnew ⊢
      split at hnew
      · next hsome =>
        obtain ⟨second, hsecond⟩ := Option.isSome_iff_exists.mp hsome
        have heq : second = newPath := hunique (Or.inl hsecond) (Or.inr rfl)
        rw [if_pos hsome]
        exact ⟨rfl, heq ▸ hsecond⟩
      · exact absurd rfl hnew
    | _ =>
      simp only [GitDiffResult.pushNew, GitDiffResult.push] at hnew ⊢
      split at hnew
      · next hmem =>
        rw [if_pos hmem]
        exact ⟨rfl, hmem⟩
      · exact absurd rfl hnew
  rw [hkept.1]
  exact ⟨Or.inl, fun h => h.elim id fun hac => hac ▸ hkept.2⟩

end Push

theorem RenamesOnce.mono {listed listed' : Change → Prop} (h : RenamesOnce listed')
    (hsub : ∀ c, listed c → listed' c) : RenamesOnce listed :=
  fun _ _ _ hfirst hsecond => h (hsub _ hfirst) (hsub _ hsecond)

/-- A loop whose body lists one more change lists them all. -/
theorem lists_foldl {push : GitDiffResult → Change → GitDiffResult}
    (hpush : ∀ result c, RenamesOnce (fun a => result.Lists a ∨ a = c) →
      ∀ a, (push result c).Lists a ↔ result.Lists a ∨ a = c)
    {result : GitDiffResult} {cs : List Change}
    (hunique : RenamesOnce fun a => result.Lists a ∨ a ∈ cs) (a : Change) :
    (cs.foldl push result).Lists a ↔ result.Lists a ∨ a ∈ cs := by
  induction cs generalizing result with
  | nil => simp
  | cons c cs ih =>
    have hhead : ∀ b, (push result c).Lists b ↔ result.Lists b ∨ b = c := by
      refine hpush result c (hunique.mono ?_)
      rintro b (hb | rfl)
      · exact Or.inl hb
      · exact Or.inr List.mem_cons_self
    rw [List.foldl_cons, ih, hhead, List.mem_cons, or_assoc]
    refine hunique.mono fun b hb => ?_
    rw [hhead, or_assoc] at hb
    simpa using hb

theorem lists_getDiff {output : List (List String)}
    (hunique : RenamesOnce fun c => c ∈ output.filterMap readLine) (c : Change) :
    (getDiff output).Lists c ↔ c ∈ output.filterMap readLine := by
  have hfold := lists_foldl (fun _ _ => lists_push)
    (hunique.mono fun b hb => hb.resolve_left (lists_empty b)) c
  unfold getDiff
  rw [hfold]
  simp [lists_empty]

theorem lists_parseDiffOutput {output : List (List String)} {result : GitDiffResult}
    (hunique : RenamesOnce fun c => result.Lists c ∨ c ∈ output.filterMap readLine)
    (c : Change) : (parseDiffOutput output result).Lists c ↔
      result.Lists c ∨ c ∈ output.filterMap readLine :=
  lists_foldl (fun _ _ => lists_pushNew) hunique c

/-- A loop that appends what is neither there nor somewhere else. -/
theorem mem_foldl_append (elsewhere : String → Prop) [DecidablePred elsewhere]
    (xs ys : List String) (a : String) :
    a ∈ xs.foldl (fun ys x => if x ∉ ys ∧ ¬ elsewhere x then ys ++ [x] else ys) ys ↔
      a ∈ ys ∨ a ∈ xs ∧ ¬ elsewhere a := by
  induction xs generalizing ys with
  | nil => simp
  | cons x xs ih =>
    rw [List.foldl_cons, ih]
    by_cases hx : x ∉ ys ∧ ¬ elsewhere x
    · rw [if_pos hx]
      grind
    · rw [if_neg hx]
      grind

theorem mem_foldl_pushOnce (xs ys : List String) (a : String) :
    a ∈ xs.foldl (fun ys x => if x ∉ ys then ys ++ [x] else ys) ys ↔ a ∈ ys ∨ a ∈ xs := by
  have h := mem_foldl_append (fun _ => False) xs ys a
  simpa using h

/-- The old paths that are already there keep their new paths. -/
theorem get?_foldl_unset (entries d : Dict String) (key : String) :
    (entries.foldl (fun (d : Dict String) entry =>
      if (d.get? entry.1).isSome then d else d.set entry.1 entry.2) d).get? key =
      (d.get? key).or (entries.get? key) := by
  induction entries generalizing d with
  | nil => simp
  | cons entry entries ih =>
    rw [List.foldl_cons, ih, Dict.get?_cons]
    by_cases hkey : entry.1 = key
    · subst hkey
      cases h : d.get? entry.1 with
      | none => simp [Dict.get?_set]
      | some old => simp [h]
    · rw [if_neg hkey]
      split
      · rfl
      · rw [Dict.get?_set, if_neg (Ne.symm hkey)]

theorem lists_getWorkingTreeChanges {staged unstaged : List (List String)}
    {untracked : List String}
    (hunique : RenamesOnce fun c => c ∈ staged.filterMap readLine ∨ c ∈ unstaged.filterMap readLine)
    (c : Change) : (getWorkingTreeChanges staged unstaged untracked).Lists c ↔
      (c ∈ staged.filterMap readLine ∨ c ∈ unstaged.filterMap readLine) ∨
        ∃ line ∈ untracked, line ≠ "" ∧ c = .added line := by
  have hstaged : ∀ a, (parseDiffOutput staged .empty).Lists a ↔ a ∈ staged.filterMap readLine := by
    intro a
    rw [lists_parseDiffOutput, or_iff_right (lists_empty a)]
    exact hunique.mono fun b hb => Or.inl (hb.resolve_left (lists_empty b))
  have hboth : ∀ a, (parseDiffOutput unstaged (parseDiffOutput staged .empty)).Lists a ↔
      a ∈ staged.filterMap readLine ∨ a ∈ unstaged.filterMap readLine := by
    intro a
    rw [lists_parseDiffOutput, hstaged]
    exact hunique.mono fun b hb => by rwa [hstaged] at hb
  rw [← hboth]
  unfold getWorkingTreeChanges
  cases c with
  | added path =>
    have hmem := mem_foldl_append (· = "") untracked
      (parseDiffOutput unstaged (parseDiffOutput staged .empty)).added path
    simp only [GitDiffResult.Lists, ne_eq, and_comm (b := _ ∉ _), Change.added.injEq]
    rw [hmem]
    grind
  | _ => simp [GitDiffResult.Lists]

section Merge

variable {target source : GitDiffResult}
  (hunique : RenamesOnce fun c => target.Lists c ∨ source.Lists c)

include hunique

theorem lists_merge_renamed (oldPath newPath : String) :
    (mergeGitDiffs target source).Lists (.renamed oldPath newPath) ↔
      target.Lists (.renamed oldPath newPath) ∨ source.Lists (.renamed oldPath newPath) := by
  simp only [GitDiffResult.Lists, mergeGitDiffs, get?_foldl_unset]
  cases htarget : target.renamed.get? oldPath with
  | none => simp
  | some kept =>
    simp only [Option.some_or, Option.some.injEq]
    refine ⟨Or.inl, fun h => h.elim id fun hsource => ?_⟩
    exact hunique (Or.inl htarget) (Or.inr hsource)

theorem touches_merge (path : String) : Touches (mergeGitDiffs target source).Lists path ↔
    Touches target.Lists path ∨ Touches source.Lists path := by
  unfold Touches
  simp only [lists_merge_renamed hunique, exists_or]
  simp only [GitDiffResult.Lists, mergeGitDiffs]
  rw [mem_foldl_append (· ∈ target.modified), mem_foldl_append (· ∈ _),
    mem_foldl_append (· ∈ target.modified)]
  grind

theorem removes_merge (path : String) : Removes (mergeGitDiffs target source).Lists path ↔
    Removes target.Lists path ∨ Removes source.Lists path := by
  unfold Removes
  simp only [lists_merge_renamed hunique, exists_or]
  simp only [GitDiffResult.Lists, mergeGitDiffs]
  rw [mem_foldl_pushOnce]
  grind

end Merge

/-! The old paths of a diff result stay distinct. -/

def GitDiffResult.Distinct (result : GitDiffResult) : Prop :=
  (result.renamed.map Prod.fst).Nodup

theorem distinct_push {result : GitDiffResult} (h : result.Distinct) (c : Change) :
    (result.push c).Distinct := by
  cases c with
  | renamed oldPath newPath => exact Dict.nodup_set h oldPath newPath
  | _ => exact h

theorem distinct_getDiff (output : List (List String)) : (getDiff output).Distinct :=
  List.foldlRecOn _ _ List.nodup_nil fun _ h c _ => distinct_push h c

theorem distinct_merge {target : GitDiffResult} (h : target.Distinct) (source : GitDiffResult) :
    (mergeGitDiffs target source).Distinct := by
  refine List.foldlRecOn (motive := fun d : Dict String => (d.map Prod.fst).Nodup) _ _ h ?_
  intro renamed hrenamed entry _
  split
  · exact hrenamed
  · exact Dict.nodup_set hrenamed entry.1 entry.2

theorem touches_getWorkingTreeChanges {staged unstaged : List (List String)}
    {untracked : List String}
    (hunique : RenamesOnce fun c => c ∈ staged.filterMap readLine ∨ c ∈ unstaged.filterMap readLine)
    (path : String) : Touches (getWorkingTreeChanges staged unstaged untracked).Lists path ↔
      (Touches (· ∈ staged.filterMap readLine) path ∨
        Touches (· ∈ unstaged.filterMap readLine) path) ∨ path ≠ "" ∧ path ∈ untracked := by
  simp only [Touches, lists_getWorkingTreeChanges hunique, exists_or]
  grind

theorem removes_getWorkingTreeChanges {staged unstaged : List (List String)}
    {untracked : List String}
    (hunique : RenamesOnce fun c => c ∈ staged.filterMap readLine ∨ c ∈ unstaged.filterMap readLine)
    (path : String) : Removes (getWorkingTreeChanges staged unstaged untracked).Lists path ↔
      Removes (· ∈ staged.filterMap readLine) path ∨
        Removes (· ∈ unstaged.filterMap readLine) path := by
  simp only [Removes, lists_getWorkingTreeChanges hunique, exists_or]
  grind

/-! The report of git on two trees, as it is documented. -/

section Report

variable {Blob : Type}

inductive Shown (x y : FileTree Blob) : Change → Prop
  | added {path : String} (hx : x path = none) (hy : y path ≠ none) : Shown x y (.added path)
  | modified {path : String} (hx : x path ≠ none) (hy : y path ≠ none) (hne : x path ≠ y path) :
      Shown x y (.modified path)
  | deleted {path : String} (hgone : Gone x y path) : Shown x y (.deleted path)
  | renamed {oldPath newPath : String} (hgone : Gone x y oldPath) (hx : x newPath = none)
      (hy : y newPath ≠ none) : Shown x y (.renamed oldPath newPath)

/-- The line git prints for a change; a rename comes with its similarity score. -/
inductive Printed : Change → List String → Prop
  | added {path : String} (hpath : path ≠ "") : Printed (.added path) ["A", path]
  | modified {path : String} (hpath : path ≠ "") : Printed (.modified path) ["M", path]
  | deleted {path : String} (hpath : path ≠ "") : Printed (.deleted path) ["D", path]
  | renamed {oldPath newPath : String} (score : String) (hold : oldPath ≠ "")
      (hnew : newPath ≠ "") : Printed (.renamed oldPath newPath) ["R" ++ score, oldPath, newPath]

def Prints (lines : List (List String)) (c : Change) : Prop := ∃ line ∈ lines, Printed c line

/-- The lines are a diff of the two trees. -/
structure DiffReports (x y : FileTree Blob) (lines : List (List String)) : Prop where
  sound : ∀ line ∈ lines, ∃ c, Shown x y c ∧ Printed c line
  touched : ∀ path, Touched x y path → Touches (Prints lines) path
  gone : ∀ path, Gone x y path → Removes (Prints lines) path
  once : RenamesOnce (Prints lines)

theorem readLine_printed {c : Change} {line : List String} (h : Printed c line) :
    readLine line = some c := by
  cases h with
  | renamed score hold hnew =>
    have hne : ∀ s : String, s.toList.head? ≠ some 'R' → "R" ++ score ≠ s := by
      rintro s hs rfl
      exact hs (by simp)
    have hempty := hne "" (by decide)
    have hadded := hne "A" (by decide)
    have hmodified := hne "M" (by decide)
    have hdeleted := hne "D" (by decide)
    simp [readLine, hold, hnew, hempty, hadded, hmodified, hdeleted]
  | added hpath => simp [readLine, hpath]
  | modified hpath => simp [readLine, hpath]
  | deleted hpath => simp [readLine, hpath]

namespace DiffReports

variable {x y : FileTree Blob} {lines : List (List String)} (h : DiffReports x y lines)

include h

theorem mem_read (c : Change) : c ∈ lines.filterMap readLine ↔ Prints lines c := by
  rw [List.mem_filterMap]
  constructor
  · rintro ⟨line, hline, hread⟩
    obtain ⟨shown, -, hprinted⟩ := h.sound line hline
    obtain rfl := Option.some.inj ((readLine_printed hprinted).symm.trans hread)
    exact ⟨line, hline, hprinted⟩
  · rintro ⟨line, hline, hprinted⟩
    exact ⟨line, hline, readLine_printed hprinted⟩

theorem shown {c : Change} (hc : c ∈ lines.filterMap readLine) : Shown x y c := by
  obtain ⟨line, hline, hread⟩ := List.mem_filterMap.mp hc
  obtain ⟨shown, hshown, hprinted⟩ := h.sound line hline
  obtain rfl := Option.some.inj ((readLine_printed hprinted).symm.trans hread)
  exact hshown

theorem touches_iff (path : String) :
    Touches (· ∈ lines.filterMap readLine) path ↔ Touched x y path := by
  constructor
  · rintro (hadded | hmodified | ⟨oldPath, hrenamed⟩)
    · cases h.shown hadded with
      | added hx hy => exact ⟨hy, fun heq => hy (heq ▸ hx)⟩
    · cases h.shown hmodified with
      | modified hx hy hne => exact ⟨hy, hne⟩
    · cases h.shown hrenamed with
      | renamed hgone hx hy => exact ⟨hy, fun heq => hy (heq ▸ hx)⟩
  · intro htouched
    unfold Touches
    simp only [h.mem_read]
    exact h.touched path htouched

theorem removes_iff (path : String) :
    Removes (· ∈ lines.filterMap readLine) path ↔ Gone x y path := by
  constructor
  · rintro (hdeleted | ⟨newPath, hrenamed⟩)
    · cases h.shown hdeleted with
      | deleted hgone => exact hgone
    · cases h.shown hrenamed with
      | renamed hgone hx hy => exact hgone
  · intro hgone
    unfold Removes
    simp only [h.mem_read]
    exact h.gone path hgone

theorem renamesOnce : RenamesOnce (· ∈ lines.filterMap readLine) :=
  h.once.mono fun c hc => (h.mem_read c).mp hc

theorem gone_of_renamed {oldPath newPath : String}
    (hc : .renamed oldPath newPath ∈ lines.filterMap readLine) : Gone x y oldPath :=
  (h.removes_iff oldPath).mp (Or.inr ⟨newPath, hc⟩)

end DiffReports

/-- Two diffs whose removed paths differ rename no path twice between them. -/
theorem renamesOnce_or {first second : Change → Prop} (hfirst : RenamesOnce first)
    (hsecond : RenamesOnce second)
    (hdisjoint : ∀ oldPath newPath newPath', first (.renamed oldPath newPath) →
      ¬ second (.renamed oldPath newPath')) : RenamesOnce fun c => first c ∨ second c := by
  rintro oldPath newPath newPath' (h | h) (h' | h')
  · exact hfirst h h'
  · exact absurd h' (hdisjoint _ _ _ h)
  · exact absurd h (hdisjoint _ _ _ h')
  · exact hsecond h h'

end Report

end GitTracker
end Batiste
