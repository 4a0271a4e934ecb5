import Batiste.DiffTracker
import Batiste.FirmMemory
import Batiste.FixGenerator

/-! `AutoFixer.fix`: rounds of validation, suggestions and application, and the report of them.
What the validators find is not known here: each check may find anything. -/
namespace Batiste
namespace AutoFixer

open DiffTracker FixGenerator Grouping
open FirmMemory (sliceTo)

structure ValidationError where
  file : String
  line : ℤ
  message : String
  rule : String

structure ValidationResult where
  errors : List ValidationError
  warnings : List ValidationError

structure PreflightResult where
  passed : Bool
  totalErrors : ℕ
  totalWarnings : ℕ
  validatorResults : List (String × ValidationResult)

/-- `preflightCheck`, from what the validators settle to; the ids of the registry are distinct. -/
def preflightCheck (settled : List (String × Option ValidationResult)) : PreflightResult :=
  let validatorResults := settled.filterMap fun e => e.2.map fun result => (e.1, result)
  let totalErrors := (validatorResults.map fun e => e.2.errors.length).sum
  { passed := totalErrors = 0
    totalErrors
    totalWarnings := (validatorResults.map fun e => e.2.warnings.length).sum
    validatorResults }

/-- The loop over the results that pushes their errors. -/
def PreflightResult.errors (validation : PreflightResult) : List ValidationError :=
  validation.validatorResults.flatMap fun e => e.2.errors

inductive Confidence
  | high
  | medium
  | low
  deriving DecidableEq, Repr

/-- `confidenceLevels.indexOf` -/
def Confidence.index : Confidence → ℕ
  | .high => 0
  | .medium => 1
  | .low => 2

/-- A suggestion with the fields that are not read when it is applied. -/
structure Suggestion extends FixSuggestion where
  confidence : Confidence
  description : String

structure FixPattern where
  applies : ValidationError → String → Bool
  generate : ValidationError → String → List String → Option Suggestion

/-! ## `generateFixes` -/

/-- The first pattern that matches the error and makes a fix of it. -/
def fixFor (patterns : List FixPattern) (lines : List String) (error : ValidationError) :
    Option Suggestion :=
  let lineIndex := error.line - 1
  if lineIndex < 0 ∨ lines.length ≤ lineIndex then none
  else
    let lineContent := lines[lineIndex.toNat]?.getD ""
    let context := (lines.take (lineIndex.toNat + 6)).drop (lineIndex.toNat - 5)
    patterns.findSome? fun pattern =>
      if pattern.applies error lineContent then pattern.generate error lineContent context else none

def generateFixes (patterns : List FixPattern) (files : Dict String)
    (errors : List ValidationError) : List Suggestion :=
  (groupBy ValidationError.file errors).flatMap fun group =>
    match files.get? group.1 with
    | none => []
    | some content => group.2.filterMap (fixFor patterns (splitLines content))

/-! ## `DiffTracker` -/

structure FileSnapshot where
  content : String
  lines : List String

/-- The lines of a text, without the empty one after its last line break. -/
def textLines (content : String) : List String :=
  let lines := splitLines content
  if lines.getLast? = some "" then lines.dropLast else lines

/-- A read that came back, or failed. -/
def snapshotPath (files : Dict String) (snapshots : Dict FileSnapshot) (path : String) :
    Dict FileSnapshot :=
  match files.get? path with
  | none => snapshots
  | some content => snapshots.set path ⟨content, textLines content⟩

/-- The snapshots of the paths, in the order in which their reads come back. -/
def snapshot (files : Dict String) (arrived : List String) : Dict FileSnapshot :=
  arrived.foldl (snapshotPath files) []

structure FileDiff where
  file : String
  changes : List LineDiff
  additions : ℕ
  deletions : ℕ

/-- The turn of the loop of `diff` for one path. -/
def fileDiff (files : Dict String) (path : String) (before : FileSnapshot) : Option FileDiff :=
  match files.get? path with
  | none =>
    some
      { file := path
        changes := before.lines.mapIdx fun i line =>
          { line := i + 1, type := .remove, before := some line }
        additions := 0
        deletions := before.lines.length }
  | some currentContent =>
    if currentContent = before.content then none
    else
      let currentLines := textLines currentContent
      let changes := (computeLineDiffs (before.lines.length + currentLines.length + 1) before.lines
        currentLines).getD []
      if changes = [] then none
      else
        some
          { file := path
            changes
            additions := changes.countP fun c => c.type = .add
            deletions := changes.countP fun c => c.type = .remove }

def diff (files : Dict String) (snapshots : Dict FileSnapshot) : List FileDiff :=
  snapshots.filterMap fun e => fileDiff files e.1 e.2

/-! ## `fix` -/

structure AutoFixOptions where
  maxIterations : ℚ := 5
  dryRun : Bool := false
  maxFixesPerIteration : ℚ := 20
  minConfidence : Confidence := .high

structure IterationDetail where
  iteration : ℕ
  errorsFound : ℕ
  fixesGenerated : ℕ
  fixesApplied : ℕ

/-- `partly` is the source's 'partial'. -/
inductive Status
  | clean
  | fixed
  | partly
  | no_fixes
  | max_iterations
  deriving DecidableEq, Repr

structure AutoFixResult where
  status : Status
  iterations : ℕ
  converged : Bool
  dryRun : Bool
  initialErrors : ℕ
  remainingErrors : ℕ
  totalFixesApplied : ℕ
  allFixes : List Suggestion
  diffs : List FileDiff
  iterationDetails : List IterationDetail

/-- The variables of the loop, and the files; before the first round no count was seen. -/
structure State where
  files : Dict String
  iteration : ℕ := 0
  lastFixCount : Option ℕ := none
  converged : Bool := false
  allFixes : List Suggestion := []
  iterationDetails : List IterationDetail := []
  totalFixesApplied : ℕ := 0

section Fix

-- what the validators settle to at each check, which files can be written in each round, and the
-- patterns of the generator
variable (validate : ℕ → Dict String → List (String × Option ValidationResult))
  (writable : ℕ → String → Bool) (patterns : List FixPattern) (opts : AutoFixOptions)

def State.detail (s : State) (errorsFound fixesGenerated fixesApplied : ℕ) : State :=
  { s with
    iterationDetails :=
      s.iterationDetails ++ [⟨s.iteration, errorsFound, fixesGenerated, fixesApplied⟩] }

def eligible (fix : Suggestion) : Bool :=
  decide (fix.confidence.index ≤ opts.minConfidence.index)

/-- What a round applies of the fixes it has. -/
def applied (s : State) (fixesToApply : List Suggestion) : Outcome :=
  applyFixes (writable s.iteration) s.files (fixesToApply.map Suggestion.toFixSuggestion)

/-- A turn of the loop, and whether there is a next one. -/
def round (before : State) : Bool × State :=
  let s := { before with iteration := before.iteration + 1 }
  let validation := preflightCheck (validate s.iteration s.files)
  if validation.totalErrors = 0 then (false, { s with converged := true }.detail 0 0 0)
  else
    let errors := validation.errors
    let fixes := generateFixes patterns s.files errors
    let eligibleFixes := fixes.filter (eligible opts)
    if eligibleFixes.length = 0 ∨ some eligibleFixes.length = s.lastFixCount then
      (false, { s with converged := eligibleFixes.length = 0 }.detail errors.length fixes.length 0)
    else
      let fixesToApply := sliceTo (.finite opts.maxFixesPerIteration) eligibleFixes
      let s := { s with
        lastFixCount := some eligibleFixes.length
        allFixes := s.allFixes ++ fixesToApply }
      if opts.dryRun then (false, s.detail errors.length fixes.length 0)
      else
        let result := applied writable s fixesToApply
        let s := { s with
          files := result.files
          totalFixesApplied := s.totalFixesApplied + result.applied }
        let s := s.detail errors.length fixes.length result.applied
        if result.applied = 0 then (false, { s with converged := true }) else (true, s)

/-- The loop, for as many rounds as the limit leaves. -/
def loop : ℕ → State → State
  | 0, s => s
  | n + 1, s =>
    let r := round validate writable patterns opts s
    if r.1 then loop n r.2 else r.2

def statusOf (initialErrors remainingErrors : ℕ) (s : State) : Status :=
  if remainingErrors = 0 then .clean
  else if 0 < s.totalFixesApplied ∧ remainingErrors < initialErrors then .fixed
  else if 0 < s.totalFixesApplied then .partly
  else if opts.maxIterations ≤ s.iteration then .max_iterations
  else .no_fixes

/-- `fix`: what is returned, and the files; `iteration < maxIterations` allows for as many rounds as
the limit, rounded up. -/
def fix (files : Dict String) (arrived : List String) : AutoFixResult × Dict String :=
  let tracker := snapshot files arrived
  let initialErrors := (preflightCheck (validate 0 files)).totalErrors
  if initialErrors = 0 then
    ({ status := .clean, iterations := 1, converged := true, dryRun := opts.dryRun
       initialErrors := 0, remainingErrors := 0, totalFixesApplied := 0, allFixes := []
       diffs := [], iterationDetails := [⟨1, 0, 0, 0⟩] }, files)
  else
    let s := loop validate writable patterns opts ⌈opts.maxIterations⌉₊ { files }
    let remainingErrors := (preflightCheck (validate (s.iteration + 1) s.files)).totalErrors
    ({ status := statusOf opts initialErrors remainingErrors s
       iterations := s.iteration
       converged := s.converged
       dryRun := opts.dryRun
       initialErrors
       remainingErrors
       totalFixesApplied := s.totalFixesApplied
       allFixes := s.allFixes
       diffs := if opts.dryRun then [] else diff s.files tracker
       iterationDetails := s.iterationDetails }, s.files)

end Fix

/-! ## The account of a run -/

section Account

variable {validate : ℕ → Dict String → List (String × Option ValidationResult)}
  {writable : ℕ → String → Bool} {patterns : List FixPattern} {opts : AutoFixOptions}

variable (writable) in
/-- The batches applied in the rounds from one on: the files, and how many fixes took. -/
def replayBatches : ℕ → Dict String → List (List Suggestion) → Dict String × ℕ
  | _, files, [] => (files, 0)
  | i, files, batch :: rest =>
    let o := applyFixes (writable i) files (batch.map Suggestion.toFixSuggestion)
    ((replayBatches (i + 1) o.files rest).1, o.applied + (replayBatches (i + 1) o.files rest).2)

variable (opts) in
/-- What the options let into a batch. -/
structure Allowed (batch : List Suggestion) : Prop where
  confident : ∀ fix ∈ batch, eligible opts fix = true
  few : 0 ≤ opts.maxFixesPerIteration → batch.length ≤ ⌊opts.maxFixesPerIteration⌋.toNat

def appliedIn (details : List IterationDetail) : ℕ := (details.map IterationDetail.fixesApplied).sum

variable (writable opts) in
/-- Between two states: the batches of fixes, and the details of the rounds. -/
structure Accounts (s t : State) (batches : List (List Suggestion))
    (details : List IterationDetail) : Prop where
  allFixes : t.allFixes = s.allFixes ++ batches.flatten
  allowed : ∀ batch ∈ batches, Allowed opts batch
  detailed : t.iterationDetails = s.iterationDetails ++ details
  later : s.iteration ≤ t.iteration
  numbered : details.map IterationDetail.iteration =
    List.range' (s.iteration + 1) (t.iteration - s.iteration)
  total : t.totalFixesApplied = s.totalFixesApplied + appliedIn details
  files : (t.files, appliedIn details) =
    if opts.dryRun then (s.files, 0) else replayBatches writable (s.iteration + 1) s.files batches

theorem Accounts.refl (s : State) : Accounts writable opts s s [] [] where
  allFixes := by simp
  allowed := by simp
  detailed := by simp
  later := le_rfl
  numbered := by simp
  total := rfl
  files := by
    rw [replayBatches, ite_self]
    rfl

/-- A round with a batch, and the rounds after it. -/
theorem Accounts.cons {s t u : State} {batch : List Suggestion} {detail : IterationDetail}
    {batches : List (List Suggestion)} {details : List IterationDetail}
    (h : Accounts writable opts s t [batch] [detail]) (hnext : t.iteration = s.iteration + 1)
    (hwet : opts.dryRun = false) (hrest : Accounts writable opts t u batches details) :
    Accounts writable opts s u (batch :: batches) (detail :: details) where
  allFixes := by
    rw [hrest.allFixes, h.allFixes]
    simp
  allowed := by
    intro b hb
    rcases List.mem_cons.mp hb with rfl | hb
    · exact h.allowed b List.mem_cons_self
    · exact hrest.allowed b hb
  detailed := by
    rw [hrest.detailed, h.detailed]
    simp
  later := h.later.trans hrest.later
  numbered := by
    have hfirst := h.numbered
    have hlater := hrest.later
    have hcount : u.iteration - s.iteration = u.iteration - t.iteration + 1 := by omega
    rw [hnext, Nat.add_sub_cancel_left] at hfirst
    rw [List.map_cons, hrest.numbered, hcount, List.range'_succ, ← hnext]
    simpa [hnext] using hfirst
  total := by
    rw [hrest.total, h.total]
    simp [appliedIn, Nat.add_assoc]
  files := by
    have hfirst := h.files
    have hlast := hrest.files
    simp only [hwet, Bool.false_eq_true, if_false, replayBatches, Nat.add_zero, Prod.mk.injEq,
      hnext] at hfirst hlast ⊢
    have happlied : appliedIn (detail :: details) = appliedIn [detail] + appliedIn details := by
      simp [appliedIn]
    rw [happlied, hfirst.2, ← hfirst.1, ← hlast]
    exact ⟨rfl, rfl⟩

theorem length_sliceTo_le {α : Type} {q : ℚ} (h : 0 ≤ q) (xs : List α) :
    (sliceTo (.finite q) xs).length ≤ ⌊q⌋.toNat := by
  rw [sliceTo, if_pos h, List.length_take]
  exact Nat.min_le_left _ _

theorem mem_of_mem_sliceTo {α : Type} {x : JsNumber} {xs : List α} {a : α}
    (h : a ∈ sliceTo x xs) : a ∈ xs := by
  cases x with
  | finite q =>
    rw [sliceTo] at h
    split_ifs at h <;> exact List.mem_of_mem_take h
  | nan => simp [sliceTo] at h
  | infinity negative =>
    cases negative with
    | false => simpa [sliceTo] using h
    | true => simp [sliceTo] at h

theorem allowed_slice (fixes : List Suggestion) :
    Allowed opts (sliceTo (.finite opts.maxFixesPerIteration) (fixes.filter (eligible opts))) where
  confident := fun _ hfix => (List.mem_filter.mp (mem_of_mem_sliceTo hfix)).2
  few := fun h => length_sliceTo_le h _

/-- A round that applies nothing. -/
theorem accounts_idle {s t : State} {errorsFound fixesGenerated : ℕ}
    {batches : List (List Suggestion)} (hallowed : ∀ batch ∈ batches, Allowed opts batch)
    (hdry : batches = [] ∨ opts.dryRun = true)
    (hfixes : t.allFixes = s.allFixes ++ batches.flatten) (hfiles : t.files = s.files)
    (hdetails : t.iterationDetails = s.iterationDetails)
    (htotal : t.totalFixesApplied = s.totalFixesApplied) (hnext : t.iteration = s.iteration + 1) :
    Accounts writable opts s (t.detail errorsFound fixesGenerated 0) batches
      [⟨s.iteration + 1, errorsFound, fixesGenerated, 0⟩] where
  allFixes := hfixes
  allowed := hallowed
  detailed := by simp [State.detail, hdetails, hnext]
  later := by
    show s.iteration ≤ t.iteration
    omega
  numbered := by simp [State.detail, hnext]
  total := by simpa [appliedIn, State.detail] using htotal
  files := by
    show (t.files, appliedIn _) = _
    rcases hdry with rfl | hdry
    · rw [hfiles, replayBatches, ite_self]
      rfl
    · rw [hfiles, hdry, if_pos rfl]
      rfl

variable (validate writable patterns opts) in
/-- What a round does, and that it goes on only after a batch that was applied. -/
theorem round_accounts (s : State) :
    ∃ batches detail,
      Accounts writable opts s (round validate writable patterns opts s).2 batches [detail] ∧
      (round validate writable patterns opts s).2.iteration = s.iteration + 1 ∧
      ((round validate writable patterns opts s).1 = true →
        opts.dryRun = false ∧ ∃ batch, batches = [batch]) := by
  simp only [round]
  generalize preflightCheck (validate (s.iteration + 1) s.files) = validation
  generalize generateFixes patterns s.files validation.errors = fixes
  split_ifs with hclean hstop hdry hnone
  · exact ⟨[], _, accounts_idle (by simp) (Or.inl rfl) (by simp) rfl rfl rfl rfl, rfl, by simp⟩
  · exact ⟨[], _, accounts_idle (by simp) (Or.inl rfl) (by simp) rfl rfl rfl rfl, rfl, by simp⟩
  · refine ⟨[sliceTo (.finite opts.maxFixesPerIteration) (fixes.filter (eligible opts))], _,
      accounts_idle ?_ (Or.inr hdry) (by simp) rfl rfl rfl rfl, rfl, by simp⟩
    simpa using allowed_slice fixes
  all_goals
    refine ⟨[sliceTo (.finite opts.maxFixesPerIteration) (fixes.filter (eligible opts))],
      ⟨s.iteration + 1, _, _, _⟩, ⟨?_, by simpa using allowed_slice fixes, rfl, ?_, ?_, ?_, ?_⟩,
      rfl, by simp [hdry]⟩
    · simp [State.detail]
    · exact Nat.le_succ _
    · simp [State.detail]
    · simp [State.detail, appliedIn]
    · rw [if_neg hdry]
      simp [State.detail, appliedIn, replayBatches, applied]

variable (validate writable patterns opts) in
theorem loop_accounts (n : ℕ) (s : State) :
    ∃ batches details,
      Accounts writable opts s (loop validate writable patterns opts n s) batches details ∧
      (loop validate writable patterns opts n s).iteration ≤ s.iteration + n := by
  induction n generalizing s with
  | zero => exact ⟨[], [], Accounts.refl s, le_rfl⟩
  | succ n ih =>
    obtain ⟨batches, detail, hround, hnext, hgoes⟩ := round_accounts validate writable patterns opts s
    simp only [loop]
    split_ifs with hgo
    · obtain ⟨hwet, batch, rfl⟩ := hgoes hgo
      obtain ⟨rest, details, hrest, hle⟩ := ih (round validate writable patterns opts s).2
      refine ⟨batch :: rest, detail :: details, hround.cons hnext hwet hrest, ?_⟩
      omega
    · exact ⟨batches, [detail], hround, by omega⟩

/-! ## The files -/

theorem applyFixes_other {w : String → Bool} {files : Dict String} {fixes : List FixSuggestion}
    {path : String} (h : path ∉ fixes.map FixSuggestion.file) :
    (applyFixes w files fixes).files.get? path = files.get? path := by
  have hnone : fixesOf fixes path = [] := by
    rw [fixesOf, List.filter_eq_nil_iff]
    intro fix hfix heq
    exact h (List.mem_map.mpr ⟨fix, hfix, of_decide_eq_true heq⟩)
  rw [applyFixes_get?, hnone]
  cases files.get? path with
  | none => rfl
  | some content =>
    have hsame : (applyAll id (splitLines content) []).lines = splitLines content := rfl
    simp [fixedContent, hsame, join_splitLines]

theorem replayBatches_other (i : ℕ) (files : Dict String) (batches : List (List Suggestion))
    {path : String} (h : path ∉ batches.flatten.map fun fix => fix.file) :
    (replayBatches writable i files batches).1.get? path = files.get? path := by
  induction batches generalizing i files with
  | nil => rfl
  | cons batch rest ih =>
    rw [List.flatten_cons, List.map_append, List.mem_append, not_or] at h
    rw [replayBatches, ih _ _ h.2, applyFixes_other]
    simpa using h.1

/-- No file comes or goes. -/
theorem replayBatches_isSome (i : ℕ) (files : Dict String) (batches : List (List Suggestion))
    (path : String) : ((replayBatches writable i files batches).1.get? path).isSome =
      (files.get? path).isSome := by
  induction batches generalizing i files with
  | nil => rfl
  | cons batch rest ih => rw [replayBatches, ih, applyFixes_get?, Option.isSome_map]

variable (validate writable patterns opts) in
/-- What was done is what is reported: the reported fixes, batch by batch, make the files and the
number of fixes, and the rounds are numbered and within the limit. -/
theorem fix_accounted (files : Dict String) (arrived : List String) :
    let r := fix validate writable patterns opts files arrived
    (∃ batches, batches.flatten = r.1.allFixes ∧ (∀ batch ∈ batches, Allowed opts batch) ∧
      (r.2, r.1.totalFixesApplied) =
        if opts.dryRun then (files, 0) else replayBatches writable 1 files batches) ∧
    r.1.iterationDetails.map IterationDetail.iteration = List.range' 1 r.1.iterations ∧
    appliedIn r.1.iterationDetails = r.1.totalFixesApplied ∧
    r.1.iterations ≤ max 1 ⌈opts.maxIterations⌉₊ ∧
    (r.1.status = .clean ↔ r.1.remainingErrors = 0) ∧
    ∀ path ∉ r.1.allFixes.map fun fix => fix.file, r.2.get? path = files.get? path := by
  by_cases hclean : (preflightCheck (validate 0 files)).totalErrors = 0
  · simp only [fix, if_pos hclean]
    refine ⟨⟨[], rfl, by simp, ?_⟩, rfl, rfl, le_max_left _ _, by simp, by simp⟩
    rw [replayBatches, ite_self]
  · obtain ⟨batches, details, h, hle⟩ :=
      loop_accounts validate writable patterns opts ⌈opts.maxIterations⌉₊ { files }
    simp only [fix, if_neg hclean]
    generalize loop validate writable patterns opts ⌈opts.maxIterations⌉₊ { files } = s at h hle
    have hfixes : batches.flatten = s.allFixes := by simpa using h.allFixes.symm
    have hdetails : s.iterationDetails = details := by simpa using h.detailed
    have htotal : s.totalFixesApplied = appliedIn details := by simpa using h.total
    refine ⟨⟨batches, hfixes, h.allowed, htotal ▸ h.files⟩, ?_, ?_, ?_, ?_, ?_⟩
    · simpa [hdetails] using h.numbered
    · rw [hdetails, htotal]
    · exact le_max_of_le_right (by simpa using hle)
    · simp only [statusOf]
      split_ifs <;> simp_all
    · intro path hpath
      have hfiles := congrArg Prod.fst h.files
      rw [show s.files = _ from hfiles]
      split_ifs
      · rfl
      · exact replayBatches_other _ _ _ (hfixes ▸ hpath)

end Account

/-! ## The differences -/

theorem snapshot_get? (files : Dict String) (arrived : List String) (path : String) :
    (snapshot files arrived).get? path =
      if path ∈ arrived then (files.get? path).map fun content => ⟨content, textLines content⟩
      else none := by
  induction arrived using List.reverseRecOn with
  | nil => rfl
  | append_singleton arrived last ih =>
    have hlast : snapshot files (arrived ++ [last]) =
        snapshotPath files (snapshot files arrived) last := by
      simp [snapshot, List.foldl_append]
    rw [hlast, snapshotPath]
    cases hread : files.get? last with
    | none =>
      simp only [ih, List.mem_append, List.mem_singleton]
      by_cases heq : path = last
      · subst heq
        simp [hread]
      · simp [heq]
    | some content =>
      simp only [Dict.get?_set, ih, List.mem_append, List.mem_singleton]
      by_cases heq : path = last
      · subst heq
        simp [hread]
      · simp [heq]

theorem snapshot_nodup (files : Dict String) (arrived : List String) :
    ((snapshot files arrived).map Prod.fst).Nodup := by
  refine List.foldlRecOn (motive := fun d : Dict FileSnapshot => (d.map Prod.fst).Nodup) arrived _
    List.nodup_nil fun snapshots h path _ => ?_
  simp only [snapshotPath]
  cases files.get? path with
  | none => exact h
  | some content => exact Dict.nodup_set h path _

theorem fileDiff_file {files : Dict String} {path : String} {before : FileSnapshot} {d : FileDiff}
    (h : fileDiff files path before = some d) : d.file = path := by
  unfold fileDiff at h
  split at h
  · rw [← Option.some.inj h]
  · simp only at h
    split_ifs at h
    rw [← Option.some.inj h]

/-- The report has at most one entry for a path: what its own turn makes. -/
theorem find?_diff (files : Dict String) {snapshots : Dict FileSnapshot}
    (hnodup : (snapshots.map Prod.fst).Nodup) (path : String) :
    (diff files snapshots).find? (fun d => d.file = path) =
      (snapshots.get? path).bind (fileDiff files path) := by
  induction snapshots with
  | nil => rfl
  | cons e snapshots ih =>
    rw [List.map_cons, List.nodup_cons] at hnodup
    have hrest := ih hnodup.2
    have hcons : diff files (e :: snapshots) =
        (fileDiff files e.1 e.2).toList ++ diff files snapshots := by
      cases hdiff : fileDiff files e.1 e.2 <;> simp [diff, hdiff]
    rw [hcons, List.find?_append, hrest, Dict.get?_cons]
    by_cases heq : e.1 = path
    · subst heq
      have hnone : Dict.get? snapshots e.1 = none := Dict.get?_eq_none.mpr hnodup.1
      cases hdiff : fileDiff files e.1 e.2 with
      | none => simp [hnone, hdiff]
      | some d => simp [hdiff, fileDiff_file hdiff]
    · cases hdiff : fileDiff files e.1 e.2 with
      | none => simp [heq]
      | some d => simp [heq, fileDiff_file hdiff]

/-- The changes that a report lists for a path. -/
def changesOf (diffs : List FileDiff) (path : String) : List LineDiff :=
  ((diffs.find? fun d => d.file = path).map FileDiff.changes).getD []

theorem replay_nil (before : List String) : DiffTracker.replay before [] = some before := by
  simp [DiffTracker.replay, copyTo]

/-- The changes of a path, replayed on the old lines, give the new ones. -/
theorem replay_fileDiff {files : Dict String} {path before after : String}
    (h : files.get? path = some after) :
    DiffTracker.replay (textLines before)
      (((fileDiff files path ⟨before, textLines before⟩).map FileDiff.changes).getD []) =
        some (textLines after) := by
  obtain ⟨changes, lcs, -, hreplay, -, hcompute⟩ :=
    computeLineDiffs_describes (textLines before) (textLines after)
  have hchanges := hcompute ((textLines before).length + (textLines after).length + 1) (by omega)
  simp only [fileDiff, h, hchanges, Option.getD_some]
  split_ifs with hsame hnone
  · rw [hsame]
    exact replay_nil _
  · rw [← hnone]
    simpa using hreplay
  · simpa using hreplay

variable (validate : ℕ → Dict String → List (String × Option ValidationResult))
  (writable : ℕ → String → Bool) (patterns : List FixPattern) (opts : AutoFixOptions)

/-- The differences that are shown are all there are in the files that were asked for. -/
theorem diffs_replay {files : Dict String} {arrived : List String} {path before : String}
    (hpath : path ∈ arrived) (hbefore : files.get? path = some before) :
    let r := fix validate writable patterns opts files arrived
    ∃ after, r.2.get? path = some after ∧
      DiffTracker.replay (textLines before) (changesOf r.1.diffs path) = some (textLines after) := by
  have hidle : DiffTracker.replay (textLines before) (changesOf [] path) =
      some (textLines before) := replay_nil _
  by_cases hclean : (preflightCheck (validate 0 files)).totalErrors = 0
  · simp only [fix, if_pos hclean]
    exact ⟨before, hbefore, hidle⟩
  · obtain ⟨batches, details, h, -⟩ :=
      loop_accounts validate writable patterns opts ⌈opts.maxIterations⌉₊ { files }
    simp only [fix, if_neg hclean]
    generalize loop validate writable patterns opts ⌈opts.maxIterations⌉₊ { files } = s at h
    have hfiles := congrArg Prod.fst h.files
    by_cases hdry : opts.dryRun = true
    · have hsame : s.files = files := by simpa [hdry] using hfiles
      rw [if_pos hdry, hsame]
      exact ⟨before, hbefore, hidle⟩
    · have hmade : s.files = (replayBatches writable 1 files batches).1 := by
        simpa [hdry] using hfiles
      have hsome : (s.files.get? path).isSome = true := by
        rw [hmade, replayBatches_isSome, hbefore]
        rfl
      obtain ⟨after, hafter⟩ := Option.isSome_iff_exists.mp hsome
      refine ⟨after, hafter, ?_⟩
      rw [if_neg hdry, changesOf, find?_diff s.files (snapshot_nodup files arrived),
        snapshot_get?, if_pos hpath, hbefore]
      exact replay_fileDiff hafter

/-- The pattern for unused variables, for a line that declares one by `const`. -/
def unusedPattern : FixPattern where
  applies error _ := error.rule = "no-unused-vars"
  generate error lineContent _ :=
    if "const ".isPrefixOf lineContent then
      some { file := error.file, line := error.line, action := .remove, confidence := .high
             description := "Remove unused variable declaration" }
    else none

/-- The first two checks find an unused variable. -/
def unusedOnce (check : ℕ) (_ : Dict String) : List (String × Option ValidationResult) :=
  [("eslint", some
    { errors := if check < 2 then [⟨"a.ts", 1, "unused", "no-unused-vars"⟩] else []
      warnings := [] })]

theorem unused_replays :
    ∃ after, (fix unusedOnce (fun _ _ => true) [unusedPattern] {}
        [("a.ts", "const a = 1;\nkept();")] ["a.ts"]).2.get? "a.ts" = some after ∧
      DiffTracker.replay (textLines "const a = 1;\nkept();") (changesOf (fix unusedOnce
        (fun _ _ => true) [unusedPattern] {} [("a.ts", "const a = 1;\nkept();")] ["a.ts"]).1.diffs
        "a.ts") = some (textLines after) :=
  diffs_replay unusedOnce (fun _ _ => true) [unusedPattern] {} (by simp) rfl

end AutoFixer
end Batiste
