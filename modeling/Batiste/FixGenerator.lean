import Batiste.Grouping
import Batiste.Json
import Batiste.JsString

/-! `applyFixes` of `FixGenerator.ts`, and when it leaves alone the lines that no fix names. -/
namespace Batiste
namespace FixGenerator

open Grouping

inductive FixAction
  | replace
  | remove
  | insert
  deriving DecidableEq, Repr

/-- The fields of a suggestion that are read when it is applied. -/
structure FixSuggestion where
  file : String
  line : ℤ
  action : FixAction
  replacement : Option String := none
  insertAfter : Option String := none
  deriving DecidableEq, Repr

/-- The lines of a file while its fixes are applied. -/
structure Edited (α : Type) where
  lines : List α
  applied : ℕ
  failed : ℕ
  deriving DecidableEq, Repr

section Lines

variable {α : Type} (ofText : String → α)

/-- One fix; `ofText` is what a line of a fix becomes in the list. -/
def applyFix (e : Edited α) (fix : FixSuggestion) : Edited α :=
  let lineIndex := fix.line - 1
  if lineIndex < 0 ∨ e.lines.length ≤ lineIndex then { e with failed := e.failed + 1 }
  else
    match fix.action with
    | .replace =>
      match fix.replacement with
      | some replacement =>
        { e with
          lines := e.lines.set lineIndex.toNat (ofText replacement), applied := e.applied + 1 }
      | none => e
    | .remove => { e with lines := e.lines.eraseIdx lineIndex.toNat, applied := e.applied + 1 }
    | .insert =>
      match fix.insertAfter with
      | some insertAfter =>
        { e with
          lines := e.lines.insertIdx (lineIndex.toNat + 1) (ofText insertAfter)
          applied := e.applied + 1 }
      | none => e

/-- The comparison of the sort: later lines first. -/
def laterFirst (a b : FixSuggestion) : Prop := b.line ≤ a.line

instance : DecidableRel laterFirst := fun a b => inferInstanceAs (Decidable (b.line ≤ a.line))

/-- The fixes of one file, applied to its lines. -/
def applyAll (lines : List α) (fileFixes : List FixSuggestion) : Edited α :=
  (fileFixes.insertionSort laterFirst).foldl (applyFix ofText) ⟨lines, 0, 0⟩

end Lines

def splitLines (content : String) : List String := (content.toList.splitOn '\n').map String.ofList

/-- The files, and what the call returns. -/
structure Outcome where
  files : Dict String
  applied : ℕ
  failed : ℕ
  deriving DecidableEq, Repr

/-- The fixes of one file; a file that cannot be written stays as it is. -/
def applyFile (writable : String → Bool) (o : Outcome) (filePath : String)
    (fileFixes : List FixSuggestion) : Outcome :=
  match o.files.get? filePath with
  | none => { o with failed := o.failed + fileFixes.length }
  | some content =>
    let e := applyAll id (splitLines content) fileFixes
    if writable filePath then
      { files := o.files.set filePath ("\n".intercalate e.lines)
        applied := o.applied + e.applied
        failed := o.failed + e.failed }
    else
      { o with
        applied := o.applied + e.applied
        failed := o.failed + e.failed + fileFixes.length }

def applyFixes (writable : String → Bool) (files : Dict String) (fixes : List FixSuggestion) :
    Outcome :=
  (groupBy FixSuggestion.file fixes).foldl (fun o group => applyFile writable o group.1 group.2)
    { files, applied := 0, failed := 0 }

/-! ## Lines that know where they come from -/

/-- A line with its position in the file, if it comes from there. -/
abbrev Tagged := Option ℕ × String

def ofFix (text : String) : Tagged := (none, text)

def tagged (lines : List String) : List Tagged := lines.mapIdx fun i line => (some i, line)

/-- A line of the file that no fix names. -/
def untargeted (fixes : List FixSuggestion) (line : Tagged) : Bool :=
  match line.1 with
  | some i => !fixes.any fun fix => decide (fix.line = i + 1)
  | none => false

/-- The lines that no fix names are all there, in their order. -/
def KeepsUntargeted (lines : List String) (fixes : List FixSuggestion) : Prop :=
  ((tagged lines).filter (untargeted fixes)).Sublist (applyAll ofFix (tagged lines) fixes).lines

/-! ## The condition -/

/-- How many lines, from the one a fix names on, are named by fixes or come from them, before one
that is not; none when there is no such line behind. -/
abbrev Slack := Option ℕ

/-- A removal, or a replacement with a text, of a line that no fix names. -/
def harms (slack : Slack) (fix : FixSuggestion) : Bool :=
  decide (slack = some 0) &&
    match fix.action with
    | .replace => fix.replacement.isSome
    | .remove => true
    | .insert => false

/-- What a fix that does no harm leaves of it. -/
def slackAfter (slack : Slack) (fix : FixSuggestion) : Slack :=
  match fix.action with
  | .replace => slack
  | .remove => slack.map (· - 1)
  | .insert => if fix.insertAfter.isSome then slack.map fun n => if n = 0 then 0 else n + 1 else slack

/-- What a fix begins with, behind fixes of the line `prev`. -/
def slackAt (prev : ℤ) (slack : Slack) (line : ℤ) : Slack :=
  if line = prev then slack else if line + 1 = prev then slack.map (· + 1) else some 1

/-- No fix of the sorted list removes or replaces a line that none of them names. -/
def harmless (lineCount : ℕ) : ℤ → Slack → List FixSuggestion → Bool
  | _, _, [] => true
  | prev, slack, fix :: rest =>
    if fix.line < 1 ∨ lineCount < fix.line then harmless lineCount prev slack rest
    else
      !harms (slackAt prev slack fix.line) fix &&
        harmless lineCount fix.line (slackAfter (slackAt prev slack fix.line) fix) rest

/-! ## One fix at its line -/

section Suffix

variable {α : Type} (ofText : String → α)

/-- A fix on the lines from its own on. -/
def applyAt (fix : FixSuggestion) : List α → List α
  | [] => []
  | x :: rest =>
    match fix.action with
    | .replace => fix.replacement.elim x ofText :: rest
    | .remove => rest
    | .insert => x :: (fix.insertAfter.elim rest fun text => ofText text :: rest)

theorem eraseIdx_behind (front : List α) (x : α) (rest : List α) :
    (front ++ x :: rest).eraseIdx front.length = front ++ rest := by
  rw [List.eraseIdx_append_of_length_le le_rfl, Nat.sub_self, List.eraseIdx_cons_zero]

theorem insertIdx_behind (front : List α) (x y : α) (rest : List α) :
    (front ++ x :: rest).insertIdx (front.length + 1) y = front ++ x :: y :: rest := by
  induction front with
  | nil => rfl
  | cons z front ih => simpa using ih

theorem applyFix_lines {front suffix : List α} {fix : FixSuggestion}
    (hfront : (front.length : ℤ) = fix.line - 1) (applied failed : ℕ) :
    (applyFix ofText ⟨front ++ suffix, applied, failed⟩ fix).lines =
      front ++ applyAt ofText fix suffix := by
  have hindex : (fix.line - 1).toNat = front.length := by omega
  cases suffix with
  | nil =>
    rw [applyFix, if_pos (by simp; omega)]
    rfl
  | cons x rest =>
    rw [applyFix, if_neg (by simp; omega), applyAt]
    cases fix.action with
    | replace => cases fix.replacement <;> simp [hindex]
    | remove => simp [hindex, eraseIdx_behind]
    | insert => cases fix.insertAfter <;> simp [hindex, insertIdx_behind]

theorem applyFix_out {e : Edited α} {fix : FixSuggestion}
    (h : fix.line < 1 ∨ e.lines.length < fix.line) : (applyFix ofText e fix).lines = e.lines := by
  rw [applyFix, if_pos (by omega)]

/-! ## What is named by no fix -/

variable (keep : α → Bool)

/-- The slack of the lines from a position on. -/
def lead : List α → Slack
  | [] => none
  | x :: rest => if keep x then some 0 else (lead rest).map (· + 1)

variable {ofText keep} (hkeep : ∀ text, keep (ofText text) = false)

include hkeep

theorem lead_applyAt_loose {fix : FixSuggestion} {x : α} (hx : keep x = false) (rest : List α) :
    lead keep (applyAt ofText fix (x :: rest)) = slackAfter (lead keep (x :: rest)) fix := by
  have hlead : lead keep (x :: rest) = (lead keep rest).map (· + 1) := by
    rw [lead, if_neg (by simp [hx])]
  rw [hlead, applyAt, slackAfter]
  cases fix.action with
  | replace => cases fix.replacement <;> simp [lead, hx, hkeep]
  | remove => cases lead keep rest <;> simp
  | insert => cases fix.insertAfter <;> cases hrest : lead keep rest <;> simp [lead, hx, hkeep, hrest]

theorem filter_applyAt_loose {fix : FixSuggestion} {x : α} (hx : keep x = false) (rest : List α) :
    (applyAt ofText fix (x :: rest)).filter keep = rest.filter keep := by
  rw [applyAt]
  cases fix.action with
  | replace => cases fix.replacement <;> simp [hx, hkeep]
  | remove => rfl
  | insert => cases fix.insertAfter <;> simp [hx, hkeep]

/-- A line that is kept is still there after a fix that does no harm. -/
theorem applyAt_kept {fix : FixSuggestion} (x : α) (rest : List α)
    (h : harms (some 0) fix = false) :
    ∃ more, applyAt ofText fix (x :: rest) = x :: more ∧ more.filter keep = rest.filter keep := by
  rw [applyAt]
  cases haction : fix.action with
  | replace =>
    cases hreplacement : fix.replacement with
    | none => exact ⟨rest, rfl, rfl⟩
    | some text => simp [harms, haction, hreplacement] at h
  | remove => simp [harms, haction] at h
  | insert =>
    cases fix.insertAfter with
    | none => exact ⟨rest, rfl, rfl⟩
    | some text => exact ⟨ofText text :: rest, rfl, by simp [hkeep]⟩

/-- It is gone after a fix that does harm, and no other such line is. -/
theorem filter_applyAt_harmed {fix : FixSuggestion} {x : α} (rest : List α)
    (h : harms (some 0) fix = true) :
    (applyAt ofText fix (x :: rest)).filter keep = rest.filter keep := by
  rw [applyAt]
  cases haction : fix.action with
  | replace =>
    cases hreplacement : fix.replacement with
    | none => simp [harms, haction, hreplacement] at h
    | some text => simp [hkeep]
  | remove => rfl
  | insert => simp [harms, haction] at h

omit hkeep in
theorem slackAfter_zero (fix : FixSuggestion) : slackAfter (some 0) fix = some 0 := by
  unfold slackAfter
  cases fix.action <;> simp

omit hkeep in
theorem lead_kept {x : α} (hx : keep x = true) (rest : List α) :
    lead keep (x :: rest) = some 0 := if_pos hx

omit hkeep in
theorem harms_loose {fix : FixSuggestion} {x : α} (hx : keep x = false) (rest : List α) :
    harms (lead keep (x :: rest)) fix = false := by
  rw [lead, if_neg (by simp [hx]), harms]
  cases lead keep rest <;> simp

theorem lead_applyAt {fix : FixSuggestion} {suffix : List α}
    (h : harms (lead keep suffix) fix = false) :
    lead keep (applyAt ofText fix suffix) = slackAfter (lead keep suffix) fix := by
  cases suffix with
  | nil => cases haction : fix.action <;> simp [applyAt, lead, slackAfter, haction]
  | cons x rest =>
    cases hx : keep x with
    | false => exact lead_applyAt_loose hkeep hx rest
    | true =>
      rw [lead_kept hx] at h ⊢
      obtain ⟨more, hmore, -⟩ := applyAt_kept hkeep x rest h
      rw [hmore, lead_kept hx, slackAfter_zero]

theorem filter_applyAt {fix : FixSuggestion} {suffix : List α}
    (h : harms (lead keep suffix) fix = false) :
    (applyAt ofText fix suffix).filter keep = suffix.filter keep := by
  cases suffix with
  | nil => rfl
  | cons x rest =>
    cases hx : keep x with
    | false => rw [filter_applyAt_loose hkeep hx, List.filter_cons_of_neg (by simp [hx])]
    | true =>
      rw [lead_kept hx] at h
      obtain ⟨more, hmore, hfilter⟩ := applyAt_kept hkeep x rest h
      rw [hmore, List.filter_cons_of_pos hx, List.filter_cons_of_pos hx, hfilter]

theorem filter_applyAt_lt {fix : FixSuggestion} {suffix : List α}
    (h : harms (lead keep suffix) fix = true) :
    ((applyAt ofText fix suffix).filter keep).length < (suffix.filter keep).length := by
  cases suffix with
  | nil => simp [lead, harms] at h
  | cons x rest =>
    cases hx : keep x with
    | false => simp [harms_loose hx rest] at h
    | true =>
      rw [lead_kept hx] at h
      rw [filter_applyAt_harmed hkeep rest h, List.filter_cons_of_pos hx, List.length_cons]
      exact Nat.lt_succ_self _

/-- No fix brings a line back or puts one in another place. -/
theorem filter_applyAt_sublist (fix : FixSuggestion) (suffix : List α) :
    ((applyAt ofText fix suffix).filter keep).Sublist (suffix.filter keep) := by
  cases hharm : harms (lead keep suffix) fix with
  | false => rw [filter_applyAt hkeep hharm]
  | true =>
    cases suffix with
    | nil => exact List.Sublist.refl _
    | cons x rest =>
      cases hx : keep x with
      | false => simp [harms_loose hx rest] at hharm
      | true =>
        rw [lead_kept hx] at hharm
        rw [filter_applyAt_harmed hkeep rest hharm]
        exact (List.sublist_cons_self x rest).filter keep

end Suffix

/-! ## All fixes -/

section All

variable {α : Type} {ofText : String → α} {keep : α → Bool}
  (hkeep : ∀ text, keep (ofText text) = false)

include hkeep

theorem applyFix_filter_sublist (e : Edited α) (fix : FixSuggestion) :
    ((applyFix ofText e fix).lines.filter keep).Sublist (e.lines.filter keep) := by
  by_cases hout : fix.line < 1 ∨ (e.lines.length : ℤ) < fix.line
  · rw [applyFix_out ofText hout]
  · obtain ⟨lines, applied, failed⟩ := e
    have hfront : ((lines.take (fix.line - 1).toNat).length : ℤ) = fix.line - 1 := by
      rw [List.length_take]
      simp only at hout
      omega
    rw [← List.take_append_drop (fix.line - 1).toNat lines, applyFix_lines ofText hfront,
      List.filter_append, List.filter_append]
    exact (filter_applyAt_sublist hkeep fix _).append_left _

theorem foldl_filter_sublist (e : Edited α) (fixes : List FixSuggestion) :
    ((fixes.foldl (applyFix ofText) e).lines.filter keep).Sublist (e.lines.filter keep) := by
  induction fixes generalizing e with
  | nil => exact List.Sublist.refl _
  | cons fix rest ih => exact (ih _).trans (applyFix_filter_sublist hkeep e fix)

omit hkeep in
/-- What a fix finds from its line on, and how much slack that has. -/
theorem lead_slackAt (suffix : List α) {orig : List α} {prev : ℤ} {fix : FixSuggestion}
    {rest : List FixSuggestion} (hprev : prev ≤ orig.length + 1)
    (hfix : 1 ≤ fix.line ∧ fix.line ≤ prev) (hrest : ∀ f ∈ rest, f.line ≤ fix.line)
    (hmark : ∀ i (hi : i < orig.length), (i : ℤ) + 1 < prev →
      (keep orig[i] = true ↔ ∀ f ∈ fix :: rest, f.line ≠ i + 1)) :
    ∃ more, orig.take (prev - 1).toNat ++ suffix = orig.take (fix.line - 1).toNat ++ more ∧
      lead keep more = slackAt prev (lead keep suffix) fix.line := by
  obtain ⟨k, hk⟩ := Int.eq_ofNat_of_zero_le (by omega : 0 ≤ fix.line - 1)
  obtain ⟨m, hm⟩ := Int.eq_ofNat_of_zero_le (by omega : 0 ≤ prev - 1)
  have hline : fix.line = k + 1 := by omega
  have hkm : k ≤ m := by omega
  rw [hk, hm, Int.toNat_natCast, Int.toNat_natCast, slackAt]
  have hsplit : orig.take m = orig.take k ++ (orig.drop k).take (m - k) := by
    rw [← List.take_add, Nat.add_sub_cancel' hkm]
  refine ⟨(orig.drop k).take (m - k) ++ suffix, by rw [hsplit, List.append_assoc], ?_⟩
  split
  case isTrue hsame =>
    obtain rfl : k = m := by omega
    rw [Nat.sub_self, List.take_zero, List.nil_append]
  case isFalse hother =>
    have hlt : k < orig.length := by omega
    have htargeted : keep orig[k] = false := by
      rw [Bool.eq_false_iff]
      intro hkept
      exact (hmark k hlt (by omega)).mp hkept fix List.mem_cons_self hline
    rw [show m - k = (m - k - 1) + 1 by omega, List.drop_eq_getElem_cons hlt, List.take_succ_cons,
      List.cons_append, lead, if_neg (by simp [htargeted])]
    split
    case isTrue hnext =>
      obtain rfl : m = k + 1 := by omega
      simp
    case isFalse hgap =>
      have hlt' : k + 1 < orig.length := by omega
      have hkept : keep orig[k + 1] = true := by
        refine (hmark (k + 1) hlt' (by omega)).mpr fun f hf heq => ?_
        rcases List.mem_cons.mp hf with rfl | hf
        · omega
        · have := hrest f hf
          omega
      rw [show m - k - 1 = (m - k - 2) + 1 by omega, List.drop_eq_getElem_cons hlt',
        List.take_succ_cons, List.cons_append, lead_kept hkept]
      rfl

/-- From a line on, the sorted fixes leave the kept lines exactly when they are harmless. -/
theorem foldl_keeps_iff {orig suffix : List α} {prev : ℤ} {fixes : List FixSuggestion}
    {e : Edited α} (hlines : e.lines = orig.take (prev - 1).toNat ++ suffix)
    (hprev : 1 ≤ prev ∧ prev ≤ orig.length + 1) (hsorted : fixes.Pairwise laterFirst)
    (hrange : ∀ f ∈ fixes, f.line ≤ orig.length → f.line ≤ prev)
    (hstart : ∀ f ∈ fixes, orig.length < f.line → suffix = [])
    (hmark : ∀ i (hi : i < orig.length), (i : ℤ) + 1 < prev →
      (keep orig[i] = true ↔ ∀ f ∈ fixes, f.line ≠ i + 1)) :
    (fixes.foldl (applyFix ofText) e).lines.filter keep = e.lines.filter keep ↔
      harmless orig.length prev (lead keep suffix) fixes = true := by
  induction fixes generalizing prev suffix e with
  | nil => simp [harmless]
  | cons fix rest ih =>
    obtain ⟨hlater, hsorted⟩ := List.pairwise_cons.mp hsorted
    rw [List.forall_mem_cons] at hrange hstart
    rw [List.foldl_cons, harmless]
    split
    case isTrue hout =>
      have hsame : (applyFix ofText e fix).lines = e.lines := by
        refine applyFix_out ofText (hout.imp_right fun hbehind => ?_)
        rw [hlines, hstart.1 hbehind, List.append_nil, List.length_take]
        omega
      rw [← hsame]
      refine ih (hsame.trans hlines) hprev hsorted hrange.2 hstart.2 fun i hi hlt => ?_
      rw [hmark i hi hlt, List.forall_mem_cons]
      exact and_iff_right (by omega)
    case isFalse hin =>
      have hle := hrange.1 (by omega)
      obtain ⟨more, hmore, hlead⟩ := lead_slackAt suffix hprev.2 ⟨by omega, hle⟩
        hlater hmark
      have hfront : ((orig.take (fix.line - 1).toNat).length : ℤ) = fix.line - 1 := by
        rw [List.length_take]
        omega
      have hnext : (applyFix ofText e fix).lines =
          orig.take (fix.line - 1).toNat ++ applyAt ofText fix more := by
        obtain ⟨lines, applied, failed⟩ := e
        rw [← applyFix_lines ofText hfront applied failed, ← hmore, ← hlines]
      rw [hlines, hmore, ← hlead]
      cases hharm : harms (lead keep more) fix with
      | true =>
        refine iff_of_false (fun heq => ?_) (by simp)
        have hless := filter_applyAt_lt hkeep hharm
        have hle := (foldl_filter_sublist hkeep (applyFix ofText e fix) rest).length_le
        rw [heq, hnext, List.filter_append, List.filter_append, List.length_append,
          List.length_append] at hle
        omega
      | false =>
        have hfilter : (orig.take (fix.line - 1).toNat ++ more).filter keep =
            (applyFix ofText e fix).lines.filter keep := by
          rw [hnext, List.filter_append, List.filter_append, filter_applyAt hkeep hharm]
        rw [hfilter, ← lead_applyAt hkeep hharm, Bool.not_false, Bool.true_and]
        refine ih hnext ⟨by omega, by omega⟩ hsorted (fun f hf _ => hlater f hf)
          (fun f hf hbehind => ?_) fun i hi hlt => ?_
        · have := hlater f hf
          unfold laterFirst at this
          omega
        · rw [hmark i hi (by omega), List.forall_mem_cons]
          exact and_iff_right (by omega)

end All

/-! ## The lines of a file -/

theorem applyFix_map {α β : Type} {ofText : String → α} {ofText' : String → β} {f : α → β}
    (hf : ∀ text, f (ofText text) = ofText' text) {e : Edited α} {e' : Edited β}
    (he : e.lines.map f = e'.lines) (fix : FixSuggestion) :
    (applyFix ofText e fix).lines.map f = (applyFix ofText' e' fix).lines := by
  have hlength : e'.lines.length = e.lines.length := by rw [← he, List.length_map]
  rw [applyFix, applyFix, hlength]
  split
  · exact he
  · cases fix.action with
    | replace => cases fix.replacement <;> simp [he, hf, List.map_set]
    | remove => simp [List.eraseIdx_map, ← he]
    | insert => cases fix.insertAfter <;> simp [he, hf, List.map_insertIdx]

theorem foldl_applyFix_map {α β : Type} {ofText : String → α} {ofText' : String → β} {f : α → β}
    (hf : ∀ text, f (ofText text) = ofText' text) {e : Edited α} {e' : Edited β}
    (he : e.lines.map f = e'.lines) (fixes : List FixSuggestion) :
    (fixes.foldl (applyFix ofText) e).lines.map f =
      (fixes.foldl (applyFix ofText') e').lines := by
  induction fixes generalizing e e' with
  | nil => exact he
  | cons fix rest ih => exact ih (applyFix_map hf he fix)

theorem tagged_map_snd (lines : List String) : (tagged lines).map Prod.snd = lines := by
  refine List.ext_getElem (by simp [tagged]) fun i _ _ => ?_
  simp [tagged]

/-- Without the tags the tagged lines are edited as the lines of the file are. -/
theorem applyAll_tagged (lines : List String) (fixes : List FixSuggestion) :
    (applyAll ofFix (tagged lines) fixes).lines.map Prod.snd = (applyAll id lines fixes).lines :=
  foldl_applyFix_map (fun _ => rfl) (tagged_map_snd lines) _

/-- A part of a list is still in another that has no more of it. -/
theorem filter_sublist_iff {α : Type} {keep : α → Bool} {xs ys : List α}
    (h : (ys.filter keep).Sublist (xs.filter keep)) :
    (xs.filter keep).Sublist ys ↔ ys.filter keep = xs.filter keep := by
  constructor
  · intro hsub
    have hfilter := hsub.filter keep
    rw [List.filter_filter] at hfilter
    simp only [Bool.and_self] at hfilter
    exact h.antisymm hfilter
  · intro heq
    rw [← heq]
    exact List.filter_sublist

theorem keepsUntargeted_iff (lines : List String) (fixes : List FixSuggestion) :
    KeepsUntargeted lines fixes ↔ harmless lines.length (lines.length + 1) none
      (fixes.insertionSort laterFirst) = true := by
  have hkeep : ∀ text, untargeted fixes (ofFix text) = false := fun _ => rfl
  have hlength : (tagged lines).length = lines.length := List.length_mapIdx
  have hsorted : (fixes.insertionSort laterFirst).Pairwise laterFirst := by
    have htotal : Std.Total laterFirst := ⟨fun a b => le_total b.line a.line⟩
    have htrans : IsTrans FixSuggestion laterFirst := ⟨fun _ _ _ hab hbc => le_trans hbc hab⟩
    exact List.pairwise_insertionSort laterFirst fixes
  have hsub := foldl_filter_sublist hkeep ⟨tagged lines, 0, 0⟩ (fixes.insertionSort laterFirst)
  rw [KeepsUntargeted, applyAll, filter_sublist_iff hsub, ← hlength]
  refine foldl_keeps_iff hkeep ?_ ⟨by omega, le_rfl⟩ hsorted (fun f _ hle => by omega)
    (fun _ _ _ => rfl) fun i hi _ => ?_
  · simp
  · simp only [tagged, List.getElem_mapIdx, untargeted, Bool.not_eq_true', List.any_eq_false,
      decide_eq_true_eq, List.mem_insertionSort]

/-! ## The files -/

theorem join_splitLines (content : String) : "\n".intercalate (splitLines content) = content := by
  apply String.toList_inj.mp
  rw [String.toList_intercalate, splitLines, List.map_map]
  simp only [Function.comp_def, String.toList_ofList, List.map_id']
  exact List.intercalate_splitOn '\n'

/-- What the fixes make of the content of a file. -/
def fixedContent (writable : String → Bool) (path : String) (fileFixes : List FixSuggestion)
    (content : String) : String :=
  if writable path then "\n".intercalate (applyAll id (splitLines content) fileFixes).lines
  else content

theorem applyFile_get? (writable : String → Bool) (o : Outcome) (filePath path : String)
    (fileFixes : List FixSuggestion) :
    (applyFile writable o filePath fileFixes).files.get? path =
      if path = filePath then (o.files.get? path).map (fixedContent writable path fileFixes)
      else o.files.get? path := by
  rw [applyFile]
  by_cases hpath : path = filePath
  · subst hpath
    rw [if_pos rfl]
    cases hread : o.files.get? path with
    | none => simp [hread]
    | some content =>
      cases hwritable : writable path with
      | true => simp [fixedContent, hwritable, Dict.get?_set]
      | false => simp [fixedContent, hwritable, hread]
  · rw [if_neg hpath]
    cases o.files.get? filePath with
    | none => rfl
    | some content => cases writable filePath <;> simp [Dict.get?_set, hpath]

theorem foldl_applyFile_get? (writable : String → Bool) (path : String)
    {groups : List (String × List FixSuggestion)} (hkeys : (groups.map Prod.fst).Nodup)
    (o : Outcome) :
    (groups.foldl (fun o group => applyFile writable o group.1 group.2) o).files.get? path =
      (o.files.get? path).map fun content =>
        (groups.find? fun group => group.1 = path).elim content fun group =>
          fixedContent writable path group.2 content := by
  induction groups generalizing o with
  | nil => simp
  | cons group groups ih =>
    rw [List.map_cons, List.nodup_cons] at hkeys
    rw [List.foldl_cons, ih hkeys.2, applyFile_get?, List.find?_cons]
    by_cases hpath : group.1 = path
    · have hnone : groups.find? (fun group => decide (group.1 = path)) = none := by
        rw [List.find?_eq_none]
        intro g hg heq
        exact hkeys.1 (hpath ▸ of_decide_eq_true heq ▸ List.mem_map_of_mem hg)
      simp [hpath, hnone, Function.comp_def]
    · simp [hpath, Ne.symm hpath]

def fixesOf (fixes : List FixSuggestion) (path : String) : List FixSuggestion :=
  fixes.filter fun fix => decide (fix.file = path)

/-- Each file is changed by its own fixes alone. -/
theorem applyFixes_get? (writable : String → Bool) (files : Dict String)
    (fixes : List FixSuggestion) (path : String) :
    (applyFixes writable files fixes).files.get? path = (files.get? path).map
      (fixedContent writable path (fixesOf fixes path)) := by
  have hgrouped := grouped FixSuggestion.file fixes
  rw [applyFixes, foldl_applyFile_get? writable path hgrouped.keys]
  cases hfind : (groupBy FixSuggestion.file fixes).find? fun group => decide (group.1 = path) with
  | none =>
    have hnone : fixesOf fixes path = [] := by
      rw [fixesOf, List.filter_eq_nil_iff]
      intro fix hfix heq
      obtain ⟨group, hgroup, hkey⟩ := List.mem_map.mp (hgrouped.covers fix hfix)
      rw [List.find?_eq_none] at hfind
      exact hfind group hgroup (by simpa [hkey] using heq)
    rw [hnone]
    refine congrArg (fun f => (files.get? path).map f) (funext fun content => ?_)
    have hsame : (applyAll id (splitLines content) []).lines = splitLines content := rfl
    simp [fixedContent, hsame, join_splitLines]
  | some group =>
    have hkey : group.1 = path := by simpa using List.find?_some hfind
    rw [fixesOf, ← hkey, ← (hgrouped.items group (List.mem_of_find?_eq_some hfind)).1]
    rfl

/-- The lines of a file that no fix names are all there after `applyFixes`, in their order, exactly
when the fixes of the file, later lines first, do no harm. The tags are for the statement only:
without them the lines are those that are written. -/
theorem untargeted_kept_iff (writable : String → Bool) (files : Dict String)
    (fixes : List FixSuggestion) (path : String) :
    (applyFixes writable files fixes).files.get? path = (files.get? path).map
      (fixedContent writable path (fixesOf fixes path)) ∧
    ∀ content,
      (applyAll ofFix (tagged (splitLines content)) (fixesOf fixes path)).lines.map Prod.snd =
        (applyAll id (splitLines content) (fixesOf fixes path)).lines ∧
      (KeepsUntargeted (splitLines content) (fixesOf fixes path) ↔
        harmless (splitLines content).length ((splitLines content).length + 1) none
          ((fixesOf fixes path).insertionSort laterFirst) = true) :=
  ⟨applyFixes_get? writable files fixes path, fun content =>
    ⟨applyAll_tagged (splitLines content) _, keepsUntargeted_iff (splitLines content) _⟩⟩

/-- Two declarations of one line that are both unused: the line is removed, and then the next. -/
theorem next_line_removed :
    (applyFixes (fun _ => true) [("a.ts", "const a = 1, b = 2;\nkept();\nlast();")]
      [{ file := "a.ts", line := 1, action := .remove },
       { file := "a.ts", line := 1, action := .remove }]).files.get? "a.ts" = some "last();" ∧
    ¬ ["kept();", "last();"].Sublist (splitLines "last();") := by
  decide +kernel

end FixGenerator
end Batiste
