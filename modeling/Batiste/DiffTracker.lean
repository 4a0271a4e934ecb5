import Batiste.CommonSubsequence

/-! `computeLineDiffs` of `DiffTracker.ts`: the table of common subsequences, the way back through
it, and the loop that writes the changes down. -/
namespace Batiste
namespace DiffTracker

open CommonSubsequence

inductive ChangeType
  | add
  | remove
  | change
  deriving DecidableEq, Repr

structure LineDiff where
  line : ℕ
  type : ChangeType
  before : Option String := none
  after : Option String := none
  deriving DecidableEq, Repr

/-! ## `longestCommonSubsequence` -/

/-- The rest of a row of `dp`, from the rest of the row above and the value to the left. -/
def fillRow (x : String) : List ℕ → ℕ → List String → List ℕ
  | diagonal :: above :: prev, left, y :: b =>
    let value := if x = y then diagonal + 1 else max above left
    value :: fillRow x (above :: prev) value b
  | _, _, _ => []

/-- The rows of `dp` from a row on. -/
def fillRows (b : List String) : List ℕ → List String → List (List ℕ)
  | prev, [] => [prev]
  | prev, x :: a => prev :: fillRows b (0 :: fillRow x prev 0 b) a

def dp (a b : List String) : List (List ℕ) := fillRows b (List.replicate (b.length + 1) 0) a

/-- `dp[r]?.[c] ?? 0` -/
def at_ (dp : List (List ℕ)) (r c : ℕ) : ℕ := ((dp[r]?.getD [])[c]?).getD 0

/-- The way back from a cell of the table; what is found is put in front. -/
def backtrack (a b : List String) (dp : List (List ℕ)) : ℕ → ℕ → List String → List String
  | i + 1, j + 1, lcs =>
    if a[i]? = b[j]? then backtrack a b dp i j ((a[i]?).getD "" :: lcs)
    else if at_ dp (i + 1) j < at_ dp i (j + 1) then backtrack a b dp i (j + 1) lcs
    else backtrack a b dp (i + 1) j lcs
  | 0, _, lcs => lcs
  | _ + 1, 0, lcs => lcs
termination_by i j => i + j

def longestCommonSubsequence (a b : List String) : List String :=
  backtrack a b (dp a b) a.length b.length []

/-! ## `computeLineDiffs` -/

structure Cursor where
  beforeIdx : ℕ
  afterIdx : ℕ
  lcsIdx : ℕ
  changes : List LineDiff
  deriving DecidableEq, Repr

section Loop

variable (before after lcs : List String)

/-- One turn of the loop; none when its condition fails. -/
def step (c : Cursor) : Option Cursor :=
  if c.beforeIdx < before.length ∨ c.afterIdx < after.length then
    some (
      if c.lcsIdx < lcs.length ∧ c.beforeIdx < before.length ∧
          before[c.beforeIdx]? = lcs[c.lcsIdx]? then
        if c.afterIdx < after.length ∧ after[c.afterIdx]? = lcs[c.lcsIdx]? then
          { c with
            beforeIdx := c.beforeIdx + 1, afterIdx := c.afterIdx + 1, lcsIdx := c.lcsIdx + 1 }
        else
          { c with
            changes := c.changes ++
              [{ line := c.afterIdx + 1, type := .add, after := after[c.afterIdx]? }]
            afterIdx := c.afterIdx + 1 }
      else if c.lcsIdx < lcs.length ∧ c.afterIdx < after.length ∧
          after[c.afterIdx]? = lcs[c.lcsIdx]? then
        { c with
          changes := c.changes ++
            [{ line := c.beforeIdx + 1, type := .remove, before := before[c.beforeIdx]? }]
          beforeIdx := c.beforeIdx + 1 }
      else if c.beforeIdx < before.length ∧ c.afterIdx < after.length then
        { c with
          changes := c.changes ++
            [{ line := c.beforeIdx + 1, type := .change, before := before[c.beforeIdx]?,
               after := after[c.afterIdx]? }]
          beforeIdx := c.beforeIdx + 1
          afterIdx := c.afterIdx + 1 }
      else if c.beforeIdx < before.length then
        { c with
          changes := c.changes ++
            [{ line := c.beforeIdx + 1, type := .remove, before := before[c.beforeIdx]? }]
          beforeIdx := c.beforeIdx + 1 }
      else
        { c with
          changes := c.changes ++
            [{ line := c.afterIdx + 1, type := .add, after := after[c.afterIdx]? }]
          afterIdx := c.afterIdx + 1 })
  else none

/-- The loop, for as many turns as there is fuel. -/
def run : ℕ → Cursor → Option (List LineDiff)
  | 0, _ => none
  | fuel + 1, c =>
    match step before after lcs c with
    | none => some c.changes
    | some next => run fuel next

end Loop

def computeLineDiffs (fuel : ℕ) (before after : List String) : Option (List LineDiff) :=
  run before after (longestCommonSubsequence before after) fuel
    { beforeIdx := 0, afterIdx := 0, lcsIdx := 0, changes := [] }

/-! ## The table -/

/-- A row of the table: the lengths for all prefixes of the second list, from one on. -/
def Row (xs front : List String) : List String → List ℕ → Prop
  | [], ns => ∃ n, ns = [n] ∧ HasLength xs front n
  | y :: b, ns => ∃ n rest, ns = n :: rest ∧ HasLength xs front n ∧ Row xs (front ++ [y]) b rest

theorem Row.exists_head {xs front b : List String} {ns : List ℕ} (h : Row xs front b ns) :
    ∃ n rest, ns = n :: rest ∧ HasLength xs front n := by
  cases b with
  | nil =>
    obtain ⟨n, rfl, hn⟩ := h
    exact ⟨n, [], rfl, hn⟩
  | cons y b =>
    obtain ⟨n, rest, rfl, hn, -⟩ := h
    exact ⟨n, rest, rfl, hn⟩

theorem fillRow_row {xs front b : List String} {x : String} {prev : List ℕ} {left : ℕ}
    (hprev : Row xs front b prev) (hleft : HasLength (xs ++ [x]) front left) :
    Row (xs ++ [x]) front b (left :: fillRow x prev left b) := by
  induction b generalizing front prev left with
  | nil =>
    obtain ⟨n, rfl, hn⟩ := hprev
    exact ⟨left, by simp [fillRow], hleft⟩
  | cons y b ih =>
    obtain ⟨diagonal, rest, rfl, hdiagonal, hrest⟩ := hprev
    obtain ⟨above, rest, rfl, habove⟩ := hrest.exists_head
    refine ⟨left, _, rfl, hleft, ?_⟩
    rw [fillRow]
    refine ih hrest ?_
    split
    case isTrue heq =>
      subst heq
      exact hdiagonal.concat x
    case isFalse hne => exact HasLength.concat_of_ne hne habove hleft

theorem row_zero (front b : List String) : Row [] front b (List.replicate (b.length + 1) 0) := by
  induction b generalizing front with
  | nil => exact ⟨0, rfl, (longest_nil_left front).hasLength⟩
  | cons y b ih => exact ⟨0, _, rfl, (longest_nil_left front).hasLength, ih _⟩

theorem Row.get {xs front b : List String} {ns : List ℕ} (h : Row xs front b ns) {j : ℕ}
    (hj : j ≤ b.length) : HasLength xs (front ++ b.take j) ((ns[j]?).getD 0) := by
  induction b generalizing front ns j with
  | nil =>
    obtain ⟨n, rfl, hn⟩ := h
    obtain rfl : j = 0 := by simpa using hj
    simpa using hn
  | cons y b ih =>
    obtain ⟨n, rest, rfl, hn, hrest⟩ := h
    cases j with
    | zero => simpa using hn
    | succ j =>
      have hget := ih hrest (Nat.le_of_succ_le_succ hj)
      simpa using hget

theorem fillRows_row {b : List String} {front a : List String} {prev : List ℕ}
    (hprev : Row front [] b prev) {i : ℕ} (hi : i ≤ a.length) :
    Row (front ++ a.take i) [] b (((fillRows b prev a)[i]?).getD []) := by
  induction a generalizing front prev i with
  | nil =>
    obtain rfl : i = 0 := by simpa using hi
    simpa [fillRows] using hprev
  | cons x a ih =>
    cases i with
    | zero => simpa [fillRows] using hprev
    | succ i =>
      have hnext : Row (front ++ [x]) [] b (0 :: fillRow x prev 0 b) :=
        fillRow_row hprev (longest_nil_right _).hasLength
      have hget := ih hnext (Nat.le_of_succ_le_succ hi)
      simpa [fillRows] using hget

/-- A cell of the table is the length for the two prefixes. -/
theorem at_dp (a b : List String) {i j : ℕ} (hi : i ≤ a.length) (hj : j ≤ b.length) :
    HasLength (a.take i) (b.take j) (at_ (dp a b) i j) := by
  have hrow := fillRows_row (row_zero [] b) hi
  simpa [at_, dp] using hrow.get hj

theorem take_succ_eq {a : List String} {i : ℕ} {x : String} (h : a[i]? = some x) :
    a.take (i + 1) = a.take i ++ [x] := by
  rw [List.take_add_one, h]
  rfl

/-- The way back from a cell finds a longest common subsequence of the two prefixes. -/
theorem backtrack_longest (a b : List String) {i j : ℕ} (hi : i ≤ a.length) (hj : j ≤ b.length)
    (lcs : List String) : ∃ zs, backtrack a b (dp a b) i j lcs = zs ++ lcs ∧
      Longest zs (a.take i) (b.take j) := by
  fun_induction backtrack a b (dp a b) i j lcs with
  | case1 i j lcs heq ih =>
    obtain ⟨zs, hzs, hlongest⟩ := ih (by omega) (by omega)
    have ha : a[i]? = some a[i] := List.getElem?_eq_getElem (by omega)
    refine ⟨zs ++ [a[i]], by rw [hzs, ha]; simp, ?_⟩
    rw [take_succ_eq ha, take_succ_eq (heq ▸ ha)]
    exact hlongest.concat _
  | case2 i j lcs hne hlt ih =>
    obtain ⟨zs, hzs, hlongest⟩ := ih (by omega) hj
    obtain ⟨ws, hws, hlength⟩ := at_dp a b (i := i + 1) (j := j) hi (by omega)
    have hzs' := hlongest.hasLength.unique (at_dp a b (i := i) (j := j + 1) (by omega) hj)
    have ha : a[i]? = some a[i] := List.getElem?_eq_getElem hi
    have hb : b[j]? = some b[j] := List.getElem?_eq_getElem hj
    have hne' : a[i] ≠ b[j] := fun heq => hne (by rw [ha, hb, heq])
    refine ⟨zs, hzs, ?_⟩
    rw [take_succ_eq ha] at hws ⊢
    rw [take_succ_eq hb] at hlongest ⊢
    exact Longest.concat_left hne' hlongest hws (by omega)
  | case3 i j lcs hne hle ih =>
    obtain ⟨zs, hzs, hlongest⟩ := ih hi (by omega)
    obtain ⟨ws, hws, hlength⟩ := at_dp a b (i := i) (j := j + 1) (by omega) hj
    have hzs' := hlongest.hasLength.unique (at_dp a b (i := i + 1) (j := j) hi (by omega))
    have ha : a[i]? = some a[i] := List.getElem?_eq_getElem hi
    have hb : b[j]? = some b[j] := List.getElem?_eq_getElem hj
    have hne' : a[i] ≠ b[j] := fun heq => hne (by rw [ha, hb, heq])
    refine ⟨zs, hzs, ?_⟩
    rw [take_succ_eq ha] at hlongest ⊢
    rw [take_succ_eq hb] at hws ⊢
    exact Longest.concat_right hne' hws hlongest (by omega)
  | case4 j lcs => exact ⟨[], rfl, by simpa using longest_nil_left _⟩
  | case5 i lcs => exact ⟨[], rfl, by simpa using longest_nil_right _⟩

theorem longestCommonSubsequence_longest (a b : List String) :
    Longest (longestCommonSubsequence a b) a b := by
  obtain ⟨zs, hzs, hlongest⟩ := backtrack_longest a b le_rfl le_rfl []
  rw [List.take_length, List.take_length] at hlongest
  rw [longestCommonSubsequence, hzs, List.append_nil]
  exact hlongest

/-! ## Replaying changes -/

/-- Replaying changes: how many lines of the old text are used up, and the new text so far. -/
abbrev Replay := ℕ × List String

/-- The lines of the old text up to a number of used-up lines are copied. -/
def copyTo (before : List String) (r : Replay) (used : ℕ) : Replay :=
  (used, r.2 ++ (before.drop r.1).take (used - r.1))

/-- One change of a diff, on the old text: an added line gets the number it has in the new text, a
removed or changed line has the number it has in the old one, and it must be the line recorded. -/
def replayStep (before : List String) (r : Replay) (d : LineDiff) : Option Replay :=
  match d.type with
  | .add =>
    let used := r.1 + (d.line - 1 - r.2.length)
    if r.2.length < d.line ∧ used ≤ before.length then
      some (used, (copyTo before r used).2 ++ d.after.toList)
    else none
  | .remove | .change =>
    if r.1 < d.line ∧ before[d.line - 1]? = d.before then
      some (d.line, (copyTo before r (d.line - 1)).2 ++ d.after.toList)
    else none

/-- The new text that the changes make of the old one, if they fit it. -/
def replay (before : List String) (changes : List LineDiff) : Option (List String) :=
  (changes.foldlM (replayStep before) (0, [])).map fun r => (copyTo before r before.length).2

/-- How many lines of the old text are removed or changed; the others are unchanged. -/
def touched (changes : List LineDiff) : ℕ := changes.countP fun d => d.type ≠ .add

/-! ## The loop -/

section Loop

variable {before after lcs : List String}

/-- What holds at each turn: what is left of the subsequence is one of what is left of both texts,
and replaying the changes so far and copying up to the cursor gives the new text up to it. -/
structure Inv (before after lcs : List String) (c : Cursor) : Prop where
  before_le : c.beforeIdx ≤ before.length
  after_le : c.afterIdx ≤ after.length
  lcs_le : c.lcsIdx ≤ lcs.length
  common : Common (lcs.drop c.lcsIdx) (before.drop c.beforeIdx) (after.drop c.afterIdx)
  replayed : ∃ r, c.changes.foldlM (replayStep before) (0, []) = some r ∧ r.1 ≤ c.beforeIdx ∧
    (copyTo before r c.beforeIdx).2 = after.take c.afterIdx
  counted : c.lcsIdx + touched c.changes = c.beforeIdx

theorem inv_init (h : Common lcs before after) :
    Inv before after lcs { beforeIdx := 0, afterIdx := 0, lcsIdx := 0, changes := [] } where
  before_le := Nat.zero_le _
  after_le := Nat.zero_le _
  lcs_le := Nat.zero_le _
  common := h
  replayed := ⟨(0, []), rfl, le_rfl, by simp [copyTo]⟩
  counted := rfl

/-- What is left of the subsequence is one behind an item that it does not begin with. -/
theorem sublist_drop_succ {xs ys : List String} {k i : ℕ} (h : (xs.drop k).Sublist (ys.drop i))
    (hi : i < ys.length) (hne : ¬ (k < xs.length ∧ ys[i]? = xs[k]?)) :
    (xs.drop k).Sublist (ys.drop (i + 1)) := by
  rw [List.drop_eq_getElem_cons hi] at h
  by_cases hk : k < xs.length
  · rw [List.drop_eq_getElem_cons hk] at h ⊢
    rcases List.sublist_cons_iff.mp h with h | ⟨r, heq, -⟩
    · exact h
    · refine absurd ⟨hk, ?_⟩ hne
      rw [List.getElem?_eq_getElem hi, List.getElem?_eq_getElem hk, (List.cons.inj heq).1]
  · rw [List.drop_eq_nil_of_le (by omega)]
    exact List.nil_sublist _

theorem sublist_drop_both {xs ys : List String} {k i : ℕ} (h : (xs.drop k).Sublist (ys.drop i))
    (hk : k < xs.length) (hi : i < ys.length) (heq : ys[i]? = xs[k]?) :
    (xs.drop (k + 1)).Sublist (ys.drop (i + 1)) := by
  rw [List.getElem?_eq_getElem hi, List.getElem?_eq_getElem hk] at heq
  rw [List.drop_eq_getElem_cons hi, List.drop_eq_getElem_cons hk, Option.some.inj heq] at h
  exact List.cons_sublist_cons.mp h

theorem lt_of_sublist_drop {xs ys : List String} {k i : ℕ} (h : (xs.drop k).Sublist (ys.drop i))
    (hk : k < xs.length) : i < ys.length := by
  have hlength := h.length_le
  rw [List.length_drop, List.length_drop] at hlength
  omega

theorem copyTo_self (r : Replay) : (copyTo before r r.1).2 = r.2 := by
  simp [copyTo]

theorem copyTo_succ {r : Replay} {used : ℕ} (hr : r.1 ≤ used) (hused : used < before.length) :
    (copyTo before r (used + 1)).2 = (copyTo before r used).2 ++ [before[used]] := by
  have hget : (before.drop r.1)[used - r.1]? = some before[used] := by
    rw [List.getElem?_drop, Nat.add_sub_cancel' hr, List.getElem?_eq_getElem hused]
  simp only [copyTo]
  rw [Nat.succ_sub hr, List.take_add_one, hget, List.append_assoc]
  rfl

theorem length_copyTo {r : Replay} {used : ℕ} (hused : used ≤ before.length) :
    (copyTo before r used).2.length = r.2.length + (used - r.1) := by
  simp only [copyTo, List.length_append, List.length_take, List.length_drop]
  omega

theorem touched_concat (changes : List LineDiff) {d : LineDiff} (hd : d.type ≠ .add) :
    touched (changes ++ [d]) = touched changes + 1 := by
  simp [touched, List.countP_append, hd]

/-- A line of both texts. -/
theorem Inv.matched {c : Cursor} (h : Inv before after lcs c) (hl : c.lcsIdx < lcs.length)
    (hb : before[c.beforeIdx]? = lcs[c.lcsIdx]?) (ha : after[c.afterIdx]? = lcs[c.lcsIdx]?) :
    Inv before after lcs
      { c with beforeIdx := c.beforeIdx + 1, afterIdx := c.afterIdx + 1,
               lcsIdx := c.lcsIdx + 1 } := by
  have hblt := lt_of_sublist_drop h.common.1 hl
  have halt := lt_of_sublist_drop h.common.2 hl
  obtain ⟨r, hr, hle, htake⟩ := h.replayed
  have hsame : after[c.afterIdx]? = some before[c.beforeIdx] := by
    rw [ha, ← hb, List.getElem?_eq_getElem hblt]
  refine ⟨hblt, halt, hl, ⟨sublist_drop_both h.common.1 hl hblt hb,
    sublist_drop_both h.common.2 hl halt ha⟩, ⟨r, hr, Nat.le_succ_of_le hle, ?_⟩, ?_⟩
  · rw [copyTo_succ hle hblt, htake, take_succ_eq hsame]
  · have hcounted := h.counted
    simp only
    omega

/-- A line of the new text only. -/
theorem Inv.added {c : Cursor} (h : Inv before after lcs c) (halt : c.afterIdx < after.length)
    (hne : ¬ (c.lcsIdx < lcs.length ∧ after[c.afterIdx]? = lcs[c.lcsIdx]?)) :
    Inv before after lcs
      { c with
        changes := c.changes ++
          [{ line := c.afterIdx + 1, type := .add, after := after[c.afterIdx]? }]
        afterIdx := c.afterIdx + 1 } := by
  obtain ⟨r, hr, hle, htake⟩ := h.replayed
  have hlength := length_copyTo (r := r) h.before_le
  rw [htake, List.length_take, Nat.min_eq_left h.after_le] at hlength
  have hused : r.1 + (c.afterIdx + 1 - 1 - r.2.length) = c.beforeIdx := by omega
  have ha : after[c.afterIdx]? = some after[c.afterIdx] := List.getElem?_eq_getElem halt
  refine ⟨h.before_le, halt, h.lcs_le, ⟨h.common.1, sublist_drop_succ h.common.2 halt hne⟩,
    ⟨(c.beforeIdx, after.take (c.afterIdx + 1)), ?_, le_rfl, copyTo_self _⟩, ?_⟩
  · rw [List.foldlM_append, hr]
    simp only [Option.bind_eq_bind, Option.bind_some, List.foldlM_cons, List.foldlM_nil, replayStep,
      hused, htake]
    rw [if_pos ⟨by omega, h.before_le⟩, ha, take_succ_eq ha]
    rfl
  · simpa [touched] using h.counted

/-- A line of the old text only. -/
theorem Inv.removed {c : Cursor} (h : Inv before after lcs c) (hblt : c.beforeIdx < before.length)
    (hne : ¬ (c.lcsIdx < lcs.length ∧ before[c.beforeIdx]? = lcs[c.lcsIdx]?)) :
    Inv before after lcs
      { c with
        changes := c.changes ++
          [{ line := c.beforeIdx + 1, type := .remove, before := before[c.beforeIdx]? }]
        beforeIdx := c.beforeIdx + 1 } := by
  obtain ⟨r, hr, hle, htake⟩ := h.replayed
  refine ⟨hblt, h.after_le, h.lcs_le, ⟨sublist_drop_succ h.common.1 hblt hne, h.common.2⟩,
    ⟨(c.beforeIdx + 1, after.take c.afterIdx), ?_, le_rfl, copyTo_self _⟩, ?_⟩
  · rw [List.foldlM_append, hr]
    simp only [Option.bind_eq_bind, Option.bind_some, List.foldlM_cons, List.foldlM_nil, replayStep,
      Nat.add_sub_cancel, htake]
    rw [if_pos ⟨by omega, trivial⟩]
    simp
  · have hcounted := h.counted
    simp only
    rw [touched_concat _ (by simp)]
    omega

/-- A line of the old text in the place of one of the new text. -/
theorem Inv.changed {c : Cursor} (h : Inv before after lcs c) (hblt : c.beforeIdx < before.length)
    (halt : c.afterIdx < after.length)
    (hbne : ¬ (c.lcsIdx < lcs.length ∧ before[c.beforeIdx]? = lcs[c.lcsIdx]?))
    (hane : ¬ (c.lcsIdx < lcs.length ∧ after[c.afterIdx]? = lcs[c.lcsIdx]?)) :
    Inv before after lcs
      { c with
        changes := c.changes ++
          [{ line := c.beforeIdx + 1, type := .change, before := before[c.beforeIdx]?,
             after := after[c.afterIdx]? }]
        beforeIdx := c.beforeIdx + 1
        afterIdx := c.afterIdx + 1 } := by
  obtain ⟨r, hr, hle, htake⟩ := h.replayed
  have ha : after[c.afterIdx]? = some after[c.afterIdx] := List.getElem?_eq_getElem halt
  refine ⟨hblt, halt, h.lcs_le, ⟨sublist_drop_succ h.common.1 hblt hbne,
    sublist_drop_succ h.common.2 halt hane⟩,
    ⟨(c.beforeIdx + 1, after.take (c.afterIdx + 1)), ?_, le_rfl, copyTo_self _⟩, ?_⟩
  · rw [List.foldlM_append, hr]
    simp only [Option.bind_eq_bind, Option.bind_some, List.foldlM_cons, List.foldlM_nil, replayStep,
      Nat.add_sub_cancel, htake]
    rw [if_pos ⟨by omega, trivial⟩, ha, take_succ_eq ha]
    rfl
  · have hcounted := h.counted
    simp only
    rw [touched_concat _ (by simp)]
    omega

/-- How much of the two texts is left. -/
def remaining (before after : List String) (c : Cursor) : ℕ :=
  (before.length - c.beforeIdx) + (after.length - c.afterIdx)

/-- A turn of the loop keeps the invariant and uses up a line. -/
theorem step_inv {c next : Cursor} (h : Inv before after lcs c)
    (hstep : step before after lcs c = some next) :
    Inv before after lcs next ∧ remaining before after next < remaining before after c := by
  unfold step at hstep
  split at hstep
  case isFalse => exact absurd hstep (by simp)
  case isTrue hmore =>
    obtain rfl := Option.some.inj hstep
    split
    case isTrue hb =>
      split
      case isTrue ha =>
        exact ⟨h.matched hb.1 hb.2.2 ha.2, by simp only [remaining]; omega⟩
      case isFalse ha =>
        have halt := lt_of_sublist_drop h.common.2 hb.1
        exact ⟨h.added halt fun hlcs => ha ⟨halt, hlcs.2⟩, by simp only [remaining]; omega⟩
    case isFalse hb =>
      have hbne : c.beforeIdx < before.length →
          ¬ (c.lcsIdx < lcs.length ∧ before[c.beforeIdx]? = lcs[c.lcsIdx]?) :=
        fun hblt hlcs => hb ⟨hlcs.1, hblt, hlcs.2⟩
      split
      case isTrue ha =>
        have hblt := lt_of_sublist_drop h.common.1 ha.1
        exact ⟨h.removed hblt (hbne hblt), by simp only [remaining]; omega⟩
      case isFalse ha =>
        have hane : c.afterIdx < after.length →
            ¬ (c.lcsIdx < lcs.length ∧ after[c.afterIdx]? = lcs[c.lcsIdx]?) :=
          fun halt hlcs => ha ⟨hlcs.1, halt, hlcs.2⟩
        split
        case isTrue hboth =>
          exact ⟨h.changed hboth.1 hboth.2 (hbne hboth.1) (hane hboth.2),
            by simp only [remaining]; omega⟩
        case isFalse hnot =>
          split
          case isTrue hblt => exact ⟨h.removed hblt (hbne hblt), by simp only [remaining]; omega⟩
          case isFalse hblt =>
            have halt : c.afterIdx < after.length := hmore.resolve_left hblt
            exact ⟨h.added halt (hane halt), by simp only [remaining]; omega⟩

/-- The loop ends when there is nothing left of either text. -/
theorem step_none {c : Cursor} (h : Inv before after lcs c)
    (hstep : step before after lcs c = none) :
    c.beforeIdx = before.length ∧ c.afterIdx = after.length := by
  unfold step at hstep
  split at hstep
  case isTrue => exact absurd hstep (by simp)
  case isFalse hend =>
    have hb := h.before_le
    have ha := h.after_le
    omega

/-- What the changes of an ended loop say. -/
structure Describes (before after : List String) (common : ℕ) (changes : List LineDiff) : Prop where
  replay : replay before changes = some after
  unchanged : touched changes + common = before.length

theorem Inv.describes {c : Cursor} (h : Inv before after lcs c)
    (hend : c.beforeIdx = before.length ∧ c.afterIdx = after.length) :
    Describes before after lcs.length c.changes := by
  obtain ⟨r, hr, -, htake⟩ := h.replayed
  have hlcs : c.lcsIdx = lcs.length := by
    have hlength := h.common.1.length_le
    rw [List.length_drop, List.length_drop] at hlength
    have hle := h.lcs_le
    omega
  refine ⟨?_, ?_⟩
  · rw [hend.1, hend.2, List.take_length] at htake
    rw [DiffTracker.replay, hr, Option.map_some, htake]
  · have hcounted := h.counted
    omega

/-- With fuel for a turn for each line, the loop ends. -/
theorem run_describes {c : Cursor} (h : Inv before after lcs c) :
    ∃ changes, Describes before after lcs.length changes ∧
      ∀ fuel, remaining before after c < fuel → run before after lcs fuel c = some changes := by
  induction hn : remaining before after c using Nat.strong_induction_on generalizing c with
  | _ n ih =>
    cases hstep : step before after lcs c with
    | none =>
      refine ⟨c.changes, h.describes (step_none h hstep), fun fuel hfuel => ?_⟩
      obtain ⟨fuel, rfl⟩ := Nat.exists_eq_succ_of_ne_zero (Nat.ne_of_gt (Nat.zero_lt_of_lt hfuel))
      rw [run, hstep]
    | some next =>
      obtain ⟨hnext, hless⟩ := step_inv h hstep
      obtain ⟨changes, hdescribes, hrun⟩ := ih _ (hn ▸ hless) hnext rfl
      refine ⟨changes, hdescribes, fun fuel hfuel => ?_⟩
      obtain ⟨fuel, rfl⟩ := Nat.exists_eq_succ_of_ne_zero (Nat.ne_of_gt (Nat.zero_lt_of_lt hfuel))
      rw [run, hstep]
      exact hrun fuel (by omega)

end Loop

/-- The loop ends for all texts, its changes replayed on the old lines give the new ones, and the
old lines that they do not touch are as many as a longest common subsequence has. -/
theorem computeLineDiffs_describes (before after : List String) :
    ∃ changes lcs, Longest lcs before after ∧ replay before changes = some after ∧
      touched changes + lcs.length = before.length ∧
      ∀ fuel, before.length + after.length < fuel →
        computeLineDiffs fuel before after = some changes := by
  have hlongest := longestCommonSubsequence_longest before after
  obtain ⟨changes, hdescribes, hrun⟩ := run_describes (inv_init hlongest.common)
  refine ⟨changes, _, hlongest, hdescribes.replay, hdescribes.unchanged, fun fuel hfuel => ?_⟩
  exact hrun fuel (by simpa [remaining] using hfuel)

end DiffTracker
end Batiste
