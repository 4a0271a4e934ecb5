import Batiste.GitLog
import Batiste.Json

/-! The front matter of a memory file: `key: value` lines between two `---` fences, and the body
behind the second. -/
namespace Batiste
namespace Frontmatter

open GitLog JsString

/-! ## The parser -/

structure ParsedFrontmatter where
  «meta» : Dict String
  body : String
  deriving DecidableEq, Repr

/-- `/^---\s*$/` -/
def isFence (line : List Char) : Bool := line.take 3 == ['-', '-', '-'] && (line.drop 3).all isSpace

def isKeyChar (c : Char) : Bool := c.isAlphanum || c == '_' || c == '-'

/-- A value in quotes of one kind loses its first and its last character. -/
def unquote (value : List Char) : List Char :=
  let inQuotes := fun (q : Char) => value.head? == some q && value.getLast? == some q
  if inQuotes '"' || inQuotes '\'' then (value.drop 1).dropLast else value

/-- The match of `/^([A-Za-z0-9_-]+):\s*(.*)$/`; a dot does not match the end of a line, which
behind `\s*` only a lone CR or a Unicode separator can be. -/
def metaEntry (line : List Char) : Option (String × String) :=
  let key := line.takeWhile isKeyChar
  let rest := line.dropWhile isKeyChar
  if key = [] ∨ rest.head? ≠ some ':' then none
  else
    let value := (rest.drop 1).dropWhile isSpace
    if value.any isLineTerminator then none
    else some (String.ofList key, String.ofList (unquote (trim value)))

/-- `meta[key] = value`, which a plain object ignores for the name of its prototype. -/
def addMeta (entries : Dict String) (line : List Char) : Dict String :=
  (metaEntry line).elim entries fun entry =>
    if entry.1 = "__proto__" then entries else entries.set entry.1 entry.2

/-- The lines up to the fence, and the lines behind it. -/
def scan (entries : Dict String) : List (List Char) → Dict String × List (List Char)
  | [] => (entries, [])
  | line :: rest => if isFence line then (entries, rest) else scan (addMeta entries line) rest

def isNewline (c : Char) : Bool := c == '\n'

def parseFrontmatter (raw : String) : ParsedFrontmatter :=
  let ls := lines raw.toList
  if ls.length < 2 ∨ ¬ isFence (ls.headD []) then { «meta» := [], body := raw }
  else
    let scanned := scan [] (ls.drop 1)
    { «meta» := scanned.1
      body := String.ofList ((['\n'].intercalate scanned.2).dropWhile isNewline) }

/-! ## Lines of the text -/

/-- CRLF read as LF. -/
def toLf : List Char → List Char
  | [] => []
  | '\r' :: '\n' :: cs => '\n' :: toLf cs
  | c :: cs => c :: toLf cs

/-- The text behind the first line, nothing where the line is the last. -/
def behindLine : List Char → List Char
  | [] => []
  | '\n' :: cs => cs
  | _ :: cs => behindLine cs

theorem lines_ne_nil (cs : List Char) : lines cs ≠ [] := by
  fun_cases lines cs <;> simp

theorem intercalate_lines (cs : List Char) : ['\n'].intercalate (lines cs) = toLf cs := by
  fun_induction lines cs with
  | case1 => rfl
  | case2 cs ih =>
    rw [List.intercalate_cons_of_ne_nil (lines_ne_nil cs), ih, toLf]
    rfl
  | case3 cs ih =>
    rw [List.intercalate_cons_of_ne_nil (lines_ne_nil cs), ih, toLf]
    · rfl
    · simp
  | case4 c cs hcr hlf hnil ih => exact absurd hnil (lines_ne_nil cs)
  | case5 c cs hcr hlf line rest hlines ih =>
    rw [toLf]
    · rw [← ih, hlines]
      cases rest <;> simp [List.intercalate]
    · exact hcr

theorem tail_lines (cs : List Char) :
    (lines cs).tail = [] ∧ behindLine cs = [] ∨ (lines cs).tail = lines (behindLine cs) := by
  fun_induction lines cs with
  | case1 => exact .inl ⟨rfl, rfl⟩
  | case2 cs ih => exact .inr rfl
  | case3 cs ih => exact .inr rfl
  | case4 c cs hcr hlf hnil ih => exact absurd hnil (lines_ne_nil cs)
  | case5 c cs hcr hlf line rest hlines ih =>
    have hbehind : behindLine (c :: cs) = behindLine cs := behindLine.eq_3 c cs hlf
    rw [hlines] at ih
    rw [hbehind]
    exact ih

/-- The lines behind the first `k`, joined, are the text behind them. -/
theorem intercalate_drop_lines (k : ℕ) (cs : List Char) :
    ['\n'].intercalate ((lines cs).drop k) = toLf (behindLine^[k] cs) := by
  induction k generalizing cs with
  | zero => exact intercalate_lines cs
  | succ k ih =>
    rw [← List.drop_tail, Function.iterate_succ_apply]
    rcases tail_lines cs with ⟨htail, hbehind⟩ | htail
    · have hfixed : behindLine^[k] [] = [] := Function.iterate_fixed rfl k
      rw [htail, hbehind, List.drop_nil, hfixed]
      rfl
    · rw [htail, ih]

/-! ## The body -/

def fenceAt (raw : String) (k : ℕ) : Prop := ((lines raw.toList)[k]?).any isFence = true

instance (raw : String) (k : ℕ) : Decidable (fenceAt raw k) :=
  inferInstanceAs (Decidable (_ = true))

/-- The first line is a fence, and line `k` is the next. -/
structure Closes (raw : String) (k : ℕ) : Prop where
  opens : fenceAt raw 0
  pos : 0 < k
  fence : fenceAt raw k
  first : ∀ j, 0 < j → j < k → ¬ fenceAt raw j

/-- Without a closing fence the text is all body. With one the body is the text behind it, and what
is read as metadata stands between the fences. -/
structure KeepsBody (raw : String) : Prop where
  unclosed : (∀ k, ¬ Closes raw k) →
    (parseFrontmatter raw).body = raw ∧ (parseFrontmatter raw).meta = []
  closed : ∀ k, Closes raw k →
    (parseFrontmatter raw).body.toList =
        (toLf (behindLine^[k + 1] raw.toList)).dropWhile isNewline ∧
      ∀ entry ∈ (parseFrontmatter raw).meta,
        ∃ j, 0 < j ∧ j < k ∧ ((lines raw.toList)[j]?).bind metaEntry = some entry

/-- A fence in front of at least one more line, none of which is a fence. -/
def Unclosed (raw : String) : Prop :=
  2 ≤ (lines raw.toList).length ∧ fenceAt raw 0 ∧ ∀ k, 0 < k → ¬ fenceAt raw k

theorem mem_addMeta {entries : Dict String} {line : List Char} {entry : String × String}
    (h : entry ∈ addMeta entries line) : entry ∈ entries ∨ metaEntry line = some entry := by
  unfold addMeta at h
  cases hread : metaEntry line with
  | none =>
    rw [hread] at h
    exact .inl h
  | some read =>
    simp only [hread, Option.elim_some] at h
    split_ifs at h with hproto
    · exact .inl h
    · rcases Dict.mem_set h with hold | rfl
      · exact .inl hold.1
      · exact .inr rfl

theorem scan_rest (entries : Dict String) (ls : List (List Char)) :
    (scan entries ls).2 = ls.drop (ls.findIdx isFence + 1) := by
  induction ls generalizing entries with
  | nil => rfl
  | cons line ls ih =>
    rw [scan, List.findIdx_cons]
    cases hfence : isFence line
    · simpa using ih (addMeta entries line)
    · rfl

theorem scan_entries {entries : Dict String} {ls : List (List Char)} {entry : String × String}
    (h : entry ∈ (scan entries ls).1) : entry ∈ entries ∨
      ∃ j < ls.findIdx isFence, (ls[j]?).bind metaEntry = some entry := by
  induction ls generalizing entries with
  | nil => exact .inl h
  | cons line ls ih =>
    rw [scan] at h
    rw [List.findIdx_cons]
    cases hfence : isFence line
    · rw [hfence] at h
      rcases ih h with hnew | ⟨j, hj, hentry⟩
      · rcases mem_addMeta hnew with hold | hline
        · exact .inl hold
        · exact .inr ⟨0, by simp, by simpa using hline⟩
      · exact .inr ⟨j + 1, by simpa using hj, by simpa using hentry⟩
    · rw [hfence] at h
      exact .inl h

section Fences

variable {raw : String}

theorem fenceAt_succ {k : ℕ} :
    fenceAt raw (k + 1) ↔ (((lines raw.toList).drop 1)[k]?).any isFence = true := by
  rw [fenceAt, List.getElem?_drop, Nat.add_comm]

theorem fenceAt_lt {k : ℕ} (h : fenceAt raw (k + 1)) :
    ∃ hk : k < ((lines raw.toList).drop 1).length,
      isFence ((lines raw.toList).drop 1)[k] = true := by
  rw [fenceAt_succ, Option.any_eq_true] at h
  obtain ⟨line, hline, hfence⟩ := h
  obtain ⟨hk, rfl⟩ := List.getElem?_eq_some_iff.mp hline
  exact ⟨hk, hfence⟩

/-- The closing fence is the first one behind the first line. -/
theorem closes_iff {k : ℕ} : Closes raw k ↔ fenceAt raw 0 ∧
    k = ((lines raw.toList).drop 1).findIdx isFence + 1 ∧ fenceAt raw k := by
  constructor
  · rintro ⟨hopens, hpos, hfence, hfirst⟩
    obtain ⟨m, rfl⟩ := Nat.exists_eq_succ_of_ne_zero hpos.ne'
    obtain ⟨hm, hline⟩ := fenceAt_lt hfence
    have hindex : ((lines raw.toList).drop 1).findIdx isFence = m := by
      rw [List.findIdx_eq hm]
      refine ⟨hline, fun j hj => ?_⟩
      have hnot := hfirst (j + 1) j.succ_pos (by omega)
      rw [fenceAt_succ, List.getElem?_eq_getElem (hj.trans hm)] at hnot
      simpa using hnot
    exact ⟨hopens, by rw [hindex], hfence⟩
  · rintro ⟨hopens, rfl, hfence⟩
    refine ⟨hopens, Nat.succ_pos _, hfence, fun j hpos hj hat => ?_⟩
    obtain ⟨i, rfl⟩ := Nat.exists_eq_succ_of_ne_zero hpos.ne'
    obtain ⟨hi, hline⟩ := fenceAt_lt hat
    have hnot := List.not_of_lt_findIdx (Nat.lt_of_succ_lt_succ hj)
    rw [hline] at hnot
    exact absurd hnot (by decide)

theorem fenceAt_zero : fenceAt raw 0 ↔ isFence ((lines raw.toList).headD []) = true := by
  rw [fenceAt]
  cases hlines : lines raw.toList with
  | nil => exact absurd hlines (lines_ne_nil _)
  | cons line rest => simp

theorem parse_of_fence (hlength : 2 ≤ (lines raw.toList).length) (hopens : fenceAt raw 0) :
    parseFrontmatter raw =
      { «meta» := (scan [] ((lines raw.toList).drop 1)).1
        body := String.ofList ((['\n'].intercalate
          (scan [] ((lines raw.toList).drop 1)).2).dropWhile isNewline) } := by
  unfold parseFrontmatter
  rw [if_neg]
  rw [fenceAt_zero] at hopens
  rintro (hshort | hnot)
  · omega
  · exact hnot hopens

theorem parse_of_not_fence (h : ¬ (2 ≤ (lines raw.toList).length ∧ fenceAt raw 0)) :
    parseFrontmatter raw = { «meta» := [], body := raw } := by
  unfold parseFrontmatter
  rw [if_pos]
  rw [fenceAt_zero] at h
  by_contra hboth
  push Not at hboth
  exact h ⟨hboth.1, hboth.2⟩

theorem two_le_of_closes {k : ℕ} (h : Closes raw k) : 2 ≤ (lines raw.toList).length := by
  obtain ⟨m, rfl⟩ := Nat.exists_eq_succ_of_ne_zero h.pos.ne'
  obtain ⟨hm, -⟩ := fenceAt_lt h.fence
  rw [List.length_drop] at hm
  omega

/-- What is read where there is a closing fence. -/
theorem parse_closed {k : ℕ} (h : Closes raw k) :
    (parseFrontmatter raw).body.toList =
        (toLf (behindLine^[k + 1] raw.toList)).dropWhile isNewline ∧
      ∀ entry ∈ (parseFrontmatter raw).meta,
        ∃ j, 0 < j ∧ j < k ∧ ((lines raw.toList)[j]?).bind metaEntry = some entry := by
  obtain ⟨hopens, hk, -⟩ := closes_iff.mp h
  rw [parse_of_fence (two_le_of_closes h) hopens]
  constructor
  · rw [String.toList_ofList, scan_rest, List.drop_drop, intercalate_drop_lines, hk]
    congr 3
    omega
  · intro entry hentry
    rcases scan_entries hentry with hnil | ⟨j, hj, hread⟩
    · exact absurd hnil List.not_mem_nil
    · rw [List.getElem?_drop] at hread
      exact ⟨1 + j, by omega, by omega, hread⟩

theorem unclosed_iff : Unclosed raw ↔ 2 ≤ (lines raw.toList).length ∧ fenceAt raw 0 ∧
    ∀ line ∈ (lines raw.toList).drop 1, isFence line = false := by
  refine and_congr_right fun _ => and_congr_right fun _ => ⟨fun hnone line hline => ?_, ?_⟩
  · obtain ⟨i, hi, rfl⟩ := List.getElem_of_mem hline
    have hnot := hnone (i + 1) i.succ_pos
    rw [fenceAt_succ, List.getElem?_eq_getElem hi] at hnot
    simpa using hnot
  · intro hnone k hpos hfence
    obtain ⟨m, rfl⟩ := Nat.exists_eq_succ_of_ne_zero hpos.ne'
    obtain ⟨hm, hline⟩ := fenceAt_lt hfence
    rw [hnone _ (List.getElem_mem hm)] at hline
    exact absurd hline (by decide)

/-- The body is lost where no fence closes. -/
theorem parse_unclosed (h : Unclosed raw) : (parseFrontmatter raw).body = "" := by
  obtain ⟨hlength, hopens, hnone⟩ := unclosed_iff.mp h
  have hrest : (scan [] ((lines raw.toList).drop 1)).2 = [] := by
    rw [scan_rest, List.findIdx_eq_length_of_false hnone, List.drop_eq_nil_of_le (Nat.le_succ _)]
  rw [parse_of_fence hlength hopens, hrest]
  rfl

theorem raw_ne_empty (h : fenceAt raw 0) : raw ≠ "" := by
  rintro rfl
  revert h
  decide

theorem not_keepsBody (h : Unclosed raw) : ¬ KeepsBody raw := by
  intro hkeeps
  have hbody := (hkeeps.unclosed fun k hk => h.2.2 k hk.pos hk.fence).1
  rw [parse_unclosed h] at hbody
  exact raw_ne_empty h.2.1 hbody.symm

end Fences

/-- The body is kept exactly unless a fence in front of further lines is never closed. -/
theorem keepsBody_iff (raw : String) : KeepsBody raw ↔ ¬ Unclosed raw := by
  refine ⟨fun hkeeps hunclosed => not_keepsBody hunclosed hkeeps, fun hclosed => ?_⟩
  refine ⟨fun hnone => ?_, fun k hk => parse_closed hk⟩
  rw [parse_of_not_fence]
  · exact ⟨rfl, rfl⟩
  · rintro ⟨hlength, hopens⟩
    -- a fence behind the first line would make the first of them the closing one
    refine hclosed ⟨hlength, hopens, fun k hpos hfence => ?_⟩
    obtain ⟨m, rfl⟩ := Nat.exists_eq_succ_of_ne_zero hpos.ne'
    obtain ⟨hm, hline⟩ := fenceAt_lt hfence
    have hlt := List.findIdx_lt_length_of_exists ⟨_, List.getElem_mem hm, hline⟩
    refine hnone _ (closes_iff.mpr ⟨hopens, rfl, ?_⟩)
    rw [fenceAt_succ, List.getElem?_eq_getElem hlt]
    simpa using List.findIdx_getElem (w := hlt)

/-- A rule in front of a text without metadata. -/
def leadingRule : String := "---\nTitle of the note\nits text\n"

theorem leadingRule_not_keepsBody : ¬ KeepsBody leadingRule :=
  not_keepsBody (unclosed_iff.mpr (by decide))

end Frontmatter
end Batiste
