import Mathlib.Data.List.DropRight
import Mathlib.Data.String.Basic
import Mathlib.Tactic

/-! White space, and the order of the code units, in strings of the source language. -/
namespace Batiste
namespace JsString

/-- What `\s` matches and `trim` removes. -/
def isSpace (c : Char) : Bool :=
  let n := c.toNat
  decide (9 ≤ n ∧ n ≤ 13) || n == 32 || n == 160 || n == 5760 || decide (8192 ≤ n ∧ n ≤ 8202) ||
    n == 8232 || n == 8233 || n == 8239 || n == 8287 || n == 12288 || n == 65279

theorem alphanum_range {c : Char} (h : c.isAlphanum = true) :
    48 ≤ c.toNat ∧ c.toNat ≤ 57 ∨ 65 ≤ c.toNat ∧ c.toNat ≤ 90 ∨ 97 ≤ c.toNat ∧ c.toNat ≤ 122 := by
  unfold Char.isAlphanum Char.isAlpha Char.isUpper Char.isLower Char.isDigit at h
  simp only [Bool.or_eq_true, Bool.and_eq_true, decide_eq_true_eq, ge_iff_le,
    UInt32.le_iff_toNat_le] at h
  have hval : c.toNat = c.val.toNat := rfl
  rw [hval]
  simp at h
  omega

theorem isSpace_of_alphanum {c : Char} (h : c.isAlphanum = true) : isSpace c = false := by
  have hrange := alphanum_range h
  simp only [isSpace, Bool.or_eq_false_iff, decide_eq_false_iff_not, beq_eq_false_iff_ne]
  omega

/-- `\w` -/
def isWord (c : Char) : Bool := c.isAlphanum || c == '_'

/-- `[0-9a-f]` in any letter case -/
def isHex (c : Char) : Bool :=
  c.isDigit || decide ('a' ≤ c ∧ c ≤ 'f') || decide ('A' ≤ c ∧ c ≤ 'F')

/-- What `.` does not match. -/
def isLineTerminator (c : Char) : Bool :=
  let n := c.toNat
  n == 10 || n == 13 || n == 8232 || n == 8233

def trim (cs : List Char) : List Char := (cs.dropWhile isSpace).rdropWhile isSpace

theorem trim_trim (cs : List Char) : trim (trim cs) = trim cs := by
  have hbelow : trim cs <+: cs.dropWhile isSpace := List.rdropWhile_prefix _ _
  have hhead : (trim cs).dropWhile isSpace = trim cs := by
    rw [List.dropWhile_eq_self_iff]
    intro hpos
    have hne := List.length_pos_iff.mp hpos
    have hfirst := List.head_dropWhile_not isSpace (hbelow.ne_nil hne)
    rw [← hbelow.head hne, List.head_eq_getElem] at hfirst
    simp [hfirst]
  rw [trim, hhead, trim, List.rdropWhile_idempotent]

theorem intercalate_append {α : Type*} {sep : List α} {xs ys : List (List α)} (hxs : xs ≠ [])
    (hys : ys ≠ []) :
    sep.intercalate (xs ++ ys) = sep.intercalate xs ++ (sep ++ sep.intercalate ys) := by
  induction xs with
  | nil => exact absurd rfl hxs
  | cons a xs ih =>
    by_cases hrest : xs = []
    · subst hrest
      rw [List.singleton_append, List.intercalate_cons_of_ne_nil hys, List.intercalate_singleton,
        List.append_assoc]
    · have happend : xs ++ ys ≠ [] := List.append_ne_nil_of_left_ne_nil hrest ys
      rw [List.cons_append, List.intercalate_cons_of_ne_nil happend, ih hrest,
        List.intercalate_cons_of_ne_nil hrest]
      simp only [List.append_assoc]

/-- A piece of a split text does not hold the separator. -/
theorem notMem_splitOn {x : Char} {cs piece : List Char} (h : piece ∈ cs.splitOn x) :
    x ∉ piece := by
  induction cs generalizing piece with
  | nil =>
    rw [List.splitOn_nil, List.mem_singleton] at h
    rw [h]
    exact List.not_mem_nil
  | cons c cs ih =>
    rw [List.splitOn_cons_eq_if_modifyHead] at h
    split at h
    · rcases List.mem_cons.mp h with rfl | h
      · exact List.not_mem_nil
      · exact ih h
    · rename_i hne
      cases hsplit : cs.splitOn x with
      | nil => exact absurd hsplit (List.splitOn_ne_nil x cs)
      | cons first rest =>
        rw [hsplit, List.modifyHead_cons] at h
        rcases List.mem_cons.mp h with rfl | h
        · have hfirst := ih (hsplit ▸ List.mem_cons_self)
          rw [List.mem_cons]
          rintro (rfl | hx)
          · exact hne (beq_self_eq_true x)
          · exact hfirst hx
        · exact ih (hsplit ▸ List.mem_cons_of_mem first h)

/-- Lines ended by newlines and a last one without are split into what they were. -/
theorem splitOn_lines {lines : List (List Char)} {e : List Char}
    (h : ∀ line ∈ lines, '\n' ∉ line) (he : '\n' ∉ e) :
    ((lines.flatMap fun line => line ++ ['\n']) ++ e).splitOn '\n' = lines ++ [e] := by
  induction lines with
  | nil => exact List.splitOn_eq_singleton he
  | cons line lines ih =>
    have hline := h line List.mem_cons_self
    have hlines := ih fun l hl => h l (List.mem_cons_of_mem line hl)
    rw [List.flatMap_cons, List.append_assoc, List.append_assoc, List.singleton_append,
      List.splitOn_append_cons_self_of_not_mem hline, hlines, List.cons_append]

/-- The characters of a literal, without reading its bytes. -/
theorem toList_eq {s : String} {cs : List Char} (h : s = String.ofList cs) : s.toList = cs := by
  rw [h, String.toList_ofList]

/-- The UTF-16 code units of a text. -/
def codeUnits (s : String) : List ℕ :=
  s.toList.flatMap fun c =>
    if c.toNat < 0x10000 then [c.toNat]
    else [0xD800 + (c.toNat - 0x10000) / 0x400, 0xDC00 + (c.toNat - 0x10000) % 0x400]

/-- `a <= b` -/
def le (a b : String) : Bool := decide (codeUnits a ≤ codeUnits b)

instance : IsTrans String fun a b => le a b = true where
  trans _ _ _ hab hbc :=
    decide_eq_true ((of_decide_eq_true hab).trans (of_decide_eq_true hbc))

instance : Std.Total fun a b : String => le a b = true where
  total a b := (le_total (codeUnits a) (codeUnits b)).imp decide_eq_true decide_eq_true

end JsString
end Batiste
