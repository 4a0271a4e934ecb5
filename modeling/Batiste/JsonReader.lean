import Batiste.JsonText
import Mathlib.Data.Nat.Digits.Lemmas

/-! `JSON.parse`, and `JSON.stringify` with an indentation: what is written is read back.
A text is the list of its characters; an escape of half a surrogate pair reads as the
replacement character. -/
namespace Batiste
namespace JsonReader

open JsonText (escape)

/-! ## Numerals -/

def numeralChar (c : Char) : Bool :=
  c.isDigit || c == '-' || c == '+' || c == '.' || c == 'e' || c == 'E'

/-- Digits, at least one. -/
def isDigits (cs : List Char) : Bool := cs != [] && cs.all Char.isDigit

/-- `0`, or digits that do not begin with it. -/
def isInteger (cs : List Char) : Bool := isDigits cs && (cs == ['0'] || cs.head? != some '0')

def isExponent : List Char → Bool
  | [] => true
  | c :: cs =>
    (c == 'e' || c == 'E') &&
      isDigits (if cs.head? = some '+' ∨ cs.head? = some '-' then cs.tail else cs)

def isFraction : List Char → Bool
  | '.' :: cs => isDigits (cs.takeWhile Char.isDigit) && isExponent (cs.dropWhile Char.isDigit)
  | cs => isExponent cs

def isNumeral (cs : List Char) : Bool :=
  let unsigned := if cs.head? = some '-' then cs.tail else cs
  isInteger (unsigned.takeWhile Char.isDigit) && isFraction (unsigned.dropWhile Char.isDigit)

/-- How numbers are written and read: each that can be stored has a numeral, which reads as it. -/
structure Numbers where
  stored : ℚ → Prop
  text : ℚ → List Char
  value : List Char → ℚ
  numeral : ∀ q, stored q → isNumeral (text q) = true
  chars : ∀ q, stored q → ∀ c ∈ text q, numeralChar c = true
  read : ∀ q, stored q → value (text q) = q

/-! ## Writing -/

def isSpace (c : Char) : Bool := c == ' ' || c == '\t' || c == '\n' || c == '\r'

/-- The white space before an item at a depth, and after the colon of a field. -/
structure Layout where
  gap : ℕ → List Char
  afterColon : List Char
  gap_space : ∀ depth, ∀ c ∈ gap depth, isSpace c = true
  colon_space : ∀ c ∈ afterColon, isSpace c = true

/-- `JSON.stringify(value)` -/
def compact : Layout where
  gap _ := []
  afterColon := []
  gap_space := by simp
  colon_space := by simp

/-- `JSON.stringify(value, null, n)` for a positive number of spaces. -/
def indented (n : ℕ) : Layout where
  gap depth := '\n' :: List.replicate (n * depth) ' '
  afterColon := [' ']
  gap_space := by
    intro depth c hc
    rcases List.mem_cons.mp hc with rfl | hc
    · rfl
    · rw [List.eq_of_mem_replicate hc]
      rfl
  colon_space := by
    intro c hc
    rw [List.mem_singleton.mp hc]
    rfl

variable (js : Numbers) (layout : Layout)

def quoted (text : String) : List Char := '"' :: (text.toList.flatMap escape ++ ['"'])

/-- Items between brackets, each after a gap. -/
def enclose (depth : ℕ) (opening closing : Char) (texts : List (List Char)) : List Char :=
  if texts = [] then [opening, closing]
  else
    opening :: ([','].intercalate (texts.map fun text => layout.gap (depth + 1) ++ text) ++
      (layout.gap depth ++ [closing]))

mutual

/-- The text of a value that stands at a depth. -/
def write (depth : ℕ) : Json → List Char
  | .null => ['n', 'u', 'l', 'l']
  | .bool true => ['t', 'r', 'u', 'e']
  | .bool false => ['f', 'a', 'l', 's', 'e']
  | .number value => js.text value
  | .string text => quoted text
  | .array items => enclose layout depth '[' ']' (writeItems (depth + 1) items)
  | .object fields => enclose layout depth '\x7b' '\x7d' (writeFields (depth + 1) fields)

def writeItems (depth : ℕ) : List Json → List (List Char)
  | [] => []
  | item :: items => write depth item :: writeItems depth items

def writeFields (depth : ℕ) : List (String × Json) → List (List Char)
  | [] => []
  | (key, value) :: fields =>
    (quoted key ++ ':' :: (layout.afterColon ++ write depth value)) :: writeFields depth fields

end

/-- `JSON.stringify(value, null, 2)` -/
def stringify (value : Json) : List Char := write js (indented 2) 0 value

/-! ## Reading -/

def skipSpace (text : List Char) : List Char := text.dropWhile isSpace

def hexDigit? (c : Char) : Option ℕ :=
  if c.isDigit then some (c.toNat - 48)
  else if 'a' ≤ c ∧ c ≤ 'f' then some (c.toNat - 87)
  else if 'A' ≤ c ∧ c ≤ 'F' then some (c.toNat - 55)
  else none

/-- The code unit of four hexadecimal digits, and the rest. -/
def codeUnit : List Char → Option (ℕ × List Char)
  | a :: b :: c :: d :: rest => do
    let a ← hexDigit? a
    let b ← hexDigit? b
    let c ← hexDigit? c
    let d ← hexDigit? d
    return (((a * 16 + b) * 16 + c) * 16 + d, rest)
  | _ => none

def replacement : Char := Char.ofNat 0xFFFD

/-- The second half of a surrogate pair. -/
def lowSurrogate : List Char → Option (ℕ × List Char)
  | '\\' :: 'u' :: rest => (codeUnit rest).filter fun p => 0xDC00 ≤ p.1 ∧ p.1 < 0xE000
  | _ => none

def escapedUnit (text : List Char) : Option (Char × List Char) :=
  match codeUnit text with
  | none => none
  | some (high, rest) =>
    if 0xD800 ≤ high ∧ high < 0xDC00 then
      match lowSurrogate rest with
      | some (low, rest) =>
        some (Char.ofNat (0x10000 + (high - 0xD800) * 0x400 + (low - 0xDC00)), rest)
      | none => some (replacement, rest)
    else if 0xDC00 ≤ high ∧ high < 0xE000 then some (replacement, rest)
    else some (Char.ofNat high, rest)

/-- The next character of a string, and the rest. -/
def readChar : List Char → Option (Char × List Char)
  | [] => none
  | '\\' :: c :: rest =>
    if c = '"' ∨ c = '\\' ∨ c = '/' then some (c, rest)
    else if c = 'b' then some (Char.ofNat 8, rest)
    else if c = 't' then some (Char.ofNat 9, rest)
    else if c = 'n' then some (Char.ofNat 10, rest)
    else if c = 'f' then some (Char.ofNat 12, rest)
    else if c = 'r' then some (Char.ofNat 13, rest)
    else if c = 'u' then escapedUnit rest
    else none
  | c :: rest => if c = '\\' ∨ c.toNat < 32 then none else some (c, rest)

/-- A string up to its closing quote; a round takes a character at least. -/
def readString : ℕ → List Char → Option (List Char × List Char)
  | 0, _ => none
  | _ + 1, '"' :: rest => some ([], rest)
  | fuel + 1, text =>
    match readChar text with
    | none => none
    | some (c, rest) => (readString fuel rest).map fun p => (c :: p.1, p.2)

def readNumber (text : List Char) : Option (Json × List Char) :=
  let numeral := text.takeWhile numeralChar
  if isNumeral numeral then some (.number (js.value numeral), text.dropWhile numeralChar) else none

mutual

/-- A value, and what follows it; a character takes two rounds at most. -/
def readValue : ℕ → List Char → Option (Json × List Char)
  | 0, _ => none
  | fuel + 1, text =>
    match skipSpace text with
    | '"' :: rest =>
      (readString (rest.length + 1) rest).map fun p => (.string (String.ofList p.1), p.2)
    | '[' :: rest =>
      match skipSpace rest with
      | ']' :: rest => some (.array [], rest)
      | rest => (readItems fuel rest).map fun p => (.array p.1, p.2)
    | '\x7b' :: rest =>
      match skipSpace rest with
      | '\x7d' :: rest => some (.object [], rest)
      -- A key that comes again keeps its place and takes the later value.
      | rest => (readFields fuel rest).map fun p => (.object (Dict.spread [] p.1), p.2)
    | 'n' :: 'u' :: 'l' :: 'l' :: rest => some (.null, rest)
    | 't' :: 'r' :: 'u' :: 'e' :: rest => some (.bool true, rest)
    | 'f' :: 'a' :: 'l' :: 's' :: 'e' :: rest => some (.bool false, rest)
    | text => readNumber js text

def readItems : ℕ → List Char → Option (List Json × List Char)
  | 0, _ => none
  | fuel + 1, text =>
    match readValue fuel text with
    | none => none
    | some (item, rest) =>
      match skipSpace rest with
      | ']' :: rest => some ([item], rest)
      | ',' :: rest => (readItems fuel rest).map fun p => (item :: p.1, p.2)
      | _ => none

def readFields : ℕ → List Char → Option (List (String × Json) × List Char)
  | 0, _ => none
  | fuel + 1, text =>
    match skipSpace text with
    | '"' :: rest =>
      match readString (rest.length + 1) rest with
      | none => none
      | some (key, rest) =>
        match skipSpace rest with
        | ':' :: rest =>
          match readValue fuel rest with
          | none => none
          | some (value, rest) =>
            match skipSpace rest with
            | '\x7d' :: rest => some ([(String.ofList key, value)], rest)
            | ',' :: rest =>
              (readFields fuel rest).map fun p => ((String.ofList key, value) :: p.1, p.2)
            | _ => none
        | _ => none
    | _ => none

end

/-- `JSON.parse(text)`, where it does not throw. -/
def parse (text : List Char) : Option Json :=
  match readValue js (2 * text.length + 2) text with
  | none => none
  | some (value, rest) => if skipSpace rest = [] then some value else none

/-! ## What is written is read -/

mutual

/-- Its numbers can be stored and the keys of its records are distinct. -/
def Valid : Json → Prop
  | .null => True
  | .bool _ => True
  | .number value => js.stored value
  | .string _ => True
  | .array items => ValidItems items
  | .object fields => (fields.map Prod.fst).Nodup ∧ ValidFields fields

def ValidItems : List Json → Prop
  | [] => True
  | item :: items => Valid item ∧ ValidItems items

def ValidFields : List (String × Json) → Prop
  | [] => True
  | (_, value) :: fields => Valid value ∧ ValidFields fields

end

variable {js layout}

theorem validItems_iff {items : List Json} :
    ValidItems js items ↔ ∀ item ∈ items, Valid js item := by
  induction items with
  | nil => simp [ValidItems]
  | cons item items ih => rw [ValidItems, ih, List.forall_mem_cons]

theorem validFields_iff {fields : List (String × Json)} :
    ValidFields js fields ↔ ∀ e ∈ fields, Valid js e.2 := by
  induction fields with
  | nil => simp [ValidFields]
  | cons e fields ih => rw [ValidFields, ih, List.forall_mem_cons]

theorem skipSpace_append {pre : List Char} (hpre : ∀ c ∈ pre, isSpace c = true) (text : List Char) :
    skipSpace (pre ++ text) = skipSpace text := by
  induction pre with
  | nil => rfl
  | cons c pre ih =>
    have hc : isSpace c = true := hpre c List.mem_cons_self
    rw [List.cons_append, skipSpace, List.dropWhile_cons_of_pos hc]
    exact ih fun c hmem => hpre c (List.mem_cons_of_mem _ hmem)

theorem skipSpace_cons {c : Char} (hc : isSpace c = false) (text : List Char) :
    skipSpace (c :: text) = c :: text :=
  List.dropWhile_cons_of_neg (by simp [hc])

theorem skipSpace_skipSpace (text : List Char) : skipSpace (skipSpace text) = skipSpace text :=
  List.dropWhile_idempotent isSpace text

theorem hexDigit?_hexDigit : ∀ n < 16, hexDigit? (JsonText.hexDigit n) = some n := by decide

theorem readChar_plain {c : Char} (hquote : ¬(c = '"' ∨ c = '\\')) (h32 : ¬c.toNat < 32)
    (rest : List Char) : readChar (c :: rest) = some (c, rest) := by
  push Not at hquote
  unfold readChar
  split
  · next h => cases h
  · next h => exact absurd (List.cons.inj h).1 hquote.2
  · next h =>
    obtain ⟨rfl, rfl⟩ := List.cons.inj h
    rw [if_neg (by rintro (h | h); exacts [hquote.2 h, h32 h])]

theorem codeUnit_control {n : ℕ} (hn : n < 32) (rest : List Char) :
    codeUnit ('0' :: '0' :: JsonText.hexDigit (n / 16) :: JsonText.hexDigit (n % 16) :: rest) =
      some (n, rest) := by
  have hzero : hexDigit? '0' = some 0 := rfl
  have hhigh := hexDigit?_hexDigit (n / 16) (by omega)
  have hlow := hexDigit?_hexDigit (n % 16) (by omega)
  have hn' : ((0 * 16 + 0) * 16 + n / 16) * 16 + n % 16 = n := by omega
  simp only [codeUnit, hzero, hhigh, hlow, Option.bind_eq_bind, Option.bind_some, hn',
    Option.pure_def]

theorem readChar_escape (c : Char) (rest : List Char) :
    readChar (escape c ++ rest) = some (c, rest) := by
  have hcode : ∀ n, c.toNat = n → Char.ofNat n = c := by
    rintro n rfl
    exact Char.ofNat_toNat c
  unfold escape
  split_ifs with hquote h8 h9 h10 h12 h13 h32
  · rcases hquote with rfl | rfl <;> rfl
  · rw [← hcode 8 h8]; rfl
  · rw [← hcode 9 h9]; rfl
  · rw [← hcode 10 h10]; rfl
  · rw [← hcode 12 h12]; rfl
  · rw [← hcode 13 h13]; rfl
  · show escapedUnit ('0' :: '0' :: JsonText.hexDigit (c.toNat / 16) ::
      JsonText.hexDigit (c.toNat % 16) :: rest) = _
    rw [escapedUnit, codeUnit_control h32]
    show (if _ then _ else _) = _
    rw [if_neg (by omega), if_neg (by omega), Char.ofNat_toNat]
  · exact readChar_plain hquote h32 rest

theorem escape_head (c : Char) : ∃ d rest, escape c = d :: rest ∧ d ≠ '"' := by
  unfold escape
  split_ifs with hquote
  all_goals first
    | exact ⟨_, _, rfl, by decide⟩
    | exact ⟨c, [], rfl, fun h => hquote (.inl h)⟩

theorem readString_cons {text rest : List Char} {c : Char} (hread : readChar text = some (c, rest))
    (hquote : text.head? ≠ some '"') (fuel : ℕ) :
    readString (fuel + 1) text = (readString fuel rest).map fun p => (c :: p.1, p.2) := by
  conv_lhs => unfold readString
  split
  · next h => cases h
  · exact absurd rfl hquote
  · next hfuel _ =>
    obtain rfl := Nat.succ.inj hfuel
    rw [hread]

theorem readString_body (text rest : List Char) {fuel : ℕ} (hfuel : text.length < fuel) :
    readString fuel (text.flatMap escape ++ '"' :: rest) = some (text, rest) := by
  induction text generalizing fuel with
  | nil =>
    obtain ⟨fuel, rfl⟩ := Nat.exists_eq_succ_of_ne_zero (by omega : fuel ≠ 0)
    rfl
  | cons c text ih =>
    obtain ⟨fuel, rfl⟩ := Nat.exists_eq_succ_of_ne_zero (by omega : fuel ≠ 0)
    have hshort : text.length < fuel := by simpa using hfuel
    obtain ⟨d, ds, hescape, hd⟩ := escape_head c
    rw [List.flatMap_cons, List.append_assoc, readString_cons (readChar_escape c _), ih hshort]
    · rfl
    · simpa [hescape] using hd

theorem length_le_flatMap_escape (text : List Char) : text.length ≤ (text.flatMap escape).length := by
  induction text with
  | nil => exact le_rfl
  | cons c text ih =>
    obtain ⟨d, ds, hescape, -⟩ := escape_head c
    rw [List.flatMap_cons, hescape, List.length_append, List.length_cons, List.length_cons]
    omega

/-- What follows the opening quote of a quoted text. -/
theorem readString_quoted (text : String) (rest : List Char) :
    readString ((text.toList.flatMap escape ++ ['"'] ++ rest).length + 1)
      (text.toList.flatMap escape ++ ['"'] ++ rest) = some (text.toList, rest) := by
  have hlen := length_le_flatMap_escape text.toList
  rw [List.append_assoc, List.singleton_append]
  refine readString_body text.toList rest ?_
  rw [List.length_append, List.length_cons]
  omega

theorem head_of_isNumeral {cs : List Char} (h : isNumeral cs = true) :
    ∃ c rest, cs = c :: rest ∧ (c.isDigit = true ∨ c = '-') := by
  cases cs with
  | nil => cases h
  | cons c cs =>
    refine ⟨c, cs, rfl, ?_⟩
    by_contra hc
    push Not at hc
    have hdigit : c.isDigit = false := by simpa using hc.1
    simp [isNumeral, hc.2, hdigit, isInteger, isDigits] at h

/-- The text after a value does not go on with its numeral. -/
def Stops (rest : List Char) : Prop := ∀ c ∈ rest.head?, numeralChar c = false

theorem takeWhile_stops {p : Char → Bool} {cs : List Char} (rest : List Char)
    (hcs : ∀ c ∈ cs, p c = true)
    (hrest : ∀ c ∈ rest.head?, p c = false) :
    (cs ++ rest).takeWhile p = cs ∧ (cs ++ rest).dropWhile p = rest := by
  rw [List.takeWhile_append_of_pos hcs, List.dropWhile_append_of_pos hcs]
  cases rest with
  | nil => simp
  | cons c rest =>
    have hc : p c = false := hrest c rfl
    simp [hc]

theorem readNumber_text {q : ℚ} (hq : js.stored q) {rest : List Char} (hrest : Stops rest) :
    readNumber js (js.text q ++ rest) = some (.number q, rest) := by
  obtain ⟨htake, hdrop⟩ := takeWhile_stops rest (js.chars q hq) hrest
  rw [readNumber, htake, hdrop, if_pos (js.numeral q hq), js.read q hq]

/-! ## The equations of the reader -/

section Equations

variable (fuel : ℕ) (rest : List Char)

theorem readValue_skip (text : List Char) : readValue js fuel (skipSpace text) = readValue js fuel text := by
  cases fuel with
  | zero => rfl
  | succ fuel => rw [readValue, readValue, skipSpace_skipSpace]

theorem readValue_append {pre : List Char} (hpre : ∀ c ∈ pre, isSpace c = true) (text : List Char) :
    readValue js fuel (pre ++ text) = readValue js fuel text := by
  rw [← readValue_skip, skipSpace_append hpre, readValue_skip]

theorem readItems_skip (text : List Char) : readItems js fuel (skipSpace text) = readItems js fuel text := by
  cases fuel with
  | zero => rfl
  | succ fuel => rw [readItems, readItems, readValue_skip]

theorem readFields_skip (text : List Char) :
    readFields js fuel (skipSpace text) = readFields js fuel text := by
  cases fuel with
  | zero => rfl
  | succ fuel => rw [readFields, readFields, skipSpace_skipSpace]

theorem readValue_array {text : List Char} (h : (skipSpace text).head? ≠ some ']') :
    readValue js (fuel + 1) ('[' :: text) =
      (readItems js fuel text).map fun p => (.array p.1, p.2) := by
  rw [readValue, skipSpace_cons rfl, ← readItems_skip]
  split
  case h_2 heq =>
    obtain ⟨-, rfl⟩ := List.cons.inj heq
    split
    · next hend => exact absurd (by rw [hend]; rfl) h
    · rfl
  case h_7 harray _ _ _ _ => exact absurd rfl (harray text)
  all_goals next heq => exact absurd (List.cons.inj heq).1 (by decide)

theorem readValue_object {text : List Char} (h : (skipSpace text).head? ≠ some '\x7d') :
    readValue js (fuel + 1) ('\x7b' :: text) =
      (readFields js fuel text).map fun p => (.object (Dict.spread [] p.1), p.2) := by
  rw [readValue, skipSpace_cons rfl, ← readFields_skip]
  split
  case h_3 heq =>
    obtain ⟨-, rfl⟩ := List.cons.inj heq
    split
    · next hend => exact absurd (by rw [hend]; rfl) h
    · rfl
  case h_7 hobject _ _ _ => exact absurd rfl (hobject text)
  all_goals next heq => exact absurd (List.cons.inj heq).1 (by decide)

theorem readValue_number {c : Char} (hc : c.isDigit = true ∨ c = '-') (text : List Char) :
    readValue js (fuel + 1) (c :: text) = readNumber js (c :: text) := by
  have hspace : isSpace c = false := by
    rcases hc with hdigit | rfl
    · by_contra h
      have hmem : ((c = ' ' ∨ c = '\t') ∨ c = '\n') ∨ c = '\r' := by
        simpa only [isSpace, Bool.not_eq_false, Bool.or_eq_true, beq_iff_eq] using h
      rcases hmem with ((rfl | rfl) | rfl) | rfl <;> cases hdigit
    · rfl
  rw [readValue, skipSpace_cons hspace]
  split
  all_goals first
    | rfl
    | next heq =>
      obtain ⟨rfl, -⟩ := List.cons.inj heq
      rcases hc with hc | hc <;> cases hc

theorem readItems_last {text after : List Char} {item : Json}
    (hitem : readValue js fuel text = some (item, after)) (hend : skipSpace after = ']' :: rest) :
    readItems js (fuel + 1) text = some ([item], rest) := by
  simp only [readItems, hitem, hend]

theorem readItems_more {text after : List Char} {item : Json}
    (hitem : readValue js fuel text = some (item, after)) (hend : skipSpace after = ',' :: rest) :
    readItems js (fuel + 1) text = (readItems js fuel rest).map fun p => (item :: p.1, p.2) := by
  simp only [readItems, hitem, hend]

/-- The text of a field, its value to be read. -/
theorem readFields_eq {text after : List Char} (key : String) {value : Json}
    (hvalue : readValue js fuel text = some (value, after)) :
    (skipSpace after = '\x7d' :: rest →
      readFields js (fuel + 1) (quoted key ++ ':' :: text) = some ([(key, value)], rest)) ∧
    (skipSpace after = ',' :: rest →
      readFields js (fuel + 1) (quoted key ++ ':' :: text) =
        (readFields js fuel rest).map fun p => ((key, value) :: p.1, p.2)) := by
  have hkey := readString_quoted key (':' :: text)
  have hquoted : quoted key ++ ':' :: text =
      '"' :: (key.toList.flatMap escape ++ ['"'] ++ ':' :: text) := rfl
  have hcolon : skipSpace (':' :: text) = ':' :: text := skipSpace_cons rfl text
  have hquote : ∀ t, skipSpace ('"' :: t) = '"' :: t := skipSpace_cons rfl
  constructor
  · intro hend
    simp only [readFields, hquoted, hquote, hkey, hcolon, hvalue, hend, String.ofList_toList]
  · intro hend
    simp only [readFields, hquoted, hquote, hkey, hcolon, hvalue, hend, String.ofList_toList]

theorem readValue_quoted (text : String) :
    readValue js (fuel + 1) (quoted text ++ rest) = some (.string text, rest) := by
  have hread := readString_quoted text rest
  have hquoted : quoted text ++ rest = '"' :: (text.toList.flatMap escape ++ ['"'] ++ rest) := rfl
  have hquote : ∀ t, skipSpace ('"' :: t) = '"' :: t := skipSpace_cons rfl
  simp only [readValue, hquoted, hquote, hread, Option.map_some, String.ofList_toList]

end Equations

/-! ## The round trip -/

/-- A character that no text of a value begins with. -/
def marks (c : Char) : Bool := isSpace c || c == ']' || c == '\x7d'

variable (layout) in
theorem write_head {value : Json} (h : Valid js value) (depth : ℕ) :
    ∃ c cs, write js layout depth value = c :: cs ∧ marks c = false := by
  cases value with
  | null => exact ⟨'n', _, rfl, rfl⟩
  | bool b => cases b <;> exact ⟨_, _, rfl, rfl⟩
  | string text => exact ⟨'"', _, rfl, rfl⟩
  | number q =>
    obtain ⟨c, cs, htext, hc⟩ := head_of_isNumeral (js.numeral q h)
    refine ⟨c, cs, htext, ?_⟩
    rcases hc with hdigit | rfl
    · by_contra hmarks
      have hmem : ((((c = ' ' ∨ c = '\t') ∨ c = '\n') ∨ c = '\r') ∨ c = ']') ∨ c = '\x7d' := by
        simpa only [marks, isSpace, Bool.not_eq_false, Bool.or_eq_true, beq_iff_eq] using hmarks
      rcases hmem with ((((rfl | rfl) | rfl) | rfl) | rfl) | rfl <;> cases hdigit
    · rfl
  | array items =>
    rw [write, enclose]
    split_ifs <;> exact ⟨'[', _, rfl, rfl⟩
  | object fields =>
    rw [write, enclose]
    split_ifs <;> exact ⟨'\x7b', _, rfl, rfl⟩

/-- A space is no part of a numeral. -/
theorem numeralChar_of_isSpace {c : Char} (h : isSpace c = true) : numeralChar c = false := by
  have hmem : ((c = ' ' ∨ c = '\t') ∨ c = '\n') ∨ c = '\r' := by
    simpa only [isSpace, Bool.or_eq_true, beq_iff_eq] using h
  rcases hmem with ((rfl | rfl) | rfl) | rfl <;> rfl

variable (layout) in
/-- Texts between commas, each after a gap. -/
def joined (depth : ℕ) (texts : List (List Char)) : List Char :=
  [','].intercalate (texts.map fun text => layout.gap depth ++ text)

theorem joined_cons (depth : ℕ) (text : List Char) {texts : List (List Char)} (h : texts ≠ []) :
    joined layout depth (text :: texts) =
      layout.gap depth ++ (text ++ ',' :: joined layout depth texts) := by
  rw [joined, List.map_cons, List.intercalate_cons_of_ne_nil (by simpa using h)]
  simp [joined]

theorem joined_singleton (depth : ℕ) (text : List Char) :
    joined layout depth [text] = layout.gap depth ++ text := by
  rw [joined, List.map_singleton, List.intercalate_singleton]

variable (layout) in
theorem stops_closing (depth : ℕ) {c : Char} (hc : numeralChar c = false) (rest : List Char) :
    Stops (layout.gap depth ++ c :: rest) := by
  cases hgap : layout.gap depth with
  | nil => intro d hd; rwa [← Option.some.inj hd]
  | cons d gap =>
    intro e he
    obtain rfl : d = e := Option.some.inj he
    exact numeralChar_of_isSpace (layout.gap_space depth d (by simp [hgap]))

theorem stops_cons {c : Char} (hc : numeralChar c = false) (rest : List Char) : Stops (c :: rest) := by
  intro d hd
  rwa [← Option.some.inj hd]

theorem skipSpace_gap (depth : ℕ) {c : Char} (hc : isSpace c = false) (rest : List Char) :
    skipSpace (layout.gap depth ++ c :: rest) = c :: rest := by
  rw [skipSpace_append (layout.gap_space depth), skipSpace_cons hc]

theorem writeItems_ne_nil (depth : ℕ) {items : List Json} (h : items ≠ []) :
    writeItems js layout depth items ≠ [] := by
  cases items with
  | nil => exact absurd rfl h
  | cons item items => simp [writeItems]

theorem writeFields_ne_nil (depth : ℕ) {fields : List (String × Json)} (h : fields ≠ []) :
    writeFields js layout depth fields ≠ [] := by
  cases fields with
  | nil => exact absurd rfl h
  | cons field fields => simp [writeFields]

variable (layout) in
theorem enclose_eq (depth : ℕ) (opening closing : Char) {texts : List (List Char)} (h : texts ≠ [])
    (rest : List Char) : enclose layout depth opening closing texts ++ rest =
      opening :: (joined layout (depth + 1) texts ++ (layout.gap depth ++ closing :: rest)) := by
  rw [enclose, if_neg h, joined]
  simp

variable (layout) in
theorem length_joined_lt (depth : ℕ) (opening closing : Char) (texts : List (List Char)) :
    (joined layout (depth + 1) texts).length < (enclose layout depth opening closing texts).length := by
  by_cases h : texts = []
  · subst h
    simp [joined, enclose]
  · have heq := enclose_eq layout depth opening closing h []
    rw [List.append_nil] at heq
    rw [heq, List.length_cons, List.length_append]
    omega

/-- What follows the opening bracket is the text of an item. -/
theorem head_joined (depth : ℕ) {text : List Char} {texts : List (List Char)} {c : Char}
    {cs : List Char} (htext : text = c :: cs) (hc : isSpace c = false) (rest : List Char) :
    (skipSpace (joined layout depth (text :: texts) ++ rest)).head? = some c := by
  by_cases h : texts = []
  · rw [h, joined_singleton, htext, List.append_assoc, skipSpace_append (layout.gap_space depth),
      List.cons_append, skipSpace_cons hc, List.head?_cons]
  · rw [joined_cons depth text h, htext, List.append_assoc,
      skipSpace_append (layout.gap_space depth), List.cons_append, List.cons_append,
      skipSpace_cons hc, List.head?_cons]

theorem head_items (items : List Json) (hne : items ≠ []) (h : ValidItems js items) (depth : ℕ)
    (rest : List Char) :
    (skipSpace (joined layout (depth + 1) (writeItems js layout (depth + 1) items) ++ rest)).head? ≠
      some ']' := by
  cases items with
  | nil => exact absurd rfl hne
  | cons item items =>
    obtain ⟨c, cs, hwrite, hmarks⟩ := write_head layout h.1 (depth + 1)
    rw [marks, Bool.or_eq_false_iff, Bool.or_eq_false_iff] at hmarks
    rw [writeItems, head_joined (depth + 1) hwrite hmarks.1.1]
    exact fun heq => by simp [Option.some.inj heq] at hmarks

theorem head_fields (fields : List (String × Json)) (hne : fields ≠ []) (depth : ℕ)
    (rest : List Char) :
    (skipSpace (joined layout (depth + 1) (writeFields js layout (depth + 1) fields) ++ rest)).head? ≠
      some '\x7d' := by
  cases fields with
  | nil => exact absurd rfl hne
  | cons field fields =>
    have hquote : ∃ cs, quoted field.1 ++ ':' :: (layout.afterColon ++
        write js layout (depth + 1) field.2) = '"' :: cs := ⟨_, rfl⟩
    obtain ⟨cs, hcs⟩ := hquote
    rw [writeFields, head_joined (depth + 1) hcs rfl]
    exact fun heq => absurd (Option.some.inj heq) (by decide)

mutual

theorem readValue_write (value : Json) (h : Valid js value) (depth fuel : ℕ)
    {rest : List Char} (hrest : Stops rest)
    (hfuel : 2 * (write js layout depth value).length ≤ fuel) :
    readValue js fuel (write js layout depth value ++ rest) = some (value, rest) := by
  obtain ⟨c, cs, hwrite, -⟩ := write_head layout h depth
  have hpos : fuel ≠ 0 := by
    rw [hwrite, List.length_cons] at hfuel
    omega
  obtain ⟨fuel, rfl⟩ := Nat.exists_eq_succ_of_ne_zero hpos
  cases value with
  | null => rfl
  | bool b => cases b <;> rfl
  | string text => exact readValue_quoted fuel rest text
  | number q =>
    obtain ⟨c, cs, htext, hc⟩ := head_of_isNumeral (js.numeral q h)
    have hread := readNumber_text h hrest
    rw [htext, List.cons_append] at hread
    rw [write, htext, List.cons_append, readValue_number fuel hc, hread]
  | array items =>
    by_cases hitems : items = []
    · subst hitems
      rfl
    · have hlen := length_joined_lt layout depth '[' ']'
        (writeItems js layout (depth + 1) items)
      rw [write] at hfuel ⊢
      have hread := readItems_write items hitems h depth fuel rest (by omega)
      rw [enclose_eq layout depth '[' ']' (writeItems_ne_nil _ hitems), readValue_array, hread]
      · rfl
      · exact head_items items hitems h depth _
  | object fields =>
    by_cases hfields : fields = []
    · subst hfields
      rfl
    · have hlen := length_joined_lt layout depth '\x7b' '\x7d'
        (writeFields js layout (depth + 1) fields)
      rw [write] at hfuel ⊢
      have hread := readFields_write fields hfields h.2 depth fuel rest (by omega)
      rw [enclose_eq layout depth '\x7b' '\x7d' (writeFields_ne_nil _ hfields), readValue_object, hread]
      · rw [Option.map_some, Dict.spread_append (by simpa using h.1), List.nil_append]
      · exact head_fields fields hfields depth _

theorem readItems_write (items : List Json) (hne : items ≠ []) (h : ValidItems js items)
    (depth fuel : ℕ) (rest : List Char)
    (hfuel : 2 * (joined layout (depth + 1) (writeItems js layout (depth + 1) items)).length + 1 ≤ fuel) :
    readItems js fuel (joined layout (depth + 1) (writeItems js layout (depth + 1) items) ++
      (layout.gap depth ++ ']' :: rest)) = some (items, rest) := by
  obtain ⟨fuel, rfl⟩ := Nat.exists_eq_succ_of_ne_zero (by omega : fuel ≠ 0)
  cases items with
  | nil => exact absurd rfl hne
  | cons item items =>
    obtain ⟨hitem, hitems⟩ := h
    by_cases htail : items = []
    · subst htail
      rw [writeItems, writeItems, joined_singleton] at hfuel ⊢
      rw [List.length_append] at hfuel
      have hread := readValue_write item hitem (depth + 1) fuel
        (stops_closing layout depth (c := ']') rfl rest) (by omega)
      rw [List.append_assoc]
      rw [← readValue_append fuel (layout.gap_space (depth + 1))] at hread
      exact readItems_last fuel rest hread (skipSpace_gap depth rfl rest)
    · rw [writeItems, joined_cons _ _ (writeItems_ne_nil _ htail)] at hfuel ⊢
      rw [List.length_append, List.length_append, List.length_cons] at hfuel
      have hmore := readItems_write items htail hitems depth fuel rest (by omega)
      have hread := readValue_write item hitem (depth + 1) fuel
        (stops_cons (c := ',') rfl (joined layout (depth + 1) (writeItems js layout (depth + 1) items) ++
          (layout.gap depth ++ ']' :: rest))) (by omega)
      rw [List.append_assoc, List.append_assoc, List.cons_append]
      rw [readItems_more fuel _ _ (skipSpace_cons rfl _), hmore]
      · rfl
      · rw [readValue_append fuel (layout.gap_space _), hread]

theorem readFields_write (fields : List (String × Json)) (hne : fields ≠ [])
    (h : ValidFields js fields) (depth fuel : ℕ) (rest : List Char)
    (hfuel : 2 * (joined layout (depth + 1) (writeFields js layout (depth + 1) fields)).length + 1 ≤
      fuel) :
    readFields js fuel (joined layout (depth + 1) (writeFields js layout (depth + 1) fields) ++
      (layout.gap depth ++ '\x7d' :: rest)) = some (fields, rest) := by
  obtain ⟨fuel, rfl⟩ := Nat.exists_eq_succ_of_ne_zero (by omega : fuel ≠ 0)
  cases fields with
  | nil => exact absurd rfl hne
  | cons field fields =>
    obtain ⟨key, value⟩ := field
    obtain ⟨hvalue, hfields⟩ := h
    by_cases htail : fields = []
    · subst htail
      rw [writeFields, writeFields, joined_singleton] at hfuel ⊢
      simp only [List.length_append, List.length_cons] at hfuel
      have hread := readValue_write value hvalue (depth + 1) fuel
        (stops_closing layout depth (c := '\x7d') rfl rest) (by omega)
      rw [← readValue_append fuel layout.colon_space] at hread
      rw [← readFields_skip, List.append_assoc, skipSpace_append (layout.gap_space _), readFields_skip,
        List.append_assoc, List.cons_append, List.append_assoc]
      exact (readFields_eq fuel rest key hread).1 (skipSpace_gap depth rfl rest)
    · rw [writeFields, joined_cons _ _ (writeFields_ne_nil _ htail)] at hfuel ⊢
      simp only [List.length_append, List.length_cons] at hfuel
      have hmore := readFields_write fields htail hfields depth fuel rest (by omega)
      have hread := readValue_write value hvalue (depth + 1) fuel
        (stops_cons (c := ',') rfl (joined layout (depth + 1)
          (writeFields js layout (depth + 1) fields) ++ (layout.gap depth ++ '\x7d' :: rest)))
        (by omega)
      rw [← readValue_append fuel layout.colon_space] at hread
      rw [← readFields_skip, List.append_assoc, skipSpace_append (layout.gap_space _), readFields_skip,
        List.append_assoc, List.append_assoc, List.cons_append, List.append_assoc, List.cons_append,
        (readFields_eq fuel _ key hread).2 (skipSpace_cons rfl _), hmore]
      rfl

end

variable (layout) in
/-- What is written reads back, white space around it or not. -/
theorem parse_write {value : Json} (h : Valid js value) (pre post : List Char)
    (hpre : ∀ c ∈ pre, isSpace c = true) (hpost : ∀ c ∈ post, isSpace c = true) :
    parse js (pre ++ (write js layout 0 value ++ post)) = some value := by
  have hstops : Stops post := by
    cases post with
    | nil => simp [Stops]
    | cons c post =>
      exact stops_cons (numeralChar_of_isSpace (hpost c List.mem_cons_self)) post
  have hend : skipSpace post = [] := by
    have hskip := skipSpace_append hpost []
    rwa [List.append_nil] at hskip
  rw [parse, readValue_append _ hpre, readValue_write value h 0 _ hstops]
  · exact if_pos hend
  · simp only [List.length_append]
    omega

theorem parse_stringify {value : Json} (h : Valid js value) :
    parse js (stringify js value) = some value := by
  have hparse := parse_write (indented 2) h [] [] (by simp) (by simp)
  rwa [List.append_nil, List.nil_append] at hparse

/-- A record written entry by entry is cast back entry by entry. -/
theorem filterMap_cast {β : Type} {toJson : β → Json} {ofJson : Json → Option β}
    (h : ∀ b, ofJson (toJson b) = some b) (d : Dict β) :
    ((d.map fun e => (e.1, toJson e.2)).filterMap fun e => (ofJson e.2).map fun b => (e.1, b)) = d := by
  rw [List.filterMap_map]
  refine (List.filterMap_congr fun e _ => ?_).trans List.filterMap_some
  simp [h]

theorem validFields_map {β : Type} {toJson : β → Json} {d : Dict β}
    (h : ∀ e ∈ d, Valid js (toJson e.2)) (hkeys : (d.map Prod.fst).Nodup) :
    Valid js (.object (d.map fun e => (e.1, toJson e.2))) := by
  refine ⟨by simpa [Function.comp_def] using hkeys, validFields_iff.mpr fun field hfield => ?_⟩
  obtain ⟨e, he, rfl⟩ := List.mem_map.mp hfield
  exact h e he

/-! ## Whole numbers -/

/-- `String(n)` -/
def wholeText (n : ℕ) : List Char :=
  if n = 0 then ['0'] else (Nat.digits 10 n).reverse.map Nat.digitChar

def wholeValue (cs : List Char) : ℕ := Nat.ofDigits 10 (cs.reverse.map fun c => c.toNat - 48)

theorem digitChar_digit : ∀ n < 10, (Nat.digitChar n).isDigit = true ∧ (Nat.digitChar n).toNat - 48 = n := by
  decide

theorem isDigit_wholeText (n : ℕ) : ∀ c ∈ wholeText n, c.isDigit = true := by
  intro c hc
  unfold wholeText at hc
  split_ifs at hc with hzero
  · rw [List.mem_singleton.mp hc]
    rfl
  · obtain ⟨d, hd, rfl⟩ := List.mem_map.mp hc
    exact (digitChar_digit d (Nat.digits_lt_base (by omega) (List.mem_reverse.mp hd))).1

theorem wholeValue_wholeText (n : ℕ) : wholeValue (wholeText n) = n := by
  unfold wholeValue wholeText
  split_ifs with hzero
  · rw [hzero]
    rfl
  · rw [← List.map_reverse, List.reverse_reverse, List.map_map]
    have hdigits : (Nat.digits 10 n).map ((fun c => c.toNat - 48) ∘ Nat.digitChar) = Nat.digits 10 n := by
      conv_rhs => rw [← List.map_id (Nat.digits 10 n)]
      exact List.map_congr_left fun d hd => (digitChar_digit d (Nat.digits_lt_base (by omega) hd)).2
    rw [hdigits, Nat.ofDigits_digits]

theorem isNumeral_wholeText (n : ℕ) : isNumeral (wholeText n) = true := by
  have hdigit := isDigit_wholeText n
  have hhead : ∃ c cs, wholeText n = c :: cs ∧ (wholeText n = ['0'] ∨ c ≠ '0') := by
    unfold wholeText
    split_ifs with hzero
    · exact ⟨'0', [], rfl, .inl rfl⟩
    · have hne := Nat.digits_ne_nil_iff_ne_zero (b := 10).mpr hzero
      have hlast := Nat.getLast_digit_ne_zero 10 hzero
      have hlt := Nat.digits_lt_base (b := 10) (by omega) (List.getLast_mem hne)
      refine ⟨_, _, by rw [← List.dropLast_append_getLast hne, List.reverse_concat, List.map_cons], .inr ?_⟩
      intro heq
      have htoNat := (digitChar_digit _ hlt).2
      rw [heq] at htoNat
      exact hlast htoNat.symm
  obtain ⟨c, cs, hcons, hhead⟩ := hhead
  have hc : c.isDigit = true := hdigit c (by simp [hcons])
  have hminus : (wholeText n).head? ≠ some '-' := by
    rw [hcons]
    intro h
    rw [Option.some.inj h] at hc
    cases hc
  have htake := takeWhile_stops [] hdigit (by simp)
  rw [List.append_nil] at htake
  simp only [isNumeral, if_neg hminus, htake.1, htake.2, isInteger, isDigits, isFraction, isExponent,
    List.all_eq_true.mpr hdigit, Bool.and_true, Bool.and_eq_true, Bool.or_eq_true, beq_iff_eq, bne_iff_ne]
  refine ⟨by simp [hcons], hhead.imp id fun hne => ?_⟩
  simpa [hcons] using hne

/-- The numbers that are whole. -/
def wholeNumbers : Numbers where
  stored q := ∃ n : ℕ, n < 2 ^ 53 ∧ q = n
  text q := wholeText q.num.toNat
  value cs := wholeValue cs
  numeral := by
    rintro q ⟨n, -, rfl⟩
    exact isNumeral_wholeText _
  chars := by
    rintro q ⟨n, -, rfl⟩ c hc
    simp [numeralChar, isDigit_wholeText _ c hc]
  read := by
    rintro q ⟨n, -, rfl⟩
    rw [wholeValue_wholeText]
    simp

end JsonReader
end Batiste
