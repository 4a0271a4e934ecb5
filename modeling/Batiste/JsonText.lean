import Batiste.JsString
import Batiste.Json

/-! The texts of JSON values: `JSON.stringify(value)` and `String(value)`.  The text of a number
is a parameter. -/
namespace Batiste
namespace JsonText

def hexDigit (n : ℕ) : Char := if n < 10 then Char.ofNat (48 + n) else Char.ofNat (87 + n)

/-- A character inside a JSON string. -/
def escape (c : Char) : List Char :=
  if c = '"' ∨ c = '\\' then ['\\', c]
  else if c.toNat = 8 then ['\\', 'b']
  else if c.toNat = 9 then ['\\', 't']
  else if c.toNat = 10 then ['\\', 'n']
  else if c.toNat = 12 then ['\\', 'f']
  else if c.toNat = 13 then ['\\', 'r']
  else if c.toNat < 32 then ['\\', 'u', '0', '0', hexDigit (c.toNat / 16), hexDigit (c.toNat % 16)]
  else [c]

def quote (text : String) : String :=
  "\"" ++ String.ofList (text.toList.flatMap escape) ++ "\""

/-! ## Reading a quoted text -/

def hexValue (c : Char) : ℕ := if c.isDigit then c.toNat - 48 else c.toNat - 87

/-- The first character of an escaped text, and the rest. -/
def unescape : List Char → Option (Char × List Char)
  | [] => none
  | '\\' :: c :: rest =>
    if c = 'b' then some (Char.ofNat 8, rest)
    else if c = 't' then some (Char.ofNat 9, rest)
    else if c = 'n' then some (Char.ofNat 10, rest)
    else if c = 'f' then some (Char.ofNat 12, rest)
    else if c = 'r' then some (Char.ofNat 13, rest)
    else if c = 'u' then
      match rest with
      | _ :: _ :: high :: low :: rest => some (Char.ofNat (hexValue high * 16 + hexValue low), rest)
      | _ => none
    else some (c, rest)
  | c :: rest => some (c, rest)

theorem hexValue_digits :
    ∀ n < 32, hexValue (hexDigit (n / 16)) * 16 + hexValue (hexDigit (n % 16)) = n := by
  decide

theorem unescape_escape (c : Char) (rest : List Char) :
    unescape (escape c ++ rest) = some (c, rest) := by
  have hcode : ∀ n, c.toNat = n → Char.ofNat n = c := by
    rintro n rfl
    exact Char.ofNat_toNat c
  unfold escape
  split_ifs with hquote h8 h9 h10 h12 h13 h32
  · rcases hquote with rfl | rfl <;> rfl
  · rw [← hcode 8 h8]; rfl
  · rw [← hcode 9 h9]; rfl
  · rw [← hcode 10 h10]; rfl
  · rw [← hcode 12 h12]; rfl
  · rw [← hcode 13 h13]; rfl
  · show some (Char.ofNat _, rest) = _
    rw [hexValue_digits c.toNat h32, Char.ofNat_toNat]
  · push Not at hquote
    show unescape (c :: rest) = _
    unfold unescape
    split
    · next h => cases h
    · next h =>
      exact absurd (List.cons.inj h).1 hquote.2
    · next h => rw [(List.cons.inj h).1, (List.cons.inj h).2]

theorem flatMap_escape_injective : Function.Injective fun text : List Char => text.flatMap escape := by
  intro as
  induction as with
  | nil =>
    intro bs h
    cases bs with
    | nil => rfl
    | cons b bs =>
      have hread := unescape_escape b (bs.flatMap escape)
      simp only [List.flatMap_nil, List.flatMap_cons] at h
      rw [← h] at hread
      cases hread
  | cons a as ih =>
    intro bs h
    have hread := unescape_escape a (as.flatMap escape)
    simp only [List.flatMap_cons] at h
    rw [h] at hread
    cases bs with
    | nil => cases hread
    | cons b bs =>
      rw [List.flatMap_cons, unescape_escape b] at hread
      obtain ⟨rfl, htail⟩ := Prod.mk.inj (Option.some.inj hread)
      rw [ih htail.symm]

theorem quote_injective {a b : String} (h : quote a = quote b) : a = b := by
  have hlists := congrArg String.toList h
  simp only [quote, String.toList_append, String.toList_ofList] at hlists
  have hinner := List.append_cancel_right hlists
  exact String.toList_inj.mp (flatMap_escape_injective (List.append_cancel_left hinner))

/-! ## The texts -/

variable (numberText : ℚ → String)

mutual

/-- `JSON.stringify(value)`. -/
def stringify : Json → String
  | .null => "null"
  | .bool value => if value then "true" else "false"
  | .number value => numberText value
  | .string value => quote value
  | .array items => "[" ++ ",".intercalate (stringifyItems items) ++ "]"
  | .object fields => "\x7b" ++ ",".intercalate (stringifyFields fields) ++ "\x7d"

def stringifyItems : List Json → List String
  | [] => []
  | item :: items => stringify item :: stringifyItems items

def stringifyFields : List (String × Json) → List String
  | [] => []
  | (key, value) :: fields => (quote key ++ ":" ++ stringify value) :: stringifyFields fields

end

mutual

/-- `String(value)`. -/
def valueText : Json → String
  | .null => "null"
  | .bool value => if value then "true" else "false"
  | .number value => numberText value
  | .string value => value
  | .array items => ",".intercalate (joinedTexts items)
  | .object _ => "[object Object]"

/-- What `join` makes of the items. -/
def joinedTexts : List Json → List String
  | [] => []
  | .null :: items => "" :: joinedTexts items
  | item :: items => valueText item :: joinedTexts items

end

/-- `asText` of `safe.ts`; a missing value reads as `undefined`. -/
def asText : Option Json → String
  | none => "undefined"
  | some (.array items) => stringify numberText (.array items)
  | some (.object fields) => stringify numberText (.object fields)
  | some value => valueText numberText value

end JsonText

/-- `a === b` for two values that have been parsed apart. -/
def Json.strictEquals : Json → Json → Bool
  | .array _, _ => false
  | .object _, _ => false
  | a, b => a == b

/-- `text.trim()`. -/
def trimText (text : String) : String := String.ofList (JsString.trim text.toList)

/-- `text.length`: the number of UTF-16 units. -/
def textLength (text : String) : ℕ :=
  (text.toList.map fun c => if c.toNat < 0x10000 then 1 else 2).sum

end Batiste
