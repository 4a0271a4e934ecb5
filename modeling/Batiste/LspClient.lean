import Batiste.ChunkReader
import Batiste.JsString

/-! The framing of `LSPClient`: how `sendRequest` frames a message, and what `handleData` makes
of the chunks of the server's output.
A string is the list of its UTF-16 code units; each chunk is decoded by itself. -/
namespace Batiste
namespace LspClient

open ChunkReader

abbrev Bytes := List UInt8
abbrev Units := List UInt16

/-! ## Encodings -/

/-- The code units of a code point. -/
def unitsOf (n : ℕ) : Units :=
  if n < 0x10000 then [UInt16.ofNat n]
  else [UInt16.ofNat (0xD800 + (n - 0x10000) / 0x400), UInt16.ofNat (0xDC00 + (n - 0x10000) % 0x400)]

/-- A text as a string of the client. -/
def units (text : String) : Units := text.toList.flatMap fun c => unitsOf c.toNat

/-- `Buffer.from(text)`. -/
def bytes (text : String) : Bytes := text.toList.flatMap String.utf8EncodeChar

def replacement : UInt16 := 0xFFFD

/-- Between characters, or inside one: the code point so far, the bytes it still needs, and the
range of the next of them. -/
inductive Decoder
  | ready
  | inside (codePoint needed lower upper : ℕ)

/-- A byte where a character begins. -/
def lead (b : UInt8) : Units × Decoder :=
  let n := b.toNat
  if n < 0x80 then ([UInt16.ofNat n], .ready)
  else if n < 0xC2 then ([replacement], .ready)
  else if n < 0xE0 then ([], .inside (n - 0xC0) 1 0x80 0xBF)
  else if n < 0xF0 then
    ([], .inside (n - 0xE0) 2 (if n = 0xE0 then 0xA0 else 0x80) (if n = 0xED then 0x9F else 0xBF))
  else if n < 0xF5 then
    ([], .inside (n - 0xF0) 3 (if n = 0xF0 then 0x90 else 0x80) (if n = 0xF4 then 0x8F else 0xBF))
  else ([replacement], .ready)

def decodeFrom : Decoder → Bytes → Units
  | .ready, [] => []
  | .inside _ _ _ _, [] => [replacement]
  | .ready, b :: rest => (lead b).1 ++ decodeFrom (lead b).2 rest
  | .inside codePoint needed lower upper, b :: rest =>
    if lower ≤ b.toNat ∧ b.toNat ≤ upper then
      let extended := codePoint * 0x40 + (b.toNat - 0x80)
      if needed = 1 then unitsOf extended ++ decodeFrom .ready rest
      else decodeFrom (.inside extended (needed - 1) 0x80 0xBF) rest
    else replacement :: ((lead b).1 ++ decodeFrom (lead b).2 rest)

/-- `chunk.toString('utf-8')`: a character that a border cuts comes out as replacements. -/
def toStringUtf8 (chunk : Bytes) : Units := decodeFrom .ready chunk

/-- A euro sign whole, and cut after its first byte. -/
example : toStringUtf8 [0xE2, 0x82, 0xAC] = [0x20AC] ∧
    toStringUtf8 [0xE2] ++ toStringUtf8 [0x82, 0xAC] = [0xFFFD, 0xFFFD, 0xFFFD] := by decide

/-! ## Frames -/

def byteLength (text : String) : ℕ := (bytes text).length

def header (content : String) : String :=
  "Content-Length: " ++ toString (byteLength content) ++ "\r\n\r\n"

/-- What is written for one message. -/
def frame (content : String) : Bytes := bytes (header content) ++ bytes content

/-! ## Reading -/

def asciiUnits (text : String) : Units := text.toList.map fun c => UInt16.ofNat c.toNat

def headerEndMark : Units := asciiUnits "\r\n\r\n"

/-- `text.indexOf(pattern)` -/
def indexOf (pattern : Units) : Units → Option ℕ
  | [] => if pattern = [] then some 0 else none
  | u :: rest =>
    if pattern.isPrefixOf (u :: rest) then some 0 else (indexOf pattern rest).map (· + 1)

def toLower (u : UInt16) : UInt16 := if 65 ≤ u ∧ u ≤ 90 then u + 32 else u

/-- What follows a key, in any letter case. -/
def afterKey : Units → Units → Option Units
  | [], rest => some rest
  | k :: ks, u :: rest => if toLower k = toLower u then afterKey ks rest else none
  | _ :: _, [] => none

def isSpace (u : UInt16) : Bool := JsString.isSpace (Char.ofNat u.toNat)

def isDigit (u : UInt16) : Bool := decide (48 ≤ u ∧ u ≤ 57)

def parseInt (digits : Units) : ℕ := digits.foldl (fun n u => 10 * n + (u.toNat - 48)) 0

/-- `\s*(\d+)` at the front. -/
def digitsAfterSpace (text : Units) : Option ℕ :=
  let digits := (text.dropWhile isSpace).takeWhile isDigit
  if digits = [] then none else some (parseInt digits)

def contentLengthKey : Units := asciiUnits "Content-Length:"

/-- `/Content-Length:\s*(\d+)/i.exec(headerPart)?.[1]` as a number: the first match anywhere. -/
def contentLengthMatch : Units → Option ℕ
  | [] => none
  | u :: rest =>
    match (afterKey contentLengthKey (u :: rest)).bind digitsAfterSpace with
    | some n => some n
    | none => contentLengthMatch rest

/-- One round of the loop of `handleData`; none where it breaks. -/
def next (buffer : Units) : Option (Option Units × Units) :=
  match indexOf headerEndMark buffer with
  | none => none
  | some headerEnd =>
    let headerPart := buffer.take headerEnd
    let bodyStart := headerEnd + 4
    match contentLengthMatch headerPart with
    | none => some (none, buffer.drop bodyStart)
    | some contentLength =>
      if buffer.length < bodyStart + contentLength then none
      else
        some (some ((buffer.drop bodyStart).take contentLength),
          buffer.drop (bodyStart + contentLength))

/-- The bodies handed to `handleMessage` so far, and the buffer. -/
abbrev State := List Units × Units

def handleData (s : State) (data : Units) : State := feed next s data

/-- `stdout.on('data', ...)` for the chunks of a stream. -/
def onData (chunks : List Bytes) : State :=
  (chunks.map toStringUtf8).foldl handleData ([], [])

/-! ## The loop reads steadily -/

theorem indexOf_append {pattern text : Units} {i : ℕ} (h : indexOf pattern text = some i)
    (d : Units) : indexOf pattern (text ++ d) = some i ∧ i + pattern.length ≤ text.length := by
  induction text generalizing i with
  | nil =>
    simp only [indexOf] at h
    split_ifs at h with hnil
    obtain rfl : 0 = i := by simpa using h
    subst hnil
    cases d <;> simp [indexOf]
  | cons u text ih =>
    simp only [indexOf] at h
    rw [List.cons_append, indexOf]
    split_ifs at h with hpre
    · obtain rfl : 0 = i := by simpa using h
      have hpfx := List.isPrefixOf_iff_prefix.mp hpre
      rw [if_pos]
      · exact ⟨rfl, by simpa using hpfx.length_le⟩
      · exact List.isPrefixOf_iff_prefix.mpr (hpfx.trans (List.prefix_append (u :: text) d))
    · obtain ⟨j, hj, rfl⟩ := Option.map_eq_some_iff.mp h
      obtain ⟨hindex, hlen⟩ := ih hj
      rw [if_neg, hindex]
      · exact ⟨rfl, by simp only [List.length_cons]; omega⟩
      · intro hlong
        refine hpre (List.isPrefixOf_iff_prefix.mpr ?_)
        exact List.prefix_of_prefix_length_le (List.isPrefixOf_iff_prefix.mp hlong)
          (List.prefix_append (u :: text) d) (by simp only [List.length_cons]; omega)

theorem next_steady : Steady next := by
  have hmark : headerEndMark.length = 4 := by decide
  constructor
  · intro b o rest h
    unfold next at h
    cases hindex : indexOf headerEndMark b with
    | none => simp [hindex] at h
    | some headerEnd =>
      obtain ⟨-, hlen⟩ := indexOf_append hindex []
      rw [hmark] at hlen
      simp only [hindex] at h
      cases hmatch : contentLengthMatch (b.take headerEnd) with
      | none =>
        rw [hmatch] at h
        obtain ⟨-, rfl⟩ := Prod.mk.inj (Option.some.inj h)
        simp only [List.length_drop]
        omega
      | some contentLength =>
        simp only [hmatch] at h
        split_ifs at h with hshort
        obtain ⟨-, rfl⟩ := Prod.mk.inj (Option.some.inj h)
        simp only [List.length_drop]
        omega
  · intro b o rest d h
    unfold next at h ⊢
    cases hindex : indexOf headerEndMark b with
    | none => simp [hindex] at h
    | some headerEnd =>
      obtain ⟨hindex', hlen⟩ := indexOf_append hindex d
      rw [hmark] at hlen
      simp only [hindex, hindex'] at h ⊢
      rw [List.take_append_of_le_length (by omega)]
      cases hmatch : contentLengthMatch (b.take headerEnd) with
      | none =>
        rw [hmatch] at h
        obtain ⟨rfl, rfl⟩ := Prod.mk.inj (Option.some.inj h)
        rw [List.drop_append_of_le_length (by omega)]
      | some contentLength =>
        simp only [hmatch] at h ⊢
        split_ifs at h with hshort
        obtain ⟨rfl, rfl⟩ := Prod.mk.inj (Option.some.inj h)
        have henough : ¬ (b ++ d).length < headerEnd + 4 + contentLength := by
          rw [List.length_append]
          omega
        rw [if_neg henough, List.drop_append_of_le_length (by omega),
          List.drop_append_of_le_length (by omega),
          List.take_append_of_le_length (by rw [List.length_drop]; omega)]

end LspClient
end Batiste
