import Batiste.LspClient

/-! What `handleData` delivers of a stream of frames, however it is cut.
A frame announces its length in bytes, and the buffer is counted in code units. -/
namespace Batiste
namespace LspClient

open ChunkReader

/-! ## Lengths -/

theorem utf8EncodeChar_ascii {c : Char} (h : c.toNat < 128) :
    String.utf8EncodeChar c = [UInt8.ofNat c.toNat] := by
  have hv : c.val.toNat ≤ 0x7f := by
    have : c.val.toNat = c.toNat := rfl
    omega
  simp only [String.utf8EncodeChar, if_pos hv]
  rfl

theorem unitsOf_ascii {n : ℕ} (h : n < 128) : unitsOf n = [UInt16.ofNat n] :=
  if_pos (by omega)

/-- A character has as many code units as bytes if it is ASCII, and fewer if not. -/
theorem units_lt_bytes {c : Char} (h : 128 ≤ c.toNat) :
    (unitsOf c.toNat).length < (String.utf8EncodeChar c).length := by
  have hv : c.val.toNat = c.toNat := rfl
  simp only [unitsOf, String.utf8EncodeChar, hv]
  split_ifs <;> first | omega | simp

theorem units_le_bytes (c : Char) :
    (unitsOf c.toNat).length ≤ (String.utf8EncodeChar c).length := by
  by_cases h : c.toNat < 128
  · rw [utf8EncodeChar_ascii h, unitsOf_ascii h]
    rfl
  · exact (units_lt_bytes (by omega)).le

def Ascii (text : String) : Prop := ∀ c ∈ text.toList, c.toNat < 128

instance (text : String) : Decidable (Ascii text) :=
  inferInstanceAs (Decidable (∀ c ∈ text.toList, c.toNat < 128))

theorem units_ascii {text : String} (h : Ascii text) : units text = asciiUnits text := by
  unfold units asciiUnits Ascii at *
  generalize text.toList = cs at h ⊢
  induction cs with
  | nil => rfl
  | cons c cs ih =>
    rw [List.flatMap_cons, unitsOf_ascii (h c List.mem_cons_self),
      ih fun d hd => h d (List.mem_cons_of_mem c hd)]
    rfl

theorem bytes_ascii {text : String} (h : Ascii text) :
    bytes text = text.toList.map fun c => UInt8.ofNat c.toNat := by
  unfold bytes Ascii at *
  generalize text.toList = cs at h ⊢
  induction cs with
  | nil => rfl
  | cons c cs ih =>
    rw [List.flatMap_cons, utf8EncodeChar_ascii (h c List.mem_cons_self),
      ih fun d hd => h d (List.mem_cons_of_mem c hd)]
    rfl

theorem length_units_of_ascii {text : String} (h : Ascii text) :
    (units text).length = byteLength text := by
  rw [units_ascii h, byteLength, bytes_ascii h]
  simp [asciiUnits]

theorem length_units_lt {text : String} (h : ¬ Ascii text) :
    (units text).length < byteLength text := by
  simp only [Ascii, not_forall] at h
  obtain ⟨c, hc, hlarge⟩ := h
  obtain ⟨before, after, hsplit⟩ := List.append_of_mem hc
  have hle : ∀ cs : List Char, (cs.flatMap fun d => unitsOf d.toNat).length ≤
      (cs.flatMap String.utf8EncodeChar).length := by
    intro cs
    induction cs with
    | nil => rfl
    | cons d ds ih =>
      have := units_le_bytes d
      simp only [List.flatMap_cons, List.length_append]
      omega
  have hlt := units_lt_bytes (c := c) (by omega)
  have hbefore := hle before
  have hafter := hle after
  simp only [units, byteLength, bytes, hsplit, List.flatMap_append, List.flatMap_cons,
    List.length_append]
  omega

/-! ## Decoding -/

theorem decodeFrom_lead (b : UInt8) (rest : Bytes) :
    decodeFrom .ready (b :: rest) = (lead b).1 ++ decodeFrom (lead b).2 rest := rfl

/-- A byte in the range is taken into the code point. -/
theorem decodeFrom_next {codePoint needed lower upper : ℕ} (hneeded : needed ≠ 1) {b : UInt8}
    {x : ℕ} (hb : b.toNat = x + 0x80) (hlower : lower ≤ x + 0x80) (hupper : x + 0x80 ≤ upper)
    (rest : Bytes) :
    decodeFrom (.inside codePoint needed lower upper) (b :: rest) =
      decodeFrom (.inside (codePoint * 0x40 + x) (needed - 1) 0x80 0xBF) rest := by
  rw [decodeFrom, hb, if_pos ⟨hlower, hupper⟩, Nat.add_sub_cancel, if_neg hneeded]

theorem decodeFrom_last {codePoint needed lower upper : ℕ} (hneeded : needed = 1) {b : UInt8}
    {x : ℕ} (hb : b.toNat = x + 0x80) (hlower : lower ≤ x + 0x80) (hupper : x + 0x80 ≤ upper)
    (rest : Bytes) :
    decodeFrom (.inside codePoint needed lower upper) (b :: rest) =
      unitsOf (codePoint * 0x40 + x) ++ decodeFrom .ready rest := by
  rw [decodeFrom, hb, if_pos ⟨hlower, hupper⟩, Nat.add_sub_cancel, if_pos hneeded]

theorem toNat_byte {n : ℕ} (h : n < 256) : (UInt8.ofNat n).toNat = n := by
  rw [UInt8.toNat_ofNat', Nat.mod_eq_of_lt h]

section Leads

variable {v : ℕ}

theorem lead_two (h : 0x80 ≤ v) (h' : v < 0x800) :
    lead (UInt8.ofNat (v / 64 % 0x20 + 0xc0)) = ([], .inside (v / 64) 1 0x80 0xBF) := by
  rw [lead, toNat_byte (by omega), Nat.mod_eq_of_lt (by omega : v / 64 < 0x20)]
  rw [if_neg (by omega), if_neg (by omega), if_pos (by omega), Nat.add_sub_cancel]

theorem lead_three (h' : v < 0x10000) :
    lead (UInt8.ofNat (v / 4096 % 0x10 + 0xe0)) = ([], .inside (v / 4096) 2
      (if v / 4096 = 0 then 0xA0 else 0x80) (if v / 4096 = 0xD then 0x9F else 0xBF)) := by
  rw [lead, toNat_byte (by omega), Nat.mod_eq_of_lt (by omega : v / 4096 < 0x10)]
  rw [if_neg (by omega), if_neg (by omega), if_neg (by omega), if_pos (by omega),
    Nat.add_sub_cancel]
  have hleast : v / 4096 + 0xe0 = 0xE0 ↔ v / 4096 = 0 := by omega
  have hsurrogate : v / 4096 + 0xe0 = 0xED ↔ v / 4096 = 0xD := by omega
  simp only [hleast, hsurrogate]

theorem lead_four (h' : v < 0x110000) :
    lead (UInt8.ofNat (v / 262144 % 0x08 + 0xf0)) = ([], .inside (v / 262144) 3
      (if v / 262144 = 0 then 0x90 else 0x80) (if v / 262144 = 4 then 0x8F else 0xBF)) := by
  rw [lead, toNat_byte (by omega), Nat.mod_eq_of_lt (by omega : v / 262144 < 0x08)]
  rw [if_neg (by omega), if_neg (by omega), if_neg (by omega), if_neg (by omega),
    if_pos (by omega), Nat.add_sub_cancel]
  have hleast : v / 262144 + 0xf0 = 0xF0 ↔ v / 262144 = 0 := by omega
  have hgreatest : v / 262144 + 0xf0 = 0xF4 ↔ v / 262144 = 4 := by omega
  simp only [hleast, hgreatest]

end Leads

/-- A character that is not cut is decoded to its code units. -/
theorem decodeFrom_char (c : Char) (rest : Bytes) :
    decodeFrom .ready (String.utf8EncodeChar c ++ rest) =
      unitsOf c.toNat ++ decodeFrom .ready rest := by
  have hvalid : c.toNat < 0xD800 ∨ 0xDFFF < c.toNat ∧ c.toNat < 0x110000 := c.valid
  have hv : c.val.toNat = c.toNat := rfl
  simp only [String.utf8EncodeChar, hv]
  generalize c.toNat = v at hvalid
  have h0 : (UInt8.ofNat (v % 0x40 + 0x80)).toNat = v % 0x40 + 0x80 := toNat_byte (by omega)
  have h6 : (UInt8.ofNat (v / 64 % 0x40 + 0x80)).toNat = v / 64 % 0x40 + 0x80 :=
    toNat_byte (by omega)
  have h12 : (UInt8.ofNat (v / 4096 % 0x40 + 0x80)).toNat = v / 4096 % 0x40 + 0x80 :=
    toNat_byte (by omega)
  by_cases h₁ : v ≤ 0x7f
  · rw [if_pos h₁, List.singleton_append, decodeFrom_lead, lead, toNat_byte (by omega),
      if_pos (by omega), unitsOf_ascii (by omega)]
  rw [if_neg h₁]
  by_cases h₂ : v ≤ 0x7ff
  · have hvalue : v / 64 * 0x40 + v % 0x40 = v := by omega
    rw [if_pos h₂, List.cons_append, List.singleton_append, decodeFrom_lead,
      lead_two (by omega) (by omega), decodeFrom_last rfl h0 (by omega) (by omega), hvalue,
      List.nil_append]
  rw [if_neg h₂]
  by_cases h₃ : v ≤ 0xffff
  · have hlower : (if v / 4096 = 0 then 0xA0 else 0x80) ≤ v / 64 % 0x40 + 0x80 := by
      split_ifs <;> omega
    have hupper : v / 64 % 0x40 + 0x80 ≤ if v / 4096 = 0xD then 0x9F else 0xBF := by
      split_ifs <;> omega
    have hvalue : (v / 4096 * 0x40 + v / 64 % 0x40) * 0x40 + v % 0x40 = v := by omega
    rw [if_pos h₃, List.cons_append, List.cons_append, List.singleton_append, decodeFrom_lead,
      lead_three (by omega), decodeFrom_next (by decide) h6 hlower hupper,
      decodeFrom_last rfl h0 (by omega) (by omega), hvalue, List.nil_append]
  · have hlower : (if v / 262144 = 0 then 0x90 else 0x80) ≤ v / 4096 % 0x40 + 0x80 := by
      split_ifs <;> omega
    have hupper : v / 4096 % 0x40 + 0x80 ≤ if v / 262144 = 4 then 0x8F else 0xBF := by
      split_ifs <;> omega
    have hvalue : ((v / 262144 * 0x40 + v / 4096 % 0x40) * 0x40 + v / 64 % 0x40) * 0x40 +
        v % 0x40 = v := by omega
    rw [if_neg h₃, List.cons_append, List.cons_append, List.cons_append, List.singleton_append,
      decodeFrom_lead, lead_four (by omega), decodeFrom_next (by decide) h12 hlower hupper,
      decodeFrom_next (by decide) h6 (by omega) (by omega),
      decodeFrom_last rfl h0 (by omega) (by omega), hvalue, List.nil_append]

theorem toStringUtf8_bytes (text : String) : toStringUtf8 (bytes text) = units text := by
  unfold toStringUtf8 bytes units
  induction text.toList with
  | nil => rfl
  | cons c cs ih => rw [List.flatMap_cons, decodeFrom_char, ih, List.flatMap_cons]

def widen (b : UInt8) : UInt16 := UInt16.ofNat b.toNat

theorem toStringUtf8_ascii {front : Bytes} (h : ∀ b ∈ front, b < 128) (rest : Bytes) :
    toStringUtf8 (front ++ rest) = front.map widen ++ toStringUtf8 rest := by
  unfold toStringUtf8
  induction front with
  | nil => rfl
  | cons b front ih =>
    have hb : b.toNat < 0x80 := by simpa using UInt8.lt_iff_toNat_lt.mp (h b List.mem_cons_self)
    rw [List.cons_append, decodeFrom, lead, if_pos hb,
      ih fun d hd => h d (List.mem_cons_of_mem b hd)]
    rfl

/-- However a stream is cut, an ASCII front of it is decoded byte by byte. -/
theorem decode_front {chunks : List Bytes} {front rest : Bytes} (h : ∀ b ∈ front, b < 128)
    (hstream : chunks.flatten = front ++ rest) :
    ∃ more : List Bytes, more.flatten = rest ∧
      (chunks.map toStringUtf8).flatten = front.map widen ++ (more.map toStringUtf8).flatten := by
  induction chunks generalizing front with
  | nil =>
    obtain ⟨rfl, rfl⟩ := List.append_eq_nil_iff.mp hstream.symm
    exact ⟨[], rfl, rfl⟩
  | cons chunk chunks ih =>
    rw [List.flatten_cons] at hstream
    rw [List.map_cons, List.flatten_cons]
    rcases List.append_eq_append_iff.mp hstream with ⟨next, hfront, hnext⟩ | ⟨tail, hchunk, htail⟩
    · have hascii : ∀ b ∈ chunk, b < 128 := fun b hb => h b (by simp [hfront, hb])
      obtain ⟨more, hmore, hd⟩ := ih (fun b hb => h b (by simp [hfront, hb])) hnext
      have hwhole := toStringUtf8_ascii hascii []
      rw [List.append_nil] at hwhole
      refine ⟨more, hmore, ?_⟩
      rw [hwhole, hd, hfront]
      simp [toStringUtf8, decodeFrom]
    · refine ⟨tail :: chunks, htail.symm, ?_⟩
      rw [hchunk, toStringUtf8_ascii h, List.append_assoc]
      rfl

/-! ## Headers -/

theorem asciiUnits_append (a b : String) : asciiUnits (a ++ b) = asciiUnits a ++ asciiUnits b := by
  simp [asciiUnits]

def digitUnits (n : ℕ) : Units := asciiUnits (toString n)

/-- The code units of a header that announces this length. -/
def headerUnits (n : ℕ) : Units := asciiUnits "Content-Length: " ++ digitUnits n ++ headerEndMark

theorem digit_char {n : ℕ} {c : Char} (hc : c ∈ (toString n).toList) :
    48 ≤ c.toNat ∧ c.toNat ≤ 57 := by
  rw [Nat.toString_eq_ofList_toDigits, String.toList_ofList] at hc
  simpa using Char.isDigit_iff_toNat.mp (Nat.isDigit_of_mem_toDigits (by decide) (by decide) hc)

theorem digitUnits_digit {n : ℕ} {u : UInt16} (hu : u ∈ digitUnits n) :
    48 ≤ u.toNat ∧ u.toNat ≤ 57 := by
  obtain ⟨c, hc, rfl⟩ := List.mem_map.mp hu
  have hdigit := digit_char hc
  rw [UInt16.toNat_ofNat', Nat.mod_eq_of_lt (by omega)]
  exact hdigit

theorem digitUnits_ne_nil (n : ℕ) : digitUnits n ≠ [] := by
  simp [digitUnits, asciiUnits, Nat.toDigits_ne_nil]

theorem parseInt_digitUnits (n : ℕ) : parseInt (digitUnits n) = n := by
  have hunit : ∀ c ∈ (toString n).toList, (UInt16.ofNat c.toNat).toNat = c.toNat := by
    intro c hc
    have := digit_char hc
    rw [UInt16.toNat_ofNat', Nat.mod_eq_of_lt (by omega)]
  have hfold : ∀ (cs : List Char) (k : ℕ), (∀ c ∈ cs, (UInt16.ofNat c.toNat).toNat = c.toNat) →
      (cs.map fun c => UInt16.ofNat c.toNat).foldl (fun n u => 10 * n + (u.toNat - 48)) k =
        Nat.ofDigitChars 10 cs k := by
    intro cs
    induction cs with
    | nil => intro k _; rfl
    | cons c cs ih =>
      intro k h
      rw [List.map_cons, List.foldl_cons, h c List.mem_cons_self,
        ih _ fun d hd => h d (List.mem_cons_of_mem c hd), Nat.ofDigitChars_cons]
      rfl
  rw [parseInt, digitUnits, asciiUnits, hfold _ 0 hunit, Nat.toString_eq_ofList_toDigits,
    String.toList_ofList]
  exact Nat.ofDigitChars_toDigits (by decide) (by decide)

theorem isDigit_iff (u : UInt16) : isDigit u = true ↔ 48 ≤ u.toNat ∧ u.toNat ≤ 57 := by
  simp only [isDigit, decide_eq_true_eq, UInt16.le_iff_toNat_le]
  rfl

/-- A digit is no white space. -/
theorem isSpace_digit {u : UInt16} (hlower : 48 ≤ u.toNat) (hupper : u.toNat ≤ 57) :
    isSpace u = false := by
  have hvalid : (Char.ofNat u.toNat).toNat = u.toNat := by
    have hn : u.toNat.isValidChar := Or.inl (by omega)
    rw [Char.ofNat, dif_pos hn]
    exact UInt32.toNat_ofNatLT
  simp only [isSpace, JsString.isSpace, hvalid]
  simp
  omega

theorem digitsAfterSpace_digitUnits (n : ℕ) :
    digitsAfterSpace (asciiUnits " " ++ digitUnits n) = some n := by
  have hspace : (asciiUnits " " ++ digitUnits n).dropWhile isSpace = digitUnits n := by
    change (32 :: digitUnits n).dropWhile isSpace = _
    rw [List.dropWhile_cons_of_pos (by decide)]
    cases hdigits : digitUnits n with
    | nil => rfl
    | cons u us =>
      have hu := digitUnits_digit (n := n) (u := u) (by simp [hdigits])
      rw [List.dropWhile_cons_of_neg]
      simp [isSpace_digit hu.1 hu.2]
  have hall : (digitUnits n).takeWhile isDigit = digitUnits n := by
    rw [List.takeWhile_eq_self_iff]
    intro u hu
    exact (isDigit_iff u).mpr (digitUnits_digit hu)
  rw [digitsAfterSpace, hspace, hall, if_neg (digitUnits_ne_nil n), parseInt_digitUnits]

theorem afterKey_self (key rest : Units) : afterKey key (key ++ rest) = some rest := by
  induction key with
  | nil => rfl
  | cons k key ih => rw [List.cons_append, afterKey, if_pos rfl, ih]

/-- A match at the front is the first. -/
theorem contentLengthMatch_front {text : Units} {n : ℕ}
    (h : (afterKey contentLengthKey text).bind digitsAfterSpace = some n) :
    contentLengthMatch text = some n := by
  cases text with
  | nil =>
    cases hkey : contentLengthKey with
    | nil => simp [contentLengthKey, asciiUnits] at hkey
    | cons k ks => simp [hkey, afterKey] at h
  | cons u rest => rw [contentLengthMatch, h]

theorem contentLengthMatch_header (n : ℕ) :
    contentLengthMatch (asciiUnits "Content-Length: " ++ digitUnits n) = some n := by
  have hkey : asciiUnits "Content-Length: " = contentLengthKey ++ asciiUnits " " :=
    asciiUnits_append "Content-Length:" " "
  apply contentLengthMatch_front
  rw [hkey, List.append_assoc, afterKey_self, Option.bind_some, digitsAfterSpace_digitUnits]

/-- The mark is found where it begins, when none of its first unit stands before it. -/
theorem indexOf_first {p : UInt16} {ps front : Units} (h : p ∉ front) (rest : Units) :
    indexOf (p :: ps) (front ++ (p :: ps ++ rest)) = some front.length := by
  induction front with
  | nil =>
    rw [List.nil_append, List.cons_append, indexOf, if_pos]
    · rfl
    · exact List.isPrefixOf_iff_prefix.mpr ⟨rest, rfl⟩
  | cons u front ih =>
    rw [List.cons_append, indexOf, if_neg, ih fun hp => h (List.mem_cons_of_mem u hp)]
    · rfl
    · intro hpre
      obtain ⟨tail, htail⟩ := List.isPrefixOf_iff_prefix.mp hpre
      rw [List.cons_append] at htail
      exact h (by simp [(List.cons.inj htail).1])

theorem next_of {buffer : Units} {headerEnd n : ℕ}
    (hindex : indexOf headerEndMark buffer = some headerEnd)
    (hlength : contentLengthMatch (buffer.take headerEnd) = some n) :
    next buffer = if buffer.length < headerEnd + 4 + n then none
      else some (some ((buffer.drop (headerEnd + 4)).take n), buffer.drop (headerEnd + 4 + n)) := by
  simp only [next, hindex, hlength]

/-- After a header, the loop takes as many code units as it announces, once they are there. -/
theorem next_header (n : ℕ) (rest : Units) :
    next (headerUnits n ++ rest) =
      if rest.length < n then none else some (some (rest.take n), rest.drop n) := by
  have hmatch := contentLengthMatch_header n
  have hplain : (13 : UInt16) ∉ asciiUnits "Content-Length: " ++ digitUnits n := by
    intro hmem
    rcases List.mem_append.mp hmem with hkey | hdigit
    · exact absurd hkey (by decide +kernel)
    · have := (digitUnits_digit hdigit).1
      simp at this
  rw [headerUnits]
  generalize asciiUnits "Content-Length: " ++ digitUnits n = front at hmatch hplain
  have hlen : (front ++ headerEndMark).length = front.length + 4 := by
    rw [List.length_append]
    rfl
  have hindex : indexOf headerEndMark (front ++ headerEndMark ++ rest) = some front.length := by
    rw [List.append_assoc]
    exact indexOf_first hplain rest
  have hpart : (front ++ headerEndMark ++ rest).take front.length = front := by
    rw [List.append_assoc, List.take_left']
    rfl
  have hrest : (front ++ headerEndMark ++ rest).drop (front.length + 4) = rest :=
    List.drop_left' hlen
  have hafter : (front ++ headerEndMark ++ rest).drop (front.length + 4 + n) = rest.drop n := by
    rw [← List.drop_drop, hrest]
  rw [next_of hindex (hpart.symm ▸ hmatch), hrest, hafter, List.length_append, hlen]
  simp only [Nat.add_lt_add_iff_left]

/-! ## Streams -/

theorem widen_bytes {text : String} (h : Ascii text) : (bytes text).map widen = asciiUnits text := by
  rw [bytes_ascii h, List.map_map]
  refine List.map_congr_left fun c hc => ?_
  have := h c hc
  rw [Function.comp_apply, widen, toNat_byte (by omega)]

theorem bytes_lt {text : String} (h : Ascii text) : ∀ b ∈ bytes text, b < 128 := by
  intro b hb
  rw [bytes_ascii h] at hb
  obtain ⟨c, hc, rfl⟩ := List.mem_map.mp hb
  have := h c hc
  rw [UInt8.lt_iff_toNat_lt, toNat_byte (by omega)]
  exact this

theorem header_ascii (content : String) : Ascii (header content) := by
  intro c hc
  unfold header at hc
  rw [String.toList_append, String.toList_append, List.mem_append, List.mem_append] at hc
  rcases hc with (hkey | hdigit) | hmark
  · exact (by simp [Ascii] : Ascii "Content-Length: ") c hkey
  · have := digit_char hdigit
    omega
  · exact (by simp [Ascii] : Ascii "\r\n\r\n") c hmark

theorem header_units (content : String) :
    asciiUnits (header content) = headerUnits (byteLength content) := by
  unfold header
  rw [asciiUnits_append, asciiUnits_append]
  rfl

/-- A frame in code units. -/
def encode (body : Units) : Units := headerUnits body.length ++ body

theorem next_encode (body d : Units) : next (encode body ++ d) = some (some body, d) := by
  rw [encode, List.append_assoc, next_header, if_neg (by simp), List.take_left', List.drop_left'] <;>
    rfl

theorem frame_ascii {content : String} (h : Ascii content) :
    (∀ b ∈ frame content, b < 128) ∧ (frame content).map widen = encode (units content) := by
  constructor
  · intro b hb
    rcases List.mem_append.mp hb with hhead | hbody
    · exact bytes_lt (header_ascii content) b hhead
    · exact bytes_lt h b hbody
  · rw [frame, List.map_append, widen_bytes (header_ascii content), widen_bytes h, header_units,
      encode, length_units_of_ascii h, units_ascii h]

theorem frames_ascii {messages : List String} (h : ∀ m ∈ messages, Ascii m) :
    (∀ b ∈ messages.flatMap frame, b < 128) ∧
      (messages.flatMap frame).map widen = (messages.map units).flatMap encode := by
  constructor
  · intro b hb
    obtain ⟨m, hm, hmem⟩ := List.mem_flatMap.mp hb
    exact (frame_ascii (h m hm)).1 b hmem
  · rw [List.map_flatMap, List.flatMap_map]
    exact List.flatMap_congr fun m hm => (frame_ascii (h m hm)).2

/-- What has been delivered is what the loop reads off the decoded stream in one go. -/
theorem onData_eq (chunks : List Bytes) :
    (onData chunks).1 = (drain next (chunks.map toStringUtf8).flatten).1 := by
  have hfeed := feed_chunks next_steady (chunks.map toStringUtf8) [] (b := []) rfl
  rw [List.nil_append, List.nil_append] at hfeed
  exact congrArg Prod.fst hfeed

/-- The first message that is not ASCII, if any. -/
theorem exists_first {messages : List String} (h : ¬ ∀ m ∈ messages, Ascii m) :
    ∃ before m after, messages = before ++ m :: after ∧ (∀ k ∈ before, Ascii k) ∧ ¬ Ascii m := by
  induction messages with
  | nil => simp at h
  | cons k messages ih =>
    by_cases hk : Ascii k
    · have hrest : ¬ ∀ m ∈ messages, Ascii m := by
        intro hall
        exact h (by simpa [hk] using hall)
      obtain ⟨before, m, after, rfl, hbefore, hm⟩ := ih hrest
      refine ⟨k :: before, m, after, rfl, ?_, hm⟩
      simpa [hk] using hbefore
    · exact ⟨[], k, messages, rfl, by simp, hk⟩

/-- However the stream of some messages is cut, the client delivers just those messages exactly
when they are all ASCII. -/
theorem delivers_iff (messages : List String) (chunks : List Bytes)
    (hstream : chunks.flatten = messages.flatMap frame) :
    (onData chunks).1 = messages.map units ↔ ∀ m ∈ messages, Ascii m := by
  rw [onData_eq]
  constructor
  · intro hdelivered
    by_contra hsome
    obtain ⟨before, m, after, rfl, hbefore, hm⟩ := exists_first hsome
    have hascii : ∀ b ∈ before.flatMap frame ++ bytes (header m), b < 128 := by
      intro b hb
      rcases List.mem_append.mp hb with hold | hhead
      · exact (frames_ascii hbefore).1 b hold
      · exact bytes_lt (header_ascii m) b hhead
    have hsplit : chunks.flatten = (before.flatMap frame ++ bytes (header m)) ++
        (bytes m ++ after.flatMap frame) := by
      rw [hstream]
      simp [frame]
    obtain ⟨more, -, hdecoded⟩ := decode_front hascii hsplit
    rw [hdecoded, List.map_append, (frames_ascii hbefore).2, widen_bytes (header_ascii m),
      header_units, List.append_assoc,
      drain_encoded next_steady _ fun body _ d => next_encode body d, List.map_append] at hdelivered
    have hrest := List.append_cancel_left hdelivered
    -- the body of `m` is cut off at its length in bytes, or never complete
    have hnext := next_header (byteLength m) (more.map toStringUtf8).flatten
    split_ifs at hnext with hshort
    · rw [drain_wait hnext] at hrest
      simp at hrest
    · rw [drain_piece next_steady hnext] at hrest
      have hbody : ((more.map toStringUtf8).flatten.take (byteLength m)) = units m :=
        (List.cons.inj hrest).1
      have hlen := congrArg List.length hbody
      have hlt := length_units_lt hm
      rw [List.length_take] at hlen
      omega
  · intro hall
    obtain ⟨more, hmore, hdecoded⟩ := decode_front (frames_ascii hall).1
      (hstream.trans (List.append_nil _).symm)
    have hnil : (more.map toStringUtf8).flatten = [] := by
      rw [List.flatten_eq_nil_iff] at hmore ⊢
      intro text htext
      obtain ⟨chunk, hchunk, rfl⟩ := List.mem_map.mp htext
      rw [hmore chunk hchunk]
      rfl
    rw [hdecoded, hnil, (frames_ascii hall).2,
      drain_encoded next_steady _ fun body _ d => next_encode body d, drain_wait rfl,
      List.append_nil]

/-- A notification in two chunks, cut inside the header. -/
theorem delivers_in_two_chunks :
    (onData [(frame "\x7b\x7d").take 5, (frame "\x7b\x7d").drop 5]).1 = [units "\x7b\x7d"] :=
  (delivers_iff ["\x7b\x7d"] _ (by simp)).mpr (by simp [Ascii])

/-- A message with an accented letter has one code unit less than its header announces bytes;
the client waits for more. -/
theorem accent_not_delivered :
    ¬ (onData [frame "\"é\""]).1 = ["\"é\""].map units := by
  have hnothing : (onData [frame "\"é\""]).1 = [] := rfl
  rw [hnothing]
  simp

end LspClient
end Batiste
