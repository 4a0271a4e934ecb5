import Mathlib.Data.String.Basic
import Mathlib.Tactic

/-! Byte strings: numbers of a fixed width, least significant byte first, and texts in UTF-8. -/
namespace Batiste
namespace ByteCodec

abbrev Bytes := List UInt8

/-- The `width` bytes of a number. -/
def le : ℕ → ℕ → Bytes
  | 0, _ => []
  | width + 1, n => UInt8.ofNat (n % 256) :: le width (n / 256)

def number : Bytes → ℕ
  | [] => 0
  | b :: bs => b.toNat + 256 * number bs

@[simp] theorem length_le (width n : ℕ) : (le width n).length = width := by
  induction width generalizing n with
  | zero => rfl
  | succ width ih => rw [le, List.length_cons, ih]

theorem number_le {width n : ℕ} (h : n < 256 ^ width) : number (le width n) = n := by
  induction width generalizing n with
  | zero =>
    rw [pow_zero, Nat.lt_one_iff] at h
    rw [le, number, h]
  | succ width ih =>
    have hrest : n / 256 < 256 ^ width := by
      rw [pow_succ] at h
      omega
    rw [le, number, ih hrest, UInt8.toNat_ofNat', Nat.mod_eq_of_lt (Nat.mod_lt n (by decide))]
    exact Nat.mod_add_div n 256

/-! ## Texts -/

def utf8 (s : String) : Bytes := s.toList.flatMap String.utf8EncodeChar

/-- The text of a byte string, if it is one. -/
def text? (bs : Bytes) : Option String := String.fromUTF8? bs.toByteArray

theorem toByteArray_utf8 (s : String) : (utf8 s).toByteArray = s.toByteArray := by
  conv_rhs => rw [← String.utf8Encode_toList]
  rfl

@[simp] theorem text?_utf8 (s : String) : text? (utf8 s) = some s := by
  rw [text?, toByteArray_utf8, String.fromUTF8?, dif_pos s.isValidUTF8]
  rfl

theorem utf8_injective : Function.Injective utf8 := by
  intro s t h
  have hsame := congrArg text? h
  rw [text?_utf8, text?_utf8] at hsame
  exact Option.some.inj hsame

theorem mem_utf8 {s : String} {c : Char} {b : UInt8} (hc : c ∈ s.toList)
    (hb : b ∈ String.utf8EncodeChar c) : b ∈ utf8 s := List.mem_flatMap.mpr ⟨c, hc, hb⟩

end ByteCodec
end Batiste
