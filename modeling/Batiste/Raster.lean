import Mathlib.Data.Vector.Basic
import Mathlib.Algebra.Order.Ring.Int
import Mathlib.Tactic.Linarith

/-! Grids of bits in row order that are only written with ones, and lists that are filled by
index. -/
namespace Batiste

/-- The integers from one to another. -/
def upTo (a b : ℤ) : List ℤ := (List.range (b + 1 - a).toNat).map fun k : ℕ => a + k

@[simp] theorem mem_upTo {a b x : ℤ} : x ∈ upTo a b ↔ a ≤ x ∧ x ≤ b := by
  constructor
  · intro hx
    obtain ⟨k, hk, rfl⟩ := List.mem_map.mp hx
    have hlt := List.mem_range.mp hk
    omega
  · rintro ⟨ha, hb⟩
    exact List.mem_map.mpr ⟨(x - a).toNat, List.mem_range.mpr (by omega), by omega⟩

theorem nodup_upTo (a b : ℤ) : (upTo a b).Nodup :=
  List.nodup_range.map fun _ _ h => Int.ofNat_inj.mp (Int.add_left_cancel h)

abbrev BitGrid (W H : ℕ) := Vector Bool (W * H)

namespace BitGrid

variable {W H : ℕ}

def blank : BitGrid W H := Vector.replicate (W * H) false

/-- A place outside the array reads as unset. -/
def bit (m : BitGrid W H) (k : ℕ) : Bool := m[k]?.getD false

/-- Sets the bits of a list of places; a place outside the array is ignored. -/
def paint (m : BitGrid W H) (ks : List ℕ) : BitGrid W H :=
  ks.foldl (fun m k => m.setIfInBounds k true) m

def pixel (m : BitGrid W H) (r c : ℕ) : Bool := m.bit (r * W + c)

@[simp] theorem bit_blank (k : ℕ) : (blank : BitGrid W H).bit k = false := by
  unfold bit blank
  by_cases hk : k < W * H
  · simp [hk]
  · simp [hk]

theorem lt_of_bit {m : BitGrid W H} {k : ℕ} (h : m.bit k = true) : k < W * H := by
  by_contra hk
  simp [bit, Vector.getElem?_eq_none (Nat.le_of_not_lt hk)] at h

theorem bit_paint (m : BitGrid W H) (ks : List ℕ) (k : ℕ) :
    (m.paint ks).bit k = true ↔ m.bit k = true ∨ k ∈ ks ∧ k < W * H := by
  induction ks generalizing m with
  | nil => simp [paint]
  | cons k' ks ih =>
    have hset : bit (m.setIfInBounds k' true) k = true ↔
        m.bit k = true ∨ k = k' ∧ k < W * H := by
      unfold bit
      rw [Vector.getElem?_setIfInBounds]
      by_cases hk : k' = k
      · subst hk
        by_cases hlt : k' < W * H <;> simp [hlt]
      · simp [hk, Ne.symm hk]
    rw [paint, List.foldl_cons, ← paint, ih, hset, List.mem_cons, or_and_right, or_assoc]

theorem bit_paint_blank (ks : List ℕ) (k : ℕ) :
    ((blank : BitGrid W H).paint ks).bit k = true ↔ k ∈ ks ∧ k < W * H := by
  rw [bit_paint, bit_blank, Bool.false_eq_true, false_or]

/-! ## Rows and columns -/

theorem place_lt {r c : ℕ} (hr : r < H) (hc : c < W) : r * W + c < W * H := by
  have hrow : (r + 1) * W ≤ H * W := Nat.mul_le_mul_right W hr
  rw [Nat.add_mul, Nat.one_mul] at hrow
  rw [Nat.mul_comm W H]
  omega

theorem place_inj {r r' c c' : ℕ} (hc : c < W) (hc' : c' < W) :
    r * W + c = r' * W + c' ↔ r = r' ∧ c = c' := by
  constructor
  · intro h
    have hW : 0 < W := Nat.lt_of_le_of_lt (Nat.zero_le c) hc
    have hdiv := congrArg (· / W) h
    simp only [Nat.mul_comm _ W, Nat.mul_add_div hW, Nat.div_eq_of_lt hc, Nat.div_eq_of_lt hc',
      Nat.add_zero] at hdiv
    subst hdiv
    exact ⟨rfl, Nat.add_left_cancel h⟩
  · rintro ⟨rfl, rfl⟩
    rfl

theorem place_div_mod (k : ℕ) : k / W * W + k % W = k := by
  rw [Nat.mul_comm]
  exact Nat.div_add_mod k W

theorem div_lt_of_place {k : ℕ} (hk : k < W * H) : k / W < H := Nat.div_lt_of_lt_mul hk

theorem mod_lt_of_place {k : ℕ} (hk : k < W * H) : k % W < W :=
  Nat.mod_lt _ (Nat.pos_of_ne_zero fun h => by simp [h] at hk)

theorem ext_pixels {m m' : BitGrid W H}
    (h : ∀ r < H, ∀ c < W, (m.pixel r c = true ↔ m'.pixel r c = true)) : m = m' := by
  apply Vector.ext
  intro k hk
  have hpixel := h _ (div_lt_of_place hk) _ (mod_lt_of_place hk)
  simp only [pixel, place_div_mod] at hpixel
  have hbit : m.bit k = m'.bit k := Bool.eq_iff_iff.mpr hpixel
  simpa [bit, hk] using hbit

end BitGrid

/-! ## Lists filled by index -/

section Scatter

variable {α β : Type*}

/-- `lists[i].push(value)` for each index of each item, in the order of the items. -/
def scatter (n : ℕ) (slots : α → List ℕ) (value : α → ℕ → β) (items : List α) : List (List β) :=
  items.foldl (fun lists a => (slots a).foldl (fun lists i => lists.modify i (· ++ [value a i])) lists)
    (List.replicate n [])

theorem push_getElem? (value : ℕ → β) {is : List ℕ} (his : is.Nodup) (lists : List (List β))
    (i : ℕ) : (is.foldl (fun lists i => lists.modify i (· ++ [value i])) lists)[i]? =
      lists[i]?.map fun l => if i ∈ is then l ++ [value i] else l := by
  induction is generalizing lists with
  | nil => simp
  | cons i' is ih =>
    obtain ⟨hfresh, his⟩ := List.nodup_cons.mp his
    rw [List.foldl_cons, ih his, List.getElem?_modify]
    by_cases heq : i' = i
    · subst heq
      simp [hfresh, Function.comp_def]
    · simp [heq, Ne.symm heq]

/-- The list of an index holds the values of the items that name it. -/
theorem scatter_getElem? {n : ℕ} {slots : α → List ℕ} (hslots : ∀ a, (slots a).Nodup)
    (value : α → ℕ → β) (items : List α) {i : ℕ} (hi : i < n) :
    (scatter n slots value items)[i]? =
      some ((items.filter fun a => i ∈ slots a).map fun a => value a i) := by
  have hall : ∀ lists : List (List β), ∀ l, lists[i]? = some l →
      (items.foldl (fun lists a =>
        (slots a).foldl (fun lists i => lists.modify i (· ++ [value a i])) lists) lists)[i]? =
          some (l ++ (items.filter fun a => i ∈ slots a).map fun a => value a i) := by
    induction items with
    | nil => intro lists l hl; simpa using hl
    | cons a items ih =>
      intro lists l hl
      rw [List.foldl_cons]
      by_cases ha : i ∈ slots a
      · rw [ih _ (l ++ [value a i]) (by rw [push_getElem? _ (hslots a), hl]; simp [ha])]
        simp [ha]
      · rw [ih _ l (by rw [push_getElem? _ (hslots a), hl]; simp [ha])]
        simp [ha]
  exact hall _ [] (by simp [hi])

end Scatter

end Batiste
