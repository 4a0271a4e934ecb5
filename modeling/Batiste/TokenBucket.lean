import Mathlib.Algebra.Order.Field.Basic
import Mathlib.Data.Nat.Cast.Order.Ring
import Mathlib.Tactic.Linarith
import Mathlib.Tactic.Ring

/-! Token buckets over an ordered field: a level that the clock refills up to a capacity
and that every granted request lowers by one. -/
namespace Batiste
namespace TokenBucket

/-- The tokens left when the bucket was last written. -/
structure Level (α : Type*) where
  tokens : α
  stamp : α

variable {α : Type*} [Field α] [LinearOrder α]

/-- The tokens at a time; a bucket that nothing was taken from is full. -/
def level (cap rate : α) : Option (Level α) → α → α
  | none, _ => cap
  | some b, now => min cap (b.tokens + (now - b.stamp) * rate)

def take (cap rate : α) (b : Option (Level α)) (now : α) : Bool × Level α :=
  if 1 ≤ level cap rate b now then (true, ⟨level cap rate b now - 1, now⟩)
  else (false, ⟨level cap rate b now, now⟩)

@[simp] theorem take_stamp (cap rate : α) (b : Option (Level α)) (now : α) :
    (take cap rate b now).2.stamp = now := by
  unfold take
  split <;> rfl

/-- The answers to requests made one after another. -/
def grants (cap rate : α) : Option (Level α) → List α → List (α × Bool)
  | _, [] => []
  | b, now :: times =>
    let r := take cap rate b now
    (now, r.1) :: grants cap rate (some r.2) times

theorem level_le_cap (cap rate : α) (b : Option (Level α)) (now : α) :
    level cap rate b now ≤ cap := by
  cases b with
  | none => exact le_rfl
  | some b => exact min_le_left _ _

variable [IsStrictOrderedRing α]

/-- Between two times the level rises by no more than the rate allows. -/
theorem level_le_add (cap rate : α) (b : Option (Level α)) {t u : α} (h : t ≤ u) :
    level cap rate b u ≤ level cap rate b t + (u - t) * max 0 rate := by
  have hspan : 0 ≤ (u - t) * max 0 rate := mul_nonneg (sub_nonneg.mpr h) (le_max_left _ _)
  cases b with
  | none => exact le_add_of_nonneg_right hspan
  | some b =>
    have hrate : (u - t) * rate ≤ (u - t) * max 0 rate :=
      mul_le_mul_of_nonneg_left (le_max_right _ _) (sub_nonneg.mpr h)
    simp only [level]
    rw [min_add]
    refine le_min ((min_le_left _ _).trans (le_add_of_nonneg_right hspan))
      ((min_le_right _ _).trans ?_)
    have hsplit : (u - b.stamp) * rate = (t - b.stamp) * rate + (u - t) * rate := by ring
    rw [hsplit]
    linarith

theorem level_take (cap rate : α) (b : Option (Level α)) (now : α) :
    level cap rate (some (take cap rate b now).2) now =
      if 1 ≤ level cap rate b now then level cap rate b now - 1 else level cap rate b now := by
  have hcap := level_le_cap cap rate b now
  unfold take
  split
  · simp only [level, sub_self, zero_mul, add_zero] at hcap ⊢
    exact min_eq_right (by linarith)
  · simp only [level, sub_self, zero_mul, add_zero] at hcap ⊢
    exact min_eq_right hcap

/-- The requests granted up to `last` are paid for by the level at `first` and by what is
refilled in between. -/
theorem granted_le (cap rate last : α) (b : Option (Level α)) (times : List α) (first : α)
    (hsorted : times.Pairwise (· ≤ ·)) (hfirst : ∀ t ∈ times, first ≤ t) :
    (((grants cap rate b times).countP fun r => r.2 && decide (r.1 ≤ last) : ℕ) : α) ≤
      max 0 (level cap rate b first + (last - first) * max 0 rate) := by
  induction times generalizing b first with
  | nil => simp [grants]
  | cons now times ih =>
    obtain ⟨hnow, hsorted⟩ := List.pairwise_cons.mp hsorted
    have hrise := level_le_add cap rate b (hfirst now List.mem_cons_self)
    have hspan : (last - first) * max 0 rate =
        (now - first) * max 0 rate + (last - now) * max 0 rate := by ring
    have htail := ih (some (take cap rate b now).2) now hsorted hnow
    rw [level_take] at htail
    simp only [grants, List.countP_cons, take]
    rw [hspan]
    by_cases hone : 1 ≤ level cap rate b now
    · rw [if_pos hone] at htail
      simp only [take, if_pos hone] at htail ⊢
      by_cases hlast : now ≤ last
      · -- the token that is taken is one of the level at `now`
        have hrest : 0 ≤ (last - now) * max 0 rate :=
          mul_nonneg (sub_nonneg.mpr hlast) (le_max_left _ _)
        rw [max_eq_right (by linarith)] at htail
        simp only [hlast, decide_true, Bool.and_self, if_true, Nat.cast_add, Nat.cast_one]
        refine le_max_of_le_right ?_
        linarith
      · simp only [hlast, decide_false, Bool.and_false, Bool.false_eq_true, if_false, add_zero]
        exact htail.trans (max_le_max le_rfl (by linarith))
    · rw [if_neg hone] at htail
      simp only [take, if_neg hone, Bool.false_and, Bool.false_eq_true, if_false,
        add_zero] at htail ⊢
      exact htail.trans (max_le_max le_rfl (by linarith))

/-- Over any window the granted requests number at most the capacity and the refill. -/
theorem granted_window (cap rate first last : α) (b : Option (Level α)) (times : List α)
    (hsorted : times.Pairwise (· ≤ ·)) :
    (((grants cap rate b times).countP fun r =>
        r.2 && decide (first ≤ r.1) && decide (r.1 ≤ last) : ℕ) : α) ≤
      max 0 (cap + (last - first) * max 0 rate) := by
  induction times generalizing b with
  | nil => simp [grants]
  | cons now times ih =>
    obtain ⟨hnow, htimes⟩ := List.pairwise_cons.mp hsorted
    by_cases hfirst : first ≤ now
    · have hall : ∀ t ∈ now :: times, first ≤ t := by
        intro t ht
        rcases List.mem_cons.mp ht with rfl | ht
        · exact hfirst
        · exact hfirst.trans (hnow t ht)
      have hle := granted_le cap rate last b (now :: times) first hsorted hall
      have hcount : (grants cap rate b (now :: times)).countP (fun r =>
            r.2 && decide (first ≤ r.1) && decide (r.1 ≤ last)) ≤
          (grants cap rate b (now :: times)).countP fun r => r.2 && decide (r.1 ≤ last) := by
        refine List.countP_mono_left fun r _ hr => ?_
        simp only [Bool.and_eq_true] at hr ⊢
        exact ⟨hr.1.1, hr.2⟩
      refine (Nat.cast_le.mpr hcount).trans (hle.trans (max_le_max le_rfl ?_))
      have := level_le_cap cap rate b first
      linarith
    · simp only [grants, List.countP_cons, hfirst, decide_false, Bool.and_false,
        Bool.false_and, Bool.false_eq_true, if_false, add_zero]
      exact ih _ htimes

end TokenBucket
end Batiste
