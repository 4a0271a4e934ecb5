import Mathlib.Data.String.Basic
import Mathlib.Tactic

/-! Numbers of the source language, where `NaN` and the infinities matter. -/
namespace Batiste

inductive JsNumber
  | finite (value : ℚ)
  | nan
  | infinity (negative : Bool)
  deriving DecidableEq, Repr

namespace JsNumber

/-- `n < x` for a count `n`. -/
def natLt (n : ℕ) : JsNumber → Bool
  | .finite value => decide ((n : ℚ) < value)
  | .nan => false
  | .infinity negative => !negative

/-- `n <= x` for a count `n`. -/
def natLe (n : ℕ) : JsNumber → Bool
  | .finite value => decide ((n : ℚ) ≤ value)
  | .nan => false
  | .infinity negative => !negative

/-- `x < n` for a count `n`. -/
def ltNat (n : ℕ) : JsNumber → Bool
  | .finite value => decide (value < (n : ℚ))
  | .nan => false
  | .infinity negative => negative

theorem ltNat_mono {x : JsNumber} {m n : ℕ} (h : m ≤ n) (hm : x.ltNat m = true) :
    x.ltNat n = true := by
  cases x with
  | finite value =>
    have hcast : (m : ℚ) ≤ n := by exact_mod_cast h
    simp only [ltNat, decide_eq_true_eq] at hm ⊢
    exact hm.trans_le hcast
  | nan => exact hm
  | infinity negative => exact hm

theorem ltNat_of_natLe {x : JsNumber} {n : ℕ} (h : x.natLe n = true) : x.ltNat n = false := by
  cases x with
  | finite value => simpa [natLe, ltNat] using h
  | nan => rfl
  | infinity negative => simpa [natLe, ltNat] using h

/-- `x <= n` for a count `n`. -/
def leNat (n : ℕ) : JsNumber → Bool
  | .finite value => decide (value ≤ (n : ℚ))
  | .nan => false
  | .infinity negative => negative

/-- Whether a condition takes the number for true. -/
def truthy : JsNumber → Bool
  | .finite value => decide (value ≠ 0)
  | .nan => false
  | .infinity _ => true

/-- `x * n` for a positive count `n`. -/
def mulPos (n : ℕ) : JsNumber → JsNumber
  | .finite value => .finite (value * n)
  | .nan => .nan
  | .infinity negative => .infinity negative

/-- `0 <= x`. -/
def nonneg : JsNumber → Bool
  | .finite value => decide (0 ≤ value)
  | .nan => false
  | .infinity negative => !negative

end JsNumber
end Batiste
