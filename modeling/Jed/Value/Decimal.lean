import Mathlib.Algebra.Order.Field.Basic
import Mathlib.Data.Nat.Digits.Lemmas
import Mathlib.Data.Rat.Star
import Mathlib.Tactic.FieldSimp
import Mathlib.Tactic.Linarith
import Mathlib.Tactic.Positivity
import Mathlib.Tactic.Ring

/-!
# Decimals

An exact base-10 number (`decimal.rs`): a sign, a display scale and a coefficient. The coefficient's
limbs are read as the natural number they are, so `mag_mul_pow10` and `mag_cmp` are those of `Nat`.
-/

namespace Jed

/-- `Decimal` (`decimal.rs:68-73`). There is no negative zero. -/
structure Decimal where
  neg : Bool
  scale : Nat
  coeff : Nat
  sign : neg = true → coeff ≠ 0
  deriving DecidableEq

namespace Decimal

/-- `Decimal::is_zero`. -/
def isZero (d : Decimal) : Bool := d.coeff == 0

/-- `Decimal::precision` (`decimal.rs:285-287`). -/
def precision (d : Decimal) : Nat := (Nat.digits 10 d.coeff).length

/-- `MAX_INT_DIGITS`, `MAX_SCALE` (`decimal.rs:25-28`). -/
def maxIntDigits : Nat := 131072
def maxScale : Nat := 16383

/-- What `Decimal::check_cap` lets through (`decimal.rs:292-297`). -/
def InCaps (d : Decimal) : Prop := d.precision - d.scale ≤ maxIntDigits ∧ d.scale ≤ maxScale

/-- `Decimal::cmp_value` (`decimal.rs:325-339`). -/
def cmpValue (a b : Decimal) : Ordering :=
  if a.neg ≠ b.neg then if a.neg then .lt else .gt
  else
    let s := max a.scale b.scale
    let m := compare (a.coeff * 10 ^ (s - a.scale)) (b.coeff * 10 ^ (s - b.scale))
    if a.neg then m.swap else m

/-- The number a decimal denotes. -/
def toRat (d : Decimal) : ℚ := (if d.neg then -1 else 1) * (d.coeff / 10 ^ d.scale)

/-- The magnitude of a decimal. -/
def mag (d : Decimal) : ℚ := d.coeff / 10 ^ d.scale

theorem toRat_eq (d : Decimal) : d.toRat = if d.neg then -d.mag else d.mag := by
  unfold toRat mag
  split
  · rw [neg_one_mul]
  · rw [one_mul]

theorem mag_nonneg (d : Decimal) : 0 ≤ d.mag := by unfold mag; positivity

theorem mag_pos_of_neg {d : Decimal} (h : d.neg = true) : 0 < d.mag := by
  have := Nat.pos_of_ne_zero (d.sign h)
  unfold mag
  positivity

/-- Aligned coefficients compare as magnitudes. -/
theorem compare_aligned (a b : Decimal) :
    compare (a.coeff * 10 ^ (max a.scale b.scale - a.scale))
      (b.coeff * 10 ^ (max a.scale b.scale - b.scale)) = compare a.mag b.mag := by
  have haligned : ∀ (d : Decimal) (s : Nat), d.scale ≤ s →
      ((d.coeff * 10 ^ (s - d.scale) : Nat) : ℚ) = d.mag * 10 ^ s := by
    intro d s hs
    have hpow := pow_sub₀ (10 : ℚ) (by norm_num) hs
    rw [mag, Nat.cast_mul, Nat.cast_pow, Nat.cast_ofNat, hpow]
    ring
  have hpos : (0 : ℚ) < 10 ^ max a.scale b.scale := by positivity
  have ha := haligned a _ (le_max_left a.scale b.scale)
  have hb := haligned b _ (le_max_right a.scale b.scale)
  generalize a.coeff * 10 ^ (max a.scale b.scale - a.scale) = x at *
  generalize b.coeff * 10 ^ (max a.scale b.scale - b.scale) = y at *
  have hlt : x < y ↔ a.mag < b.mag := by
    rw [← Nat.cast_lt (α := ℚ), ha, hb, mul_lt_mul_iff_left₀ hpos]
  have hgt : y < x ↔ b.mag < a.mag := by
    rw [← Nat.cast_lt (α := ℚ), ha, hb, mul_lt_mul_iff_left₀ hpos]
  rcases lt_trichotomy x y with h | h | h
  · rw [compare_lt_iff_lt.mpr h, compare_lt_iff_lt.mpr (hlt.mp h)]
  · have heq : a.mag = b.mag := by
      refine le_antisymm (not_lt.mp fun h' => ?_) (not_lt.mp fun h' => ?_)
      · exact (hgt.mpr h').ne h.symm
      · exact (hlt.mpr h').ne h
    rw [compare_eq_iff_eq.mpr h, compare_eq_iff_eq.mpr heq]
  · rw [compare_gt_iff_gt.mpr h, compare_gt_iff_gt.mpr (hgt.mp h)]

theorem compare_neg (x y : ℚ) : compare (-x) (-y) = (compare x y).swap := by
  rcases lt_trichotomy x y with h | h | h
  · rw [compare_lt_iff_lt.mpr h, compare_gt_iff_gt.mpr (neg_lt_neg h)]
    rfl
  · rw [h, compare_eq_iff_eq.mpr rfl, compare_eq_iff_eq.mpr rfl]
    rfl
  · rw [compare_gt_iff_gt.mpr h, compare_lt_iff_lt.mpr (neg_lt_neg h)]
    rfl

/-- Decimals compare as the numbers they denote, whatever their display scales. -/
theorem cmpValue_eq (a b : Decimal) : a.cmpValue b = compare a.toRat b.toRat := by
  unfold cmpValue
  simp only [toRat_eq]
  cases ha : a.neg <;> cases hb : b.neg
  · simpa using compare_aligned a b
  · have hlt : -b.mag < a.mag := (neg_lt_zero.mpr (mag_pos_of_neg hb)).trans_le a.mag_nonneg
    simpa using (compare_gt_iff_gt.mpr hlt).symm
  · have hlt : -a.mag < b.mag := (neg_lt_zero.mpr (mag_pos_of_neg ha)).trans_le b.mag_nonneg
    simpa using (compare_lt_iff_lt.mpr hlt).symm
  · simpa [compare_neg] using congrArg Ordering.swap (compare_aligned a b)

end Decimal

end Jed
