import Jed.Value.Decimal
import Jed.Value.Value

/-!
# Sums of decimals

Exact sums and differences (`decimal.rs:370-402`), and the cap on what they may reach.
-/

namespace Jed.Decimal

/-- `Decimal::from_parts`. -/
def fromParts (neg : Bool) (scale coeff : Nat) : Decimal :=
  ⟨neg && coeff != 0, scale, coeff, by simp⟩

/-- `Decimal::neg`. -/
def negate (d : Decimal) : Decimal := fromParts (!d.neg) d.scale d.coeff

/-- `Decimal::add_uncapped` (`decimal.rs:379-392`). -/
def addUncapped (a b : Decimal) : Decimal :=
  let s := max a.scale b.scale
  let x := a.coeff * 10 ^ (s - a.scale)
  let y := b.coeff * 10 ^ (s - b.scale)
  if a.neg = b.neg then fromParts a.neg s (x + y)
  else
    match compare x y with
    | .eq => fromParts false s 0
    | .gt => fromParts a.neg s (x - y)
    | .lt => fromParts b.neg s (y - x)

instance (d : Decimal) : Decidable d.InCaps := inferInstanceAs (Decidable (_ ∧ _))

/-- `Decimal::check_cap` (`decimal.rs:292-297`). -/
def checkCap (d : Decimal) : Except Failure Decimal :=
  if d.InCaps then .ok d
  else .error (.error ⟨.numericValueOutOfRange, "value out of range for type decimal", some "decimal"⟩)

/-- `Decimal::add`. -/
def add (a b : Decimal) : Except Failure Decimal := (a.addUncapped b).checkCap

/-- `Decimal::sub`. -/
def sub (a b : Decimal) : Except Failure Decimal := a.add b.negate

theorem toRat_fromParts (neg : Bool) (scale coeff : ℕ) :
    (fromParts neg scale coeff).toRat = (if neg then -1 else 1) * (coeff / 10 ^ scale) := by
  by_cases h : coeff = 0
  · simp [fromParts, toRat, h]
  · simp [fromParts, toRat, h]

theorem toRat_negate (d : Decimal) : d.negate.toRat = -d.toRat := by
  rw [negate, toRat_fromParts, toRat]
  cases d.neg <;> simp

theorem aligned_div (d : Decimal) {s : ℕ} (h : d.scale ≤ s) :
    ((d.coeff * 10 ^ (s - d.scale) : ℕ) : ℚ) / 10 ^ s = d.mag := by
  rw [mag, Nat.cast_mul, Nat.cast_pow, Nat.cast_ofNat, pow_sub₀ (10 : ℚ) (by norm_num) h]
  field_simp

/-- The sum is exact. -/
theorem toRat_addUncapped (a b : Decimal) : (a.addUncapped b).toRat = a.toRat + b.toRat := by
  have ha := a.aligned_div (le_max_left a.scale b.scale)
  have hb := b.aligned_div (le_max_right a.scale b.scale)
  unfold addUncapped
  simp only
  generalize a.coeff * 10 ^ (max a.scale b.scale - a.scale) = x at ha ⊢
  generalize b.coeff * 10 ^ (max a.scale b.scale - b.scale) = y at hb ⊢
  rw [toRat_eq a, toRat_eq b]
  by_cases hneg : a.neg = b.neg
  · rw [if_pos hneg, toRat_fromParts, ← hneg, ← ha, ← hb, Nat.cast_add, add_div]
    cases a.neg with
    | false => simp
    | true =>
      simp
      ring
  · rw [if_neg hneg]
    have hother : b.neg = !a.neg := by
      cases ha : a.neg <;> cases hb : b.neg <;> simp_all
    rw [hother, ← ha, ← hb]
    cases hcmp : compare x y with
    | eq =>
      rw [compare_eq_iff_eq.mp hcmp]
      simp only [toRat_fromParts]
      cases a.neg <;> simp
    | gt =>
      have hle : y ≤ x := (compare_gt_iff_gt.mp hcmp).le
      simp only [toRat_fromParts, Nat.cast_sub hle, sub_div]
      cases a.neg <;> simp <;> ring
    | lt =>
      have hle : x ≤ y := (compare_lt_iff_lt.mp hcmp).le
      simp only [toRat_fromParts, Nat.cast_sub hle, sub_div]
      cases a.neg <;> simp <;> ring

theorem toRat_add {a b c : Decimal} (h : a.add b = .ok c) : c.toRat = a.toRat + b.toRat := by
  unfold add checkCap at h
  split at h
  · cases h
    exact toRat_addUncapped a b
  · cases h

theorem toRat_sub {a b c : Decimal} (h : a.sub b = .ok c) : c.toRat = a.toRat - b.toRat := by
  rw [toRat_add h, toRat_negate, sub_eq_add_neg]

theorem add_beyond {a b : Decimal} (ha : a.scale = 0 ∧ a.neg = false) (hb : b.scale = 0 ∧ b.neg = false)
    (h : 10 ^ maxIntDigits ≤ a.coeff + b.coeff) : ∃ e, a.add b = .error e := by
  have hsum : a.addUncapped b = fromParts false 0 (a.coeff + b.coeff) := by
    simp [addUncapped, ha.1, ha.2, hb.1, hb.2]
  have hdigits := (Nat.lt_digits_length_iff (b := 10) (by decide) (a.coeff + b.coeff)).mpr h
  have hcap : ¬(fromParts false 0 (a.coeff + b.coeff)).InCaps := fun hcap => hdigits.not_ge hcap.1
  rw [add, hsum, checkCap, if_neg hcap]
  exact ⟨_, rfl⟩

end Jed.Decimal
