import Mathlib.Algebra.Order.Field.Power
import Mathlib.Algebra.Order.Ring.WithTop
import Mathlib.Data.Int.ConditionallyCompleteOrder
import Mathlib.Data.Rat.Star
import Mathlib.Tactic.Positivity
import Mathlib.Tactic.Ring

/-!
# Floats

The binary interchange formats of `f32` and `f64`, a float being its bits, with the engine's own
order on them (`value.rs:452-513`): negative infinity, the finite values with one zero, infinity,
and one NaN above them all.
-/

namespace Jed

/-- A binary interchange format: the widths of its exponent and of its fraction. -/
structure FloatFormat where
  exponentBits : Nat
  fractionBits : Nat
  exponent_pos : 0 < exponentBits
  fraction_pos : 0 < fractionBits

def binary32 : FloatFormat := ⟨8, 23, by decide, by decide⟩
def binary64 : FloatFormat := ⟨11, 52, by decide, by decide⟩

namespace FloatFormat

variable (fmt : FloatFormat)

/-- The bits below the sign. -/
abbrev magnitudeBits : Nat := fmt.exponentBits + fmt.fractionBits

abbrev width : Nat := fmt.magnitudeBits + 1

/-- A float without its sign. -/
def magnitude (x : BitVec fmt.width) : Nat := x.toNat % 2 ^ fmt.magnitudeBits

/-- The magnitude of the infinities: every exponent bit, and no fraction. -/
def infinity : Nat := (2 ^ fmt.exponentBits - 1) * 2 ^ fmt.fractionBits

/-- `is_nan`. -/
def isNaN (x : BitVec fmt.width) : Bool := fmt.infinity < fmt.magnitude x

/-- A finite magnitude in units of the least subnormal. -/
def units (n : Nat) : Nat :=
  if n / 2 ^ fmt.fractionBits = 0 then n
  else (2 ^ fmt.fractionBits + n % 2 ^ fmt.fractionBits) * 2 ^ (n / 2 ^ fmt.fractionBits - 1)

/-- The least subnormal. -/
def ulp : ℚ := 2 ^ (2 - 2 ^ (fmt.exponentBits - 1) - fmt.fractionBits : ℤ)

/-- The extended number a float denotes, when it is one. -/
def value (x : BitVec fmt.width) : WithBot (WithTop ℚ) :=
  if fmt.magnitude x = fmt.infinity then if x.msb then ⊥ else ((⊤ : WithTop ℚ) : WithBot (WithTop ℚ))
  else (((if x.msb then -1 else 1) * (fmt.units (fmt.magnitude x) * fmt.ulp) : ℚ) : WithTop ℚ)

/-- `total_cmp_f64`, `total_cmp_f32`. -/
def totalCmp (a b : BitVec fmt.width) : Ordering :=
  match fmt.isNaN a, fmt.isNaN b with
  | true, true => .eq
  | true, false => .gt
  | false, true => .lt
  | false, false => compare (fmt.value a) (fmt.value b)

/-- The one NaN that is stored, `0x7ff8…` or `0x7fc0…`. -/
def quietNaN : BitVec fmt.width := BitVec.ofNat _ (fmt.infinity + 2 ^ (fmt.fractionBits - 1))

/-- `canon_f64_bits`, `canon_f32_bits`. -/
def canonBits (x : BitVec fmt.width) : BitVec fmt.width :=
  if fmt.isNaN x then fmt.quietNaN
  else if fmt.value x = 0 then 0
  else x

/-- A float's place among the floats that are not NaN, zero being at 0. -/
def place (x : BitVec fmt.width) : ℤ :=
  if x.msb then -(fmt.magnitude x : ℤ) else fmt.magnitude x

/-- What the float at a place denotes. -/
def valueAt (i : ℤ) : WithBot (WithTop ℚ) :=
  if i = fmt.infinity then ((⊤ : WithTop ℚ) : WithBot (WithTop ℚ))
  else if i = -fmt.infinity then ⊥
  else (((i.sign * fmt.units i.natAbs : ℤ) * fmt.ulp : ℚ) : WithTop ℚ)

theorem ulp_pos : 0 < fmt.ulp := by unfold ulp; positivity

theorem units_strictMono : StrictMono fmt.units := by
  refine strictMono_nat_of_lt_succ fun n => ?_
  have hpow : 0 < 2 ^ fmt.fractionBits := Nat.two_pow_pos _
  unfold units
  generalize 2 ^ fmt.fractionBits = k at *
  have hdiv := Nat.div_add_mod n k
  have hmod := Nat.mod_lt n hpow
  by_cases hlast : n % k + 1 = k
  · -- the next magnitude has the next exponent
    have hnext : n + 1 = k * (n / k + 1) := by rw [Nat.mul_add]; omega
    have hq : (n + 1) / k = n / k + 1 := by rw [hnext, Nat.mul_div_cancel_left _ hpow]
    have hr : (n + 1) % k = 0 := by rw [hnext, Nat.mul_mod_right]
    rw [hq, hr, if_neg (Nat.succ_ne_zero _), Nat.add_sub_cancel, Nat.add_zero]
    split
    · rename_i h0
      rw [h0, Nat.mul_zero] at hdiv
      rw [h0, pow_zero]
      omega
    · rename_i h0
      obtain ⟨q, hq⟩ := Nat.exists_eq_succ_of_ne_zero h0
      rw [hq, Nat.succ_sub_one, pow_succ]
      have hlt : k + n % k < k * 2 := by omega
      calc (k + n % k) * 2 ^ q < k * 2 * 2 ^ q := Nat.mul_lt_mul_of_pos_right hlt (Nat.two_pow_pos _)
        _ = k * (2 ^ q * 2) := by ring
  · have hq : (n + 1) / k = n / k := by
      have : n + 1 = n % k + 1 + k * (n / k) := by omega
      rw [this, Nat.add_mul_div_left _ _ hpow, Nat.div_eq_of_lt (by omega), Nat.zero_add]
    have hr : (n + 1) % k = n % k + 1 := by
      have : n + 1 = n % k + 1 + k * (n / k) := by omega
      rw [this, Nat.add_mul_mod_self_left, Nat.mod_eq_of_lt (by omega)]
    rw [hq, hr]
    split
    · exact Nat.lt_succ_self n
    · exact Nat.mul_lt_mul_of_pos_right (by omega) (Nat.two_pow_pos _)

theorem units_zero : fmt.units 0 = 0 := by simp [units]

/-- Signed magnitudes keep the order of places. -/
theorem signed_units_strictMono : StrictMono fun i : ℤ => i.sign * (fmt.units i.natAbs : ℤ) := by
  have hpos : ∀ {n : ℕ}, 0 < n → 0 < fmt.units n := fun h => by
    have := fmt.units_strictMono h
    rwa [units_zero] at this
  intro i j hij
  show i.sign * (fmt.units i.natAbs : ℤ) < j.sign * (fmt.units j.natAbs : ℤ)
  rcases lt_trichotomy i 0 with hi | rfl | hi
  · have hui := hpos (Int.natAbs_pos.mpr hi.ne)
    rw [Int.sign_eq_neg_one_of_neg hi]
    rcases lt_trichotomy j 0 with hj | rfl | hj
    · have := fmt.units_strictMono (show j.natAbs < i.natAbs by omega)
      rw [Int.sign_eq_neg_one_of_neg hj]
      omega
    · simpa using hui
    · have huj := hpos (Int.natAbs_pos.mpr hj.ne')
      rw [Int.sign_eq_one_of_pos hj]
      omega
  · have huj := hpos (Int.natAbs_pos.mpr hij.ne')
    rw [Int.sign_eq_one_of_pos hij]
    simpa using huj
  · have := fmt.units_strictMono (show i.natAbs < j.natAbs by omega)
    rw [Int.sign_eq_one_of_pos hi, Int.sign_eq_one_of_pos (hi.trans hij)]
    omega

/-- What floats denote is in the order of their places. -/
theorem valueAt_strictMonoOn :
    StrictMonoOn fmt.valueAt (Set.Icc (-fmt.infinity : ℤ) fmt.infinity) := by
  intro i hi j hj hij
  have hi' : i ≠ fmt.infinity := (hij.trans_le hj.2).ne
  have hj' : j ≠ -fmt.infinity := (hi.1.trans_lt hij).ne'
  unfold valueAt
  rw [if_neg hi', if_neg hj']
  by_cases hjinf : j = fmt.infinity
  · rw [if_pos hjinf]
    split
    · exact WithBot.bot_lt_coe _
    · exact WithBot.coe_lt_coe.mpr (WithTop.coe_lt_top _)
  · rw [if_neg hjinf]
    by_cases hiinf : i = -fmt.infinity
    · rw [if_pos hiinf]
      exact WithBot.bot_lt_coe _
    · rw [if_neg hiinf]
      refine WithBot.coe_lt_coe.mpr (WithTop.coe_lt_coe.mpr ?_)
      refine mul_lt_mul_of_pos_right ?_ fmt.ulp_pos
      exact_mod_cast fmt.signed_units_strictMono hij

theorem place_mem {x : BitVec fmt.width} (h : fmt.isNaN x = false) :
    fmt.place x ∈ Set.Icc (-fmt.infinity : ℤ) fmt.infinity := by
  have hle : fmt.magnitude x ≤ fmt.infinity := by simpa [isNaN] using h
  unfold place
  split
  · exact ⟨by omega, by omega⟩
  · exact ⟨by omega, by omega⟩

theorem infinity_pos : 0 < fmt.infinity := by
  have h2 : 1 < 2 ^ fmt.exponentBits := Nat.one_lt_two_pow fmt.exponent_pos.ne'
  exact Nat.mul_pos (by omega) (Nat.two_pow_pos _)

theorem value_eq (x : BitVec fmt.width) : fmt.value x = fmt.valueAt (fmt.place x) := by
  have hinf := fmt.infinity_pos
  unfold value valueAt place
  cases hsign : x.msb
  · by_cases h : fmt.magnitude x = fmt.infinity
    · simp [h]
    · have hne : ¬(fmt.magnitude x : ℤ) = -fmt.infinity := by omega
      have hne' : ¬(fmt.magnitude x : ℤ) = fmt.infinity := by omega
      have hval : ((fmt.magnitude x : ℤ).sign * fmt.units (fmt.magnitude x : ℤ).natAbs : ℤ)
          = fmt.units (fmt.magnitude x) := by
        rcases Nat.eq_zero_or_pos (fmt.magnitude x) with h0 | h0
        · simp [h0, units_zero]
        · rw [Int.sign_eq_one_of_pos (by omega), Int.natAbs_natCast, one_mul]
      simp only [if_neg h, if_neg hne, if_neg hne', hval, Bool.false_eq_true, if_false]
      simp
  · by_cases h : fmt.magnitude x = fmt.infinity
    · have hne : ¬-(fmt.infinity : ℤ) = fmt.infinity := by omega
      simp [h, hne]
    · have hne : ¬-(fmt.magnitude x : ℤ) = -fmt.infinity := by omega
      have hne' : ¬-(fmt.magnitude x : ℤ) = fmt.infinity := by omega
      have hval : ((-(fmt.magnitude x : ℤ)).sign * fmt.units (-(fmt.magnitude x : ℤ)).natAbs : ℤ)
          = -fmt.units (fmt.magnitude x) := by
        rcases Nat.eq_zero_or_pos (fmt.magnitude x) with h0 | h0
        · simp [h0, units_zero]
        · rw [Int.sign_eq_neg_one_of_neg (by omega), Int.natAbs_neg, Int.natAbs_natCast,
            neg_one_mul]
      simp only [if_neg h, if_neg hne, if_neg hne', hval, if_true]
      simp

theorem compare_value {a b : BitVec fmt.width} (ha : fmt.isNaN a = false)
    (hb : fmt.isNaN b = false) :
    compare (fmt.value a) (fmt.value b) = compare (fmt.place a) (fmt.place b) := by
  rw [value_eq, value_eq, ← cmp_eq_compare, ← cmp_eq_compare]
  exact fmt.valueAt_strictMonoOn.cmp_map_eq (fmt.place_mem ha) (fmt.place_mem hb)

theorem valueAt_zero : fmt.valueAt 0 = 0 := by
  have hinf := fmt.infinity_pos
  have h1 : ¬(0 : ℤ) = fmt.infinity := by omega
  have h2 : ¬(0 : ℤ) = -fmt.infinity := by omega
  rw [valueAt, if_neg h1, if_neg h2]
  simp

theorem value_eq_zero_iff {x : BitVec fmt.width} (h : fmt.isNaN x = false) :
    fmt.value x = 0 ↔ fmt.place x = 0 := by
  have hinf := fmt.infinity_pos
  rw [value_eq, ← valueAt_zero]
  exact fmt.valueAt_strictMonoOn.injOn.eq_iff (fmt.place_mem h) ⟨by omega, by omega⟩

end FloatFormat

end Jed
