import Jed.Intervals.Justify
import Jed.Lib.DigitString
import Mathlib.Data.List.DropRight
import Mathlib.Algebra.Order.Ring.Abs
import Mathlib.Data.Nat.Size
import Mathlib.Data.Rat.Floor
import Mathlib.Tactic.FieldSimp
import Mathlib.Tactic.Linarith

/-!
# Scaled intervals

`interval × number` and `interval / number` (`interval.rs:121-271`, `eval.rs:513-539`), in the `i128` they are
computed in, and the cascade over rational numbers that they return.
-/

namespace Jed.Intervals

open Key (microsPerDay daysPerMonth)

def InI128 (v : ℤ) : Prop :=
  -170141183460469231731687303715884105728 ≤ v ∧ v ≤ 170141183460469231731687303715884105727

instance (v : ℤ) : Decidable (InI128 v) := inferInstanceAs (Decidable (_ ∧ _))

/-- Arithmetic in `i128`. -/
def i128 (v : ℤ) : Checked ℤ := if InI128 v then .ok v else .error .overflow

/-- `checked_mul` and `checked_add` of `i128`. -/
def checkedI128 (v : ℤ) : Checked ℤ := if InI128 v then .ok v else .error outOfRange

def tryI64 (v : ℤ) : Checked ℤ := if InI64 v then .ok v else .error outOfRange

/-! ## Factors -/

def maxIntDigits : ℕ := 18

def maxFracDigits : ℕ := 18

def digitOf (b : UInt8) : Option ℕ :=
  if 48 ≤ b.toNat ∧ b.toNat ≤ 57 then some (b.toNat - 48) else none

/-- One digit or more. -/
def parseDigits (s : Bytes) : Option ℕ :=
  if s = [] then none else (s.mapM digitOf).map DigitString.value

/-- `str::parse::<i128>`: digits after a sign or none. -/
def parseI128 (s : Bytes) : Option ℤ :=
  let v : Option ℤ :=
    if s.head? = some 43 then (parseDigits s.tail).map fun n : ℕ => (n : ℤ)
    else if s.head? = some 45 then (parseDigits s.tail).map fun n : ℕ => -(n : ℤ)
    else (parseDigits s).map fun n : ℕ => (n : ℤ)
  v.filter fun v => decide (InI128 v)

/-- What is written after the sign: a numerator and its power of ten. -/
def parseUnsigned (neg : Bool) (body : Bytes) : Checked (ℤ × ℤ) :=
  let intPart := body.takeWhile (· ≠ 46)
  -- without its trailing zeros
  let fracPart := (body.drop (intPart.length + 1)).rdropWhile (· = 48)
  if intPart.length > maxIntDigits ∨ fracPart.length > maxFracDigits then
    .error (.fieldOverflow "interval factor has too many digits")
  else
    match parseI128 (intPart ++ fracPart) with
    | none => .error (.fieldOverflow "interval factor out of range")
    | some mag => .ok (if neg then -mag else mag, 10 ^ fracPart.length)

/-- `parse_factor_decimal`. -/
def parseFactorDecimal (s : Bytes) : Checked (ℤ × ℤ) :=
  let neg : Bool := s.head? = some 45
  parseUnsigned neg (if neg then s.tail else s)

/-- The numeric operand: an integer, or the text of a decimal. -/
inductive Factor where
  | int (n : ℤ)
  | decimal (text : Bytes)

/-- The integers are those of `i64`. -/
def Factor.IsValue : Factor → Prop
  | .int n => InI64 n
  | .decimal _ => True

/-- `factor_to_fraction`. -/
def factorToFraction : Factor → Checked (ℤ × ℤ)
  | .int n => .ok (n, 1)
  | .decimal text => parseFactorDecimal text

/-! ## The cascade -/

def igcdLoop (a b : ℕ) : ℕ :=
  if b = 0 then a else igcdLoop b (a % b)
termination_by b
decreasing_by exact Nat.mod_lt a (Nat.pos_of_ne_zero ‹_›)

/-- `igcd`. -/
def igcd (a b : ℤ) : ℤ := igcdLoop a.natAbs b.natAbs

def microDaysPerDay : ℤ := 1000000

/-- A quotient moved to the next integer away from the remainder's zero, where it is over half the divisor or
    half of it with an odd quotient. -/
def roundRemainder (q r den : ℤ) (away : ℤ) : Checked ℤ := do
  let twice ← i128 (|r| * 2)
  if twice > den ∨ (twice = den ∧ q.tmod 2 ≠ 0) then i128 (q + away) else .ok q

/-- `round_half_even_div`. -/
def roundHalfEvenDiv (num den : ℤ) : Checked ℤ := do
  let q := num.tdiv den
  let chunk ← i128 (q * den)
  let r ← i128 (num - chunk)
  roundRemainder q r den (if num ≥ 0 then 1 else -1)

/-- The summand of a bit. -/
def addBit (bit : Bool) (v summand : ℤ) : Checked ℤ := if bit then i128 (v + summand) else .ok v

/-- The multiplication bit by bit: quotient and remainder by `den` of a magnitude, given as its own quotient
    and remainder, times the leading bits of `scale`. -/
def scaleLoop (whole fraction den : ℤ) (scale : ℕ) : ℕ → ℤ → ℤ → Checked (ℤ × ℤ)
  | 0, q, r => .ok (q, r)
  | bit + 1, q, r => do
    let q ← i128 (q * 2)
    let r ← i128 (r * 2)
    let q ← addBit (scale.testBit bit) q whole
    let r ← addBit (scale.testBit bit) r fraction
    let q ← i128 (q + r.tdiv den)
    scaleLoop whole fraction den scale bit q (r.tmod den)

/-- The quotient and remainder of `num * scale` by `den`, the product being taken bit by bit where it leaves
    `i128`. -/
def scaledQuotient (num : ℤ) (scale : ℕ) (den : ℤ) : Checked (ℤ × ℤ) :=
  if InI128 (num * scale) then .ok ((num * scale).tdiv den, (num * scale).tmod den)
  else do
    let magnitude ← i128 |num|
    let quot ← scaleLoop (magnitude.tdiv den) (magnitude.tmod den) den scale scale.size 0 0
    if num < 0 then .ok (-quot.1, -quot.2) else .ok quot

/-- `round_scaled_fraction`. -/
def roundScaledFraction (num : ℤ) (scale : ℕ) (den offset : ℤ) : Checked ℤ := do
  let quot ← scaledQuotient num scale den
  let q ← i128 (quot.1 + offset)
  roundRemainder q quot.2 den quot.2.sign

/-- Whole days moved out of what the days have left. -/
def carryDays (rDay secRem : ℤ) : Checked (ℤ × ℤ) :=
  if |secRem| ≥ microsPerDay then do
    let whole := secRem.tdiv microsPerDay
    let rDay ← checkedI128 (rDay + whole)
    let chunk ← i128 (whole * microsPerDay)
    let secRem ← i128 (secRem - chunk)
    return (rDay, secRem)
  else .ok (rDay, secRem)

/-- `mul_by_fraction`, of a fraction in lowest terms. -/
def mulByLowestTerms (iv : Interval) (fnum fden : ℤ) : Checked Interval := do
  let mTotal ← checkedI128 (iv.months * fnum)
  let rMonth := mTotal.tdiv fden
  let chunk ← i128 (rMonth * fden)
  let fracMonth ← i128 (mTotal - chunk)
  let scaled ← checkedI128 (fracMonth * (daysPerMonth * microDaysPerDay))
  let mrd ← roundHalfEvenDiv scaled fden
  let mrdWhole := mrd.tdiv microDaysPerDay
  let chunk ← i128 (mrdWhole * microDaysPerDay)
  let mrdFrac ← i128 (mrd - chunk)
  let dTotal ← checkedI128 (iv.days * fnum)
  let rDay := dTotal.tdiv fden
  let chunk ← i128 (rDay * fden)
  let dayFrac ← i128 (dTotal - chunk)
  let offset ← i128 (mrdFrac * 86400)
  let secRem ← roundScaledFraction dayFrac microsPerDay.toNat fden offset
  let carried ← carryDays rDay secRem
  let rDay ← checkedI128 (carried.1 + mrdWhole)
  let timeNum ← checkedI128 (iv.micros * fnum)
  let rTime ← roundScaledFraction timeNum 1 fden carried.2
  let months ← tryI32 rMonth
  let days ← tryI32 rDay
  let micros ← tryI64 rTime
  return ⟨months, days, micros⟩

/-- `mul_by_fraction`. -/
def mulByFraction (iv : Interval) (fnum fden : ℤ) : Checked Interval :=
  let g := max (igcd fnum fden) 1
  mulByLowestTerms iv (fnum.tdiv g) (fden.tdiv g)

inductive ScaleOp where
  | mul | div

/-- `×` and `/` of the evaluator. -/
def scale (op : ScaleOp) (iv : Interval) (factor : Factor) : Checked Interval := do
  let fraction ← factorToFraction factor
  match op with
  | .mul => mulByFraction iv fraction.1 fraction.2
  | .div =>
    if fraction.1 = 0 then .error .divisionByZero
    else if fraction.1 < 0 then do
      let fnum ← i128 (-fraction.2)
      let fden ← i128 (-fraction.1)
      mulByFraction iv fnum fden
    else mulByFraction iv fraction.2 fraction.1

/-! ## Rational numbers -/

/-- The integer of a rational number, toward zero. -/
def trunc (q : ℚ) : ℤ := if 0 ≤ q then ⌊q⌋ else ⌈q⌉

/-- The nearest integer, the even one of two. -/
def halfEven (q : ℚ) : ℤ := if q - ⌊q⌋ < 1 / 2 ∨ (q - ⌊q⌋ = 1 / 2 ∧ Even ⌊q⌋) then ⌊q⌋ else ⌊q⌋ + 1

/-- The interval times a rational number: what is left of the whole months is days of 30 to the month,
    rounded to a millionth, what is left of the whole days is microseconds, and whole days of these are days
    again. -/
def cascade (iv : Interval) (f : ℚ) : Interval :=
  let months := trunc (iv.months * f)
  let monthDays := halfEven ((iv.months * f - months) * (daysPerMonth * microDaysPerDay : ℤ))
  let days := trunc (iv.days * f)
  let rest := halfEven ((iv.days * f - days) * microsPerDay + (monthDays.tmod microDaysPerDay * 86400 : ℤ))
  ⟨months, days + rest.tdiv microsPerDay + monthDays.tdiv microDaysPerDay,
    halfEven (iv.micros * f + rest.tmod microsPerDay)⟩

/-- An integer nearest to a rational number, even where another one is as near. -/
structure Nearest (q : ℚ) (z : ℤ) : Prop where
  near : |q - z| ≤ 1 / 2
  tie : |q - z| = 1 / 2 → Even z

theorem Nearest.le {q : ℚ} {z w : ℤ} (hz : Nearest q z) (hw : Nearest q w) : w ≤ z := by
  by_contra hlt
  have hstep : z + 1 ≤ w := by omega
  have hle : (z : ℚ) + 1 ≤ w := by exact_mod_cast hstep
  have hzNear := abs_le.1 hz.near
  have hwNear := abs_le.1 hw.near
  have hq : q - z = 1 / 2 := by linarith [hzNear.2, hwNear.1]
  have hq' : q - w = -(1 / 2) := by linarith [hzNear.2, hwNear.1]
  have hzEven := hz.tie (by rw [hq, abs_of_pos (by norm_num)])
  have hwEven := hw.tie (by rw [hq', abs_neg, abs_of_pos (by norm_num)])
  have hnext : w = z + 1 := by
    have : (w : ℚ) = z + 1 := by linarith
    exact_mod_cast this
  rw [hnext, Int.even_add_one] at hwEven
  exact hwEven hzEven

theorem nearest_halfEven (q : ℚ) : Nearest q (halfEven q) := by
  have hlo := Int.floor_le q
  have hhi := Int.lt_floor_add_one q
  rw [halfEven]
  split
  · rename_i h
    have habs : |q - ⌊q⌋| = q - ⌊q⌋ := abs_of_nonneg (by linarith)
    constructor
    · rw [habs]
      rcases h with h | h <;> linarith
    · intro heq
      rw [habs] at heq
      rcases h with h | h
      · linarith
      · exact h.2
  · rename_i h
    rw [not_or, not_and, not_lt] at h
    have habs : |q - (⌊q⌋ + 1 : ℤ)| = ⌊q⌋ + 1 - q := by
      push_cast
      rw [abs_of_neg (by linarith)]
      ring
    constructor
    · rw [habs]
      linarith [h.1]
    · intro heq
      rw [habs] at heq
      rw [Int.even_add_one]
      exact h.2 (by linarith)

theorem halfEven_eq {q : ℚ} {z : ℤ} (h : Nearest q z) : halfEven q = z :=
  le_antisymm (h.le (nearest_halfEven q)) ((nearest_halfEven q).le h)

/-- Rounding a quotient by its remainder. -/
theorem halfEven_add_div (q : ℤ) {r den : ℤ} (hden : 0 < den) (hr : |r| < den) :
    halfEven (q + r / den) =
      if |r| * 2 > den ∨ (|r| * 2 = den ∧ q.tmod 2 ≠ 0) then q + r.sign else q := by
  have hdenQ : (0 : ℚ) < den := by exact_mod_cast hden
  have hparity : q.tmod 2 ≠ 0 ↔ ¬Even q := by
    rw [Int.even_iff, ne_eq, ← Int.dvd_iff_tmod_eq_zero, Int.dvd_iff_emod_eq_zero]
  have habs : |(r : ℚ) / den| = (|r| : ℤ) / den := by rw [abs_div, abs_of_pos hdenQ, Int.cast_abs]
  split
  · rename_i h
    have hpos : 0 < |r| := by omega
    have hsign : r.sign * |r| = r := Int.sign_mul_abs r
    have hdist : |(q : ℚ) + r / den - (q + r.sign : ℤ)| = 1 - (|r| : ℤ) / den := by
      have hrw : (q : ℚ) + r / den - (q + r.sign : ℤ) = r.sign * ((|r| : ℤ) / den - 1) := by
        have hcast : (r : ℚ) = r.sign * (|r| : ℤ) := by exact_mod_cast hsign.symm
        rw [hcast]
        push_cast
        ring
      have hone : |(r.sign : ℚ)| = 1 := by
        rw [← Int.cast_abs, Int.abs_sign_of_ne_zero (abs_pos.1 hpos), Int.cast_one]
      have hlt : ((|r| : ℤ) : ℚ) / den < 1 := by
        rw [div_lt_one hdenQ]
        exact_mod_cast hr
      rw [hrw, abs_mul, hone, one_mul, abs_of_neg (by linarith)]
      ring
    have hhalf : (1 : ℚ) / 2 ≤ (|r| : ℤ) / den := by
      rw [div_le_div_iff₀ (by norm_num) hdenQ]
      have : den ≤ |r| * 2 := by omega
      rw [one_mul]
      exact_mod_cast this
    apply halfEven_eq
    constructor
    · rw [hdist]
      linarith
    · rw [hdist]
      intro heq
      have heq : ((|r| : ℤ) : ℚ) / den = 1 / 2 := by linarith
      rw [div_eq_div_iff (ne_of_gt hdenQ) (by norm_num), one_mul] at heq
      have heq : |r| * 2 = den := by exact_mod_cast heq
      have hodd : ¬Even q := by
        rcases h with h | h
        · omega
        · exact hparity.1 h.2
      rcases abs_cases r with ⟨hself, h0⟩ | ⟨-, h0⟩
      · rw [Int.sign_eq_one_of_pos (by omega), Int.even_add_one]
        exact hodd
      · rw [Int.sign_eq_neg_one_of_neg h0, ← sub_eq_add_neg, Int.even_sub_one]
        exact hodd
  · rename_i h
    rw [not_or, not_and, not_not] at h
    apply halfEven_eq
    have hdist : |(q : ℚ) + r / den - q| = (|r| : ℤ) / den := by rw [add_sub_cancel_left, habs]
    constructor
    · rw [hdist, div_le_div_iff₀ hdenQ (by norm_num), one_mul]
      have : |r| * 2 ≤ den := by omega
      exact_mod_cast this
    · rw [hdist, div_eq_div_iff (ne_of_gt hdenQ) (by norm_num), one_mul]
      intro heq
      have heq : |r| * 2 = den := by exact_mod_cast heq
      by_contra hodd
      exact hparity.2 hodd (h.2 heq)

theorem div_split (a : ℤ) {c : ℤ} (hc : 0 < c) : (a : ℚ) / c = a.tdiv c + a.tmod c / c := by
  have hcQ : (c : ℚ) ≠ 0 := by exact_mod_cast hc.ne'
  have hsplit : (a : ℚ) = a.tdiv c * c + a.tmod c := by exact_mod_cast (tdiv_split a hc).1
  rw [hsplit, add_div, mul_div_assoc, div_self hcQ, mul_one]

/-- The truncated quotient is the truncated rational number. -/
theorem trunc_div (a : ℤ) {c : ℤ} (hc : 0 < c) : trunc (a / c) = a.tdiv c := by
  have hcQ : (0 : ℚ) < c := by exact_mod_cast hc
  obtain ⟨-, hpos, hneg⟩ := tdiv_split a hc
  have hsign : 0 ≤ (a : ℚ) / c ↔ 0 ≤ a := by
    rw [le_div_iff₀ hcQ, zero_mul, Int.cast_nonneg_iff]
  rw [trunc]
  split
  · rename_i h
    obtain ⟨-, hmod, hlt⟩ := hpos (hsign.1 h)
    rw [Int.floor_eq_iff, div_split a hc]
    have hfrac : (0 : ℚ) ≤ a.tmod c / c := div_nonneg (by exact_mod_cast hmod) hcQ.le
    have hone : (a.tmod c : ℚ) / c < 1 := by
      rw [div_lt_one hcQ]
      exact_mod_cast hlt
    constructor <;> linarith
  · rename_i h
    rw [hsign, not_le] at h
    obtain ⟨-, hmod, hlt⟩ := hneg h.le
    rw [Int.ceil_eq_iff, div_split a hc]
    have hfrac : (a.tmod c : ℚ) / c ≤ 0 := div_nonpos_of_nonpos_of_nonneg (by exact_mod_cast hmod) hcQ.le
    have hone : (-1 : ℚ) < a.tmod c / c := by
      rw [lt_div_iff₀ hcQ, neg_one_mul]
      exact_mod_cast hlt
    constructor <;> linarith

/-! ## The functions -/

section Steps

variable {α : Type}

variable {v : ℤ} {f : ℤ → Checked α}

theorem i128_bind (h : InI128 v) : (i128 v >>= f) = f v := by
  rw [i128, if_pos h]
  rfl

theorem checkedI128_bind (v : ℤ) (f : ℤ → Checked α) :
    (checkedI128 v >>= f) = if InI128 v then f v else .error outOfRange := by
  rw [checkedI128]
  split <;> rfl

theorem tryI64_bind (v : ℤ) (f : ℤ → Checked α) :
    (tryI64 v >>= f) = if InI64 v then f v else .error outOfRange := by
  rw [tryI64]
  split <;> rfl

theorem bind_of_ok {β : Type} {x : Checked β} {a : β} (h : x = .ok a) (f : β → Checked α) :
    (x >>= f) = f a := by
  rw [h]
  rfl

theorem inI128_of_abs (h : |v| ≤ 2 ^ 126) : InI128 v := by
  have := abs_le.1 h
  unfold InI128
  omega

theorem igcdLoop_eq (a b : ℕ) : igcdLoop a b = Nat.gcd a b := by
  induction a, b using igcdLoop.induct with
  | case1 a => rw [igcdLoop, if_pos rfl, Nat.gcd_zero_right]
  | case2 a b h ih =>
    rw [igcdLoop, if_neg h, ih, Nat.gcd_comm b, ← Nat.gcd_rec, Nat.gcd_comm]

variable {den : ℤ}

/-- The remainder rounds the quotient half to even. -/
theorem roundRemainder_eq {q r away : ℤ} (hden : 0 < den) (hmax : den ≤ 10 ^ 36) (hr : |r| < den)
    (hq : |q| ≤ 2 ^ 126 + 2 ^ 64) (haway : r ≠ 0 → away = r.sign) :
    roundRemainder q r den away = .ok (halfEven (q + r / den)) := by
  rw [roundRemainder, i128_bind (by unfold InI128; have := abs_nonneg r; omega), halfEven_add_div q hden hr]
  split
  · rename_i h
    have hne : r ≠ 0 := by
      rintro rfl
      rw [abs_zero] at h
      omega
    have hsign : -1 ≤ r.sign ∧ r.sign ≤ 1 := by
      rcases Int.sign_trichotomy r with h | h | h <;> omega
    rw [haway hne, i128, if_pos]
    have := abs_le.1 hq
    unfold InI128
    omega
  · rfl

variable {c : ℤ}

theorem abs_tmod_lt (a : ℤ) (hc : 0 < c) : |a.tmod c| < c := by
  rw [abs_lt]
  exact tmod_bounds a hc

variable {k a : ℤ}

theorem abs_tdiv_le (hc : 0 < c) (h : |a| ≤ k * c) : |a.tdiv c| ≤ k := by
  obtain ⟨hsplit, hpos, hneg⟩ := tdiv_split a hc
  obtain ⟨hlo, hhi⟩ := abs_le.1 h
  rw [abs_le]
  rcases Int.le_total 0 a with h0 | h0
  · obtain ⟨hquot, hmod, -⟩ := hpos h0
    have hle : a.tdiv c ≤ k := Int.le_of_mul_le_mul_right (by omega) hc
    omega
  · obtain ⟨hquot, hmod, -⟩ := hneg h0
    have hle : -k ≤ a.tdiv c := Int.le_of_mul_le_mul_right (by rw [Int.neg_mul]; omega) hc
    omega

variable {num : ℤ}

theorem roundHalfEvenDiv_eq (hden : 0 < den) (hmax : den ≤ 10 ^ 36)
    (hnum : |num| ≤ 2 ^ 125) : roundHalfEvenDiv num den = .ok (halfEven (num / den)) := by
  obtain ⟨hsplit, hpos, hneg⟩ := tdiv_split num hden
  have hmod := tmod_bounds num hden
  have hquot : |num.tdiv den| ≤ 2 ^ 125 := abs_tdiv_le hden (by
    omega)
  have hnumRange := abs_le.1 hnum
  rw [roundHalfEvenDiv, i128_bind (by unfold InI128; omega), i128_bind (by unfold InI128; omega),
    show num - num.tdiv den * den = num.tmod den by omega,
    roundRemainder_eq hden hmax (abs_tmod_lt num hden) (by omega), div_split num hden]
  intro hne
  split
  · rw [Int.sign_eq_one_of_pos (by omega)]
  · rw [Int.sign_eq_neg_one_of_neg (by omega)]

/-! ### The bitwise product -/

theorem addBit_bind {bit : Bool} {summand : ℤ} (h : InI128 (v + if bit then summand else 0)) :
    (addBit bit v summand >>= f) = f (v + if bit then summand else 0) := by
  rw [addBit]
  cases bit with
  | true => exact i128_bind h
  | false =>
    rw [if_neg Bool.false_ne_true, if_neg Bool.false_ne_true, Int.add_zero]
    rfl

theorem shiftRight_eq (n bit : ℕ) :
    n >>> bit = 2 * (n >>> (bit + 1)) + if n.testBit bit then 1 else 0 := by
  rw [Nat.shiftRight_succ, Nat.testBit_eq_decide_div_mod_eq, ← Nat.shiftRight_eq_div_pow]
  by_cases h : n >>> bit % 2 = 1
  · rw [decide_eq_true h, if_pos rfl]
    omega
  · rw [decide_eq_false h, if_neg Bool.false_ne_true]
    omega

/-- The loop keeps a quotient and a remainder of the magnitude times the bits it has read. -/
theorem scaleLoop_eq {fraction : ℤ} {scale : ℕ} (hden : 0 < den) (hmax : den ≤ 10 ^ 36)
    (hfraction : 0 ≤ fraction ∧ fraction < den) (hscale : scale ≤ 2 ^ 64) :
    ∀ (bit : ℕ) (q r : ℤ), 0 ≤ r → r < den → 0 ≤ q →
      q * den + r = fraction * (scale >>> bit : ℕ) →
      scaleLoop 0 fraction den scale bit q r =
        .ok ((fraction * scale).tdiv den, (fraction * scale).tmod den) := by
  intro bit
  induction bit with
  | zero =>
    intro q r hr hlt hq h
    rw [Nat.shiftRight_zero] at h
    obtain ⟨hquot, hrem⟩ := tdiv_unique h.symm (by omega) hlt (by omega) (by omega)
    rw [scaleLoop, hquot, hrem]
  | succ bit ih =>
    intro q r hr hlt hq h
    have hqmax : q ≤ 2 ^ 64 := by
      have hbits : ((scale >>> (bit + 1) : ℕ) : ℤ) ≤ 2 ^ 64 := by
        rw [Nat.shiftRight_eq_div_pow]
        have := Nat.div_le_self scale (2 ^ (bit + 1))
        exact_mod_cast this.trans hscale
      have hle : fraction * (scale >>> (bit + 1) : ℕ) ≤ den * 2 ^ 64 :=
        Int.mul_le_mul (by omega) hbits (Int.natCast_nonneg _) (by omega)
      have hmul : q * den ≤ 2 ^ 64 * den := by omega
      exact Int.le_of_mul_le_mul_right hmul hden
    -- the summand of the bit, and what the division by `den` leaves
    have hsummand : 0 ≤ (if scale.testBit bit then fraction else 0) ∧
        (if scale.testBit bit then fraction else 0) ≤ fraction := by
      split <;> omega
    have hzero : (if scale.testBit bit then (0 : ℤ) else 0) = 0 := ite_self 0
    have hnext : fraction * (scale >>> bit : ℕ) =
        2 * (q * den + r) + if scale.testBit bit then fraction else 0 := by
      rw [shiftRight_eq scale bit, h]
      split <;> push_cast <;> ring
    rw [scaleLoop, i128_bind (by unfold InI128; omega), i128_bind (by unfold InI128; omega),
      addBit_bind (by rw [hzero]; unfold InI128; omega), hzero, Int.add_zero,
      addBit_bind (by unfold InI128; omega)]
    generalize (if scale.testBit bit then fraction else 0) = b at hsummand hnext ⊢
    obtain ⟨hsplit, hpos, -⟩ := tdiv_split (r * 2 + b) hden
    obtain ⟨hquot, hmod, hmodLt⟩ := hpos (by omega)
    have hthree : (r * 2 + b).tdiv den ≤ 3 := by
      have hle : |r * 2 + b| ≤ 3 * den := by
        rw [abs_of_nonneg (by omega)]
        omega
      exact (abs_le.1 (abs_tdiv_le hden hle)).2
    rw [i128_bind (by unfold InI128; omega)]
    apply ih _ _ hmod hmodLt (by omega)
    rw [hnext, Int.add_mul, Int.mul_right_comm]
    omega

/-- The bitwise product has the quotient and remainder of the direct one. -/
theorem scaledQuotient_eq {scale : ℕ} (hden : 0 < den) (hmax : den ≤ 10 ^ 36)
    (hfits : InI128 (num * scale) ∨ |num| < den) (hscale : scale ≤ 2 ^ 64) :
    scaledQuotient num scale den = .ok ((num * scale).tdiv den, (num * scale).tmod den) := by
  rw [scaledQuotient]
  split
  · rfl
  · rename_i hin
    have hnum := hfits.resolve_left hin
    have habs := abs_nonneg num
    have hbits : scale >>> scale.size = 0 := by
      rw [Nat.shiftRight_eq_div_pow]
      exact Nat.div_eq_of_lt (Nat.lt_size_self scale)
    have hloop := scaleLoop_eq hden hmax ⟨habs, hnum⟩ hscale scale.size 0 0 le_rfl hden le_rfl
      (by rw [hbits, Int.natCast_zero, Int.mul_zero, Int.zero_mul, Int.zero_add])
    rw [i128_bind (by unfold InI128; omega), Int.tdiv_eq_zero_of_lt habs hnum,
      Int.tmod_eq_of_lt habs hnum, hloop]
    by_cases hneg : num < 0
    · change (if num < 0 then _ else _) = _
      rw [if_pos hneg, abs_of_neg hneg, Int.neg_mul, Int.neg_tdiv, Int.neg_tmod, Int.neg_neg, Int.neg_neg]
    · change (if num < 0 then _ else _) = _
      rw [if_neg hneg, abs_of_nonneg (by omega)]

theorem roundScaledFraction_eq {num den offset : ℤ} {scale : ℕ} (hden : 0 < den) (hmax : den ≤ 10 ^ 36)
    (hbound : |num * scale| ≤ 2 ^ 126 * den) (hfits : InI128 (num * scale) ∨ |num| < den)
    (hscale : scale ≤ 2 ^ 64) (hoffset : |offset| ≤ 2 ^ 64) :
    roundScaledFraction num scale den offset =
      .ok (halfEven ((num * scale : ℤ) / den + offset)) := by
  have hquot := abs_le.1 (abs_tdiv_le hden hbound)
  have hoff := abs_le.1 hoffset
  rw [roundScaledFraction, scaledQuotient_eq hden hmax hfits hscale]
  change (i128 ((num * scale).tdiv den + offset) >>= _) = _
  rw [i128_bind (by unfold InI128; omega)]
  dsimp only
  rw [roundRemainder_eq hden hmax (abs_tmod_lt _ hden) (abs_le.2 (by omega)) fun _ => rfl,
    div_split (num * scale) hden]
  push_cast
  ring_nf

/-! ### The product -/

/-- What a fraction of a factor, or its inverse, is bounded by. -/
structure Bounded (fnum fden : ℤ) : Prop where
  pos : 0 < fden
  den : fden ≤ 10 ^ 36
  small : fden ≤ 10 ^ 18 ∨ |fnum| ≤ 2 ^ 63
  value : |fnum| ≤ 2 ^ 63 * fden

variable {fnum fden : ℤ}

theorem Bounded.den_le (h : Bounded fnum fden) (hv : |v| ≤ 2 ^ 63)
    (hout : ¬InI128 (v * fnum)) : fden ≤ 10 ^ 18 := by
  rcases h.small with h | h
  · exact h
  · refine absurd (inI128_of_abs ?_) hout
    rw [abs_mul]
    exact Int.mul_le_mul hv h (abs_nonneg fnum) (by decide)

/-- A product that leaves `i128` has a quotient that is far out of range. -/
theorem Bounded.far_of_overflow (h : Bounded fnum fden) (hv : |v| ≤ 2 ^ 63)
    (hout : ¬InI128 (v * fnum)) : 2 ^ 65 < |(v * fnum).tdiv fden| := by
  have hden := h.den_le hv hout
  obtain ⟨hsplit, hpos, hneg⟩ := tdiv_split (v * fnum) h.pos
  have hmod := tmod_bounds (v * fnum) h.pos
  by_contra hle
  have hle := abs_le.1 (Int.not_lt.1 hle)
  refine hout (inI128_of_abs ?_)
  have hchunk : |(v * fnum).tdiv fden * fden| ≤ 2 ^ 65 * 10 ^ 18 := by
    rw [abs_mul, abs_of_pos h.pos]
    exact Int.mul_le_mul (abs_le.2 hle) hden h.pos.le (by decide)
  have := abs_le.1 hchunk
  rw [abs_le]
  omega

theorem Bounded.abs_quot_le (h : Bounded fnum fden) (hv : |v| ≤ k) :
    |v * fnum| ≤ k * 2 ^ 63 * fden := by
  rw [abs_mul, Int.mul_assoc]
  exact Int.mul_le_mul hv h.value (abs_nonneg fnum) ((abs_nonneg v).trans hv)

/-- A whole part, and the product that is left of it. -/
theorem chunk_bind (hc : 0 < c) (h : InI128 a) :
    (i128 (a.tdiv c * c) >>= fun chunk => i128 (a - chunk) >>= f) = f (a.tmod c) := by
  obtain ⟨hsplit, hpos, hneg⟩ := tdiv_split a hc
  have hquot : 0 ≤ a → 0 ≤ a.tdiv c * c := fun h => Int.mul_nonneg (hpos h).1 hc.le
  have hquot' : a ≤ 0 → a.tdiv c * c ≤ 0 := fun h =>
    Int.mul_nonpos_of_nonpos_of_nonneg (hneg h).1 hc.le
  unfold InI128 at h
  rw [i128_bind (by unfold InI128; omega), i128_bind (by unfold InI128; omega),
    show a - a.tdiv c * c = a.tmod c by omega]

theorem halfEven_abs_le {q : ℚ} (h : |q| ≤ k) : |halfEven q| ≤ k := by
  have hq := abs_le.1 h
  have hnear := abs_le.1 (nearest_halfEven q).near
  have hlo : (-k - 1 : ℤ) < (halfEven q : ℚ) := by
    push_cast
    linarith
  have hhi : (halfEven q : ℚ) < (k + 1 : ℤ) := by
    push_cast
    linarith
  have hlo : -k - 1 < halfEven q := by exact_mod_cast hlo
  have hhi : halfEven q < k + 1 := by exact_mod_cast hhi
  rw [abs_le]
  omega

/-- A rounded sum is the truncated one to within a unit. -/
theorem halfEven_near (a : ℤ) (hc : 0 < c) (offset : ℤ) :
    |a.tdiv c + offset - halfEven ((a : ℚ) / c + offset)| < 2 := by
  have hcQ : (0 : ℚ) < c := by exact_mod_cast hc
  have hnear := abs_le.1 (nearest_halfEven ((a : ℚ) / c + offset)).near
  have hfrac : |(a.tmod c : ℚ) / c| ≤ 1 := by
    rw [abs_div, abs_of_pos hcQ, div_le_one hcQ, ← Int.cast_abs]
    exact_mod_cast (abs_tmod_lt a hc).le
  have hfrac := abs_le.1 hfrac
  have hcast : |((a.tdiv c + offset - halfEven ((a : ℚ) / c + offset) : ℤ) : ℚ)| < 2 := by
    rw [div_split a hc] at hnear ⊢
    push_cast
    rw [abs_lt]
    constructor <;> linarith [hnear.1, hnear.2, hfrac.1, hfrac.2]
  rw [← Int.cast_abs] at hcast
  exact_mod_cast hcast

theorem carryDays_eq {rDay secRem : ℤ} (hday : |rDay| ≤ 2 ^ 94) (hsec : |secRem| ≤ 2 ^ 64) :
    carryDays rDay secRem =
      .ok (rDay + secRem.tdiv microsPerDay, secRem.tmod microsPerDay) := by
  have hday := abs_le.1 hday
  have hsec' := abs_le.1 hsec
  have hquot := abs_le.1 (abs_tdiv_le (show 0 < microsPerDay by decide) (hsec.trans
    (by decide : (2 : ℤ) ^ 64 ≤ 2 ^ 64 * microsPerDay)))
  rw [carryDays]
  split
  · rw [checkedI128_bind, if_pos (by unfold InI128; omega),
      chunk_bind (by decide) (by unfold InI128; omega)]
    rfl
  · rename_i h
    have hlt := abs_lt.1 (Int.not_le.1 h)
    obtain ⟨hdiv, hmod⟩ := @tdiv_unique secRem microsPerDay 0 secRem (by omega) hlt.1 hlt.2 (by omega)
      (by omega)
    rw [hdiv, hmod, Int.add_zero]

/-! ### The fields -/

/-- The days of the months' rest, in millionths. -/
def monthDays (m den : ℤ) : ℤ := halfEven ((m.tmod den * (daysPerMonth * microDaysPerDay) : ℤ) / den)

/-- The microseconds of the days' rest and of those. -/
def dayRest (m d den : ℤ) : ℤ :=
  halfEven ((d.tmod den * microsPerDay : ℤ) / den + ((monthDays m den).tmod microDaysPerDay * 86400 : ℤ))

theorem cascade_eq (iv : Interval) (fnum : ℤ) (hden : 0 < fden) :
    cascade iv (fnum / fden) =
      ⟨(iv.months * fnum).tdiv fden,
        (iv.days * fnum).tdiv fden + (dayRest (iv.months * fnum) (iv.days * fnum) fden).tdiv microsPerDay +
          (monthDays (iv.months * fnum) fden).tdiv microDaysPerDay,
        halfEven ((iv.micros * fnum : ℤ) / fden +
          (dayRest (iv.months * fnum) (iv.days * fnum) fden).tmod microsPerDay)⟩ := by
  have hfield : ∀ v : ℤ, (v : ℚ) * (fnum / fden) = (v * fnum : ℤ) / fden := by
    intro v
    rw [Int.cast_mul, mul_div_assoc]
  have hrest : ∀ v k : ℤ, ((v * fnum : ℤ) / fden - (v * fnum).tdiv fden : ℚ) * k =
      ((v * fnum).tmod fden * k : ℤ) / fden := by
    intro v k
    rw [div_split (v * fnum) hden, add_sub_cancel_left, Int.cast_mul, div_mul_eq_mul_div]
  rw [cascade, hfield, hfield, hfield, trunc_div _ hden, trunc_div _ hden, hrest, hrest]
  rfl

theorem abs_monthDays_le (m : ℤ) (hden : 0 < den) : |monthDays m den| ≤ 30000000 := by
  have hdenQ : (0 : ℚ) < den := by exact_mod_cast hden
  have hmod := abs_tmod_lt m hden
  apply halfEven_abs_le
  rw [abs_div, abs_of_pos hdenQ, div_le_iff₀ hdenQ]
  have hle : |m.tmod den * (daysPerMonth * microDaysPerDay)| ≤ 30000000 * den := by
    rw [abs_mul, daysPerMonth, microDaysPerDay, show |(30 : ℤ) * 1000000| = 30000000 from rfl]
    omega
  rw [← Int.cast_abs]
  exact_mod_cast hle

theorem abs_dayRest_le (m d : ℤ) (hden : 0 < den) :
    |dayRest m d den| ≤ 2 * microsPerDay := by
  have hdenQ : (0 : ℚ) < den := by exact_mod_cast hden
  have hmod := abs_tmod_lt d hden
  have hmicro := abs_lt.1 (abs_tmod_lt (monthDays m den) (show 0 < microDaysPerDay by decide))
  apply halfEven_abs_le
  refine (abs_add_le _ _).trans ?_
  have hleft : |((d.tmod den * microsPerDay : ℤ) : ℚ) / den| ≤ (microsPerDay : ℤ) := by
    rw [abs_div, abs_of_pos hdenQ, div_le_iff₀ hdenQ, ← Int.cast_abs]
    have hle : |d.tmod den * microsPerDay| ≤ microsPerDay * den := by
      rw [abs_mul, microsPerDay, show |(86400 : ℤ) * 1000000| = 86400000000 from rfl]
      omega
    exact_mod_cast hle
  have hright : |(((monthDays m den).tmod microDaysPerDay * 86400 : ℤ) : ℚ)| ≤ (microsPerDay : ℤ) := by
    rw [← Int.cast_abs]
    have hle : |(monthDays m den).tmod microDaysPerDay * 86400| ≤ microsPerDay := by
      rw [microDaysPerDay] at *
      rw [abs_le, microsPerDay]
      omega
    exact_mod_cast hle
  push_cast at *
  linarith

/-- What an operation returns: an interval whose fields are in range, or else `22008`. -/
def returned (out : Interval) : Checked Interval :=
  if InI32 out.months ∧ InI32 out.days ∧ InI64 out.micros then .ok out else .error outOfRange

theorem returned_error {out : Interval} (h : ¬(InI32 out.months ∧ InI32 out.days ∧ InI64 out.micros)) :
    returned out = .error outOfRange := if_neg h

/-- What is left of the months is small enough to be scaled to days. -/
theorem Bounded.abs_scaled_le (h : Bounded fnum fden) (hv : |v| ≤ 2 ^ 31) :
    |(v * fnum).tmod fden * (daysPerMonth * microDaysPerDay)| ≤ 2 ^ 125 := by
  have hmod := abs_tmod_lt (v * fnum) h.pos
  have hleft : |(v * fnum).tmod fden| ≤ 2 ^ 94 := by
    rcases h.small with hsmall | hsmall
    · omega
    · obtain ⟨hsplit, hpos, hneg⟩ := tdiv_split (v * fnum) h.pos
      have hprod : |v * fnum| ≤ 2 ^ 31 * 2 ^ 63 := by
        rw [abs_mul]
        exact Int.mul_le_mul hv hsmall (abs_nonneg fnum) (by decide)
      have hself := abs_le.1 hprod
      have hquot : 0 ≤ v * fnum → 0 ≤ (v * fnum).tdiv fden * fden := fun h0 =>
        Int.mul_nonneg (hpos h0).1 h.pos.le
      have hquot' : v * fnum ≤ 0 → (v * fnum).tdiv fden * fden ≤ 0 := fun h0 =>
        Int.mul_nonpos_of_nonpos_of_nonneg (hneg h0).1 h.pos.le
      rw [abs_le]
      omega
  rw [abs_mul, daysPerMonth, microDaysPerDay, show |(30 : ℤ) * 1000000| = 30000000 from rfl]
  omega

/-- The product is the cascade, unless a field of it is out of range. -/
theorem mulByLowestTerms_eq {iv : Interval} (h : InRange iv) (hb : Bounded fnum fden) :
    mulByLowestTerms iv fnum fden = returned (cascade iv (fnum / fden)) := by
  have hm : |iv.months| ≤ 2 ^ 31 := abs_le.2 (by have := h.months; unfold InI32 at this; omega)
  have hd : |iv.days| ≤ 2 ^ 31 := abs_le.2 (by have := h.days; unfold InI32 at this; omega)
  have hu : |iv.micros| ≤ 2 ^ 63 := abs_le.2 (by have := h.micros; unfold InI64 at this; omega)
  have hpos := hb.pos
  have hmicro : microDaysPerDay = 1000000 := rfl
  have hday : microsPerDay = 86400000000 := rfl
  have hscaled := hb.abs_scaled_le hm
  have hmonthDays := abs_monthDays_le (iv.months * fnum) hb.pos
  have hrest := abs_dayRest_le (iv.months * fnum) (iv.days * fnum) hb.pos
  have hmonthStep : roundHalfEvenDiv ((iv.months * fnum).tmod fden * (daysPerMonth * microDaysPerDay)) fden =
      .ok (monthDays (iv.months * fnum) fden) := roundHalfEvenDiv_eq hb.pos hb.den hscaled
  have hrestStep : roundScaledFraction ((iv.days * fnum).tmod fden) microsPerDay.toNat fden
      ((monthDays (iv.months * fnum) fden).tmod microDaysPerDay * 86400) =
        .ok (dayRest (iv.months * fnum) (iv.days * fnum) fden) := by
    have hmod := abs_tmod_lt (iv.days * fnum) hb.pos
    have hfrac := abs_lt.1 (abs_tmod_lt (monthDays (iv.months * fnum) fden)
      (show 0 < microDaysPerDay by decide))
    refine roundScaledFraction_eq hb.pos hb.den ?_ (Or.inr hmod) (by decide) ?_
    · rw [abs_mul, show |((microsPerDay.toNat : ℕ) : ℤ)| = 86400000000 from rfl]
      omega
    · rw [abs_le]
      omega
  rw [cascade_eq iv fnum hb.pos]
  generalize hmrd : monthDays (iv.months * fnum) fden = mrd at *
  generalize hsec : dayRest (iv.months * fnum) (iv.days * fnum) fden = sec at *
  have hmonthWhole := abs_le.1 (abs_tdiv_le (show 0 < microDaysPerDay by decide)
    (hmonthDays.trans (by decide : (30000000 : ℤ) ≤ 30 * microDaysPerDay)))
  have hmonthFrac := abs_lt.1 (abs_tmod_lt mrd (show 0 < microDaysPerDay by decide))
  have hsecWhole := abs_le.1 (abs_tdiv_le (show 0 < microsPerDay by decide) hrest)
  have hsecFrac := abs_lt.1 (abs_tmod_lt sec (show 0 < microsPerDay by decide))
  rw [mulByLowestTerms, checkedI128_bind]
  by_cases hM : InI128 (iv.months * fnum)
  · rw [if_pos hM, chunk_bind hb.pos hM, checkedI128_bind,
      if_pos (inI128_of_abs (hscaled.trans (by decide))), bind_of_ok hmonthStep,
      chunk_bind (by decide) (inI128_of_abs (hmonthDays.trans (by decide))), checkedI128_bind]
    by_cases hD : InI128 (iv.days * fnum)
    · have hdayQuot := abs_tdiv_le hb.pos (hb.abs_quot_le hd)
      have hdayRange := abs_le.1 hdayQuot
      rw [if_pos hD, chunk_bind hb.pos hD,
        i128_bind (by unfold InI128; omega), bind_of_ok hrestStep,
        bind_of_ok (carryDays_eq (hdayQuot.trans (by decide)) (hrest.trans (by decide))), checkedI128_bind,
        if_pos (by unfold InI128; dsimp only; omega), checkedI128_bind]
      by_cases hU : InI128 (iv.micros * fnum)
      · have htimeStep : roundScaledFraction (iv.micros * fnum) 1 fden (sec.tmod microsPerDay) =
            .ok (halfEven ((iv.micros * fnum : ℤ) / fden + sec.tmod microsPerDay)) := by
          have hbound := hb.abs_quot_le hu
          have := @roundScaledFraction_eq (iv.micros * fnum) fden (sec.tmod microsPerDay) 1 hb.pos hb.den
          rw [Nat.cast_one, Int.mul_one] at this
          refine this (by omega) (Or.inl hU) (by decide) ?_
          rw [abs_le]
          omega
        rw [if_pos hU, bind_of_ok htimeStep, tryI32_bind, tryI32_bind, tryI64_bind, returned]
        by_cases hmonths : InI32 ((iv.months * fnum).tdiv fden)
        · by_cases hdays : InI32 ((iv.days * fnum).tdiv fden + sec.tdiv microsPerDay + mrd.tdiv microDaysPerDay)
          · rw [if_pos hmonths, if_pos hdays]
            simp only [hmonths, hdays, true_and]
            rfl
          · rw [if_pos hmonths, if_neg hdays, if_neg fun h => hdays h.2.1]
        · rw [if_neg hmonths, if_neg fun h => hmonths h.1]
      · rw [if_neg hU, returned_error fun h => ?_]
        have hfar := hb.far_of_overflow hu hU
        have hnear := abs_lt.1 (halfEven_near (iv.micros * fnum) hb.pos (sec.tmod microsPerDay))
        have := h.2.2
        unfold InI64 at this
        rw [lt_abs] at hfar
        dsimp only at this
        omega
    · rw [if_neg hD, returned_error fun h => ?_]
      have hfar := hb.far_of_overflow (hd.trans (by decide)) hD
      have := h.2.1
      unfold InI32 at this
      rw [lt_abs] at hfar
      dsimp only at this
      omega
  · rw [if_neg hM, returned_error fun h => ?_]
    have hfar := hb.far_of_overflow (hm.trans (by decide)) hM
    have := h.1
    unfold InI32 at this
    rw [lt_abs] at hfar
    dsimp only at this
    omega

theorem igcd_eq (a b : ℤ) : igcd a b = Int.gcd a b := by
  rw [igcd, igcdLoop_eq, Int.gcd]

/-- Lowest terms are the same rational number, and as bounded. -/
theorem mulByFraction_eq {iv : Interval} (h : InRange iv) (hb : Bounded fnum fden) :
    mulByFraction iv fnum fden = returned (cascade iv (fnum / fden)) := by
  have hgcd : (0 : ℤ) < Int.gcd fnum fden := by
    exact_mod_cast Int.gcd_pos_of_ne_zero_right fnum hb.pos.ne'
  obtain ⟨a, ha⟩ := Int.gcd_dvd_left fnum fden
  obtain ⟨b, hb'⟩ := Int.gcd_dvd_right fnum fden
  rw [mulByFraction, igcd_eq, max_eq_left (by omega)]
  generalize (Int.gcd fnum fden : ℤ) = g at *
  subst ha hb'
  have hb' : 0 < b := Int.pos_of_mul_pos_right hb.pos hgcd
  have hself : ∀ v : ℤ, 0 ≤ v → v ≤ g * v := fun v hv => by
    have := Int.mul_le_mul_of_nonneg_right (show 1 ≤ g by omega) hv
    omega
  have habs : |g * a| = g * |a| := by rw [abs_mul, abs_of_pos hgcd]
  have ha := hself |a| (abs_nonneg a)
  have hden := hself b hb'.le
  have hlowest : Bounded a b := by
    refine ⟨hb', hden.trans hb.den, ?_, ?_⟩
    · rcases hb.small with hsmall | hsmall
      · exact Or.inl (hden.trans hsmall)
      · exact Or.inr (ha.trans (habs ▸ hsmall))
    · have hvalue := hb.value
      rw [habs, Int.mul_left_comm] at hvalue
      exact Int.le_of_mul_le_mul_left hvalue hgcd
  have hcast : ((g * a : ℤ) : ℚ) / (g * b : ℤ) = a / b := by
    rw [Int.cast_mul, Int.cast_mul, mul_div_mul_left]
    exact_mod_cast hgcd.ne'
  rw [Int.mul_tdiv_cancel_left a hgcd.ne', Int.mul_tdiv_cancel_left b hgcd.ne', hcast,
    mulByLowestTerms_eq h hlowest]

/-! ### Factors -/

variable {s : Bytes}

theorem mapM_digitOf : ∀ {ds : List ℕ}, s.mapM digitOf = some ds →
    ds.length = s.length ∧ DigitString.IsDigits ds := by
  induction s with
  | nil =>
    intro ds h
    rw [List.mapM_nil, Option.pure_def, Option.some_inj] at h
    subst h
    exact ⟨rfl, List.forall_mem_nil _⟩
  | cons b s ih =>
    intro ds h
    rw [List.mapM_cons] at h
    obtain ⟨d, hd, h⟩ := Option.bind_eq_some_iff.1 h
    obtain ⟨tail, htail, h⟩ := Option.bind_eq_some_iff.1 h
    obtain rfl := Option.some_inj.1 h
    obtain ⟨hlen, hdigits⟩ := ih htail
    rw [digitOf] at hd
    split at hd
    · obtain rfl := Option.some_inj.1 hd
      exact ⟨by rw [List.length_cons, List.length_cons, hlen],
        List.forall_mem_cons.2 ⟨by omega, hdigits⟩⟩
    · contradiction

theorem parseDigits_lt {n : ℕ} (h : parseDigits s = some n) : n < 10 ^ s.length := by
  rw [parseDigits] at h
  split at h
  · contradiction
  · obtain ⟨ds, hds, rfl⟩ := Option.map_eq_some_iff.1 h
    obtain ⟨hlen, hdigits⟩ := mapM_digitOf hds
    rw [← hlen]
    exact DigitString.value_lt hdigits

theorem parseI128_lt (h : parseI128 s = some v) : |v| < 10 ^ s.length := by
  have htail : ∀ {n : ℕ}, parseDigits s.tail = some n → (n : ℤ) < 10 ^ s.length := by
    intro n hn
    have hlt := (parseDigits_lt hn).trans_le (Nat.pow_le_pow_right (by decide : 0 < 10)
      (List.length_tail ▸ Nat.sub_le s.length 1))
    exact_mod_cast hlt
  rw [parseI128, Option.filter_eq_some_iff] at h
  obtain ⟨h, -⟩ := h
  split at h
  · obtain ⟨n, hn, rfl⟩ := Option.map_eq_some_iff.1 h
    rw [abs_of_nonneg (Int.natCast_nonneg n)]
    exact htail hn
  · split at h
    · obtain ⟨n, hn, rfl⟩ := Option.map_eq_some_iff.1 h
      rw [abs_neg, abs_of_nonneg (Int.natCast_nonneg n)]
      exact htail hn
    · obtain ⟨n, hn, rfl⟩ := Option.map_eq_some_iff.1 h
      rw [abs_of_nonneg (Int.natCast_nonneg n)]
      exact_mod_cast parseDigits_lt hn

/-- A factor as it is written is a number of up to 18 digits before its point, over a power of ten. -/
theorem parseUnsigned_bounds {neg : Bool} {body : Bytes} (h : parseUnsigned neg body = .ok (num, den)) :
    ∃ frac : ℕ, frac ≤ 18 ∧ den = 10 ^ frac ∧ |num| < 10 ^ 18 * 10 ^ frac := by
  rw [parseUnsigned] at h
  split at h
  · contradiction
  · rename_i hdigits
    rw [not_or, Nat.not_lt, Nat.not_lt] at hdigits
    split at h
    · contradiction
    · rename_i mag hmag
      obtain ⟨rfl, rfl⟩ := Prod.mk.inj (Except.ok.inj h)
      refine ⟨_, hdigits.2, rfl, ?_⟩
      have hlt := parseI128_lt hmag
      rw [List.length_append, pow_add] at hlt
      have habs : |if neg = true then -mag else mag| = |mag| := by
        cases neg with
        | true => exact abs_neg mag
        | false => rfl
      rw [habs]
      refine hlt.trans_le (mul_le_mul_of_nonneg_right ?_ (by positivity))
      exact pow_le_pow_right₀ (by decide) hdigits.1

theorem factor_bounds {factor : Factor} (hv : factor.IsValue)
    (h : factorToFraction factor = .ok (fnum, fden)) :
    0 < fden ∧ fden ≤ 10 ^ 18 ∧ |fnum| ≤ 10 ^ 36 ∧ |fnum| ≤ 2 ^ 63 * fden := by
  cases factor with
  | int n =>
    obtain ⟨rfl, rfl⟩ := Prod.mk.inj (Except.ok.inj h)
    have habs : |n| ≤ 2 ^ 63 := abs_le.2 (by
      change InI64 n at hv
      unfold InI64 at hv
      omega)
    omega
  | decimal text =>
    obtain ⟨frac, hfrac, rfl, hlt⟩ := parseUnsigned_bounds h
    have hpos : (0 : ℤ) < 10 ^ frac := by positivity
    have hle : (10 : ℤ) ^ frac ≤ 10 ^ 18 := pow_le_pow_right₀ (by decide) hfrac
    omega

end Steps

/-- `interval × number` and `interval / number` are the cascade over the rational numbers, or `22008` where a
    field of it is out of range. -/
theorem scale_exact {iv : Interval} {factor : Factor} {fnum fden : ℤ} (h : InRange iv)
    (hv : factor.IsValue) (hf : factorToFraction factor = .ok (fnum, fden)) :
    scale .mul iv factor = returned (cascade iv (fnum / fden)) ∧
      scale .div iv factor =
        if fnum = 0 then .error .divisionByZero else returned (cascade iv (fden / fnum)) := by
  obtain ⟨hpos, hden, hnum, hvalue⟩ := factor_bounds hv hf
  have habs : |fden| = fden := abs_of_pos hpos
  constructor
  · rw [scale, bind_of_ok hf]
    exact mulByFraction_eq h ⟨hpos, by omega, Or.inl hden, hvalue⟩
  · rw [scale, bind_of_ok hf]
    dsimp only
    have hnumRange := abs_le.1 hnum
    split
    · rfl
    · split
      · rename_i hneg
        rw [i128_bind (by unfold InI128; omega), i128_bind (by unfold InI128; omega),
          mulByFraction_eq h ⟨by omega, by omega, Or.inr (by rw [abs_neg]; omega), by rw [abs_neg]; omega⟩,
          Int.cast_neg, Int.cast_neg, neg_div_neg_eq]
      · exact mulByFraction_eq h ⟨by omega, by omega, Or.inr (by omega), by omega⟩

/-- A month times `1.5`. -/
theorem scale_exact_month : scale .mul ⟨1, 0, 0⟩ (.decimal [49, 46, 53]) = .ok ⟨1, 15, 0⟩ := by
  have hfactor : factorToFraction (.decimal [49, 46, 53]) = .ok (15, 10) := by decide
  rw [(@scale_exact ⟨1, 0, 0⟩ _ 15 10 ⟨by decide, by decide, by decide⟩ (by trivial) hfactor).1]
  decide +kernel

end Jed.Intervals
