import Jed.Value.DecimalSum
import Mathlib.Algebra.Order.Floor.Semifield
import Mathlib.Analysis.Real.Sqrt

/-!
# Square roots of decimals

The integer square root (`decimal.rs:1304-1319`), and `sqrt_var` and `sqrt` (`decimal.rs:786-888`), which round
half away from zero what it returns at a guard scale.
-/

namespace Jed.Decimal

/-- What a kernel fails with. -/
inductive MathError where
  /-- `2201F`. -/
  | squareRootOfNegative
  | failure (f : Failure)
  deriving DecidableEq

/-- The loop of `mag_isqrt`, whose divisor stays positive. -/
def newton (n x : ℕ) : ℕ :=
  let y := (x + n / x) / 2
  if y < x then newton n y else x
termination_by x

/-- `mag_isqrt`: the loop from a power of ten that is no less than the root. -/
def magIsqrt (n : ℕ) : ℕ :=
  if n = 0 then 0 else newton n (10 ^ (((Nat.digits 10 n).length + 1) / 2))

/-- A quotient rounded half away from zero. -/
def divHalfAway (n pow : ℕ) : ℕ := if n % pow + n % pow ≥ pow then n / pow + 1 else n / pow

/-- `as u32`. -/
def asU32 (v : ℤ) : ℕ := (v % 4294967296).toNat

/-- `round_to_scale`. -/
def roundToScale (d : Decimal) (target : ℕ) : Decimal :=
  if target ≥ d.scale then fromParts d.neg target (d.coeff * 10 ^ (target - d.scale))
  else fromParts d.neg target (divHalfAway d.coeff (10 ^ (d.scale - target)))

/-- `round_var`: left of the point at a negative scale. -/
def roundVar (d : Decimal) (rscale : ℤ) : Decimal :=
  if rscale ≥ 0 then d.roundToScale (asU32 rscale)
  else
    let k := asU32 (-rscale)
    fromParts d.neg 0 (divHalfAway d.coeff (10 ^ (d.scale + k)) * 10 ^ k)

/-- The guard scale of `sqrt_var`. -/
def guardScale (v : Decimal) (rscale : ℤ) : ℤ :=
  let kc := max rscale 0 + 1
  if 2 * kc < v.scale then (v.scale + 1) / 2 + 1 else kc

/-- `sqrt_var`, `step` being what the meter says to it. -/
def sqrtVar (v : Decimal) (rscale : ℤ) (step : Except MathError Unit) : Except MathError Decimal :=
  if v.isZero then .ok (fromParts false (asU32 (max rscale 0)) 0)
  else if v.neg then .error .squareRootOfNegative
  else do
    step
    let kc := v.guardScale rscale
    let n := v.coeff * 10 ^ asU32 (2 * kc - v.scale)
    return (fromParts false (asU32 kc) (magIsqrt n)).roundVar rscale

def minSigDigits : ℤ := 16
def decDigits : ℤ := 4
def maxDisplayScale : ℤ := 1000

/-- `nbase_weight`. -/
def nbaseWeight (d : Decimal) : ℤ :=
  if d.isZero then 0 else (d.precision - 1 - d.scale : ℤ) / 4

/-- The result scale of `sqrt`. -/
def sqrtScale (v : Decimal) : ℤ :=
  let sweight := (v.nbaseWeight * decDigits).tdiv 2 + 1
  min (max (max (minSigDigits - sweight) v.scale) 0) maxDisplayScale

/-- `dec_sqrt_metered`. -/
def decSqrt (v : Decimal) (first step : Except MathError Unit) : Except MathError Decimal := do
  first
  let root ← v.sqrtVar v.sqrtScale step
  match root.checkCap with
  | .ok d => return d
  | .error f => throw (.failure f)

theorem lt_newton_step (n : ℕ) {x : ℕ} (hx : 0 < x) :
    n < ((x + n / x) / 2 + 1) * ((x + n / x) / 2 + 1) := by
  have hn : n < (n / x + 1) * x := by
    rw [Nat.mul_comm]
    exact Nat.lt_mul_div_succ n hx
  have hmean : x + n / x + 1 ≤ 2 * ((x + n / x) / 2 + 1) := by omega
  have hsum : 4 * (n / x + 1) * x ≤ (n / x + 1 + x) ^ 2 := four_mul_le_sq_add _ _
  have hsquare := Nat.mul_le_mul hmean hmean
  generalize (x + n / x) / 2 + 1 = y at *
  have hexpand : (n / x + 1 + x) ^ 2 = (x + n / x + 1) * (x + n / x + 1) := by ring
  have hfour : 2 * y * (2 * y) = 4 * (y * y) := by ring
  have hassoc : 4 * (n / x + 1) * x = 4 * ((n / x + 1) * x) := by ring
  omega

/-- The loop descends to the root. -/
theorem newton_eq {n x : ℕ} (hn : 0 < n) (hx : 0 < x) (hlt : n < (x + 1) * (x + 1)) :
    newton n x = Nat.sqrt n := by
  induction x using newton.induct n with
  | case1 x y h ih =>
    rw [newton, if_pos h]
    have hnext := lt_newton_step n hx
    refine ih (Nat.pos_of_ne_zero fun h0 => ?_) hnext
    rw [show (x + n / x) / 2 = 0 from h0] at hnext
    omega
  | case2 x y h =>
    rw [newton, if_neg h, Nat.eq_sqrt]
    have hle : x ≤ n / x := by
      omega
    exact ⟨(Nat.le_div_iff_mul_le hx).1 hle, hlt⟩

/-- `mag_isqrt` is the integer square root. -/
theorem magIsqrt_eq (n : ℕ) : magIsqrt n = Nat.sqrt n := by
  rw [magIsqrt]
  split
  · rename_i h
    rw [h, Nat.sqrt_zero]
  · rename_i h
    have hdigits : n < 10 ^ (Nat.digits 10 n).length := Nat.lt_base_pow_length_digits (by decide)
    generalize (Nat.digits 10 n).length = len at *
    have hpow : 10 ^ len ≤ 10 ^ ((len + 1) / 2) * 10 ^ ((len + 1) / 2) := by
      rw [← pow_add]
      exact Nat.pow_le_pow_right (by decide) (by omega)
    have hpos := Nat.pow_pos (n := (len + 1) / 2) (show 0 < 10 by decide)
    apply newton_eq (Nat.pos_of_ne_zero h) hpos
    have hsucc := Nat.mul_le_mul (Nat.le_succ (10 ^ ((len + 1) / 2))) (Nat.le_succ (10 ^ ((len + 1) / 2)))
    rw [Nat.succ_eq_add_one] at hsucc
    omega

theorem divHalfAway_eq (n : ℕ) {h : ℕ} (hh : 0 < h) : divHalfAway n (2 * h) = (n + h) / (2 * h) := by
  have hsplit := Nat.div_add_mod n (2 * h)
  have hmod := Nat.mod_lt n (show 0 < 2 * h by omega)
  have hsum : (n + h) / (2 * h) = n / (2 * h) + (n % (2 * h) + h) / (2 * h) := by
    conv_lhs => rw [← hsplit, Nat.add_assoc, Nat.mul_add_div (by omega)]
  rw [divHalfAway, hsum]
  generalize n % (2 * h) = r at *
  split
  · have hup : (r + h) / (2 * h) = 1 := Nat.div_eq_of_lt_le (by omega) (by omega)
    rw [hup]
  · have hdown : (r + h) / (2 * h) = 0 := Nat.div_eq_of_lt (by omega)
    rw [hdown, Nat.add_zero]

/-- Digits cut off a floor do not change what it rounds to. -/
theorem divHalfAway_floor {y : ℝ} (hy : 0 ≤ y) {j : ℕ} (hj : 0 < j) :
    divHalfAway ⌊y⌋₊ (10 ^ j) = ⌊y / 10 ^ j + 1 / 2⌋₊ := by
  obtain ⟨i, rfl⟩ := Nat.exists_eq_add_of_le' hj
  have heven : 10 ^ (i + 1) = 2 * (5 * 10 ^ i) := by
    rw [pow_succ]
    ring
  have hhalf : y / 10 ^ (i + 1) + 1 / 2 = (y + (5 * 10 ^ i : ℕ)) / (2 * (5 * 10 ^ i) : ℕ) := by
    push_cast
    rw [pow_succ]
    field_simp
    ring
  rw [hhalf, Nat.floor_div_natCast, Nat.floor_add_natCast hy, heven, divHalfAway_eq _ (by positivity)]

/-- The nearest multiple of a power of ten, the one away from zero of two: for numbers that are not negative. -/
noncomputable def roundedAt (x : ℝ) (rscale : ℤ) : ℝ := ⌊x * 10 ^ rscale + 1 / 2⌋₊ * 10 ^ (-rscale)

theorem asU32_eq {v : ℤ} (hlo : 0 ≤ v) (hhi : v < 4294967296) : asU32 v = v.toNat := by
  rw [asU32, Int.emod_eq_of_lt hlo hhi]

theorem toRat_positive {d : Decimal} (h : d.neg = false) : (d.toRat : ℝ) = d.coeff / 10 ^ d.scale := by
  rw [toRat, h]
  push_cast
  ring

variable {rscale kc : ℤ}

/-- Rounding the floor at a guard scale rounds the number itself. -/
theorem roundVar_floor {x : ℝ} (hx : 0 ≤ x) (hkc : 0 ≤ kc) (hguard : rscale < kc)
    (hlo : -2 ^ 30 ≤ rscale) (hhi : rscale ≤ 2 ^ 30) :
    ((fromParts false kc.toNat ⌊x * 10 ^ kc⌋₊).roundVar rscale).scale = rscale.toNat ∧
      (((fromParts false kc.toNat ⌊x * 10 ^ kc⌋₊).roundVar rscale).toRat : ℝ) = roundedAt x rscale := by
  have hten : (10 : ℝ) ≠ 0 := by norm_num
  have hy : 0 ≤ x * (10 : ℝ) ^ kc := mul_nonneg hx (zpow_nonneg (by norm_num) kc)
  -- the digits cut off
  have hcut : ∀ j : ℕ, (j : ℤ) = kc - rscale →
      divHalfAway ⌊x * 10 ^ kc⌋₊ (10 ^ j) = ⌊x * 10 ^ rscale + 1 / 2⌋₊ := by
    intro j hj
    rw [divHalfAway_floor hy (by omega), mul_div_assoc, ← zpow_natCast, ← zpow_sub₀ hten, hj, sub_sub_cancel]
  rw [roundVar]
  split
  · rename_i hpos
    rw [asU32_eq hpos (by omega), roundToScale, if_neg (by simp only [fromParts]; omega)]
    refine ⟨rfl, ?_⟩
    rw [toRat_positive rfl, roundedAt]
    change ((divHalfAway ⌊x * 10 ^ kc⌋₊ (10 ^ (kc.toNat - rscale.toNat)) : ℕ) : ℝ) / 10 ^ rscale.toNat = _
    rw [hcut _ (by omega), zpow_neg, ← div_eq_mul_inv, ← zpow_natCast, Int.toNat_of_nonneg hpos]
  · rename_i hneg
    have hk : asU32 (-rscale) = (-rscale).toNat := asU32_eq (by omega) (by omega)
    rw [hk]
    refine ⟨by simp only [fromParts]; omega, ?_⟩
    rw [toRat_positive rfl, roundedAt]
    change ((divHalfAway ⌊x * 10 ^ kc⌋₊ (10 ^ (kc.toNat + (-rscale).toNat)) * 10 ^ (-rscale).toNat : ℕ) : ℝ) /
      10 ^ 0 = _
    rw [hcut _ (by omega), pow_zero, div_one, Nat.cast_mul, Nat.cast_pow, Nat.cast_ofNat, ← zpow_natCast,
      Int.toNat_of_nonneg (by omega)]

/-- The scaled coefficient is the square of the scaled root. -/
theorem floor_root {v : Decimal} (h : v.neg = false) (hkc : v.scale ≤ 2 * kc) :
    Nat.sqrt (v.coeff * 10 ^ (2 * kc - v.scale).toNat) = ⌊√(v.toRat : ℝ) * 10 ^ kc⌋₊ := by
  have hten : (0 : ℝ) < 10 := by norm_num
  have hscaled : ((v.coeff * 10 ^ (2 * kc - v.scale).toNat : ℕ) : ℝ) = v.toRat * (10 ^ kc) ^ 2 := by
    rw [toRat_positive h, Nat.cast_mul, Nat.cast_pow, Nat.cast_ofNat, ← zpow_natCast, ← zpow_natCast,
      Int.toNat_of_nonneg (by omega), zpow_sub₀ hten.ne', ← zpow_natCast, ← zpow_mul]
    rw [Int.mul_comm 2 kc, Nat.cast_ofNat]
    ring
  rw [← Real.nat_floor_real_sqrt_eq_nat_sqrt, hscaled, Real.sqrt_mul' _ (sq_nonneg _),
    Real.sqrt_sq (zpow_nonneg hten.le kc)]

theorem guardScale_bounds (v : Decimal) (hs : v.scale ≤ 2 ^ 30) (hhi : rscale ≤ 2 ^ 30) :
    rscale < v.guardScale rscale ∧ 0 ≤ v.guardScale rscale ∧ v.scale ≤ 2 * v.guardScale rscale ∧
      v.guardScale rscale ≤ 2 ^ 30 + 1 := by
  rw [guardScale]
  split <;> omega

/-- What `sqrt_var` returns is the root rounded once; the meter's is its only error. -/
theorem sqrtVar_eq {v : Decimal} (h : v.neg = false) (hs : v.scale ≤ 2 ^ 30)
    (hlo : -2 ^ 30 ≤ rscale) (hhi : rscale ≤ 2 ^ 30) :
    ∃ d : Decimal, d.scale = rscale.toNat ∧ (d.toRat : ℝ) = roundedAt √(v.toRat : ℝ) rscale ∧
      v.sqrtVar rscale (.ok ()) = .ok d ∧
      ∀ step, v.sqrtVar rscale step = .ok d ∨ ∃ e, step = .error e ∧ v.sqrtVar rscale step = .error e := by
  by_cases hzero : v.isZero = true
  · have hcoeff : v.coeff = 0 := beq_iff_eq.1 hzero
    have hroot : √(v.toRat : ℝ) = 0 := by
      rw [toRat_positive h, hcoeff, Nat.cast_zero, zero_div, Real.sqrt_zero]
    have hreturn : ∀ step, v.sqrtVar rscale step = .ok (fromParts false (asU32 (max rscale 0)) 0) := by
      intro step
      rw [sqrtVar, if_pos hzero]
    refine ⟨_, ?_, ?_, hreturn _, fun step => Or.inl (hreturn step)⟩
    · rw [asU32_eq (by omega) (by omega)]
      simp only [fromParts]
      omega
    · have hhalf : ⌊(0 : ℝ) + 1 / 2⌋₊ = 0 := Nat.floor_eq_zero.2 (by norm_num)
      rw [toRat_positive rfl, hroot, roundedAt, zero_mul, hhalf]
      simp only [fromParts, Nat.cast_zero, zero_div, zero_mul]
  · obtain ⟨hguard, hpos, htwice, hmax⟩ := guardScale_bounds v hs hhi
    have hroot := roundVar_floor (Real.sqrt_nonneg (v.toRat : ℝ)) hpos hguard hlo hhi
    have hreturn : ∀ step, v.sqrtVar rscale step = step >>= fun _ =>
        .ok ((fromParts false (v.guardScale rscale).toNat
          ⌊√(v.toRat : ℝ) * 10 ^ v.guardScale rscale⌋₊).roundVar rscale) := by
      intro step
      rw [sqrtVar, if_neg hzero, h, if_neg Bool.false_ne_true]
      dsimp only
      rw [asU32_eq hpos (by omega), asU32_eq (by omega) (by omega), magIsqrt_eq, floor_root h htwice]
      rfl
    refine ⟨_, hroot.1, hroot.2, hreturn _, fun step => ?_⟩
    cases step with
    | ok => exact Or.inl (hreturn _)
    | error e => exact Or.inr ⟨e, rfl, hreturn _⟩

theorem sqrtScale_bounds (v : Decimal) : 0 ≤ v.sqrtScale ∧ v.sqrtScale ≤ 1000 := by
  rw [sqrtScale, maxDisplayScale]
  omega

/-- Square roots are correctly rounded: `mag_isqrt` is the floor of the root, `sqrt_var` rounds the root half
    away from zero at any scale it is called with, and `sqrt` does so at its own scale, or the result is past
    the cap. -/
theorem sqrt_rounded {v : Decimal} (h : v.neg = false) (hs : v.scale ≤ 2 ^ 30) {rscale : ℤ}
    (hlo : -2 ^ 30 ≤ rscale) (hhi : rscale ≤ 2 ^ 30) :
    (∀ n, magIsqrt n = ⌊√(n : ℝ)⌋₊) ∧
      (∃ d : Decimal, d.scale = rscale.toNat ∧ (d.toRat : ℝ) = roundedAt √(v.toRat : ℝ) rscale ∧
        v.sqrtVar rscale (.ok ()) = .ok d ∧
        ∀ step, v.sqrtVar rscale step = .ok d ∨ ∃ e, step = .error e ∧ v.sqrtVar rscale step = .error e) ∧
      ∃ d : Decimal, d.scale = v.sqrtScale.toNat ∧
        (d.toRat : ℝ) = roundedAt √(v.toRat : ℝ) v.sqrtScale ∧
        ((d.InCaps ∧ v.decSqrt (.ok ()) (.ok ()) = .ok d) ∨
          (¬d.InCaps ∧ ∃ f, v.decSqrt (.ok ()) (.ok ()) = .error (.failure f))) := by
  refine ⟨fun n => ?_, sqrtVar_eq h hs hlo hhi, ?_⟩
  · rw [magIsqrt_eq, Real.nat_floor_real_sqrt_eq_nat_sqrt]
  · have hscale := sqrtScale_bounds v
    obtain ⟨d, hd, hvalue, hvar, -⟩ := sqrtVar_eq h hs (show -2 ^ 30 ≤ v.sqrtScale by omega) (by omega)
    refine ⟨d, hd, hvalue, ?_⟩
    have hreturn : v.decSqrt (.ok ()) (.ok ()) = match d.checkCap with
        | .ok d => .ok d
        | .error f => .error (.failure f) := by
      rw [decSqrt, hvar]
      rfl
    rw [hreturn, checkCap]
    by_cases hcap : d.InCaps
    · left
      rw [if_pos hcap]
      exact ⟨hcap, rfl⟩
    · right
      rw [if_neg hcap]
      exact ⟨hcap, _, rfl⟩

/-- The root of 225, to the tens. -/
theorem sqrt_rounded_tens : ∃ d : Decimal, (fromParts false 0 225).sqrtVar (-1) (.ok ()) = .ok d ∧
    (d.toRat : ℝ) = 20 := by
  obtain ⟨-, ⟨d, -, hvalue, hvar, -⟩, -⟩ :=
    @sqrt_rounded (fromParts false 0 225) rfl (by decide) (-1) (by decide) (by decide)
  refine ⟨d, hvar, ?_⟩
  have hroot : √((fromParts false 0 225).toRat : ℝ) = 15 := by
    rw [toRat_positive rfl, show (fromParts false 0 225).coeff = 225 from rfl,
      show (fromParts false 0 225).scale = 0 from rfl, Real.sqrt_eq_iff_mul_self_eq_of_pos (by norm_num)]
    norm_num
  have hfloor : ⌊(15 : ℝ) * 10 ^ (-1 : ℤ) + 1 / 2⌋₊ = 2 := by
    rw [Nat.floor_eq_iff (by norm_num)]
    norm_num
  rw [hvalue, hroot, roundedAt, hfloor]
  norm_num

end Jed.Decimal
