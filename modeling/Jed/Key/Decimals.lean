import Jed.Key.Scalars

/-!
# Keys of decimals

A magnitude is a fraction of base-100 digits, not below 1/100, times a power of 100; so it compares
as its exponent and then as its digits, which is what the body of a key is.
-/

namespace Jed.Key

open KeyCodes Positional

theorem frac_pairs (ds : List ℕ) : frac 100 (pairs ds) = frac 10 ds := by
  induction ds using pairs.induct with
  | case1 => rfl
  | case2 x =>
    simp only [pairs, frac, Nat.cast_mul]
    norm_num
    ring
  | case3 x y rest ih =>
    simp only [pairs, frac, ih, Nat.cast_add, Nat.cast_mul]
    norm_num
    ring

theorem pairs_lt {ds : List ℕ} (h : ∀ d ∈ ds, d < 10) : ∀ v ∈ pairs ds, v < 100 := by
  induction ds using pairs.induct with
  | case1 => simp [pairs]
  | case2 x =>
    have := h x (by simp)
    intro v hv
    obtain rfl : v = x * 10 := by simpa [pairs] using hv
    omega
  | case3 x y rest ih =>
    have hx := h x (by simp)
    have hy := h y (by simp)
    intro v hv
    rcases List.mem_cons.mp hv with rfl | hv
    · omega
    · exact ih (fun d hd => h d (by simp [hd])) v hv

theorem pairs_getLast? {ds : List ℕ} (h : ∀ d ∈ ds.getLast?, d ≠ 0) :
    ∀ v ∈ (pairs ds).getLast?, v ≠ 0 := by
  induction ds using pairs.induct with
  | case1 => simp [pairs]
  | case2 x =>
    have := h x (by simp)
    simp [pairs, this]
  | case3 x y rest ih =>
    cases rest with
    | nil =>
      have hy : y ≠ 0 := h y (by simp)
      intro v hv
      obtain rfl : x * 10 + y = v := by simpa [pairs] using hv
      omega
    | cons z rest =>
      have hne : pairs (z :: rest) ≠ [] := by cases rest <;> simp [pairs]
      intro v hv
      rw [pairs, List.getLast?_cons_of_ne_nil hne] at hv
      exact ih (fun d hd => h d (by simpa using hd)) v hv

/-- The digits of a coefficient that count. -/
def significant (d : Decimal) : List ℕ := popZeros (magToDecimalStr d.coeff)

/-- The place of the point before them. -/
def decpt (d : Decimal) : ℤ := (d.precision : ℤ) - d.scale

/-- The base-100 exponent. -/
def exponent (d : Decimal) : ℤ := (decpt d + 1) / 2

/-- The base-100 digits. -/
def mantissa (d : Decimal) : List ℕ :=
  pairs (if decpt d % 2 = 1 then 0 :: significant d else significant d)

theorem decimalBody_eq (d : Decimal) :
    decimalBody d = encodeInt .int32 (exponent d) ++
      ((mantissa d).map (fun v => UInt8.ofNat (v + 1)) ++ [0x00]) := by
  rw [← List.append_assoc]
  rfl

section Nonzero

variable {d : Decimal} (hd : d.coeff ≠ 0)
include hd

theorem significant_lt : ∀ x ∈ significant d, x < 10 := by
  intro x hx
  have hx := (List.rdropWhile_prefix _ _).subset hx
  rw [magToDecimalStr, if_neg hd] at hx
  exact Nat.digits_lt_base (by decide) (List.mem_reverse.mp hx)

omit hd in
theorem significant_getLast? : ∀ x ∈ (significant d).getLast?, x ≠ 0 := by
  intro x hx
  obtain ⟨hne, rfl⟩ := List.mem_getLast?_eq_getLast hx
  simpa [significant, popZeros] using List.rdropWhile_last_not _ _ hne

theorem frac_significant : frac 10 (significant d) = d.coeff / 10 ^ d.precision := by
  rw [significant, popZeros, frac_rdropWhile, magToDecimalStr, if_neg hd]
  exact frac_digits (by decide) d.coeff

theorem frac_significant_ge : 1 / 10 ≤ frac 10 (significant d) := by
  rw [frac_significant hd, div_le_div_iff₀ (by norm_num) (by positivity), one_mul]
  have hlen : 10 ^ d.precision ≤ 10 * d.coeff := Nat.base_pow_length_digits_le 10 d.coeff (by decide) hd
  rw [mul_comm]
  exact_mod_cast hlen

theorem mantissa_lt : ∀ v ∈ mantissa d, v < 100 := by
  refine pairs_lt fun x hx => ?_
  split at hx
  · rcases List.mem_cons.mp hx with rfl | hx
    · decide
    · exact significant_lt hd x hx
  · exact significant_lt hd x hx

theorem significant_ne_nil : significant d ≠ [] := by
  intro h
  have := frac_significant_ge hd
  rw [h, frac] at this
  norm_num at this

theorem mantissa_getLast? : ∀ v ∈ (mantissa d).getLast?, v ≠ 0 := by
  refine pairs_getLast? fun x hx => ?_
  split at hx
  · rw [List.getLast?_cons_of_ne_nil (significant_ne_nil hd)] at hx
    exact significant_getLast? x hx
  · exact significant_getLast? x hx

theorem frac_mantissa_lt : frac 100 (mantissa d) < 1 :=
  frac_lt_one (by decide) (mantissa_lt hd)

theorem frac_mantissa_ge : 1 / 100 ≤ frac 100 (mantissa d) := by
  have h := frac_significant_ge hd
  rw [mantissa, frac_pairs]
  split
  · rw [frac, le_div_iff₀ (by norm_num)]
    norm_num at h ⊢
    linarith
  · linarith

/-- A magnitude is its base-100 digits behind the point, moved by its exponent. -/
theorem mag_eq : d.mag = frac 100 (mantissa d) * 100 ^ exponent d := by
  have hten : (10 : ℚ) ≠ 0 := by norm_num
  have hdec : d.mag = frac 10 (significant d) * 10 ^ decpt d := by
    rw [frac_significant hd, Decimal.mag, decpt, zpow_sub₀ hten, zpow_natCast, zpow_natCast]
    field_simp
  have hpow : (100 : ℚ) ^ exponent d = 10 ^ (2 * exponent d) := by
    rw [zpow_mul]
    norm_num
  rw [hdec, hpow, mantissa, frac_pairs]
  split
  · rename_i hodd
    rw [show 2 * exponent d = decpt d + 1 by unfold exponent; omega, zpow_add_one₀ hten, frac]
    push_cast
    ring
  · rename_i heven
    rw [show 2 * exponent d = decpt d by unfold exponent; omega]

end Nonzero

/-- Magnitudes compare as their exponents, and then as their digits. -/
theorem compare_mag {a b : Decimal} (ha : a.coeff ≠ 0) (hb : b.coeff ≠ 0) :
    compare a.mag b.mag =
      (compare (exponent a) (exponent b)).then
        (compare (frac 100 (mantissa a)) (frac 100 (mantissa b))) := by
  have hlt : ∀ {x y : Decimal}, x.coeff ≠ 0 → y.coeff ≠ 0 → exponent x < exponent y →
      x.mag < y.mag := by
    intro x y hx hy h
    have hpos : (0 : ℚ) < 100 ^ exponent x := by positivity
    calc x.mag = frac 100 (mantissa x) * 100 ^ exponent x := mag_eq hx
      _ < 1 * 100 ^ exponent x := mul_lt_mul_of_pos_right (frac_mantissa_lt hx) hpos
      _ = 1 / 100 * 100 ^ (exponent x + 1) := by rw [zpow_add_one₀ (by norm_num)]; ring
      _ ≤ 1 / 100 * 100 ^ exponent y :=
        mul_le_mul_of_nonneg_left (zpow_le_zpow_right₀ (by norm_num) h) (by norm_num)
      _ ≤ frac 100 (mantissa y) * 100 ^ exponent y :=
        mul_le_mul_of_nonneg_right (frac_mantissa_ge hy) (by positivity)
      _ = y.mag := (mag_eq hy).symm
  rcases lt_trichotomy (exponent a) (exponent b) with h | h | h
  · rw [compare_lt_iff_lt.mpr h]
    exact compare_lt_iff_lt.mpr (hlt ha hb h)
  · rw [compare_eq_iff_eq.mpr h, mag_eq ha, mag_eq hb, h, ← cmp_eq_compare, ← cmp_eq_compare]
    exact (strictMono_mul_right_of_pos (by positivity)).cmp_map_eq _ _
  · rw [compare_gt_iff_gt.mpr h]
    exact compare_gt_iff_gt.mpr (hlt hb ha h)

theorem exponent_mem {d : Decimal} (h : d.InCaps) :
    -2 ^ (4 * 8 - 1) ≤ exponent d ∧ exponent d < 2 ^ (4 * 8 - 1) := by
  obtain ⟨hint, hscale⟩ := h
  unfold Decimal.maxIntDigits at hint
  unfold Decimal.maxScale at hscale
  unfold exponent decpt
  constructor
  · omega
  · omega

/-- The bodies of keys code the order of magnitudes. -/
theorem codes_decimalBody {a b : Decimal} (ha : a.coeff ≠ 0) (hb : b.coeff ≠ 0) (hca : a.InCaps)
    (hcb : b.InCaps) : Codes (compare a.mag b.mag) (decimalBody a) (decimalBody b) := by
  have hexp := @codes_encodeInt .int32 (by decide) _ _ (exponent_mem hca) (exponent_mem hcb)
  have hdigit : ∀ v ∈ mantissa a, ∀ w ∈ mantissa b,
      Codes (compare v w) [UInt8.ofNat (v + 1)] [UInt8.ofNat (w + 1)] := by
    intro v hv w hw
    have hv := mantissa_lt ha v hv
    have hw := mantissa_lt hb w hw
    refine (codes_single v w).map_on (f := fun v => UInt8.ofNat (v + 1)) (d := Set.Iio 100) ?_
      (by simpa using hv) (by simpa using hw)
    intro x hx y hy h
    have hx : x < 100 := hx
    have hy : y < 100 := hy
    exact ofNat_strictMonoOn (show x + 1 < 256 by omega) (show y + 1 < 256 by omega)
      (Nat.succ_lt_succ h)
  have hfront : ∀ v ∈ mantissa a ++ mantissa b,
      ∃ x s, [UInt8.ofNat (v + 1)] = x :: s ∧ (0x00 : UInt8) < x := by
    intro v hv
    have hlt : v < 100 := by
      rcases List.mem_append.mp hv with hv | hv
      · exact mantissa_lt ha v hv
      · exact mantissa_lt hb v hv
    exact ⟨_, _, rfl, ofNat_strictMonoOn (show 0 < 256 by decide) (show v + 1 < 256 by omega)
      (Nat.succ_pos v)⟩
  have hbody := codes_terminated hdigit hfront fun _ => codes_self []
  rw [listCompare_frac (by decide) (mantissa_lt ha) (mantissa_lt hb) (mantissa_getLast? ha)
    (mantissa_getLast? hb), Ordering.then_eq] at hbody
  rw [decimalBody_eq, decimalBody_eq, compare_mag ha hb]
  refine hexp.append fun _ => ?_
  rwa [List.map_eq_flatMap, List.map_eq_flatMap]

theorem complement_strictAnti : StrictAnti fun b : UInt8 => ~~~b := by
  intro x y h
  simp only [UInt8.lt_iff_toNat_lt, UInt8.toNat_not] at h ⊢
  have : x.toNat < 256 := x.toNat_lt
  have : y.toNat < 256 := y.toNat_lt
  have : UInt8.size = 256 := rfl
  omega

/-- How a decimal's sign shows in its number and in its key. -/
inductive Signed (d : Decimal) : ℚ → Bytes → Prop where
  | zero : Signed d 0 [0x04]
  | negative : d.coeff ≠ 0 → 0 < d.mag → Signed d (-d.mag) (0x03 :: (decimalBody d).map (~~~ ·))
  | positive : d.coeff ≠ 0 → 0 < d.mag → Signed d d.mag (0x05 :: decimalBody d)

theorem signed (d : Decimal) : Signed d d.toRat (encodeDecimal d) := by
  rw [Decimal.toRat_eq, encodeDecimal, Decimal.isZero]
  by_cases h0 : d.coeff = 0
  · have hneg : d.neg = false := by
      by_contra h
      exact d.sign (Bool.not_eq_false _ ▸ h) h0
    have hmag : d.mag = 0 := by rw [Decimal.mag, h0, Nat.cast_zero, zero_div]
    rw [hneg, h0, hmag]
    exact .zero
  · have hmag : 0 < d.mag := by
      unfold Decimal.mag
      positivity
    rw [beq_false_of_ne h0]
    cases hneg : d.neg
    · exact .positive h0 hmag
    · exact .negative h0 hmag

/-- The keys of decimals code the order of the numbers they denote. -/
theorem codes_encodeDecimal {a b : Decimal} (ha : a.InCaps) (hb : b.InCaps) :
    Codes (a.cmpValue b) (encodeDecimal a) (encodeDecimal b) := by
  rw [Decimal.cmpValue_eq]
  have hsa := signed a
  have hsb := signed b
  generalize a.toRat = x at *
  generalize b.toRat = y at *
  generalize encodeDecimal a = s at *
  generalize encodeDecimal b = t at *
  have hlt : ∀ {u v : Bytes} {p q : UInt8}, x < y → p < q → s = p :: u → t = q :: v →
      Codes (compare x y) s t := by
    rintro u v p q hxy hpq rfl rfl
    rw [compare_lt_iff_lt.mpr hxy]
    exact codes_lt hpq u v
  have hgt : ∀ {u v : Bytes} {p q : UInt8}, y < x → q < p → s = p :: u → t = q :: v →
      Codes (compare x y) s t := by
    rintro u v p q hxy hpq rfl rfl
    rw [compare_gt_iff_gt.mpr hxy]
    exact codes_gt hpq u v
  cases hsa with
  | zero =>
    cases hsb with
    | zero =>
      rw [compare_eq_iff_eq.mpr rfl]
      exact codes_self _
    | negative _ h => exact hgt (neg_lt_zero.mpr h) (by decide) rfl rfl
    | positive _ h => exact hlt h (by decide) rfl rfl
  | negative ha0 hma =>
    cases hsb with
    | zero => exact hlt (neg_lt_zero.mpr hma) (by decide) rfl rfl
    | negative hb0 hmb =>
      rw [Decimal.compare_neg]
      exact ((codes_decimalBody ha0 hb0 ha hb).map_anti complement_strictAnti).cons _
    | positive _ h => exact hlt ((neg_lt_zero.mpr hma).trans h) (by decide) rfl rfl
  | positive ha0 hma =>
    cases hsb with
    | zero => exact hgt hma (by decide) rfl rfl
    | negative _ h => exact hgt ((neg_lt_zero.mpr h).trans hma) (by decide) rfl rfl
    | positive hb0 hmb => exact (codes_decimalBody ha0 hb0 ha hb).cons _

end Jed.Key
