import Jed.Format.Printf
import Mathlib.Algebra.Order.Field.Basic
import Mathlib.Data.Rat.Floor
import Mathlib.Tactic.FieldSimp
import Mathlib.Tactic.Positivity

/-!
# Printf conversions are correctly rounded

The digits of `c_format_f` and `c_format_e` against the rational number that the double is, and the indices
of the layout helpers.
-/

namespace Jed.Format

open DigitString

/-- The magnitude of a finite double. -/
def Float64.magnitude (v : Float64) : ℚ := v.mant * 2 ^ v.exp

/-- Stripping zeros keeps the number. -/
theorem canonical_spec (coeff scale : ℕ) (h : coeff ≠ 0) : (canonical coeff scale).1 ≠ 0 ∧
    ((canonical coeff scale).1 : ℚ) / 10 ^ (canonical coeff scale).2 = coeff / 10 ^ scale := by
  induction scale generalizing coeff with
  | zero => exact ⟨h, rfl⟩
  | succ scale ih =>
    rw [canonical]
    by_cases hmod : coeff % 10 = 0
    · rw [if_pos hmod]
      have hdiv : coeff = 10 * (coeff / 10) := by omega
      obtain ⟨hne, heq⟩ := ih (coeff / 10) (by omega)
      refine ⟨hne, heq.trans ?_⟩
      have hcast : (coeff : ℚ) = 10 * (coeff / 10 : ℕ) := by exact_mod_cast hdiv
      rw [hcast, pow_succ]
      field_simp
    · rw [if_neg hmod]
      exact ⟨h, rfl⟩

/-- The coefficient and scale of a finite double. -/
theorem fromFloat64_spec (v : Float64) :
    ((fromFloat64 v).1 : ℚ) / 10 ^ (fromFloat64 v).2 = v.magnitude ∧
      ((fromFloat64 v).1 = 0 ↔ v.mant = 0) := by
  rw [fromFloat64, Float64.magnitude]
  by_cases hmant : v.mant = 0
  · rw [if_pos hmant, hmant]
    exact ⟨by simp, by simp⟩
  · rw [if_neg hmant]
    by_cases hexp : v.exp ≥ 0
    · rw [if_pos hexp]
      obtain ⟨n, hn⟩ := Int.eq_ofNat_of_zero_le hexp
      rw [hn]
      refine ⟨?_, ?_⟩ <;> simp [hmant]
    · rw [if_neg hexp]
      obtain ⟨n, hn⟩ : ∃ n : ℕ, -v.exp = n := Int.eq_ofNat_of_zero_le (by omega)
      obtain ⟨hne, heq⟩ := canonical_spec (v.mant * 5 ^ n) n
        (Nat.mul_ne_zero hmant (Nat.pow_pos (by decide)).ne')
      rw [hn, Int.toNat_natCast]
      refine ⟨heq.trans ?_, ⟨fun h => absurd h hne, fun h => absurd h hmant⟩⟩
      rw [show v.exp = -(n : ℤ) by omega, zpow_neg, zpow_natCast, Nat.cast_mul, Nat.cast_pow,
        Nat.cast_ofNat, show (10 : ℚ) = 2 * 5 by norm_num, mul_pow]
      field_simp

theorem digitsOf_spec {n : ℕ} (h : n ≠ 0) : IsDigits (digitsOf n) ∧ value (digitsOf n) = n ∧
    digitsOf n ≠ [] ∧ (digitsOf n).head? ≠ some 0 := by
  rw [digitsOf, if_neg h]
  have hne : Nat.digits 10 n ≠ [] := Nat.digits_ne_nil_iff_ne_zero.2 h
  refine ⟨fun d hd => ?_, ?_, ?_, ?_⟩
  · exact Nat.digits_lt_base (by decide) (List.mem_reverse.1 hd)
  · rw [value, List.reverse_reverse, Nat.ofDigits_digits]
  · rwa [Ne, List.reverse_eq_nil_iff]
  · rw [List.head?_reverse, List.getLast?_eq_some_getLast hne]
    intro h0
    exact Nat.getLast_digit_ne_zero 10 h (Option.some.inj h0)

/-- The exact digits of a double: none of zero, and no leading zero. -/
theorem exactDigits_spec (v : Float64) : IsDigits (exactDigits v).1 ∧
    ((value (exactDigits v).1 : ℚ) / 10 ^ (exactDigits v).2 = v.magnitude) ∧
    ((exactDigits v).1 = [] ↔ v.mant = 0) ∧ (exactDigits v).1.head? ≠ some 0 := by
  obtain ⟨hvalue, hzero⟩ := fromFloat64_spec v
  rw [exactDigits, canonicalDigits]
  by_cases h : (fromFloat64 v).1 = 0
  · rw [if_pos h]
    rw [h] at hvalue
    dsimp only
    rw [if_pos rfl]
    refine ⟨nofun, ?_, ⟨fun _ => hzero.1 h, fun _ => rfl⟩, nofun⟩
    rw [← hvalue]
    simp [value_nil]
  · rw [if_neg h]
    obtain ⟨hne, hcanon⟩ := canonical_spec (fromFloat64 v).1 (fromFloat64 v).2 h
    obtain ⟨hdigits, hval, hnil, hhead⟩ := digitsOf_spec hne
    have hnot : digitsOf (canonical (fromFloat64 v).1 (fromFloat64 v).2).1 ≠ [0] := by
      intro h0
      rw [h0] at hhead
      exact hhead rfl
    dsimp only
    rw [if_neg hnot]
    dsimp only
    refine ⟨hdigits, ?_, ⟨fun h0 => absurd h0 hnil, fun h0 => absurd (hzero.2 h0) h⟩, hhead⟩
    rw [hval, hcanon, hvalue]

/-- The natural number nearest to a rational one, ties to even. -/
def Nearest (x : ℚ) (n : ℕ) : Prop := |x - n| ≤ 1 / 2 ∧ (|x - n| = 1 / 2 → n % 2 = 0)

theorem nearest_of_isNearestEven {num den n : ℕ} (hden : 0 < den) (h : IsNearestEven num den n) {x : ℚ}
    (hx : x = num / den) : Nearest x n := by
  obtain ⟨hhigh, hlow, htie⟩ := h
  have hpos : (0 : ℚ) < den := by exact_mod_cast hden
  have hnum : (num : ℚ) = x * den := by
    rw [hx]
    field_simp
  have hhigh' : 2 * (x * den) ≤ (2 * n + 1) * den := by
    rw [← hnum]
    exact_mod_cast hhigh
  have hlow' : 2 * n * den ≤ 2 * (x * den) + den := by
    rw [← hnum]
    exact_mod_cast hlow
  have hle : 2 * x ≤ 2 * n + 1 := le_of_mul_le_mul_right (by linarith) hpos
  have hge : 2 * n ≤ 2 * x + 1 := le_of_mul_le_mul_right (by linarith) hpos
  refine ⟨abs_le.2 ⟨by linarith, by linarith⟩, fun heq => htie ?_⟩
  rcases (abs_eq (by norm_num)).1 heq with hup | hdown
  · left
    have : 2 * (num : ℚ) = (2 * n + 1) * den := by
      rw [hnum, show x = n + 1 / 2 by linarith]
      ring
    exact_mod_cast this
  · right
    have : 2 * (n : ℚ) * den = 2 * num + den := by
      rw [hnum, show x = n - 1 / 2 by linarith]
      ring
    exact_mod_cast this

theorem isNearestEven_mul {num den n k : ℕ} (hk : 0 < k) (h : IsNearestEven num den n) :
    IsNearestEven (num * k) (den * k) n := by
  obtain ⟨hhigh, hlow, htie⟩ := h
  have hnum : 2 * (num * k) = 2 * num * k := by ring
  have hden : (2 * n + 1) * (den * k) = (2 * n + 1) * den * k := by ring
  have hden' : 2 * n * (den * k) = 2 * n * den * k := by ring
  have hsum : 2 * num * k + den * k = (2 * num + den) * k := by ring
  rw [IsNearestEven, hnum, hden, hden', hsum]
  refine ⟨Nat.mul_le_mul_right k hhigh, Nat.mul_le_mul_right k hlow, fun hor => htie ?_⟩
  exact hor.imp (Nat.eq_of_mul_eq_mul_right hk) (Nat.eq_of_mul_eq_mul_right hk)

theorem isNearestEven_exact {num den n : ℕ} (hden : 0 < den) (h : num = n * den) :
    IsNearestEven num den n := by
  have hone : (2 * n + 1) * den = 2 * (n * den) + den := by ring
  have htwo : 2 * n * den = 2 * (n * den) := by ring
  rw [IsNearestEven, hone, htwo, h]
  omega

variable {c : List ℕ} {s p : ℕ}

/-- Rounded digits with their carry in front. -/
theorem carried_spec {keep : ℕ} (h : IsDigits c) (hkeep : keep < c.length) :
    IsDigits (if (roundHalfEven c keep).2 then 1 :: (roundHalfEven c keep).1
      else (roundHalfEven c keep).1) ∧
      IsNearestEven (value c) (10 ^ (c.length - keep))
        (value (if (roundHalfEven c keep).2 then 1 :: (roundHalfEven c keep).1
          else (roundHalfEven c keep).1)) := by
  obtain ⟨hlen, hdigits, -, hnearest⟩ := roundHalfEven_spec h hkeep
  by_cases hcarry : (roundHalfEven c keep).2 = true
  · rw [if_pos hcarry] at hnearest ⊢
    refine ⟨?_, ?_⟩
    · rintro d hd
      rcases List.mem_cons.1 hd with rfl | hd
      · decide
      · exact hdigits d hd
    · rw [value_cons, hlen, Nat.one_mul, Nat.add_comm]
      exact hnearest
  · rw [if_neg hcarry] at hnearest ⊢
    exact ⟨hdigits, hnearest⟩

/-- The scaled digits are the number times `10 ^ p`, rounded. -/
theorem scaledDigits_spec (h : IsDigits c) : IsDigits (scaledDigits c s p) ∧
    IsNearestEven (value c * 10 ^ p) (10 ^ s) (value (scaledDigits c s p)) := by
  have hpow : ∀ n, 0 < 10 ^ n := fun n => Nat.pow_pos (by decide)
  rw [scaledDigits]
  by_cases hnil : c = []
  · rw [if_pos hnil, hnil]
    refine ⟨nofun, isNearestEven_exact (hpow s) ?_⟩
    rw [value_nil, Nat.zero_mul, Nat.zero_mul]
  · rw [if_neg hnil]
    by_cases hsp : s ≤ p
    · rw [if_pos hsp]
      refine ⟨h.append (isDigits_zeros _), isNearestEven_exact (hpow s) ?_⟩
      rw [value_append, value_replicate_zero, List.length_replicate, Nat.add_zero, Nat.mul_assoc,
        ← Nat.pow_add, Nat.sub_add_cancel hsp]
    · rw [if_neg hsp]
      have hs : 10 ^ s = 10 ^ (s - p) * 10 ^ p := by
        rw [← Nat.pow_add, Nat.sub_add_cancel (by omega)]
      rw [hs]
      by_cases hshort : c.length < s - p
      · rw [if_pos hshort]
        refine ⟨nofun, isNearestEven_mul (hpow p) ?_⟩
        have hlt := value_lt h
        have hle : 10 * 10 ^ c.length ≤ 10 ^ (s - p) := by
          rw [← Nat.pow_succ']
          exact Nat.pow_le_pow_right (by decide) hshort
        rw [IsNearestEven, value_nil]
        omega
      · rw [if_neg hshort]
        obtain ⟨hdigits, hnearest⟩ := carried_spec h
          (show c.length - (s - p) < c.length by have := List.length_pos_iff.2 hnil; omega)
        rw [show c.length - (c.length - (s - p)) = s - p by omega] at hnearest
        exact ⟨hdigits, isNearestEven_mul (hpow p) hnearest⟩

theorem value_dropWhile (ds : List ℕ) : value (ds.dropWhile (· = 0)) = value ds := by
  induction ds with
  | nil => rfl
  | cons d ds ih =>
    rw [List.dropWhile_cons]
    split
    next h =>
      rw [of_decide_eq_true h, value_cons, Nat.zero_mul, Nat.zero_add, ih]
    next => rfl

/-- The digits before and after the point: `p` after it, and before it no zero in front of another digit. -/
theorem fixedDigits_spec (h : IsDigits c) : IsDigits ((fixedDigits c s p).1 ++ (fixedDigits c s p).2) ∧
    (fixedDigits c s p).2.length = p ∧ (fixedDigits c s p).1 ≠ [] ∧
    ((fixedDigits c s p).1 = [0] ∨ (fixedDigits c s p).1.head? ≠ some 0) ∧
    IsNearestEven (value c * 10 ^ p) (10 ^ s)
      (value ((fixedDigits c s p).1 ++ (fixedDigits c s p).2)) := by
  obtain ⟨hdigits, hnearest⟩ := scaledDigits_spec (s := s) (p := p) h
  have hdrop : IsDigits ((scaledDigits c s p).dropWhile (· = 0)) := fun d hd =>
    hdigits d (List.dropWhile_sublist _ |>.subset hd)
  have hhead : ((scaledDigits c s p).dropWhile (· = 0)).head? ≠ some 0 := by
    intro h0
    have := List.head?_dropWhile_not (p := fun d => decide (d = 0)) (scaledDigits c s p)
    rw [h0] at this
    exact absurd this (by decide)
  rw [← value_dropWhile (scaledDigits c s p)] at hnearest
  rw [fixedDigits]
  dsimp only
  generalize (scaledDigits c s p).dropWhile (· = 0) = ds at hnearest hdrop hhead
  have hlen : (padLeft (p + 1) ds).length = max (p + 1) ds.length := by
    rw [padLeft, List.length_append, List.length_replicate]
    omega
  rw [List.take_append_drop]
  refine ⟨(isDigits_zeros _).append hdrop, ?_, ?_, ?_, ?_⟩
  · rw [List.length_drop]
    omega
  · intro hnil
    have := congrArg List.length hnil
    rw [List.length_take, List.length_nil] at this
    omega
  · rcases Nat.lt_or_ge p ds.length with hlong | hshort
    · right
      rw [padLeft, show p + 1 - ds.length = 0 by omega, List.replicate_zero, List.nil_append,
        List.head?_take, if_neg (by omega)]
      exact hhead
    · left
      rw [hlen, show max (p + 1) ds.length - p = 1 by omega, padLeft,
        show p + 1 - ds.length = (p - ds.length) + 1 by omega, List.replicate_succ]
      rfl
  · rw [padLeft, value_append, value_replicate_zero, Nat.zero_mul, Nat.zero_add]
    exact hnearest

theorem le_value (hne : c ≠ []) (h : c.head? ≠ some 0) : 10 ^ (c.length - 1) ≤ value c := by
  cases c with
  | nil => exact absurd rfl hne
  | cons d ds =>
    have hd : 1 ≤ d := Nat.pos_of_ne_zero fun h0 => h (congrArg some h0)
    have := Nat.mul_le_mul_right (10 ^ ds.length) hd
    rw [value_cons, List.length_cons, Nat.add_sub_cancel]
    omega

theorem head_ne_zero (h : IsDigits c) (hle : 10 ^ (c.length - 1) ≤ value c) : c.head? ≠ some 0 := by
  cases c with
  | nil => exact nofun
  | cons d ds =>
    intro h0
    obtain rfl := Option.some.inj h0
    have hlt := value_lt (show IsDigits ds from fun e he => h e (List.mem_cons_of_mem _ he))
    rw [value_cons, List.length_cons, Nat.add_sub_cancel] at hle
    omega

/-- The rounded digits of a number, to `keep` of them, and what they are nearest to. -/
theorem rounded_nearest (keep : ℕ) (h : IsDigits c) :
    (roundHalfEven c keep).1.length = keep ∧ IsDigits (roundHalfEven c keep).1 ∧
      ((roundHalfEven c keep).2 = true → value (roundHalfEven c keep).1 = 0) ∧
      IsNearestEven (value c * 10 ^ keep) (10 ^ c.length)
        (value (roundHalfEven c keep).1 +
          if (roundHalfEven c keep).2 then 10 ^ keep else 0) := by
  have hpow : ∀ n, 0 < 10 ^ n := fun n => Nat.pow_pos (by decide)
  by_cases hkeep : keep ≥ c.length
  · rw [roundHalfEven, if_pos hkeep]
    refine ⟨?_, h.append (isDigits_zeros _), fun hf => absurd hf Bool.false_ne_true, ?_⟩
    · rw [List.length_append, List.length_replicate]
      omega
    · rw [if_neg Bool.false_ne_true, Nat.add_zero, value_append, value_replicate_zero,
        List.length_replicate, Nat.add_zero]
      refine isNearestEven_exact (hpow _) ?_
      rw [Nat.mul_assoc, ← Nat.pow_add, Nat.sub_add_cancel hkeep]
  · obtain ⟨hlen, hdigits, hcarry, hnearest⟩ := roundHalfEven_spec h (show keep < c.length by omega)
    refine ⟨hlen, hdigits, hcarry, ?_⟩
    have hsplit : 10 ^ c.length = 10 ^ (c.length - keep) * 10 ^ keep := by
      rw [← Nat.pow_add, Nat.sub_add_cancel (by omega)]
    rw [hsplit]
    exact isNearestEven_mul (hpow keep) hnearest

/-- The significand's digits and its exponent: `n` is the number in units of the last digit, rounded, and a
    carry moves the point. -/
theorem sciDigits_spec (h : IsDigits c) (hne : c ≠ []) (hhead : c.head? ≠ some 0) :
    (sciDigits c s p).1.length = p + 1 ∧ IsDigits (sciDigits c s p).1 ∧
      (sciDigits c s p).1.head? ≠ some 0 ∧
      ∃ n, IsNearestEven (value c * 10 ^ (p + 1)) (10 ^ c.length) n ∧
        (n < 10 ^ (p + 1) ∧ (sciDigits c s p).2 = (c.length : ℤ) - 1 - s ∧
            value (sciDigits c s p).1 = n ∨
          n = 10 ^ (p + 1) ∧ (sciDigits c s p).2 = (c.length : ℤ) - 1 - s + 1 ∧
            value (sciDigits c s p).1 = 10 ^ p) := by
  obtain ⟨hlen, hdigits, hcarry, hnearest⟩ := rounded_nearest (p + 1) h
  have hlt := value_lt hdigits
  rw [hlen] at hlt
  rw [sciDigits, if_neg hne]
  dsimp only
  by_cases hup : (roundHalfEven c (p + 1)).2 = true
  · rw [if_pos hup] at hnearest ⊢
    rw [hcarry hup, Nat.zero_add] at hnearest
    have hzero := value_eq_zero (hcarry hup)
    have htake : (roundHalfEven c (p + 1)).1.take p = List.replicate p 0 := by
      refine List.eq_replicate_iff.2 ⟨?_, fun d hd => hzero d (List.mem_of_mem_take hd)⟩
      rw [List.length_take]
      omega
    rw [htake]
    refine ⟨?_, ?_, ?_, _, hnearest, .inr ⟨rfl, rfl, ?_⟩⟩
    · rw [List.length_cons, List.length_replicate]
    · rintro d hd
      rcases List.mem_cons.1 hd with rfl | hd
      · decide
      · exact isDigits_zeros p d hd
    · exact fun h0 => absurd (Option.some.inj h0) (by decide)
    · rw [value_cons, List.length_replicate, value_replicate_zero, Nat.one_mul, Nat.add_zero]
  · rw [if_neg hup] at hnearest ⊢
    simp only [Nat.add_zero] at hnearest
    refine ⟨hlen, hdigits, head_ne_zero hdigits ?_, _, hnearest, .inl ⟨hlt, rfl, rfl⟩⟩
    rw [hlen, Nat.add_sub_cancel]
    have hge := le_value hne hhead
    have hclen := List.length_pos_iff.2 hne
    have hden : 10 ^ c.length = 10 ^ (c.length - 1) * 10 := by
      rw [← Nat.pow_succ, Nat.succ_eq_add_one, Nat.sub_add_cancel hclen]
    have hmul : 10 ^ p * 10 ^ c.length ≤ value c * 10 ^ (p + 1) := by
      rw [hden, Nat.pow_succ, ← Nat.mul_assoc, ← Nat.mul_assoc, Nat.mul_comm (10 ^ p)]
      exact Nat.mul_le_mul_right 10 (Nat.mul_le_mul_right (10 ^ p) hge)
    have hpos : 0 < 10 ^ c.length := Nat.pow_pos (by decide)
    have hbound : 2 * 10 ^ p * 10 ^ c.length ≤
        (2 * value (roundHalfEven c (p + 1)).1 + 1) * 10 ^ c.length := by
      have := hnearest.1
      rw [Nat.mul_assoc]
      omega
    have := Nat.le_of_mul_le_mul_right hbound hpos
    dsimp only
    omega

/-- A double that is neither infinite nor NaN. -/
def Float64.IsFinite (v : Float64) : Prop := v.rawExp ≠ 2047

/-- Text of fixed notation that is `v` rounded to `p` fractional digits. -/
def FixedRounded (v : Float64) (p : ℕ) (text : List Char) : Prop :=
  ∃ whole frac : List ℕ, text = floatSign v ++ (whole.map digitChar ++ fraction p frac) ∧
    IsDigits (whole ++ frac) ∧ frac.length = p ∧ whole ≠ [] ∧ (whole = [0] ∨ whole.head? ≠ some 0) ∧
    Nearest (v.magnitude * 10 ^ p) (value (whole ++ frac))

/-- Text of scientific notation that is `v` rounded to `p + 1` significant digits: `n` is `v` in units of
    the last of them, and a carry moves the point. -/
def SciRounded (v : Float64) (p : ℕ) (forceSign : Bool) (text : List Char) : Prop :=
  ∃ (digits : List ℕ) (exp : ℤ),
    text = (if floatSign v = [] && forceSign then ['+'] else floatSign v) ++
      ((digits.take 1).map digitChar ++ (fraction p (digits.drop 1) ++ exponent exp)) ∧
    digits.length = p + 1 ∧ IsDigits digits ∧
    (v.mant = 0 → value digits = 0 ∧ exp = 0) ∧
    (v.mant ≠ 0 → digits.head? ≠ some 0 ∧ ∃ (e : ℤ) (n : ℕ),
      (10 : ℚ) ^ e ≤ v.magnitude ∧ v.magnitude < 10 ^ (e + 1) ∧
      Nearest (v.magnitude * 10 ^ ((p : ℤ) - e)) n ∧
      (n < 10 ^ (p + 1) ∧ exp = e ∧ value digits = n ∨
        n = 10 ^ (p + 1) ∧ exp = e + 1 ∧ value digits = 10 ^ p))

theorem not_special {v : Float64} (h : v.IsFinite) : v.isNan = false ∧ v.isInfinite = false := by
  rw [Float64.isNan, Float64.isInfinite, decide_eq_false h]
  exact ⟨rfl, rfl⟩

theorem cFormatF_rounded {v : Float64} (h : v.IsFinite) {p : ℕ} (hp : p ≤ 350) :
    FixedRounded v p (cFormatF v p) := by
  obtain ⟨hnan, hinf⟩ := not_special h
  obtain ⟨hdigits, hvalue, -, -⟩ := exactDigits_spec v
  obtain ⟨hall, hlen, hne, hhead, hnearest⟩ := fixedDigits_spec (s := (exactDigits v).2) (p := p) hdigits
  refine ⟨_, _, ?_, hall, hlen, hne, hhead,
    nearest_of_isNearestEven (Nat.pow_pos (by decide)) hnearest ?_⟩
  · rw [cFormatF, hnan, hinf]
    simp only [Nat.min_eq_left hp, Nat.sub_self, List.replicate_zero, List.append_nil,
      Bool.false_eq_true, if_false]
  · rw [← hvalue]
    push_cast
    ring

theorem cFormatE_rounded {v : Float64} (h : v.IsFinite) {p : ℕ} (hp : p ≤ 350) (forceSign : Bool) :
    SciRounded v p forceSign (cFormatE v p forceSign) := by
  obtain ⟨hnan, hinf⟩ := not_special h
  obtain ⟨hdigits, hvalue, hnil, hhead⟩ := exactDigits_spec v
  have htext : cFormatE v p forceSign =
      (if floatSign v = [] && forceSign then ['+'] else floatSign v) ++
        (((sciDigits (exactDigits v).1 (exactDigits v).2 p).1.take 1).map digitChar ++
          (fraction p ((sciDigits (exactDigits v).1 (exactDigits v).2 p).1.drop 1) ++
            exponent (sciDigits (exactDigits v).1 (exactDigits v).2 p).2)) := by
    rw [cFormatE, hnan, hinf]
    simp only [Nat.min_eq_left hp, Nat.sub_self, List.replicate_zero, List.nil_append,
      Bool.false_eq_true, if_false]
  by_cases hzero : v.mant = 0
  · have hc := hnil.2 hzero
    have hsci : sciDigits (exactDigits v).1 (exactDigits v).2 p = (List.replicate (p + 1) 0, 0) := by
      rw [sciDigits, if_pos hc]
    rw [hsci] at htext
    refine ⟨_, _, htext, List.length_replicate, isDigits_zeros _, fun _ => ⟨?_, rfl⟩,
      fun hne => absurd hzero hne⟩
    exact value_replicate_zero _
  · have hc : (exactDigits v).1 ≠ [] := fun h0 => hzero (hnil.1 h0)
    obtain ⟨hlen, hsdigits, hshead, n, hnearest, hcases⟩ :=
      sciDigits_spec (s := (exactDigits v).2) (p := p) hdigits hc hhead
    have hlt := value_lt hdigits
    have hge := le_value hc hhead
    have hclen := List.length_pos_iff.2 hc
    generalize (exactDigits v).1 = c at *
    generalize (exactDigits v).2 = s at *
    have hten : (10 : ℚ) ≠ 0 := by norm_num
    have hlow : (10 : ℚ) ^ ((c.length : ℤ) - 1 - s) = 10 ^ (c.length - 1) / 10 ^ s := by
      rw [zpow_sub₀ hten, zpow_natCast, show (c.length : ℤ) - 1 = ((c.length - 1 : ℕ) : ℤ) by omega,
        zpow_natCast]
    have hhigh : (10 : ℚ) ^ ((c.length : ℤ) - 1 - s + 1) = 10 ^ c.length / 10 ^ s := by
      rw [show (c.length : ℤ) - 1 - s + 1 = c.length - s by omega, zpow_sub₀ hten, zpow_natCast,
        zpow_natCast]
    have hunit : (10 : ℚ) ^ ((p : ℤ) - ((c.length : ℤ) - 1 - s)) =
        10 ^ (p + 1) * 10 ^ s / 10 ^ c.length := by
      rw [show (p : ℤ) - ((c.length : ℤ) - 1 - s) = ((p + 1 : ℕ) : ℤ) + s - c.length by omega,
        zpow_sub₀ hten, zpow_add₀ hten, zpow_natCast, zpow_natCast, zpow_natCast]
    refine ⟨_, _, htext, hlen, hsdigits, fun h0 => absurd h0 hzero, fun _ => ⟨hshead,
      (c.length : ℤ) - 1 - s, n, ?_, ?_, ?_, hcases⟩⟩
    · rw [hlow, ← hvalue]
      gcongr
      exact_mod_cast hge
    · rw [hhigh, ← hvalue]
      gcongr
      exact_mod_cast hlt
    · refine nearest_of_isNearestEven (Nat.pow_pos (by decide)) hnearest ?_
      rw [hunit, ← hvalue]
      push_cast
      field_simp

/-- No index of `numeric_out_sci` is outside the digits. -/
theorem numericOutSci_some (neg : Bool) (digits : List ℕ) (dscale : ℕ) (scale : ℤ) :
    numericOutSci neg digits dscale scale ≠ none := by
  have hhead : ∃ head, outSciHead digits (scale.toNat + 1) = some head ∧
      scale.toNat ≤ head.length := by
    rw [outSciHead]
    by_cases hkeep : scale.toNat + 1 ≥ digits.length
    · rw [if_pos hkeep]
      refine ⟨_, rfl, ?_⟩
      rw [List.length_append, List.length_replicate]
      omega
    · rw [if_neg hkeep, slice, if_pos (by omega)]
      have hlen : (digits.take (scale.toNat + 1)).length = scale.toNat + 1 := by
        rw [List.length_take]
        omega
      have hbump : ∀ ds : List ℕ, (bump ds).1.length = ds.length := by
        intro ds
        induction ds with
        | nil => rfl
        | cons d ds ih =>
          rw [bump]
          split
          · exact congrArg (· + 1) ih
          · rfl
      have hinc : (increment (digits.take (scale.toNat + 1))).1.length = scale.toNat + 1 := by
        rw [increment, List.length_reverse, hbump, List.length_reverse, hlen]
      rw [Option.bind_eq_bind, Option.bind_some, List.getElem?_eq_getElem (by omega),
        Option.bind_eq_bind, Option.bind_some]
      split
      · refine ⟨_, rfl, ?_⟩
        split
        · rw [List.length_cons]
          omega
        · omega
      · exact ⟨_, rfl, by omega⟩
  obtain ⟨head, hhead, hle⟩ := hhead
  rw [numericOutSci]
  split
  · exact Option.some_ne_none _
  · rw [hhead, Option.bind_eq_bind, Option.bind_some, outSciText, if_pos hle]
    exact Option.some_ne_none _

/-- The counts of a template. -/
def NumDesc.Counts (n : NumDesc) : Prop := 0 ≤ n.pre ∧ 0 ≤ n.post ∧ 0 ≤ n.multi

variable {n n' : NumDesc}

theorem counts_zero (h : n.Counts) (hn : n.zero = some n') : n'.Counts := by
  obtain ⟨hpre, hpost, hmulti⟩ := h
  rw [NumDesc.zero] at hn
  split at hn
  · cases hn
  · have hstart : (if (!n.has .zero && !n.has .decimal) = true then
        { n.set .zero with zeroStart := n.pre + 1 } else n).Counts := by
      split
      · exact ⟨hpre, hpost, hmulti⟩
      · exact ⟨hpre, hpost, hmulti⟩
    dsimp only at hn
    generalize (if (!n.has .zero && !n.has .decimal) = true then
      { n.set .zero with zeroStart := n.pre + 1 } else n) = m at hn hstart
    obtain ⟨hpre, hpost, hmulti⟩ := hstart
    cases hn
    split
    · exact ⟨show 0 ≤ m.pre + 1 by omega, hpost, hmulti⟩
    · exact ⟨hpre, show 0 ≤ m.post + 1 by omega, hmulti⟩

theorem counts_nine (h : n.Counts) (hn : n.nine = some n') : n'.Counts := by
  obtain ⟨hpre, hpost, hmulti⟩ := h
  rw [NumDesc.nine] at hn
  split at hn
  · cases hn
  split at hn
  · cases hn
    exact ⟨hpre, hpost, by dsimp only; omega⟩
  split at hn
  · cases hn
    exact ⟨hpre, by dsimp only; omega, hmulti⟩
  · cases hn
    exact ⟨by dsimp only; omega, hpost, hmulti⟩

theorem counts_point (h : n.Counts) (locale : Bool) (hn : n.point locale = some n') : n'.Counts := by
  have hset : (if locale = true then n.set .ldecimal else n).Counts := by
    split
    · exact h
    · exact h
  unfold NumDesc.point at hn
  dsimp only at hn
  generalize (if locale = true then n.set .ldecimal else n) = m at hn hset
  split at hn
  · cases hn
  · cases hn
    exact hset

/-- A pattern lowers no count. -/
theorem counts_apply (h : n.Counts) {id : Pattern} (hn : n.apply id = some n') : n'.Counts := by
  cases id with
  | nine => exact counts_nine h hn
  | zero => exact counts_zero h hn
  | b =>
    cases hn
    split
    · exact h
    · exact h
  | d | dec =>
    exact counts_point h _ hn
  | fm =>
    cases hn
    exact h
  | s =>
    rw [NumDesc.apply, NumDesc.sign] at hn
    split at hn
    · cases hn
    split at hn
    · cases hn
      exact h
    split at hn
    · cases hn
      exact h
    · cases hn
      exact h
  | mi | pl =>
    rw [NumDesc.apply, NumDesc.side] at hn
    split at hn
    · cases hn
    · cases hn
      split
      · exact h
      · exact h
  | sg | pr | rn | v =>
    rw [NumDesc.apply] at hn
    split at hn
    · cases hn
    · cases hn
      exact h
  | e =>
    rw [NumDesc.apply, NumDesc.sci] at hn
    split at hn
    · cases hn
    · cases hn
      exact h
  | other =>
    cases hn
    exact h

theorem counts_prepare (h : n.Counts) {id : Pattern} (hn : n.prepare id = some n') : n'.Counts := by
  rw [NumDesc.prepare] at hn
  split at hn
  · cases hn
  · obtain ⟨m, hm, hn⟩ := Option.bind_eq_some_iff.1 hn
    split at hn
    · cases hn
    · cases hn
      exact counts_apply h hm

theorem counts_prepareAll (h : n.Counts) {ids : List Pattern} (hn : n.prepareAll ids = some n') :
    n'.Counts := by
  induction ids generalizing n with
  | nil =>
    cases hn
    exact h
  | cons id ids ih =>
    rw [NumDesc.prepareAll] at hn
    obtain ⟨m, hm, hn⟩ := Option.bind_eq_some_iff.1 hn
    exact ih (counts_prepare h hm) hn

theorem hashFill_some {pre post : ℤ} (hpre : 0 ≤ pre) (hpost : 0 ≤ post) :
    hashFill pre post ≠ none := by
  rw [hashFill, filled, if_pos (by omega), Option.bind_eq_bind, Option.bind_some, setAt,
    if_pos ⟨hpre, by rw [List.length_replicate]; omega⟩]
  exact Option.some_ne_none _

theorem numLayout_some (num : NumDesc) (hpre : 0 ≤ num.pre) (hpost : 0 ≤ num.post)
    (orgnum : List Char) : numLayout orgnum num ≠ none := by
  rw [numLayout]
  generalize (if orgnum.head? = some '-' then orgnum.tail else orgnum) = numstr
  split
  · exact Option.some_ne_none _
  split
  · intro hnone
    exact hashFill_some hpre hpost (Option.map_eq_none_iff.1 hnone)
  · exact Option.some_ne_none _

theorem sciFill_some {num : NumDesc} (hpre : 0 ≤ num.pre) (hpost : 0 ≤ num.post) :
    sciFill num ≠ none := by
  rw [sciFill, filled, if_pos (by omega), Option.bind_eq_bind, Option.bind_some, setAt,
    if_pos ⟨by omega, by rw [List.length_replicate]; omega⟩, Option.bind_some,
    setAt, if_pos ⟨by omega, by rw [List.length_set, List.length_replicate]; omega⟩]
  exact Option.some_ne_none _

theorem floatPost_nonneg {dig preLen post : ℤ} (hpost : 0 ≤ post) : 0 ≤ floatPost dig preLen post := by
  rw [floatPost]
  split
  · exact Int.le_refl 0
  · split <;> omega

/-- The printf conversions of a finite double are its decimals rounded to nearest, ties to even, and no
    layout of an accepted template indexes outside its digits. -/
theorem printf_rounded :
    (∀ (v : Float64) (p : ℕ), v.IsFinite → p ≤ 350 → FixedRounded v p (cFormatF v p)) ∧
    (∀ (v : Float64) (p : ℕ) (forceSign : Bool), v.IsFinite → p ≤ 350 →
      SciRounded v p forceSign (cFormatE v p forceSign)) ∧
    ∀ (ids : List Pattern) (num : NumDesc), ({} : NumDesc).prepareAll ids = some num →
      (∀ neg coeff scale, numericOutSci neg (canonicalDigits coeff scale).1
        (canonicalDigits coeff scale).2 num.post ≠ none) ∧
      (∀ orgnum, numLayout orgnum num ≠ none ∧
        numLayout orgnum { num with pre := num.pre + num.multi } ≠ none) ∧
      (∀ orgnum dig preLen,
        numLayout orgnum { num with post := floatPost dig preLen num.post } ≠ none ∧
        numLayout orgnum { num with
          pre := num.pre + num.multi, post := floatPost dig preLen num.post } ≠ none) ∧
      sciFill num ≠ none := by
  refine ⟨fun v p h hp => cFormatF_rounded h hp,
    fun v p forceSign h hp => cFormatE_rounded h hp forceSign, fun ids num hnum => ?_⟩
  obtain ⟨hpre, hpost, hmulti⟩ := counts_prepareAll (n := {}) ⟨by decide, by decide, by decide⟩ hnum
  have hsum : 0 ≤ num.pre + num.multi := by omega
  exact ⟨fun neg coeff scale => numericOutSci_some _ _ _ _,
    fun orgnum => ⟨numLayout_some num hpre hpost orgnum,
      numLayout_some { num with pre := num.pre + num.multi } hsum hpost orgnum⟩,
    fun orgnum dig preLen =>
      ⟨numLayout_some { num with post := floatPost dig preLen num.post } hpre (floatPost_nonneg hpost)
        orgnum,
      numLayout_some { num with
        pre := num.pre + num.multi, post := floatPost dig preLen num.post } hsum
        (floatPost_nonneg hpost) orgnum⟩, sciFill_some hpre hpost⟩

end Jed.Format
