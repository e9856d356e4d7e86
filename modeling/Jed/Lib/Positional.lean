import Mathlib.Data.List.DropRight
import Jed.Lib.KeyCodes

/-!
# Positional notation

Digits from the most significant on: of a natural number in a fixed width, which compare as the
number; and after a point, which compare as the fraction when none ends in a zero.
-/

namespace Positional

open KeyCodes

/-- `compare` in the first, then in the second place. -/
theorem compare_div_mod (m n : ℕ) {k : ℕ} (hk : 0 < k) :
    compare m n = (compare (m / k) (n / k)).then (compare (m % k) (n % k)) := by
  have hm := Nat.div_add_mod m k
  have hn := Nat.div_add_mod n k
  have hmk := Nat.mod_lt m hk
  have hnk := Nat.mod_lt n hk
  rcases lt_trichotomy (m / k) (n / k) with h | h | h
  · have hmul := Nat.mul_le_mul_left k (Nat.succ_le_of_lt h)
    rw [Nat.mul_succ] at hmul
    rw [compare_lt_iff_lt.mpr h]
    exact compare_lt_iff_lt.mpr (by omega)
  · rw [compare_eq_iff_eq.mpr h]
    rw [h] at hm
    rcases lt_trichotomy (m % k) (n % k) with h' | h' | h'
    · rw [compare_lt_iff_lt.mpr h']
      exact compare_lt_iff_lt.mpr (by omega)
    · rw [compare_eq_iff_eq.mpr h']
      exact compare_eq_iff_eq.mpr (by omega)
    · rw [compare_gt_iff_gt.mpr h']
      exact compare_gt_iff_gt.mpr (by omega)
  · have hmul := Nat.mul_le_mul_left k (Nat.succ_le_of_lt h)
    rw [Nat.mul_succ] at hmul
    rw [compare_gt_iff_gt.mpr h]
    exact compare_gt_iff_gt.mpr (by omega)

/-- The last `w` digits of `n` in base `b`. -/
def digits (b : ℕ) : (w n : ℕ) → List ℕ
  | 0, _ => []
  | w + 1, n => n / b ^ w % b :: digits b w n

@[simp] theorem digits_length (b w n : ℕ) : (digits b w n).length = w := by
  induction w with
  | zero => rfl
  | succ w ih => simp [digits, ih]

theorem digits_lt {b : ℕ} (hb : 0 < b) (w n : ℕ) : ∀ d ∈ digits b w n, d < b := by
  induction w with
  | zero => simp [digits]
  | succ w ih =>
    intro d hd
    rcases List.mem_cons.mp hd with rfl | hd
    · exact Nat.mod_lt _ hb
    · exact ih d hd

theorem digits_mod (b : ℕ) {w v : ℕ} (h : w ≤ v) (n : ℕ) : digits b w (n % b ^ v) = digits b w n := by
  induction w with
  | zero => rfl
  | succ w ih =>
    have hsplit : b ^ v = b ^ w * (b * b ^ (v - (w + 1))) := by
      rw [← pow_succ', ← pow_add]
      congr 1
      omega
    have hdigit : n % b ^ v / b ^ w % b = n / b ^ w % b := by
      rw [hsplit, Nat.mod_mul_right_div_self, Nat.mod_mul_right_mod]
    rw [digits, digits, hdigit, ih (by omega)]

/-- Digits of one width compare as the numbers they are the digits of. -/
theorem codes_digits {b : ℕ} (hb : 0 < b) (w : ℕ) : ∀ {m n : ℕ}, m < b ^ w → n < b ^ w →
    Codes (compare m n) (digits b w m) (digits b w n) := by
  induction w with
  | zero =>
    intro m n hm hn
    obtain rfl : m = 0 := by simpa using hm
    obtain rfl : n = 0 := by simpa using hn
    exact codes_self []
  | succ w ih =>
    intro m n hm hn
    have hpos : 0 < b ^ w := Nat.pow_pos hb
    have hdiv : ∀ {x : ℕ}, x < b ^ (w + 1) → x / b ^ w % b = x / b ^ w := fun h =>
      Nat.mod_eq_of_lt (Nat.div_lt_of_lt_mul (by rwa [← pow_succ]))
    rw [compare_div_mod m n hpos, digits, digits, hdiv hm, hdiv hn, ← digits_mod b le_rfl m,
      ← digits_mod b le_rfl n]
    exact (codes_single _ _).append fun _ => ih (Nat.mod_lt _ hpos) (Nat.mod_lt _ hpos)

/-- The fraction with these digits after its point. -/
def frac (b : ℕ) : List ℕ → ℚ
  | [] => 0
  | d :: ds => (d + frac b ds) / b

section Frac

variable {b : ℕ} (hb : 0 < b)
include hb

theorem frac_nonneg (ds : List ℕ) : 0 ≤ frac b ds := by
  induction ds with
  | nil => exact le_rfl
  | cons d ds ih =>
    unfold frac
    positivity

theorem frac_lt_one {ds : List ℕ} (h : ∀ d ∈ ds, d < b) : frac b ds < 1 := by
  induction ds with
  | nil => exact zero_lt_one
  | cons d ds ih =>
    obtain ⟨hd, hds⟩ := List.forall_mem_cons.mp h
    have hd' : (d : ℚ) + 1 ≤ b := by exact_mod_cast hd
    have hbq : (0 : ℚ) < b := by exact_mod_cast hb
    rw [frac, div_lt_one hbq]
    linarith [ih hds]

omit hb in
theorem frac_append_zero (ds : List ℕ) : frac b (ds ++ [0]) = frac b ds := by
  induction ds with
  | nil => simp [frac]
  | cons d ds ih => rw [List.cons_append, frac, frac, ih]

omit hb in
theorem frac_append (ds es : List ℕ) :
    frac b (ds ++ es) = frac b ds + frac b es / b ^ ds.length := by
  induction ds with
  | nil => simp [frac]
  | cons d ds ih =>
    rw [List.cons_append, frac, ih, frac, List.length_cons, pow_succ']
    ring

omit hb in
theorem frac_rdropWhile (ds : List ℕ) : frac b (ds.rdropWhile (· == 0)) = frac b ds := by
  induction ds using List.reverseRecOn with
  | nil => rfl
  | append_singleton ds d ih =>
    by_cases hd : d = 0
    · subst hd
      rw [List.rdropWhile_concat_pos _ _ _ (by simp), ih, frac_append_zero]
    · rw [List.rdropWhile_concat_neg _ _ _ (by simpa using hd)]

/-- The digits of a number, all behind the point. -/
theorem frac_digits (n : ℕ) :
    frac b (Nat.digits b n).reverse = n / b ^ (Nat.digits b n).length := by
  have hbq : (b : ℚ) ≠ 0 := by exact_mod_cast hb.ne'
  have hof : ∀ l : List ℕ, frac b l.reverse = Nat.ofDigits b l / b ^ l.length := by
    intro l
    induction l with
    | nil => simp [frac]
    | cons d l ih =>
      rw [List.reverse_cons, frac_append, ih, List.length_reverse, Nat.ofDigits_cons,
        List.length_cons, pow_succ]
      simp only [frac, Nat.cast_add, Nat.cast_mul]
      field_simp
      ring
  rw [hof, Nat.ofDigits_digits]

/-- Digits that do not end in a zero make a positive fraction. -/
theorem frac_pos {ds : List ℕ} (hne : ds ≠ []) (hlast : ∀ d ∈ ds.getLast?, d ≠ 0) :
    0 < frac b ds := by
  have hbq : (0 : ℚ) < b := by exact_mod_cast hb
  induction ds with
  | nil => exact absurd rfl hne
  | cons d ds ih =>
    rw [frac]
    refine div_pos ?_ hbq
    by_cases hds : ds = []
    · subst hds
      have hd : d ≠ 0 := hlast d (by simp)
      have : (0 : ℚ) < d := by exact_mod_cast Nat.pos_of_ne_zero hd
      simpa [frac] using this
    · have hpos := ih hds fun x hx => hlast x (by
        rw [List.getLast?_cons_of_ne_nil hds]
        exact hx)
      positivity

/-- Digits compare as fractions, when neither ends in a zero. -/
theorem listCompare_frac {ds es : List ℕ} (hd : ∀ d ∈ ds, d < b) (he : ∀ d ∈ es, d < b)
    (hdlast : ∀ d ∈ ds.getLast?, d ≠ 0) (helast : ∀ d ∈ es.getLast?, d ≠ 0) :
    listCompare compare ds es = compare (frac b ds) (frac b es) := by
  have hbq : (0 : ℚ) < b := by exact_mod_cast hb
  induction ds generalizing es with
  | nil =>
    cases es with
    | nil => exact (compare_eq_iff_eq.mpr rfl).symm
    | cons e es => exact (compare_lt_iff_lt.mpr (frac_pos hb (by simp) helast)).symm
  | cons d ds ih =>
    cases es with
    | nil => exact (compare_gt_iff_gt.mpr (frac_pos hb (by simp) hdlast)).symm
    | cons e es =>
      have hds := (List.forall_mem_cons.mp hd).2
      have hes := (List.forall_mem_cons.mp he).2
      have hlast : ∀ {x : ℕ} {xs : List ℕ}, (∀ d ∈ (x :: xs).getLast?, d ≠ 0) →
          ∀ d ∈ xs.getLast?, d ≠ 0 := by
        intro x xs h d hd
        cases xs with
        | nil => cases hd
        | cons y ys => exact h d (by simpa using hd)
      have hfrac : ∀ {x y : ℕ} {xs ys : List ℕ}, (∀ d ∈ xs, d < b) → (x : ℕ) < y →
          frac b (x :: xs) < frac b (y :: ys) := by
        intro x y xs ys hxs hlt
        rw [frac, frac, div_lt_div_iff_of_pos_right hbq]
        have h1 := frac_lt_one hb hxs
        have h2 := frac_nonneg hb ys
        have h3 : (x : ℚ) + 1 ≤ y := by exact_mod_cast hlt
        linarith
      rcases lt_trichotomy d e with h | rfl | h
      · rw [listCompare, compare_lt_iff_lt.mpr h, compare_lt_iff_lt.mpr (hfrac hds h)]
        rfl
      · have htail := ih hds hes (hlast hdlast) (hlast helast)
        rw [listCompare, compare_eq_iff_eq.mpr rfl, Ordering.then, htail]
        have hiff : ∀ x y : ℚ, ((d : ℚ) + x) / b < (d + y) / b ↔ x < y := by
          intro x y
          rw [div_lt_div_iff_of_pos_right hbq, add_lt_add_iff_left]
        rcases lt_trichotomy (frac b ds) (frac b es) with h | h | h
        · rw [compare_lt_iff_lt.mpr h]
          exact (compare_lt_iff_lt.mpr ((hiff _ _).mpr h)).symm
        · rw [compare_eq_iff_eq.mpr h, frac, frac, h]
          exact (compare_eq_iff_eq.mpr rfl).symm
        · rw [compare_gt_iff_gt.mpr h]
          exact (compare_gt_iff_gt.mpr ((hiff _ _).mpr h)).symm
      · rw [listCompare, compare_gt_iff_gt.mpr h, compare_gt_iff_gt.mpr (hfrac hes h)]
        rfl

end Frac

end Positional
