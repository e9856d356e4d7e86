import Mathlib.Data.Nat.Digits.Lemmas
import Mathlib.Tactic.Linarith
import Mathlib.Tactic.Ring

/-!
# Strings of decimal digits

Lists of digits, the most significant first: the number they write, and rounding to the nearest of a
shorter one, ties to even.
-/

namespace Jed.DigitString

/-- The number that digits write. -/
def value (ds : List ℕ) : ℕ := Nat.ofDigits 10 ds.reverse

/-- Decimal digits. -/
def IsDigits (ds : List ℕ) : Prop := ∀ d ∈ ds, d < 10

variable {ds a b : List ℕ} {d n : ℕ}

theorem value_nil : value [] = 0 := rfl

theorem value_append (a b : List ℕ) : value (a ++ b) = value a * 10 ^ b.length + value b := by
  rw [value, List.reverse_append, Nat.ofDigits_append, List.length_reverse, value, value]
  ring

theorem value_singleton (d : ℕ) : value [d] = d := by
  rw [value, List.reverse_singleton, Nat.ofDigits_singleton]

theorem value_cons (d : ℕ) (ds : List ℕ) : value (d :: ds) = d * 10 ^ ds.length + value ds := by
  rw [← List.singleton_append, value_append, value_singleton]

theorem value_snoc (ds : List ℕ) (d : ℕ) : value (ds ++ [d]) = value ds * 10 + d := by
  rw [value_append, value_singleton, List.length_singleton, Nat.pow_one]

theorem value_replicate_zero (n : ℕ) : value (List.replicate n 0) = 0 := by
  induction n with
  | zero => rfl
  | succ n ih => rw [List.replicate_succ, value_cons, ih, Nat.zero_mul]

theorem value_lt (h : IsDigits ds) : value ds < 10 ^ ds.length := by
  have := Nat.ofDigits_lt_base_pow_length (b := 10) (l := ds.reverse) (by decide)
    fun d hd => h d (List.mem_reverse.1 hd)
  rwa [List.length_reverse] at this

theorem value_eq_zero (h : value ds = 0) : ∀ d ∈ ds, d = 0 := by
  induction ds with
  | nil => exact nofun
  | cons d ds ih =>
    rw [value_cons] at h
    intro e he
    have hpow := Nat.pow_pos (n := ds.length) (show 0 < 10 by decide)
    rcases List.mem_cons.1 he with rfl | he
    · rcases Nat.mul_eq_zero.1 (show e * 10 ^ ds.length = 0 by omega) with h0 | h0
      · exact h0
      · omega
    · exact ih (by omega) e he

theorem IsDigits.append (ha : IsDigits a) (hb : IsDigits b) : IsDigits (a ++ b) := fun d hd =>
  (List.mem_append.1 hd).elim (ha d) (hb d)

theorem IsDigits.take (h : IsDigits ds) (n : ℕ) : IsDigits (ds.take n) := fun d hd =>
  h d (List.mem_of_mem_take hd)

theorem IsDigits.drop (h : IsDigits ds) (n : ℕ) : IsDigits (ds.drop n) := fun d hd =>
  h d (List.mem_of_mem_drop hd)

theorem isDigits_zeros (n : ℕ) : IsDigits (List.replicate n 0) := fun d hd => by
  rw [(List.mem_replicate.1 hd).2]
  decide

/-- One added to digits of which the least significant is first, and whether that carries out of the last:
    nines become zeros up to the first other digit. -/
def bump : List ℕ → List ℕ × Bool
  | [] => ([], true)
  | d :: ds => if d = 9 then (0 :: (bump ds).1, (bump ds).2) else ((d + 1) :: ds, false)

/-- The digits with one added, and whether that carries out of the first. -/
def increment (ds : List ℕ) : List ℕ × Bool := ((bump ds.reverse).1.reverse, (bump ds.reverse).2)

/-- Whether the digits cut off round up, ties to an even last digit. -/
def roundsUp (head rest : List ℕ) : Bool :=
  match rest with
  | [] => false
  | d :: rest =>
    if d > 5 then true
    else if d = 5 then
      if rest.any (· != 0) then true
      else decide (0 < head.length) && decide (head.getLast?.getD 0 % 2 = 1)
    else false

/-- The first `keep` digits, rounded half to even, and whether that carries out of the first. -/
def roundHalfEven (ds : List ℕ) (keep : ℕ) : List ℕ × Bool :=
  if keep ≥ ds.length then (ds ++ List.replicate (keep - ds.length) 0, false)
  else if roundsUp (ds.take keep) (ds.drop keep) then increment (ds.take keep)
  else (ds.take keep, false)

theorem bump_spec (h : IsDigits ds) : (bump ds).1.length = ds.length ∧ IsDigits (bump ds).1 ∧
    Nat.ofDigits 10 (bump ds).1 + (if (bump ds).2 then 10 ^ ds.length else 0) =
      Nat.ofDigits 10 ds + 1 := by
  induction ds with
  | nil => exact ⟨rfl, nofun, rfl⟩
  | cons d ds ih =>
    have hd := h d List.mem_cons_self
    have hds : IsDigits ds := fun e he => h e (List.mem_cons_of_mem d he)
    obtain ⟨hlen, hdigits, hvalue⟩ := ih hds
    rw [bump]
    by_cases h9 : d = 9
    · rw [if_pos h9]
      refine ⟨congrArg (· + 1) hlen, ?_, ?_⟩
      · rintro e he
        rcases List.mem_cons.1 he with rfl | he
        · decide
        · exact hdigits e he
      · dsimp only
        rw [Nat.ofDigits_cons, Nat.ofDigits_cons, h9, List.length_cons, Nat.pow_succ]
        by_cases hcarry : (bump ds).2 = true
        · rw [if_pos hcarry] at hvalue ⊢
          omega
        · rw [if_neg hcarry] at hvalue ⊢
          omega
    · rw [if_neg h9]
      refine ⟨rfl, ?_, ?_⟩
      · rintro e he
        rcases List.mem_cons.1 he with rfl | he
        · omega
        · exact hds e he
      · dsimp only
        rw [Nat.ofDigits_cons, Nat.ofDigits_cons, if_neg Bool.false_ne_true]
        omega

theorem increment_spec (h : IsDigits ds) : (increment ds).1.length = ds.length ∧
    IsDigits (increment ds).1 ∧
      value (increment ds).1 + (if (increment ds).2 then 10 ^ ds.length else 0) = value ds + 1 := by
  have hrev : IsDigits ds.reverse := fun e he => h e (List.mem_reverse.1 he)
  obtain ⟨hlen, hdigits, hvalue⟩ := bump_spec hrev
  rw [List.length_reverse] at hlen hvalue
  refine ⟨?_, fun e he => hdigits e (List.mem_reverse.1 he), ?_⟩
  · rw [increment, List.length_reverse, hlen]
  · rw [increment, value, List.reverse_reverse, value]
    exact hvalue

theorem value_mod_two (ds : List ℕ) : value ds % 2 = ds.getLast?.getD 0 % 2 := by
  rcases List.eq_nil_or_concat ds with rfl | ⟨l, d, rfl⟩
  · rfl
  · rw [List.concat_eq_append, value_snoc, List.getLast?_append_of_ne_nil _ (by simp)]
    simp
    omega

/-- The digits cut off round up where they are more than half a unit, or half of one after an odd digit. -/
theorem roundsUp_iff (head : List ℕ) {rest : List ℕ} (h : IsDigits rest) (hrest : rest ≠ []) :
    roundsUp head rest = true ↔ 10 ^ rest.length < 2 * value rest ∨
      10 ^ rest.length = 2 * value rest ∧ value head % 2 = 1 := by
  cases rest with
  | nil => exact absurd rfl hrest
  | cons d rest =>
    have hlt := value_lt (show IsDigits rest from fun e he => h e (List.mem_cons_of_mem d he))
    have hpow := Nat.pow_pos (n := rest.length) (show 0 < 10 by decide)
    rw [roundsUp, value_cons, List.length_cons, Nat.pow_succ, value_mod_two]
    generalize 10 ^ rest.length = u at hlt hpow ⊢
    rcases Nat.lt_trichotomy d 5 with hd | rfl | hd
    · have := Nat.mul_le_mul_right u (show d ≤ 4 by omega)
      rw [if_neg (by omega), if_neg (by omega)]
      refine ⟨fun hf => absurd hf Bool.false_ne_true, fun hor => ?_⟩
      omega
    · rw [if_neg (by omega), if_pos rfl]
      by_cases hany : (rest.any (· != 0)) = true
      · rw [if_pos hany]
        obtain ⟨e, he, hne⟩ := List.any_eq_true.1 hany
        have hpos : value rest ≠ 0 := fun h0 => by
          rw [value_eq_zero h0 e he] at hne
          exact absurd hne (by decide)
        exact ⟨fun _ => .inl (by omega), fun _ => rfl⟩
      · rw [if_neg hany]
        have hzero : value rest = 0 := by
          have hall : rest = List.replicate rest.length 0 := by
            refine List.eq_replicate_iff.2 ⟨rfl, fun e he => ?_⟩
            by_contra hne
            exact hany (List.any_eq_true.2 ⟨e, he, by simpa using hne⟩)
          rw [hall, value_replicate_zero]
        rw [Bool.and_eq_true, decide_eq_true_eq, decide_eq_true_eq, hzero]
        constructor
        · rintro ⟨-, hodd⟩
          exact .inr ⟨by omega, hodd⟩
        · rintro (hgt | ⟨-, hodd⟩)
          · omega
          · refine ⟨?_, hodd⟩
            cases head with
            | nil => exact absurd hodd (by decide)
            | cons x l => exact Nat.succ_pos _
    · have := Nat.mul_le_mul_right u (show 6 ≤ d by omega)
      rw [if_pos hd]
      exact ⟨fun _ => .inl (by omega), fun _ => rfl⟩

/-- `n` is `num / den` rounded to nearest, ties to even. -/
def IsNearestEven (num den n : ℕ) : Prop :=
  2 * num ≤ (2 * n + 1) * den ∧ 2 * n * den ≤ 2 * num + den ∧
    (2 * num = (2 * n + 1) * den ∨ 2 * n * den = 2 * num + den → n % 2 = 0)

/-- The digits kept are the number rounded to nearest, ties to even, a carry apart. -/
theorem roundHalfEven_spec {keep : ℕ} (h : IsDigits ds) (hkeep : keep < ds.length) :
    (roundHalfEven ds keep).1.length = keep ∧ IsDigits (roundHalfEven ds keep).1 ∧
      ((roundHalfEven ds keep).2 = true → value (roundHalfEven ds keep).1 = 0) ∧
      IsNearestEven (value ds) (10 ^ (ds.length - keep))
        (value (roundHalfEven ds keep).1 +
          if (roundHalfEven ds keep).2 then 10 ^ keep else 0) := by
  have hlen : (ds.take keep).length = keep := by
    rw [List.length_take]
    omega
  have hlen' : (ds.drop keep).length = ds.length - keep := List.length_drop
  have hrest : ds.drop keep ≠ [] := by
    intro h0
    rw [h0] at hlen'
    rw [List.length_nil] at hlen'
    omega
  have hsplit := value_append (ds.take keep) (ds.drop keep)
  rw [List.take_append_drop, hlen'] at hsplit
  have hlt := value_lt (h.drop keep)
  rw [hlen'] at hlt
  have hiff := roundsUp_iff (ds.take keep) (h.drop keep) hrest
  rw [hlen'] at hiff
  obtain ⟨hilen, hidigits, hivalue⟩ := increment_spec (h.take keep)
  have hhead := value_lt (h.take keep)
  rw [hlen] at hilen hivalue hhead
  rw [roundHalfEven, if_neg (by omega)]
  generalize 10 ^ (ds.length - keep) = u at hsplit hlt hiff ⊢
  generalize value (ds.drop keep) = r at hsplit hlt hiff
  by_cases hup : roundsUp (ds.take keep) (ds.drop keep) = true
  · rw [if_pos hup]
    rw [hup] at hiff
    generalize value (ds.take keep) = v at hsplit hiff hivalue hhead
    refine ⟨hilen, hidigits, fun hcarry => ?_, ?_⟩
    · rw [if_pos hcarry] at hivalue
      omega
    · have hthree : (2 * (v + 1) + 1) * u = 2 * (v * u) + 3 * u := by ring
      have htwo : 2 * (v + 1) * u = 2 * (v * u) + 2 * u := by ring
      have hor := hiff.1 rfl
      rw [hivalue, IsNearestEven, hthree, htwo, hsplit]
      omega
  · rw [if_neg hup]
    have hdown : ¬ (u < 2 * r ∨ u = 2 * r ∧ value (ds.take keep) % 2 = 1) := fun hor =>
      hup (hiff.2 hor)
    clear hiff hivalue hhead
    generalize value (ds.take keep) = v at hsplit hdown ⊢
    refine ⟨hlen, h.take keep, fun hcarry => absurd hcarry Bool.false_ne_true, ?_⟩
    have hone : (2 * v + 1) * u = 2 * (v * u) + u := by ring
    have htwo : 2 * v * u = 2 * (v * u) := by ring
    rw [if_neg Bool.false_ne_true, Nat.add_zero, IsNearestEven, hone, htwo, hsplit]
    omega

end Jed.DigitString
