import Mathlib.Data.List.GetD
import Jed.Sql.Lexer
import Jed.Lib.Results

/-!
# What a number takes

The bytes a numeric literal takes, and that it takes the same ones when what stands after them,
other than a byte it would go on with, is cut off.
-/

namespace Jed.Sql

open Results

variable {b : UInt8} {c : Char}

theorem is_iff : is b c = true ↔ b.toNat = c.toNat := by
  rw [is, beq_iff_eq]

/-- A byte no number or word goes on with. -/
def Stops (t : Bytes) : Prop :=
  ∀ b ∈ t.head?, isWordByte b = false ∧ is b '.' = false ∧ is b '$' = false ∧ b.toNat < 0x80

theorem stops_nil : Stops [] := by
  intro b hb
  cases hb

variable {base : ℕ}

theorem isDigitOf_word (h : isDigitOf base b = true) :
    isWordByte b = true := by
  unfold isDigitOf toDigit at h
  rw [isWordByte]
  by_cases hd : isDigit b = true
  · simp [hd]
  · by_cases ha : isAlpha b = true
    · simp [ha]
    · simp [hd, ha] at h

theorem Stops.not_digit {t : Bytes} (h : Stops t) (base : ℕ) : t.head?.any (isDigitOf base) = false := by
  cases ht : t.head? with
  | none => rfl
  | some b =>
    by_contra hd
    have hw := isDigitOf_word (by simpa using hd)
    rw [(h b (by rw [ht]; rfl)).1] at hw
    cases hw

theorem digitRun_stops {t : Bytes} (h : Stops t) (base : ℕ) : digitRun base t = 0 := by
  cases t with
  | nil => rfl
  | cons b t =>
    have hd : isDigitOf base b = false := by simpa using h.not_digit base
    have hw := (h b rfl).1
    rw [isWordByte, Bool.or_eq_false_iff] at hw
    simp [digitRun, hd, hw.2]

/-- A run of digits ends at a byte that stops. -/
theorem digitRun_append {t : Bytes} (h : Stops t) (base : ℕ) (u : Bytes) :
    digitRun base (u ++ t) = digitRun base u := by
  induction u with
  | nil => exact digitRun_stops h base
  | cons b u ih =>
    have hnext : (u ++ t).head?.any (isDigitOf base) = u.head?.any (isDigitOf base) := by
      cases u with
      | nil => exact h.not_digit base
      | cons _ _ => rfl
    simp only [List.cons_append, digitRun, hnext, ih]

theorem digitRun_le (base : ℕ) (s : Bytes) : digitRun base s ≤ s.length := by
  induction s with
  | nil => exact le_rfl
  | cons b s ih =>
    unfold digitRun
    split
    · rw [List.length_cons]
      omega
    · exact Nat.zero_le _

/-- A run of digits is of digits and underscores. -/
theorem digitRun_word (base : ℕ) (s : Bytes) :
    ∀ b ∈ s.take (digitRun base s), isWordByte b = true := by
  induction s with
  | nil => simp [digitRun]
  | cons b s ih =>
    unfold digitRun
    split
    case isTrue h =>
      rw [Nat.add_comm, List.take_succ_cons, List.forall_mem_cons]
      refine ⟨?_, ih⟩
      rw [Bool.or_eq_true, Bool.and_eq_true] at h
      cases h with
      | inl h => exact isDigitOf_word h
      | inr h => simp [isWordByte, h.1]
    case isFalse => simp

theorem identLen_append {t : Bytes} (h : Stops t) (u : Bytes) : identLen (u ++ t) = identLen u := by
  have hstop : ∀ b ∈ t.head?, identStart b = false ∧ isDigit b = false ∧ is b '$' = false := by
    intro b hb
    obtain ⟨hw, -, hdollar, hascii⟩ := h b hb
    simp only [isWordByte, Bool.or_eq_false_iff] at hw
    refine ⟨?_, hw.1.2, hdollar⟩
    simp only [identStart, hw.1.1, hw.2, Bool.or_false, Bool.false_or, decide_eq_false_iff_not]
    omega
  have htake : ∀ u : Bytes, ((u ++ t).takeWhile fun b => identStart b || isDigit b || is b '$') =
      u.takeWhile fun b => identStart b || isDigit b || is b '$' := by
    intro u
    induction u with
    | nil =>
      cases t with
      | nil => rfl
      | cons b t =>
        obtain ⟨h₁, h₂, h₃⟩ := hstop b rfl
        simp [h₁, h₂, h₃]
    | cons b u ih => simp only [List.cons_append, List.takeWhile_cons, ih]
  cases u with
  | nil =>
    cases t with
    | nil => rfl
    | cons b t => simp [identLen, hstop b rfl]
  | cons b u => simp only [List.cons_append, identLen, htake]

variable {s : Bytes} {k : ℕ}

theorem lt_of_isDigit (h : isDigit (s.getD k 0) = true) : k < s.length := by
  by_contra hk
  rw [List.getD_eq_default _ _ (not_lt.mp hk)] at h
  cases h

theorem lt_of_is (hc : c.toNat ≠ 0) (h : is (s.getD k 0) c = true) :
    k < s.length := by
  by_contra hk
  rw [List.getD_eq_default _ _ (not_lt.mp hk), is_iff] at h
  exact hc h.symm

theorem test_append {t u : Bytes} {p : UInt8 → Bool} (hzero : p 0 = false)
    (hstop : ∀ b ∈ t.head?, p b = false) (hk : k ≤ u.length) :
    p ((u ++ t).getD k 0) = p (u.getD k 0) := by
  rcases Nat.lt_or_eq_of_le hk with hk | rfl
  · rw [List.getD_append _ _ _ _ hk]
  · rw [List.getD_append_right _ _ _ _ le_rfl, Nat.sub_self, List.getD_eq_default u 0 le_rfl, hzero]
    cases t with
    | nil => exact hzero
    | cons b t => exact hstop b rfl

theorem Stops.isDigit {t : Bytes} (h : Stops t) : ∀ b ∈ t.head?, Sql.isDigit b = false := by
  intro b hb
  have hw := (h b hb).1
  simp only [isWordByte, Bool.or_eq_false_iff] at hw
  exact hw.1.2

theorem Stops.is {t : Bytes} (h : Stops t) (hc : ∀ b, is b c = true → isWordByte b = true) :
    ∀ b ∈ t.head?, Sql.is b c = false := by
  intro b hb
  by_contra hne
  have hw := hc b (by simpa using hne)
  rw [(h b hb).1] at hw
  cases hw

theorem isWordByte_of_letter
    (hc : 65 ≤ c.toNat ∧ c.toNat ≤ 90 ∨ 97 ≤ c.toNat ∧ c.toNat ≤ 122) (h : is b c = true) :
    isWordByte b = true := by
  rw [is_iff] at h
  have ha : isAlpha b = true := by
    simp only [isAlpha, Bool.or_eq_true, Bool.and_eq_true, decide_eq_true_eq, h]
    exact hc
  simp [isWordByte, ha]

/-- Bytes of a number: a minus in it stands before a digit. -/
def NumberRun : Bytes → Prop
  | [] => True
  | b :: p =>
    (isWordByte b = true ∨ is b '.' = true ∨ is b '+' = true ∨
      is b '-' = true ∧ ∃ d ∈ p.head?, isDigit d = true) ∧ NumberRun p

theorem numberRun_append {p q : Bytes} (hp : NumberRun p) (hq : NumberRun q) : NumberRun (p ++ q) := by
  induction p with
  | nil => exact hq
  | cons b p ih =>
    refine ⟨?_, ih hp.2⟩
    rcases hp.1 with h | h | h | ⟨h, d, hd, hdigit⟩
    · exact .inl h
    · exact .inr (.inl h)
    · exact .inr (.inr (.inl h))
    · refine .inr (.inr (.inr ⟨h, d, ?_, hdigit⟩))
      cases p with
      | nil => cases hd
      | cons _ _ => exact hd

theorem numberRun_of_word {p : Bytes} (h : ∀ b ∈ p, isWordByte b = true) : NumberRun p := by
  induction p with
  | nil => trivial
  | cons b p ih =>
    rw [List.forall_mem_cons] at h
    exact ⟨.inl h.1, ih h.2⟩

theorem numberRun_digits (h : NumberRun (s.take k)) :
    NumberRun (s.take (k + digitRun base (s.drop k))) := by
  rw [List.take_add]
  exact numberRun_append h (numberRun_of_word (digitRun_word base _))

theorem numberRun_one (h : NumberRun (s.take k)) (hk : k < s.length)
    (hb : isWordByte (s.getD k 0) = true ∨ is (s.getD k 0) '.' = true ∨ is (s.getD k 0) '+' = true) :
    NumberRun (s.take (k + 1)) := by
  rw [List.take_succ_eq_append_getElem hk]
  refine numberRun_append h ⟨?_, trivial⟩
  rw [List.getD_eq_getElem _ _ hk] at hb
  rcases hb with hb | hb | hb
  · exact .inl hb
  · exact .inr (.inl hb)
  · exact .inr (.inr (.inl hb))

/-- What one part of a number takes, from `k` to `e`. -/
structure Extends (s : Bytes) (k e : ℕ) : Prop where
  le : k ≤ e
  length : e ≤ s.length
  run : NumberRun (s.take k) → NumberRun (s.take e)

theorem Extends.refl (h : k ≤ s.length) : Extends s k k := ⟨le_rfl, h, id⟩

variable {e n : ℕ}

theorem Extends.trans (h : Extends s k e) (h' : Extends s e n) : Extends s k n :=
  ⟨h.le.trans h'.le, h'.length, h'.run ∘ h.run⟩

theorem extends_digits {s : Bytes} {base k : ℕ} (h : k ≤ s.length) :
    Extends s k (k + digitRun base (s.drop k)) := by
  refine ⟨Nat.le_add_right _ _, ?_, numberRun_digits⟩
  have := digitRun_le base (s.drop k)
  rw [List.length_drop] at this
  omega

theorem scanFraction_extends {frac : Option Bytes}
    (h : scanFraction s k = (e, frac)) (hk : k ≤ s.length) : Extends s k e := by
  unfold scanFraction at h
  split at h
  case isTrue hdot =>
    have hlt := lt_of_is (by decide) hdot
    have hone : Extends s k (k + 1) :=
      ⟨Nat.le_add_right _ _, hlt, fun hrun => numberRun_one hrun hlt (.inr (.inl hdot))⟩
    simp only [Prod.mk.injEq] at h
    rw [← h.1]
    split
    · exact hone.trans (extends_digits hlt)
    · exact hone
  case isFalse =>
    cases h
    exact .refl hk

theorem isDigitOf_ten (h : isDigit b = true) : isDigitOf 10 b = true := by
  have hle : b.toNat - 48 < 10 := by
    simp only [isDigit, Bool.and_eq_true, decide_eq_true_eq] at h
    have h9 : '9'.toNat = 57 := rfl
    omega
  simp [isDigitOf, toDigit, h, Option.filter, hle]

theorem isDigit_run (h : isDigit (s.getD k 0) = true) :
    1 ≤ digitRun 10 (s.drop k) := by
  have hk := lt_of_isDigit h
  rw [List.getD_eq_getElem _ _ hk] at h
  rw [List.drop_eq_getElem_cons hk, digitRun, isDigitOf_ten h, Bool.true_or, if_pos rfl]
  exact Nat.le_add_right _ _

/-- A sign and the digits it stands before. -/
theorem extends_signed (hsign : is (s.getD k 0) '-' = true ∨ is (s.getD k 0) '+' = true)
    (hdigit : isDigit (s.getD (k + 1) 0) = true) :
    Extends s k (k + 1 + digitRun 10 (s.drop (k + 1))) := by
  have hlt := lt_of_isDigit hdigit
  refine ⟨by omega, (extends_digits hlt.le).length, fun hrun => ?_⟩
  have hpos := isDigit_run hdigit
  have hdigits := digitRun_word 10 (s.drop (k + 1))
  rw [List.getD_eq_getElem _ _ hlt] at hdigit
  rw [List.getD_eq_getElem _ _ (by omega)] at hsign
  have hdrop : s.drop k = s[k] :: s.drop (k + 1) := List.drop_eq_getElem_cons (by omega)
  rw [add_assoc, List.take_add, hdrop, Nat.add_comm 1, List.take_succ_cons]
  refine numberRun_append hrun ⟨?_, numberRun_of_word hdigits⟩
  cases hsign with
  | inl hminus =>
    refine .inr (.inr (.inr ⟨hminus, s[k + 1], ?_, hdigit⟩))
    rw [List.head?_take, if_neg (by omega), List.head?_drop, List.getElem?_eq_getElem hlt]
    rfl
  | inr hplus => exact .inr (.inr (.inl hplus))

theorem scanExponent_extends {exp : Option ℤ}
    (h : scanExponent s k = .ok (e, exp)) (hk : k ≤ s.length) : Extends s k e := by
  unfold scanExponent at h
  split at h
  case isTrue he =>
    rw [Bool.or_eq_true] at he
    have hlt : k < s.length := he.elim (lt_of_is (by decide)) (lt_of_is (by decide))
    have hletter : isWordByte (s.getD k 0) = true :=
      he.elim (isWordByte_of_letter (by decide)) (isWordByte_of_letter (by decide))
    have hone : Extends s k (k + 1) :=
      ⟨Nat.le_add_right _ _, hlt, fun hrun => numberRun_one hrun hlt (.inl hletter)⟩
    dsimp only at h
    by_cases hsign : (is (s.getD (k + 1) 0) '-' || is (s.getD (k + 1) 0) '+') = true
    · rw [if_pos hsign] at h
      by_cases hdigit : isDigit (s.getD (k + 1 + 1) 0) = true
      · rw [if_pos hdigit] at h
        simp only [Except.ok.injEq, Prod.mk.injEq] at h
        rw [← h.1]
        exact hone.trans (extends_signed (by simpa using hsign) hdigit)
      · rw [if_neg hdigit, if_pos hsign] at h
        cases h
    · rw [if_neg hsign] at h
      by_cases hdigit : isDigit (s.getD (k + 1 + 0) 0) = true
      · rw [if_pos hdigit] at h
        simp only [Except.ok.injEq, Prod.mk.injEq] at h
        rw [← h.1]
        exact hone.trans (extends_digits hlt)
      · rw [if_neg hdigit, if_neg hsign] at h
        cases h
        exact .refl hk
  case isFalse =>
    cases h
    exact .refl hk

theorem intEnd_extends (s : Bytes) : Extends s 0 (intEnd s) := by
  unfold intEnd
  split
  · simpa using @extends_digits s 10 0 (Nat.zero_le _)
  · exact .refl (Nat.zero_le _)

variable {tok : Token}

theorem finishNumber_end {frac : Option Bytes} {exp : Option ℤ}
    (h : finishNumber s e frac exp = .ok (tok, n)) : n = e := by
  unfold finishNumber at h
  dsimp only at h
  split at h
  · cases h
  · split at h
    · simp only [bind_eq_ok, pure_eq_ok, Prod.mk.injEq] at h
      obtain ⟨_, -, -, rfl⟩ := h
      rfl
    · cases h
      rfl

/-- A decimal number ends before two dots, or where its exponent does. -/
theorem scanDecimal_parts (h : scanDecimal s = .ok (tok, n)) :
    (is (s.getD (intEnd s + 1) 0) '.' = true ∧ n = intEnd s) ∨
      ∃ exp, scanExponent s (scanFraction s (intEnd s)).1 = .ok (n, exp) := by
  unfold scanDecimal at h
  split at h
  case isTrue hdots =>
    rw [Bool.and_eq_true] at hdots
    simp only [bind_eq_ok, pure_eq_ok, Prod.mk.injEq] at h
    obtain ⟨_, -, -, rfl⟩ := h
    exact .inl ⟨hdots.2, rfl⟩
  case isFalse =>
    obtain ⟨⟨e, exp⟩, hexp, h⟩ := bind_eq_ok.mp h
    rw [finishNumber_end h]
    exact .inr ⟨exp, hexp⟩

theorem scanDecimal_extends (h : scanDecimal s = .ok (tok, n)) :
    Extends s (intEnd s) n := by
  have hint := intEnd_extends s
  rcases scanDecimal_parts h with ⟨-, rfl⟩ | ⟨exp, hexp⟩
  · exact .refl hint.length
  · have hfrac := scanFraction_extends (s := s) rfl hint.length
    exact hfrac.trans (scanExponent_extends hexp hfrac.length)

theorem scanRadix_extends {name : String}
    (h : scanRadix s base name = .ok (tok, n)) (hzero : is (s.getD 0 0) '0' = true)
    (hletter : isWordByte (s.getD 1 0) = true) : Extends s 0 n := by
  have hone : 1 < s.length := by
    by_contra hle
    rw [List.getD_eq_default _ _ (not_lt.mp hle)] at hletter
    cases hletter
  have hword : isWordByte (s.getD 0 0) = true := by
    generalize s.getD 0 0 = b at hzero
    rw [is_iff] at hzero
    simp [isWordByte, isDigit, hzero]
  have htwo : Extends s 0 2 := by
    refine ⟨Nat.zero_le _, hone, fun _ => ?_⟩
    exact numberRun_one (numberRun_one trivial (by omega) (.inl hword)) hone (.inl hletter)
  unfold scanRadix at h
  dsimp only at h
  split at h
  · split at h
    · cases h
    · simp only [bind_eq_ok, pure_eq_ok, Prod.mk.injEq] at h
      obtain ⟨_, -, -, rfl⟩ := h
      exact htwo.trans (extends_digits hone)
  · generalize (2 + if is (s.getD 2 0) '_' = true then 1 else 0) = failEnd at h
    split at h <;> cases h

theorem radixOf_word {r : ℕ × String} (h : radixOf b = some r) : isWordByte b = true := by
  unfold radixOf at h
  split at h
  case isTrue hx =>
    rw [Bool.or_eq_true] at hx
    exact hx.elim (isWordByte_of_letter (by decide)) (isWordByte_of_letter (by decide))
  case isFalse =>
    split at h
    case isTrue ho =>
      rw [Bool.or_eq_true] at ho
      exact ho.elim (isWordByte_of_letter (by decide)) (isWordByte_of_letter (by decide))
    case isFalse =>
      split at h
      case isTrue hb =>
        rw [Bool.or_eq_true] at hb
        exact hb.elim (isWordByte_of_letter (by decide)) (isWordByte_of_letter (by decide))
      case isFalse => cases h

theorem scanNumber_extends (h : scanNumber s = .ok (tok, n)) :
    Extends s 0 n := by
  unfold scanNumber at h
  split at h
  case h_1 base name hradix =>
    split at hradix
    case isTrue hzero => exact scanRadix_extends h hzero (radixOf_word hradix)
    case isFalse => cases hradix
  case h_2 => exact (intEnd_extends s).trans (scanDecimal_extends h)

theorem intEnd_pos {rest : Bytes} (hb : isDigit b = true) : 1 ≤ intEnd (b :: rest) := by
  have hrun := isDigit_run (s := b :: rest) (k := 0) hb
  rw [intEnd, if_pos (show isDigit ((b :: rest).getD 0 0) = true from hb)]
  exact hrun

/-- A number takes its first byte. -/
theorem scanNumber_pos {rest : Bytes}
    (hb : isDigit b = true ∨ is b '.' = true ∧ isDigit (rest.getD 0 0) = true)
    (h : scanNumber (b :: rest) = .ok (tok, n)) : 1 ≤ n := by
  unfold scanNumber at h
  split at h
  case h_1 base name _ =>
    unfold scanRadix at h
    dsimp only at h
    split at h
    · split at h
      · cases h
      · simp only [bind_eq_ok, pure_eq_ok, Prod.mk.injEq] at h
        obtain ⟨_, -, -, rfl⟩ := h
        omega
    · generalize (2 + if is ((b :: rest).getD 2 0) '_' = true then 1 else 0) = failEnd at h
      split at h <;> cases h
  case h_2 =>
    cases hb with
    | inl hdigit => exact (intEnd_pos hdigit).trans (scanDecimal_extends h).le
    | inr hdot =>
      have hnodigit : isDigit b = false := by
        have hb := is_iff.mp hdot.1
        simp [isDigit, hb]
      have hzero : intEnd (b :: rest) = 0 := by simp [intEnd, hnodigit]
      rcases scanDecimal_parts h with ⟨hdots, -⟩ | ⟨exp, hexp⟩
      · -- the byte after the dot is a digit
        rw [hzero] at hdots
        have hsecond := is_iff.mp (show is (rest.getD 0 0) '.' = true from hdots)
        rw [isDigit, hsecond] at hdot
        cases hdot.2
      · have hfrac : 1 ≤ (scanFraction (b :: rest) 0).1 := by
          unfold scanFraction
          rw [if_pos (show is ((b :: rest).getD 0 0) '.' = true from hdot.1)]
          dsimp only
          split <;> omega
        rw [hzero] at hexp
        have hlen := scanFraction_extends (s := b :: rest) (k := 0) rfl (Nat.zero_le _)
        exact hfrac.trans (scanExponent_extends hexp hlen.length).le

section Cut

variable {u t : Bytes}

variable {k base : ℕ}

theorem digitRun_drop (ht : Stops t) (hk : k ≤ u.length) :
    digitRun base ((u ++ t).drop k) = digitRun base (u.drop k) := by
  rw [List.drop_append_of_le_length hk, digitRun_append ht]

theorem identLen_drop (ht : Stops t) (hk : k ≤ u.length) :
    identLen ((u ++ t).drop k) = identLen (u.drop k) := by
  rw [List.drop_append_of_le_length hk, identLen_append ht]

theorem Stops.dot (ht : Stops t) : ∀ b ∈ t.head?, Sql.is b '.' = false := fun b hb => (ht b hb).2.1

theorem Stops.digit (ht : Stops t) (hk : k ≤ u.length) :
    Sql.isDigit ((u ++ t).getD k 0) = Sql.isDigit (u.getD k 0) :=
  test_append (by decide) ht.isDigit hk

theorem Stops.letter (ht : Stops t) {c : Char} (hzero : Sql.is 0 c = false)
    (hc : 65 ≤ c.toNat ∧ c.toNat ≤ 90 ∨ 97 ≤ c.toNat ∧ c.toNat ≤ 122) (hk : k ≤ u.length) :
    Sql.is ((u ++ t).getD k 0) c = Sql.is (u.getD k 0) c :=
  test_append hzero (ht.is fun _ => isWordByte_of_letter hc) hk

theorem scanFraction_cut (ht : Stops t) (hk : k ≤ u.length) :
    scanFraction (u ++ t) k = scanFraction u k := by
  unfold scanFraction
  rw [test_append (by decide) ht.dot hk]
  split
  case isTrue hdot =>
    have hlt := lt_of_is (by decide) hdot
    have hle := (@extends_digits _ 10 _ hlt).length
    dsimp only
    rw [ht.digit hlt, digitRun_drop ht hlt, List.take_append_of_le_length]
    split
    · exact hle
    · exact hlt
  case isFalse => rfl

theorem scanExponent_cut (ht : Stops t) {e : ℕ} {exp : Option ℤ}
    (h : scanExponent (u ++ t) k = .ok (e, exp)) (hk : k ≤ u.length) (he : e ≤ u.length) :
    scanExponent u k = .ok (e, exp) := by
  unfold scanExponent at h ⊢
  rw [ht.letter (by decide) (by decide) hk, ht.letter (by decide) (by decide) hk] at h
  split at h
  case isTrue hletter =>
    have hlt : k < u.length := by
      rw [Bool.or_eq_true] at hletter
      exact hletter.elim (lt_of_is (by decide)) (lt_of_is (by decide))
    rw [if_pos hletter]
    dsimp only at h ⊢
    rcases Nat.lt_or_eq_of_le hlt with hlt | hend
    · -- the byte a sign may stand at is within the text that is kept
      have hlt : k + 1 < u.length := hlt
      rw [List.getD_append _ _ _ _ hlt] at h
      generalize hsigned : (is (u.getD (k + 1) 0) '-' || is (u.getD (k + 1) 0) '+') = signed at h ⊢
      have hds : k + 1 + (if signed = true then 1 else 0) ≤ u.length := by
        cases signed
        · exact hlt.le
        · exact hlt
      generalize k + 1 + (if signed = true then 1 else 0) = ds at h hds ⊢
      rw [ht.digit hds, digitRun_drop ht hds, List.take_append_of_le_length
        (extends_digits hds).length] at h
      by_cases hdigit : isDigit (u.getD ds 0) = true
      · rw [if_pos hdigit] at h ⊢
        exact h
      · rw [if_neg hdigit] at h ⊢
        cases signed
        · exact h
        · cases h
    · -- it is the first that is cut off
      have hzero : u.getD (k + 1) 0 = 0 := List.getD_eq_default _ _ (by omega)
      have hnone : isDigit (u.getD (k + 1) 0) = false := by rw [hzero]; decide
      have hplain : (is (0 : UInt8) '-' || is 0 '+') = false := by decide
      rw [hzero, hplain]
      simp only [Bool.false_eq_true, if_false, add_zero, hnone]
      generalize hsigned : (is ((u ++ t).getD (k + 1) 0) '-' || is ((u ++ t).getD (k + 1) 0) '+') =
        signed at h
      by_cases hdigit : isDigit ((u ++ t).getD (k + 1 + if signed = true then 1 else 0) 0) = true
      · rw [if_pos hdigit] at h
        have hrun := isDigit_run hdigit
        simp only [Except.ok.injEq, Prod.mk.injEq] at h
        omega
      · rw [if_neg hdigit] at h
        cases signed
        · exact h
        · cases h
  case isFalse hletter => rw [if_neg hletter, h]

theorem intEnd_append (ht : Stops t) : intEnd (u ++ t) = intEnd u := by
  unfold intEnd
  rw [ht.digit (Nat.zero_le _), digitRun_append ht]

theorem finishNumber_cut (ht : Stops t) {e : ℕ} (he : e ≤ u.length) {frac : Option Bytes}
    {exp : Option ℤ} {r : Token × ℕ} (h : finishNumber (u ++ t) e frac exp = .ok r) :
    finishNumber u e frac exp = .ok r := by
  unfold finishNumber at h ⊢
  rw [identLen_drop ht he, List.take_append_of_le_length he, intEnd_append ht,
    List.take_append_of_le_length (intEnd_extends u).length] at h
  dsimp only at h ⊢
  split at h
  · cases h
  · rename_i hglued
    rw [if_neg hglued, h]

variable {tok : Token} {n : ℕ}

theorem scanDecimal_cut (ht : Stops t)
    (h : scanDecimal (u ++ t) = .ok (tok, n)) (hn : n ≤ u.length) : scanDecimal u = .ok (tok, n) := by
  have hint := (intEnd_extends u).length
  have hdots : (is ((u ++ t).getD (intEnd u) 0) '.' && is ((u ++ t).getD (intEnd u + 1) 0) '.') =
      (is (u.getD (intEnd u) 0) '.' && is (u.getD (intEnd u + 1) 0) '.') := by
    rw [test_append (by decide) ht.dot hint]
    cases hdot : is (u.getD (intEnd u) 0) '.' with
    | false => rfl
    | true =>
      rw [Bool.true_and, Bool.true_and]
      exact test_append (by decide) ht.dot (lt_of_is (by decide) hdot)
  unfold scanDecimal at h ⊢
  rw [intEnd_append ht, hdots, List.take_append_of_le_length hint, scanFraction_cut ht hint] at h
  split at h
  case isTrue hyes => rw [if_pos hyes, h]
  case isFalse hno =>
    rw [if_neg hno]
    have hfrac := scanFraction_extends (s := u) rfl hint
    obtain ⟨⟨e, exp⟩, hexp, h⟩ := bind_eq_ok.mp h
    have he := finishNumber_end h
    subst he
    rw [bind_eq_ok]
    exact ⟨_, scanExponent_cut ht hexp hfrac.length hn, finishNumber_cut ht hn h⟩

theorem scanRadix_cut (ht : Stops t) {name : String}
    (h : scanRadix (u ++ t) base name = .ok (tok, n)) (hn : n ≤ u.length) :
    scanRadix u base name = .ok (tok, n) := by
  unfold scanRadix at h ⊢
  dsimp only at h ⊢
  split at h
  case isTrue hlong =>
    split at h
    · cases h
    · rename_i hjunk
      have hfin : 2 + digitRun base ((u ++ t).drop 2) = n := by
        simp only [bind_eq_ok, pure_eq_ok, Prod.mk.injEq] at h
        obtain ⟨_, -, -, rfl⟩ := h
        rfl
      have htwo : 2 ≤ u.length := by omega
      rw [digitRun_drop ht htwo] at h hlong hjunk hfin
      rw [identLen_drop ht (by omega)] at hjunk
      rw [if_pos hlong, if_neg hjunk, ← h, hfin, List.take_append_of_le_length hn]
  case isFalse =>
    generalize (2 + if is ((u ++ t).getD 2 0) '_' = true then 1 else 0) = failEnd at h
    split at h <;> cases h

theorem radixOf_zero : radixOf 0 = none := by decide

theorem Stops.radixOf (ht : Stops t) (hone : 1 ≤ u.length) :
    Sql.radixOf ((u ++ t).getD 1 0) = Sql.radixOf (u.getD 1 0) := by
  rcases Nat.lt_or_eq_of_le hone with hlt | hend
  · rw [List.getD_append _ _ _ _ hlt]
  · have hzero : u.getD 1 0 = 0 := List.getD_eq_default _ _ (by omega)
    have hnone : ∀ b ∈ t.head?, Sql.radixOf b = none := by
      intro b hb
      cases hr : Sql.radixOf b with
      | none => rfl
      | some r =>
        have hw := radixOf_word hr
        rw [(ht b hb).1] at hw
        cases hw
    rw [hzero, radixOf_zero, List.getD_append_right _ _ _ _ (by omega), ← hend, Nat.sub_self]
    cases t with
    | nil => exact radixOf_zero
    | cons b t => exact hnone b rfl

theorem scanNumber_cut (ht : Stops t) (hne : u ≠ [])
    (h : scanNumber (u ++ t) = .ok (tok, n)) (hn : n ≤ u.length) : scanNumber u = .ok (tok, n) := by
  have hone : 1 ≤ u.length := List.length_pos_iff.mpr hne
  unfold scanNumber at h ⊢
  rw [List.getD_append _ _ _ _ hone, ht.radixOf hone] at h
  split at h
  case h_1 => exact scanRadix_cut ht h hn
  case h_2 => exact scanDecimal_cut ht h hn

end Cut

end Jed.Sql
