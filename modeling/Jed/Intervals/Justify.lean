import Jed.Key.Encode

/-!
# Justified intervals

`justify_hours`, `justify_days` and `justify_interval` (`interval.rs:406-491`), in the integer types they are
computed in, and the normal forms they return: the quotients and remainders of the span.
-/

namespace Jed.Intervals

open Key (span microsPerDay daysPerMonth)

/-- What the interval functions fail with; `overflow` is arithmetic that leaves its integer type. -/
inductive IntervalError where
  /-- `22008`. -/
  | fieldOverflow (message : String)
  /-- `22012`. -/
  | divisionByZero
  | overflow
  deriving DecidableEq

abbrev Checked (α : Type) : Type := Except IntervalError α

def outOfRange : IntervalError := .fieldOverflow "interval out of range"

def InI32 (v : ℤ) : Prop := -2147483648 ≤ v ∧ v ≤ 2147483647

def InI64 (v : ℤ) : Prop := -9223372036854775808 ≤ v ∧ v ≤ 9223372036854775807

instance (v : ℤ) : Decidable (InI32 v) := inferInstanceAs (Decidable (_ ∧ _))

instance (v : ℤ) : Decidable (InI64 v) := inferInstanceAs (Decidable (_ ∧ _))

/-- Arithmetic in `i32`. -/
def i32 (v : ℤ) : Checked ℤ := if InI32 v then .ok v else .error .overflow

/-- Arithmetic in `i64`. -/
def i64 (v : ℤ) : Checked ℤ := if InI64 v then .ok v else .error .overflow

/-- A value that has to be one of `i32` (`i32::try_from`, `checked_add`). -/
def tryI32 (v : ℤ) : Checked ℤ := if InI32 v then .ok v else .error outOfRange

/-- An interval as it is stored. -/
structure InRange (iv : Interval) : Prop where
  months : InI32 iv.months
  days : InI32 iv.days
  micros : InI64 iv.micros

/-- One day borrowed, where the days and the microseconds differ in sign. -/
def borrowDay (months days micros : ℤ) : Checked Interval :=
  if days > 0 ∧ micros < 0 then do
    let micros ← i64 (micros + microsPerDay)
    let days ← i32 (days - 1)
    return ⟨months, days, micros⟩
  else if days < 0 ∧ micros > 0 then do
    let micros ← i64 (micros - microsPerDay)
    let days ← i32 (days + 1)
    return ⟨months, days, micros⟩
  else .ok ⟨months, days, micros⟩

/-- `justify_hours`. -/
def justifyHours (iv : Interval) : Checked Interval := do
  let wholeDay := iv.micros.tdiv microsPerDay
  let chunk ← i64 (wholeDay * microsPerDay)
  let micros ← i64 (iv.micros - chunk)
  let sum ← i64 (iv.days + wholeDay)
  let days ← tryI32 sum
  borrowDay iv.months days micros

/-- `justify_days`. -/
def justifyDays (iv : Interval) : Checked Interval := do
  let wholeMonth := iv.days.tdiv daysPerMonth
  let chunk ← i32 (wholeMonth * daysPerMonth)
  let days ← i32 (iv.days - chunk)
  let months ← tryI32 (iv.months + wholeMonth)
  if months > 0 ∧ days < 0 then do
    let days ← i32 (days + daysPerMonth)
    let months ← i32 (months - 1)
    return ⟨months, days, iv.micros⟩
  else if months < 0 ∧ days > 0 then do
    let days ← i32 (days - daysPerMonth)
    let months ← i32 (months + 1)
    return ⟨months, days, iv.micros⟩
  else return ⟨months, days, iv.micros⟩

/-- Whole months moved out of the days. -/
def moveMonths (months days : ℤ) : Checked (ℤ × ℤ) := do
  let wholeMonth := days.tdiv daysPerMonth
  let chunk ← i32 (wholeMonth * daysPerMonth)
  let days ← i32 (days - chunk)
  let months ← tryI32 (months + wholeMonth)
  return (months, days)

/-- The months and days before the microseconds are looked at: whole months are moved out of days of the
    sign of the microseconds. -/
def preJustify (iv : Interval) : Checked (ℤ × ℤ) :=
  if (iv.days > 0 ∧ iv.micros > 0) ∨ (iv.days < 0 ∧ iv.micros < 0) then moveMonths iv.months iv.days
  else .ok (iv.months, iv.days)

/-- One month borrowed, where the months differ in sign from the days, or from the microseconds where there
    are no days. -/
def borrowMonth (months days micros : ℤ) : Checked (ℤ × ℤ) :=
  if months > 0 ∧ (days < 0 ∨ (days = 0 ∧ micros < 0)) then do
    let days ← i32 (days + daysPerMonth)
    let months ← i32 (months - 1)
    return (months, days)
  else if months < 0 ∧ (days > 0 ∨ (days = 0 ∧ micros > 0)) then do
    let days ← i32 (days - daysPerMonth)
    let months ← i32 (months + 1)
    return (months, days)
  else .ok (months, days)

/-- `justify_interval`. -/
def justifyInterval (iv : Interval) : Checked Interval := do
  let pre ← preJustify iv
  let wholeDay := iv.micros.tdiv microsPerDay
  let chunk ← i64 (wholeDay * microsPerDay)
  let micros ← i64 (iv.micros - chunk)
  let wholeDay ← i32 wholeDay
  let days ← i32 (pre.2 + wholeDay)
  let moved ← moveMonths pre.1 days
  let borrowed ← borrowMonth moved.1 moved.2 micros
  borrowDay borrowed.1 borrowed.2 micros

/-- The days and the microseconds of an interval, in microseconds. -/
def daySpan (iv : Interval) : ℤ := iv.days * microsPerDay + iv.micros

/-- The months and the days of an interval, in days. -/
def monthSpan (iv : Interval) : ℤ := iv.months * daysPerMonth + iv.days

def normalHours (iv : Interval) : Interval :=
  ⟨iv.months, (daySpan iv).tdiv microsPerDay, (daySpan iv).tmod microsPerDay⟩

def normalDays (iv : Interval) : Interval :=
  ⟨(monthSpan iv).tdiv daysPerMonth, (monthSpan iv).tmod daysPerMonth, iv.micros⟩

def normalInterval (iv : Interval) : Interval :=
  ⟨((span iv).tdiv microsPerDay).tdiv daysPerMonth, ((span iv).tdiv microsPerDay).tmod daysPerMonth,
    (span iv).tmod microsPerDay⟩

/-- The months with the whole months of the days and of the whole days of the microseconds. -/
def monthSum (iv : Interval) : ℤ :=
  iv.months + (iv.days + iv.micros.tdiv microsPerDay).tdiv daysPerMonth

variable {c : ℤ}

/-- A truncated quotient and its remainder have the sign of what is divided. -/
theorem tdiv_split (a : ℤ) (hc : 0 < c) : a = a.tdiv c * c + a.tmod c ∧
    (0 ≤ a → 0 ≤ a.tdiv c ∧ 0 ≤ a.tmod c ∧ a.tmod c < c) ∧
    (a ≤ 0 → a.tdiv c ≤ 0 ∧ a.tmod c ≤ 0 ∧ -c < a.tmod c) := by
  refine ⟨?_, ?_, ?_⟩
  · rw [Int.mul_comm]
    exact (Int.mul_tdiv_add_tmod a c).symm
  · intro h
    exact ⟨Int.tdiv_nonneg h (Int.le_of_lt hc), Int.tmod_nonneg c h, Int.tmod_lt_of_pos a hc⟩
  · intro h
    have hneg : 0 ≤ -a := Int.neg_nonneg_of_nonpos h
    have hdiv := Int.tdiv_nonneg hneg (Int.le_of_lt hc)
    have hmod := Int.tmod_nonneg c hneg
    have hlt := Int.tmod_lt_of_pos (-a) hc
    rw [Int.neg_tdiv] at hdiv
    rw [Int.neg_tmod] at hmod hlt
    omega

/-- No other quotient and remainder have it. -/
theorem tdiv_unique {a c q r : ℤ} (h : a = q * c + r) (hlo : -c < r) (hhi : r < c)
    (hpos : 0 < q → 0 ≤ r) (hneg : q < 0 → r ≤ 0) : a.tdiv c = q ∧ a.tmod c = r := by
  have hc : 0 < c := by omega
  have hquot : a.tdiv c = q := by
    rcases Int.lt_trichotomy q 0 with hq | rfl | hq
    · have hr := hneg hq
      rw [h, ← Int.neg_neg (q * c + r), Int.neg_tdiv, Int.tdiv_eq_ediv_of_nonneg, Int.neg_add,
        ← Int.neg_mul, Int.add_comm, Int.add_mul_ediv_right _ _ (Int.ne_of_gt hc),
        Int.ediv_eq_zero_of_lt (by omega) (by omega)]
      · omega
      · have := Int.mul_le_mul_of_nonneg_right (show 1 ≤ -q by omega) (Int.le_of_lt hc)
        rw [Int.neg_mul] at this
        omega
    · rw [h, Int.zero_mul, Int.zero_add]
      rcases Int.le_total 0 r with hr | hr
      · exact Int.tdiv_eq_zero_of_lt hr hhi
      · rw [← Int.neg_neg r, Int.neg_tdiv, Int.tdiv_eq_zero_of_lt (by omega) (by omega), Int.neg_zero]
    · have hr := hpos hq
      have hqc := Int.mul_nonneg (Int.le_of_lt hq) (Int.le_of_lt hc)
      rw [h, Int.tdiv_eq_ediv_of_nonneg (by omega), Int.add_comm,
        Int.add_mul_ediv_right _ _ (Int.ne_of_gt hc), Int.ediv_eq_zero_of_lt hr hhi, Int.zero_add]
  refine ⟨hquot, ?_⟩
  have := Int.mul_tdiv_add_tmod a c
  rw [hquot, Int.mul_comm] at this
  omega

section Steps

variable {α : Type}

theorem i32_bind {v : ℤ} {f : ℤ → Checked α} (h : InI32 v) : (i32 v >>= f) = f v := by
  rw [i32, if_pos h]
  rfl

theorem i64_bind {v : ℤ} {f : ℤ → Checked α} (h : InI64 v) : (i64 v >>= f) = f v := by
  rw [i64, if_pos h]
  rfl

theorem tryI32_bind (v : ℤ) (f : ℤ → Checked α) :
    (tryI32 v >>= f) = if InI32 v then f v else .error outOfRange := by
  rw [tryI32]
  split <;> rfl

/-- A day is borrowed from the days and microseconds of one span. -/
theorem borrowDay_eq {months days micros : ℤ} (hdays : InI32 days) (hlo : -microsPerDay < micros)
    (hhi : micros < microsPerDay) :
    borrowDay months days micros = .ok ⟨months, (days * microsPerDay + micros).tdiv microsPerDay,
      (days * microsPerDay + micros).tmod microsPerDay⟩ := by
  have hunique : ∀ q r, days * microsPerDay + micros = q * microsPerDay + r → -microsPerDay < r →
      r < microsPerDay → (0 < q → 0 ≤ r) → (q < 0 → r ≤ 0) →
      (⟨months, (days * microsPerDay + micros).tdiv microsPerDay,
        (days * microsPerDay + micros).tmod microsPerDay⟩ : Interval) = ⟨months, q, r⟩ := by
    intro q r h hlo hhi hpos hneg
    obtain ⟨hq, hr⟩ := tdiv_unique h hlo hhi hpos hneg
    rw [hq, hr]
  rw [microsPerDay] at *
  rw [borrowDay, microsPerDay]
  unfold InI32 at hdays
  split
  · rw [i64_bind (by unfold InI64; omega), i32_bind (by unfold InI32; omega),
      hunique (days - 1) (micros + 86400 * 1000000) (by omega) (by omega) (by omega) (by omega) (by omega)]
    rfl
  · split
    · rw [i64_bind (by unfold InI64; omega), i32_bind (by unfold InI32; omega),
        hunique (days + 1) (micros - 86400 * 1000000) (by omega) (by omega) (by omega) (by omega)
          (by omega)]
      rfl
    · rw [hunique days micros rfl hlo hhi (by omega) (by omega)]

variable {iv : Interval}

/-- `justify_hours` returns the normal form, if its days are in range. -/
theorem justifyHours_eq (h : InRange iv) :
    justifyHours iv = if InI32 (normalHours iv).days then .ok (normalHours iv) else .error outOfRange := by
  obtain ⟨-, hdays, hmicros⟩ := h
  obtain ⟨hsplit, hpos, hneg⟩ := tdiv_split iv.micros (show 0 < microsPerDay by decide)
  have hsum : (iv.days + iv.micros.tdiv microsPerDay) * microsPerDay + iv.micros.tmod microsPerDay =
      daySpan iv := by
    rw [daySpan, Int.add_mul]
    omega
  have hlo : -microsPerDay < iv.micros.tmod microsPerDay := by
    rw [microsPerDay] at *
    omega
  have hhi : iv.micros.tmod microsPerDay < microsPerDay := by
    rw [microsPerDay] at *
    omega
  rw [justifyHours]
  unfold InI64 at hmicros
  unfold InI32 at hdays
  have hdaysSplit := tdiv_split (daySpan iv) (show 0 < microsPerDay by decide)
  rw [← hsum] at hdaysSplit
  rw [normalHours, ← hsum]
  rw [microsPerDay] at *
  rw [i64_bind (by unfold InI64; omega), i64_bind (by unfold InI64; omega),
    i64_bind (by unfold InI64; omega), tryI32_bind,
    show iv.micros - iv.micros.tdiv (86400 * 1000000) * (86400 * 1000000) =
      iv.micros.tmod (86400 * 1000000) by omega]
  by_cases hin : InI32 (iv.days + iv.micros.tdiv (86400 * 1000000))
  · rw [if_pos hin, borrowDay_eq hin hlo hhi, microsPerDay, if_pos]
    unfold InI32 at *
    dsimp only
    omega
  · rw [if_neg hin, if_neg]
    unfold InI32 at *
    dsimp only
    omega

/-- `justify_days` returns the normal form, if its months are in range. -/
theorem justifyDays_eq (h : InRange iv) :
    justifyDays iv = if InI32 (normalDays iv).months then .ok (normalDays iv) else .error outOfRange := by
  obtain ⟨hmonths, hdays, -⟩ := h
  have hdaysSplit := tdiv_split iv.days (show 0 < daysPerMonth by decide)
  have hspan : monthSpan iv = (iv.months + iv.days.tdiv daysPerMonth) * daysPerMonth +
      iv.days.tmod daysPerMonth := by
    rw [monthSpan, Int.add_mul]
    omega
  have hunique : ∀ q r, monthSpan iv = q * daysPerMonth + r → -daysPerMonth < r → r < daysPerMonth →
      (0 < q → 0 ≤ r) → (q < 0 → r ≤ 0) → normalDays iv = ⟨q, r, iv.micros⟩ := by
    intro q r h hlo hhi hpos hneg
    obtain ⟨hq, hr⟩ := tdiv_unique h hlo hhi hpos hneg
    rw [normalDays, hq, hr]
  unfold InI32 at hmonths hdays
  rw [justifyDays]
  rw [daysPerMonth] at *
  rw [i32_bind (by unfold InI32; omega), i32_bind (by unfold InI32; omega), tryI32_bind,
    show iv.days - iv.days.tdiv 30 * 30 = iv.days.tmod 30 by omega]
  by_cases hin : InI32 (iv.months + iv.days.tdiv 30)
  · rw [if_pos hin]
    unfold InI32 at hin
    split
    · rw [i32_bind (by unfold InI32; omega), i32_bind (by unfold InI32; omega),
        hunique (iv.months + iv.days.tdiv 30 - 1) (iv.days.tmod 30 + 30) (by omega) (by omega) (by omega)
          (by omega) (by omega), if_pos (by unfold InI32; dsimp only; omega)]
      rfl
    · split
      · rw [i32_bind (by unfold InI32; omega), i32_bind (by unfold InI32; omega),
          hunique (iv.months + iv.days.tdiv 30 + 1) (iv.days.tmod 30 - 30) (by omega) (by omega)
            (by omega) (by omega) (by omega), if_pos (by unfold InI32; dsimp only; omega)]
        rfl
      · rw [hunique (iv.months + iv.days.tdiv 30) (iv.days.tmod 30) hspan (by omega) (by omega)
          (by omega) (by omega), if_pos (by unfold InI32; exact hin)]
        rfl
  · rw [if_neg hin, hunique (iv.months + iv.days.tdiv 30) (iv.days.tmod 30) hspan (by omega) (by omega)
      (by unfold InI32 at hin; omega) (by unfold InI32 at hin; omega), if_neg hin]

theorem moveMonths_bind {months days : ℤ} (hdays : InI32 days) (f : ℤ × ℤ → Checked α) :
    (moveMonths months days >>= f) = if InI32 (months + days.tdiv daysPerMonth)
      then f (months + days.tdiv daysPerMonth, days.tmod daysPerMonth) else .error outOfRange := by
  have hsplit := tdiv_split days (show 0 < daysPerMonth by decide)
  unfold InI32 at hdays
  rw [moveMonths]
  rw [daysPerMonth] at *
  rw [i32_bind (by unfold InI32; omega), i32_bind (by unfold InI32; omega), tryI32_bind,
    show days - days.tdiv 30 * 30 = days.tmod 30 by omega]
  split <;> rfl

theorem normalInterval_unique {m d u : ℤ} (h : span iv = (m * daysPerMonth + d) * microsPerDay + u)
    (hd : -daysPerMonth < d ∧ d < daysPerMonth) (hu : -microsPerDay < u ∧ u < microsPerDay)
    (hsign : (0 ≤ m ∧ 0 ≤ d ∧ 0 ≤ u) ∨ (m ≤ 0 ∧ d ≤ 0 ∧ u ≤ 0)) : normalInterval iv = ⟨m, d, u⟩ := by
  rw [daysPerMonth] at *
  obtain ⟨hq, hr⟩ := tdiv_unique h hu.1 hu.2 (by omega) (by omega)
  obtain ⟨hm, hd⟩ := @tdiv_unique (m * 30 + d) 30 m d rfl hd.1 hd.2 (by omega) (by omega)
  rw [normalInterval, hq, hr, daysPerMonth, hm, hd]

/-- The borrows give every field one sign. -/
theorem borrow_eq {m d u : ℤ} (hm : InI32 m) (h : span iv = (m * daysPerMonth + d) * microsPerDay + u)
    (hd : -daysPerMonth < d ∧ d < daysPerMonth) (hu : -microsPerDay < u ∧ u < microsPerDay) :
    (do
      let borrowed ← borrowMonth m d u
      borrowDay borrowed.1 borrowed.2 u) = .ok (normalInterval iv) := by
  unfold InI32 at hm
  rw [daysPerMonth] at h hd
  have hfinish : ∀ m' d', m' * 30 + d' = m * 30 + d → -30 ≤ d' ∧ d' ≤ 30 →
      (d' = 30 → u < 0) → (d' = -30 → 0 < u) → (0 < m' → 0 < d' ∨ (d' = 0 ∧ 0 ≤ u)) →
      (m' < 0 → d' < 0 ∨ (d' = 0 ∧ u ≤ 0)) →
      borrowDay m' d' u = .ok (normalInterval iv) := by
    intro m' d' hsame hrange htop hbottom hpos hneg
    have hsplit := tdiv_split (d' * microsPerDay + u) (show 0 < microsPerDay by decide)
    rw [borrowDay_eq (by unfold InI32; omega) hu.1 hu.2]
    rw [microsPerDay] at *
    congr 1
    refine (normalInterval_unique ?_ ?_ ?_ ?_).symm
    · rw [h, daysPerMonth, microsPerDay]
      omega
    · rw [daysPerMonth]
      omega
    · rw [microsPerDay]
      omega
    · omega
  rw [borrowMonth, daysPerMonth]
  split
  · rw [i32_bind (by unfold InI32; omega), i32_bind (by unfold InI32; omega)]
    exact hfinish (m - 1) (d + 30) (by omega) (by omega) (by omega) (by omega) (by omega) (by omega)
  · split
    · rw [i32_bind (by unfold InI32; omega), i32_bind (by unfold InI32; omega)]
      exact hfinish (m + 1) (d - 30) (by omega) (by omega) (by omega) (by omega) (by omega) (by omega)
    · exact hfinish m d rfl (by omega) (by omega) (by omega) (by omega) (by omega)

/-- `justify_interval` returns the normal form, if the months with all whole months are in range. -/
theorem justifyInterval_eq (h : InRange iv) :
    justifyInterval iv = if InI32 (monthSum iv) then .ok (normalInterval iv) else .error outOfRange := by
  obtain ⟨hmonths, hdays, hmicros⟩ := h
  have hmicrosSplit := tdiv_split iv.micros (show 0 < microsPerDay by decide)
  have hlo : -microsPerDay < iv.micros.tmod microsPerDay ∧
      iv.micros.tmod microsPerDay < microsPerDay := by
    rw [microsPerDay] at *
    omega
  -- what follows once the whole months and the whole days are where they belong
  have hmoved : ∀ pre : ℤ × ℤ, InI32 pre.1 →
      InI32 (pre.2 + iv.micros.tdiv microsPerDay) → pre.1 * daysPerMonth + pre.2 = monthSpan iv →
      pre.1 + (pre.2 + iv.micros.tdiv microsPerDay).tdiv daysPerMonth = monthSum iv →
      (do
        let chunk ← i64 (iv.micros.tdiv microsPerDay * microsPerDay)
        let micros ← i64 (iv.micros - chunk)
        let wholeDay ← i32 (iv.micros.tdiv microsPerDay)
        let days ← i32 (pre.2 + wholeDay)
        let moved ← moveMonths pre.1 days
        let borrowed ← borrowMonth moved.1 moved.2 micros
        borrowDay borrowed.1 borrowed.2 micros) =
        if InI32 (monthSum iv) then .ok (normalInterval iv) else .error outOfRange := by
    intro pre hpre hsum hspan hmonth
    have hdaysSplit := tdiv_split (pre.2 + iv.micros.tdiv microsPerDay) (show 0 < daysPerMonth by decide)
    have hspan' : span iv = (monthSum iv * daysPerMonth +
        (pre.2 + iv.micros.tdiv microsPerDay).tmod daysPerMonth) * microsPerDay +
          iv.micros.tmod microsPerDay := by
      rw [span, ← hmonth]
      rw [monthSpan, daysPerMonth] at hspan
      rw [daysPerMonth, microsPerDay] at *
      omega
    unfold InI64 at hmicros
    rw [i64_bind (by unfold InI64; rw [microsPerDay] at *; omega),
      i64_bind (by unfold InI64; rw [microsPerDay] at *; omega),
      i32_bind (by unfold InI32; rw [microsPerDay] at *; omega), i32_bind hsum, moveMonths_bind hsum,
      hmonth, show iv.micros - iv.micros.tdiv microsPerDay * microsPerDay = iv.micros.tmod microsPerDay by
        omega]
    by_cases hin : InI32 (monthSum iv)
    · rw [if_pos hin, if_pos hin]
      exact borrow_eq hin hspan' (by rw [daysPerMonth] at *; omega) hlo
    · rw [if_neg hin, if_neg hin]
  rw [justifyInterval, preJustify]
  have hdaysSplit := tdiv_split iv.days (show 0 < daysPerMonth by decide)
  have hsumSplit := tdiv_split (iv.days + iv.micros.tdiv microsPerDay) (show 0 < daysPerMonth by decide)
  unfold InI32 at hmonths hdays
  unfold InI64 at hmicros
  split
  · rename_i hsame
    have htotal : iv.months + iv.days.tdiv daysPerMonth +
        (iv.days.tmod daysPerMonth + iv.micros.tdiv microsPerDay).tdiv daysPerMonth = monthSum iv := by
      have hrest := tdiv_split (iv.days.tmod daysPerMonth + iv.micros.tdiv microsPerDay)
        (show 0 < daysPerMonth by decide)
      rw [monthSum, daysPerMonth] at *
      rw [microsPerDay] at *
      omega
    rw [moveMonths_bind hdays]
    by_cases hin : InI32 (iv.months + iv.days.tdiv daysPerMonth)
    · rw [if_pos hin]
      apply hmoved (iv.months + iv.days.tdiv daysPerMonth, iv.days.tmod daysPerMonth) hin
      · unfold InI32
        rw [daysPerMonth, microsPerDay] at *
        dsimp only
        omega
      · rw [monthSpan]
        rw [daysPerMonth] at *
        dsimp only
        omega
      · exact htotal
    · have hout : ¬InI32 (monthSum iv) := by
        have hrest := tdiv_split (iv.days.tmod daysPerMonth + iv.micros.tdiv microsPerDay)
          (show 0 < daysPerMonth by decide)
        rw [← htotal]
        unfold InI32 at hin ⊢
        rw [daysPerMonth, microsPerDay] at *
        omega
      rw [if_neg hin, if_neg hout]
  · apply hmoved (iv.months, iv.days) hmonths
    · unfold InI32
      rw [microsPerDay] at *
      dsimp only
      omega
    · rfl
    · rfl

end Steps

/-- All of some fields have one sign. -/
def OneSign (fields : List ℤ) : Prop := (∀ v ∈ fields, 0 ≤ v) ∨ ∀ v ∈ fields, v ≤ 0

/-- What an interval is justified to. -/
structure JustifiedHours (iv out : Interval) : Prop where
  span : span out = span iv
  months : out.months = iv.months
  micros : -microsPerDay < out.micros ∧ out.micros < microsPerDay
  sign : OneSign [out.days, out.micros]
  again : justifyHours out = .ok out

structure JustifiedDays (iv out : Interval) : Prop where
  span : span out = span iv
  micros : out.micros = iv.micros
  days : -daysPerMonth < out.days ∧ out.days < daysPerMonth
  sign : OneSign [out.months, out.days]
  again : justifyDays out = .ok out

structure JustifiedInterval (iv out : Interval) : Prop where
  span : span out = span iv
  days : -daysPerMonth < out.days ∧ out.days < daysPerMonth
  micros : -microsPerDay < out.micros ∧ out.micros < microsPerDay
  sign : OneSign [out.months, out.days, out.micros]
  again : justifyInterval out = .ok out

theorem oneSign_of_tdiv (a : ℤ) (hc : 0 < c) : OneSign [a.tdiv c, a.tmod c] := by
  obtain ⟨-, hpos, hneg⟩ := tdiv_split a hc
  rcases Int.le_total 0 a with h | h
  · left
    rw [List.forall_mem_cons, List.forall_mem_singleton]
    exact ⟨(hpos h).1, (hpos h).2.1⟩
  · right
    rw [List.forall_mem_cons, List.forall_mem_singleton]
    exact ⟨(hneg h).1, (hneg h).2.1⟩

theorem tmod_bounds (a : ℤ) (hc : 0 < c) : -c < a.tmod c ∧ a.tmod c < c := by
  have := tdiv_split a hc
  omega

variable {iv : Interval}

theorem justifiedHours_normal (h : InRange iv) (hin : InI32 (normalHours iv).days) :
    JustifiedHours iv (normalHours iv) := by
  have hD : 0 < microsPerDay := by decide
  have hsplit := tdiv_split (daySpan iv) hD
  have hsame : daySpan (normalHours iv) = daySpan iv := hsplit.1.symm
  have hagain : normalHours (normalHours iv) = normalHours iv := by
    rw [normalHours, hsame]
    rfl
  constructor
  · rw [Key.span, Key.span]
    rw [daySpan, daySpan] at hsame
    rw [Int.add_mul, Int.add_mul, Int.add_assoc, hsame, Int.add_assoc]
    rfl
  · rfl
  · exact tmod_bounds _ hD
  · exact oneSign_of_tdiv _ hD
  · have hrange : InRange (normalHours iv) := by
      refine ⟨h.months, hin, ?_⟩
      have := tmod_bounds (daySpan iv) hD
      unfold InI64
      rw [microsPerDay] at *
      rw [normalHours, microsPerDay]
      dsimp only
      omega
    rw [justifyHours_eq hrange, hagain, if_pos hin]

theorem justifiedDays_normal (h : InRange iv) (hin : InI32 (normalDays iv).months) :
    JustifiedDays iv (normalDays iv) := by
  have hM : 0 < daysPerMonth := by decide
  have hsplit := tdiv_split (monthSpan iv) hM
  have hsame : monthSpan (normalDays iv) = monthSpan iv := hsplit.1.symm
  have hagain : normalDays (normalDays iv) = normalDays iv := by
    rw [normalDays, hsame]
    rfl
  constructor
  · have : (normalDays iv).micros = iv.micros := rfl
    rw [Key.span, Key.span, this]
    rw [monthSpan, monthSpan] at hsame
    rw [hsame]
  · rfl
  · exact tmod_bounds _ hM
  · exact oneSign_of_tdiv _ hM
  · have hrange : InRange (normalDays iv) := by
      refine ⟨hin, ?_, h.micros⟩
      have := tmod_bounds (monthSpan iv) hM
      unfold InI32
      rw [daysPerMonth] at *
      rw [normalDays, daysPerMonth]
      dsimp only
      omega
    rw [justifyDays_eq hrange, hagain, if_pos hin]

/-- The months of the normal form are the months with all whole months, or one less in magnitude. -/
theorem normalInterval_months (iv : Interval) :
    (normalInterval iv).months = monthSum iv ∨
      (0 < monthSum iv ∧ (normalInterval iv).months = monthSum iv - 1) ∨
      (monthSum iv < 0 ∧ (normalInterval iv).months = monthSum iv + 1) := by
  -- the whole days of the span are all the whole days, or one less in magnitude
  obtain ⟨days, hsum⟩ : ∃ days, days = iv.months * daysPerMonth + iv.days + iv.micros.tdiv microsPerDay := ⟨_, rfl⟩
  have hwhole : (span iv).tdiv microsPerDay = days ∨ (0 < days ∧ (span iv).tdiv microsPerDay = days - 1) ∨
      (days < 0 ∧ (span iv).tdiv microsPerDay = days + 1) := by
    have hmicros := tdiv_split iv.micros (show 0 < microsPerDay by decide)
    have hspan := tdiv_split (span iv) (show 0 < microsPerDay by decide)
    rw [span] at *
    rw [microsPerDay] at *
    omega
  have hdays := tdiv_split (iv.days + iv.micros.tdiv microsPerDay) (show 0 < daysPerMonth by decide)
  have hall := tdiv_split ((span iv).tdiv microsPerDay) (show 0 < daysPerMonth by decide)
  rw [normalInterval, monthSum]
  dsimp only
  rw [daysPerMonth] at *
  omega

theorem justifiedInterval_normal (hin : InI32 (monthSum iv)) :
    JustifiedInterval iv (normalInterval iv) := by
  have hD : 0 < microsPerDay := by decide
  have hM : 0 < daysPerMonth := by decide
  have hspan := tdiv_split (span iv) hD
  have hall := tdiv_split ((span iv).tdiv microsPerDay) hM
  have hmonths := normalInterval_months iv
  have hin' : InI32 (normalInterval iv).months := by
    unfold InI32 at *
    omega
  have hdays : (normalInterval iv).days = ((span iv).tdiv microsPerDay).tmod daysPerMonth := rfl
  have hmicros : (normalInterval iv).micros = (span iv).tmod microsPerDay := rfl
  have hsame : span (normalInterval iv) = span iv := by
    have : span (normalInterval iv) = (((span iv).tdiv microsPerDay).tdiv daysPerMonth * daysPerMonth +
      ((span iv).tdiv microsPerDay).tmod daysPerMonth) * microsPerDay + (span iv).tmod microsPerDay := rfl
    rw [this, ← hall.1, ← hspan.1]
  have hagain : normalInterval (normalInterval iv) = normalInterval iv := by
    rw [normalInterval, hsame]
    rfl
  constructor
  · exact hsame
  · exact tmod_bounds _ hM
  · exact tmod_bounds _ hD
  · rcases Int.le_total 0 (span iv) with h | h
    · left
      rw [List.forall_mem_cons, List.forall_mem_cons, List.forall_mem_singleton]
      exact ⟨(hall.2.1 (hspan.2.1 h).1).1, (hall.2.1 (hspan.2.1 h).1).2.1, (hspan.2.1 h).2.1⟩
    · right
      rw [List.forall_mem_cons, List.forall_mem_cons, List.forall_mem_singleton]
      exact ⟨(hall.2.2 (hspan.2.2 h).1).1, (hall.2.2 (hspan.2.2 h).1).2.1, (hspan.2.2 h).2.1⟩
  · have hdays' := tmod_bounds ((span iv).tdiv microsPerDay) hM
    have hmicros' := tmod_bounds (span iv) hD
    have hrange : InRange (normalInterval iv) := by
      refine ⟨hin', ?_, ?_⟩
      · rw [hdays]
        unfold InI32
        rw [daysPerMonth] at *
        omega
      · rw [hmicros]
        unfold InI64
        rw [microsPerDay] at *
        omega
    have hzero : (normalInterval iv).micros.tdiv microsPerDay = 0 := by
      rw [hmicros]
      exact (@tdiv_unique _ microsPerDay 0 ((span iv).tmod microsPerDay) (by omega) hmicros'.1 hmicros'.2
        (by omega) (by omega)).1
    have hzero' : (normalInterval iv).days.tdiv daysPerMonth = 0 := by
      rw [hdays]
      exact (@tdiv_unique _ daysPerMonth 0 (((span iv).tdiv microsPerDay).tmod daysPerMonth) (by omega)
        hdays'.1 hdays'.2 (by omega) (by omega)).1
    have hsum : monthSum (normalInterval iv) = (normalInterval iv).months := by
      rw [monthSum, hzero, Int.add_zero, hzero', Int.add_zero]
    rw [justifyInterval_eq hrange, hsum, if_pos hin', hagain]

/-- Justification of one interval: each function returns the normal form or refuses one sum. -/
structure Justification (iv : Interval) : Prop where
  hours : (∃ out, justifyHours iv = .ok out ∧ JustifiedHours iv out ∧ out = normalHours iv ∧
      InI32 out.days) ∨
    (justifyHours iv = .error outOfRange ∧ ¬InI32 (normalHours iv).days)
  days : (∃ out, justifyDays iv = .ok out ∧ JustifiedDays iv out ∧ out = normalDays iv ∧
      InI32 out.months) ∨
    (justifyDays iv = .error outOfRange ∧ ¬InI32 (normalDays iv).months)
  interval : (∃ out, justifyInterval iv = .ok out ∧ JustifiedInterval iv out ∧
      out = normalInterval iv ∧ InI32 (monthSum iv)) ∨
    (justifyInterval iv = .error outOfRange ∧ ¬InI32 (monthSum iv))

/-- The three functions justify every interval, or refuse it by the sum that they check. -/
theorem justification {iv : Interval} (h : InRange iv) : Justification iv := by
  constructor
  · rw [justifyHours_eq h]
    by_cases hin : InI32 (normalHours iv).days
    · exact .inl ⟨_, if_pos hin, justifiedHours_normal h hin, rfl, hin⟩
    · exact .inr ⟨if_neg hin, hin⟩
  · rw [justifyDays_eq h]
    by_cases hin : InI32 (normalDays iv).months
    · exact .inl ⟨_, if_pos hin, justifiedDays_normal h hin, rfl, hin⟩
    · exact .inr ⟨if_neg hin, hin⟩
  · rw [justifyInterval_eq h]
    by_cases hin : InI32 (monthSum iv)
    · exact .inl ⟨_, if_pos hin, justifiedInterval_normal hin, rfl, hin⟩
    · exact .inr ⟨if_neg hin, hin⟩

/-- One month less one hour. -/
theorem justification_month : Justification ⟨1, 0, -3600000000⟩ :=
  justification ⟨by decide, by decide, by decide⟩

/-- The largest month count with 30 days less a microsecond is refused: the sum of the months is out of range
    before the borrow that brings it back. -/
theorem justifyInterval_refuses :
    justifyInterval ⟨2147483647, 30, -1⟩ = .error outOfRange ∧
      normalInterval ⟨2147483647, 30, -1⟩ = ⟨2147483647, 29, 86399999999⟩ := by
  decide

end Jed.Intervals
