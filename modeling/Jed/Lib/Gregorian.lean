import Mathlib.Data.Int.Notation
import Mathlib.Data.Nat.Notation
import Mathlib.Order.Bounds.Defs
import Mathlib.Tactic.Common
import Mathlib.Tactic.IntervalCases

/-!
# The proleptic Gregorian calendar

Days counted from 1970-01-01, years from 1 BC as year 0, months of a year from 0: where years and months
start, the day of a civil date, and the weeks of a year that start on its Mondays.
-/

namespace Jed.Gregorian

/-- Leap years. -/
def isLeap (y : ℤ) : Bool := decide (y % 4 = 0) && (decide (y % 100 ≠ 0) || decide (y % 400 = 0))

/-- The first day of a year. -/
def yearStart (y : ℤ) : ℤ := 365 * y + (y - 1) / 4 - (y - 1) / 100 + (y - 1) / 400 - 719527

/-- The days of a month, months counted from 0. -/
def monthLength (y : ℤ) (m : ℕ) : ℤ :=
  if m = 1 then (if isLeap y then 29 else 28)
  else if m = 3 ∨ m = 5 ∨ m = 8 ∨ m = 10 then 30 else 31

/-- The first day of a month, months counted from 0. -/
def monthStart (y : ℤ) : ℕ → ℤ
  | 0 => yearStart y
  | m + 1 => monthStart y m + monthLength y m

/-- The day of a civil date, its month and day counted from 1. -/
def ofCivil (y : ℤ) (mo d : ℕ) : ℤ := monthStart y (mo - 1) + ((d : ℤ) - 1)

variable {y : ℤ}

theorem isLeap_iff : isLeap y = true ↔ y % 4 = 0 ∧ (y % 100 ≠ 0 ∨ y % 400 = 0) := by
  simp only [isLeap, Bool.and_eq_true, Bool.or_eq_true, decide_eq_true_eq]

/-- A leap year has 366 days, another 365. -/
theorem yearStart_succ (y : ℤ) :
    yearStart (y + 1) = yearStart y + if isLeap y then 366 else 365 := by
  by_cases h : isLeap y = true
  · rw [if_pos h]
    rw [isLeap_iff] at h
    simp only [yearStart]
    omega
  · rw [if_neg h]
    rw [isLeap_iff] at h
    simp only [yearStart]
    omega

variable {a b : ℤ}

theorem yearStart_lt (h : a < b) : yearStart a < yearStart b := by
  simp only [yearStart]
  omega

theorem yearStart_le (h : a ≤ b) : yearStart a ≤ yearStart b := by
  simp only [yearStart]
  omega

theorem monthLength_pos (y : ℤ) (m : ℕ) : 28 ≤ monthLength y m ∧ monthLength y m ≤ 31 := by
  rw [monthLength]
  split
  · split <;> decide
  · split <;> decide

/-- The months of a year are its days. -/
theorem monthStart_twelve (y : ℤ) : monthStart y 12 = yearStart (y + 1) := by
  rw [yearStart_succ]
  simp only [monthStart, monthLength]
  by_cases h : isLeap y = true
  · simp only [h, if_true]
    norm_num
    omega
  · simp only [h]
    norm_num
    omega

variable {m : ℕ}

theorem monthStart_le {n : ℕ} (h : m ≤ n) : monthStart y m ≤ monthStart y n := by
  induction n with
  | zero =>
    obtain rfl := Nat.le_zero.1 h
    exact Int.le_refl _
  | succ n ih =>
    rcases Nat.lt_or_ge n m with hlt | hge
    · obtain rfl : m = n + 1 := by omega
      exact Int.le_refl _
    · have := ih hge
      have := (monthLength_pos y n).1
      rw [monthStart]
      omega

theorem monthStart_mem (h : m < 12) :
    yearStart y ≤ monthStart y m ∧ monthStart y (m + 1) ≤ yearStart (y + 1) := by
  constructor
  · exact monthStart_le (m := 0) (Nat.zero_le m)
  · rw [← monthStart_twelve]
    exact monthStart_le h

theorem monthStart_lt {y' : ℤ} {m' : ℕ} (hm : m < 12) (hm' : m' < 12)
    (h : y < y' ∨ y = y' ∧ m < m') : monthStart y (m + 1) ≤ monthStart y' m' := by
  rcases h with h | ⟨rfl, h⟩
  · have h1 := (monthStart_mem (y := y) hm).2
    have h2 := (monthStart_mem (y := y') hm').1
    have h3 := yearStart_le (a := y + 1) (b := y') (by omega)
    omega
  · exact monthStart_le h

/-- The Monday of the week that holds January 4 (day 4 is a Monday): week 1 of a year. -/
def weekOne (y : ℤ) : ℤ := yearStart y + 3 - (yearStart y + 6) % 7

/-- The weeks of a year. -/
def weeksOf (y : ℤ) : ℤ := (weekOne (y + 1) - weekOne y) / 7

theorem weekOne_succ (y : ℤ) : weekOne (y + 1) = weekOne y + 7 * weeksOf y ∧
    52 ≤ weeksOf y ∧ weeksOf y ≤ 53 := by
  have h := yearStart_succ y
  rw [weeksOf, weekOne, weekOne]
  split at h <;> omega

theorem weekOne_lt (h : a < b) : weekOne (a + 1) ≤ weekOne b := by
  have h1 := yearStart_le (a := a + 1) (b := b) (by omega)
  rw [weekOne, weekOne]
  rcases Int.lt_or_eq_of_le (show a + 1 ≤ b by omega) with hlt | rfl
  · have h2 := yearStart_lt hlt
    have h3 := yearStart_succ (a + 1)
    have h4 := yearStart_le (a := a + 1 + 1) (b := b) (by omega)
    split at h3 <;> omega
  · omega

/-- A day as the day of a week of a year. -/
structure IsWeekDate (n y w d : ℤ) : Prop where
  low : weekOne y ≤ n
  high : n < weekOne (y + 1)
  week : w = (n - weekOne y) / 7 + 1
  weekday : d = (n + 3) % 7 + 1

variable {n w d : ℤ}

/-- Week dates in order. -/
theorem IsWeekDate.lt {n' y' w' d' : ℤ} (h : IsWeekDate n y w d) (h' : IsWeekDate n' y' w' d')
    (hlt : n < n') : y < y' ∨ y = y' ∧ (w < w' ∨ w = w' ∧ d < d') := by
  have hlow := h.low
  have hhigh' := h'.high
  rcases Int.lt_trichotomy y y' with hy | rfl | hy
  · exact .inl hy
  · have hw := h.week
    have hw' := h'.week
    have hd := h.weekday
    have hd' := h'.weekday
    have hmonday : (weekOne y + 3) % 7 = 0 := by
      rw [weekOne]
      omega
    generalize weekOne y = m at *
    omega
  · have := weekOne_lt hy
    omega

theorem IsWeekDate.range (h : IsWeekDate n y w d) : 1 ≤ w ∧ w ≤ weeksOf y := by
  have hlow := h.low
  have hhigh := h.high
  have hw := h.week
  obtain ⟨hsucc, -⟩ := weekOne_succ y
  omega

/-- Week 1 is the week that holds January 4. -/
theorem IsWeekDate.one_iff (h : IsWeekDate n y w d) :
    w = 1 ↔ (n + 3) / 7 = (ofCivil y 1 4 + 3) / 7 := by
  have hjan : ofCivil y 1 4 = yearStart y + 3 := by
    rw [ofCivil, monthStart]
    norm_num
  have hlow := h.low
  have hw := h.week
  rw [weekOne] at hw hlow
  rw [hjan]
  omega

end Jed.Gregorian
