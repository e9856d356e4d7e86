import Jed.Datetime.Calendar
import Jed.Lib.Gregorian

/-!
# Civil dates are those of the Gregorian calendar

The checked calendar arithmetic against the calendar, within bounds that every date and timestamp keeps.
-/

namespace Jed.Datetime

open Gregorian

variable {α : Type}

theorem i64_ok {v : ℤ} (h : -9223372036854775808 ≤ v ∧ v ≤ 9223372036854775807) :
    i64 v = .ok v := if_pos h

theorem i64_bind {v : ℤ} {f : ℤ → Checked α}
    (h : -9223372036854775808 ≤ v ∧ v ≤ 9223372036854775807) : (i64 v >>= f) = f v := by
  rw [i64_ok h]
  rfl

theorem ok_bind {β : Type} (a : β) (f : β → Checked α) : ((.ok a : Checked β) >>= f) = f a := rfl

theorem tdiv_nonneg {a b : ℤ} (h : 0 ≤ a) : a.tdiv b = a / b := Int.tdiv_eq_ediv_of_nonneg h

/-- The truncating division of the dividend is a floor division. -/
theorem dividend_ok {y k : ℤ} (hk : 0 ≤ k ∧ k ≤ 146096)
    (hy : -1099511627777 ≤ y ∧ y ≤ 1099511627776) :
    ∃ n, dividend y k = .ok n ∧ n.tdiv (k + 1) = y / (k + 1) := by
  rw [dividend]
  by_cases h : y ≥ 0
  · rw [if_pos h]
    exact ⟨y, rfl, tdiv_nonneg h⟩
  · rw [if_neg h, i64_ok (by omega)]
    refine ⟨y - k, rfl, ?_⟩
    have hlow := Int.emod_nonneg y (b := k + 1) (by omega)
    have hhigh := Int.emod_lt_of_pos y (b := k + 1) (by omega)
    have hy' := Int.mul_ediv_add_emod y (k + 1)
    have hneg : -(y - k) = (k - y % (k + 1)) + (k + 1) * -(y / (k + 1)) := by
      rw [Int.mul_neg]
      omega
    rw [show y - k = -(-(y - k)) by omega, Int.neg_tdiv, tdiv_nonneg (by omega), hneg,
      Int.add_mul_ediv_left _ _ (by omega), Int.ediv_eq_zero_of_lt (by omega) (by omega)]
    omega

theorem march_days (y : ℤ) :
    y / 400 * 146097 + ((y - y / 400 * 400) * 365 + (y - y / 400 * 400) / 4 -
      (y - y / 400 * 400) / 100) = yearStart (y + 1) - 365 + 719527 := by
  simp only [yearStart]
  omega

/-- Where the months start, counted from March. -/
theorem monthStart_march (y : ℤ) {mo : ℕ} (hmo : 1 ≤ mo ∧ mo ≤ 12) :
    monthStart y (mo - 1) =
      yearStart (y - (if (mo : ℤ) ≤ 2 then 1 else 0) + 1) - 365 + 59 +
        (153 * ((mo : ℤ) + (if (mo : ℤ) > 2 then -3 else 9)) + 2) / 5 := by
  obtain ⟨h1, h2⟩ := hmo
  have hyear := yearStart_succ y
  have hlast := yearStart_succ (y - 1)
  rw [Int.sub_add_cancel] at hlast
  by_cases hleap : isLeap y = true
  · rw [if_pos hleap] at hyear
    interval_cases mo <;> simp [monthStart, monthLength, hleap] <;> omega
  · rw [if_neg hleap] at hyear
    interval_cases mo <;> simp [monthStart, monthLength, hleap] <;> omega

/-- A civil date's day is its day in the calendar. -/
theorem daysFromCivil_ok {y : ℤ} {mo d : ℕ} (hmo : 1 ≤ mo ∧ mo ≤ 12) (hd : d ≤ 1000)
    (hy : -1099511627776 ≤ y ∧ y ≤ 1099511627776) :
    daysFromCivil y mo d = .ok (ofCivil y mo d) := by
  generalize hy' : y - (if (mo : ℤ) ≤ 2 then 1 else 0) = y'
  generalize hmp : (mo : ℤ) + (if (mo : ℤ) > 2 then -3 else 9) = mp
  have hy'' : -1099511627777 ≤ y' ∧ y' ≤ 1099511627776 := by
    rw [← hy']
    split <;> omega
  have hmp' : 0 ≤ mp ∧ mp ≤ 11 := by
    rw [← hmp]
    split <;> omega
  obtain ⟨n, hn, hera⟩ := dividend_ok (y := y') (k := 399) (by omega) hy''
  rw [show (399 : ℤ) + 1 = 400 from rfl] at hera
  rw [daysFromCivil, hy', i64_bind (by omega), hn, ok_bind]
  dsimp only
  rw [hera, i64_bind (by omega), i64_bind (by omega), hmp, i64_bind (by omega), i64_bind (by omega),
    i64_bind (by omega), i64_bind (by omega), tdiv_nonneg (by omega), i64_bind (by omega),
    i64_bind (by omega), tdiv_nonneg (by omega), i64_bind (by omega), tdiv_nonneg (by omega),
    i64_bind (by omega), i64_bind (by omega), i64_bind (by omega), i64_bind (by omega),
    i64_ok (by omega)]
  have hmarch := march_days y'
  have hmonth := monthStart_march y hmo
  rw [hy', hmp] at hmonth
  rw [ofCivil, hmonth]
  congr 1
  omega

theorem cycle_year {c q t s : ℤ} (hc : 0 ≤ c ∧ c ≤ 3) (hq : 0 ≤ q ∧ q ≤ 24) (ht : 0 ≤ t ∧ t ≤ 1460)
    (hs : s = (q + t + 24 * c) / 1460) :
    0 ≤ (t - s) / 365 ∧ (t - s) / 365 ≤ 3 ∧ 365 * ((t - s) / 365) ≤ t ∧
      ((t - s) / 365 ≠ 3 → t < 365 * ((t - s) / 365 + 1)) := by
  omega

/-- The days of an era before the year `j` of its leap cycle `q` of its century `c`, and before the next. -/
theorem era_days {c q j t : ℤ} (hq : 0 ≤ q ∧ q ≤ 24) (hj : 0 ≤ j ∧ j ≤ 3)
    (hr : 1461 * q + t ≤ 36523) (ht : t ≤ 1460) (hlow : 365 * j ≤ t)
    (hhigh : j ≠ 3 → t < 365 * (j + 1)) :
    365 * (100 * c + 4 * q + j) + (100 * c + 4 * q + j) / 4 - (100 * c + 4 * q + j) / 100 ≤
        36524 * c + 1461 * q + t ∧
      36524 * c + 1461 * q + t < 365 * (100 * c + 4 * q + j + 1) + (100 * c + 4 * q + j + 1) / 4 -
        (100 * c + 4 * q + j + 1) / 100 := by
  have h4 : (100 * c + 4 * q + j) / 4 = 25 * c + q := by omega
  have h100 : (100 * c + 4 * q + j) / 100 = c := by omega
  refine ⟨by omega, ?_⟩
  by_cases hend : j = 3
  · have h4' : (100 * c + 4 * q + j + 1) / 4 = 25 * c + q + 1 := by omega
    by_cases hq' : q = 24
    · have h100' : (100 * c + 4 * q + j + 1) / 100 = c + 1 := by omega
      omega
    · have h100' : (100 * c + 4 * q + j + 1) / 100 = c := by omega
      omega
  · have := hhigh hend
    have h4' : (100 * c + 4 * q + j + 1) / 4 = 25 * c + q := by omega
    have h100' : (100 * c + 4 * q + j + 1) / 100 = c := by omega
    omega

/-- The year of a 400-year era that a day of it lies in. -/
theorem yoe_spec {doe yoe : ℤ} (h : 0 ≤ doe ∧ doe ≤ 146096)
    (hyoe : yoe = (doe - doe / 1460 + doe / 36524 - doe / 146096) / 365) :
    0 ≤ yoe ∧ yoe ≤ 399 ∧ 365 * yoe + yoe / 4 - yoe / 100 ≤ doe ∧
      (doe < 365 * (yoe + 1) + (yoe + 1) / 4 - (yoe + 1) / 100 ∨ doe = 146096 ∧ yoe = 399) := by
  by_cases hlast : doe = 146096
  · subst hlast
    obtain rfl : yoe = 399 := hyoe
    decide
  · -- the century, the leap cycle within it and the day of the cycle
    obtain ⟨c, hc⟩ : ∃ c, c = doe / 36524 := ⟨_, rfl⟩
    obtain ⟨r, hr⟩ : ∃ r, doe = 36524 * c + r := ⟨doe - 36524 * c, by omega⟩
    obtain ⟨q, hq⟩ : ∃ q, q = r / 1461 := ⟨_, rfl⟩
    obtain ⟨t, ht⟩ : ∃ t, r = 1461 * q + t := ⟨r - 1461 * q, by omega⟩
    have hc' : 0 ≤ c ∧ c ≤ 3 := by omega
    have hr' : 0 ≤ r ∧ r ≤ 36523 := by omega
    have hend : doe / 146096 = 0 := by omega
    have hq' : 0 ≤ q ∧ q ≤ 24 := by omega
    have ht' : 0 ≤ t ∧ t ≤ 1460 := by omega
    subst ht
    have h1460 : doe / 1460 = 25 * c + q + (q + t + 24 * c) / 1460 := by
      rw [hr, show 36524 * c + (1461 * q + t) = q + t + 24 * c + 1460 * (25 * c + q) by omega,
        Int.add_mul_ediv_left _ _ (by decide)]
      omega
    obtain ⟨hj0, hj3, hlow, hhigh⟩ := cycle_year hc' hq' ht' rfl
    generalize (q + t + 24 * c) / 1460 = s at h1460 hj0 hj3 hlow hhigh
    have hyoe' : yoe = 100 * c + 4 * q + (t - s) / 365 := by
      rw [hyoe, h1460, ← hc, hend, show doe - (25 * c + q + s) + c - 0 =
        t - s + 365 * (100 * c + 4 * q) by omega, Int.add_mul_ediv_left _ _ (by decide)]
      omega
    generalize (t - s) / 365 = j at hj0 hj3 hlow hhigh hyoe'
    obtain ⟨hstart, hnext⟩ := era_days hq' ⟨hj0, hj3⟩ hr'.2 ht'.2 hlow hhigh
    rw [← hyoe'] at hstart hnext
    have hdoe : doe = 36524 * c + 1461 * q + t := by omega
    rw [← hdoe] at hstart hnext
    clear hyoe h1460 hlow hhigh hdoe hr hend
    exact ⟨by omega, by omega, hstart, .inl hnext⟩

theorem month_spec {doy mp : ℤ} (h : 0 ≤ doy ∧ doy ≤ 365) (hmp : mp = (5 * doy + 2) / 153) :
    0 ≤ mp ∧ mp ≤ 11 ∧ (153 * mp + 2) / 5 ≤ doy ∧ doy < (153 * (mp + 1) + 2) / 5 := by
  omega

theorem era_day {z era yoe doe doy : ℤ} (hz : z + 719468 = era * 146097 + doe)
    (hy : 0 ≤ yoe ∧ yoe ≤ 399) (hdoy : doe - (365 * yoe + yoe / 4 - yoe / 100) = doy) :
    z = yearStart (yoe + era * 400 + 1) - 306 + doy := by
  simp only [yearStart]
  omega

theorem era_day_lt {z era yoe doe : ℤ} (hz : z + 719468 = era * 146097 + doe)
    (hy : 0 ≤ yoe ∧ yoe ≤ 399)
    (hnext : doe < 365 * (yoe + 1) + (yoe + 1) / 4 - (yoe + 1) / 100 ∨ doe = 146096 ∧ yoe = 399) :
    z < yearStart (yoe + era * 400 + 2) - 306 := by
  simp only [yearStart]
  omega

/-- The start of the month after one, counted from March. -/
theorem monthStart_next (y : ℤ) {mp : ℤ} {mo : ℕ} (hmo : 1 ≤ mo ∧ mo ≤ 12)
    (hmp : mp = (mo : ℤ) + (if (mo : ℤ) > 2 then -3 else 9)) :
    monthStart y mo =
      if mo = 2 then yearStart (y + 1) - 306
      else yearStart (y - (if (mo : ℤ) ≤ 2 then 1 else 0) + 1) - 306 + (153 * (mp + 1) + 2) / 5 := by
  by_cases h2 : mo = 2
  · subst h2
    have := monthStart_march y (show 1 ≤ 3 ∧ 3 ≤ 12 by decide)
    rw [if_pos rfl]
    norm_num at this
    omega
  · rw [if_neg h2]
    by_cases h12 : mo = 12
    · subst h12
      rw [monthStart_twelve, hmp]
      norm_num
    · have := monthStart_march y (show 1 ≤ mo + 1 ∧ mo + 1 ≤ 12 by omega)
      rw [Nat.add_sub_cancel] at this
      rw [this, hmp]
      by_cases h1 : mo = 1
      · subst h1
        norm_num
        omega
      · rw [if_neg (by push_cast; omega), if_pos (by push_cast; omega), if_neg (by omega),
          if_pos (by omega)]
        push_cast
        omega

/-- A civil date that is one of the calendar. -/
structure IsDate (c : CivilDate) : Prop where
  month : 1 ≤ c.mo ∧ c.mo ≤ 12
  day : 1 ≤ c.d ∧ c.d ≤ 31
  in_month : ofCivil c.y c.mo c.d < monthStart c.y c.mo

theorem asU32_of_nonneg {v : ℤ} (h : 0 ≤ v ∧ v ≤ 4294967295) : (asU32 v : ℤ) = v := by
  rw [asU32]
  omega

/-- Every day has its civil date. -/
theorem civilFromDays_ok {z : ℤ} (hz : -549755813888 ≤ z ∧ z ≤ 549755813888) :
    ∃ c, civilFromDays z = .ok c ∧ IsDate c ∧ ofCivil c.y c.mo c.d = z ∧
      -549755813888 ≤ c.y ∧ c.y ≤ 549755813888 := by
  generalize hz' : z + 719468 = z'
  obtain ⟨n, hn, hera⟩ := dividend_ok (y := z') (k := 146096) (by omega) (by omega)
  rw [show (146096 : ℤ) + 1 = 146097 from rfl] at hera
  rw [civilFromDays, hz', i64_bind (by omega), hn, ok_bind]
  dsimp only
  rw [hera, i64_bind (by omega)]
  have hdoe : 0 ≤ z' - z' / 146097 * 146097 ∧ z' - z' / 146097 * 146097 ≤ 146096 := by omega
  generalize hdoe' : z' - z' / 146097 * 146097 = doe at hdoe
  rw [i64_bind (by omega), tdiv_nonneg hdoe.1, i64_bind (by omega), tdiv_nonneg hdoe.1,
    i64_bind (by omega), tdiv_nonneg hdoe.1, i64_bind (by omega), tdiv_nonneg (by omega)]
  obtain ⟨hy0, hy1, hstart, hnext⟩ := yoe_spec hdoe rfl
  generalize (doe - doe / 1460 + doe / 36524 - doe / 146096) / 365 = yoe at hy0 hy1 hstart hnext ⊢
  rw [i64_bind (by omega), i64_bind (by omega), i64_bind (by omega), tdiv_nonneg hy0,
    i64_bind (by omega), tdiv_nonneg hy0, i64_bind (by omega), i64_bind (by omega)]
  have hdoy : 0 ≤ doe - (365 * yoe + yoe / 4 - yoe / 100) ∧
      doe - (365 * yoe + yoe / 4 - yoe / 100) ≤ 365 := by
    refine ⟨by omega, ?_⟩
    rcases hnext with hnext | ⟨rfl, rfl⟩
    · omega
    · decide
  generalize hdoy' : doe - (365 * yoe + yoe / 4 - yoe / 100) = doy at hdoy
  obtain ⟨hm0, hm1, hmlow, hmhigh⟩ := month_spec hdoy rfl
  rw [i64_bind (by omega), i64_bind (by omega), tdiv_nonneg (by omega)]
  generalize (5 * doy + 2) / 153 = mp at hm0 hm1 hmlow hmhigh ⊢
  rw [i64_bind (by omega), i64_bind (by omega), tdiv_nonneg (by omega), i64_bind (by omega),
    i64_bind (by omega)]
  generalize hm : mp + (if mp < 10 then 3 else -9) = m
  have hm' : 1 ≤ m ∧ m ≤ 12 ∧ (m ≤ 2 ↔ 10 ≤ mp) := by
    rw [← hm]
    split <;> omega
  rw [i64_bind (by omega)]
  generalize hy : yoe + z' / 146097 * 400 + (if m ≤ 2 then 1 else 0) = y
  rw [i64_bind (by rw [← hy]; split <;> omega)]
  refine ⟨_, rfl, ?_⟩
  have hmo := asU32_of_nonneg (v := m) (by omega)
  have hd := asU32_of_nonneg (v := doy - (153 * mp + 2) / 5 + 1) (by omega)
  dsimp only
  generalize asU32 m = mo at hmo
  generalize asU32 (doy - (153 * mp + 2) / 5 + 1) = d at hd
  subst hmo
  have hmp : mp = (mo : ℤ) + (if (mo : ℤ) > 2 then -3 else 9) := by
    split
    · omega
    · split at hm <;> omega
  have hyear : y - (if (mo : ℤ) ≤ 2 then 1 else 0) = yoe + z' / 146097 * 400 := by
    rw [← hy]
    omega
  have hz0 : z + 719468 = z' / 146097 * 146097 + doe := by omega
  have hday := era_day hz0 ⟨hy0, hy1⟩ hdoy'
  have hlt := era_day_lt hz0 ⟨hy0, hy1⟩ hnext
  have hmonth := monthStart_march y (show 1 ≤ mo ∧ mo ≤ 12 by omega)
  have hafter := monthStart_next y (by omega) hmp
  rw [← hmp] at hmonth
  rw [hyear] at hmonth hafter
  have hof : ofCivil y mo d = z := by
    rw [ofCivil, hmonth, hd]
    omega
  refine ⟨⟨by dsimp only; omega, by dsimp only; omega, ?_⟩, hof, ?_⟩
  · rw [hof, hafter]
    by_cases h2 : mo = 2
    · subst h2
      rw [if_pos rfl, show y + 1 = yoe + z' / 146097 * 400 + 2 by rw [← hy]; norm_num; omega]
      exact hlt
    · rw [if_neg h2]
      omega
  · rw [← hy]
    split <;> omega

/-- The civil time of an instant. -/
structure IsTime (c : CivilTime) (t : ℤ) : Prop where
  date : IsDate c.toCivilDate
  time : c.h < 24 ∧ c.mi < 60 ∧ c.s < 60 ∧ c.us < 1000000
  year : -549755813888 ≤ c.y ∧ c.y ≤ 549755813888
  instant : t = ofCivil c.y c.mo c.d * 86400000000 + c.h * 3600000000 + c.mi * 60000000 +
    c.s * 1000000 + c.us

/-- An instant of a timestamp. -/
def IsInstant (t : ℤ) : Prop := -9223372036854775808 ≤ t ∧ t ≤ 9223372036854775807

theorem civilFromMicros_ok {t : ℤ} (ht : IsInstant t) :
    ∃ c, civilFromMicros t = .ok c ∧ IsTime c t := by
  obtain ⟨hlow, hhigh⟩ := ht
  have hdays : t / microsPerSec / secsPerDay = t / 86400000000 := by
    rw [microsPerSec, secsPerDay]
    omega
  obtain ⟨date, hdate, hisDate, hof, hyear⟩ :=
    civilFromDays_ok (z := t / 86400000000) (by omega)
  rw [civilFromMicros]
  dsimp only
  rw [hdays, hdate]
  refine ⟨_, rfl, hisDate, ?_, hyear, ?_⟩
  all_goals
    dsimp only
    rw [tdiv_nonneg (by rw [secsPerDay]; omega), Int.tmod_eq_emod_of_nonneg (by rw [secsPerDay]; omega),
      Int.tmod_eq_emod_of_nonneg (by rw [secsPerDay]; omega), tdiv_nonneg (by omega)]
    have hus := asU32_of_nonneg (v := t % microsPerSec) (by rw [microsPerSec]; omega)
    have hs := asU32_of_nonneg (v := t / microsPerSec % secsPerDay % 60) (by omega)
    have hmi := asU32_of_nonneg (v := t / microsPerSec % secsPerDay % 3600 / 60) (by omega)
    have hh := asU32_of_nonneg (v := t / microsPerSec % secsPerDay / 3600) (by rw [secsPerDay]; omega)
    generalize asU32 (t % microsPerSec) = us at *
    generalize asU32 (t / microsPerSec % secsPerDay % 60) = s at *
    generalize asU32 (t / microsPerSec % secsPerDay % 3600 / 60) = mi at *
    generalize asU32 (t / microsPerSec % secsPerDay / 3600) = h at *
    rw [microsPerSec] at *
    rw [secsPerDay] at *
  · omega
  · rw [hof]
    omega

end Jed.Datetime
