import Jed.Datetime.Trunc
import Mathlib.Data.List.Pairwise

/-!
# The fields of EXTRACT

What `extract_datetime` and `extract_date` give of the calendar, the week dates among them, and the laws of
truncation and of the fields.
-/

namespace Jed.Datetime

open Gregorian

variable {c : CivilTime} {t : ℤ}

variable {y : ℤ}

theorem isoP_ok (hy : -1099511627776 ≤ y ∧ y ≤ 1099511627776) :
    isoP y = .ok ((yearStart (y + 1) + 3) % 7) := by
  rw [isoP, i64_bind (by omega), i64_bind (by omega), i64_bind (by omega)]
  change Except.ok _ = Except.ok _
  congr 1
  rw [yearStart, Int.add_sub_cancel]
  generalize y / 4 = a
  generalize y / 100 = b
  generalize y / 400 = c
  omega

theorem weeksInIsoYear_ok (hy : -1099511627770 ≤ y ∧ y ≤ 1099511627776) :
    weeksInIsoYear y = .ok (weeksOf y) := by
  have hsucc := yearStart_succ y
  rw [weeksInIsoYear, isoP_ok (by omega), ok_bind]
  by_cases h : (yearStart (y + 1) + 3) % 7 = 4
  · rw [if_pos h]
    change Except.ok _ = Except.ok _
    congr 1
    rw [weeksOf, weekOne, weekOne]
    split at hsucc <;> omega
  · rw [if_neg h, i64_bind (by omega), isoP_ok (by omega), ok_bind, Int.sub_add_cancel]
    change Except.ok _ = Except.ok _
    congr 1
    rw [weeksOf, weekOne, weekOne]
    split at hsucc <;> split <;> omega

/-- The week and the year that hold a day. -/
theorem isoWeekYear_ok {mo d : ℕ} (hmo : 1 ≤ mo ∧ mo ≤ 12) (hd : 1 ≤ d ∧ d ≤ 31)
    (hin : ofCivil y mo d < monthStart y mo) (hy : -549755813888 ≤ y ∧ y ≤ 549755813888) :
    ∃ w, isoWeekYear y mo d = .ok w ∧ -549755813889 ≤ w.year ∧ w.year ≤ 549755813889 ∧
      IsWeekDate (ofCivil y mo d) w.year w.week ((ofCivil y mo d + 3) % 7 + 1) := by
  have hfirst : ofCivil y 1 1 = yearStart y := by
    rw [ofCivil, monthStart]
    norm_num
  have hb := ofCivil_bound hmo (show d ≤ 1000 by omega) (y := y) (by omega)
  have hb' := ofCivil_bound (show 1 ≤ 1 ∧ 1 ≤ 12 by decide) (show 1 ≤ 1000 by decide) (y := y)
    (by omega)
  have hmonth := monthStart_mem (y := y) (m := mo - 1) (by omega)
  rw [Nat.sub_add_cancel hmo.1] at hmonth
  have hlow : yearStart y ≤ ofCivil y mo d := by
    rw [ofCivil]
    omega
  rw [isoWeekYear, daysFromCivil_ok hmo (by omega) (by omega), ok_bind]
  have h11 : daysFromCivil y (1 : ℕ) (1 : ℕ) = .ok (ofCivil y 1 1) :=
    daysFromCivil_ok (by decide) (by decide) (by omega)
  rw [Nat.cast_one] at h11
  rw [h11, ok_bind, hfirst, isodowMon1]
  rw [hfirst] at hb'
  have hhigh : ofCivil y mo d < yearStart (y + 1) := by omega
  have hnext := yearStart_succ y
  have hprev := yearStart_succ (y - 1)
  rw [Int.sub_add_cancel] at hprev
  have hafter := yearStart_succ (y + 1)
  generalize hn : ofCivil y mo d = n at *
  rw [i64_bind (by omega), i64_bind (by omega), i64_bind (by omega), i64_ok (by omega), ok_bind,
    i64_bind (by omega), i64_bind (by omega)]
  dsimp only
  have hweek : (n - yearStart y + 1 - ((n + 3) % 7 + 1) + 10) / 7 = (n - weekOne y) / 7 + 1 := by
    rw [weekOne]
    omega
  have hmonday : (weekOne y + 3) % 7 = 0 := by
    rw [weekOne]
    omega
  have hone : yearStart y - 3 ≤ weekOne y ∧ weekOne y ≤ yearStart y + 3 := by
    rw [weekOne]
    omega
  have hone' : yearStart (y + 1) - 3 ≤ weekOne (y + 1) ∧ weekOne (y + 1) ≤ yearStart (y + 1) + 3 := by
    rw [weekOne]
    omega
  obtain ⟨hweeks, hmany⟩ := weekOne_succ y
  rw [hweek]
  by_cases h1 : (n - weekOne y) / 7 + 1 < 1
  · have hone'' : weekOne (y - 1) ≤ yearStart (y - 1) + 3 := by
      rw [weekOne]
      omega
    have hweeks' := (weekOne_succ (y - 1)).1
    rw [Int.sub_add_cancel] at hweeks'
    rw [if_pos h1, i64_bind (by omega), weeksInIsoYear_ok (by omega)]
    refine ⟨_, rfl, by dsimp only; omega, by dsimp only; omega, ?_⟩
    constructor <;> dsimp only
    · split at hprev <;> omega
    · rw [Int.sub_add_cancel]
      omega
    · omega
  · rw [if_neg h1, weeksInIsoYear_ok (by omega), ok_bind]
    by_cases h2 : (n - weekOne y) / 7 + 1 > weeksOf y
    · have hlast := (weekOne_succ (y + 1)).1
      have hmany' := (weekOne_succ (y + 1)).2
      rw [if_pos h2, i64_bind (by omega)]
      refine ⟨_, rfl, by dsimp only; omega, by dsimp only; omega, ?_⟩
      constructor <;> dsimp only <;> omega
    · rw [if_neg h2]
      refine ⟨_, rfl, by dsimp only; omega, by dsimp only; omega, ?_⟩
      constructor <;> dsimp only <;> omega

/-- The units that number groups of years. -/
def Groups (u : DateUnit) : Prop := u = .decade ∨ u = .century ∨ u = .millennium

/-- The number of the group of a year. -/
def numberOf (u : DateUnit) (y : ℤ) : ℤ :=
  if u = .decade then y / 10
  else if u = .century then groupNumber ((y - 1) / 100) else groupNumber ((y - 1) / 1000)

/-- The first year of the group of a year. -/
def firstYear (u : DateUnit) (y : ℤ) : ℤ :=
  if u = .decade then y / 10 * 10
  else if u = .century then (y - 1) / 100 * 100 + 1 else (y - 1) / 1000 * 1000 + 1

theorem numberOf_eq_iff {u : DateUnit} (hu : Groups u) (y y' : ℤ) :
    numberOf u y = numberOf u y' ↔ firstYear u y = firstYear u y' := by
  rcases hu with rfl | rfl | rfl
  · change y / 10 = y' / 10 ↔ y / 10 * 10 = y' / 10 * 10
    omega
  · change groupNumber ((y - 1) / 100) = groupNumber ((y' - 1) / 100) ↔
      (y - 1) / 100 * 100 + 1 = (y' - 1) / 100 * 100 + 1
    rw [groupNumber, groupNumber]
    split <;> split <;> omega
  · change groupNumber ((y - 1) / 1000) = groupNumber ((y' - 1) / 1000) ↔
      (y - 1) / 1000 * 1000 + 1 = (y' - 1) / 1000 * 1000 + 1
    rw [groupNumber, groupNumber]
    split <;> split <;> omega

theorem numberOf_le {u : DateUnit} (hu : Groups u) {y' : ℤ} (h : y ≤ y') :
    numberOf u y ≤ numberOf u y' := by
  rcases hu with rfl | rfl | rfl
  · change y / 10 ≤ y' / 10
    omega
  · change groupNumber ((y - 1) / 100) ≤ groupNumber ((y' - 1) / 100)
    rw [groupNumber, groupNumber]
    split <;> split <;> omega
  · change groupNumber ((y - 1) / 1000) ≤ groupNumber ((y' - 1) / 1000)
    rw [groupNumber, groupNumber]
    split <;> split <;> omega

theorem isStart_group (h : IsTime c t) {u : DateUnit} (hu : Groups u) :
    IsStart u (yearStart (firstYear u c.y) * 86400000000) t := by
  rcases hu with rfl | rfl | rfl
  · change IsStart _ (yearStart (c.y / 10 * 10) * 86400000000) t
    exact isStart_year h (P := fun y => y % 10 = 0) (fun _ => Iff.rfl) (by omega) (by omega) (by omega)
  · change IsStart _ (yearStart ((c.y - 1) / 100 * 100 + 1) * 86400000000) t
    exact isStart_year h (P := fun y => y % 100 = 1) (fun _ => Iff.rfl) (by omega) (by omega) (by omega)
  · change IsStart _ (yearStart ((c.y - 1) / 1000 * 1000 + 1) * 86400000000) t
    exact isStart_year h (P := fun y => y % 1000 = 1) (fun _ => Iff.rfl) (by omega) (by omega)
      (by omega)

variable {date : CivilDate}

theorem extractCalendar_group {u : DateUnit} (hu : Groups u)
    (hy : -549755813889 ≤ date.y ∧ date.y ≤ 549755813889) (days : ℤ) :
    extractCalendar u date days = .ok (whole (numberOf u date.y)) := by
  rcases hu with rfl | rfl | rfl
  · rw [extractCalendar, toPgYear_ok (by omega), ok_bind, extractDecade_ok (by omega)]
    rfl
  · rw [extractCalendar, toPgYear_ok (by omega), ok_bind, extractCentury_ok (by omega)]
    rfl
  · rw [extractCalendar, toPgYear_ok (by omega), ok_bind, extractMillennium_ok (by omega)]
    rfl

theorem extractCalendar_year (hy : -549755813889 ≤ date.y ∧ date.y ≤ 549755813889) (days : ℤ) :
    extractCalendar .year date days = .ok (whole (pgYear date.y)) := by
  rw [extractCalendar, toPgYear_ok (by omega)]
  rfl

/-- Two instants have one number of a group of years where they have one start of it. -/
theorem group_eq_iff {c' : CivilTime} {t' : ℤ} (h : IsTime c t) (h' : IsTime c' t') {u : DateUnit}
    (hu : Groups u) : numberOf u c.y = numberOf u c'.y ↔ ∃ s, IsStart u s t ∧ IsStart u s t' := by
  rw [numberOf_eq_iff hu]
  have hs := isStart_group h hu
  have hs' := isStart_group h' hu
  constructor
  · intro heq
    rw [heq] at hs
    exact ⟨_, hs, hs'⟩
  · rintro ⟨s, hst, hst'⟩
    have heq : yearStart (firstYear u c.y) * 86400000000 = yearStart (firstYear u c'.y) * 86400000000 :=
      (hs.unique hst).trans (hst'.unique hs')
    rcases Int.lt_trichotomy (firstYear u c.y) (firstYear u c'.y) with hlt | heq' | hlt
    · have := yearStart_lt hlt
      omega
    · exact heq'
    · have := yearStart_lt hlt
      omega

theorem IsTime.year_mono {c' : CivilTime} {t' : ℤ} (h : IsTime c t) (h' : IsTime c' t') (hle : t ≤ t') :
    c.y ≤ c'.y :=
  h'.year_le (Int.le_trans (h.yearStart_le (Int.le_refl _)) hle)

variable {days : ℤ}

theorem isTime_midnight (h : IsDate date)
    (hy : -549755813888 ≤ date.y ∧ date.y ≤ 549755813888) (hof : ofCivil date.y date.mo date.d = days) :
    IsTime { date with h := 0, mi := 0, s := 0, us := 0 } (days * 86400000000) := by
  refine ⟨h, by dsimp only; omega, hy, ?_⟩
  dsimp only
  rw [hof]
  norm_num

/-- A field of a timestamp is one of its civil time. -/
theorem extractDatetime_ok (ht : IsFinite t) : ∃ c, IsTime c t ∧
    ∀ quotient u tz, extractDatetime quotient u t tz =
      extractWall quotient u t tz c (c.s * 1000000 + c.us) (t / 86400000000) := by
  obtain ⟨hlow, hhigh⟩ := ht
  rw [negInfinity] at hlow
  rw [posInfinity] at hhigh
  obtain ⟨c, hc, htime⟩ := civilFromMicros_ok (t := t) ⟨by omega, by omega⟩
  refine ⟨c, htime, fun quotient u tz => ?_⟩
  have hsec := htime.time
  have hyear := htime.year
  have hday := htime.date.day
  rw [extractDatetime, posInfinity, negInfinity, if_neg (by omega), extractFinite, hc, ok_bind,
    secMicros, microsPerSec, i64_bind (by omega), i64_ok (by omega), ok_bind,
    daysFromCivil_ok htime.date.month (by omega) (by omega), ok_bind, htime.day]

/-- A finite date. -/
def IsFiniteDate (days : ℤ) : Prop := dateNegInfinity < days ∧ days < datePosInfinity

/-- A field of a date is one of its civil date. -/
theorem extractDate_ok (hdays : IsFiniteDate days) : ∃ date, IsDate date ∧
    ofCivil date.y date.mo date.d = days ∧ (-549755813888 ≤ date.y ∧ date.y ≤ 549755813888) ∧
      ∀ u, extractDate u days = extractDay u days date := by
  obtain ⟨hlow, hhigh⟩ := hdays
  rw [dateNegInfinity] at hlow
  rw [datePosInfinity] at hhigh
  obtain ⟨date, hdate, hisDate, hof, hyear⟩ := civilFromDays_ok (z := days) (by omega)
  refine ⟨date, hisDate, hof, hyear, fun u => ?_⟩
  rw [extractDate, datePosInfinity, dateNegInfinity, if_neg (by omega), hdate]
  rfl

/-- The fields of a week date. -/
def WeekFields (field : DateUnit → Checked ExtractOut) (y w d : ℤ) : Prop :=
  field .isoyear = .ok (whole y) ∧ field .week = .ok (whole w) ∧ field .isodow = .ok (whole d)

/-- Calendar fields of a day give its week date. -/
theorem weekFields_ok (h : IsDate date) (hy : -549755813888 ≤ date.y ∧ date.y ≤ 549755813888)
    (hof : ofCivil date.y date.mo date.d = days) :
    ∃ y w, WeekFields (fun u => extractCalendar u date days) (pgYear y) w ((days + 3) % 7 + 1) ∧
      IsWeekDate days y w ((days + 3) % 7 + 1) ∧ weeksInIsoYear y = .ok (weeksOf y) := by
  obtain ⟨week, hweek, hlow, hhigh, hdate⟩ := isoWeekYear_ok h.month h.day h.in_month hy
  have hb := ofCivil_bound h.month (show date.d ≤ 1000 by have := h.day; omega) (y := date.y) (by omega)
  rw [hof] at hdate hb
  refine ⟨week.year, week.week, ⟨?_, ?_, ?_⟩, hdate, weeksInIsoYear_ok (by omega)⟩
  · change extractCalendar .isoyear date days = _
    rw [extractCalendar, hweek, ok_bind, toPgYear_ok (by omega)]
    rfl
  · change extractCalendar .week date days = _
    rw [extractCalendar, hweek]
    rfl
  · change extractCalendar .isodow date days = _
    rw [extractCalendar, isodowMon1, i64_bind (by omega), i64_ok (by omega)]
    rfl

theorem pgYear_lt {y' : ℤ} (h : y < y') : pgYear y < pgYear y' := by
  rw [pgYear, pgYear]
  split <;> split <;> omega

theorem whole_inj {a b : ℤ} (h : (.ok (whole a) : Checked ExtractOut) = .ok (whole b)) : a = b := by
  cases h
  rfl

end Jed.Datetime

/-!
## Laws of truncation and of the EXTRACT fields
-/

namespace Jed.Datetime

open Gregorian

variable {t t' s s' : ℤ} {u v : DateUnit}

theorem isStart_of_ok (hu : Truncates u) (ht : IsFinite t) (h : dateTruncMicros (some u) t = .ok s) :
    IsStart u s t ∧ IsFinite s := by
  obtain ⟨s', hstart, hs'⟩ := dateTruncMicros_ok hu ht
  rw [hs'] at h
  split at h
  next hlow =>
    cases h
    exact ⟨hstart, hlow, Int.lt_of_le_of_lt hstart.1.2 ht.2⟩
  next => cases h

theorem trunc_idempotent (hu : Truncates u) (ht : IsFinite t)
    (h : dateTruncMicros (some u) t = .ok s) : dateTruncMicros (some u) s = .ok s := by
  obtain ⟨hstart, hs⟩ := isStart_of_ok hu ht h
  obtain ⟨s', hstart', hs'⟩ := dateTruncMicros_ok hu hs
  have hself : IsStart u s s := ⟨⟨hstart.1.1, Int.le_refl s⟩, fun _ hr => hr.2⟩
  obtain rfl := hstart'.unique hself
  rw [hs', if_pos hs.1]

theorem trunc_mono (hu : Truncates u) (ht : IsFinite t) (ht' : IsFinite t') (hle : t ≤ t')
    (h : dateTruncMicros (some u) t = .ok s) (h' : dateTruncMicros (some u) t' = .ok s') :
    s ≤ s' := by
  obtain ⟨hstart, -⟩ := isStart_of_ok hu ht h
  obtain ⟨hstart', -⟩ := isStart_of_ok hu ht' h'
  exact hstart'.2 ⟨hstart.1.1, Int.le_trans hstart.1.2 hle⟩

/-- A unit within another: the other begins only where it does. -/
def Nested (u v : DateUnit) : Prop := ∀ s, Begins v s → Begins u s

/-- Truncating to a unit within another first changes nothing. -/
theorem trunc_nested (hu : Truncates u) (hv : Truncates v) (hnested : Nested u v) (ht : IsFinite t) :
    (dateTruncMicros (some u) t >>= dateTruncMicros (some v)) = dateTruncMicros (some v) t := by
  obtain ⟨s, hstart, hs⟩ := dateTruncMicros_ok hu ht
  obtain ⟨r, hstart', hr⟩ := dateTruncMicros_ok hv ht
  have hrs : r ≤ s := hstart.2 ⟨hnested r hstart'.1.1, hstart'.1.2⟩
  rw [hs, hr]
  by_cases hlow : negInfinity < s
  · have hfinite : IsFinite s := ⟨hlow, Int.lt_of_le_of_lt hstart.1.2 ht.2⟩
    obtain ⟨r', hstart'', hr'⟩ := dateTruncMicros_ok hv hfinite
    have hle : r' ≤ r := hstart'.2 ⟨hstart''.1.1, Int.le_trans hstart''.1.2 hstart.1.2⟩
    have hge : r ≤ r' := hstart''.2 ⟨hstart'.1.1, hrs⟩
    obtain rfl : r' = r := by omega
    rw [if_pos hlow, ok_bind, hr']
  · rw [if_neg hlow, if_neg (by omega)]
    rfl

/-- The units from the finest, each within the later ones. -/
def chain : List DateUnit :=
  [.microseconds, .milliseconds, .second, .minute, .hour, .day, .month, .quarter, .year, .century,
    .millennium]

theorem nested_chain : chain.IsChain Nested ∧ Nested .day .week ∧ Nested .year .decade := by
  have hday : Nested .day .month := by
    rintro _ ⟨y, m, _, rfl⟩
    rw [Begins]
    omega
  have hmonth : Nested .month .quarter := by
    rintro _ ⟨y, q, hq, rfl⟩
    exact ⟨y, 3 * q, by omega, rfl⟩
  have hquarter : Nested .quarter .year := by
    rintro _ ⟨y, rfl⟩
    exact ⟨y, 0, by decide, rfl⟩
  have hyear : Nested .year .century := by
    rintro _ ⟨y, _, rfl⟩
    exact ⟨y, rfl⟩
  have hcentury : Nested .century .millennium := by
    rintro _ ⟨y, hy, rfl⟩
    exact ⟨y, by omega, rfl⟩
  have hweek : Nested .day .week := by
    rintro _ ⟨k, rfl⟩
    rw [Begins]
    omega
  have hdecade : Nested .year .decade := by
    rintro _ ⟨y, _, rfl⟩
    exact ⟨y, rfl⟩
  have hmilli : Nested .microseconds .milliseconds := fun _ _ => trivial
  have hsecond : Nested .milliseconds .second := fun s hs => by
    change s % 1000000 = 0 at hs
    change s % 1000 = 0
    omega
  have hminute : Nested .second .minute := fun s hs => by
    change s % 60000000 = 0 at hs
    change s % 1000000 = 0
    omega
  have hhour : Nested .minute .hour := fun s hs => by
    change s % 3600000000 = 0 at hs
    change s % 60000000 = 0
    omega
  have hday' : Nested .hour .day := fun s hs => by
    change s % 86400000000 = 0 at hs
    change s % 3600000000 = 0
    omega
  refine ⟨?_, hweek, hdecade⟩
  simp only [chain, List.isChain_cons_cons]
  exact ⟨hmilli, hsecond, hminute, hhour, hday', hday, hmonth, hquarter, hyear, hcentury,
    .singleton _⟩

/-- The instant of a year, month, day, hour, minute and microseconds, the year in the numbering without a
    year 0. -/
def instantOf (pg : ℤ) (mo d h mi : ℕ) (us : ℤ) : ℤ :=
  ofCivil (if pg < 0 then pg + 1 else pg) mo d * 86400000000 + h * 3600000000 + mi * 60000000 + us

/-- The fields of an instant give it back. -/
theorem fields_determine (ht : IsFinite t) : ∃ pg mo d h mi us,
    (∀ quotient tz, extractDatetime quotient .year t tz = .ok (whole pg) ∧
      extractDatetime quotient .month t tz = .ok (whole (mo : ℕ)) ∧
      extractDatetime quotient .day t tz = .ok (whole (d : ℕ)) ∧
      extractDatetime quotient .hour t tz = .ok (whole (h : ℕ)) ∧
      extractDatetime quotient .minute t tz = .ok (whole (mi : ℕ)) ∧
      extractDatetime quotient .microseconds t tz = .ok (whole us)) ∧
      t = instantOf pg mo d h mi us := by
  obtain ⟨c, htime, hfield⟩ := extractDatetime_ok ht
  have hyear := htime.year
  refine ⟨pgYear c.y, c.mo, c.d, c.h, c.mi, c.s * 1000000 + c.us, fun quotient tz => ?_, ?_⟩
  · refine ⟨?_, hfield quotient .month tz, hfield quotient .day tz, hfield quotient .hour tz,
      hfield quotient .minute tz, hfield quotient .microseconds tz⟩
    exact (hfield quotient .year tz).trans (extractCalendar_year (by omega) (t / 86400000000))
  · have hpg : (if pgYear c.y < 0 then pgYear c.y + 1 else pgYear c.y) = c.y := by
      rw [pgYear]
      split <;> split <;> omega
    rw [instantOf, hpg]
    exact htime.instant.trans (Int.add_assoc _ _ _)

/-- Truncations agree where their starts do. -/
theorem trunc_eq_iff (hu : Truncates u) (ht : IsFinite t) (ht' : IsFinite t') :
    dateTruncMicros (some u) t = dateTruncMicros (some u) t' ↔
      ∃ s, IsStart u s t ∧ IsStart u s t' := by
  obtain ⟨s, hstart, hs⟩ := dateTruncMicros_ok hu ht
  obtain ⟨s', hstart', hs'⟩ := dateTruncMicros_ok hu ht'
  constructor
  · intro heq
    have hsame : s = s' := by
      rw [hs, hs'] at heq
      split at heq
      next =>
        split at heq
        · cases heq
          rfl
        · cases heq
      next hlow =>
        split at heq
        · cases heq
        next hlow' =>
          -- starts below the range are the starts of both instants
          have hle : s ≤ s' := hstart'.2 ⟨hstart.1.1, by have := ht'.1; omega⟩
          have hge : s' ≤ s := hstart.2 ⟨hstart'.1.1, by have := ht.1; omega⟩
          omega
    exact ⟨s, hstart, hsame ▸ hstart'⟩
  · rintro ⟨r, hr, hr'⟩
    obtain rfl := hstart.unique hr
    obtain rfl := hstart'.unique hr'
    rw [hs, hs']

theorem truncates_of_groups (hu : Groups u) : Truncates u := by
  rcases hu with rfl | rfl | rfl <;> (rw [Truncates]; decide)

/-- The number of a group of years is that of its start, and grows with time. -/
theorem timestamp_groups (hu : Groups u) (ht : IsFinite t) (ht' : IsFinite t') : ∃ n n',
    (∀ quotient tz, extractDatetime quotient u t tz = .ok (whole n) ∧
      extractDatetime quotient u t' tz = .ok (whole n')) ∧
      (n = n' ↔ dateTruncMicros (some u) t = dateTruncMicros (some u) t') ∧ (t ≤ t' → n ≤ n') := by
  obtain ⟨c, htime, hfield⟩ := extractDatetime_ok ht
  obtain ⟨c', htime', hfield'⟩ := extractDatetime_ok ht'
  have hyear := htime.year
  have hyear' := htime'.year
  have hwall : ∀ quotient tz (c : CivilTime) t us days,
      extractWall quotient u t tz c us days = extractCalendar u c.toCivilDate days := by
    rcases hu with rfl | rfl | rfl <;> exact fun _ _ _ _ _ _ => rfl
  refine ⟨numberOf u c.y, numberOf u c'.y, fun quotient tz => ⟨?_, ?_⟩, ?_, fun hle => ?_⟩
  · rw [hfield, hwall, extractCalendar_group hu (by omega)]
  · rw [hfield', hwall, extractCalendar_group hu (by omega)]
  · rw [trunc_eq_iff (truncates_of_groups hu) ht ht', group_eq_iff htime htime' hu]
  · exact numberOf_le hu (htime.year_mono htime' hle)

theorem date_groups {a b : ℤ} (hu : Groups u) (ha : IsFiniteDate a) (hb : IsFiniteDate b) : ∃ n n',
    extractDate u a = .ok (whole n) ∧ extractDate u b = .ok (whole n') ∧
      (n = n' ↔ ∃ s, IsStart u s (a * 86400000000) ∧ IsStart u s (b * 86400000000)) ∧
        (a ≤ b → n ≤ n') := by
  obtain ⟨date, hdate, hof, hyear, hfield⟩ := extractDate_ok ha
  obtain ⟨date', hdate', hof', hyear', hfield'⟩ := extractDate_ok hb
  have htime := isTime_midnight hdate hyear hof
  have htime' := isTime_midnight hdate' hyear' hof'
  have hday : ∀ days date, extractDay u days date = extractCalendar u date days := by
    rcases hu with rfl | rfl | rfl <;> exact fun _ _ => rfl
  refine ⟨numberOf u date.y, numberOf u date'.y, ?_, ?_, group_eq_iff htime htime' hu, fun hle => ?_⟩
  · rw [hfield, hday, extractCalendar_group hu (by omega)]
  · rw [hfield', hday, extractCalendar_group hu (by omega)]
  · exact numberOf_le hu (htime.year_mono htime' (by omega))

/-- A week date in the numbering without a year 0: a week of its year, and week 1 where January 4 is. -/
def WeekDate (field : DateUnit → Checked ExtractOut) (days : ℤ) : Prop :=
  ∃ y w d, WeekFields field (pgYear y) w d ∧ 1 ≤ w ∧ w ≤ weeksOf y ∧
    weeksInIsoYear y = .ok (weeksOf y) ∧ 1 ≤ d ∧ d ≤ 7 ∧
      (w = 1 ↔ (days + 3) / 7 = (ofCivil y 1 4 + 3) / 7)

/-- Earlier week dates than others. -/
def WeekDateLt (field field' : DateUnit → Checked ExtractOut) : Prop :=
  ∀ y w d y' w' d', WeekFields field y w d → WeekFields field' y' w' d' →
    y < y' ∨ y = y' ∧ (w < w' ∨ w = w' ∧ d < d')

/-- Fields that are those of a day's civil date. -/
def OfDay (field : DateUnit → Checked ExtractOut) (days : ℤ) : Prop :=
  ∃ y w d, WeekFields field (pgYear y) w d ∧ IsWeekDate days y w d ∧
    weeksInIsoYear y = .ok (weeksOf y)

variable {days : ℤ} {field : DateUnit → Checked ExtractOut}

theorem OfDay.weekDate (h : OfDay field days) :
    WeekDate field days := by
  obtain ⟨y, w, d, hfields, hdate, hweeks⟩ := h
  have hd := hdate.weekday
  exact ⟨y, w, d, hfields, hdate.range.1, hdate.range.2, hweeks, by omega, by omega, hdate.one_iff⟩

theorem OfDay.lt {field' : DateUnit → Checked ExtractOut} {days' : ℤ}
    (h : OfDay field days) (h' : OfDay field' days') (hlt : days < days') : WeekDateLt field field' := by
  obtain ⟨y, w, d, ⟨hy, hw, hd⟩, hdate, -⟩ := h
  obtain ⟨y', w', d', ⟨hy', hw', hd'⟩, hdate', -⟩ := h'
  rintro a b c a' b' c' ⟨ha, hb, hc⟩ ⟨ha', hb', hc'⟩
  obtain rfl := whole_inj (ha.symm.trans hy)
  obtain rfl := whole_inj (hb.symm.trans hw)
  obtain rfl := whole_inj (hc.symm.trans hd)
  obtain rfl := whole_inj (ha'.symm.trans hy')
  obtain rfl := whole_inj (hb'.symm.trans hw')
  obtain rfl := whole_inj (hc'.symm.trans hd')
  rcases hdate.lt hdate' hlt with hlt' | ⟨rfl, hrest⟩
  · exact .inl (pgYear_lt hlt')
  · exact .inr ⟨rfl, hrest⟩

theorem timestamp_ofDay (ht : IsFinite t) (quotient : ℤ → ℤ → Checked ExtractOut)
    (tz : Option (ℤ × ℤ)) :
    OfDay (fun u => extractDatetime quotient u t tz) (t / 86400000000) := by
  obtain ⟨c, htime, hfield⟩ := extractDatetime_ok ht
  obtain ⟨y, w, ⟨hy, hw, hd⟩, hdate, hweeks⟩ := weekFields_ok htime.date htime.year htime.day
  refine ⟨y, w, _, ⟨?_, ?_, ?_⟩, hdate, hweeks⟩
  · exact (hfield quotient .isoyear tz).trans hy
  · exact (hfield quotient .week tz).trans hw
  · exact (hfield quotient .isodow tz).trans hd

theorem date_ofDay (hdays : IsFiniteDate days) :
    OfDay (fun u => extractDate u days) days := by
  obtain ⟨date, hisDate, hof, hyear, hfield⟩ := extractDate_ok hdays
  obtain ⟨y, w, ⟨hy, hw, hd⟩, hdate, hweeks⟩ := weekFields_ok hisDate hyear hof
  refine ⟨y, w, _, ⟨?_, ?_, ?_⟩, hdate, hweeks⟩
  · exact (hfield .isoyear).trans hy
  · exact (hfield .week).trans hw
  · exact (hfield .isodow).trans hd

theorem ok_ne_overflow (out : ExtractOut) : (.ok out : Checked ExtractOut) ≠ .error .overflow := by
  intro h
  cases h

theorem notSupported_ne_overflow : (.error .notSupported : Checked ExtractOut) ≠ .error .overflow := by
  intro h
  cases h

theorem extractCalendar_no_overflow {date : CivilDate} (h : IsDate date)
    (hy : -549755813888 ≤ date.y ∧ date.y ≤ 549755813888)
    (hof : ofCivil date.y date.mo date.d = days) (u : DateUnit) :
    extractCalendar u date days ≠ .error .overflow := by
  obtain ⟨y, w, ⟨hisoyear, hweek, hisodow⟩, -⟩ := weekFields_ok h hy hof
  have hmo := h.month
  have hb := ofCivil_bound h.month (show date.d ≤ 1000 by have := h.day; omega) (y := date.y) (by omega)
  rw [hof] at hb
  cases u with
  | day | month => exact ok_ne_overflow _
  | quarter =>
    rw [extractCalendar, show (date.mo : ℤ) - 1 = ((date.mo - 1 : ℕ) : ℤ) by omega,
      u32_bind (by omega), u32_bind (by omega)]
    exact ok_ne_overflow _
  | year =>
    rw [extractCalendar, toPgYear_ok (by omega)]
    exact ok_ne_overflow _
  | decade =>
    rw [extractCalendar_group (.inl rfl) (by omega)]
    exact ok_ne_overflow _
  | century =>
    rw [extractCalendar_group (.inr (.inl rfl)) (by omega)]
    exact ok_ne_overflow _
  | millennium =>
    rw [extractCalendar_group (.inr (.inr rfl)) (by omega)]
    exact ok_ne_overflow _
  | week =>
    rw [show extractCalendar .week date days = _ from hweek]
    exact ok_ne_overflow _
  | isodow =>
    rw [show extractCalendar .isodow date days = _ from hisodow]
    exact ok_ne_overflow _
  | isoyear =>
    rw [show extractCalendar .isoyear date days = _ from hisoyear]
    exact ok_ne_overflow _
  | dow =>
    rw [extractCalendar, dowSun0, i64_bind (by omega)]
    exact ok_ne_overflow _
  | doy =>
    have hb' := ofCivil_bound (show 1 ≤ 1 ∧ 1 ≤ 12 by decide) (show 1 ≤ 1000 by decide) (y := date.y)
      (by omega)
    have h11 : daysFromCivil date.y (1 : ℕ) (1 : ℕ) = .ok (ofCivil date.y 1 1) :=
      daysFromCivil_ok (by decide) (by decide) (by omega)
    rw [Nat.cast_one] at h11
    rw [extractCalendar, h11, ok_bind, i64_bind (by omega), i64_bind (by omega)]
    exact ok_ne_overflow _
  | _ => exact notSupported_ne_overflow

theorem extractDatetime_no_overflow (ht : IsFinite t) {quotient : ℤ → ℤ → Checked ExtractOut}
    (hquotient : ∀ a b, quotient a b ≠ .error .overflow) (u : DateUnit) (tz : Option (ℤ × ℤ)) :
    extractDatetime quotient u t tz ≠ .error .overflow := by
  obtain ⟨c, htime, hfield⟩ := extractDatetime_ok ht
  obtain ⟨hlow, hhigh⟩ := ht
  rw [negInfinity] at hlow
  rw [posInfinity] at hhigh
  have hzone : ∀ of, extractTimezone tz of ≠ .error .overflow := by
    intro of
    cases tz with
    | none => exact notSupported_ne_overflow
    | some _ => exact ok_ne_overflow _
  have hcalendar := extractCalendar_no_overflow htime.date htime.year htime.day
  rw [hfield]
  cases u with
  | microseconds | milliseconds | second | minute | hour | epoch => exact ok_ne_overflow _
  | timezone | timezoneHour | timezoneMinute => exact hzone _
  | julian =>
    rw [extractWall, extractJulian, microsPerDay, unixEpochJd, i64_bind (by omega)]
    exact hquotient _ _
  | day => exact hcalendar .day
  | week => exact hcalendar .week
  | month => exact hcalendar .month
  | quarter => exact hcalendar .quarter
  | year => exact hcalendar .year
  | decade => exact hcalendar .decade
  | century => exact hcalendar .century
  | millennium => exact hcalendar .millennium
  | dow => exact hcalendar .dow
  | isodow => exact hcalendar .isodow
  | doy => exact hcalendar .doy
  | isoyear => exact hcalendar .isoyear

theorem extractDate_no_overflow (hdays : IsFiniteDate days) (u : DateUnit) :
    extractDate u days ≠ .error .overflow := by
  obtain ⟨date, hisDate, hof, hyear, hfield⟩ := extractDate_ok hdays
  obtain ⟨hlow, hhigh⟩ := hdays
  rw [dateNegInfinity] at hlow
  rw [datePosInfinity] at hhigh
  have hcalendar := extractCalendar_no_overflow hisDate hyear hof
  rw [hfield]
  cases u with
  | epoch =>
    rw [extractDay, secsPerDay, i64_bind (by omega)]
    exact ok_ne_overflow _
  | julian =>
    rw [extractDay, unixEpochJd, i64_bind (by omega)]
    exact ok_ne_overflow _
  | microseconds => exact hcalendar .microseconds
  | milliseconds => exact hcalendar .milliseconds
  | second => exact hcalendar .second
  | minute => exact hcalendar .minute
  | hour => exact hcalendar .hour
  | day => exact hcalendar .day
  | week => exact hcalendar .week
  | month => exact hcalendar .month
  | quarter => exact hcalendar .quarter
  | year => exact hcalendar .year
  | decade => exact hcalendar .decade
  | century => exact hcalendar .century
  | millennium => exact hcalendar .millennium
  | dow => exact hcalendar .dow
  | isodow => exact hcalendar .isodow
  | doy => exact hcalendar .doy
  | isoyear => exact hcalendar .isoyear
  | timezone => exact hcalendar .timezone
  | timezoneHour => exact hcalendar .timezoneHour
  | timezoneMinute => exact hcalendar .timezoneMinute

/-- Truncation is to the greatest start of the unit, and fails where that leaves the range; so it is
    idempotent and monotone, and composes with a unit within it. The fields give the instant back, number
    the groups of years in their order, and give week dates in the order of the days. Nothing overflows. -/
theorem calendar_laws :
    (∀ u t, Truncates u → IsFinite t → ∃ s, IsStart u s t ∧ dateTruncMicros (some u) t =
      if negInfinity < s then .ok s else .error .timestampOutOfRange) ∧
    (∀ u t s, Truncates u → IsFinite t → dateTruncMicros (some u) t = .ok s →
      dateTruncMicros (some u) s = .ok s) ∧
    (∀ u t t' s s', Truncates u → IsFinite t → IsFinite t' → t ≤ t' →
      dateTruncMicros (some u) t = .ok s → dateTruncMicros (some u) t' = .ok s' → s ≤ s') ∧
    (∀ u v t, Truncates u → Truncates v → Nested u v → IsFinite t →
      (dateTruncMicros (some u) t >>= dateTruncMicros (some v)) = dateTruncMicros (some v) t) ∧
    (chain.IsChain Nested ∧ Nested .day .week ∧ Nested .year .decade) ∧
    (∀ t, IsFinite t → ∃ pg mo d h mi us,
      (∀ quotient tz, extractDatetime quotient .year t tz = .ok (whole pg) ∧
        extractDatetime quotient .month t tz = .ok (whole (mo : ℕ)) ∧
        extractDatetime quotient .day t tz = .ok (whole (d : ℕ)) ∧
        extractDatetime quotient .hour t tz = .ok (whole (h : ℕ)) ∧
        extractDatetime quotient .minute t tz = .ok (whole (mi : ℕ)) ∧
        extractDatetime quotient .microseconds t tz = .ok (whole us)) ∧
      t = instantOf pg mo d h mi us) ∧
    (∀ u t t', Groups u → IsFinite t → IsFinite t' → ∃ n n',
      (∀ quotient tz, extractDatetime quotient u t tz = .ok (whole n) ∧
        extractDatetime quotient u t' tz = .ok (whole n')) ∧
      (n = n' ↔ dateTruncMicros (some u) t = dateTruncMicros (some u) t') ∧ (t ≤ t' → n ≤ n')) ∧
    (∀ u a b, Groups u → IsFiniteDate a → IsFiniteDate b → ∃ n n',
      extractDate u a = .ok (whole n) ∧ extractDate u b = .ok (whole n') ∧
      (n = n' ↔ ∃ s, IsStart u s (a * 86400000000) ∧ IsStart u s (b * 86400000000)) ∧
        (a ≤ b → n ≤ n')) ∧
    (∀ t quotient tz, IsFinite t →
      WeekDate (fun u => extractDatetime quotient u t tz) (t / 86400000000)) ∧
    (∀ t t' quotient tz, IsFinite t → IsFinite t' → t / 86400000000 < t' / 86400000000 →
      WeekDateLt (fun u => extractDatetime quotient u t tz)
        fun u => extractDatetime quotient u t' tz) ∧
    (∀ days, IsFiniteDate days → WeekDate (fun u => extractDate u days) days) ∧
    (∀ a b, IsFiniteDate a → IsFiniteDate b → a < b →
      WeekDateLt (fun u => extractDate u a) fun u => extractDate u b) ∧
    (∀ quotient t u tz, (∀ a b, quotient a b ≠ .error .overflow) → IsFinite t →
      extractDatetime quotient u t tz ≠ .error .overflow) ∧
    (∀ days u, IsFiniteDate days → extractDate u days ≠ .error .overflow) :=
  ⟨fun _ _ hu ht => dateTruncMicros_ok hu ht, fun _ _ _ hu ht h => trunc_idempotent hu ht h,
    fun _ _ _ _ _ hu ht ht' hle h h' => trunc_mono hu ht ht' hle h h',
    fun _ _ _ hu hv hnested ht => trunc_nested hu hv hnested ht, nested_chain,
    fun _ ht => fields_determine ht, fun _ _ _ hu ht ht' => timestamp_groups hu ht ht',
    fun _ _ _ hu ha hb => date_groups hu ha hb,
    fun _ quotient tz ht => (timestamp_ofDay ht quotient tz).weekDate,
    fun _ _ quotient tz ht ht' hlt =>
      (timestamp_ofDay ht quotient tz).lt (timestamp_ofDay ht' quotient tz) hlt,
    fun _ hdays => (date_ofDay hdays).weekDate, fun _ _ ha hb hlt => (date_ofDay ha).lt (date_ofDay hb) hlt,
    fun _ _ u tz hquotient ht => extractDatetime_no_overflow ht hquotient u tz,
    fun _ u hdays => extractDate_no_overflow hdays u⟩

end Jed.Datetime
