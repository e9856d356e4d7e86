import Jed.Datetime.Civil
import Jed.Datetime.Calendar

/-!
# Truncation is to the greatest start of a unit

Where each unit begins in the Gregorian calendar, and `date_trunc_micros` as the greatest such instant that
is not after its argument.
-/

namespace Jed.Datetime

open Gregorian

variable {α : Type}

/-- The instants at which a unit begins: weeks on Monday (day 4 is one), decades at years divisible by 10,
    centuries and millennia at years congruent to 1. -/
def Begins : DateUnit → ℤ → Prop
  | .microseconds, _ => True
  | .milliseconds, s => s % 1000 = 0
  | .second, s => s % 1000000 = 0
  | .minute, s => s % 60000000 = 0
  | .hour, s => s % 3600000000 = 0
  | .day, s => s % 86400000000 = 0
  | .week, s => ∃ k, s = (7 * k + 4) * 86400000000
  | .month, s => ∃ y m, m < 12 ∧ s = monthStart y m * 86400000000
  | .quarter, s => ∃ y q, q < 4 ∧ s = monthStart y (3 * q) * 86400000000
  | .year, s => ∃ y, s = yearStart y * 86400000000
  | .decade, s => ∃ y, y % 10 = 0 ∧ s = yearStart y * 86400000000
  | .century, s => ∃ y, y % 100 = 1 ∧ s = yearStart y * 86400000000
  | .millennium, s => ∃ y, y % 1000 = 1 ∧ s = yearStart y * 86400000000
  | _, _ => False

/-- The units that `date_trunc` supports. -/
def Truncates (u : DateUnit) : Prop :=
  u ∈ [.microseconds, .milliseconds, .second, .minute, .hour, .day, .week, .month, .quarter, .year,
    .decade, .century, .millennium]

/-- The greatest start of a unit that is not after an instant. -/
def IsStart (u : DateUnit) (s t : ℤ) : Prop := IsGreatest {s | Begins u s ∧ s ≤ t} s

theorem i128_bind {v : ℤ} {f : ℤ → Checked α}
    (h : -170141183460469231731687303715884105728 ≤ v ∧ v ≤ 170141183460469231731687303715884105727) :
    (i128 v >>= f) = f v := by
  rw [i128, if_pos h]
  rfl

theorem u32_bind {n : ℕ} {f : ℕ → Checked α} (h : n ≤ 4294967295) : (u32 n >>= f) = f n := by
  rw [u32, if_pos ⟨by omega, by omega⟩]
  rfl

variable {y : ℤ} {mo d : ℕ}

theorem ofCivil_bound (hmo : 1 ≤ mo ∧ mo ≤ 12) (hd : d ≤ 1000) (hy : -1099511627776 ≤ y ∧ y ≤ 1099511627776) :
    -562949953421312 ≤ ofCivil y mo d ∧ ofCivil y mo d ≤ 562949953421312 := by
  have h := monthStart_mem (y := y) (m := mo - 1) (by omega)
  have hnext := monthStart_le (y := y) (m := mo - 1) (n := mo - 1 + 1) (by omega)
  rw [ofCivil]
  simp only [yearStart] at h
  omega

theorem rebuild_ok {h mi s us : ℕ} (hmo : 1 ≤ mo ∧ mo ≤ 12) (hd : d ≤ 1000)
    (hy : -1099511627776 ≤ y ∧ y ≤ 1099511627776)
    (htime : h < 24 ∧ mi < 60 ∧ s < 60 ∧ us < 1000000) :
    rebuild y mo d h mi s us = .ok (ofCivil y mo d * 86400000000 + h * 3600000000 + mi * 60000000 +
      s * 1000000 + us) := by
  have hb := ofCivil_bound hmo hd hy
  rw [rebuild, daysFromCivil_ok hmo hd hy, ok_bind]
  generalize ofCivil y mo d = days at hb
  rw [microsPerDay, microsPerHour, microsPerMin, microsPerSec, i128_bind (by omega),
    i128_bind (by omega), i128_bind (by omega), i128_bind (by omega), i128_bind (by omega),
    i128_bind (by omega), i128_bind (by omega), i128, if_pos (by omega)]

/-- The numbering without a year 0. -/
def pgYear (y : ℤ) : ℤ := if y ≤ 0 then y - 1 else y

theorem toPgYear_ok (hy : -1099511627776 ≤ y ∧ y ≤ 1099511627776) :
    toPgYear y = .ok (pgYear y) := by
  rw [toPgYear, pgYear]
  split
  · exact i64_ok (by omega)
  · rfl

theorem fromPgYear_ok (hy : -1099511627776 ≤ y ∧ y ≤ 1099511627776) :
    fromPgYear (pgYear y) = .ok y := by
  rw [fromPgYear, pgYear]
  split
  · rw [if_pos (by omega), i64_ok (by omega), Int.sub_add_cancel]
  · rw [if_neg (by omega)]

theorem groupBC_ok {n size : ℤ} (hn : 0 ≤ n ∧ n ≤ 1000) (hsize : 1 ≤ size)
    (hy : -1099511627776 ≤ y ∧ y < 0) : groupBC n size y = .ok (-((n - y) / size)) := by
  have hq : 0 ≤ (n - y) / size := Int.ediv_nonneg (by omega) (by omega)
  have hle : (n - y) / size ≤ n - y := Int.ediv_le_self _ (by omega)
  rw [groupBC, i64_bind (by omega), tdiv_nonneg (by omega), i64_ok (by omega)]

theorem extractDecade_ok (hy : -1099511627770 ≤ y ∧ y ≤ 1099511627776) :
    extractDecade (pgYear y) = .ok (y / 10) := by
  rw [extractDecade, pgYear]
  by_cases h : y ≤ 0
  · rw [if_pos h, if_neg (by omega), groupBC_ok (by decide) (by decide) (by omega)]
    congr 1
    omega
  · rw [if_neg h, if_pos (by omega), tdiv_nonneg (by omega)]

/-- The number of a group of years, its place `g` from the group of year 1: there is no group 0. -/
def groupNumber (g : ℤ) : ℤ := if 0 ≤ g then g + 1 else g

/-- The number of a year's century. -/
theorem extractCentury_ok (hy : -1099511627770 ≤ y ∧ y ≤ 1099511627776) :
    extractCentury (pgYear y) = .ok (groupNumber ((y - 1) / 100)) := by
  rw [extractCentury, pgYear, groupNumber]
  by_cases h : y ≤ 0
  · rw [if_pos h, if_neg (by omega), if_neg (by omega),
      groupBC_ok (by decide) (by decide) (by omega)]
    congr 1
    omega
  · rw [if_neg h, if_pos (by omega), if_pos (by omega), i64_bind (by omega), tdiv_nonneg (by omega)]
    change Except.ok _ = Except.ok _
    congr 1
    omega

/-- The number of a year's millennium. -/
theorem extractMillennium_ok (hy : -1099511627770 ≤ y ∧ y ≤ 1099511627776) :
    extractMillennium (pgYear y) = .ok (groupNumber ((y - 1) / 1000)) := by
  rw [extractMillennium, pgYear, groupNumber]
  by_cases h : y ≤ 0
  · rw [if_pos h, if_neg (by omega), if_neg (by omega),
      groupBC_ok (by decide) (by decide) (by omega)]
    congr 1
    omega
  · rw [if_neg h, if_pos (by omega), if_pos (by omega), i64_bind (by omega), tdiv_nonneg (by omega)]
    change Except.ok _ = Except.ok _
    congr 1
    omega

theorem rebuild_year (hy : -1099511627776 ≤ y ∧ y ≤ 1099511627776) :
    rebuild y 1 1 0 0 0 0 = .ok (yearStart y * 86400000000) := by
  rw [rebuild_ok (by decide) (by decide) hy (by decide)]
  congr 1
  rw [ofCivil, monthStart]
  norm_num

theorem rebuildYear_ok (hy : -1099511627776 ≤ y ∧ y ≤ 1099511627776) :
    rebuildYear (pgYear y) = .ok (yearStart y * 86400000000) := by
  rw [rebuildYear, fromPgYear_ok hy, ok_bind, rebuild_year hy]

theorem truncDecade_ok (hy : -549755813888 ≤ y ∧ y ≤ 549755813888) :
    truncDecade y = .ok (yearStart (y / 10 * 10) * 86400000000) := by
  have hpg := rebuildYear_ok (y := y / 10 * 10) (by omega)
  rw [pgYear] at hpg
  rw [truncDecade, toPgYear_ok (by omega), ok_bind, extractDecade_ok (by omega), ok_bind,
    i64_bind (by omega)]
  by_cases h : y / 10 ≥ 1
  · rw [if_neg (by omega)] at hpg
    rw [if_pos h, hpg]
  · rw [if_pos (by omega)] at hpg
    rw [if_neg h, i64_bind (by omega), hpg]

/-- The start of a group of years from its number. -/
theorem truncGroup_ok {size g : ℤ} (hsize : 1 ≤ size)
    (hg : -1000000000000 ≤ g * size ∧ g * size ≤ 1000000000000)
    (hg' : -1000000000000 ≤ g ∧ g ≤ 1000000000000) :
    truncGroup size (groupNumber g) = .ok (yearStart (g * size + 1) * 86400000000) := by
  have hpg := rebuildYear_ok (y := g * size + 1) (by omega)
  rw [pgYear] at hpg
  rw [truncGroup, groupNumber]
  by_cases h : 0 ≤ g
  · have hpos := Int.mul_nonneg h (show 0 ≤ size by omega)
    rw [if_neg (by omega)] at hpg
    rw [if_pos h, if_pos (by omega), i64_bind (by omega), Int.add_sub_cancel, i64_bind (by omega),
      i64_bind (by omega), hpg]
  · have hneg : g * size ≤ -1 := by
      have := Int.mul_le_mul_of_nonneg_right (show g ≤ -1 by omega) (show 0 ≤ size by omega)
      omega
    rw [if_pos (by omega), Int.add_sub_cancel] at hpg
    rw [if_neg h, if_neg (by omega), i64_bind (by omega), hpg]

variable {c : CivilTime} {t : ℤ}

theorem quarterMonth_ok (h : 1 ≤ mo ∧ mo ≤ 12) :
    quarterMonth mo = .ok (3 * ((mo - 1) / 3) + 1) := by
  rw [quarterMonth, show (mo : ℤ) - 1 = ((mo - 1 : ℕ) : ℤ) by omega, u32_bind (by omega),
    u32_bind (by omega), u32, if_pos ⟨by omega, by omega⟩]
  congr 1
  omega

theorem IsTime.day (h : IsTime c t) : ofCivil c.y c.mo c.d = t / 86400000000 := by
  have := h.instant
  have := h.time
  omega

theorem IsTime.month (h : IsTime c t) : monthStart c.y (c.mo - 1) ≤ t / 86400000000 ∧
    t / 86400000000 < monthStart c.y c.mo := by
  have hin := h.date.in_month
  have hday := h.date.day
  rw [← h.day]
  refine ⟨?_, hin⟩
  rw [ofCivil]
  omega

theorem IsTime.month_le (h : IsTime c t) {m : ℕ} (hm : m < 12)
    (hle : monthStart y m * 86400000000 ≤ t) : y < c.y ∨ y = c.y ∧ m ≤ c.mo - 1 := by
  have hin := h.month.2
  have hmo := h.date.month
  by_contra hlt
  have hafter : monthStart c.y (c.mo - 1 + 1) ≤ monthStart y m :=
    monthStart_lt (by omega) hm (by omega)
  rw [Nat.sub_add_cancel hmo.1] at hafter
  omega

theorem IsTime.year_le (h : IsTime c t) (hle : yearStart y * 86400000000 ≤ t) : y ≤ c.y := by
  have := h.month_le (y := y) (m := 0) (by decide) hle
  omega

theorem IsTime.yearStart_le (h : IsTime c t) (hy : y ≤ c.y) :
    yearStart y * 86400000000 ≤ t := by
  have hin := h.month.1
  have hmo := h.date.month
  have hyear := (monthStart_mem (y := c.y) (m := c.mo - 1) (by omega)).1
  have := Gregorian.yearStart_le hy
  omega

variable {u : DateUnit}

theorem isStart_year (h : IsTime c t) {P : ℤ → Prop}
    (hbegins : ∀ s, Begins u s ↔ ∃ y, P y ∧ s = yearStart y * 86400000000) (hP : P y)
    (hy : y ≤ c.y) (hgreatest : ∀ y', P y' → y' ≤ c.y → y' ≤ y) :
    IsStart u (yearStart y * 86400000000) t := by
  refine ⟨⟨(hbegins _).2 ⟨y, hP, rfl⟩, h.yearStart_le hy⟩, ?_⟩
  rintro s ⟨hs, hst⟩
  obtain ⟨y', hP', rfl⟩ := (hbegins s).1 hs
  have := Gregorian.yearStart_le (hgreatest y' hP' (h.year_le hst))
  omega

variable {s : ℤ}

/-- The start of a unit of fixed length. -/
theorem isStart_floor {k : ℤ} (hk : 0 < k) (hbegins : ∀ s, Begins u s ↔ s % k = 0)
    (hs : s = t - t % k) : IsStart u s t := by
  subst hs
  have hmod := Int.emod_nonneg t (Int.ne_of_gt hk)
  refine ⟨⟨(hbegins _).2 ?_, by omega⟩, ?_⟩
  · rw [Int.sub_emod, Int.emod_emod, Int.sub_self, Int.zero_emod]
  · rintro s' ⟨hs, hst⟩
    have hs' := Int.mul_ediv_add_emod s' k
    have ht' := Int.mul_ediv_add_emod t k
    rw [(hbegins s').1 hs] at hs'
    have hdiv := Int.mul_le_mul_of_nonneg_left (Int.ediv_le_ediv hk hst) (Int.le_of_lt hk)
    omega

/-- The start of a month or a quarter, from the greatest month that starts one. -/
theorem isStart_month (h : IsTime c t) {P : ℕ → Prop} {m : ℕ}
    (hbegins : ∀ s, Begins u s ↔ ∃ y m, m < 12 ∧ P m ∧ s = monthStart y m * 86400000000)
    (hP : P m) (hm : m ≤ c.mo - 1) (hgreatest : ∀ m', P m' → m' ≤ c.mo - 1 → m' ≤ m)
    (hs : s = monthStart c.y m * 86400000000) : IsStart u s t := by
  subst hs
  have hin := h.month.1
  have hmo := h.date.month
  have hle := monthStart_le (y := c.y) hm
  refine ⟨⟨(hbegins _).2 ⟨c.y, m, by omega, hP, rfl⟩, by omega⟩, ?_⟩
  rintro s ⟨hs, hst⟩
  obtain ⟨y', m', hm', hP', rfl⟩ := (hbegins s).1 hs
  rcases h.month_le hm' hst with hlt | ⟨hy, hle'⟩
  · have hafter : monthStart y' (m' + 1) ≤ monthStart c.y m :=
      monthStart_lt hm' (by omega) (.inl hlt)
    have := monthStart_le (y := y') (m := m') (n := m' + 1) (by omega)
    omega
  · have := monthStart_le (y := c.y) (hgreatest m' hP' hle')
    rw [hy]
    omega

/-- The start of the unit that holds an instant is computed, and is the greatest. -/
theorem truncWide_ok (h : IsTime c t) (hu : Truncates u) :
    ∃ s, truncWide u t c = .ok s ∧ IsStart u s t := by
  obtain ⟨hmo, hd⟩ := h.date
  have hyear := h.year
  have htime := h.time
  have hinst := h.instant
  have hmonth : ofCivil c.y c.mo 1 = monthStart c.y (c.mo - 1) := by
    rw [ofCivil]
    norm_num
  cases u with
  | microseconds => exact ⟨t, rfl, ⟨trivial, Int.le_refl t⟩, fun s hs => hs.2⟩
  | milliseconds =>
    rw [truncWide, u32_bind (by omega), rebuild_ok hmo (by omega) (by omega) (by omega)]
    exact ⟨_, rfl, isStart_floor (by decide) (fun _ => Iff.rfl) (by omega)⟩
  | second =>
    rw [truncWide, rebuild_ok hmo (by omega) (by omega) (by omega)]
    exact ⟨_, rfl, isStart_floor (by decide) (fun _ => Iff.rfl) (by omega)⟩
  | minute =>
    rw [truncWide, rebuild_ok hmo (by omega) (by omega) (by omega)]
    exact ⟨_, rfl, isStart_floor (by decide) (fun _ => Iff.rfl) (by omega)⟩
  | hour =>
    rw [truncWide, rebuild_ok hmo (by omega) (by omega) (by omega)]
    exact ⟨_, rfl, isStart_floor (by decide) (fun _ => Iff.rfl) (by omega)⟩
  | day =>
    rw [truncWide, rebuild_ok hmo (by omega) (by omega) (by omega)]
    exact ⟨_, rfl, isStart_floor (by decide) (fun _ => Iff.rfl) (by omega)⟩
  | week =>
    have hb := ofCivil_bound hmo (d := c.d) (by omega) (y := c.y) (by omega)
    have hday := h.day
    rw [truncWide, truncWeek, daysFromCivil_ok hmo (by omega) (by omega), ok_bind,
      i64_bind (by omega), i64_bind (by omega), microsPerDay, i128, if_pos (by omega)]
    refine ⟨_, rfl, ⟨⟨(ofCivil c.y c.mo c.d - 4) / 7, by omega⟩, by omega⟩, ?_⟩
    rintro s ⟨⟨k, rfl⟩, hst⟩
    omega
  | month =>
    rw [truncWide, rebuild_ok hmo (by decide) (by omega) (by decide), hmonth]
    exact ⟨_, rfl, isStart_month h (P := fun _ => True) (fun s => by simp [Begins]) trivial
      (Nat.le_refl _) (fun _ _ hle => hle) (by omega)⟩
  | quarter =>
    have hquarter : ofCivil c.y (3 * ((c.mo - 1) / 3) + 1) 1 = monthStart c.y (3 * ((c.mo - 1) / 3)) := by
      rw [ofCivil]
      norm_num
    have hrebuild := rebuild_ok (show 1 ≤ 3 * ((c.mo - 1) / 3) + 1 ∧ 3 * ((c.mo - 1) / 3) + 1 ≤ 12 by omega)
      (show 1 ≤ 1000 by decide) (y := c.y) (by omega) (show 0 < 24 ∧ 0 < 60 ∧ 0 < 60 ∧ 0 < 1000000 by decide)
    rw [hquarter] at hrebuild
    rw [truncWide, quarterMonth_ok hmo]
    refine ⟨_, hrebuild, isStart_month h (P := fun m => m % 3 = 0)
      (m := 3 * ((c.mo - 1) / 3)) (fun s => ?_) (by omega) (by omega)
      (by omega) (by omega)⟩
    constructor
    · rintro ⟨y, q, hq, rfl⟩
      exact ⟨y, 3 * q, by omega, by omega, rfl⟩
    · rintro ⟨y, m, hm, hm3, rfl⟩
      exact ⟨y, m / 3, by omega, by rw [Nat.mul_div_cancel' (Nat.dvd_of_mod_eq_zero hm3)]⟩
  | year =>
    rw [truncWide, rebuild_year (by omega)]
    exact ⟨_, rfl, isStart_year h (P := fun _ => True) (fun s => by simp [Begins]) trivial
      (Int.le_refl _) fun _ _ hle => hle⟩
  | decade =>
    rw [truncWide, truncDecade_ok hyear]
    exact ⟨_, rfl, isStart_year h (P := fun y => y % 10 = 0) (fun _ => Iff.rfl) (by omega)
      (by omega) (by omega)⟩
  | century =>
    rw [truncWide, toPgYear_ok (by omega), ok_bind, extractCentury_ok (by omega), ok_bind,
      truncGroup_ok (by decide) (by omega) (by omega)]
    exact ⟨_, rfl, isStart_year h (P := fun y => y % 100 = 1) (fun _ => Iff.rfl) (by omega)
      (by omega) (by omega)⟩
  | millennium =>
    rw [truncWide, toPgYear_ok (by omega), ok_bind, extractMillennium_ok (by omega), ok_bind,
      truncGroup_ok (by decide) (by omega) (by omega)]
    exact ⟨_, rfl, isStart_year h (P := fun y => y % 1000 = 1) (fun _ => Iff.rfl) (by omega)
      (by omega) (by omega)⟩
  | _ => exact absurd hu (by rw [Truncates]; decide)

/-- Every unit but the microsecond begins at whole milliseconds. -/
theorem begins_mod (h : Begins u s) (hu : u ≠ .microseconds) : s % 1000 = 0 := by
  cases u with
  | microseconds => exact absurd rfl hu
  | milliseconds | second | minute | hour | day =>
    rw [Begins] at h
    omega
  | week | year =>
    obtain ⟨_, rfl⟩ := h
    omega
  | month | quarter =>
    obtain ⟨_, _, _, rfl⟩ := h
    omega
  | decade | century | millennium =>
    obtain ⟨_, _, rfl⟩ := h
    omega
  | _ => exact h.elim

/-- A finite timestamp. -/
def IsFinite (t : ℤ) : Prop := negInfinity < t ∧ t < posInfinity

/-- Truncation is to the greatest start of the unit, and fails where that leaves the range. -/
theorem dateTruncMicros_ok {t : ℤ} (hu : Truncates u) (ht : IsFinite t) :
    ∃ s, IsStart u s t ∧ dateTruncMicros (some u) t =
      if negInfinity < s then .ok s else .error .timestampOutOfRange := by
  obtain ⟨hlow, hhigh⟩ := ht
  rw [negInfinity] at hlow
  rw [posInfinity] at hhigh
  obtain ⟨c, hc, htime⟩ := civilFromMicros_ok (t := t) ⟨by omega, by omega⟩
  obtain ⟨s, hs, hstart⟩ := truncWide_ok htime hu
  refine ⟨s, hstart, ?_⟩
  have hle : s ≤ t := hstart.1.2
  have hmin : s ≠ -9223372036854775808 := by
    intro hmin
    by_cases hus : u = .microseconds
    · subst hus
      cases hs
      omega
    · have := begins_mod hstart.1.1 hus
      omega
  rw [dateTruncMicros, posInfinity, negInfinity, if_neg (by omega), truncFinite, hc, ok_bind, hs,
    ok_bind, narrow]
  by_cases hrange : -9223372036854775808 < s
  · rw [if_pos (by omega), if_pos hrange, finiteInstant, negInfinity, posInfinity, if_neg (by omega)]
  · rw [if_neg (by omega), if_neg hrange]

end Jed.Datetime
