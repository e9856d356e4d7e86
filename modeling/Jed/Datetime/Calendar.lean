import Mathlib.Data.Int.Notation
import Mathlib.Data.Nat.Notation
import Mathlib.Tactic.Common

/-!
# Calendar arithmetic

The civil dates of `timestamp.rs` and the year and week numbers of `datetime_fn.rs`, each operation
checked against the integer type that it is done in.
-/

namespace Jed.Datetime

/-- The failures of the datetime functions; `overflow` is arithmetic that leaves its integer type. -/
inductive DateError where
  | notRecognized
  | notSupported
  | timestampOutOfRange
  | valueOutOfRange
  | overflow
  deriving DecidableEq

/-- The result of arithmetic in fixed-width integers. -/
abbrev Checked (α : Type) : Type := Except DateError α

/-- A value of `i64`. -/
def i64 (v : ℤ) : Checked ℤ :=
  if -9223372036854775808 ≤ v ∧ v ≤ 9223372036854775807 then .ok v else .error .overflow

/-- A value of `i128`. -/
def i128 (v : ℤ) : Checked ℤ :=
  if -170141183460469231731687303715884105728 ≤ v ∧ v ≤ 170141183460469231731687303715884105727
  then .ok v else .error .overflow

/-- A value of `u32`. -/
def u32 (v : ℤ) : Checked ℕ := if 0 ≤ v ∧ v ≤ 4294967295 then .ok v.toNat else .error .overflow

/-- `as u32`. -/
def asU32 (v : ℤ) : ℕ := (v % 4294967296).toNat

/-- `MICROS_PER_SEC`. -/
def microsPerSec : ℤ := 1000000

/-- `SECS_PER_DAY`. -/
def secsPerDay : ℤ := 86400

/-- `MICROS_PER_DAY`. -/
def microsPerDay : ℤ := 86400000000

/-- `MICROS_PER_MIN`. -/
def microsPerMin : ℤ := 60000000

/-- `MICROS_PER_HOUR`. -/
def microsPerHour : ℤ := 3600000000

/-- `NEG_INFINITY`. -/
def negInfinity : ℤ := -9223372036854775808

/-- `POS_INFINITY`. -/
def posInfinity : ℤ := 9223372036854775807

/-- What is divided to floor `y / (k + 1)` by a truncating division. -/
def dividend (y k : ℤ) : Checked ℤ := if y ≥ 0 then .ok y else i64 (y - k)

/-- `days_from_civil`. -/
def daysFromCivil (y m d : ℤ) : Checked ℤ := do
  let y ← i64 (y - if m ≤ 2 then 1 else 0)
  let n ← dividend y 399
  let era := n.tdiv 400
  let eraYears ← i64 (era * 400)
  let yoe ← i64 (y - eraYears)
  let mp ← i64 (m + if m > 2 then -3 else 9)
  let mp ← i64 (153 * mp)
  let mp ← i64 (mp + 2)
  let d ← i64 (d - 1)
  let doy ← i64 (mp.tdiv 5 + d)
  let doe ← i64 (yoe * 365)
  let doe ← i64 (doe + yoe.tdiv 4)
  let doe ← i64 (doe - yoe.tdiv 100)
  let doe ← i64 (doe + doy)
  let eraDays ← i64 (era * 146097)
  let days ← i64 (eraDays + doe)
  i64 (days - 719468)

/-- A civil date, its year astronomical. -/
structure CivilDate where
  y : ℤ
  mo : ℕ
  d : ℕ
  deriving DecidableEq

/-- `civil_from_days`. -/
def civilFromDays (z : ℤ) : Checked CivilDate := do
  let z ← i64 (z + 719468)
  let n ← dividend z 146096
  let era := n.tdiv 146097
  let eraDays ← i64 (era * 146097)
  let doe ← i64 (z - eraDays)
  let yoe ← i64 (doe - doe.tdiv 1460)
  let yoe ← i64 (yoe + doe.tdiv 36524)
  let yoe ← i64 (yoe - doe.tdiv 146096)
  let yoe := yoe.tdiv 365
  let eraYears ← i64 (era * 400)
  let y ← i64 (yoe + eraYears)
  let before ← i64 (365 * yoe)
  let before ← i64 (before + yoe.tdiv 4)
  let before ← i64 (before - yoe.tdiv 100)
  let doy ← i64 (doe - before)
  let mp ← i64 (5 * doy)
  let mp ← i64 (mp + 2)
  let mp := mp.tdiv 153
  let start ← i64 (153 * mp)
  let start ← i64 (start + 2)
  let d ← i64 (doy - start.tdiv 5)
  let d ← i64 (d + 1)
  let m ← i64 (mp + if mp < 10 then 3 else -9)
  let y ← i64 (y + if m ≤ 2 then 1 else 0)
  return ⟨y, asU32 m, asU32 d⟩

/-- A civil date with its time of day. -/
structure CivilTime extends CivilDate where
  h : ℕ
  mi : ℕ
  s : ℕ
  us : ℕ
  deriving DecidableEq

/-- `civil_from_micros`. -/
def civilFromMicros (t : ℤ) : Checked CivilTime := do
  let us := t % microsPerSec
  let secs := t / microsPerSec
  let sod := secs % secsPerDay
  let days := secs / secsPerDay
  let date ← civilFromDays days
  let h := sod.tdiv 3600
  let mi := (sod.tmod 3600).tdiv 60
  let s := sod.tmod 60
  return { date with h := asU32 h, mi := asU32 mi, s := asU32 s, us := asU32 us }

/-- `to_pg_year`. -/
def toPgYear (astro : ℤ) : Checked ℤ := if astro ≤ 0 then i64 (astro - 1) else .ok astro

/-- `from_pg_year`. -/
def fromPgYear (pg : ℤ) : Checked ℤ := if pg < 0 then i64 (pg + 1) else .ok pg

/-- `-((n - pg_year) / size)`, of a year BC. -/
def groupBC (n size pgYear : ℤ) : Checked ℤ := do
  let years ← i64 (n - pgYear)
  i64 (-(years.tdiv size))

/-- `extract_decade`. -/
def extractDecade (pgYear : ℤ) : Checked ℤ :=
  if pgYear ≥ 0 then .ok (pgYear.tdiv 10) else groupBC 8 10 pgYear

/-- `extract_century`. -/
def extractCentury (pgYear : ℤ) : Checked ℤ :=
  if pgYear ≥ 0 then do
    let years ← i64 (pgYear + 99)
    return years.tdiv 100
  else groupBC 99 100 pgYear

/-- `extract_millennium`. -/
def extractMillennium (pgYear : ℤ) : Checked ℤ :=
  if pgYear ≥ 0 then do
    let years ← i64 (pgYear + 999)
    return years.tdiv 1000
  else groupBC 999 1000 pgYear

/-- `dow_sun0`. -/
def dowSun0 (days : ℤ) : Checked ℤ := do
  let days ← i64 (days + 4)
  return days % 7

/-- `isodow_mon1`. -/
def isodowMon1 (days : ℤ) : Checked ℤ := do
  let days ← i64 (days + 3)
  i64 (days % 7 + 1)

/-- `iso_p`. -/
def isoP (y : ℤ) : Checked ℤ := do
  let n ← i64 (y + y / 4)
  let n ← i64 (n - y / 100)
  let n ← i64 (n + y / 400)
  return n % 7

/-- `weeks_in_iso_year`. -/
def weeksInIsoYear (y : ℤ) : Checked ℤ := do
  let p ← isoP y
  if p = 4 then return 53
  else do
    let before ← i64 (y - 1)
    let p ← isoP before
    return if p = 3 then 53 else 52

/-- An ISO week and its year. -/
structure IsoWeek where
  week : ℤ
  year : ℤ
  deriving DecidableEq

/-- `iso_week_year`. -/
def isoWeekYear (y : ℤ) (mo d : ℕ) : Checked IsoWeek := do
  let days ← daysFromCivil y mo d
  let first ← daysFromCivil y 1 1
  let ordinal ← i64 (days - first)
  let ordinal ← i64 (ordinal + 1)
  let weekday ← isodowMon1 days
  let week ← i64 (ordinal - weekday)
  let week ← i64 (week + 10)
  let week := week / 7
  if week < 1 then do
    let y ← i64 (y - 1)
    let weeks ← weeksInIsoYear y
    return ⟨weeks, y⟩
  else do
    let weeks ← weeksInIsoYear y
    if week > weeks then do
      let y ← i64 (y + 1)
      return ⟨1, y⟩
    else return ⟨week, y⟩

end Jed.Datetime

/-!
## date_trunc and EXTRACT

`date_trunc_micros`, `extract_datetime` and `extract_date` of `datetime_fn.rs`, from the canonical unit on.
-/

namespace Jed.Datetime

/-- The canonical units. -/
inductive DateUnit where
  | microseconds | milliseconds | second | minute | hour
  | day | week | month | quarter | year | decade | century | millennium
  | dow | isodow | doy | isoyear | epoch | julian
  | timezone | timezoneHour | timezoneMinute
  deriving DecidableEq

/-- `rebuild`: the instant of civil fields. -/
def rebuild (y : ℤ) (mo d h mi s us : ℕ) : Checked ℤ := do
  let days ← daysFromCivil y mo d
  let days ← i128 (days * microsPerDay)
  let hours ← i128 (h * microsPerHour)
  let out ← i128 (days + hours)
  let minutes ← i128 (mi * microsPerMin)
  let out ← i128 (out + minutes)
  let seconds ← i128 (s * microsPerSec)
  let out ← i128 (out + seconds)
  i128 (out + us)

/-- The start of a group of years, its first year in the numbering without a year 0. -/
def rebuildYear (pgYear : ℤ) : Checked ℤ := do
  let y ← fromPgYear pgYear
  rebuild y 1 1 0 0 0 0

/-- `"week"`: back to Monday. -/
def truncWeek (y : ℤ) (mo d : ℕ) : Checked ℤ := do
  let days ← daysFromCivil y mo d
  let shifted ← i64 (days + 3)
  let monday ← i64 (days - shifted % 7)
  i128 (monday * microsPerDay)

/-- The first month of the quarter of `mo`. -/
def quarterMonth (mo : ℕ) : Checked ℕ := do
  let m ← u32 ((mo : ℤ) - 1)
  let m ← u32 (m / 3 * 3 : ℕ)
  u32 (m + 1 : ℕ)

/-- `"decade"`. -/
def truncDecade (y : ℤ) : Checked ℤ := do
  let pg ← toPgYear y
  let n ← extractDecade pg
  let start ← i64 (n * 10)
  if n ≥ 1 then rebuildYear start
  else do
    let start ← i64 (start - 1)
    rebuildYear start

/-- `"century"` and `"millennium"`, of the number `n` of the group. -/
def truncGroup (size n : ℤ) : Checked ℤ := do
  if n ≥ 1 then do
    let n ← i64 (n - 1)
    let start ← i64 (n * size)
    let start ← i64 (start + 1)
    rebuildYear start
  else do
    let start ← i64 (n * size)
    rebuildYear start

/-- The start of the unit that holds an instant. -/
def truncWide (u : DateUnit) (micros : ℤ) (c : CivilTime) : Checked ℤ :=
  match u with
  | .microseconds => .ok micros
  | .milliseconds => do
    let us ← u32 (c.us / 1000 * 1000 : ℕ)
    rebuild c.y c.mo c.d c.h c.mi c.s us
  | .second => rebuild c.y c.mo c.d c.h c.mi c.s 0
  | .minute => rebuild c.y c.mo c.d c.h c.mi 0 0
  | .hour => rebuild c.y c.mo c.d c.h 0 0 0
  | .day => rebuild c.y c.mo c.d 0 0 0 0
  | .week => truncWeek c.y c.mo c.d
  | .month => rebuild c.y c.mo 1 0 0 0 0
  | .quarter => do
    let mo ← quarterMonth c.mo
    rebuild c.y mo 1 0 0 0 0
  | .year => rebuild c.y 1 1 0 0 0 0
  | .decade => truncDecade c.y
  | .century => do
    let pg ← toPgYear c.y
    let n ← extractCentury pg
    truncGroup 100 n
  | .millennium => do
    let pg ← toPgYear c.y
    let n ← extractMillennium pg
    truncGroup 1000 n
  | _ => .error .notSupported

/-- `timestamp::finite_instant`. -/
def finiteInstant (micros : ℤ) : Checked ℤ :=
  if micros = negInfinity ∨ micros = posInfinity then .error .valueOutOfRange else .ok micros

/-- `i64::try_from` and `finite_instant` of the start. -/
def narrow (out : ℤ) : Checked ℤ :=
  if -9223372036854775808 ≤ out ∧ out ≤ 9223372036854775807 then finiteInstant out
  else .error .timestampOutOfRange

/-- `date_trunc_micros` of a finite instant. -/
def truncFinite (u : DateUnit) (micros : ℤ) : Checked ℤ := do
  let c ← civilFromMicros micros
  let out ← truncWide u micros c
  narrow out

/-- `date_trunc_micros`, the unit's name decoded. -/
def dateTruncMicros (u : Option DateUnit) (micros : ℤ) : Checked ℤ :=
  match u with
  | none => .error .notRecognized
  | some u =>
    if micros = posInfinity ∨ micros = negInfinity then do
      let _ ← truncFinite u 0
      return micros
    else truncFinite u micros

/-- A `numeric`: `unscaled * 10 ^ -scale`. -/
structure Scaled where
  unscaled : ℤ
  scale : ℕ
  deriving DecidableEq

/-- `ExtractOut`. -/
inductive ExtractOut where
  | value (v : Scaled)
  | null
  | infinite (negative : Bool)
  deriving DecidableEq

/-- `Decimal::from_i64`. -/
def whole (v : ℤ) : ExtractOut := .value ⟨v, 0⟩

/-- `is_monotonic_field`. -/
def isMonotonicField (u : DateUnit) : Bool :=
  u = .year || u = .decade || u = .century || u = .millennium || u = .julian || u = .isoyear ||
    u = .epoch

/-- The fields that a timestamp and a date share. -/
def extractCalendar (u : DateUnit) (c : CivilDate) (days : ℤ) : Checked ExtractOut :=
  match u with
  | .day => .ok (whole c.d)
  | .month => .ok (whole c.mo)
  | .quarter => do
    let m ← u32 ((c.mo : ℤ) - 1)
    let q ← u32 (m / 3 + 1 : ℕ)
    return whole q
  | .year => do
    let pg ← toPgYear c.y
    return whole pg
  | .decade => do
    let pg ← toPgYear c.y
    let n ← extractDecade pg
    return whole n
  | .century => do
    let pg ← toPgYear c.y
    let n ← extractCentury pg
    return whole n
  | .millennium => do
    let pg ← toPgYear c.y
    let n ← extractMillennium pg
    return whole n
  | .week => do
    let w ← isoWeekYear c.y c.mo c.d
    return whole w.week
  | .dow => do
    let n ← dowSun0 days
    return whole n
  | .isodow => do
    let n ← isodowMon1 days
    return whole n
  | .doy => do
    let first ← daysFromCivil c.y 1 1
    let n ← i64 (days - first)
    let n ← i64 (n + 1)
    return whole n
  | .isoyear => do
    let w ← isoWeekYear c.y c.mo c.d
    let pg ← toPgYear w.year
    return whole pg
  | _ => .error .notSupported

attribute [grind =] extractCalendar

/-- `sec_us`: the seconds of a minute in microseconds. -/
def secMicros (c : CivilTime) : Checked ℤ := do
  let seconds ← i64 (c.s * microsPerSec)
  i64 (seconds + c.us)

/-- `UNIX_EPOCH_JD`. -/
def unixEpochJd : ℤ := 2440588

/-- `extract_julian`; `quotient` is the numeric division of the time of day and the sum with the Julian
    day. -/
def extractJulian (quotient : ℤ → ℤ → Checked ExtractOut) (micros : ℤ) : Checked ExtractOut := do
  let jd ← i64 (micros / microsPerDay + unixEpochJd)
  quotient jd (micros % microsPerDay)

/-- A `timezone` field of the zone's offset in seconds. -/
def extractTimezone (tz : Option (ℤ × ℤ)) (of : ℤ → ℤ) : Checked ExtractOut :=
  match tz with
  | some (_, off) => .ok (whole (of off))
  | none => .error .notSupported

/-- The field of wall-clock microseconds, from their civil time, seconds and day. -/
def extractWall (quotient : ℤ → ℤ → Checked ExtractOut) (u : DateUnit) (micros : ℤ)
    (tz : Option (ℤ × ℤ)) (c : CivilTime) (secUs days : ℤ) : Checked ExtractOut :=
  match u with
  | .microseconds => .ok (.value ⟨secUs, 0⟩)
  | .milliseconds => .ok (.value ⟨secUs, 3⟩)
  | .second => .ok (.value ⟨secUs, 6⟩)
  | .minute => .ok (whole c.mi)
  | .hour => .ok (whole c.h)
  | .epoch => .ok (.value ⟨(tz.map Prod.fst).getD micros, 6⟩)
  | .timezone => extractTimezone tz id
  | .timezoneHour => extractTimezone tz fun off => off.tdiv 3600
  | .timezoneMinute => extractTimezone tz fun off => (off.tmod 3600).tdiv 60
  | .julian => extractJulian quotient micros
  | u => extractCalendar u c.toCivilDate days

attribute [grind =] extractWall

/-- `extract_datetime` of finite wall-clock microseconds. -/
def extractFinite (quotient : ℤ → ℤ → Checked ExtractOut) (u : DateUnit) (micros : ℤ)
    (tz : Option (ℤ × ℤ)) : Checked ExtractOut := do
  let c ← civilFromMicros micros
  let secUs ← secMicros c
  let days ← daysFromCivil c.y c.mo c.d
  extractWall quotient u micros tz c secUs days

/-- `extract_datetime`. -/
def extractDatetime (quotient : ℤ → ℤ → Checked ExtractOut) (u : DateUnit) (micros : ℤ)
    (tz : Option (ℤ × ℤ)) : Checked ExtractOut :=
  if micros = posInfinity ∨ micros = negInfinity then
    if isMonotonicField u then .ok (.infinite (decide (micros = negInfinity))) else .ok .null
  else extractFinite quotient u micros tz

/-- `date::NEG_INFINITY`. -/
def dateNegInfinity : ℤ := -2147483648

/-- `date::POS_INFINITY`. -/
def datePosInfinity : ℤ := 2147483647

/-- The field of a finite date, from its civil date. -/
def extractDay (u : DateUnit) (days : ℤ) (c : CivilDate) : Checked ExtractOut :=
  match u with
  | .epoch => do
    let secs ← i64 (days * secsPerDay)
    return whole secs
  | .julian => do
    let jd ← i64 (days + unixEpochJd)
    return whole jd
  | u => extractCalendar u c days

/-- `extract_date`. -/
def extractDate (u : DateUnit) (days : ℤ) : Checked ExtractOut :=
  if days = datePosInfinity ∨ days = dateNegInfinity then
    if u = .day ∨ u = .month ∨ u = .quarter ∨ u = .week ∨ u = .dow ∨ u = .isodow ∨ u = .doy then
      .ok .null
    else if isMonotonicField u then .ok (.infinite (decide (days = dateNegInfinity)))
    else .error .notSupported
  else do
    let c ← civilFromDays days
    extractDay u days c

end Jed.Datetime
