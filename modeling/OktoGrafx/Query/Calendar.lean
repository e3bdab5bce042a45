import OktoGrafx.Query.Value

/-! The proleptic Gregorian calendar: days since the epoch, days of a year and days of ISO weeks. -/

namespace Grafx.Query

variable {day month year year' : ℤ}

inductive TemporalError
  | bounds (field : String) (minimum maximum : ℤ)
  | reason (text : String)
  deriving DecidableEq

abbrev Ranged := Except TemporalError

def integer (value : ℤ) (name : String) (lower upper : ℤ) : Ranged Unit :=
  if lower ≤ value ∧ value ≤ upper then .ok () else .error (.bounds name lower upper)

theorem integer_bind {α : Type} {value lower upper : ℤ} {name : String} {next : Unit → Ranged α} {a : α} :
    integer value name lower upper >>= next = .ok a ↔ (lower ≤ value ∧ value ≤ upper) ∧ next () = .ok a := by
  unfold integer
  split
  next h => exact ⟨fun hnext => ⟨h, hnext⟩, fun hnext => hnext.2⟩
  next h => exact ⟨nofun, fun hnext => absurd hnext.1 h⟩

def minYear : ℤ := -999999999

def maxYear : ℤ := 999999999

def epochDay (year month day : ℤ) : ℤ :=
  let adjusted := year - if month ≤ 2 then 1 else 0
  let era := adjusted / 400
  let within := adjusted % 400
  let shiftedMonth := if 2 < month then month - 3 else month + 9
  let dayInYear := (153 * shiftedMonth + 2) / 5 + day - 1
  era * 146097 + within * 365 + within / 4 - within / 100 + dayInYear - 719468

namespace DateValue

def make (year month day : ℤ) : Ranged DateValue :=
  if hyear : minYear ≤ year ∧ year ≤ maxYear then
    if hmonth : 1 ≤ month ∧ month ≤ 12 then
      if hday : 1 ≤ day ∧ day ≤ daysInMonth year month then .ok ⟨year, month, day, hyear, hmonth, hday⟩
      else .error (.bounds "day" 1 (daysInMonth year month))
    else .error (.bounds "month" 1 12)
  else .error (.bounds "year" minYear maxYear)

def dayOfWeek (d : DateValue) : ℤ := (d.epochDay + 3) % 7 + 1

def ordinalDay (d : DateValue) : ℤ := d.epochDay - Query.epochDay d.year 1 1 + 1

end DateValue

def weekStart (year : ℤ) : ℤ :=
  let fourth := epochDay year 1 4
  fourth - (fourth + 3) % 7

namespace DateValue

def weekYear (d : DateValue) : ℤ :=
  if d.epochDay < weekStart d.year then d.year - 1
  else if weekStart (d.year + 1) ≤ d.epochDay then d.year + 1
  else d.year

def week (d : DateValue) : ℤ := (d.epochDay - weekStart d.weekYear) / 7 + 1

def civil (n : ℤ) : ℤ × ℤ × ℤ :=
  let era := (n + 719468) / 146097
  let dayOfEra := (n + 719468) % 146097
  let yearInEra := (dayOfEra - dayOfEra / 1460 + dayOfEra / 36524 - dayOfEra / 146096) / 365
  let year := yearInEra + era * 400
  let dayOfYear := dayOfEra - (365 * yearInEra + yearInEra / 4 - yearInEra / 100)
  let shiftedMonth := (5 * dayOfYear + 2) / 153
  let day := dayOfYear - (153 * shiftedMonth + 2) / 5 + 1
  let month := if shiftedMonth < 10 then shiftedMonth + 3 else shiftedMonth - 9
  (year + if month ≤ 2 then 1 else 0, month, day)

def fromEpochDay (n : ℤ) : Ranged DateValue := do
  integer n "epoch_day" (Query.epochDay minYear 1 1) (Query.epochDay maxYear 12 31)
  make (civil n).1 (civil n).2.1 (civil n).2.2

def fromOrdinalDay (year ordinalDay : ℤ) : Ranged DateValue := do
  integer year "year" minYear maxYear
  integer ordinalDay "ordinal_day" 1 (if isLeapYear year then 366 else 365)
  fromEpochDay (Query.epochDay year 1 1 + ordinalDay - 1)

def weeksOf (januaryFirst : DateValue) : ℤ :=
  if januaryFirst.dayOfWeek = 4 ∨ januaryFirst.dayOfWeek = 3 ∧ isLeapYear januaryFirst.year then 53 else 52

def fromWeekDate (year week dayOfWeek : ℤ) : Ranged DateValue := do
  let januaryFourth ← make year 1 4
  let januaryFirst ← make year 1 1
  integer week "week" 1 januaryFirst.weeksOf
  integer dayOfWeek "day_of_week" 1 7
  let monday := januaryFourth.epochDay - januaryFourth.dayOfWeek + 1
  fromEpochDay (monday + 7 * (week - 1) + dayOfWeek - 1)

theorem make_ok (hyear : minYear ≤ year ∧ year ≤ maxYear) (hmonth : 1 ≤ month ∧ month ≤ 12) (hday : 1 ≤ day ∧ day ≤ daysInMonth year month) :
    make year month day = .ok ⟨year, month, day, hyear, hmonth, hday⟩ := by
  rw [make, dif_pos hyear, dif_pos hmonth, dif_pos hday]

theorem make_self (d : DateValue) : make d.year d.month d.day = .ok d :=
  make_ok d.year_range d.month_range d.day_range

theorem make_eq_ok {d : DateValue} : make year month day = .ok d ↔ d.year = year ∧ d.month = month ∧ d.day = day := by
  constructor
  · intro h
    unfold make at h
    split at h
    next =>
      split at h
      next =>
        split at h
        next => cases h; exact ⟨rfl, rfl, rfl⟩
        next => cases h
      next => cases h
    next => cases h
  · rintro ⟨rfl, rfl, rfl⟩
    exact d.make_self

end DateValue

/-! ## A year, and the months within it -/

def leapDay (year : ℤ) : ℤ := if isLeapYear year then 1 else 0

theorem isLeapYear_iff (year : ℤ) :
    isLeapYear year = true ↔ year % 4 = 0 ∧ (year % 100 ≠ 0 ∨ year % 400 = 0) := by
  simp [isLeapYear]

theorem leapDay_cases (year : ℤ) :
    leapDay year = 1 ∧ isLeapYear year = true ∧ year % 4 = 0 ∧ (year % 100 ≠ 0 ∨ year % 400 = 0) ∨
    leapDay year = 0 ∧ isLeapYear year = false ∧ ¬ (year % 4 = 0 ∧ (year % 100 ≠ 0 ∨ year % 400 = 0)) := by
  unfold leapDay
  split
  next h => exact .inl ⟨rfl, h, (isLeapYear_iff year).mp h⟩
  next h => exact .inr ⟨rfl, Bool.eq_false_iff.mpr h, fun hleap => h ((isLeapYear_iff year).mpr hleap)⟩

def yearStart (year : ℤ) : ℤ :=
  365 * (year - 1) + (year - 1) / 4 - (year - 1) / 100 + (year - 1) / 400 - 719162

def daysBefore (year month : ℤ) : ℤ :=
  (367 * month - 362) / 12 - if month ≤ 2 then 0 else 2 - leapDay year

theorem epochDay_eq (hmonth : 1 ≤ month ∧ month ≤ 12) (year day : ℤ) :
    epochDay year month day = yearStart year + daysBefore year month + day - 1 := by
  unfold epochDay yearStart daysBefore
  obtain ⟨hone, htwelve⟩ := hmonth
  have hleap := leapDay_cases year
  interval_cases month <;> norm_num <;> omega

theorem daysInMonth_eq (hmonth : 1 ≤ month ∧ month ≤ 12) (year : ℤ) :
    daysInMonth year month = (367 * (month + 1) - 362) / 12 - (367 * month - 362) / 12 -
      if month = 2 then 2 - leapDay year else 0 := by
  obtain ⟨hone, htwelve⟩ := hmonth
  unfold daysInMonth
  interval_cases month
  case «2» => rcases leapDay_cases year with ⟨hleap, h, -⟩ | ⟨hleap, h, -⟩ <;> simp [hleap, h]
  all_goals rfl

theorem yearStart_succ (year : ℤ) : yearStart (year + 1) = yearStart year + 365 + leapDay year := by
  unfold yearStart
  have hleap := leapDay_cases year
  omega

theorem yearStart_mono (h : year ≤ year') : yearStart year ≤ yearStart year' := by
  unfold yearStart
  omega

theorem yearStart_inj {n : ℤ} (h : yearStart year ≤ n ∧ n < yearStart (year + 1))
    (h' : yearStart year' ≤ n ∧ n < yearStart (year' + 1)) : year = year' := by
  rcases lt_trichotomy year year' with hlt | heq | hgt
  · have := yearStart_mono (show year + 1 ≤ year' from hlt)
    omega
  · exact heq
  · have := yearStart_mono (show year' + 1 ≤ year from hgt)
    omega

/-! ## A valid date -/

theorem epochDay_bounds (hmonth : 1 ≤ month ∧ month ≤ 12) (hday : 1 ≤ day ∧ day ≤ daysInMonth year month) :
    yearStart year ≤ epochDay year month day ∧ epochDay year month day < yearStart (year + 1) := by
  have hlength := daysInMonth_eq hmonth year
  have hleap := leapDay_cases year
  rw [epochDay_eq hmonth, yearStart_succ]
  unfold daysBefore
  split at hlength <;> split <;> omega

namespace DateValue

variable {a b : DateValue}

theorem bounds (d : DateValue) :
    d.epochDay = yearStart d.year + daysBefore d.year d.month + d.day - 1 ∧
    yearStart d.year ≤ d.epochDay ∧ d.epochDay < yearStart (d.year + 1) :=
  ⟨epochDay_eq d.month_range d.year d.day, epochDay_bounds d.month_range d.day_range⟩

def Before (a b : DateValue) : Prop :=
  a.year < b.year ∨ a.year = b.year ∧ (a.month < b.month ∨ a.month = b.month ∧ a.day < b.day)

theorem epochDay_lt (h : a.Before b) : a.epochDay < b.epochDay := by
  obtain ⟨ha, halow, hahigh⟩ := a.bounds
  obtain ⟨hb, hblow, hbhigh⟩ := b.bounds
  obtain hyear | ⟨hyear, hmonth | ⟨hmonth, hday⟩⟩ := h
  · exact hahigh.trans_le ((yearStart_mono hyear).trans hblow)
  · have hlength := daysInMonth_eq a.month_range a.year
    have hday := a.day_range
    have hday' := b.day_range
    have hleap := leapDay_cases a.year
    rw [ha, hb, ← hyear]
    unfold daysBefore
    split at hlength <;> split <;> split <;> omega
  · rw [ha, hb, hyear, hmonth]
    omega

theorem before_trichotomy (a b : DateValue) : a.Before b ∨ a = b ∨ b.Before a := by
  unfold Before
  have heq : a.year = b.year → a.month = b.month → a.day = b.day → a = b := by
    intro hyear hmonth hday
    cases b
    simp only at hyear hmonth hday
    subst hyear hmonth hday
    rfl
  by_cases hyear : a.year = b.year
  · by_cases hmonth : a.month = b.month
    · by_cases hday : a.day = b.day
      · exact .inr (.inl (heq hyear hmonth hday))
      · omega
    · omega
  · omega

theorem epochDay_injective (h : a.epochDay = b.epochDay) : a = b := by
  rcases a.before_trichotomy b with hlt | heq | hgt
  · exact absurd h (epochDay_lt hlt).ne
  · exact heq
  · exact absurd h (epochDay_lt hgt).ne'

theorem before_iff (a b : DateValue) : a.Before b ↔ a.epochDay < b.epochDay := by
  constructor
  · exact epochDay_lt
  · intro h
    rcases a.before_trichotomy b with hlt | rfl | hgt
    · exact hlt
    · exact absurd h (lt_irrefl _)
    · exact absurd h (epochDay_lt hgt).not_gt

def Next (a b : DateValue) : Prop :=
  b.year = a.year ∧ b.month = a.month ∧ b.day = a.day + 1 ∨
  b.year = a.year ∧ b.month = a.month + 1 ∧ a.day = daysInMonth a.year a.month ∧ b.day = 1 ∨
  b.year = a.year + 1 ∧ a.month = 12 ∧ a.day = 31 ∧ b.month = 1 ∧ b.day = 1

theorem Next.epochDay_eq (h : a.Next b) : b.epochDay = a.epochDay + 1 := by
  obtain ⟨ha, -⟩ := a.bounds
  obtain ⟨hb, -⟩ := b.bounds
  obtain ⟨hyear, hmonth, hday⟩ | ⟨hyear, hmonth, hlast, hfirst⟩ | ⟨hyear, hmonth, hday, hmonth', hday'⟩ := h
  · rw [ha, hb, hyear, hmonth, hday]
    omega
  · have hlength := daysInMonth_eq a.month_range a.year
    rw [ha, hb, hyear, hmonth, hfirst, hlast, hlength]
    unfold daysBefore
    split <;> split <;> split <;> omega
  · rw [ha, hb, hyear, hmonth, hday, hmonth', hday', yearStart_succ]
    unfold daysBefore
    omega

end DateValue

end Grafx.Query
