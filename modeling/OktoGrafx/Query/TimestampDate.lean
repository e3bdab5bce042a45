import OktoGrafx.Query.Civil

/-! The calendar of the timestamp parser, written on its own, and its agreement with that of dates. -/

namespace Grafx.Query

open DateValue

variable {day month number ordinal weekday year : ℤ}

def timestampEpochOrdinal : ℤ := 719163

def timestampMaxOrdinal : ℤ := 3652059

def timestampDaysBeforeMonth : List ℤ := [0, 31, 59, 90, 120, 151, 181, 212, 243, 273, 304, 334]

def timestampIsLeapYear (year : ℤ) : Bool := year % 4 == 0 && (year % 100 != 0 || year % 400 == 0)

def timestampMonthDays (year month : ℤ) : ℤ :=
  if month = 2 ∧ timestampIsLeapYear year then 29
  else if month = 2 then 28 else if month ∈ [4, 6, 9, 11] then 30 else 31

def timestampCalendarOrdinal (year month day : ℤ) : Option ℤ :=
  if year < 1 ∨ 9999 < year ∨ month < 1 ∨ 12 < month ∨ day < 1 then none
  else if timestampMonthDays year month < day then none
  else
    let years := year - 1
    let ordinal := years * 365 + years / 4 - years / 100 + years / 400 +
      timestampDaysBeforeMonth.getD (month - 1).toNat 0 + day
    some (if 2 < month ∧ timestampIsLeapYear year then ordinal + 1 else ordinal)

def timestampWeeks (januaryFirst year : ℤ) : ℤ :=
  let januaryFirstWeekday := (januaryFirst - 1) % 7
  if januaryFirstWeekday = 3 ∨ januaryFirstWeekday = 2 ∧ timestampIsLeapYear year then 53 else 52

def timestampIsoWeekOrdinal (year week weekday : ℤ) : Option ℤ :=
  if year < 1 ∨ 9999 < year ∨ week < 1 ∨ weekday < 1 ∨ 7 < weekday then none
  else do
    let januaryFirst ← timestampCalendarOrdinal year 1 1
    let januaryFourth ← timestampCalendarOrdinal year 1 4
    if timestampWeeks januaryFirst year < week then none
    else
      let weekOneMonday := januaryFourth - (januaryFourth - 1) % 7
      let ordinal := weekOneMonday + (week - 1) * 7 + weekday - 1
      if ordinal < 1 ∨ timestampMaxOrdinal < ordinal then none else some ordinal

def timestampDigit (answer : ℤ) (c : Index.CodePoint) : Option ℤ :=
  let digit := (c.val : ℤ) - 48
  if digit < 0 ∨ 9 < digit then none else some (answer * 10 + digit)

def timestampAsciiInteger (t : Text) (start length : ℕ) : Option ℤ :=
  if t.length < start + length then none else ((t.drop start).take length).foldlM timestampDigit 0

def timestampWeekday (t : Text) : Option ℤ :=
  if t.length = 8 then timestampAsciiInteger t 7 1 else some 1

def timestampDateOrdinal (t : Text) : Option ℤ := do
  let year ← timestampAsciiInteger t 0 4
  if t.length = 10 ∧ t[4]? = some 0x2D ∧ t[7]? = some 0x2D then do
    let month ← timestampAsciiInteger t 5 2
    let day ← timestampAsciiInteger t 8 2
    timestampCalendarOrdinal year month day
  else if t.length = 8 ∧ t[4]? ≠ some 0x57 ∧ t[4]? ≠ some 0x2D then do
    let month ← timestampAsciiInteger t 4 2
    let day ← timestampAsciiInteger t 6 2
    timestampCalendarOrdinal year month day
  else if (t.length = 7 ∨ t.length = 8) ∧ t[4]? = some 0x57 then do
    let week ← timestampAsciiInteger t 5 2
    let weekday ← timestampWeekday t
    timestampIsoWeekOrdinal year week weekday
  else if t.length = 8 ∧ t[4]? = some 0x2D ∧ t[5]? = some 0x57 then do
    let week ← timestampAsciiInteger t 6 2
    timestampIsoWeekOrdinal year week 1
  else if t.length = 10 ∧ t[4]? = some 0x2D ∧ t[5]? = some 0x57 ∧ t[8]? = some 0x2D then do
    let week ← timestampAsciiInteger t 6 2
    let weekday ← timestampAsciiInteger t 9 1
    timestampIsoWeekOrdinal year week weekday
  else none

theorem timestampIsLeapYear_eq (year : ℤ) : timestampIsLeapYear year = isLeapYear year := rfl

theorem timestampMonthDays_eq (hmonth : 1 ≤ month ∧ month ≤ 12) (year : ℤ) : timestampMonthDays year month = daysInMonth year month := by
  obtain ⟨hone, htwelve⟩ := hmonth
  unfold timestampMonthDays daysInMonth
  rw [timestampIsLeapYear_eq]
  cases isLeapYear year <;> interval_cases month <;> rfl

theorem timestampDaysBeforeMonth_eq (hmonth : 1 ≤ month ∧ month ≤ 12) (year : ℤ) :
    timestampDaysBeforeMonth.getD (month - 1).toNat 0 + (if 2 < month ∧ isLeapYear year then 1 else 0) =
      daysBefore year month := by
  obtain ⟨hone, htwelve⟩ := hmonth
  unfold daysBefore leapDay
  cases isLeapYear year <;> interval_cases month <;> rfl

theorem timestampCalendarOrdinal_of_date {d : DateValue} (hyear : 1 ≤ d.year ∧ d.year ≤ 9999) :
    timestampCalendarOrdinal d.year d.month d.day = some (d.epochDay + timestampEpochOrdinal) := by
  have hmonth := d.month_range
  have hday := d.day_range
  have hbefore := timestampDaysBeforeMonth_eq hmonth d.year
  unfold timestampCalendarOrdinal
  rw [if_neg (by omega), timestampMonthDays_eq hmonth, if_neg (by omega), d.bounds.1, timestampIsLeapYear_eq]
  unfold yearStart timestampEpochOrdinal
  dsimp only
  congr 1
  split at hbefore
  next hleap => rw [if_pos hleap]; omega
  next hleap => rw [if_neg hleap]; omega

theorem date_of_timestampCalendarOrdinal (h : timestampCalendarOrdinal year month day = some ordinal) :
    (1 ≤ year ∧ year ≤ 9999) ∧ ∃ d, make year month day = .ok d := by
  unfold timestampCalendarOrdinal at h
  split at h
  next => cases h
  next hin =>
    have hmonth : 1 ≤ month ∧ month ≤ 12 := by omega
    rw [timestampMonthDays_eq hmonth] at h
    split at h
    next => cases h
    next hshort =>
      have hwide : minYear ≤ year ∧ year ≤ maxYear := by unfold minYear maxYear; omega
      exact ⟨by omega, _, make_ok hwide hmonth (by omega)⟩

theorem timestampCalendarOrdinal_iff : timestampCalendarOrdinal year month day = some ordinal ↔ (1 ≤ year ∧ year ≤ 9999) ∧
      ∃ d, make year month day = .ok d ∧ ordinal = d.epochDay + timestampEpochOrdinal := by
  constructor
  · intro h
    obtain ⟨hyear, d, hd⟩ := date_of_timestampCalendarOrdinal h
    obtain ⟨rfl, rfl, rfl⟩ := make_eq_ok.mp hd
    rw [timestampCalendarOrdinal_of_date hyear] at h
    exact ⟨hyear, d, hd, (Option.some.inj h).symm⟩
  · rintro ⟨hyear, d, hd, rfl⟩
    obtain ⟨rfl, rfl, rfl⟩ := make_eq_ok.mp hd
    exact timestampCalendarOrdinal_of_date hyear

/-! ## Week dates -/

theorem timestampCalendarOrdinal_january (hyear : 1 ≤ year ∧ year ≤ 9999) (hday : 1 ≤ day ∧ day ≤ 31) :
    timestampCalendarOrdinal year 1 day = some (yearStart year + day - 1 + timestampEpochOrdinal) := by
  have hwide : minYear ≤ year ∧ year ≤ maxYear := by unfold minYear maxYear; omega
  have hmake : make year 1 day = .ok _ := make_ok hwide (by decide) hday
  refine timestampCalendarOrdinal_iff.mpr ⟨hyear, _, hmake, ?_⟩
  rw [bounds _ |>.1]
  simp [daysBefore]

theorem ordinal_range_iff (d : DateValue) : (1 ≤ d.epochDay + timestampEpochOrdinal ∧
    d.epochDay + timestampEpochOrdinal ≤ timestampMaxOrdinal) ↔ 1 ≤ d.year ∧ d.year ≤ 9999 := by
  have hbounds := d.bounds.2
  have hfirst : yearStart 1 + timestampEpochOrdinal = 1 := by decide
  have hlast : yearStart (9999 + 1) + timestampEpochOrdinal = timestampMaxOrdinal + 1 := by decide
  constructor
  · intro h
    constructor
    · by_contra hlow
      have := yearStart_mono (show d.year + 1 ≤ 1 from not_le.mp hlow)
      omega
    · by_contra hhigh
      have := yearStart_mono (show 9999 + 1 ≤ d.year from not_le.mp hhigh)
      omega
  · rintro ⟨hlow, hhigh⟩
    have hlow := yearStart_mono hlow
    have hhigh := yearStart_mono (Int.add_le_add_right hhigh 1)
    omega

theorem timestampIsoWeekOrdinal_spec : timestampIsoWeekOrdinal year number weekday = some ordinal ↔ (1 ≤ year ∧ year ≤ 9999) ∧
      (1 ≤ number ∧ weekStart year + 7 * number ≤ weekStart (year + 1)) ∧ (1 ≤ weekday ∧ weekday ≤ 7) ∧
      (1 ≤ ordinal ∧ ordinal ≤ timestampMaxOrdinal) ∧
      ordinal = weekStart year + 7 * (number - 1) + weekday - 1 + timestampEpochOrdinal := by
  unfold timestampIsoWeekOrdinal
  split
  next hout =>
    constructor
    · intro h
      cases h
    · intro h
      omega
  next hin =>
    have hyear : 1 ≤ year ∧ year ≤ 9999 := by omega
    rw [timestampCalendarOrdinal_january hyear (by decide), timestampCalendarOrdinal_january hyear (by decide)]
    have hmonday : (yearStart year + 4 - 1 + timestampEpochOrdinal) -
        ((yearStart year + 4 - 1 + timestampEpochOrdinal) - 1) % 7 = weekStart year + timestampEpochOrdinal := by
      rw [weekStart_eq]
      unfold timestampEpochOrdinal
      omega
    have hweeks : weekStart (year + 1) = weekStart year + 7 *
        timestampWeeks (yearStart year + 1 - 1 + timestampEpochOrdinal) year := by
      rw [weekStart_eq, weekStart_eq, yearStart_succ, timestampWeeks, timestampIsLeapYear_eq]
      unfold timestampEpochOrdinal
      rcases leapDay_cases year with ⟨hleap, h, -⟩ | ⟨hleap, h, -⟩ <;> simp [hleap, h] <;> split <;> omega
    simp only [Option.bind_eq_bind, Option.bind_some, hmonday]
    split
    next hlong =>
      constructor
      · intro h
        cases h
      · intro h
        omega
    next hshort =>
      split
      next hfar =>
        constructor
        · intro h
          cases h
        · intro h
          omega
      next hnear =>
        rw [Option.some.injEq]
        constructor <;> intro h <;> omega

theorem timestampIsoWeekOrdinal_iff : timestampIsoWeekOrdinal year number weekday = some ordinal ↔ (1 ≤ year ∧ year ≤ 9999) ∧
      ∃ d, fromWeekDate year number weekday = .ok d ∧ (1 ≤ d.year ∧ d.year ≤ 9999) ∧
        ordinal = d.epochDay + timestampEpochOrdinal := by
  rw [timestampIsoWeekOrdinal_spec]
  constructor
  · rintro ⟨hyear, hnumber, hweekday, hordinal, heq⟩
    have hepoch : ordinal - timestampEpochOrdinal = weekStart year + 7 * (number - 1) + weekday - 1 := by omega
    have hfirst : epochDay minYear 1 1 + timestampEpochOrdinal ≤ 1 := by decide
    have hlast : timestampMaxOrdinal ≤ epochDay maxYear 12 31 + timestampEpochOrdinal := by decide
    obtain ⟨d, -, hd⟩ := exists_fromEpochDay (n := ordinal - timestampEpochOrdinal) (by omega)
    have hwide : minYear ≤ year ∧ year ≤ maxYear := by unfold minYear maxYear; omega
    refine ⟨hyear, d, fromWeekDate_spec.mpr ⟨hwide, hnumber, hweekday, hd.trans hepoch⟩, ?_, by omega⟩
    rw [← ordinal_range_iff]
    omega
  · rintro ⟨hyear, d, hd, hrange, rfl⟩
    obtain ⟨-, hnumber, hweekday, hepoch⟩ := fromWeekDate_spec.mp hd
    exact ⟨hyear, hnumber, hweekday, (ordinal_range_iff d).mpr hrange, by rw [hepoch]⟩

theorem date_of_timestampDateOrdinal {t : Text} (h : timestampDateOrdinal t = some ordinal) :
    ∃ d : DateValue, (1 ≤ d.year ∧ d.year ≤ 9999) ∧ ordinal = d.epochDay + timestampEpochOrdinal := by
  have hcalendar : ∀ {year month day}, timestampCalendarOrdinal year month day = some ordinal →
      ∃ d : DateValue, (1 ≤ d.year ∧ d.year ≤ 9999) ∧ ordinal = d.epochDay + timestampEpochOrdinal := by
    intro year month day h
    obtain ⟨hyear, d, hd, heq⟩ := timestampCalendarOrdinal_iff.mp h
    exact ⟨d, (make_eq_ok.mp hd).1 ▸ hyear, heq⟩
  have hweek : ∀ {year number weekday}, timestampIsoWeekOrdinal year number weekday = some ordinal →
      ∃ d : DateValue, (1 ≤ d.year ∧ d.year ≤ 9999) ∧ ordinal = d.epochDay + timestampEpochOrdinal := by
    intro year number weekday h
    obtain ⟨-, d, -, hyear, heq⟩ := timestampIsoWeekOrdinal_iff.mp h
    exact ⟨d, hyear, heq⟩
  obtain ⟨year, -, h⟩ := Option.bind_eq_some_iff.mp h
  have hdays : ∀ {x y : Option ℤ} {f : ℤ → ℤ → Option ℤ}, (do let a ← x; let b ← y; f a b) = some ordinal →
      ∃ a b, f a b = some ordinal := by
    intro x y f h
    obtain ⟨a, -, h⟩ := Option.bind_eq_some_iff.mp h
    obtain ⟨b, -, h⟩ := Option.bind_eq_some_iff.mp h
    exact ⟨a, b, h⟩
  split_ifs at h
  · obtain ⟨_, _, h⟩ := hdays h
    exact hcalendar h
  · obtain ⟨_, _, h⟩ := hdays h
    exact hcalendar h
  · obtain ⟨_, _, h⟩ := hdays h
    exact hweek h
  · obtain ⟨_, -, h⟩ := Option.bind_eq_some_iff.mp h
    exact hweek h
  · obtain ⟨_, _, h⟩ := hdays h
    exact hweek h

/-- The last week of 9999 ends in the year 10000, which a date has and the parser has not. -/
theorem week_date_of_year_10000 :
    fromWeekDate 9999 52 6 = .ok ⟨10000, 1, 1, by decide, by decide, by decide⟩ ∧
    timestampIsoWeekOrdinal 9999 52 6 = none := by
  constructor <;> rfl

/-- Day numbers, days of a year and days of ISO weeks name each date once, and the timestamp parser names the same days. -/
theorem calendar_agreement :
    (∀ a b : DateValue, a.Before b ↔ a.epochDay < b.epochDay) ∧
    (∀ n, epochDay minYear 1 1 ≤ n ∧ n ≤ epochDay maxYear 12 31 ↔ ∃! d : DateValue, d.epochDay = n) ∧
    (∀ a b : DateValue, a.Next b ↔ b.epochDay = a.epochDay + 1) ∧
    (∀ n d, fromEpochDay n = .ok d ↔ d.epochDay = n) ∧
    (∀ year ordinal d, fromOrdinalDay year ordinal = .ok d ↔ d.year = year ∧ d.ordinalDay = ordinal) ∧
    (∀ year number weekday d, fromWeekDate year number weekday = .ok d ↔
      d.weekYear = year ∧ d.week = number ∧ d.dayOfWeek = weekday) ∧
    (∀ year month day ordinal, timestampCalendarOrdinal year month day = some ordinal ↔ (1 ≤ year ∧ year ≤ 9999) ∧
      ∃ d, make year month day = .ok d ∧ ordinal = d.epochDay + timestampEpochOrdinal) ∧
    (∀ year number weekday ordinal, timestampIsoWeekOrdinal year number weekday = some ordinal ↔
      (1 ≤ year ∧ year ≤ 9999) ∧ ∃ d, fromWeekDate year number weekday = .ok d ∧
        (1 ≤ d.year ∧ d.year ≤ 9999) ∧ ordinal = d.epochDay + timestampEpochOrdinal) ∧
    (∀ t ordinal, timestampDateOrdinal t = some ordinal →
      ∃ d : DateValue, (1 ≤ d.year ∧ d.year ≤ 9999) ∧ ordinal = d.epochDay + timestampEpochOrdinal) := by
  refine ⟨before_iff, ?_, next_iff, fun _ _ => fromEpochDay_iff,
    fun _ _ _ => fromOrdinalDay_iff, fun _ _ _ _ => fromWeekDate_iff,
    fun _ _ _ _ => timestampCalendarOrdinal_iff, fun _ _ _ _ => timestampIsoWeekOrdinal_iff,
    fun _ _ => date_of_timestampDateOrdinal⟩
  intro n
  constructor
  · intro h
    obtain ⟨d, -, hd⟩ := exists_fromEpochDay h
    exact ⟨d, hd, fun other hother => epochDay_injective (hother.trans hd.symm)⟩
  · rintro ⟨d, rfl, -⟩
    exact d.epochDay_range

end Grafx.Query
