import OktoGrafx.Lib.Checked
import OktoGrafx.Query.Calendar

/-! Dates from day numbers, from days of a year and from days of ISO weeks. -/

namespace Grafx.Query

variable {d : DateValue} {n year year' : ℤ}

theorem yearInEra_spec (hrange : 0 ≤ n ∧ n < 146097) (hyear : year = (n - n / 1460 + n / 36524 - n / 146096) / 365) :
    (0 ≤ year ∧ year < 400) ∧ 0 ≤ n - (365 * year + year / 4 - year / 100) ∧
    n - (365 * year + year / 4 - year / 100) ≤ 364 + leapDay (year + 1) := by
  have hleap := leapDay_cases (year + 1)
  by_cases hlast : n = 146096
  · omega
  · -- four years are 1460 days and at most one more; the year is one of the four, or the one before
    obtain ⟨century, hcentury⟩ : ∃ c, c = n / 36524 := ⟨_, rfl⟩
    obtain ⟨four, hfour⟩ : ∃ c, c = n / 1460 := ⟨_, rfl⟩
    obtain ⟨within, hwithin⟩ : ∃ t, year = 4 * four + t := ⟨year - 4 * four, by omega⟩
    have hlow : 0 ≤ century := by omega
    have hhigh : century ≤ 3 := by omega
    have hbefore : -1 ≤ within := by omega
    have hafter : within ≤ 3 := by omega
    refine ⟨by omega, ?_⟩
    interval_cases century <;> interval_cases within <;> omega

theorem leapDay_add_era (year era : ℤ) : leapDay (year + era * 400 + 1) = leapDay (year + 1) := by
  have hleap := leapDay_cases (year + 1)
  have hleap' := leapDay_cases (year + era * 400 + 1)
  omega

theorem shiftedMonth_spec {era day shifted month : ℤ} (hyear : 0 ≤ year ∧ year < 400)
    (hday : 0 ≤ day ∧ day ≤ 364 + leapDay (year + era * 400 + 1)) (hshifted : shifted = (5 * day + 2) / 153)
    (hmonth : month = if shifted < 10 then shifted + 3 else shifted - 9) :
    (1 ≤ month ∧ month ≤ 12) ∧
    (1 ≤ day - (153 * shifted + 2) / 5 + 1 ∧
      day - (153 * shifted + 2) / 5 + 1 ≤ daysInMonth (year + era * 400 + if month ≤ 2 then 1 else 0) month) ∧
    epochDay (year + era * 400 + if month ≤ 2 then 1 else 0) month (day - (153 * shifted + 2) / 5 + 1) =
      era * 146097 + year * 365 + year / 4 - year / 100 + day - 719468 := by
  have hleap := leapDay_cases (year + era * 400 + 1)
  have hrange : 1 ≤ month ∧ month ≤ 12 := by split at hmonth <;> omega
  have hfirst : 0 ≤ shifted := by omega
  have hlast : shifted ≤ 11 := by omega
  refine ⟨hrange, ?_, ?_⟩
  · rw [daysInMonth_eq hrange]
    subst hmonth
    interval_cases shifted <;> norm_num <;> omega
  · unfold epochDay
    interval_cases shifted <;> norm_num <;> omega

namespace DateValue

theorem civil_spec (n : ℤ) :
    (1 ≤ (civil n).2.1 ∧ (civil n).2.1 ≤ 12) ∧
    (1 ≤ (civil n).2.2 ∧ (civil n).2.2 ≤ daysInMonth (civil n).1 (civil n).2.1) ∧
    Query.epochDay (civil n).1 (civil n).2.1 (civil n).2.2 = n := by
  have hera : 0 ≤ (n + 719468) % 146097 ∧ (n + 719468) % 146097 < 146097 := by omega
  obtain ⟨hyear, hlow, hhigh⟩ := yearInEra_spec hera rfl
  rw [← leapDay_add_era _ ((n + 719468) / 146097)] at hhigh
  obtain ⟨hmonth, hday, hepoch⟩ := shiftedMonth_spec hyear ⟨hlow, hhigh⟩ rfl rfl
  refine ⟨hmonth, hday, hepoch.trans ?_⟩
  omega

/-! ## Day numbers -/

theorem firstDay_eq : Query.epochDay minYear 1 1 = yearStart minYear := by decide

theorem lastDay_eq : Query.epochDay maxYear 12 31 = yearStart (maxYear + 1) - 1 := by decide

theorem exists_fromEpochDay (h : Query.epochDay minYear 1 1 ≤ n ∧ n ≤ Query.epochDay maxYear 12 31) :
    ∃ d, fromEpochDay n = .ok d ∧ d.epochDay = n := by
  obtain ⟨hmonth, hday, hepoch⟩ := civil_spec n
  have hbounds := epochDay_bounds hmonth hday
  rw [hepoch] at hbounds
  have hyear : minYear ≤ (civil n).1 ∧ (civil n).1 ≤ maxYear := by
    rw [firstDay_eq, lastDay_eq] at h
    constructor
    · by_contra hlow
      have := yearStart_mono (show (civil n).1 + 1 ≤ minYear from not_le.mp hlow)
      omega
    · by_contra hhigh
      have := yearStart_mono (show maxYear + 1 ≤ (civil n).1 from not_le.mp hhigh)
      omega
  exact ⟨_, integer_bind.mpr ⟨h, make_ok hyear hmonth hday⟩, hepoch⟩

theorem epochDay_range (d : DateValue) :
    Query.epochDay minYear 1 1 ≤ d.epochDay ∧ d.epochDay ≤ Query.epochDay maxYear 12 31 := by
  have hbounds := d.bounds.2
  have hlow := yearStart_mono (show minYear ≤ d.year from d.year_range.1)
  have hhigh := yearStart_mono (show d.year + 1 ≤ maxYear + 1 from Int.add_le_add_right d.year_range.2 1)
  rw [firstDay_eq, lastDay_eq]
  omega

theorem fromEpochDay_iff : fromEpochDay n = .ok d ↔ d.epochDay = n := by
  constructor
  · intro h
    obtain ⟨hyear, hmonth, hday⟩ := make_eq_ok.mp (integer_bind.mp h).2
    show Query.epochDay d.year d.month d.day = n
    rw [hyear, hmonth, hday]
    exact (civil_spec n).2.2
  · rintro rfl
    obtain ⟨d', hd', hepoch⟩ := exists_fromEpochDay d.epochDay_range
    rw [hd', epochDay_injective hepoch]

theorem next_iff (a b : DateValue) : a.Next b ↔ b.epochDay = a.epochDay + 1 := by
  constructor
  · exact Next.epochDay_eq
  intro h
  have hfound : (∃ c, a.Next c) → a.Next b := by
    rintro ⟨c, hc⟩
    rwa [← epochDay_injective (hc.epochDay_eq.trans h.symm)]
  obtain ⟨hyear, hmonth, hday⟩ := And.intro a.year_range (And.intro a.month_range a.day_range)
  by_cases hlast : a.day < daysInMonth a.year a.month
  · exact hfound ⟨⟨a.year, a.month, a.day + 1, hyear, hmonth, by omega⟩, .inl ⟨rfl, rfl, rfl⟩⟩
  by_cases hdecember : a.month < 12
  · have hlength := daysInMonth_eq (show 1 ≤ a.month + 1 ∧ a.month + 1 ≤ 12 by omega) a.year
    have hleap := leapDay_cases a.year
    exact hfound ⟨⟨a.year, a.month + 1, 1, hyear, by omega, by omega⟩, .inr (.inl ⟨rfl, rfl, by omega, rfl⟩)⟩
  · have htwelve : a.month = 12 := by omega
    have hthirty : a.day = 31 := by
      rw [htwelve, show daysInMonth a.year 12 = 31 from rfl] at hlast hday
      omega
    have hnext : a.year + 1 ≤ maxYear := by
      have hb := b.epochDay_range.2
      have ha : a.epochDay = Query.epochDay a.year 12 31 := by rw [← htwelve, ← hthirty]; rfl
      by_contra hmax
      have hsame : a.year = maxYear := le_antisymm hyear.2 (Int.lt_add_one_iff.mp (not_le.mp hmax))
      rw [hsame] at ha
      omega
    exact hfound ⟨⟨a.year + 1, 1, 1, ⟨by omega, hnext⟩, by decide, ⟨by decide, show (1 : ℤ) ≤ 31 by decide⟩⟩,
      .inr (.inr ⟨rfl, htwelve, hthirty, rfl, rfl⟩)⟩

/-! ## Days of a year -/

theorem ordinalDay_eq (d : DateValue) : d.ordinalDay = d.epochDay - yearStart d.year + 1 := by
  rw [ordinalDay, epochDay_eq (by decide)]
  simp [daysBefore]

theorem fromOrdinalDay_iff {ordinal : ℤ} : fromOrdinalDay year ordinal = .ok d ↔ d.year = year ∧ d.ordinalDay = ordinal := by
  have hlength : (if isLeapYear year then 366 else 365 : ℤ) = 365 + leapDay year := by
    unfold leapDay
    split <;> rfl
  have hfirst : Query.epochDay year 1 1 = yearStart year := by
    rw [epochDay_eq (by decide)]
    simp [daysBefore]
  have hbounds := d.bounds.2
  rw [fromOrdinalDay, integer_bind, integer_bind, hlength, hfirst, fromEpochDay_iff, ordinalDay_eq]
  constructor
  · rintro ⟨-, hordinal, hepoch⟩
    have hyear : d.year = year := by
      apply yearStart_inj hbounds
      rw [yearStart_succ]
      omega
    rw [hyear]
    exact ⟨rfl, by omega⟩
  · rintro ⟨rfl, rfl⟩
    rw [yearStart_succ] at hbounds
    exact ⟨d.year_range, by omega, by omega⟩

end DateValue

/-! ## Days of ISO weeks -/

theorem weekStart_eq (year : ℤ) : weekStart year = yearStart year + 3 - (yearStart year + 6) % 7 := by
  have hfourth : epochDay year 1 4 = yearStart year + 3 := by
    rw [epochDay_eq (by decide)]
    simp [daysBefore]
    omega
  rw [weekStart, hfourth]
  ring_nf

theorem weekStart_near (year : ℤ) : yearStart year - 3 ≤ weekStart year ∧ weekStart year ≤ yearStart year + 3 := by
  rw [weekStart_eq]
  omega

theorem yearStart_long (year : ℤ) : yearStart year + 365 ≤ yearStart (year + 1) := by
  have hleap := leapDay_cases year
  rw [yearStart_succ]
  omega

theorem weekStart_mono (h : year ≤ year') : weekStart year ≤ weekStart year' := by
  rcases eq_or_lt_of_le h with rfl | hlt
  · rfl
  · have hyears := yearStart_mono (show year + 1 ≤ year' from hlt)
    have hlong := yearStart_long year
    have hnear := weekStart_near year
    have hnear' := weekStart_near year'
    omega

theorem weekStart_inj (h : weekStart year ≤ n ∧ n < weekStart (year + 1)) (h' : weekStart year' ≤ n ∧ n < weekStart (year' + 1)) : year = year' := by
  rcases lt_trichotomy year year' with hlt | heq | hgt
  · have := weekStart_mono (show year + 1 ≤ year' from hlt)
    omega
  · exact heq
  · have := weekStart_mono (show year' + 1 ≤ year from hgt)
    omega

namespace DateValue

variable {number weekday : ℤ}

theorem weekYear_bounds (d : DateValue) :
    weekStart d.weekYear ≤ d.epochDay ∧ d.epochDay < weekStart (d.weekYear + 1) := by
  have hbounds := d.bounds.2
  unfold weekYear
  split
  next hearly =>
    have hlong := yearStart_long (d.year - 1)
    have hnear := weekStart_near (d.year - 1)
    rw [sub_add_cancel] at hlong ⊢
    omega
  next hearly =>
    split
    next hlate =>
      have hlong := yearStart_long (d.year + 1)
      have hnear := weekStart_near (d.year + 1 + 1)
      omega
    next hlate => exact ⟨not_lt.mp hearly, not_le.mp hlate⟩

theorem weekYear_range (d : DateValue) : minYear ≤ d.weekYear ∧ d.weekYear ≤ maxYear := by
  have hbounds := d.weekYear_bounds
  have hrange := d.epochDay_range
  constructor
  · by_contra hlow
    have hmono := weekStart_mono (show d.weekYear + 1 ≤ minYear from not_le.mp hlow)
    have hfirst : weekStart minYear = Query.epochDay minYear 1 1 := by decide
    omega
  · by_contra hhigh
    have hmono := weekStart_mono (show maxYear + 1 ≤ d.weekYear from not_le.mp hhigh)
    have hlast : Query.epochDay maxYear 12 31 < weekStart (maxYear + 1) := by decide
    omega

theorem weeksOf_eq (h : d.year = year ∧ d.month = 1 ∧ d.day = 1) : weekStart (year + 1) = weekStart year + 7 * d.weeksOf := by
  obtain ⟨rfl, hmonth, hday⟩ := h
  have hepoch : d.epochDay = yearStart d.year := by
    rw [d.bounds.1, hmonth, hday]
    simp [daysBefore]
  rw [weekStart_eq, weekStart_eq, yearStart_succ, weeksOf, dayOfWeek, hepoch]
  rcases leapDay_cases d.year with ⟨hleap, h, -⟩ | ⟨hleap, h, -⟩ <;> simp [hleap, h] <;> split <;> omega

theorem monday_eq (h : d.year = year ∧ d.month = 1 ∧ d.day = 4) : d.epochDay - d.dayOfWeek + 1 = weekStart year := by
  have hepoch : d.epochDay = Query.epochDay year 1 4 := by rw [← h.1, ← h.2.1, ← h.2.2]; rfl
  rw [dayOfWeek, hepoch]
  show _ = Query.epochDay year 1 4 - (Query.epochDay year 1 4 + 3) % 7
  omega

theorem fromWeekDate_spec : fromWeekDate year number weekday = .ok d ↔ (minYear ≤ year ∧ year ≤ maxYear) ∧
      (1 ≤ number ∧ weekStart year + 7 * number ≤ weekStart (year + 1)) ∧ (1 ≤ weekday ∧ weekday ≤ 7) ∧
      d.epochDay = weekStart year + 7 * (number - 1) + weekday - 1 := by
  constructor
  · intro h
    obtain ⟨fourth, hfourth, h⟩ := Checked.bind_ok_iff.mp h
    obtain ⟨first, hfirst, h⟩ := Checked.bind_ok_iff.mp h
    obtain ⟨hnumber, h⟩ := integer_bind.mp h
    obtain ⟨hweekday, h⟩ := integer_bind.mp h
    have hepoch := fromEpochDay_iff.mp h
    rw [monday_eq (make_eq_ok.mp hfourth)] at hepoch
    have hlength := weeksOf_eq (make_eq_ok.mp hfirst)
    have hyear := fourth.year_range
    rw [(make_eq_ok.mp hfourth).1] at hyear
    exact ⟨hyear, by omega, hweekday, hepoch⟩
  · rintro ⟨hyear, hnumber, hweekday, hepoch⟩
    have hfourth : make year 1 4 = .ok _ := make_ok hyear (by decide) ⟨by decide, show (4 : ℤ) ≤ 31 by decide⟩
    have hfirst : make year 1 1 = .ok _ := make_ok hyear (by decide) ⟨by decide, show (1 : ℤ) ≤ 31 by decide⟩
    have hlength := weeksOf_eq (make_eq_ok.mp hfirst)
    unfold fromWeekDate
    rw [hfourth, Checked.ok_bind, hfirst, Checked.ok_bind]
    rw [integer_bind, integer_bind, fromEpochDay_iff, monday_eq (make_eq_ok.mp hfourth)]
    exact ⟨by omega, hweekday, hepoch⟩

theorem fromWeekDate_iff : fromWeekDate year number weekday = .ok d ↔ d.weekYear = year ∧ d.week = number ∧ d.dayOfWeek = weekday := by
  have hmonday : (weekStart year + 3) % 7 = 0 := by
    rw [weekStart_eq]
    omega
  have hweeks : (weekStart (year + 1) - weekStart year) % 7 = 0 := by
    rw [weekStart_eq, weekStart_eq]
    omega
  rw [fromWeekDate_spec, week, dayOfWeek]
  constructor
  · rintro ⟨-, hnumber, hweekday, hepoch⟩
    have hyear : d.weekYear = year := weekStart_inj d.weekYear_bounds (by omega)
    rw [hyear]
    omega
  · rintro ⟨rfl, rfl, rfl⟩
    obtain ⟨hlow, hhigh⟩ := d.weekYear_bounds
    exact ⟨d.weekYear_range, by omega, by omega, by omega⟩

end DateValue

end Grafx.Query
