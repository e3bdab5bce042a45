import OktoGrafx.Query.TemporalBetween

/-! A duration subtracted, against its negation added. Only a date can tell them apart: it keeps the whole days of the
seconds, and these are floored while the nanoseconds stay positive. -/

namespace Grafx.Query

open Checked (bind_ok_iff ok_bind)
open DateValue (addDays_iff)

def subtractDuration (zones : NamedZones) (value : Temporal) (duration : DurationValue) : Ranged Temporal :=
  shift zones value duration (-1)

/-- A float is given by the decimal it prints as, absent when it is not finite. -/
inductive Factor
  | int (n : ℤ)
  | float (printed : Option ℚ)

def Factor.fraction : Factor → Ranged ℚ
  | int n => do
    integer n "factor" minInt64 maxInt64
    pure n
  | float none => .error (.reason "temporal_arithmetic_nonfinite")
  | float (some q) => .ok q

def truncate (q : ℚ) : ℤ := q.num.tdiv q.den

/-- The fraction of a month is carried into days, that of a day into the clock. -/
def scaleDuration (value : DurationValue) (number : Factor) (divide : Bool) : Ranged DurationValue := do
  let factor ← number.fraction
  let factor ← if divide then
      if factor = 0 then .error (.reason "temporal_arithmetic_zero_divisor") else .ok factor⁻¹
    else .ok factor
  let months := value.months * factor
  let days := value.days * factor + (months - truncate months) * (2629746 / 86400)
  let nanos := truncate (value.elapsed * factor + (days - truncate days) * nanosecondsPerDay)
  DurationValue.make (truncate months) (truncate days) (nanos / nanosecondsPerSecond) (nanos % nanosecondsPerSecond)

theorem truncate_intCast (n : ℤ) : truncate n = n := Int.tdiv_one n

theorem scaleDuration_neg_one (d : DurationValue) : scaleDuration d (.int (-1)) false =
    DurationValue.make (-d.months) (-d.days) (-d.elapsed / nanosecondsPerSecond) (-d.elapsed % nanosecondsPerSecond) := by
  have hneg : ∀ n : ℤ, (n : ℚ) * ((-1 : ℤ) : ℚ) = ((-n : ℤ) : ℚ) := fun n => by push_cast; ring
  have hfactor : (Factor.int (-1)).fraction = .ok ((-1 : ℤ) : ℚ) := rfl
  simp only [scaleDuration, hfactor, ok_bind, Bool.false_eq_true, if_false, hneg, truncate_intCast, sub_self, zero_mul, add_zero]

theorem DurationValue.make_ok {months days seconds nanoseconds : ℤ} {d : DurationValue}
    (h : make months days seconds nanoseconds = .ok d) : d.months = months ∧ d.days = days ∧
      d.seconds = seconds + nanoseconds / nanosecondsPerSecond ∧ d.nanoseconds = nanoseconds % nanosecondsPerSecond := by
  unfold make at h
  repeat' split at h
  all_goals cases h
  exact ⟨rfl, rfl, rfl, rfl⟩

theorem wholeDays_eq (seconds : ℤ) : |seconds| / 86400 * (if seconds < 0 then -1 else 1) =
    if seconds < 0 then -(-seconds / 86400) else seconds / 86400 := by
  split_ifs with h
  · rw [abs_of_neg h, mul_neg_one]
  · rw [abs_of_nonneg (not_lt.mp h), mul_one]

theorem subtractDuration_eq_addDuration (zones : NamedZones) {d e : DurationValue} (h : scaleDuration d (.int (-1)) false = .ok e) :
    (∀ value, (∀ date, value ≠ .date date) → subtractDuration zones value d = addDuration zones value e) ∧
    ∀ date below above, subtractDuration zones (.date date) d = .ok below → addDuration zones (.date date) e = .ok above →
      (below = above ↔ d.nanoseconds = 0 ∨ ¬ 86400 ∣ if d.seconds < 0 then d.seconds else d.seconds + 1) := by
  rw [scaleDuration_neg_one] at h
  obtain ⟨hmonths, hdays, hseconds, hnanos⟩ := DurationValue.make_ok h
  have helapsed : e.elapsed = -d.elapsed := by
    unfold DurationValue.elapsed at *
    unfold nanosecondsPerSecond at *
    omega
  constructor
  · intro value hvalue
    unfold subtractDuration addDuration shift
    cases value with
    | date d => exact (hvalue d rfl).elim
    | _ => simp only [hmonths, hdays, helapsed, neg_one_mul, one_mul]
  · intro date below above hbelow habove
    obtain ⟨moved, hmoved, hbelow⟩ := bind_ok_iff.mp hbelow
    obtain ⟨moved', hmoved', habove⟩ := bind_ok_iff.mp habove
    rw [hmonths, one_mul, ← neg_one_mul, hmoved] at hmoved'
    cases hmoved'
    obtain ⟨b, hb, hbelow⟩ := bind_ok_iff.mp hbelow
    obtain ⟨a, ha, habove⟩ := bind_ok_iff.mp habove
    cases hbelow
    cases habove
    have hb := addDays_iff.mp hb
    have ha := addDays_iff.mp ha
    have hrange := d.nanoseconds_range
    have hsame : a = b ↔ a.epochDay = b.epochDay := ⟨congrArg _, fun h => DateValue.epochDay_injective h⟩
    rw [wholeDays_eq] at ha hb
    rw [eq_comm, Temporal.date.injEq, hsame, ha, hb]
    unfold DurationValue.elapsed at hseconds
    unfold nanosecondsPerSecond at *
    omega

def noResolver : NamedZones :=
  let refused : Ranged DateTimeValue := .error (.reason "temporal_timezone_provider")
  ⟨fun _ _ => refused, fun _ _ => refused, fun _ _ => refused, fun _ _ _ => refused⟩

def newYear : DateValue := ⟨2000, 1, 1, by decide, by decide, by decide⟩

def dayAfter : DateValue := ⟨2000, 1, 2, by decide, by decide, by decide⟩

def almostADay : DurationValue := ⟨0, 0, 86399, 999999999, by decide, by decide, by decide, by decide⟩

def almostADayBack : DurationValue := ⟨0, 0, -86400, 1, by decide, by decide, by decide, by decide⟩

theorem scaleDuration_almostADayBack : scaleDuration almostADayBack (.int (-1)) false = .ok almostADay := by
  rw [scaleDuration_neg_one]
  decide

theorem subtractDuration_midnight : subtractDuration noResolver (.localTime .midnight) almostADayBack =
      addDuration noResolver (.localTime .midnight) almostADay ∧
    ∃ below above, subtractDuration noResolver (.date newYear) almostADayBack = .ok below ∧
      addDuration noResolver (.date newYear) almostADay = .ok above ∧ below ≠ above := by
  obtain ⟨hother, hdate⟩ := subtractDuration_eq_addDuration noResolver scaleDuration_almostADayBack
  refine ⟨hother _ fun _ => by simp, .date dayAfter, .date newYear, by decide, by decide, fun h => ?_⟩
  exact absurd ((hdate newYear _ _ (by decide) (by decide)).mp h) (by decide)

/-- The day counts when the duration is subtracted, and not when its negation is added. -/
theorem subtractDuration_newYear : scaleDuration almostADayBack (.int (-1)) false = .ok almostADay ∧
    subtractDuration noResolver (.date newYear) almostADayBack = .ok (.date dayAfter) ∧
    addDuration noResolver (.date newYear) almostADay = .ok (.date newYear) :=
  ⟨scaleDuration_almostADayBack, by decide, by decide⟩

end Grafx.Query
