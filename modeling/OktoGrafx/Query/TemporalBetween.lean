import OktoGrafx.Query.TemporalArithmetic

/-! The duration between two values leads from one to the other, and no part of it turns back. -/

namespace Grafx.Query

open Checked (ok_bind)
open DateTimeValue (fromEpochParts)

variable {d : DateValue} {t : LocalDateTimeValue} {days months nanosecond seconds : ℤ}

theorem epochDay_minYear : epochDay minYear 1 1 = -365243219162 := by decide

theorem epochDay_maxYear : epochDay maxYear 12 31 = 365241780471 := by decide

namespace DateValue

/-! ## Months -/

def monthIndex (d : DateValue) : ℤ := d.year * 12 + d.month - 1

theorem epochDay_le_iff (a b : DateValue) :
    a.epochDay ≤ b.epochDay ↔ a.monthIndex < b.monthIndex ∨ a.monthIndex = b.monthIndex ∧ a.day ≤ b.day := by
  have hbefore := b.before_iff a
  unfold Before at hbefore
  have hmonth := a.month_range
  have hmonth' := b.month_range
  unfold monthIndex
  omega

theorem monthIndex_range (d : DateValue) : minYear * 12 ≤ d.monthIndex ∧ d.monthIndex ≤ maxYear * 12 + 11 := by
  have hyear : minYear ≤ d.year ∧ d.year ≤ maxYear := d.year_range
  have hmonth := d.month_range
  unfold monthIndex
  omega

theorem day_le (d : DateValue) : 1 ≤ d.day ∧ d.day ≤ 31 := by
  have hday := d.day_range
  have hlength := daysInMonth_eq d.month_range d.year
  have hleap := leapDay_cases d.year
  split at hlength <;> omega

theorem daysInMonth_eq_of_monthIndex {a b : DateValue} (h : a.monthIndex = b.monthIndex) :
    daysInMonth a.year a.month = daysInMonth b.year b.month := by
  have hmonth := a.month_range
  have hmonth' := b.month_range
  unfold monthIndex at h
  rw [show a.year = b.year by omega, show a.month = b.month by omega]

theorem addMonths_spec (h : minYear * 12 ≤ d.monthIndex + months ∧ d.monthIndex + months ≤ maxYear * 12 + 11) :
    ∃ d', d.addMonths months = .ok d' ∧ d'.monthIndex = d.monthIndex + months ∧
      d'.day = min d.day (daysInMonth d'.year d'.month) := by
  have hrange := d.monthIndex_range
  unfold monthIndex at h hrange
  have hmonths : minInt64 ≤ months ∧ months ≤ maxInt64 := by
    unfold minInt64 maxInt64
    unfold minYear maxYear at h hrange
    omega
  set total := d.year * 12 + d.month - 1 + months with htotal
  have hyear : minYear ≤ total / 12 ∧ total / 12 ≤ maxYear := by omega
  have hmonth : 1 ≤ total % 12 + 1 ∧ total % 12 + 1 ≤ 12 := by omega
  have hday : 1 ≤ min d.day (daysInMonth (total / 12) (total % 12 + 1)) ∧
      min d.day (daysInMonth (total / 12) (total % 12 + 1)) ≤ daysInMonth (total / 12) (total % 12 + 1) := by
    have hlength := daysInMonth_eq hmonth (total / 12)
    have hleap := leapDay_cases (total / 12)
    have hfirst := d.day_le
    constructor
    · split at hlength <;> omega
    · exact min_le_right _ _
  refine ⟨_, integer_bind.mpr ⟨hmonths, integer_bind.mpr ⟨hyear, make_ok hyear hmonth hday⟩⟩, ?_, rfl⟩
  show total / 12 * 12 + (total % 12 + 1) - 1 = d.year * 12 + d.month - 1 + months
  omega

theorem wholeMonths_spec (a e : DateValue) :
    ∃ a', a.addMonths (wholeMonths a e) = .ok a' ∧
      (a.epochDay ≤ e.epochDay → 0 ≤ wholeMonths a e ∧ a.epochDay ≤ a'.epochDay ∧ a'.epochDay ≤ e.epochDay) ∧
      (e.epochDay ≤ a.epochDay → wholeMonths a e ≤ 0 ∧ a'.epochDay ≤ a.epochDay ∧ e.epochDay ≤ a'.epochDay) := by
  have ha := a.day_le
  have he := e.day_le
  have harange := a.monthIndex_range
  have herange := e.monthIndex_range
  obtain ⟨k, hk⟩ : ∃ k, k = wholeMonths a e := ⟨_, rfl⟩
  rw [← hk]
  have hcount : k = |(e.monthIndex - a.monthIndex) * 32 + e.day - a.day| / 32 *
      if (e.monthIndex - a.monthIndex) * 32 + e.day - a.day < 0 then -1 else 1 := by
    rw [hk, wholeMonths]
    unfold monthIndex
    ring_nf
  -- one month less when the day of the month has not been reached
  have hcases : k = e.monthIndex - a.monthIndex ∧ (a.monthIndex < e.monthIndex → a.day ≤ e.day) ∧
        (e.monthIndex < a.monthIndex → e.day ≤ a.day) ∨
      a.monthIndex < e.monthIndex ∧ k = e.monthIndex - a.monthIndex - 1 ∨
      e.monthIndex < a.monthIndex ∧ k = e.monthIndex - a.monthIndex + 1 := by
    split at hcount
    next hneg =>
      rw [abs_of_neg hneg] at hcount
      omega
    next hpos =>
      rw [abs_of_nonneg (not_lt.mp hpos)] at hcount
      omega
  obtain ⟨a', haddMonths, hindex, hday⟩ := addMonths_spec (show minYear * 12 ≤ a.monthIndex + k ∧ _ by omega)
  refine ⟨a', haddMonths, ?_⟩
  have hsame : a'.monthIndex = e.monthIndex → e.day ≤ daysInMonth a'.year a'.month := by
    intro h
    rw [daysInMonth_eq_of_monthIndex h]
    exact e.day_range.2
  have hstay : a'.monthIndex = a.monthIndex → a.day ≤ daysInMonth a'.year a'.month := by
    intro h
    rw [daysInMonth_eq_of_monthIndex h]
    exact a.day_range.2
  simp only [epochDay_le_iff]
  omega

theorem addMonths_zero (d : DateValue) : d.addMonths 0 = .ok d := by
  obtain ⟨d', hd', hindex, hday⟩ := addMonths_spec (show minYear * 12 ≤ d.monthIndex + 0 ∧ _ by
    rw [add_zero]
    exact d.monthIndex_range)
  rw [add_zero] at hindex
  have hsame : d'.epochDay = d.epochDay := by
    have hle := d.day_range.2
    rw [← daysInMonth_eq_of_monthIndex hindex] at hle
    apply le_antisymm <;> rw [epochDay_le_iff] <;> omega
  rw [hd', epochDay_injective hsame]

theorem addDays_iff {e : DateValue} : d.addDays days = .ok e ↔ e.epochDay = d.epochDay + days := by
  have hd := d.epochDay_range
  have he := e.epochDay_range
  rw [epochDay_minYear, epochDay_maxYear] at hd he
  rw [addDays, integer_bind, fromEpochDay_iff]
  unfold minInt64 maxInt64
  constructor
  · exact fun h => h.2
  · intro h
    exact ⟨by omega, h⟩

end DateValue

/-! ## The local time line -/

def LocalDateTimeValue.position (t : LocalDateTimeValue) : ℤ := t.date.epochDay * nanosecondsPerDay + t.time.nanoseconds

theorem LocalDateTimeValue.position_eq (t : LocalDateTimeValue) :
    t.position = t.localEpochSeconds * nanosecondsPerSecond + t.time.nanosecond := by
  unfold position localEpochSeconds LocalTimeValue.nanosecond nanosecondsPerDay nanosecondsPerSecond
  omega

theorem LocalDateTimeValue.elapsed_eq (first second : LocalDateTimeValue) :
    (second.localEpochSeconds - first.localEpochSeconds) * nanosecondsPerSecond + second.time.nanosecond -
      first.time.nanosecond = second.position - first.position := by
  rw [position_eq, position_eq]
  ring

theorem LocalDateTimeValue.position_injective {u : LocalDateTimeValue} (h : t.position = u.position) : t = u := by
  obtain ⟨d, time, htime⟩ := t
  obtain ⟨d', time', htime'⟩ := u
  unfold position nanosecondsPerDay nanosecondsPerSecond at h
  unfold nanosecondsPerDay nanosecondsPerSecond at htime htime'
  simp only at h
  have hdate : d.epochDay = d'.epochDay := by omega
  obtain rfl : time = time' := by omega
  rw [DateValue.epochDay_injective hdate]

theorem LocalDateTimeValue.fromLocalEpochParts_iff (hn : 0 ≤ nanosecond ∧ nanosecond < nanosecondsPerSecond) :
    fromLocalEpochParts seconds nanosecond = .ok t ↔ t.position = seconds * nanosecondsPerSecond + nanosecond := by
  have hdate := t.date.epochDay_range
  rw [epochDay_minYear, epochDay_maxYear] at hdate
  have htime := t.time.range
  have hposition : t.position = t.date.epochDay * nanosecondsPerDay + t.time.nanoseconds := rfl
  have hclock : 0 ≤ seconds % 86400 * nanosecondsPerSecond + nanosecond ∧
      seconds % 86400 * nanosecondsPerSecond + nanosecond < nanosecondsPerDay := by
    unfold nanosecondsPerDay nanosecondsPerSecond at *
    omega
  rw [fromLocalEpochParts, integer_bind, integer_bind, Checked.bind_ok_iff]
  unfold LocalTimeValue.make minInt64 maxInt64
  rw [dif_pos hclock]
  unfold nanosecondsPerDay nanosecondsPerSecond at *
  constructor
  · rintro ⟨-, -, d, hd, ht⟩
    cases ht
    rw [DateValue.fromEpochDay_iff] at hd
    dsimp only at hposition
    omega
  · intro h
    refine ⟨by omega, by omega, t.date, DateValue.fromEpochDay_iff.mpr (by omega), ?_⟩
    apply congrArg Except.ok
    apply position_injective
    show t.date.epochDay * _ + (seconds % 86400 * 1000000000 + nanosecond) = _
    unfold nanosecondsPerDay nanosecondsPerSecond
    omega

open LocalDateTimeValue

theorem emod_second (n : ℤ) : 0 ≤ n % nanosecondsPerSecond ∧ n % nanosecondsPerSecond < nanosecondsPerSecond :=
  ⟨Int.emod_nonneg _ (by decide), Int.emod_lt_of_pos _ (by decide)⟩

theorem endDate_spec (first second : LocalDateTimeValue) :
    ∃ e, (first.date.epochDay ≤ e.epochDay ∧ position ⟨e, first.time⟩ ≤ second.position ∧
        ∀ d : DateValue, first.date.epochDay ≤ d.epochDay → d.epochDay ≤ e.epochDay →
          endDate ⟨d, first.time⟩ second = .ok e) ∨
      (e.epochDay ≤ first.date.epochDay ∧ second.position ≤ position ⟨e, first.time⟩ ∧
        ∀ d : DateValue, e.epochDay ≤ d.epochDay → d.epochDay ≤ first.date.epochDay →
          endDate ⟨d, first.time⟩ second = .ok e) := by
  have hrange := first.date.epochDay_range
  have hrange' := second.date.epochDay_range
  have hclock := first.time.range
  have hclock' := second.time.range
  unfold position
  unfold endDate
  by_cases hforward : 0 < second.date.epochDay - first.date.epochDay ∧ second.time.nanoseconds < first.time.nanoseconds
  · obtain ⟨e, -, he⟩ := DateValue.exists_fromEpochDay (n := second.date.epochDay - 1) (by omega)
    refine ⟨e, .inl ⟨by omega, ?_, ?_⟩⟩
    · dsimp only
      rw [he, sub_mul]
      omega
    · intro d hlow hhigh
      rw [if_pos ⟨by dsimp only; omega, hforward.2⟩, DateValue.addDays_iff, he]
      rfl
  by_cases hbackward : second.date.epochDay - first.date.epochDay < 0 ∧ first.time.nanoseconds < second.time.nanoseconds
  · obtain ⟨e, -, he⟩ := DateValue.exists_fromEpochDay (n := second.date.epochDay + 1) (by omega)
    refine ⟨e, .inr ⟨by omega, ?_, ?_⟩⟩
    · dsimp only
      rw [he, add_mul]
      omega
    · intro d hlow hhigh
      rw [if_neg (by dsimp only; omega), if_pos ⟨by dsimp only; omega, hbackward.2⟩, DateValue.addDays_iff, he]
  · refine ⟨second.date, ?_⟩
    by_cases hdirection : first.date.epochDay < second.date.epochDay ∨
        first.date.epochDay = second.date.epochDay ∧ first.time.nanoseconds ≤ second.time.nanoseconds
    · refine .inl ⟨by omega, by dsimp only; omega, ?_⟩
      intro d hlow hhigh
      rw [if_neg (by dsimp only; omega), if_neg (by dsimp only; omega)]
    · refine .inr ⟨by omega, by dsimp only; omega, ?_⟩
      intro d hlow hhigh
      rw [if_neg (by dsimp only; omega), if_neg (by dsimp only; omega)]

/-! ## One argument for the three kinds of value -/

namespace DurationValue

def OneWay (d : DurationValue) : Prop :=
  0 ≤ d.months ∧ 0 ≤ d.days ∧ 0 ≤ d.elapsed ∨ d.months ≤ 0 ∧ d.days ≤ 0 ∧ d.elapsed ≤ 0

theorem make_spec {nanoseconds : ℤ} (hmonths : minInt64 ≤ months ∧ months ≤ maxInt64)
    (hdays : minInt64 ≤ days ∧ days ≤ maxInt64) (hseconds : minInt64 ≤ seconds ∧ seconds ≤ maxInt64)
    (hnanos : 0 ≤ nanoseconds ∧ nanoseconds < nanosecondsPerSecond) :
    ∃ d, make months days seconds nanoseconds = .ok d ∧ d.months = months ∧ d.days = days ∧
      d.elapsed = seconds * nanosecondsPerSecond + nanoseconds := by
  have hint64 : ∀ {n : ℤ}, minInt64 ≤ n ∧ n ≤ maxInt64 → int64 n := by
    unfold minInt64 maxInt64 int64
    omega
  have hsmall : int64 nanoseconds := by
    unfold nanosecondsPerSecond at hnanos
    unfold int64
    omega
  have hcarry : nanoseconds / nanosecondsPerSecond = 0 := Int.ediv_eq_zero_of_lt hnanos.1 hnanos.2
  have hsum : int64 (seconds + nanoseconds / nanosecondsPerSecond) := by
    rw [hcarry, add_zero]
    exact hint64 hseconds
  unfold make
  rw [dif_pos (hint64 hmonths), dif_pos (hint64 hdays), if_pos (hint64 hseconds), if_pos hsmall, dif_pos hsum]
  refine ⟨_, rfl, rfl, rfl, ?_⟩
  show (seconds + nanoseconds / nanosecondsPerSecond) * nanosecondsPerSecond + nanoseconds % nanosecondsPerSecond = _
  rw [hcarry, add_zero, Int.emod_eq_of_lt hnanos.1 hnanos.2]

end DurationValue

def InOrder (w x y z : ℤ) : Prop := w ≤ x ∧ x ≤ y ∧ y ≤ z ∨ z ≤ y ∧ y ≤ x ∧ x ≤ w

structure Moves (zones : NamedZones) (land : LocalDateTimeValue → Temporal) (time : LocalTimeValue) (right : Temporal)
    (second : LocalDateTimeValue) : Prop where
  dated (d : DateValue) : (land ⟨d, time⟩).dateOf.isSome ∧ right.dateOf.isSome
  count (d : DateValue) (months : Bool) :
    calendarCount zones (land ⟨d, time⟩) right months = localCount ⟨d, time⟩ second months
  elapsed (d : DateValue) :
    elapsedNanos zones (land ⟨d, time⟩) right = .ok (second.position - position ⟨d, time⟩)
  lands {d d' d'' : DateValue} {t : LocalDateTimeValue} {δ : DurationValue} : d.addMonths δ.months = .ok d' →
    d'.addDays δ.days = .ok d'' → (t.time = time ∨ t = second) →
    position ⟨d'', time⟩ + δ.elapsed = t.position →
    addDuration zones (land ⟨d, time⟩) δ = .ok (land t)

theorem Moves.between {zones : NamedZones} {land : LocalDateTimeValue → Temporal} {time : LocalTimeValue}
    {right : Temporal} {second : LocalDateTimeValue} (h : Moves zones land time right second) (a : DateValue) :
    ∃ δ d' d'', temporalBetween zones (land ⟨a, time⟩) right .between = .ok δ ∧
      addDuration zones (land ⟨a, time⟩) δ = .ok (land second) ∧ δ.OneWay ∧
      a.addMonths δ.months = .ok d' ∧ d'.addDays δ.days = .ok d'' ∧
      InOrder (position ⟨a, time⟩) (position ⟨d', time⟩)
        (position ⟨d'', time⟩) second.position := by
  obtain ⟨e, hcase⟩ := endDate_spec ⟨a, time⟩ second
  obtain ⟨d', hmonths, hforward, hbackward⟩ := a.wholeMonths_spec e
  have hend : endDate ⟨a, time⟩ second = .ok e ∧ endDate ⟨d', time⟩ second = .ok e := by
    rcases hcase with ⟨hle, -, hstable⟩ | ⟨hle, -, hstable⟩
    · exact ⟨hstable a le_rfl hle, hstable d' (hforward hle).2.1 (hforward hle).2.2⟩
    · exact ⟨hstable a hle le_rfl, hstable d' (hbackward hle).2.2 (hbackward hle).2.1⟩
  have hdays : d'.addDays (e.epochDay - d'.epochDay) = .ok e := DateValue.addDays_iff.mpr (by omega)
  have hcountMonths : calendarCount zones (land ⟨a, time⟩) right true = .ok (wholeMonths a e) := by
    rw [h.count, localCount, hend.1]
    rfl
  have hcountDays : calendarCount zones (land ⟨d', time⟩) right false = .ok (e.epochDay - d'.epochDay) := by
    rw [h.count, localCount, hend.2]
    rfl
  obtain ⟨elapsed, helapsed⟩ : ∃ n, n = second.position - position ⟨e, time⟩ := ⟨_, rfl⟩
  have hnone : (0 : ℤ) ≤ 0 ∧ 0 < nanosecondsPerSecond := by decide
  have hzero : minInt64 ≤ 0 ∧ (0 : ℤ) ≤ maxInt64 := by decide
  have hseconds : minInt64 ≤ elapsed / nanosecondsPerSecond ∧ elapsed / nanosecondsPerSecond ≤ maxInt64 := by
    have hreach := e.epochDay_range
    have hreach' := second.date.epochDay_range
    have hclock := time.range
    have hclock' := second.time.range
    rw [epochDay_minYear, epochDay_maxYear] at hreach hreach'
    rw [helapsed, position, position]
    unfold nanosecondsPerDay nanosecondsPerSecond at *
    unfold minInt64 maxInt64
    dsimp only
    omega
  obtain ⟨byMonths, hbyMonths, hm, hm', hm''⟩ :=
    DurationValue.make_spec (integer_bind.mp hmonths).1 hzero hzero hnone
  obtain ⟨byDays, hbyDays, hd, hd', hd''⟩ :=
    DurationValue.make_spec hzero (integer_bind.mp hdays).1 hzero hnone
  obtain ⟨δ, hδ, hδm, hδd, hδe⟩ :=
    DurationValue.make_spec (integer_bind.mp hmonths).1 (integer_bind.mp hdays).1 hseconds (emod_second elapsed)
  rw [Int.ediv_mul_add_emod] at hδe
  have hstep : addDuration zones (land ⟨a, time⟩) byMonths = .ok (land ⟨d', time⟩) := by
    apply h.lands (hm ▸ hmonths) (hm' ▸ DateValue.addDays_iff.mpr (add_zero _).symm) (.inl rfl)
    rw [hm'', zero_mul, add_zero, add_zero]
  have hstep' : addDuration zones (land ⟨d', time⟩) byDays = .ok (land ⟨e, time⟩) := by
    apply h.lands (hd ▸ d'.addMonths_zero) (hd' ▸ hdays) (.inl rfl)
    rw [hd'', zero_mul, add_zero, add_zero]
  refine ⟨δ, d', e, ?_, ?_, ?_, hδm ▸ hmonths, hδd ▸ hdays, ?_⟩
  · unfold temporalBetween
    dsimp only
    rw [if_pos (h.dated a), hcountMonths, ok_bind, hbyMonths, ok_bind, hstep, ok_bind, hcountDays,
      ok_bind, hbyDays, ok_bind, hstep', ok_bind, h.elapsed, ok_bind, ← helapsed, hδ]
  · apply h.lands (hδm ▸ hmonths) (hδd ▸ hdays) (.inr rfl)
    rw [hδe, helapsed]
    ring
  · unfold DurationValue.OneWay
    rcases hcase with ⟨hle, hreach, -⟩ | ⟨hle, hreach, -⟩
    · have := hforward hle
      dsimp only at hreach
      omega
    · have := hbackward hle
      dsimp only at hreach
      omega
  · have hday : 0 < nanosecondsPerDay := by decide
    have hmono : ∀ {x y : DateValue}, x.epochDay ≤ y.epochDay →
        position ⟨x, time⟩ ≤ position ⟨y, time⟩ := fun hxy =>
      Int.add_le_add_right (mul_le_mul_of_nonneg_right hxy hday.le) _
    rcases hcase with ⟨hle, hreach, -⟩ | ⟨hle, hreach, -⟩
    · exact .inl ⟨hmono (hforward hle).2.1, hmono (hforward hle).2.2, hreach⟩
    · exact .inr ⟨hreach, hmono (hbackward hle).2.2, hmono (hbackward hle).2.1⟩

/-! ## Dates, local date-times and date-times -/

variable (zones : NamedZones)

theorem moves_date (b : DateValue) :
    Moves zones (fun t => .date t.date) .midnight (.date b) ⟨b, .midnight⟩ where
  dated d := ⟨rfl, rfl⟩
  count d months := rfl
  elapsed d := congrArg Except.ok (elapsed_eq ⟨d, .midnight⟩ ⟨b, .midnight⟩)
  lands := by
    intro d d' d'' t δ hmonths hdays htime hposition
    have hmidnight : t.time.nanoseconds = 0 := by
      rcases htime with h | h <;> rw [h] <;> rfl
    rw [DateValue.addDays_iff] at hdays
    have helapsed : δ.elapsed = (t.date.epochDay - d''.epochDay) * nanosecondsPerDay := by
      rw [position, position, hmidnight] at hposition
      dsimp only at hposition
      rw [show LocalTimeValue.midnight.nanoseconds = 0 from rfl] at hposition
      rw [sub_mul]
      omega
    have hnanos := δ.nanoseconds_range
    have hwhole : |δ.seconds| / 86400 * (if δ.seconds < 0 then -1 else 1) = t.date.epochDay - d''.epochDay := by
      unfold DurationValue.elapsed at helapsed
      unfold nanosecondsPerDay nanosecondsPerSecond at *
      split
      next hneg => rw [abs_of_neg hneg]; omega
      next hpos => rw [abs_of_nonneg (not_lt.mp hpos)]; omega
    show (do
      let d ← d.addMonths (1 * δ.months)
      Temporal.date <$> d.addDays (1 * δ.days + 1 * (|δ.seconds| / 86400 * if δ.seconds < 0 then -1 else 1))) = _
    rw [one_mul, one_mul, one_mul, hwhole, hmonths, ok_bind, DateValue.addDays_iff.mpr (show t.date.epochDay = _ by omega)]
    rfl

theorem moves_localDateTime (u : LocalDateTimeValue) (time : LocalTimeValue) :
    Moves zones .localDateTime time (.localDateTime u) u where
  dated d := ⟨rfl, rfl⟩
  count d months := rfl
  elapsed d := congrArg Except.ok (elapsed_eq ⟨d, time⟩ u)
  lands := by
    intro d d' d'' t δ hmonths hdays htime hposition
    have hparts := position_eq ⟨d'', time⟩
    have htotal := Int.ediv_mul_add_emod (time.nanosecond + 1 * δ.elapsed) nanosecondsPerSecond
    have hlast : fromLocalEpochParts (localEpochSeconds ⟨d'', time⟩ +
        (time.nanosecond + 1 * δ.elapsed) / nanosecondsPerSecond)
        ((time.nanosecond + 1 * δ.elapsed) % nanosecondsPerSecond) = .ok t := by
      rw [fromLocalEpochParts_iff (emod_second _),
        ← hposition, hparts, add_mul]
      dsimp only at htotal ⊢
      omega
    unfold addDuration shift
    dsimp only
    rw [one_mul, one_mul, hmonths, ok_bind, hdays, ok_bind, hlast]
    rfl

section DateTimes

variable {offset : ℤ} (hoffset : -18 * 3600 ≤ offset ∧ offset ≤ 18 * 3600) {c : DateTimeValue}

theorem calendarStep_ok {d' : DateValue} {amount : ℤ} {months : Bool} (h : d.addUnits amount months = .ok d')
    (time : LocalTimeValue) : calendarStep zones ⟨⟨d, time⟩, offset, none, hoffset, rfl⟩ amount months =
      .ok ⟨⟨d', time⟩, offset, none, hoffset, rfl⟩ := by
  unfold calendarStep
  split
  next hzero =>
    have hstay : d.addUnits 0 months = .ok d := by
      cases months with
      | true => exact d.addMonths_zero
      | false => exact DateValue.addDays_iff.mpr (add_zero _).symm
    rw [hzero, hstay] at h
    rw [Except.ok.inj h]
  next =>
    rw [h, ok_bind, DateTimeValue.atOffset, dif_pos hoffset]

theorem fromEpochParts_iff (hn : 0 ≤ nanosecond ∧ nanosecond < nanosecondsPerSecond) :
    fromEpochParts seconds nanosecond offset = .ok c ↔ c = ⟨c.localDateTime, offset, none, hoffset, rfl⟩ ∧
      c.localDateTime.position = (seconds + offset) * nanosecondsPerSecond + nanosecond := by
  rw [fromEpochParts, integer_bind, integer_bind, Checked.bind_ok_iff,
    ← fromLocalEpochParts_iff hn]
  have hplace : ∀ u, DateTimeValue.atOffset u offset = .ok ⟨u, offset, none, hoffset, rfl⟩ := fun u => dif_pos hoffset
  constructor
  · rintro ⟨-, -, u, hu, hsame⟩
    rw [hplace] at hsame
    rw [← Except.ok.inj hsame]
    exact ⟨rfl, hu⟩
  · rintro ⟨hc, h⟩
    have hdate := c.localDateTime.date.epochDay_range
    have htime := c.localDateTime.time.range
    have hposition := (fromLocalEpochParts_iff hn).mp h
    rw [epochDay_minYear, epochDay_maxYear] at hdate
    unfold position at hposition
    unfold nanosecondsPerDay nanosecondsPerSecond at *
    unfold minInt64 maxInt64
    exact ⟨by omega, hoffset, _, h, by rw [hplace, ← hc]⟩

theorem moves_dateTime {b : DateTimeValue} (hb : b.zone = none)
    (hc : fromEpochParts b.epochSeconds b.nanosecond offset = .ok c) (time : LocalTimeValue) :
    Moves zones (fun t => .dateTime ⟨t, offset, none, hoffset, rfl⟩) time (.dateTime b) c.localDateTime := by
  have hposition : c.localDateTime.position = (b.epochSeconds + offset) * nanosecondsPerSecond + b.nanosecond :=
    ((fromEpochParts_iff hoffset (emod_second _)).mp hc).2
  constructor
  case dated => exact fun d => ⟨rfl, rfl⟩
  case count =>
    intro d months
    show (if (some ((b.zone.map Zone.named).getD (.offset b.offsetSeconds)) : Option Zone) = some (.offset offset) then
      localCount ⟨d, time⟩ b.localDateTime months else do
        let second ← fromEpochParts b.epochSeconds b.nanosecond offset
        localCount ⟨d, time⟩ second.localDateTime months) = _
    rw [hb, hc]
    split
    next hsame =>
      have heq : b.offsetSeconds = offset := Zone.offset.inj (Option.some.inj hsame)
      have hlocal : b.localDateTime = c.localDateTime := by
        apply position_injective
        rw [hposition, position_eq, DateTimeValue.epochSeconds, heq, sub_add_cancel]
        rfl
      rw [hlocal]
    next => rfl
  case elapsed =>
    intro d
    show Except.ok ((b.epochSeconds - (localEpochSeconds ⟨d, time⟩ - offset)) * nanosecondsPerSecond +
      b.nanosecond - time.nanosecond) = _
    rw [hposition, position_eq]
    apply congrArg Except.ok
    ring
  case lands =>
    intro d d' d'' t δ hmonths hdays htime hlands
    unfold addDuration shift
    dsimp only
    have hstep : d.addUnits δ.months true = .ok d' := hmonths
    have hstep' : d'.addUnits δ.days false = .ok d'' := hdays
    rw [one_mul, one_mul, one_mul, calendarStep_ok zones hoffset hstep, ok_bind,
      calendarStep_ok zones hoffset hstep', ok_bind]
    split
    next hzero =>
      rw [hzero, add_zero] at hlands
      rw [position_injective hlands]
      rfl
    next =>
      have hparts := position_eq ⟨d'', time⟩
      have htotal := Int.ediv_mul_add_emod (time.nanosecond + δ.elapsed) nanosecondsPerSecond
      have hlast : fromEpochParts ((time.nanosecond + δ.elapsed) / nanosecondsPerSecond +
          (localEpochSeconds ⟨d'', time⟩ - offset)) ((time.nanosecond + δ.elapsed) % nanosecondsPerSecond)
          offset = .ok ⟨t, offset, none, hoffset, rfl⟩ := by
        refine (fromEpochParts_iff hoffset (emod_second _)).mpr ⟨rfl, ?_⟩
        dsimp only at hparts ⊢
        rw [← hlands, hparts, add_assoc _ (_ - offset), sub_add_cancel, add_mul]
        omega
      exact congrArg (Temporal.dateTime <$> ·) hlast

end DateTimes

/-- The duration between two dates, local date-times or date-times leads from one to the other, step by step. -/
theorem between_leads_to_right :
    (∀ a b : DateValue, ∃ δ d' d'', temporalBetween zones (.date a) (.date b) .between = .ok δ ∧
      addDuration zones (.date a) δ = .ok (.date b) ∧ δ.OneWay ∧ a.addMonths δ.months = .ok d' ∧ d'.addDays δ.days = .ok d'' ∧
      InOrder a.epochDay d'.epochDay d''.epochDay b.epochDay) ∧
    (∀ t u : LocalDateTimeValue, ∃ δ d' d'', temporalBetween zones (.localDateTime t) (.localDateTime u) .between = .ok δ ∧
      addDuration zones (.localDateTime t) δ = .ok (.localDateTime u) ∧ δ.OneWay ∧ t.date.addMonths δ.months = .ok d' ∧
      d'.addDays δ.days = .ok d'' ∧ InOrder t.position (position ⟨d', t.time⟩)
        (position ⟨d'', t.time⟩) u.position) ∧
    (∀ a b c : DateTimeValue, a.zone = none → b.zone = none →
      fromEpochParts b.epochSeconds b.nanosecond a.offsetSeconds = .ok c →
      ∃ δ d' d'' sum, temporalBetween zones (.dateTime a) (.dateTime b) .between = .ok δ ∧
        addDuration zones (.dateTime a) δ = .ok (.dateTime sum) ∧
        (sum.epochSeconds = b.epochSeconds ∧ sum.nanosecond = b.nanosecond) ∧ δ.OneWay ∧
        a.localDateTime.date.addMonths δ.months = .ok d' ∧ d'.addDays δ.days = .ok d'' ∧
        InOrder a.localDateTime.position (position ⟨d', a.localDateTime.time⟩)
          (position ⟨d'', a.localDateTime.time⟩) c.localDateTime.position) := by
  refine ⟨?_, ?_, ?_⟩
  · intro a b
    obtain ⟨δ, d', d'', hbetween, hadd, hway, hmonths, hdays, horder⟩ := (moves_date zones b).between a
    refine ⟨δ, d', d'', hbetween, hadd, hway, hmonths, hdays, ?_⟩
    unfold InOrder position nanosecondsPerDay nanosecondsPerSecond at horder
    unfold InOrder
    dsimp only at horder
    omega
  · intro t u
    exact (moves_localDateTime zones u t.time).between t.date
  · rintro ⟨t, offset, zone, hoffset, hzone⟩ b c rfl hb hc
    obtain ⟨δ, d', d'', hbetween, hadd, hrest⟩ := (moves_dateTime zones hoffset hb hc t.time).between t.date
    refine ⟨δ, d', d'', _, hbetween, hadd, ?_, hrest⟩
    have hb' := emod_second b.localDateTime.time.nanoseconds
    have hposition := ((fromEpochParts_iff hoffset hb').mp hc).2
    rw [position_eq] at hposition
    show c.localDateTime.localEpochSeconds - offset = b.epochSeconds ∧ c.localDateTime.time.nanoseconds % _ = _ % _
    unfold LocalTimeValue.nanosecond at hposition
    unfold nanosecondsPerSecond at *
    omega

end Grafx.Query
