import OktoGrafx.Query.Civil

/-! Durations added to temporal values, and the durations between them. -/

namespace Grafx.Query

def minInt64 : ℤ := -2 ^ 63

def maxInt64 : ℤ := 2 ^ 63 - 1

/-- What the provider of named zones answers; an offset in seconds needs none of it. -/
structure NamedZones where
  zone : LocalDateTimeValue → Text → Ranged DateTimeValue
  atZone : DateTimeValue → Text → Ranged DateTimeValue
  calendarStep : LocalDateTimeValue → DateTimeValue → Ranged DateTimeValue
  atInstant : ℤ → ℤ → Text → Ranged DateTimeValue

/-! ## Components -/

def DateValue.addDays (d : DateValue) (days : ℤ) : Ranged DateValue := do
  integer days "days" minInt64 maxInt64
  fromEpochDay (d.epochDay + days)

def DateValue.addMonths (d : DateValue) (months : ℤ) : Ranged DateValue := do
  integer months "months" minInt64 maxInt64
  let year := (d.year * 12 + d.month - 1 + months) / 12
  let month := (d.year * 12 + d.month - 1 + months) % 12
  integer year "year" minYear maxYear
  make year (month + 1) (min d.day (daysInMonth year (month + 1)))

def LocalTimeValue.make (nanoseconds : ℤ) : Ranged LocalTimeValue :=
  if h : 0 ≤ nanoseconds ∧ nanoseconds < nanosecondsPerDay then .ok ⟨nanoseconds, h⟩
  else .error (.bounds "nanoseconds_of_day" 0 (nanosecondsPerDay - 1))

def LocalTimeValue.midnight : LocalTimeValue := ⟨0, by decide⟩

def LocalTimeValue.nanosecond (t : LocalTimeValue) : ℤ := t.nanoseconds % nanosecondsPerSecond

def LocalDateTimeValue.fromLocalEpochParts (seconds nanosecond : ℤ) : Ranged LocalDateTimeValue := do
  integer seconds "seconds" minInt64 maxInt64
  integer nanosecond "nanosecond" 0 (nanosecondsPerSecond - 1)
  let date ← DateValue.fromEpochDay (seconds / 86400)
  let time ← LocalTimeValue.make (seconds % 86400 * nanosecondsPerSecond + nanosecond)
  pure ⟨date, time⟩

def DateTimeValue.atOffset (t : LocalDateTimeValue) (offset : ℤ) : Ranged DateTimeValue :=
  if h : -18 * 3600 ≤ offset ∧ offset ≤ 18 * 3600 then .ok ⟨t, offset, none, h, rfl⟩
  else .error (.bounds "offset_seconds" (-18 * 3600) (18 * 3600))

def DateTimeValue.fromEpochParts (seconds nanosecond offset : ℤ) : Ranged DateTimeValue := do
  integer seconds "seconds" minInt64 maxInt64
  integer offset "offset_seconds" (-18 * 3600) (18 * 3600)
  let t ← LocalDateTimeValue.fromLocalEpochParts (seconds + offset) nanosecond
  atOffset t offset

instance (n : ℤ) : Decidable (int64 n) := inferInstanceAs (Decidable (_ ∧ _))

def DurationValue.make (months days seconds nanoseconds : ℤ) : Ranged DurationValue :=
  if hmonths : int64 months then
    if hdays : int64 days then
      if int64 seconds then
        if int64 nanoseconds then
          if hseconds : int64 (seconds + nanoseconds / nanosecondsPerSecond) then
            .ok ⟨months, days, seconds + nanoseconds / nanosecondsPerSecond, nanoseconds % nanosecondsPerSecond, hmonths,
              hdays, hseconds, Int.emod_nonneg _ (by decide), Int.emod_lt_of_pos _ (by decide)⟩
          else .error (.bounds "seconds" minInt64 maxInt64)
        else .error (.bounds "nanoseconds" minInt64 maxInt64)
      else .error (.bounds "seconds" minInt64 maxInt64)
    else .error (.bounds "days" minInt64 maxInt64)
  else .error (.bounds "months" minInt64 maxInt64)

def DurationValue.elapsed (d : DurationValue) : ℤ := d.seconds * nanosecondsPerSecond + d.nanoseconds

/-! ## Shifts -/

def DateValue.addUnits (d : DateValue) (amount : ℤ) (months : Bool) : Ranged DateValue :=
  if months then d.addMonths amount else d.addDays amount

def calendarStep (zones : NamedZones) (value : DateTimeValue) (amount : ℤ) (months : Bool) : Ranged DateTimeValue :=
  if amount = 0 then .ok value
  else do
    let date ← value.localDateTime.date.addUnits amount months
    match value.zone with
    | none => DateTimeValue.atOffset ⟨date, value.localDateTime.time⟩ value.offsetSeconds
    | some _ => zones.calendarStep ⟨date, value.localDateTime.time⟩ value

/-- Months, then days, then the elapsed part. -/
def shift (zones : NamedZones) (value : Temporal) (duration : DurationValue) (sign : ℤ) : Ranged Temporal :=
  let months := sign * duration.months
  let days := sign * duration.days
  let nanos := sign * duration.elapsed
  match value with
  | .duration d => do
    let total := d.elapsed + nanos
    .duration <$> DurationValue.make (d.months + months) (d.days + days) (total / nanosecondsPerSecond)
      (total % nanosecondsPerSecond)
  | .date d => do
    let wholeDays := |duration.seconds| / 86400 * if duration.seconds < 0 then -1 else 1
    let d ← d.addMonths months
    .date <$> d.addDays (days + sign * wholeDays)
  | .localTime t => .localTime <$> LocalTimeValue.make ((t.nanoseconds + nanos) % nanosecondsPerDay)
  | .time t => do
    let shifted ← LocalTimeValue.make ((t.time.nanoseconds + nanos) % nanosecondsPerDay)
    pure (.time { t with time := shifted })
  | .localDateTime t => do
    let d ← t.date.addMonths months
    let d ← d.addDays days
    let total := t.time.nanosecond + nanos
    .localDateTime <$> LocalDateTimeValue.fromLocalEpochParts
      (LocalDateTimeValue.localEpochSeconds ⟨d, t.time⟩ + total / nanosecondsPerSecond) (total % nanosecondsPerSecond)
  | .dateTime t => do
    let shifted ← calendarStep zones t months true
    let shifted ← calendarStep zones shifted days false
    if nanos = 0 then pure (.dateTime shifted)
    else
      let total := shifted.nanosecond + nanos
      let seconds := total / nanosecondsPerSecond + shifted.epochSeconds
      .dateTime <$> match t.zone with
      | some zone => zones.atInstant seconds (total % nanosecondsPerSecond) zone
      | none => DateTimeValue.fromEpochParts seconds (total % nanosecondsPerSecond) t.offsetSeconds

def addDuration (zones : NamedZones) (value : Temporal) (duration : DurationValue) : Ranged Temporal :=
  shift zones value duration 1

/-! ## Differences -/

inductive DifferenceMode
  | between | inMonths | inDays | inSeconds
  deriving DecidableEq

inductive Zone
  | offset (seconds : ℤ)
  | named (zone : Text)
  deriving DecidableEq

namespace Temporal

def dateOf : Temporal → Option DateValue
  | date d => some d
  | localDateTime t => some t.date
  | dateTime t => some t.localDateTime.date
  | _ => none

def timeOf : Temporal → LocalTimeValue
  | localTime t => t
  | time t => t.time
  | localDateTime t => t.time
  | dateTime t => t.localDateTime.time
  | _ => LocalTimeValue.midnight

def zoneId : Temporal → Option Zone
  | dateTime t => some ((t.zone.map Zone.named).getD (.offset t.offsetSeconds))
  | time t => some (.offset t.offsetSeconds)
  | _ => none

end Temporal

def zoneOf (zones : NamedZones) (t : LocalDateTimeValue) : Zone → Ranged DateTimeValue
  | .offset seconds => DateTimeValue.atOffset t seconds
  | .named zone => zones.zone t zone

def atZone (zones : NamedZones) (t : DateTimeValue) : Zone → Ranged DateTimeValue
  | .offset seconds => DateTimeValue.fromEpochParts t.epochSeconds t.nanosecond seconds
  | .named zone => zones.atZone t zone

def fill (zones : NamedZones) (value peer : Temporal) : Ranged Temporal :=
  match value.dateOf <|> peer.dateOf, value.zoneId <|> peer.zoneId, value with
  | none, none, _ => .ok (.localTime value.timeOf)
  | none, some (.offset seconds), _ =>
    if h : -18 * 3600 ≤ seconds ∧ seconds ≤ 18 * 3600 then .ok (.time ⟨value.timeOf, seconds, h⟩)
    else .error (.bounds "offset_seconds" (-18 * 3600) (18 * 3600))
  | none, some (.named _), _ => .error (.reason "temporal_component_type")
  | some _, _, .dateTime t => .ok (.dateTime t)
  | some date, none, _ => .ok (.localDateTime ⟨date, value.timeOf⟩)
  | some date, some zone, _ => .dateTime <$> zoneOf zones ⟨date, value.timeOf⟩ zone

def coerce (zones : NamedZones) (left right : Temporal) : Ranged (Temporal × Temporal) := do
  let first ← fill zones left right
  let second ← fill zones right left
  pure (first, second)

def elapsedNanos (zones : NamedZones) (left right : Temporal) : Ranged ℤ := do
  match ← coerce zones left right with
  | (.dateTime first, .dateTime second) =>
    pure ((second.epochSeconds - first.epochSeconds) * nanosecondsPerSecond + second.nanosecond - first.nanosecond)
  | (.localDateTime first, .localDateTime second) =>
    pure ((second.localEpochSeconds - first.localEpochSeconds) * nanosecondsPerSecond + second.time.nanosecond -
      first.time.nanosecond)
  | (.time first, .time second) => pure (second.utcNanoseconds - first.utcNanoseconds)
  | (first, second) => pure (second.timeOf.nanoseconds - first.timeOf.nanoseconds)

def endDate (first second : LocalDateTimeValue) : Ranged DateValue :=
  let dayDelta := second.date.epochDay - first.date.epochDay
  if 0 < dayDelta ∧ second.time.nanoseconds < first.time.nanoseconds then second.date.addDays (-1)
  else if dayDelta < 0 ∧ first.time.nanoseconds < second.time.nanoseconds then second.date.addDays 1
  else .ok second.date

def wholeMonths (start finish : DateValue) : ℤ :=
  let span := ((finish.year - start.year) * 12 + finish.month - start.month) * 32 + finish.day - start.day
  |span| / 32 * if span < 0 then -1 else 1

def localCount (first second : LocalDateTimeValue) (months : Bool) : Ranged ℤ := do
  let finish ← endDate first second
  pure (if months then wholeMonths first.date finish else finish.epochDay - first.date.epochDay)

def calendarCount (zones : NamedZones) (left right : Temporal) (months : Bool) : Ranged ℤ := do
  match ← coerce zones left right with
  | (.dateTime first, .dateTime second) =>
    let zone := (first.zone.map Zone.named).getD (.offset first.offsetSeconds)
    if (Temporal.dateTime second).zoneId = some zone then localCount first.localDateTime second.localDateTime months
    else do
      let second ← atZone zones second zone
      localCount first.localDateTime second.localDateTime months
  | (.localDateTime first, .localDateTime second) => localCount first second months
  | _ => .error (.reason "temporal_difference_missing_date")

def temporalBetween (zones : NamedZones) (left right : Temporal) (mode : DifferenceMode) : Ranged DurationValue :=
  match mode with
  | .inMonths => do DurationValue.make (← calendarCount zones left right true) 0 0 0
  | .inDays => do DurationValue.make 0 (← calendarCount zones left right false) 0 0
  | .inSeconds => do
    let elapsed ← elapsedNanos zones left right
    DurationValue.make 0 0 (elapsed / nanosecondsPerSecond) (elapsed % nanosecondsPerSecond)
  | .between =>
    if left.dateOf.isSome ∧ right.dateOf.isSome then do
      let months ← calendarCount zones left right true
      let left ← addDuration zones left (← DurationValue.make months 0 0 0)
      let days ← calendarCount zones left right false
      let left ← addDuration zones left (← DurationValue.make 0 days 0 0)
      let elapsed ← elapsedNanos zones left right
      DurationValue.make months days (elapsed / nanosecondsPerSecond) (elapsed % nanosecondsPerSecond)
    else do
      let elapsed ← elapsedNanos zones left right
      DurationValue.make 0 0 (elapsed / nanosecondsPerSecond) (elapsed % nanosecondsPerSecond)

end Grafx.Query
