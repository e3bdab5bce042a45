import OktoGrafx.Index.OrderedKeys
import OktoGrafx.Lib.NestedTuple

/-! Values of the query language, and how Python compares what occurs in a tuple of them. -/

namespace Grafx.Query

open Index (CodePoint Timestamp)
open NestedTuple

abbrev Text := List CodePoint

def text (s : String) : Text := s.toList.map fun c => Fin.ofNat _ c.toNat

theorem text_injective : Function.Injective text := by
  intro s t h
  apply String.toList_injective
  apply List.map_injective_iff.mpr ?_ h
  intro c d hcd
  have hbound : ∀ c : Char, c.toNat < 0x110000 := by
    intro c
    have hvalid : c.toNat.isValidChar := c.valid
    omega
  have hval : c.toNat % 0x110000 = d.toNat % 0x110000 := congrArg Fin.val hcd
  rw [Nat.mod_eq_of_lt (hbound c), Nat.mod_eq_of_lt (hbound d)] at hval
  exact Char.toNat_inj.mp hval

/-! ## Numbers -/

/-- A float other than NaN: a finite one is the rational it stands for, and zero has a second sign. -/
inductive Double
  | finite (q : ℚ)
  | negativeZero
  | infinity
  | negativeInfinity
  deriving DecidableEq

def Double.position : Double → List ℚ
  | finite q => [0, q]
  | negativeZero => [0, 0]
  | infinity => [1]
  | negativeInfinity => [-1]

structure DecimalValue where
  coefficient : ℤ
  precision : ℕ
  scale : ℕ
  precision_pos : 1 ≤ precision
  precision_le : precision ≤ 38
  scale_le : scale ≤ precision
  fits : coefficient.natAbs < 10 ^ precision
  deriving DecidableEq

/-- The exact value; numerator and denominator of it are what `as_integer_ratio` returns. -/
def DecimalValue.ratio (d : DecimalValue) : ℚ := d.coefficient / 10 ^ d.scale

/-! ## Dates and times -/

def nanosecondsPerSecond : ℤ := 1000000000

def nanosecondsPerDay : ℤ := 86400 * nanosecondsPerSecond

def isLeapYear (year : ℤ) : Bool := year % 4 == 0 && (year % 100 != 0 || year % 400 == 0)

def daysInMonth (year month : ℤ) : ℤ :=
  [31, if isLeapYear year then 29 else 28, 31, 30, 31, 30, 31, 31, 30, 31, 30, 31].getD (month - 1).toNat 0

structure DateValue where
  year : ℤ
  month : ℤ
  day : ℤ
  year_range : -999999999 ≤ year ∧ year ≤ 999999999
  month_range : 1 ≤ month ∧ month ≤ 12
  day_range : 1 ≤ day ∧ day ≤ daysInMonth year month
  deriving DecidableEq

def DateValue.epochDay (d : DateValue) : ℤ :=
  let adjusted := d.year - if d.month ≤ 2 then 1 else 0
  let era := adjusted / 400
  let within := adjusted % 400
  let shiftedMonth := if 2 < d.month then d.month - 3 else d.month + 9
  let dayInYear := (153 * shiftedMonth + 2) / 5 + d.day - 1
  era * 146097 + within * 365 + within / 4 - within / 100 + dayInYear - 719468

structure LocalTimeValue where
  nanoseconds : ℤ
  range : 0 ≤ nanoseconds ∧ nanoseconds < nanosecondsPerDay
  deriving DecidableEq

structure TimeValue where
  time : LocalTimeValue
  offsetSeconds : ℤ
  offset_range : -18 * 3600 ≤ offsetSeconds ∧ offsetSeconds ≤ 18 * 3600
  deriving DecidableEq

def TimeValue.utcNanoseconds (t : TimeValue) : ℤ := t.time.nanoseconds - t.offsetSeconds * nanosecondsPerSecond

structure LocalDateTimeValue where
  date : DateValue
  time : LocalTimeValue
  deriving DecidableEq

def LocalDateTimeValue.localEpochSeconds (t : LocalDateTimeValue) : ℤ :=
  t.date.epochDay * 86400 + t.time.nanoseconds / nanosecondsPerSecond

def zoneCharacters : Text := text "ABCDEFGHIJKLMNOPQRSTUVWXYZabcdefghijklmnopqrstuvwxyz0123456789/_+-."

def zoneKey (zone : Text) : Bool :=
  decide (1 ≤ zone.length) && decide (zone.length ≤ 255) && zone.all (zoneCharacters.contains ·) &&
    (zone.splitOn 0x2F).all fun part => !([text "", text ".", text ".."].contains part)

structure DateTimeValue where
  localDateTime : LocalDateTimeValue
  offsetSeconds : ℤ
  zone : Option Text
  offset_range : -18 * 3600 ≤ offsetSeconds ∧ offsetSeconds ≤ 18 * 3600
  zone_key : zone.all zoneKey = true
  deriving DecidableEq

def DateTimeValue.epochSeconds (t : DateTimeValue) : ℤ := t.localDateTime.localEpochSeconds - t.offsetSeconds

def DateTimeValue.nanosecond (t : DateTimeValue) : ℤ := t.localDateTime.time.nanoseconds % nanosecondsPerSecond

def int64 (n : ℤ) : Prop := -2 ^ 63 ≤ n ∧ n < 2 ^ 63

structure DurationValue where
  months : ℤ
  days : ℤ
  seconds : ℤ
  nanoseconds : ℤ
  months_range : int64 months
  days_range : int64 days
  seconds_range : int64 seconds
  nanoseconds_range : 0 ≤ nanoseconds ∧ nanoseconds < nanosecondsPerSecond
  deriving DecidableEq

inductive Temporal
  | dateTime (t : DateTimeValue)
  | localDateTime (t : LocalDateTimeValue)
  | date (d : DateValue)
  | time (t : TimeValue)
  | localTime (t : LocalTimeValue)
  | duration (d : DurationValue)
  deriving DecidableEq

/-! ## Scalars -/

structure Uuid where
  raw : Bytes
  size : raw.length = 16
  deriving DecidableEq

inductive VectorDtype
  | float32
  | float64
  deriving DecidableEq

structure VectorValue where
  values : List Double
  spaceRef : ℤ
  dtype : VectorDtype
  deriving DecidableEq

inductive Scalar
  | null
  | bool (b : Bool)
  | int (n : ℤ)
  | double (x : Double)
  | decimal (d : DecimalValue)
  | str (s : Text)
  | bytes (b : Bytes)
  | timestamp (t : Timestamp)
  | temporal (t : Temporal)
  | uuid (u : Uuid)
  | vector (v : VectorValue)
  deriving DecidableEq

/-- What a tuple of the engine holds: a scalar, or a decimal wrapped to be ordered among numbers. -/
inductive Atom
  | scalar (s : Scalar)
  | decimalOrderKey (d : DecimalValue)
  deriving DecidableEq

inductive Family
  | number
  | text
  | bytes
  | date
  | localTime
  | localDateTime
  deriving DecidableEq

/-- The things among which Python's `<` is defined; booleans are numbers to it. -/
def Scalar.family : Scalar → Option Family
  | .bool _ | .int _ | .double _ => some .number
  | .str _ => some .text
  | .bytes _ => some .bytes
  | .temporal (.date _) => some .date
  | .temporal (.localTime _) => some .localTime
  | .temporal (.localDateTime _) => some .localDateTime
  | _ => none

def Scalar.orderable (a b : Scalar) : Bool := a.family.isSome && a.family == b.family

def Scalar.isNumeric : Scalar → Bool
  | .int _ | .double _ | .decimal _ => true
  | _ => false

def DateValue.parts (d : DateValue) : List ℚ := [(d.year : ℚ), (d.month : ℚ), (d.day : ℚ)]

/-- Where `<` is defined it goes by these numbers. -/
def Scalar.position : Scalar → List ℚ
  | .bool b => [0, if b then 1 else 0]
  | .int n => [0, n]
  | .double x => x.position
  | .decimal d => [0, d.ratio]
  | .str s => s.map fun c => (c.val : ℚ)
  | .bytes b => b.map fun c => (c.val : ℚ)
  | .temporal (.date d) => d.parts
  | .temporal (.localTime t) => [(t.nanoseconds : ℚ)]
  | .temporal (.localDateTime t) => t.date.parts ++ [(t.time.nanoseconds : ℚ)]
  | _ => []

def Scalar.same : Scalar → Scalar → Bool
  | .vector v, .vector w =>
    v.values.map Double.position == w.values.map Double.position && v.spaceRef == w.spaceRef && v.dtype == w.dtype
  | a, b => a == b

def Atom.orderable : Atom → Atom → Bool
  | .scalar a, .scalar b => a.orderable b
  | .decimalOrderKey _, .scalar b => b.isNumeric
  | .scalar a, .decimalOrderKey _ => a.isNumeric
  | .decimalOrderKey _, .decimalOrderKey _ => true

def Atom.position : Atom → List ℚ
  | .scalar s => s.position
  | .decimalOrderKey d => [0, d.ratio]

def Scalar.cmp (a b : Scalar) : Option Ordering :=
  if a.orderable b then some (compare a.position b.position)
  else if a.same b then some .eq
  else none

def Atom.same : Atom → Atom → Bool
  | .scalar a, .scalar b => a.same b
  | _, _ => false

def Atom.cmp (a b : Atom) : Option Ordering :=
  if a.orderable b then some (compare a.position b.position)
  else if a.same b then some .eq
  else none

@[simp] theorem Atom.cmp_scalar (a b : Scalar) : Atom.cmp (.scalar a) (.scalar b) = Scalar.cmp a b := rfl

theorem Scalar.same_refl (a : Scalar) : a.same a = true := by
  unfold Scalar.same
  split <;> simp

theorem Scalar.same_comm (a b : Scalar) : a.same b = b.same a := by
  cases a <;> cases b <;> simp only [Scalar.same, Bool.beq_comm]

theorem Scalar.position_same {a b : Scalar} (h : a.same b = true) : a.position = b.position := by
  unfold Scalar.same at h
  split at h
  · rfl
  · rw [eq_of_beq h]

theorem Scalar.orderable_comm (a b : Scalar) : a.orderable b = b.orderable a := by
  rw [Bool.eq_iff_iff]
  simp only [Scalar.orderable, Bool.and_eq_true, beq_iff_eq]
  grind

theorem Atom.orderable_comm (a b : Atom) : a.orderable b = b.orderable a := by
  cases a <;> cases b
  · exact Scalar.orderable_comm _ _
  all_goals rfl

theorem Atom.same_comm (a b : Atom) : a.same b = b.same a := by
  cases a <;> cases b
  · exact Scalar.same_comm _ _
  all_goals rfl

theorem Atom.cmp_position {a b : Atom} {o : Ordering} (h : Atom.cmp a b = some o) : o = compare a.position b.position := by
  unfold Atom.cmp at h
  split at h
  · exact (Option.some.inj h).symm
  · split at h
    next hsame =>
      cases a with
      | decimalOrderKey d => cases b <;> simp [Atom.same] at hsame
      | scalar a => cases b with
        | decimalOrderKey d => simp [Atom.same] at hsame
        | scalar b =>
          cases h
          have heq : (Atom.scalar a).position = (Atom.scalar b).position := Scalar.position_same hsame
          rw [heq, Std.compare_self]
    next => cases h

theorem Atom.coherent (a : Atom) : Coherent Atom.cmp a where
  refl := by
    cases a with
    | decimalOrderKey d => simp [Atom.cmp, Atom.orderable]
    | scalar s =>
      rw [Atom.cmp_scalar, Scalar.cmp, Scalar.same_refl, Std.compare_self]
      split <;> rfl
  swap b := by
    rw [Atom.cmp, Atom.cmp, Atom.orderable_comm b a, Atom.same_comm b a]
    split
    · have hswap : compare b.position a.position = (compare a.position b.position).swap := Std.OrientedCmp.eq_swap
      rw [hswap]
      rfl
    · split <;> rfl
  through hab hbc hac := by
    rw [Atom.cmp_position hab, Atom.cmp_position hbc, Atom.cmp_position hac]
    apply Through.of_total

/-! ## Values -/

abbrev MapKey := Nested Scalar

def MapKey.cmp : MapKey → MapKey → Option Ordering := Nested.compare Scalar.cmp

theorem MapKey.coherent (k : MapKey) : Coherent MapKey.cmp k :=
  Nested.coherent (fun s => Coherent.on Atom.scalar (Atom.coherent (.scalar s))) k

inductive TableKind
  | node
  | rel
  deriving DecidableEq

structure PendingRowRef where
  txnId : ℤ
  tableId : ℤ
  token : ℤ
  deriving DecidableEq

/-- What a binding holds for its row: the reference of a staged insert, nothing, or a stored place. -/
inductive RowRef
  | pending (reference : PendingRowRef)
  | absent
  | stored
  deriving DecidableEq

structure TableDef where
  tableId : ℤ
  kind : TableKind
  deriving DecidableEq

structure RowBinding where
  table : TableDef
  ref : RowRef
  recordId : ℤ
  version : ℤ
  deriving DecidableEq

inductive Value
  | scalar (s : Scalar)
  | list (items : List Value)
  | map (items : List (MapKey × Value))
  | row (binding : RowBinding)
  | path (nodes relationships : List RowBinding)

end Grafx.Query
