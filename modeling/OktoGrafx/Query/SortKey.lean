import OktoGrafx.Query.Value

/-! The keys rows are deduplicated and ordered by, as the tuples the engine builds. Nothing stands for a
comparison that raises. -/

namespace Grafx.Query

open NestedTuple

abbrev Key := Nested Atom

namespace Key

def int (n : ℤ) : Key := .atom (.scalar (.int n))

def str (s : Text) : Key := .atom (.scalar (.str s))

def tag (s : String) : Key := str (text s)

def cmp : Key → Key → Option Ordering := Nested.compare Atom.cmp

theorem coherent (k : Key) : Coherent cmp k := Nested.coherent Atom.coherent k

end Key

/-- Python's texts: `repr` of a finite nonzero float and of bytes, and `str` of a key. -/
structure Texts where
  reprDouble : ℚ → Text
  reprBytes : Bytes → Text
  strKey : MapKey → Text

/-! ## Identities of rows -/

def bindingIdentity (b : RowBinding) : Key :=
  match b.ref with
  | .pending r => .tuple [Key.tag "pending", Key.int r.txnId, Key.int r.tableId, Key.int r.token]
  | .absent =>
    if b.recordId = 0 then .tuple [Key.tag "held", Key.int b.table.tableId, Key.int b.version]
    else .tuple [Key.tag "stored", Key.int b.table.tableId, Key.int b.recordId]
  | .stored => .tuple [Key.tag "stored", Key.int b.table.tableId, Key.int b.recordId]

def freezePath (nodes relationships : List RowBinding) : Key :=
  .tuple [Key.tag "path", .tuple (nodes.map bindingIdentity), .tuple (relationships.map bindingIdentity)]

/-! ## Frozen values -/

/-- Whether a decimal is exactly a float: over a power of two, with at most 53 significant bits. -/
def isDouble (q : ℚ) : Bool :=
  (List.range 1024).any (fun k => q.den == 2 ^ k) &&
    (List.range 1024).any fun k => q.num.natAbs % 2 ^ k == 0 && decide (q.num.natAbs / 2 ^ k < 2 ^ 53)

def decimalGroupKey (d : DecimalValue) : Key :=
  if d.ratio.den = 1 then .tuple [Key.tag "number", Key.int d.ratio.num]
  else if isDouble d.ratio then .tuple [Key.tag "number", .atom (.scalar (.double (.finite d.ratio)))]
  else .tuple [Key.tag "decimal", Key.int d.ratio.num, Key.int d.ratio.den]

def Double.frozen : Double → Scalar
  | .finite q => if q.den = 1 then .int q.num else .double (.finite q)
  | .negativeZero => .int 0
  | x => .double x

def Temporal.className : Temporal → String
  | .dateTime _ => "DateTimeValue"
  | .localDateTime _ => "LocalDateTimeValue"
  | .date _ => "DateValue"
  | .time _ => "TimeValue"
  | .localTime _ => "LocalTimeValue"
  | .duration _ => "DurationValue"

def Scalar.className : Scalar → String
  | .null => "NoneType"
  | .bool _ => "bool"
  | .int _ => "int"
  | .double _ => "float"
  | .decimal _ => "DecimalValue"
  | .str _ => "str"
  | .bytes _ => "bytes"
  | .timestamp _ => "Timestamp"
  | .temporal t => t.className
  | .uuid _ => "Uuid"
  | .vector _ => "VectorValue"

def Scalar.freeze (s : Scalar) : Key :=
  match s with
  | .int n => .tuple [Key.tag "number", Key.int n]
  | .double x => .tuple [Key.tag "number", .atom (.scalar x.frozen)]
  | .decimal d => decimalGroupKey d
  | .bytes b => .tuple [Key.tag "bytes", .atom (.scalar (.bytes b))]
  | s => .tuple [Key.tag "scalar", Key.tag s.className, .atom (.scalar s)]

section Freeze
variable (texts : Texts)

mutual

def freeze : Value → Option Key
  | .row b => some (.tuple [Key.tag "binding", bindingIdentity b])
  | .path nodes relationships => some (freezePath nodes relationships)
  | .scalar s => some s.freeze
  | .list items => do
    let frozen ← freezeItems items
    return .tuple [Key.tag "list", .tuple frozen]
  | .map items => do
    let frozen ← freezeEntries items
    let entries ← sorted Key.cmp frozen
    return .tuple [Key.tag "map", .tuple entries]

def freezeItems : List Value → Option (List Key)
  | [] => some []
  | v :: vs => do
    let frozen ← freeze v
    let rest ← freezeItems vs
    return frozen :: rest

def freezeEntries : List (MapKey × Value) → Option (List Key)
  | [] => some []
  | (k, v) :: items => do
    let frozen ← freeze v
    let rest ← freezeEntries items
    return .tuple [Key.str (texts.strKey k), frozen] :: rest

end

end Freeze

/-! ## Sort keys -/

def Temporal.rank : Temporal → ℤ
  | .dateTime _ => 0
  | .localDateTime _ => 1
  | .date _ => 2
  | .time _ => 3
  | .localTime _ => 4
  | .duration _ => 5

def Temporal.orderParts : Temporal → List Key
  | .date d => [Key.int d.epochDay]
  | .localTime t => [Key.int t.nanoseconds]
  | .localDateTime t => [Key.int t.date.epochDay, Key.int t.time.nanoseconds]
  | .time t => [Key.int t.utcNanoseconds, Key.int t.offsetSeconds]
  | .dateTime t => [Key.int t.epochSeconds, Key.int t.nanosecond, Key.int t.offsetSeconds, Key.str (t.zone.getD [])]
  | .duration d =>
    [Key.int (d.months * 2629746 + d.days * 86400 + d.seconds), Key.int d.nanoseconds, Key.int d.months, Key.int d.days, Key.int d.seconds]

def ranked (k : ℤ × Key) : Key := .tuple [Key.int k.1, k.2]

def temporalOrderKey (t : Temporal) : Key := ranked (t.rank, .tuple t.orderParts)

def Double.repr (texts : Texts) : Double → Text
  | .finite q => if q = 0 then text "0.0" else texts.reprDouble q
  | .negativeZero => text "-0.0"
  | .infinity => text "inf"
  | .negativeInfinity => text "-inf"

def reprTuple : List Text → Text
  | [] => text "()"
  | [item] => text "(" ++ item ++ text ",)"
  | items => text "(" ++ (text ", ").intercalate items ++ text ")"

def VectorDtype.repr : VectorDtype → Text
  | .float32 => text "'float32'"
  | .float64 => text "'float64'"

def VectorValue.repr (texts : Texts) (v : VectorValue) : Text :=
  text "VectorValue(values=" ++ reprTuple (v.values.map (Double.repr texts)) ++ text ", space_ref=" ++
    text (toString v.spaceRef) ++ text ", dtype=" ++ v.dtype.repr ++ text ")"

def Uuid.repr (texts : Texts) (u : Uuid) : Text := text "Uuid(raw=" ++ texts.reprBytes u.raw ++ text ")"

def Scalar.sortKey (texts : Texts) : Scalar → ℤ × Key
  | .null => (12, Key.int 0)
  | .int n => (7, .tuple [Key.int 0, Key.int n])
  | .double x => (7, .tuple [Key.int 0, .atom (.scalar (.double x))])
  | .str s => (5, Key.str s)
  | .bool b => (6, Key.int b.toNat)
  | .decimal d => (7, .tuple [Key.int 0, .atom (.decimalOrderKey d)])
  | .bytes b => (10, .atom (.scalar (.bytes b)))
  | .timestamp t => (9, Key.int t.micros)
  | .temporal t => (8, temporalOrderKey t)
  | .uuid u => (11, Key.str (u.repr texts))
  | .vector v => (11, Key.str (v.repr texts))

def rowRank : TableKind → ℤ
  | .node => 1
  | .rel => 2

def itemCmp (a b : MapKey × Key) : Option Ordering := MapKey.cmp a.1 b.1

def itemKey (item : MapKey × Key) : Key := .tuple [item.1.map Atom.scalar, item.2]

section SortKey
variable (texts : Texts)

mutual

def sortKey : Value → Option (ℤ × Key)
  | .scalar s => some (s.sortKey texts)
  | .map items => do
    let keyed ← sortKeyEntries items
    let entries ← sorted itemCmp keyed
    return (0, .tuple (entries.map itemKey))
  | .row b => some (rowRank b.table.kind, bindingIdentity b)
  | .path nodes relationships => some (4, freezePath nodes relationships)
  | .list items => do
    let keys ← sortKeyItems items
    return (3, .tuple keys)

def sortKeyItems : List Value → Option (List Key)
  | [] => some []
  | v :: vs => do
    let key ← sortKey v
    let rest ← sortKeyItems vs
    return ranked key :: rest

def sortKeyEntries : List (MapKey × Value) → Option (List (MapKey × Key))
  | [] => some []
  | (k, v) :: items => do
    let key ← sortKey v
    let rest ← sortKeyEntries items
    return (k, ranked key) :: rest

end

end SortKey

end Grafx.Query
