import OktoGrafx.Query.SortKey

/-! The language's own `=` and `<`, which know a third answer and are written apart from the keys. -/

namespace Grafx.Query

open NestedTuple

inductive Truth
  | yes
  | no
  | unknown
  deriving DecidableEq

def Truth.of (b : Bool) : Truth := if b then .yes else .no

/-! ## Equality -/

def Scalar.isArithmetic : Scalar → Bool
  | .int _ | .double _ => true
  | _ => false

def Scalar.isDecimal : Scalar → Bool
  | .decimal _ => true
  | _ => false

def numericCompare (a b : Scalar) : Ordering := compare a.position b.position

def Key.same (a b : Key) : Bool := Key.cmp a b == some .eq

def Scalar.equal (a b : Scalar) : Bool :=
  if a.isDecimal || b.isDecimal then a.isNumeric && b.isNumeric && numericCompare a b == .eq
  else if a.isArithmetic && b.isArithmetic then numericCompare a b == .eq
  else Key.same a.freeze b.freeze

def Value.isDecimal : Value → Bool
  | .scalar s => s.isDecimal
  | _ => false

section Equality
variable (texts : Texts)

def equal : Value → Value → Option Bool
  | .scalar a, .scalar b => some (a.equal b)
  | .row a, .row b => some (Key.same (bindingIdentity a) (bindingIdentity b))
  | .row _, _ => some false
  | _, .row _ => some false
  | left, right =>
    -- a decimal is equal to numbers only, before anything is frozen
    if left.isDecimal || right.isDecimal then some false
    else do
      let frozenLeft ← freeze texts left
      let frozenRight ← freeze texts right
      return Key.same frozenLeft frozenRight

def lookup (k : MapKey) : List (MapKey × Value) → Option Value
  | [] => none
  | (l, v) :: items => if MapKey.cmp l k = some .eq then some v else lookup k items

def sameKeys (xs ys : List (MapKey × Value)) : Bool :=
  xs.length == ys.length && xs.all fun x => ys.any fun y => MapKey.cmp y.1 x.1 == some .eq

def Truth.and (t u : Truth) : Truth :=
  match t, u with
  | .no, _ | _, .no => .no
  | .unknown, _ | _, .unknown => .unknown
  | .yes, .yes => .yes

mutual

def queryEqual : Value → Value → Option Truth
  | .scalar .null, _ => some .unknown
  | left, right =>
    match left, right with
    | _, .scalar .null => some .unknown
    | .list xs, .list ys => if xs.length = ys.length then queryEqualItems xs ys else some .no
    | .map xs, .map ys => if sameKeys xs ys then queryEqualEntries xs ys else some .no
    | left, right => (equal texts left right).map Truth.of

def queryEqualItems : List Value → List Value → Option Truth
  | x :: xs, y :: ys => do
    let rest ← queryEqualItems xs ys
    if rest = .no then return .no
    let first ← queryEqual x y
    return first.and rest
  | _, _ => some .yes

def queryEqualEntries : List (MapKey × Value) → List (MapKey × Value) → Option Truth
  | (k, x) :: xs, ys => do
    let rest ← queryEqualEntries xs ys
    if rest = .no then return .no
    let y ← lookup k ys
    let first ← queryEqual x y
    return first.and rest
  | [], _ => some .yes

end

end Equality

/-! ## Order -/

inductive Operator
  | lt
  | le
  | gt
  | ge
  deriving DecidableEq

def Operator.holds : Operator → Ordering → Bool
  | .lt, o => o == .lt
  | .le, o => o != .gt
  | .gt, o => o == .gt
  | .ge, o => o != .lt

def temporalPredicate (op : Operator) (a b : Temporal) : Truth :=
  if a.rank ≠ b.rank then .unknown
  else match a with
    | .duration _ => if a = b ∧ (op = .le ∨ op = .ge) then .yes else .unknown
    | _ => match Key.cmp (temporalOrderKey a) (temporalOrderKey b) with
      | some o => .of (op.holds o)
      | none => .unknown

def Scalar.comparable : Scalar → Scalar → Bool
  | .str _, .str _ | .bytes _, .bytes _ | .bool _, .bool _ => true
  | .timestamp _, .timestamp _ => true
  | a, b => a.isArithmetic && b.isArithmetic

def Scalar.comparand : Scalar → Scalar
  | .timestamp t => .int t.micros
  | s => s

def Scalar.ordered (op : Operator) (a b : Scalar) : Truth :=
  if a.isDecimal || b.isDecimal then
    if a.isNumeric && b.isNumeric then .of (op.holds (numericCompare a b)) else .unknown
  else match a, b with
    | .temporal a, .temporal b => temporalPredicate op a b
    | .temporal _, _ | _, .temporal _ => .unknown
    | a, b => if a.comparable b then .of (op.holds (numericCompare a.comparand b.comparand)) else .unknown

section Order
variable (texts : Texts)

mutual

def ordered (op : Operator) : Value → Value → Option Truth
  | .scalar a, .scalar b => some (a.ordered op b)
  | .list xs, .list ys => orderedItems op xs ys
  | _, _ => some .unknown

def orderedItems (op : Operator) : List Value → List Value → Option Truth
  | x :: xs, y :: ys => do
    let same ← queryEqual texts x y
    if same = .yes then orderedItems op xs ys
    else
      let less ← ordered .lt x y
      let greater ← ordered .gt x y
      if less = .unknown ∨ greater = .unknown then return .unknown
      else if less = .yes ∨ greater = .yes then return (if op = .lt ∨ op = .le then less else greater)
      else orderedItems op xs ys
  | xs, ys => some (.of (op.holds (compare xs.length ys.length)))

end

end Order

end Grafx.Query
