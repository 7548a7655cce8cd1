import Adelie.Types.Value

namespace Adelie

/-- `-0.0` is `0.0`, and every NaN sorts greatest, on one slot. -/
def floatTotalCmp (a b : Float64) : Ordering :=
  match a.isNaN, b.isNaN with
  | true, true => .eq
  | true, false => .gt
  | false, true => .lt
  | false, false => compare a.orderKey b.orderKey

/-- Integer part and fraction. -/
def Decimal.split (d : Decimal) : Int × Int :=
  (d.unscaled.ediv (10 ^ d.scale), d.unscaled.emod (10 ^ d.scale))

/-- Exact across scales: integer parts first, then fractions at 38 digits. -/
def decimalCmp (a b : Decimal) : Ordering :=
  (compare a.split.1 b.split.1).then
    (compare (a.split.2 * 10 ^ (38 - a.scale)) (b.split.2 * 10 ^ (38 - b.scale)))

def scalarCmp : Value → Value → Option Ordering
  | .bool x, .bool y => some (compare x y)
  | .int64 x, .int64 y => some (compare x.val y.val)
  | .uint64 x, .uint64 y => some (compare x.val y.val)
  | .float64 x, .float64 y => some (floatTotalCmp x y)
  | .decimal x, .decimal y => some (decimalCmp x y)
  | .string x, .string y => some (compare x y)
  | .bytes x, .bytes y => some (compare x y)
  | .timestamp x, .timestamp y => some (compare x.val y.val)
  | .date x, .date y => some (compare x.val y.val)
  | .uuid x, .uuid y => some (compare x.val y.val)
  | .ip x, .ip y => some (compare x.val y.val)
  | _, _ => none

mutual

/-- The total order of sort and statistics; `none` across kinds and against NULL. -/
def totalCmp (a b : Value) : Option Ordering :=
  match a with
  | .list xs => match b with
    | .list ys => listCmp xs ys
    | _ => none
  | a => scalarCmp a b

/-- By element, a NULL element after every other; a proper prefix comes first. -/
def listCmp (a b : List Value) : Option Ordering :=
  match a, b with
  | [], [] => some .eq
  | [], _ :: _ => some .lt
  | _ :: _, [] => some .gt
  | x :: xs, y :: ys => do
    let head ← if x.isNull && y.isNull then some .eq else if x.isNull then some .gt
      else if y.isNull then some .lt else totalCmp x y
    if head = .eq then listCmp xs ys else some head

end

def scalarSqlEq : Value → Value → Option Bool
  | .bool x, .bool y => some (x == y)
  | .int64 x, .int64 y => some (x == y)
  | .uint64 x, .uint64 y => some (x == y)
  | .float64 x, .float64 y => some (!x.isNaN && !y.isNaN && x.orderKey == y.orderKey)
  | .decimal x, .decimal y => some (decimalCmp x y == .eq)
  | .string x, .string y => some (x == y)
  | .bytes x, .bytes y => some (x == y)
  | .timestamp x, .timestamp y => some (x == y)
  | .date x, .date y => some (x == y)
  | .uuid x, .uuid y => some (x == y)
  | .ip x, .ip y => some (x == y)
  | _, _ => none

def kleeneAnd : Option Bool → Option Bool → Option Bool
  | some false, _ | _, some false => some false
  | some true, some true => some true
  | _, _ => none

theorem kleeneAnd_eq_true : ∀ {p q : Option Bool}, kleeneAnd p q = some true ↔ p = some true ∧ q = some true := by
  decide

def kleeneOr : Option Bool → Option Bool → Option Bool
  | some true, _ | _, some true => some true
  | some false, some false => some false
  | _, _ => none

mutual

/-- SQL equality: NULL gives unknown, NaN equals nothing. -/
def sqlEq (a b : Value) : Option Bool :=
  match a with
  | .list xs => match b with
    | .list ys => if xs.length ≠ ys.length then some false else listSqlEq xs ys
    | _ => none
  | a => scalarSqlEq a b

/-- Kleene AND over the elements. -/
def listSqlEq (a b : List Value) : Option Bool :=
  match a, b with
  | x :: xs, y :: ys => kleeneAnd (sqlEq x y) (listSqlEq xs ys)
  | _, _ => some true

end

end Adelie
