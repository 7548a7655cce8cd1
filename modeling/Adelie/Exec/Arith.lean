import Adelie.Exec.Cast

namespace Adelie

namespace Arith

def opSymbol : ArithOp → String
  | .add => "+"
  | .sub => "-"
  | .mul => "*"
  | .div => "/"
  | .mod => "%"

def overflow (op : ArithOp) (l r : DataType) : ExecError := .overflow s!"{l.display} {opSymbol op} {r.display}"

def isNumeric : DataType → Bool := Cast.isNumeric

/-- The integer digits of the wider operand, the scale and one for a carry, capped at 38. -/
def addSubPrecision (scale : Nat) (a b : DecimalType) : Nat :=
  min (max (a.precision - a.scale) (b.precision - b.scale) + scale + 1) 38

/-- `expect` on a computed DECIMAL. -/
def computedDecimal (precision scale : Nat) : Except ExecError DataType :=
  match DecimalType.new precision scale with
  | .ok t => .ok (.decimal t)
  | .error _ => .error (.panicked "computed decimal type is always valid")

def decimalArithType (op : ArithOp) (a b : DecimalType) : Except ExecError DataType :=
  match op with
  | .add | .sub | .mod => computedDecimal (addSubPrecision (max a.scale b.scale) a b) (max a.scale b.scale)
  | .mul =>
    if 38 < a.scale + b.scale then .error (.plan s!"DECIMAL multiply scale {a.scale + b.scale} exceeds 38")
    else computedDecimal (min (a.precision + b.precision) 38) (a.scale + b.scale)
  | .div => .ok .float64

def arithType (op : ArithOp) (lt rt : DataType) : Except ExecError DataType :=
  if isNumeric lt && isNumeric rt then
    match lt, rt with
    | .decimal a, .decimal b => decimalArithType op a b
    | lt, rt =>
      if lt = rt then .ok lt
      else .error (.plan s!"arithmetic operands must be the same numeric kind, found {lt.display} and {rt.display}")
  else .error (.plan s!"arithmetic operands must be numeric, found {lt.display} and {rt.display}")

/-- `checked_rem`: nothing when the division itself leaves the range. -/
def checkedRem {α : Type} (checked : Int → Option α) (a b : Int) : Option α :=
  (checked (a.tdiv b)).bind fun _ => checked (a.tmod b)

/-- `checked_*` at one integer type; a zero divisor gives NULL. -/
def applyChecked {α : Type} (checked : Int → Option α) (overflow : ExecError) (op : ArithOp) (a b : Int) :
    Except ExecError (Option α) :=
  let result := match op with
    | .add => some (checked (a + b))
    | .sub => some (checked (a - b))
    | .mul => some (checked (a * b))
    | .div => if b = 0 then none else some (checked (a.tdiv b))
    | .mod => if b = 0 then none else some (checkedRem checked a b)
  match result with
  | none => .ok none
  | some none => .error overflow
  | some (some n) => .ok (some n)

def applyInt64 (op : ArithOp) (a b : I64) : Except ExecError (Option I64) :=
  applyChecked toI64? (overflow op .int64 .int64) op a.val b.val

def applyUInt64 (op : ArithOp) (a b : U64) : Except ExecError (Option U64) :=
  applyChecked toU64? (overflow op .uint64 .uint64) op a.val b.val

/-- NULL where either side is. -/
def rowWith (apply : Value → Value → Except ExecError Value) (v w : Value) : Except ExecError Value :=
  if v.isNull || w.isNull then .ok .null else apply v w

/-- One cell for each row of both columns. -/
def rowsWith (apply : Value → Value → Except ExecError Value) : List Value → List Value → Except ExecError (List Value)
  | [], _ => .ok []
  | _ :: _, [] => .error (.panicked "index out of bounds")
  | v :: ls, w :: rs => do
    let cell ← rowWith apply v w
    return cell :: (← rowsWith apply ls rs)

def int64Row (op : ArithOp) : Value → Value → Except ExecError Value
  | .int64 a, .int64 b => (applyInt64 op a b).map (·.elim .null .int64)
  | _, _ => .error (.panicked "caller checked the column is INT64")

def uint64Row (op : ArithOp) : Value → Value → Except ExecError Value
  | .uint64 a, .uint64 b => (applyUInt64 op a b).map (·.elim .null .uint64)
  | _, _ => .error (.panicked "caller checked the column is UINT64")

/-- `unscaled` at `to` digits, `from` digits being fewer: nothing past an `i128`. -/
def rescaleUp (unscaled : Int) (source target : Nat) : Option Int :=
  if target = source then some unscaled else Cast.checkedI128 (unscaled * 10 ^ (target - source))

def checkDecimalRange (unscaled : Int) (precision : Nat) : Bool := unscaled.natAbs < 10 ^ precision

section Rows

variable (P : Platform) (op : ArithOp)

def float64Row : Value → Value → Except ExecError Value
  | .float64 a, .float64 b =>
    .ok (.float64 (match op with
      | .add => P.add a b
      | .sub => P.sub a b
      | .mul => P.mul a b
      | .div => P.div a b
      | .mod => P.rem a b))
  | _, _ => .error (.panicked "caller checked the column is FLOAT64")

/-- DECIMAL division is a FLOAT64 quotient, NULL by zero. -/
def decimalDivRow (a b : DecimalType) : Value → Value → Except ExecError Value
  | .decimal d, .decimal e =>
    if e.unscaled = 0 then .ok .null
    else .ok (.float64 (P.div (P.div (P.ofInt d.unscaled) (P.ofInt (10 ^ a.scale)))
      (P.div (P.ofInt e.unscaled) (P.ofInt (10 ^ b.scale)))))
  | _, _ => .error (.panicked "caller checked the column is DECIMAL")

/-- The digits of a row's result at the result scale; NULL for a zero divisor, nothing past an `i128`. -/
def decimalDigits (a b out : DecimalType) (l r : Int) : Option (Option Int) :=
  match op with
  | .mul => (Cast.checkedI128 (l * r)).map some
  | _ => do
    let lv ← rescaleUp l a.scale out.scale
    let rv ← rescaleUp r b.scale out.scale
    match op with
    | .mod => if rv = 0 then some none else (checkedRem Cast.checkedI128 lv rv).map some
    | .sub => (Cast.checkedI128 (lv - rv)).map some
    | _ => (Cast.checkedI128 (lv + rv)).map some

def decimalRow (a b out : DecimalType) : Value → Value → Except ExecError Value
  | .decimal d, .decimal e =>
    match decimalDigits op a b out d.unscaled e.unscaled with
    | none => .error (overflow op (.decimal a) (.decimal b))
    | some none => .ok .null
    | some (some result) =>
      if checkDecimalRange result out.precision then
        match Decimal.new result out.scale with
        | .ok d => .ok (.decimal d)
        | .error _ => .error (.panicked "decimal arith always builds a valid column")
      else .error (overflow op (.decimal a) (.decimal b))
  | _, _ => .error (.panicked "caller checked the column is DECIMAL")

def column (ty : DataType) (apply : Value → Value → Except ExecError Value) (l r : Column) : Except ExecError Column := do
  return ⟨ty, ← rowsWith apply l.cells r.cells⟩

def int64Arith (l r : Column) : Except ExecError Column := column .int64 (int64Row op) l r

def uint64Arith (l r : Column) : Except ExecError Column := column .uint64 (uint64Row op) l r

def float64Arith (l r : Column) : Except ExecError Column := column .float64 (float64Row P op) l r

def decimalArith (l : Column) (a : DecimalType) (r : Column) (b : DecimalType) (out : DataType) : Except ExecError Column :=
  if op = .div then column .float64 (decimalDivRow P a b) l r
  else match out with
    | .decimal t => column out (decimalRow op a b t) l r
    | _ => .error (.panicked "DECIMAL Add/Sub/Mul/Mod always types to DECIMAL")

def arith (l r : Column) (out : DataType) : Except ExecError Column :=
  match l.ty, r.ty with
  | .int64, .int64 => int64Arith op l r
  | .uint64, .uint64 => uint64Arith op l r
  | .float64, .float64 => float64Arith P op l r
  | .decimal a, .decimal b => decimalArith P op l a r b out
  | lt, rt => .error (.plan s!"cannot apply arithmetic to {lt.display} and {rt.display}")

end Rows

end Arith

end Adelie
