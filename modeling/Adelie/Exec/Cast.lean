import Adelie.Exec.Eval
import Adelie.Types.Parse
import Adelie.Types.Text

namespace Adelie

namespace Cast

def isNumeric : DataType → Bool
  | .int64 | .uint64 | .float64 | .decimal _ => true
  | _ => false

/-- Any type to itself; beyond that never LIST, and only the pairs named here. -/
def castable (source target : DataType) : Bool :=
  source = target || match source, target with
    | .list _, _ | _, .list _ => false
    | a, b =>
      (isNumeric a && isNumeric b) || match a, b with
        | .bool, .int64 | .bool, .uint64 | .int64, .bool | .uint64, .bool => true
        | .timestamp, .date | .date, .timestamp => true
        | .uuid, .bytes | .ip, .bytes => true
        | _, .string | .string, _ => true
        | _, _ => false

def nsPerDay : Int := 86400000000000

section Values

variable (P : Platform)

def castErr (v : Value) (target : DataType) : ExecError :=
  match P.toText v with
  | some text => .cast text target
  | none => .panicked "non-null, non-LIST value always has text"

/-- `ok_or_else` with the cast's own error. -/
def okOrCastErr (v : Value) (target : DataType) : Option Value → Except ExecError Value
  | some w => .ok w
  | none => .error (castErr P v target)

/-- What a value of the type checked beforehand holds. -/
def held {α : Type} : Option α → Except ExecError α
  | some x => .ok x
  | none => .error (.panicked "checked by castable")

def boolVal (v : Value) : Except ExecError Bool := held (match v with | .bool b => some b | _ => none)
def intVal (v : Value) : Except ExecError I64 := held (match v with | .int64 n => some n | _ => none)
def uintVal (v : Value) : Except ExecError U64 := held (match v with | .uint64 n => some n | _ => none)
def tsVal (v : Value) : Except ExecError I64 := held (match v with | .timestamp n => some n | _ => none)
def dateVal (v : Value) : Except ExecError I32 := held (match v with | .date n => some n | _ => none)
def uuidVal (v : Value) : Except ExecError Octets16 := held (match v with | .uuid u => some u | _ => none)
def ipVal (v : Value) : Except ExecError Octets16 := held (match v with | .ip i => some i | _ => none)

def timestampToDate (ns : I64) : Option I32 := toI32? (ns.val / nsPerDay)

def dateToTimestampNs (days : I32) : Option I64 := toI64? (days.val * nsPerDay)

/-- `unscaled` divided by a power of ten, half away from zero. -/
def roundHalfAway (unscaled divisor : Int) : Int :=
  let q := unscaled.tdiv divisor
  let r := unscaled.tmod divisor
  if divisor.natAbs ≤ r.natAbs * 2 then q + r.sign else q

def checkedI128 (n : Int) : Option Int := if -2 ^ 127 ≤ n ∧ n < 2 ^ 127 then some n else none

/-- The digits as a DECIMAL of the type, unless they are more than its precision. -/
def withinPrecision (t : DecimalType) (unscaled : Int) : Option Value :=
  if 10 ^ t.precision ≤ unscaled.natAbs then none else (Decimal.new unscaled t.scale).toOption.map .decimal

def intToDecimal (n : Int) (t : DecimalType) : Option Value :=
  (checkedI128 (n * 10 ^ t.scale)).bind (withinPrecision t)

/-- `round` halves away from zero; a result past the target's range is refused. -/
def floatToI64Rounded (f : Float64) : Option I64 := f.round?.bind toI64?

def floatToU64Rounded (f : Float64) : Option U64 := f.round?.bind toU64?

def floatToDecimal (f : Float64) (t : DecimalType) : Option Value :=
  if f.isFinite then
    match (P.mul f (P.ofInt (10 ^ t.scale))).round?, (P.ofInt (10 ^ t.precision)).toInt? with
    | some rounded, some limit =>
      if -limit ≤ rounded ∧ rounded < limit then (Decimal.new rounded t.scale).toOption.map .decimal else none
    | _, _ => none
  else none

def decimalRounded (d : Decimal) : Int :=
  if d.scale = 0 then d.unscaled else roundHalfAway d.unscaled (10 ^ d.scale)

def decimalToInt64Rounded (d : Decimal) : Option I64 := toI64? (decimalRounded d)

def decimalToUInt64Rounded (d : Decimal) : Option U64 := toU64? (decimalRounded d)

def decimalToDecimal (d : Decimal) (t : DecimalType) : Option Value :=
  let unscaled := match compare t.scale d.scale with
    | .eq => some d.unscaled
    | .gt => checkedI128 (d.unscaled * 10 ^ (t.scale - d.scale))
    | .lt => some (roundHalfAway d.unscaled (10 ^ (d.scale - t.scale)))
  unscaled.bind (withinPrecision t)

def castNumeric (v : Value) (target : DataType) : Except ExecError Value :=
  match v, target with
  | .int64 n, .uint64 => okOrCastErr P v target ((toU64? n.val).map .uint64)
  | .int64 n, .float64 => .ok (.float64 (P.ofInt n.val))
  | .int64 n, .decimal t => okOrCastErr P v target (intToDecimal n.val t)
  | .uint64 n, .int64 => okOrCastErr P v target ((toI64? n.val).map .int64)
  | .uint64 n, .float64 => .ok (.float64 (P.ofInt n.val))
  | .uint64 n, .decimal t => okOrCastErr P v target (intToDecimal n.val t)
  | .float64 f, .int64 => okOrCastErr P v target ((floatToI64Rounded f).map .int64)
  | .float64 f, .uint64 => okOrCastErr P v target ((floatToU64Rounded f).map .uint64)
  | .float64 f, .decimal t => okOrCastErr P v target (floatToDecimal P f t)
  | .decimal d, .int64 => okOrCastErr P v target ((decimalToInt64Rounded d).map .int64)
  | .decimal d, .uint64 => okOrCastErr P v target ((decimalToUInt64Rounded d).map .uint64)
  | .decimal d, .float64 => .ok (.float64 (P.div (P.ofInt d.unscaled) (P.ofInt (10 ^ d.scale))))
  | .decimal d, .decimal t => okOrCastErr P v target (decimalToDecimal d t)
  | _, _ => .error (.panicked "cast_numeric called with a non-numeric pair")

/-- STRING goes by the value's text; a refused text is the error's own value. -/
def castText (v : Value) (target : DataType) : Except ExecError Value :=
  match v with
  | .string s =>
    match P.fromText s target with
    | .ok (some w) => .ok w
    | .ok none => .error (.cast s target)
    | .error message => .error (.panicked message)
  | _ => .error (.panicked "from is STRING")

theorem bool_i64 (b : Bool) : -2 ^ (64 - 1) ≤ (b.toNat : Int) ∧ (b.toNat : Int) < 2 ^ (64 - 1) := by
  cases b <;> decide

theorem bool_u64 (b : Bool) : b.toNat < 2 ^ 64 := by
  cases b <;> decide

def castValue (v : Value) (source target : DataType) : Except ExecError Value :=
  if target = .string then
    match P.toText v with
    | some text => .ok (.string text)
    | none => .error (.panicked "non-null, non-LIST value always has text")
  else if source = .string then castText P v target
  else if isNumeric source && isNumeric target then castNumeric P v target
  else match source, target with
    | .bool, .int64 => do return .int64 ⟨(← boolVal v).toNat, bool_i64 _⟩
    | .bool, .uint64 => do return .uint64 ⟨(← boolVal v).toNat, bool_u64 _⟩
    | .int64, .bool => do return .bool ((← intVal v).val != 0)
    | .uint64, .bool => do return .bool ((← uintVal v).val != 0)
    | .timestamp, .date => do okOrCastErr P v target ((timestampToDate (← tsVal v)).map .date)
    | .date, .timestamp => do okOrCastErr P v target ((dateToTimestampNs (← dateVal v)).map .timestamp)
    | .uuid, .bytes => do return .bytes (← uuidVal v).val
    | .ip, .bytes => do return .bytes (← ipVal v).val
    | _, _ => .error (.panicked "castable() only allows the pairs handled here")

/-- A NULL stays NULL; anything else is cast and pushed on the builder. -/
def castRow (source target : DataType) (v : Value) : Except ExecError Value :=
  if v.isNull then .ok .null
  else do
    let casted ← castValue P v source target
    match coerce casted target with
    | some cell => .ok cell
    | none => .error (.panicked "cast_value always produces a value that fits to")

def castRows (source target : DataType) : List Value → List Value → Except ExecError (List Value)
  | built, [] => .ok built
  | built, v :: rest => do
    let cell ← castRow P source target v
    ensure (offsetsFit (built ++ [cell])) (.panicked "cast_value always produces a value that fits to")
    castRows source target (built ++ [cell]) rest

/-- Row by row: any row's failure fails the whole call. -/
def cast (col : Column) (target : DataType) : Except ExecError Column :=
  if col.ty = target then .ok col
  else if castable col.ty target then do
    return ⟨target, ← castRows P col.ty target [] col.cells⟩
  else .error (.plan s!"cannot cast {col.ty.display} to {target.display}")

end Values

end Cast

end Adelie
