import Mathlib

namespace Adelie

/-- The integers a `w`-bit two's-complement word holds. -/
abbrev Signed (w : Nat) := {n : Int // -2 ^ (w - 1) ≤ n ∧ n < 2 ^ (w - 1)}

abbrev I64 := Signed 64
abbrev I32 := Signed 32
abbrev U64 := {n : Nat // n < 2 ^ 64}

/-- A rejected `DataType` or `Decimal` construction. -/
inductive TypeError where
  | decimalPrecision (precision : Nat)
  | decimalScale (precision scale : Nat)
  | nestedList
deriving DecidableEq, Repr

/-- `DECIMAL(precision, scale)`: the two bounds are the constructor's own checks. -/
structure DecimalType where
  precision : Nat
  scale : Nat
  precision_pos : 1 ≤ precision
  precision_le : precision ≤ 38
  scale_le : scale ≤ precision
deriving DecidableEq, Repr

def DecimalType.new (precision scale : Nat) : Except TypeError DecimalType :=
  if bound : 1 ≤ precision ∧ precision ≤ 38 then
    if small : scale ≤ precision then
      .ok ⟨precision, scale, bound.1, bound.2, small⟩
    else .error (.decimalScale precision scale)
  else .error (.decimalPrecision precision)

/-- The types a LIST may hold: every type but LIST itself. -/
inductive ScalarType where
  | bool | int64 | uint64 | float64
  | decimal (type : DecimalType)
  | string | bytes | timestamp | date | uuid | ip
deriving DecidableEq, Repr

inductive DataType where
  | scalar (type : ScalarType)
  | list (element : ScalarType)
deriving DecidableEq, Repr

namespace DataType

@[match_pattern] abbrev bool : DataType := .scalar .bool
@[match_pattern] abbrev int64 : DataType := .scalar .int64
@[match_pattern] abbrev uint64 : DataType := .scalar .uint64
@[match_pattern] abbrev float64 : DataType := .scalar .float64
@[match_pattern] abbrev decimal (type : DecimalType) : DataType := .scalar (.decimal type)
@[match_pattern] abbrev string : DataType := .scalar .string
@[match_pattern] abbrev bytes : DataType := .scalar .bytes
@[match_pattern] abbrev timestamp : DataType := .scalar .timestamp
@[match_pattern] abbrev date : DataType := .scalar .date
@[match_pattern] abbrev uuid : DataType := .scalar .uuid
@[match_pattern] abbrev ip : DataType := .scalar .ip

end DataType

def ScalarType.display : ScalarType → String
  | .bool => "BOOL"
  | .int64 => "INT64"
  | .uint64 => "UINT64"
  | .float64 => "FLOAT64"
  | .decimal t => s!"DECIMAL({t.precision},{t.scale})"
  | .string => "STRING"
  | .bytes => "BYTES"
  | .timestamp => "TIMESTAMP"
  | .date => "DATE"
  | .uuid => "UUID"
  | .ip => "IP"

def DataType.display : DataType → String
  | .scalar t => t.display
  | .list t => "LIST<" ++ t.display ++ ">"

/-- `unscaled * 10^-scale`. -/
structure Decimal where
  unscaled : Int
  scale : Nat
  scale_le : scale ≤ 38
  small : unscaled.natAbs < 10 ^ 38
deriving DecidableEq, Repr

def Decimal.new (unscaled : Int) (scale : Nat) : Except TypeError Decimal :=
  if bound : scale ≤ 38 then
    if small : unscaled.natAbs < 10 ^ 38 then .ok ⟨unscaled, scale, bound, small⟩
    else .error (.decimalPrecision 39)
  else .error (.decimalScale 38 scale)

/-- An IEEE 754 binary64, by its bit pattern: NaN payloads and the sign of zero are kept. -/
structure Float64 where
  bits : U64
deriving DecidableEq, Repr

namespace Float64

def negative (f : Float64) : Bool := 2 ^ 63 ≤ f.bits.val
def magnitude (f : Float64) : Nat := f.bits.val % 2 ^ 63
def exponent (f : Float64) : Nat := f.magnitude / 2 ^ 52
def fraction (f : Float64) : Nat := f.magnitude % 2 ^ 52
def isNaN (f : Float64) : Bool := 2047 * 2 ^ 52 < f.magnitude
def isFinite (f : Float64) : Bool := f.exponent < 2047

/-- Finite values in numeric order; both zeros land on `0`. -/
def orderKey (f : Float64) : Int := if f.negative then -f.magnitude else f.magnitude

/-- A finite value is `significand * 2 ^ (scale - 1075)`. -/
def significand (f : Float64) : Nat := if f.exponent = 0 then f.fraction else 2 ^ 52 + f.fraction
def scale (f : Float64) : Nat := if f.exponent = 0 then 1 else f.exponent

/-- The integer a finite float with no fractional part denotes. -/
def toInt? (f : Float64) : Option Int :=
  if f.isFinite then
    let magnitude :=
      if 1075 ≤ f.scale then some (f.significand * 2 ^ (f.scale - 1075))
      else if f.significand % 2 ^ (1075 - f.scale) = 0 then
        some (f.significand / 2 ^ (1075 - f.scale))
      else none
    magnitude.map fun n => if f.negative then -(n : Int) else n
  else none

/-- `n as f64` for a magnitude of at most `2^53`, where the conversion is exact. -/
def ofNat (negative : Bool) (n : Nat) : Float64 :=
  let sign := if negative then 2 ^ 63 else 0
  let body := if n = 0 then 0 else (1023 + n.log2) * 2 ^ 52 + (n * 2 ^ 52 / 2 ^ n.log2 - 2 ^ 52)
  ⟨⟨(sign + body) % 2 ^ 64, Nat.mod_lt _ (by decide)⟩⟩

end Float64

/-- 16 bytes, of a UUID or an IP address. -/
abbrev Octets16 := {bytes : List UInt8 // bytes.length = 16}

/-- A runtime value, one variant per `DataType` kind. -/
inductive Value where
  | null
  | bool (b : Bool)
  | int64 (n : I64)
  | uint64 (n : U64)
  | float64 (f : Float64)
  | decimal (d : Decimal)
  | string (s : String)
  | bytes (b : List UInt8)
  | timestamp (ns : I64)
  | date (days : I32)
  | uuid (octets : Octets16)
  | ip (octets : Octets16)
  | list (items : List Value)

def Value.isNull : Value → Bool
  | .null => true
  | _ => false

/-- A value stored in a column of a scalar type is NULL or of that exact type: a DECIMAL
    carries the column's own scale and stays within its precision. -/
def Value.HasScalarType : Value → ScalarType → Prop
  | .null, _ => True
  | .bool _, .bool | .int64 _, .int64 | .uint64 _, .uint64 | .float64 _, .float64
  | .string _, .string | .bytes _, .bytes | .timestamp _, .timestamp | .date _, .date
  | .uuid _, .uuid | .ip _, .ip => True
  | .decimal d, .decimal t => d.scale = t.scale ∧ d.unscaled.natAbs < 10 ^ t.precision
  | _, _ => False

def Value.HasType : Value → DataType → Prop
  | v, .scalar t => v.HasScalarType t
  | .null, .list _ => True
  | .list items, .list t => ∀ v ∈ items, v.HasScalarType t
  | _, .list _ => False

/-- A named, typed slot in a batch. -/
structure Field where
  name : String
  ty : DataType
deriving DecidableEq, Repr

end Adelie
