import Adelie.Exec.Bitmap
import Adelie.Lib.Offsets
import Adelie.Segment.Wire
import Adelie.Types.Fit

namespace Adelie

namespace Physical

/-- A rejected column or builder operation. -/
inductive ColumnError where
  | doesNotFit (value : Value) (ty : DataType)
  | tooLarge
  | malformed (message : String)

/-- The kinds of one slot a row, all slots as wide. -/
inductive Fixed where
  | int64 | uint64 | float64 | decimal | timestamp | date | uuid | ip
deriving DecidableEq

namespace Fixed

abbrev Carrier : Fixed → Type
  | .int64 | .timestamp => I64
  | .uint64 => U64
  | .float64 => Float64
  | .decimal => Int
  | .date => I32
  | .uuid | .ip => Octets16

theorem zero_i64 : -2 ^ (64 - 1) ≤ (0 : Int) ∧ (0 : Int) < 2 ^ (64 - 1) := by decide

theorem zero_u64 : 0 < 2 ^ 64 := by decide

theorem zero_i32 : -2 ^ (32 - 1) ≤ (0 : Int) ∧ (0 : Int) < 2 ^ (32 - 1) := by decide

theorem length_zeros : (List.replicate 16 (0 : UInt8)).length = 16 := rfl

/-- What a null row's slot holds. -/
def zero : (k : Fixed) → k.Carrier
  | .int64 | .timestamp => ⟨0, zero_i64⟩
  | .uint64 => ⟨0, zero_u64⟩
  | .float64 => ⟨⟨0, zero_u64⟩⟩
  | .decimal => (0 : Int)
  | .date => ⟨0, zero_i32⟩
  | .uuid | .ip => ⟨List.replicate 16 0, length_zeros⟩

/-- The value of a slot; a decimal takes its scale from the column's type. -/
def value (ty : DataType) : (k : Fixed) → k.Carrier → Option Value
  | .int64, n => some (.int64 n)
  | .uint64, n => some (.uint64 n)
  | .float64, f => some (.float64 f)
  | .decimal, n =>
    match ty with
    | .decimal t => (Decimal.new n t.scale).toOption.map .decimal
    | _ => none
  | .timestamp, ns => some (.timestamp ns)
  | .date, days => some (.date days)
  | .uuid, bytes => some (.uuid bytes)
  | .ip, bytes => some (.ip bytes)

/-- The slot of a value, none for a value of another kind. -/
def carry : (k : Fixed) → Value → Option k.Carrier
  | .int64, .int64 n => some n
  | .uint64, .uint64 n => some n
  | .float64, .float64 f => some f
  | .decimal, .decimal d => some d.unscaled
  | .timestamp, .timestamp ns => some ns
  | .date, .date days => some days
  | .uuid, .uuid bytes => some bytes
  | .ip, .ip bytes => some bytes
  | _, _ => none

end Fixed

/-- The kinds whose rows are runs of bytes. -/
inductive Varwidth where
  | string | bytes
deriving DecidableEq

namespace Varwidth

def value : Varwidth → List UInt8 → Option Value
  | .string, row => (fromUtf8 row).map .string
  | .bytes, row => some (.bytes row)

def carry : Varwidth → Value → Option (List UInt8)
  | .string, .string s => some (utf8 s)
  | .bytes, .bytes b => some b
  | _, _ => none

end Varwidth

/-- One physical layout a kind, LIST's apart. Offsets are `u32`, one more than rows. -/
inductive Buffer where
  | bool (bits : Bitmap)
  | fixed (k : Fixed) (v : List k.Carrier)
  | var (k : Varwidth) (offsets : List Nat) (data : List UInt8)

/-- A kind's empty buffer. -/
def Buffer.new : ScalarType → Buffer
  | .bool => .bool (.newValid 0)
  | .int64 => .fixed .int64 []
  | .uint64 => .fixed .uint64 []
  | .float64 => .fixed .float64 []
  | .decimal _ => .fixed .decimal []
  | .timestamp => .fixed .timestamp []
  | .date => .fixed .date []
  | .uuid => .fixed .uuid []
  | .ip => .fixed .ip []
  | .string => .var .string [0] []
  | .bytes => .var .bytes [0] []

/-- Typed rows and their validity: none where every row is valid. -/
structure Nulled (δ : Type) where
  ty : DataType
  data : δ
  validity : Option Bitmap
  nullCount : Nat

inductive ColumnData where
  | flat (buffer : Buffer)
  | list (offsets : List Nat) (values : Nulled Buffer)

abbrev Column := Nulled ColumnData

/-- What a column does with its data. `none` is a panic. -/
class Layout (δ : Type) where
  new : DataType → δ
  rows : δ → Nat
  value : DataType → δ → Nat → Option Value
  slice : δ → Nat → Nat → Option δ
  concat : DataType → List δ → Except ColumnError δ

/-- `u32::try_from`. -/
def checkedOffset (total : Nat) : Except ColumnError Nat := if total < 2 ^ 32 then .ok total else .error .tooLarge

/-- Offsets of rows from `start` on, rebased so the first is 0. -/
def rebaseOffsets (offsets : List Nat) (start len : Nat) : List Nat :=
  ((offsets.drop start).take (len + 1)).map (· - offsets.getD start 0)

/-- The running offsets, and another column's rebased onto them. -/
def appendOffsets (offsets more : List Nat) : Except ColumnError (List Nat) := do
  let base := offsets.getLast?.getD 0
  return offsets ++ (← more.tail.mapM fun off => checkedOffset (base + off))

def mismatch : ColumnError := .malformed "column variant mismatch in concat"

namespace Buffer

def bool? : Buffer → Except ColumnError Bitmap
  | .bool bits => .ok bits
  | _ => .error mismatch

def fixed? (k : Fixed) : Buffer → Except ColumnError (List k.Carrier)
  | .fixed k' v => if same : k' = k then .ok (same ▸ v) else .error mismatch
  | _ => .error mismatch

def var? (k : Varwidth) : Buffer → Except ColumnError (List Nat × List UInt8)
  | .var k' offsets data => if k' = k then .ok (offsets, data) else .error mismatch
  | _ => .error mismatch

def rows : Buffer → Nat
  | .bool bits => bits.len
  | .fixed _ v => v.length
  | .var _ offsets _ => offsets.length - 1

def value (ty : DataType) : Buffer → Nat → Option Value
  | .bool bits, i => some (.bool (bits.get i))
  | .fixed k v, i => v[i]?.bind (k.value ty)
  | .var k offsets data, i => k.value (between data (offsets.getD i 0) (offsets.getD (i + 1) 0))

def slice (start len : Nat) : Buffer → Buffer
  | .bool bits => .bool (bits.slice start len)
  | .fixed k v => .fixed k (between v start (start + len))
  | .var k offsets data => .var k (rebaseOffsets offsets start len)
      (between data (offsets.getD start 0) (offsets.getD (start + len) 0))

def addBool (bits : Bitmap) (part : Buffer) : Except ColumnError Bitmap := do
  return bits.pushAll (← part.bool?).bits

def addFixed (k : Fixed) (out : List k.Carrier) (part : Buffer) : Except ColumnError (List k.Carrier) := do
  return out ++ (← part.fixed? k)

def addVar (k : Varwidth) (out : List Nat × List UInt8) (part : Buffer) : Except ColumnError (List Nat × List UInt8) := do
  let more ← part.var? k
  return (← appendOffsets out.1 more.1, out.2 ++ more.2)

def concatBool (parts : List Buffer) : Except ColumnError Buffer :=
  (parts.foldlM addBool (Bitmap.newValid 0)).map .bool

def concatFixed (k : Fixed) (parts : List Buffer) : Except ColumnError Buffer :=
  (parts.foldlM (addFixed k) []).map (.fixed k)

def concatVar (k : Varwidth) (parts : List Buffer) : Except ColumnError Buffer :=
  (parts.foldlM (addVar k) ([0], [])).map fun out => .var k out.1 out.2

def concat : ScalarType → List Buffer → Except ColumnError Buffer
  | .bool => concatBool
  | .int64 => concatFixed .int64
  | .uint64 => concatFixed .uint64
  | .float64 => concatFixed .float64
  | .decimal _ => concatFixed .decimal
  | .timestamp => concatFixed .timestamp
  | .date => concatFixed .date
  | .uuid => concatFixed .uuid
  | .ip => concatFixed .ip
  | .string => concatVar .string
  | .bytes => concatVar .bytes

end Buffer

/-- A LIST's child is flat: no element is a LIST. -/
instance : Layout Buffer where
  new
    | .scalar t => .new t
    | .list _ => .bool (.newValid 0)
  rows := Buffer.rows
  value := Buffer.value
  slice d start len := some (d.slice start len)
  concat
    | .scalar t, parts => Buffer.concat t parts
    | .list _, _ => .error mismatch

namespace Nulled

variable {δ : Type} [Layout δ]

def len (c : Nulled δ) : Nat := Layout.rows c.data

/-- A null is a row whose bit is clear. -/
def isNull (c : Nulled δ) (i : Nat) : Bool := c.validity.any fun bits => !bits.get i

/-- The value of a row; out of range the code panics. -/
def get (c : Nulled δ) (i : Nat) : Option Value :=
  if c.len ≤ i then none
  else if c.isNull i then some .null
  else Layout.value c.ty c.data i

def countNulls (validity : Option Bitmap) (rows : Nat) : Nat := validity.elim 0 fun bits => rows - bits.countValid

/-- Rows `start..start+len`. -/
def slice (c : Nulled δ) (start len : Nat) : Option (Nulled δ) :=
  if start + len ≤ c.len then do
    let validity := c.validity.map (·.slice start len)
    return { ty := c.ty, data := ← Layout.slice c.data start len, validity, nullCount := countNulls validity len }
  else none

/-- The bits of every part, a missing bitmap's all set; none where every part's is missing. -/
def concatValidity (parts : List (Nulled δ)) : Option Bitmap :=
  if parts.any (·.validity.isSome) then
    some (parts.foldl (fun bits part =>
      bits.pushAll (part.validity.elim (List.replicate part.len true) fun own => (List.range part.len).map own.get))
      (Bitmap.newValid 0))
  else none

/-- Concatenation in order. -/
def concat (ty : DataType) (parts : List (Nulled δ)) : Except ColumnError (Nulled δ) := do
  if parts.isEmpty then return { ty, data := Layout.new ty, validity := none, nullCount := 0 }
  let rows := (parts.map len).sum
  let validity := concatValidity parts
  return { ty, data := ← Layout.concat ty (parts.map Nulled.data), validity, nullCount := countNulls validity rows }

end Nulled

namespace ColumnData

def flat? : ColumnData → Except ColumnError Buffer
  | .flat buffer => .ok buffer
  | .list _ _ => .error mismatch

def list? : ColumnData → Except ColumnError (List Nat × Nulled Buffer)
  | .list offsets values => .ok (offsets, values)
  | .flat _ => .error mismatch

def addList (out : List Nat × List (Nulled Buffer)) (part : ColumnData) :
    Except ColumnError (List Nat × List (Nulled Buffer)) := do
  let more ← part.list?
  return (← appendOffsets out.1 more.1, out.2 ++ [more.2])

/-- Offsets as in STRING, then the children one after another. -/
def concatList (t : ScalarType) (parts : List ColumnData) : Except ColumnError ColumnData := do
  let out ← parts.foldlM addList ([0], [])
  return .list out.1 (← Nulled.concat (.scalar t) out.2)

end ColumnData

instance : Layout ColumnData where
  new
    | .scalar t => .flat (.new t)
    | .list t => .list [0] { ty := .scalar t, data := .new t, validity := none, nullCount := 0 }
  rows
    | .flat buffer => buffer.rows
    | .list offsets _ => offsets.length - 1
  value ty
    | .flat buffer, i => buffer.value ty i
    | .list offsets values, i =>
      ((List.range' (offsets.getD i 0) (offsets.getD (i + 1) 0 - offsets.getD i 0)).mapM values.get).map .list
  slice
    | .flat buffer, start, len => some (.flat (buffer.slice start len))
    | .list offsets values, start, len => do
      let first := offsets.getD start 0
      return .list (rebaseOffsets offsets start len) (← values.slice first (offsets.getD (start + len) 0 - first))
  concat
    | .scalar t, parts => do return .flat (← Buffer.concat t (← parts.mapM ColumnData.flat?))
    | .list t, parts => ColumnData.concatList t parts

end Physical

end Adelie
