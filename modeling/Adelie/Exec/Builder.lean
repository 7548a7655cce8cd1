import Adelie.Exec.Layout

namespace Adelie

namespace Physical

/-- A column under construction, over the buffers of a kind. -/
structure BuilderOf (β : Type) where
  ty : DataType
  data : β
  validity : Option Bitmap
  nullCount : Nat
  len : Nat

inductive BuilderData where
  | flat (buffer : Buffer)
  | list (offsets : List Nat) (values : BuilderOf Buffer)

abbrev ColumnBuilder := BuilderOf BuilderData

/-- What a call leaves behind, and whether it was refused. `none` is a panic. -/
abbrev Called (σ : Type) := Option (σ × Except ColumnError Unit)

/-- A `?` stops here, with what was done so far. -/
def Called.andThen {σ : Type} (called : Called σ) (next : σ → Called σ) : Called σ :=
  called.bind fun out =>
    match out.2 with
    | .ok _ => next out.1
    | .error e => some (out.1, .error e)

/-- What a builder does with its buffers, and the data they become. -/
class Building (β : Type) (δ : outParam Type) where
  new : DataType → β
  pushDefault : β → β
  pushCoerced : β → Value → Called β
  finish : β → δ

namespace Buffer

/-- What a null row leaves: a zero, or the last offset again. -/
def pushDefault : Buffer → Buffer
  | .bool bits => .bool (bits.push false)
  | .fixed k v => .fixed k (v ++ [k.zero])
  | .var k offsets data => .var k (offsets ++ [offsets.getLast?.getD 0]) data

def pushCoerced : Buffer → Value → Called Buffer
  | .bool bits, .bool b => some (.bool (bits.push b), .ok ())
  | .bool _, _ => none
  | .fixed k v, value => (k.carry value).map fun x => (.fixed k (v ++ [x]), .ok ())
  | .var k offsets data, value => (k.carry value).map fun bytes =>
    match checkedOffset (data.length + bytes.length) with
    | .ok off => (.var k (offsets ++ [off]) (data ++ bytes), .ok ())
    | .error e => (.var k offsets data, .error e)

end Buffer

instance : Building Buffer Buffer where
  new := Layout.new
  pushDefault := Buffer.pushDefault
  pushCoerced := Buffer.pushCoerced
  finish := id

namespace BuilderOf

variable {β δ : Type} [Building β δ]

def new (ty : DataType) : BuilderOf β := { ty, data := Building.new ty, validity := none, nullCount := 0, len := 0 }

/-- Validity is backfilled all-valid on the first null. -/
def pushNull (b : BuilderOf β) : BuilderOf β :=
  { b with
    data := Building.pushDefault b.data
    validity := some ((b.validity.getD (.newValid b.len)).push false)
    len := b.len + 1
    nullCount := b.nullCount + 1 }

def pushCoerced (b : BuilderOf β) (v : Value) : Called (BuilderOf β) :=
  (Building.pushCoerced b.data v).map fun out =>
    match out.2 with
    | .ok _ => ({ b with data := out.1, validity := b.validity.map (·.push true), len := b.len + 1 }, .ok ())
    | .error e => ({ b with data := out.1 }, .error e)

/-- The elements of a LIST, one by one. -/
def pushItems (b : BuilderOf β) : List Value → Called (BuilderOf β)
  | [] => some (b, .ok ())
  | item :: items =>
    Called.andThen (if item.isNull then some (b.pushNull, .ok ()) else b.pushCoerced item) fun b => b.pushItems items

def push (b : BuilderOf β) (v : Value) : Called (BuilderOf β) :=
  if v.isNull then some (b.pushNull, .ok ())
  else
    match coerce v b.ty with
    | none => some (b, .error (.doesNotFit v b.ty))
    | some coerced => b.pushCoerced coerced

def finish (b : BuilderOf β) : Nulled δ :=
  { ty := b.ty, data := Building.finish b.data, validity := b.validity, nullCount := b.nullCount }

end BuilderOf

namespace BuilderData

/-- The child is checked for room before any element goes in. -/
def pushList (offsets : List Nat) (child : BuilderOf Buffer) (items : List Value) : Called BuilderData :=
  match checkedOffset (child.len + items.length) with
  | .error e => some (.list offsets child, .error e)
  | .ok _ => (child.pushItems items).map fun out =>
    match out.2 with
    | .error e => (.list offsets out.1, .error e)
    | .ok _ =>
      match checkedOffset out.1.len with
      | .ok off => (.list (offsets ++ [off]) out.1, .ok ())
      | .error e => (.list offsets out.1, .error e)

end BuilderData

instance : Building BuilderData ColumnData where
  new
    | .scalar t => .flat (.new t)
    | .list t => .list [0] (.new (.scalar t))
  pushDefault
    | .flat buffer => .flat buffer.pushDefault
    | .list offsets child => .list (offsets ++ [offsets.getLast?.getD 0]) child
  pushCoerced
    | .flat buffer, v => (buffer.pushCoerced v).map fun out => (.flat out.1, out.2)
    | .list offsets child, .list items => BuilderData.pushList offsets child items
    | .list _ _, _ => none
  finish
    | .flat buffer => .flat buffer
    | .list offsets child => .list offsets child.finish

end Physical

end Adelie
