import Adelie.Exec.Batch
import Adelie.Types.Parse
import Adelie.Types.Text

namespace Adelie

inductive ColumnError where
  | doesNotFit (value : Value) (ty : DataType)
  | tooLarge

/-- A column under construction. `stray` holds what the child of a LIST column took of lists that
    then overflowed; the next list takes it in. -/
structure ColumnBuilder where
  ty : DataType
  cells : List Value
  stray : List Value

/-- `checked_offset` of a buffer this long and one more value. -/
def exceeds (used : Nat) : Value → Bool
  | .string s => 2 ^ 32 ≤ used + (utf8 s).length
  | .bytes b => 2 ^ 32 ≤ used + b.length
  | _ => false

/-- The items a child takes, up to one its buffer has no room for. -/
def fillChild (used : Nat) : List Value → List Value
  | [] => []
  | v :: rest => if exceeds used v then [] else v :: fillChild (used + (rowBytes v).length) rest

namespace ColumnBuilder

def new (ty : DataType) : ColumnBuilder := ⟨ty, [], []⟩

variable (b : ColumnBuilder)

def child : List Value := b.cells.flatMap elements ++ b.stray

def pushNull : ColumnBuilder := { b with cells := b.cells ++ [.null] }

def pushCoerced : Value → ColumnBuilder × Except ColumnError Unit
  | .list items =>
    if 2 ^ 32 ≤ b.child.length + items.length then (b, .error .tooLarge)
    else
      let taken := fillChild (dataLen b.child) items
      if taken.length < items.length then ({ b with stray := b.stray ++ taken }, .error .tooLarge)
      else ({ b with cells := b.cells ++ [.list (b.stray ++ items)], stray := [] }, .ok ())
  | v =>
    if exceeds (dataLen b.cells) v then (b, .error .tooLarge)
    else ({ b with cells := b.cells ++ [v] }, .ok ())

def push (v : Value) : ColumnBuilder × Except ColumnError Unit :=
  if v.isNull then (b.pushNull, .ok ())
  else
    match coerce v b.ty with
    | none => (b, .error (.doesNotFit v b.ty))
    | some w => b.pushCoerced w

def finish : Column := ⟨b.ty, b.cells⟩

end ColumnBuilder

/-- A rejected row or batch; `row` is 1-based and keeps counting across batches. -/
inductive IngestError where
  | doesNotFit (column value : String) (row : Nat)
  | unknownColumn (column : String) (row : Nat)
  | malformed (row : Nat) (message : String)
  | batch (message : String)
deriving DecidableEq, Repr

/-- `<column>::string`. -/
def companionName (column : String) : String := column ++ "::string"

/-- `strip_suffix` leaves a field's name. -/
def isCompanion (fields : List Field) (f : Field) : Bool := fields.any fun g => companionName g.name == f.name

def companionOf (fields : List Field) (f : Field) : Option Nat :=
  if isCompanion fields f then none else fields.findIdx? fun g => g.name == companionName f.name

structure RowBuilder where
  fields : List Field
  builders : List ColumnBuilder
  dataColumns : List Nat
  companionOf : List (Option Nat)
  setThisRow : List Bool
  pendingRows : Nat
  totalRows : Nat

/-- `xs[i]`: past the end it panics. -/
def index {α : Type} (xs : List α) (i : Nat) : Except String α :=
  match xs[i]? with
  | some x => .ok x
  | none => .error s!"index out of bounds: the len is {xs.length} but the index is {i}"

/-- What a call returns. It stands beside the builder the call leaves; a panic leaves none. -/
abbrev Reply (α : Type) := Except IngestError α

namespace RowBuilder

def new (fields : List Field) : RowBuilder where
  fields := fields
  builders := fields.map fun f => .new f.ty
  dataColumns := (List.range fields.length).filter fun i => !(fields[i]?.any (isCompanion fields))
  companionOf := fields.map (Adelie.companionOf fields)
  setThisRow := List.replicate fields.length false
  pendingRows := 0
  totalRows := 0

variable (P : Platform) (b : RowBuilder)

def indexOf (name : String) : Option Nat := b.fields.findIdx? fun f => f.name == name

def currentRow : Except String Nat := P.increment b.totalRows

def doesNotFit (col : Nat) (text : String) : Except String (RowBuilder × Reply Unit) := do
  let f ← index b.fields col
  return (b, .error (.doesNotFit f.name text (← b.currentRow P)))

def alreadySet (col : Nat) : Except String (RowBuilder × Reply Unit) := do
  let row ← b.currentRow P
  let f ← index b.fields col
  return (b, .error (.malformed row s!"column {f.name} set twice in one row"))

/-- The column's builder is now this one, and the column is set. -/
def put (col : Nat) (builder : ColumnBuilder) : RowBuilder :=
  { b with builders := b.builders.set col builder, setThisRow := b.setThisRow.set col true }

/-- `push(..).expect(..)`. -/
def expectPush (col : Nat) (v : Value) (message : String) : Except String (RowBuilder × Reply Unit) := do
  let builder ← index b.builders col
  match builder.push v with
  | (builder, .ok ()) => return (b.put col builder, .ok ())
  | (_, .error _) => .error message

/-- A value that did not fit goes to the companion as text, and its own column is NULL. -/
def route (col comp : Nat) (text : String) : Except String (RowBuilder × Reply Unit) := do
  if ← index b.setThisRow comp then b.alreadySet P comp
  else
    let builder ← index b.builders col
    (b.put col builder.pushNull).expectPush comp (.string text) "STRING always fits a STRING companion column"

def setValue (col : Nat) (v : Value) : Except String (RowBuilder × Reply Unit) := do
  if ← index b.setThisRow col then b.alreadySet P col
  else
    let builder ← index b.builders col
    match builder.push v with
    | (builder, .ok ()) => return (b.put col builder, .ok ())
    | (builder, .error _) =>
      let b := { b with builders := b.builders.set col builder }
      match ← index b.companionOf col, P.toText v with
      | none, text => b.doesNotFit P col (text.getD "Null")
      | some _, none => b.doesNotFit P col "Null"
      | some comp, some text => b.route P col comp text

def setText (col : Nat) (text : String) : Except String (RowBuilder × Reply Unit) := do
  if ← index b.setThisRow col then b.alreadySet P col
  else
    let f ← index b.fields col
    if f.ty = .string then b.expectPush col (.string text) "STRING always fits a STRING column"
    else if text = "" then
      let builder ← index b.builders col
      return (b.put col builder.pushNull, .ok ())
    else
      match ← P.fromText text f.ty with
      | some v => b.expectPush col v "from_text already produced a value of this column's type"
      | none =>
        match ← index b.companionOf col with
        | none => b.doesNotFit P col text
        | some comp => b.route P col comp text

/-- NULL for every column not set this row. -/
def endRow : Except String (RowBuilder × Reply Unit) := do
  let builders := (b.builders.zip b.setThisRow).map fun (builder, set) => if set then builder else builder.pushNull
  let pendingRows ← P.increment b.pendingRows
  let totalRows ← P.increment b.totalRows
  return ({ b with builders, setThisRow := b.setThisRow.map fun _ => false, pendingRows, totalRows }, .ok ())

/-- Drains the builders into a batch and resets them; `totalRows` keeps counting. -/
def finish : RowBuilder × Reply ColumnBatch :=
  let drained := { b with builders := (b.builders.zip b.fields).map fun (_, f) => .new f.ty }
  match ColumnBatch.new b.fields (b.builders.map ColumnBuilder.finish) with
  | .error e => (drained, .error (.batch e.display))
  | .ok batch => ({ drained with pendingRows := 0 }, .ok batch)

end RowBuilder

end Adelie
