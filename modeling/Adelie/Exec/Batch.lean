import Adelie.Exec.Expr
import Adelie.Segment.Wire

namespace Adelie

/-- The bytes a STRING or BYTES value puts in its column's buffer. -/
def rowBytes : Value → List UInt8
  | .string s => utf8 s
  | .bytes b => b
  | _ => []

/-- The elements a LIST value puts in its column's child. -/
def elements : Value → List Value
  | .list items => items
  | _ => []

def dataLen (cells : List Value) : Nat := (cells.map fun v => (rowBytes v).length).sum
def childLen (cells : List Value) : Nat := (cells.map fun v => (elements v).length).sum

@[simp] theorem dataLen_nil : dataLen [] = 0 := rfl
@[simp] theorem childLen_nil : childLen [] = 0 := rfl

@[simp] theorem dataLen_cons (v : Value) (cells : List Value) :
    dataLen (v :: cells) = (rowBytes v).length + dataLen cells := by
  simp [dataLen]

@[simp] theorem childLen_cons (v : Value) (cells : List Value) :
    childLen (v :: cells) = (elements v).length + childLen cells := by
  simp [childLen]

@[simp] theorem dataLen_append (a b : List Value) : dataLen (a ++ b) = dataLen a + dataLen b := by
  simp [dataLen]

@[simp] theorem childLen_append (a b : List Value) : childLen (a ++ b) = childLen a + childLen b := by
  simp [childLen]

/-- Every offset of a column of these cells, and of its child column, is a `u32`. -/
structure FitsOffsets (cells : List Value) : Prop where
  data : dataLen cells < 2 ^ 32
  children : childLen cells < 2 ^ 32
  childData : dataLen (cells.flatMap elements) < 2 ^ 32

theorem dataLen_of_mem {v : Value} {cells : List Value} (member : v ∈ cells) : (rowBytes v).length ≤ dataLen cells := by
  induction cells with
  | nil => cases member
  | cons w rest ih =>
    rw [dataLen_cons]
    cases member with
    | head => omega
    | tail _ member =>
      have := ih member
      omega

theorem childLen_of_mem {v : Value} {cells : List Value} (member : v ∈ cells) : (elements v).length ≤ childLen cells := by
  induction cells with
  | nil => cases member
  | cons w rest ih =>
    rw [childLen_cons]
    cases member with
    | head => omega
    | tail _ member =>
      have := ih member
      omega

/-- What every built column keeps: its cells are of its type and its offsets have not run over. -/
structure Column.Sound (c : Column) : Prop where
  typed : ∀ v ∈ c.cells, v.HasType c.ty
  fits : FitsOffsets c.cells

/-- A set of named columns of one length: what operators pass to one another. -/
structure ColumnBatch where
  fields : List Field
  columns : List Column

namespace ColumnBatch

variable (b : ColumnBatch)

def rows : Nat := (b.columns.head?.map fun c => c.cells.length).getD 0

def row (i : Nat) : Row := b.columns.map fun c => c.cells[i]?.getD .null

def toRows : List Row := (List.range b.rows).map b.row

structure Sound : Prop where
  typed : List.Forall₂ (fun c f => c.ty = f.ty) b.columns b.fields
  even : ∀ c ∈ b.columns, c.cells.length = b.rows
  distinct : (b.fields.map Field.name).Nodup
  columns : ∀ c ∈ b.columns, c.Sound

/-- What `ColumnBatch.new` checks of the columns against the fields. -/
structure Shaped (fields : List Field) : Prop where
  named : b.fields = fields
  typed : List.Forall₂ (fun c f => c.ty = f.ty) b.columns fields
  even : ∀ c ∈ b.columns, c.cells.length = b.rows

variable {b}

theorem Sound.shaped (sound : b.Sound) {fields : List Field} (named : b.fields = fields) : b.Shaped fields :=
  ⟨named, named ▸ sound.typed, sound.even⟩

end ColumnBatch

/-- A stream's batches, all of its fields. -/
structure Batches (fields : List Field) where
  batches : List ColumnBatch
  each : ∀ b ∈ batches, b.fields = fields ∧ b.Sound

namespace Batches

variable {fields : List Field} (s : Batches fields)

def toRows : List Row := s.batches.flatMap ColumnBatch.toRows

end Batches

inductive BatchError where
  | columnCount (fields columns : Nat)
  | typeMismatch (field : String) (expected found : DataType)
  | rowCount (field : String) (expected found : Nat)
  | duplicateField (name : String)
deriving DecidableEq, Repr

def BatchError.display : BatchError → String
  | .columnCount fields columns => s!"{fields} fields but {columns} columns"
  | .typeMismatch field expected found => s!"field {field}: expected {expected.display}, found {found.display}"
  | .rowCount field expected found => s!"field {field}: expected {expected} rows, found {found}"
  | .duplicateField name => s!"duplicate field name {name}"

/-- The first name that an earlier field has. -/
def repeatedName (fields : List Field) : Option String :=
  (fields.zipIdx.find? fun p => (fields.take p.2).any fun f => f.name = p.1.name).map fun p => p.1.name

/-- Checks, in order, the number of columns, each column's type, the row counts and the names. -/
def ColumnBatch.new (fields : List Field) (columns : List Column) : Except BatchError ColumnBatch := do
  ensure (fields.length = columns.length) (.columnCount fields.length columns.length)
  match (fields.zip columns).find? fun p => p.2.ty ≠ p.1.ty with
  | some (f, c) => .error (.typeMismatch f.name f.ty c.ty)
  | none =>
    let rows := (columns.head?.map fun c => c.cells.length).getD 0
    match (fields.zip columns).find? fun p => p.2.cells.length ≠ rows with
    | some (f, c) => .error (.rowCount f.name rows c.cells.length)
    | none =>
      match repeatedName fields with
      | some name => .error (.duplicateField name)
      | none => .ok ⟨fields, columns⟩

end Adelie
