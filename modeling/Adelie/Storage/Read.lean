import Adelie.Manifest.Reached
import Adelie.Types.Order

namespace Adelie

/-- The values of one row, in the order of its columns. -/
abbrev Row := List Value

/-- A decoded segment file: its columns and its row groups. -/
structure SegmentFile where
  fields : List Field
  groups : List (List Row)
  wide : ∀ g ∈ groups, ∀ row ∈ g, row.length = fields.length

/-- `<dir>/<partition>/<id>.seg` under the store root. -/
structure SegmentPath where
  dir : String
  partition : String
  id : Nat
deriving DecidableEq, Repr

def SegmentEntry.path (s : SegmentEntry) : SegmentPath := ⟨s.dir, s.partition, s.id⟩

abbrev Files := SegmentPath → Option SegmentFile

inductive StorageError where
  | manifest (e : Error)
  | snapshotExpired (path : SegmentPath)
  | usage (message : String)
  | plan (message : String)
  | unknownTable (table : String)
deriving DecidableEq, Repr

/-- Engines that are built: `append` alone, which keeps every row. -/
def engineByName (name : String) : Bool := name = "append"

/-- The file column that carries field `id`; `0` is a column the entry does not read. -/
def fileColumn (fileIds : List Nat) (id : Nat) : Option Nat :=
  fileIds.findIdx? fun fileId => fileId != 0 && fileId == id

def mapFileColumns (segId : Nat) (schema : List SchemaField) (fileIds : List Nat) (fileFields : List Field) :
    Except StorageError (List (Option Nat)) :=
  schema.mapM fun sf =>
    match fileColumn fileIds sf.id with
    | none => .ok none
    | some i =>
      match fileFields[i]? with
      | none => .error (.manifest (.panicked "index out of bounds"))
      | some fileField => do
        ensure (fileField.ty = sf.field.ty) (.usage
          s!"segment {segId}: file column {fileField.name} is {fileField.ty.display} but schema field {sf.field.name} is {sf.field.ty.display}")
        return some i

/-- A row group on a schema: matched columns by file index, NULL elsewhere. A batch without columns
    has no rows. -/
def realign (index : List (Option Nat)) (rows : List Row) : List Row :=
  if index.isEmpty then []
  else rows.map fun row => index.map fun column => (column.bind (row[·]?)).getD .null

def openSegment (files : Files) (s : SegmentEntry) : Except StorageError SegmentFile :=
  match files s.path with
  | none => .error (.snapshotExpired s.path)
  | some file => do
    ensure (s.fileIds.length = file.fields.length) (.usage
      s!"segment {s.id}: manifest lists {s.fileIds.length} file columns but the file has {file.fields.length}")
    return file

/-- One segment as a table with `schema` sees it, a batch for each row group. -/
def readSegmentAs (files : Files) (s : SegmentEntry) (schema : List SchemaField) :
    Except StorageError (List (List Row)) := do
  let file ← openSegment files s
  let index ← mapFileColumns s.id schema s.fileIds file.fields
  return file.groups.map (realign index)

/-- Whether a scalar is of a column's kind; DECIMAL scales may differ. -/
def matchesScalarKind : ScalarType → Value → Bool
  | .bool, .bool _ | .int64, .int64 _ | .uint64, .uint64 _ | .float64, .float64 _ | .decimal _, .decimal _
  | .string, .string _ | .bytes, .bytes _ | .timestamp, .timestamp _ | .date, .date _ | .uuid, .uuid _
  | .ip, .ip _ => true
  | _, _ => false

def matchesKind : DataType → Value → Bool
  | .scalar t, v => matchesScalarKind t v
  | .list t, .list items => items.all fun item => item.isNull || matchesScalarKind t item
  | .list _, _ => false

/-- A comparison of two values of one kind. A tombstone never holds a LIST, and on everything else
    both orders are defined. -/
def applyCmp (op : CmpOp) (a b : Value) : Bool :=
  match op with
  | .eq => sqlEq a b = some true
  | .ne => sqlEq a b = some false
  | .lt => totalCmp a b = some .lt
  | .le => totalCmp a b = some .lt || totalCmp a b = some .eq
  | .gt => totalCmp a b = some .gt
  | .ge => totalCmp a b = some .gt || totalCmp a b = some .eq

def compareScalar (cell : Value) (op : CmpOp) (v : Value) : Option Bool :=
  if v.isNull || cell.isNull then none else some (applyCmp op cell v)

/-- The errors a tombstone can raise on a schema: an unknown column, or a value of another kind. -/
def checkPredicate (schema : List SchemaField) (seq : Nat) (p : Predicate) : Except StorageError Unit :=
  match schema.find? (·.field.name == p.column) with
  | none => .error (.usage s!"tombstone at seq {seq} names unknown column {p.column}")
  | some f =>
    ensure (p.value.isNull || matchesKind f.field.ty p.value)
      (.plan s!"cannot compare {f.field.ty.display} column")

def checkTombstones (schema : List SchemaField) (tombstones : List Tombstone) : Except StorageError Unit :=
  tombstones.forM fun t => t.predicates.forM (checkPredicate schema t.seq)

def Predicate.test (schema : List SchemaField) (row : Row) (p : Predicate) : Option Bool :=
  ((schema.zip row).find? (·.1.field.name == p.column)).bind fun cell => compareScalar cell.2 p.op p.value

/-- The AND of its predicates; with none, every row. -/
def Tombstone.test (schema : List SchemaField) (row : Row) (t : Tombstone) : Option Bool :=
  (t.predicates.map (·.test schema row)).foldl kleeneAnd (some true)

/-- A row goes when the OR over the tombstones is true; unknown keeps it. -/
def deleted (schema : List SchemaField) (tombstones : List Tombstone) (row : Row) : Bool :=
  (tombstones.map (·.test schema row)).foldl kleeneOr (some false) = some true

/-- One segment under the tombstones newer than it. -/
def scanSegment (files : Files) (t : TableEntry) (s : SegmentEntry) : Except StorageError (List Row) := do
  let groups ← readSegmentAs files s t.schema
  checkTombstones t.schema (t.tombstonesFor s)
  return groups.flatten.filter fun row => !deleted t.schema (t.tombstonesFor s) row

/-- Every visible row of a table: its segments in order, each under its own tombstones. -/
def scanAll (files : Files) (t : TableEntry) : Except StorageError (List Row) := do
  ensure (!t.schema.isEmpty) (.plan "scan needs at least one column")
  ensure (engineByName t.engine) (.usage s!"unknown engine {t.engine}")
  let segments ← t.segments.mapM (scanSegment files t)
  return segments.flatten

end Adelie
