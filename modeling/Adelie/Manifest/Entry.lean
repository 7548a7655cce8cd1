import Adelie.Lib.Locate
import Adelie.Types.Fit

namespace Adelie

/-- A table's fully qualified name. -/
structure TableName where
  db : String
  name : String
deriving DecidableEq, Repr

namespace TableName

def display (t : TableName) : String := t.db ++ "." ++ t.name

def key (t : TableName) : String ×ₗ String := toLex (t.db, t.name)

theorem key_injective : Function.Injective key := by
  rintro ⟨d, n⟩ ⟨d', n'⟩ same
  cases toLex.injective same
  rfl

/-- Names order by database, then by name. -/
instance : LinearOrder TableName := LinearOrder.lift' key key_injective

end TableName

def isPathComponent (s : String) : Bool :=
  !s.isEmpty && s != "." && s != ".." && s.toList.all fun c => c != '/' && c != '\\' && c != '\x00'

/-- The components of a `/`-separated directory. -/
def pathComponents (dir : String) : List String := (dir.toList.splitOn '/').map String.ofList

/-- A schema column under its stable id. Table ids are store-wide and field ids per table; each
    is assigned once, never reused, and never `0`. -/
structure SchemaField where
  id : Nat
  field : Field
deriving DecidableEq, Repr

/-- A duration in nanoseconds. -/
abbrev Duration := Nat

structure PartitionBy where
  column : Nat
  bucket : Duration
deriving DecidableEq, Repr

structure Ttl where
  column : Nat
  after : Duration
deriving DecidableEq, Repr

structure ColumnStats where
  rows : Nat
  nullCount : Nat
  min : Option Value
  max : Option Value

/-- A file attached to a segment outside its own bytes; no kind is defined yet. -/
structure SideFile where
  kind : Nat
  path : String
  crc : Nat
deriving DecidableEq, Repr

structure SegmentEntry where
  id : Nat
  partition : String
  seq : Nat
  rows : Nat
  bytes : Nat
  footerCrc : Nat
  columns : List ColumnStats
  sideFiles : List SideFile
  dir : String
  fieldIds : List Nat
  fileFieldIds : List Nat

namespace SegmentEntry

def fileIds (s : SegmentEntry) : List Nat :=
  if s.fileFieldIds.isEmpty then s.fieldIds else s.fileFieldIds

/-- The statistics of column `id`; a column the entry lacks is NULL in every row. `columns` and
    `fieldIds` have one length in every entry a commit accepts. -/
def statsOf (s : SegmentEntry) (id : Nat) : ColumnStats :=
  match (s.fieldIds.zip s.columns).find? (·.1 == id) with
  | some (_, stats) => stats
  | none => ⟨s.rows, s.rows, none, none⟩

def projectOnto (s : SegmentEntry) (schema : List SchemaField) : SegmentEntry :=
  let fieldIds := schema.map (·.id)
  let fileFieldIds := s.fileIds.map fun id => if id ≠ 0 ∧ id ∈ s.fieldIds then id else 0
  { s with
    columns := schema.map fun f => s.statsOf f.id
    fieldIds := fieldIds
    fileFieldIds := if fileFieldIds = fieldIds then [] else fileFieldIds }

@[simp] theorem projectOnto_id (s : SegmentEntry) (schema : List SchemaField) :
    (s.projectOnto schema).id = s.id := rfl

@[simp] theorem projectOnto_seq (s : SegmentEntry) (schema : List SchemaField) :
    (s.projectOnto schema).seq = s.seq := rfl

end SegmentEntry

inductive CmpOp where
  | eq | ne | lt | le | gt | ge
deriving DecidableEq, Repr

structure Predicate where
  column : String
  op : CmpOp
  value : Value

/-- An AND of predicates, over the segments of an earlier `seq`. -/
structure Tombstone where
  seq : Nat
  predicates : List Predicate

structure TableEntry where
  id : Nat
  name : TableName
  engine : String
  schema : List SchemaField
  nextFieldId : Nat
  key : List Nat
  version : Option Nat
  orderBy : List Nat
  partitionBy : Option PartitionBy
  ttl : Option Ttl
  options : List (String × String)
  segments : List SegmentEntry
  tombstones : List Tombstone

namespace TableEntry

def tombstonesFor (t : TableEntry) (s : SegmentEntry) : List Tombstone :=
  t.tombstones.filter fun tomb => s.seq < tomb.seq

def fields (t : TableEntry) : List Field := t.schema.map (·.field)

def field (t : TableEntry) (id : Nat) : Option SchemaField := t.schema.find? (·.id == id)

def schemaIds (t : TableEntry) : List Nat := t.schema.map (·.id)
def segmentIds (t : TableEntry) : List Nat := t.segments.map (·.id)

end TableEntry

/-- A segment no longer referenced, kept until its file is safe to delete. -/
structure Garbage where
  table : TableName
  segment : SegmentEntry
  removedAtMs : Nat
  removedAtVersion : Nat

/-- One running migration. -/
structure Job where
  id : Nat
  source : Nat
  snapshot : Nat
  target : TableEntry
  handled : List Nat
  reused : Nat
  rewritten : Nat

inductive RetireReason where
  | swapped | reverted | dropped
deriving DecidableEq, Repr

structure Retired where
  entry : TableEntry
  reason : RetireReason
  retiredAtMs : Nat
  version : Nat
  successorSegments : List Nat

structure MigrationRecord where
  name : String
  checksum : Nat
  appliedAtMs : Nat
deriving DecidableEq, Repr

structure Manifest where
  version : Nat
  nextSegmentId : Nat
  nextTableId : Nat
  tables : List TableEntry
  garbage : List Garbage
  nextJobId : Nat
  jobs : List Job
  retired : List Retired
  migrations : List MigrationRecord

namespace Manifest

def empty : Manifest :=
  ⟨0, 0, 1, [], [], 1, [], [], []⟩

def table (m : Manifest) (name : TableName) : Option TableEntry := m.tables.find? (·.name == name)

def referencesSegment (m : Manifest) (id : Nat) : Bool :=
  let has (segments : List SegmentEntry) : Bool := segments.any (·.id == id)
  m.tables.any (has ·.segments) || m.retired.any (has ·.entry.segments) ||
    m.jobs.any (has ·.target.segments)

def job (m : Manifest) (id : Nat) : Option Job := m.jobs.find? (·.id == id)

/-- The running job migrating live table `name`. -/
def jobFor (m : Manifest) (name : TableName) : Option Job :=
  (m.table name).bind fun t => m.jobs.find? (·.source == t.id)

end Manifest

/-- A manifest operation gone wrong. `panicked` is an `expect` of the source that fails. -/
inductive Error where
  | unknownEngine (table engine : String)
  | keyNotAllowed (table engine : String) (key : List String)
  | keyRequired (table engine : String)
  | keyNotSortPrefix (table : String) (key orderBy : List String)
  | conflict (table detail : String)
  | usage (message : String)
  | noSuchJob (job : Nat)
  | jobRunning (table : String) (job : Nat)
  | nothingToRevert (table : String)
  | revertStale (table detail : String)
  | notDropped (table : String)
  | fixedColumn (table column clause : String)
  | columnInTombstone (table column : String) (seq : Nat)
  | columnUsedByRollup (table column rollup : String)
  | migrationNotBuilt (table kind : String)
  | migrationRecorded (name : String)
  | panicked (message : String)
deriving DecidableEq, Repr

end Adelie
