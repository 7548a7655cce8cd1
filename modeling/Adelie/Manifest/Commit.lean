import Adelie.Lib.Ordered
import Adelie.Manifest.Alter

namespace Adelie

/-- One change to a manifest. -/
inductive Edit where
  | createTable (spec : TableSpec)
  | addSegments (table : TableName) (segments : List SegmentEntry)
  | removeSegments (table : TableName) (ids : List Nat)
  | addTombstone (table : TableName) (predicates : List Predicate)
  | forgetGarbage (ids : List Nat)
  | reserveSegmentIds (next : Nat)
  | createJob (table : TableName) (ops : List Alter)
  | advanceJob (job : Nat) (reused rewritten : List Nat) (segments : List SegmentEntry)
  | swapJob (job : Nat)
  | cancelJob (job : Nat)
  | revertTable (table : TableName)
  | dropTable (table : TableName)
  | undropTable (table : TableName)
  | truncateTable (table : TableName)
  | expireRetired (beforeMs : Nat)
  | recordMigration (name : String) (checksum : Nat)

/-- A batch of edits applied together. `base` is kept for audit only. -/
structure Commit where
  base : Nat
  edits : List Edit

/-- The position of a segment in its table. -/
def SegmentEntry.order (s : SegmentEntry) : Nat ×ₗ Nat := toLex (s.seq, s.id)

namespace Manifest

def tableIndex (m : Manifest) (table : TableName) : Except Error (Located TableEntry) :=
  match position (·.name == table) m.tables with
  | some spot => .ok spot
  | none => .error (.conflict table.display "table does not exist")

def createTable (m : Manifest) (spec : TableSpec) : Except Error Manifest := do
  spec.validate
  ensure (m.table spec.name).isNone (.conflict spec.name.display "table already exists")
  let schema := spec.columns.mapIdx fun i field => (⟨i + 1, field⟩ : SchemaField)
  let fieldIdOf := expectFieldId schema "validate already checked every clause names a real column"
  let key ← spec.key.mapM fieldIdOf
  let version ← spec.version.mapM fieldIdOf
  let orderBy ← spec.resolvedOrderBy.mapM fieldIdOf
  let partitionBy ← spec.partitionBy.mapM fun p => return (⟨← fieldIdOf p.1, p.2⟩ : PartitionBy)
  let ttl ← spec.ttl.mapM fun p => return (⟨← fieldIdOf p.1, p.2⟩ : Ttl)
  let entry : TableEntry :=
    { id := m.nextTableId
      name := spec.name
      engine := spec.engine
      schema := schema
      nextFieldId := schema.length + 1
      key := key
      version := version
      orderBy := orderBy
      partitionBy := partitionBy
      ttl := ttl
      options := spec.options
      segments := []
      tombstones := [] }
  return { m with nextTableId := m.nextTableId + 1, tables := insertByKey (·.name) entry m.tables }

/-- The checks a new segment must pass against a schema: the number of column statistics, the
    field ids in order, and a well-formed directory. -/
def validateNewSegment (table : TableName) (schemaIds : List Nat) (s : SegmentEntry) : Except Error Unit := do
  ensure (s.columns.length = schemaIds.length)
    (.usage s!"segment {s.id} has {s.columns.length} column stats, table {table.display} has {schemaIds.length} columns")
  ensure (s.fieldIds = schemaIds)
    (.usage s!"segment {s.id}: field ids {s.fieldIds} do not match table {table.display}'s {schemaIds}")
  ensure (!s.dir.isEmpty && (pathComponents s.dir).all isPathComponent)
    (.usage s!"segment {s.id}: dir {s.dir.quote} is not a valid table directory")

def validateNewSegments (table : TableName) (schemaIds : List Nat) (segments : List SegmentEntry) :
    Except Error Unit :=
  segments.forM (validateNewSegment table schemaIds)

/-- Moves the counter past every id of a table's segments; `max_id + 1` wraps on a u64. -/
def coverSegmentIds (next : Nat) (segments : List SegmentEntry) : Nat :=
  match (segments.map (·.id)).max? with
  | some maxId => max next ((maxId + 1) % 2 ^ 64)
  | none => next

def addSegments (m : Manifest) (table : TableName) (segments : List SegmentEntry) : Except Error Manifest := do
  let spot ← m.tableIndex table
  validateNewSegments table spot.found.schemaIds segments
  let all := sortByKey SegmentEntry.order (spot.found.segments ++ segments)
  return { m with
    tables := spot.replaced { spot.found with segments := all }
    nextSegmentId := coverSegmentIds m.nextSegmentId all }

/-- Refuses a change of a table a migration is running on. -/
def refuseJob (m : Manifest) (table : TableName) : Except Error Unit :=
  match m.jobFor table with
  | some job => .error (.jobRunning table.display job.id)
  | none => .ok ()

def releaseOne (table : TableName) (version nowMs : Nat) (m : Manifest) (s : SegmentEntry) : Manifest :=
  if m.referencesSegment s.id || m.garbage.any (·.segment.id == s.id) then m
  else
    let cleared := { s with columns := [], fieldIds := [], fileFieldIds := [] }
    { m with garbage := m.garbage ++ [⟨table, cleared, nowMs, version⟩] }

/-- Moves each segment to garbage unless something still references it or it is already there. -/
def release (m : Manifest) (table : TableName) (segments : List SegmentEntry) (version nowMs : Nat) : Manifest :=
  segments.foldl (releaseOne table version nowMs) m

def removeSegments (m : Manifest) (table : TableName) (ids : List Nat) (version nowMs : Nat) :
    Except Error Manifest := do
  let spot ← m.tableIndex table
  m.refuseJob table
  match ids.find? fun id => !spot.found.segments.any (·.id == id) with
  | some id => .error (.conflict table.display s!"segment {id} no longer live")
  | none =>
    let (removed, kept) := spot.found.segments.partition fun s => ids.contains s.id
    let m' := { m with tables := spot.replaced { spot.found with segments := kept } }
    .ok (m'.release table removed version nowMs)

def createJob (m : Manifest) (table : TableName) (ops : List Alter) : Except Error Manifest := do
  let spot ← m.tableIndex table
  m.refuseJob table
  let target ← planAlter spot.found ops
  let job : Job :=
    { id := m.nextJobId
      source := spot.found.id
      snapshot := m.version
      target := { target with id := m.nextTableId }
      handled := []
      reused := 0
      rewritten := 0 }
  return { m with
    nextTableId := m.nextTableId + 1
    nextJobId := m.nextJobId + 1
    jobs := m.jobs ++ [job] }

/-- A job by its id and the live table it migrates. -/
def jobAndSource (m : Manifest) (jobId : Nat) : Except Error (Located Job × Located TableEntry) :=
  match position (·.id == jobId) m.jobs with
  | none => .error (.noSuchJob jobId)
  | some job =>
    match position (·.id == job.found.source) m.tables with
    | none => .error (.conflict job.found.target.name.display "source table does not exist")
    | some source => .ok (job, source)

def advanceJob (m : Manifest) (jobId : Nat) (reused rewritten : List Nat) (segments : List SegmentEntry) :
    Except Error Manifest := do
  let (job, source) ← m.jobAndSource jobId
  let tableName := source.found.name
  match (reused ++ rewritten).find? fun id =>
      !source.found.segments.any (·.id == id) || job.found.handled.contains id with
  | some id => .error (.conflict tableName.display s!"segment {id} already handled / not live")
  | none => do
    let target := job.found.target
    validateNewSegments tableName target.schemaIds segments
    let carried ← reused.mapM fun id =>
      match source.found.segments.find? (·.id == id) with
      | some s => .ok (s.projectOnto target.schema)
      | none => .error (.panicked "checked live above")
    let all := sortByKey SegmentEntry.order (target.segments ++ (carried ++ segments))
    let advanced : Job :=
      { job.found with
        target := { target with segments := all }
        handled := sortByKey id (job.found.handled ++ (reused ++ rewritten))
        reused := job.found.reused + reused.length
        rewritten := job.found.rewritten + rewritten.length }
    return { m with
      jobs := job.replaced advanced
      nextSegmentId := coverSegmentIds m.nextSegmentId all }

/-- Renames a tombstone's columns from one schema to another by field id. -/
def renameTombstone (old new : List SchemaField) (unknown lacking : Nat → String → Error) (t : Tombstone) :
    Except Error Tombstone := do
  let predicates ← t.predicates.mapM fun p =>
    match old.find? (·.field.name == p.column) with
    | none => .error (unknown t.seq p.column)
    | some f =>
      match new.find? (·.id == f.id) with
      | none => .error (lacking t.seq p.column)
      | some g => .ok { p with column := g.field.name }
  return { seq := t.seq, predicates := predicates }

def swapJob (m : Manifest) (jobId version nowMs : Nat) : Except Error Manifest := do
  let (job, source) ← m.jobAndSource jobId
  match source.found.segmentIds.find? fun id => !job.found.handled.contains id with
  | some id => .error (.conflict source.found.name.display s!"catch-up incomplete: segment {id}")
  | none => do
    let table := source.found.name.display
    let tombstones ← source.found.tombstones.mapM
      (renameTombstone source.found.schema job.found.target.schema
        (fun seq c => .usage s!"table {table}: tombstone at seq {seq} names unknown column {c}")
        (fun seq c => .usage
          s!"table {table}: tombstone at seq {seq} names column {c} the migration target lacks"))
    let target := { job.found.target with tombstones := tombstones }
    let retired : Retired :=
      { entry := source.found
        reason := .swapped
        retiredAtMs := nowMs
        version := version
        successorSegments := sortByKey id target.segmentIds }
    return { m with
      tables := insertByKey (·.name) target source.removed
      jobs := job.removed
      retired := m.retired ++ [retired] }

def cancelJob (m : Manifest) (jobId version nowMs : Nat) : Except Error Manifest :=
  match position (·.id == jobId) m.jobs with
  | none => .error (.noSuchJob jobId)
  | some job =>
    let target := job.found.target
    .ok ({ m with jobs := job.removed }.release target.name target.segments version nowMs)

/-- The definition REVERT restores: the retired one, with what was written since the swap. -/
def restored (retired : Retired) (cur : TableEntry) (tombstones : List Tombstone) : TableEntry :=
  let since := cur.segments.filter fun s => !retired.successorSegments.contains s.id
  { retired.entry with
    nextFieldId := max retired.entry.nextFieldId cur.nextFieldId
    segments := sortByKey SegmentEntry.order
      (retired.entry.segments ++ since.map (·.projectOnto retired.entry.schema))
    tombstones := retired.entry.tombstones ++ tombstones }

def revertTable (m : Manifest) (table : TableName) (version nowMs : Nat) : Except Error Manifest :=
  match rposition (fun r => r.reason == .swapped && r.entry.name == table) m.retired with
  | none => .error (.nothingToRevert table.display)
  | some r =>
    match position (·.name == table) m.tables with
    | none => .error (.nothingToRevert table.display)
    | some cur => do
      m.refuseJob table
      match r.found.successorSegments.find? fun id => !cur.found.segmentIds.contains id with
      | some id => .error (.revertStale table.display s!"segment {id} was compacted or removed since the swap")
      | none => do
        let tombstones ← (cur.found.tombstones.filter fun t => r.found.version < t.seq).mapM
          (renameTombstone cur.found.schema r.found.entry.schema
            (fun seq c => .revertStale table.display s!"tombstone at seq {seq} names unknown column {c}")
            (fun seq c => .revertStale table.display
              s!"tombstone at seq {seq} names column {c} the reverted table lacks"))
        let retired : Retired := ⟨cur.found, .reverted, nowMs, version, []⟩
        return { m with
          tables := insertByKey (·.name) (restored r.found cur.found tombstones) cur.removed
          retired := r.removed ++ [retired] }

def dropTable (m : Manifest) (table : TableName) (version nowMs : Nat) : Except Error Manifest := do
  let spot ← m.tableIndex table
  m.refuseJob table
  let retired : Retired := ⟨spot.found, .dropped, nowMs, version, []⟩
  return { m with tables := spot.removed, retired := m.retired ++ [retired] }

def undropTable (m : Manifest) (table : TableName) : Except Error Manifest :=
  match rposition (fun r => r.reason == .dropped && r.entry.name == table) m.retired with
  | none => .error (.notDropped table.display)
  | some r => do
    ensure (m.table table).isNone (.conflict table.display "table already exists")
    return { m with
      retired := r.removed
      tables := insertByKey (·.name) r.found.entry m.tables }

def truncateTable (m : Manifest) (table : TableName) (version nowMs : Nat) : Except Error Manifest := do
  let spot ← m.tableIndex table
  m.refuseJob table
  let emptied := { spot.found with segments := [], tombstones := [] }
  return { m with tables := spot.replaced emptied }.release table spot.found.segments version nowMs

def expireRetired (m : Manifest) (beforeMs version nowMs : Nat) : Manifest :=
  let (expired, kept) := m.retired.partition fun r => r.retiredAtMs < beforeMs
  expired.foldl (fun m r => m.release r.entry.name r.entry.segments version nowMs) { m with retired := kept }

/-- The pairs of value and type a segment or a manifest can store. -/
def valueMatchesType : Value → DataType → Bool
  | .bool _, .bool | .int64 _, .int64 | .uint64 _, .uint64 | .float64 _, .float64
  | .decimal _, .decimal _ | .string _, .string | .bytes _, .bytes | .timestamp _, .timestamp
  | .date _, .date | .uuid _, .uuid | .ip _, .ip => true
  | _, _ => false

/-- A predicate as a tombstone stores it, its value at the column's exact type. -/
def storedPredicate (schema : List SchemaField) (p : Predicate) : Except Error Predicate :=
  if p.value.isNull then .error (.usage s!"tombstone predicate on {p.column} has a null value")
  else
    match schema.find? (·.field.name == p.column) with
    | none => .error (.usage s!"unknown column {p.column}")
    | some f =>
      match (coerce p.value f.field.ty).filter (valueMatchesType · f.field.ty) with
      | none => .error (.usage
          s!"tombstone predicate value for {p.column} does not fit column type {f.field.ty.display}")
      | some value => .ok { p with value := value }

/-- Whether a predicate names a column that the target of a running job has dropped. -/
def namesDropped (schema : List SchemaField) (target : TableEntry) (p : Predicate) : Bool :=
  (schema.find? (·.field.name == p.column)).any fun f => (target.field f.id).isNone

def addTombstone (m : Manifest) (table : TableName) (predicates : List Predicate) : Except Error Manifest := do
  let spot ← m.tableIndex table
  match (m.jobFor table).filter fun job => predicates.any (namesDropped spot.found.schema job.target) with
  | some job => .error (.jobRunning table.display job.id)
  | none => do
    let stored ← predicates.mapM (storedPredicate spot.found.schema)
    let tombstone : Tombstone := ⟨m.version + 1, stored⟩
    return { m with
      tables := spot.replaced { spot.found with tombstones := spot.found.tombstones ++ [tombstone] } }

def forgetGarbage (m : Manifest) (ids : List Nat) : Manifest :=
  { m with garbage := m.garbage.filter fun g => !ids.contains g.segment.id }

def reserveSegmentIds (m : Manifest) (next : Nat) : Manifest :=
  { m with nextSegmentId := max m.nextSegmentId next }

def recordMigration (m : Manifest) (name : String) (checksum nowMs : Nat) : Except Error Manifest := do
  ensure (!m.migrations.any (·.name == name)) (.migrationRecorded name)
  return { m with migrations := m.migrations ++ [⟨name, checksum, nowMs⟩] }

/-- `version` is the version the commit lands at; `m.version` stays its base until the end. -/
def applyEdit (version nowMs : Nat) (m : Manifest) : Edit → Except Error Manifest
  | .createTable spec => m.createTable spec
  | .addSegments table segments => m.addSegments table segments
  | .removeSegments table ids => m.removeSegments table ids version nowMs
  | .addTombstone table predicates => m.addTombstone table predicates
  | .forgetGarbage ids => .ok (m.forgetGarbage ids)
  | .reserveSegmentIds next => .ok (m.reserveSegmentIds next)
  | .createJob table ops => m.createJob table ops
  | .advanceJob job reused rewritten segments => m.advanceJob job reused rewritten segments
  | .swapJob job => m.swapJob job version nowMs
  | .cancelJob job => m.cancelJob job version nowMs
  | .revertTable table => m.revertTable table version nowMs
  | .dropTable table => m.dropTable table version nowMs
  | .undropTable table => m.undropTable table
  | .truncateTable table => m.truncateTable table version nowMs
  | .expireRetired beforeMs => .ok (m.expireRetired beforeMs version nowMs)
  | .recordMigration name checksum => m.recordMigration name checksum nowMs

end Manifest

/-- The next manifest, at `current.version + 1`, or the first refusal. -/
def Commit.apply (c : Commit) (current : Manifest) (nowMs : Nat) : Except Error Manifest := do
  let next ← c.edits.foldlM (Manifest.applyEdit (current.version + 1) nowMs) current
  return { next with version := current.version + 1 }

end Adelie
