import Adelie.Sql.Binder
import Adelie.Sql.Routed
import Adelie.Storage.Append
import Adelie.Storage.Arrival

namespace Adelie

inductive InsertError where
  | sql (e : SqlError)
  | ingest (e : IngestError)
  | unknownTable (table : String)
  | schemaMismatch (table : String)
  | exec (e : ExecError)
  | storage (e : StorageError)

/-- A statement stops with an error it returns, or in a panic. -/
inductive Halt where
  | returned (e : InsertError)
  | panicked (message : String)

/-- What a query returns: batches of the same fields. -/
structure QueryResult where
  fields : List Field
  batches : List ColumnBatch
  each : ∀ b ∈ batches, b.fields = fields ∧ b.Sound

def QueryResult.rows (r : QueryResult) : List Row := r.batches.flatMap ColumnBatch.toRows

/-- The rows of an INSERT: expressions the binder makes values of, or a query's result. -/
inductive InsertSource (ε : Type) where
  | values (rows : List (List ε))
  | query (result : Except InsertError QueryResult)

section Build

variable (P : Platform)

/-- The `?` on a call of the builder. -/
def accept : Except String (RowBuilder × Reply Unit) → Except Halt RowBuilder
  | .error message => .error (.panicked message)
  | .ok (_, .error e) => .error (.returned (.ingest e))
  | .ok (b, .ok ()) => .ok b

def targetColumns (b : RowBuilder) : Option (List String) → Except Halt (List Nat)
  | some names => names.mapM fun n =>
      match b.indexOf n with
      | some i => .ok i
      | none => .error (.returned (.sql (.bind s!"unknown column {n}")))
  | none => .ok b.dataColumns

/-- `batch.column(i).get(r)` into the target at `i`. -/
def setTarget (row : Row) (b : RowBuilder) (target : Nat × Nat) : Except Halt RowBuilder := do
  let v ← (index row target.2).mapError .panicked
  accept (b.setValue P target.1 v)

def insertRow (targets : List Nat) (b : RowBuilder) (row : Row) : Except Halt RowBuilder := do
  let b ← targets.zipIdx.foldlM (setTarget P row) b
  accept (b.endRow P)

variable {ε : Type} (bind : ε → DataType → Except SqlError Value)

def setExpr (fields : List Field) (b : RowBuilder) (target : Nat × ε) : Except Halt RowBuilder := do
  let f ← (index fields target.1).mapError .panicked
  let v ← (bind target.2 f.ty).mapError fun e => .returned (.sql e)
  accept (b.setValue P target.1 v)

def insertValues (fields : List Field) (targets : List Nat) (b : RowBuilder) (row : List ε) : Except Halt RowBuilder := do
  ensure (row.length = targets.length)
    (.returned (.sql (.bind s!"INSERT has {row.length} values for {targets.length} columns")))
  let b ← (targets.zip row).foldlM (setExpr P bind fields) b
  accept (b.endRow P)

/-- The batch an INSERT writes. -/
def insertBatch (fields : List Field) (columns : Option (List String)) (source : InsertSource ε) :
    Except Halt ColumnBatch := do
  let b := RowBuilder.new fields
  let targets ← targetColumns b columns
  let b ← match source with
    | .values rows => rows.foldlM (insertValues P bind fields targets) b
    | .query result => do
      let result ← result.mapError .returned
      result.rows.foldlM (insertRow P targets) b
  match b.finish.2 with
  | .ok batch => .ok batch
  | .error e => .error (.returned (.ingest e))

end Build

/-- How the store writes: what encodes a segment, what publishes a manifest, and the options. -/
structure Writer where
  encode : SegmentFile → Except StorageError Footer
  publish : Manifest → Except StorageError Unit
  opts : StoreOptions

/-- `Store::write` of one batch, with the flush that acknowledges it. -/
def Arrival.write (w : Writer) (s : Arrival) (name : TableName) (batch : ColumnBatch) (nowMs : Nat) :
    Except InsertError Arrival :=
  match s.manifest.table name with
  | none => .error (.unknownTable name.display)
  | some t => do
    ensure (batch.fields = t.fields) (.schemaMismatch name.display)
    ensure (engineByName t.engine) (.storage (.manifest (.unknownEngine name.display t.engine)))
    let outputs ← (Append.flush t [batch] w.opts.maxRows).mapError .exec
    let st ← ((outputs.map (List.map ColumnBatch.toRows)).foldlM (writeOutput (s.nextId + ·) w.encode t "_" 0)
      ((MergeState.start s.files).logged [.createDir t.dir "_"])).mapError .storage
    let version := s.manifest.version + 1
    let m ← ((Commit.mk s.manifest.version [.addSegments name (st.adds.map fun g => { g with seq := version })]).apply
      s.manifest nowMs).mapError fun e => .storage (.manifest e)
    (w.publish m).mapError .storage
    return ⟨m, st.files, s.nextId + st.drawn, s.written ++ batch.toRows⟩

/-- The store an INSERT leaves, and the rows it says it has written. What a failed flush has put into files belongs
    to no segment. -/
def executeInsert {ε : Type} (P : Platform) (bind : ε → DataType → Except SqlError Value) (w : Writer) (s : Arrival)
    (name : TableName) (columns : Option (List String)) (source : InsertSource ε) (nowMs : Nat) :
    Arrival × Except Halt Nat :=
  match s.manifest.table name with
  | none => (s, .error (.returned (.sql (.bind s!"table {name.display} does not exist"))))
  | some t =>
    match insertBatch P bind t.fields columns source with
    | .error e => (s, .error e)
    | .ok batch =>
      match s.write w name batch nowMs with
      | .error e => (s, .error (.returned e))
      | .ok s' => (s', .ok batch.rows)

end Adelie
