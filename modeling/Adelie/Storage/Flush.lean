import Adelie.Storage.Migrate

namespace Adelie

/-- The batches of each segment a flush writes. -/
def flush (t : TableEntry) (batches : List Batch) (maxRows : Nat) : List (List Batch) :=
  if t.orderBy.isEmpty then splitIntoSegments batches maxRows
  else splitIntoSegments (sortRows batches (orderPositions t)) maxRows

/-- Every table of a flush with the segments written for it. -/
structure FlushState where
  state : MergeState
  written : List (TableName × List SegmentEntry)

section

variable (handed : Nat → Nat) (encode : SegmentFile → Except StorageError Footer)

def flushTable (maxRows : Nat) (m : Manifest) (st : FlushState) (buffered : TableName × List Batch) :
    Except StorageError FlushState :=
  if buffered.2.isEmpty then .ok st
  else
    match m.table buffered.1 with
    | none => .error (.unknownTable buffered.1.display)
    | some t => do
      ensure (engineByName t.engine) (.manifest (.unknownEngine buffered.1.display t.engine))
      -- seq 0: fixed up to the commit's version once that is known
      let next ← (flush t buffered.2 maxRows).foldlM (writeOutput handed encode t "_" 0)
        (st.state.logged [.createDir t.dir "_"])
      return ⟨next, st.written ++ [(buffered.1, next.adds.drop st.state.adds.length)]⟩

/-- The files of a flush: every output written and synced, then every directory. -/
def flushTables (maxRows : Nat) (m : Manifest) (files : Files) (inFlight : List (TableName × List Batch)) :
    Except StorageError FlushState := do
  let st ← inFlight.foldlM (flushTable handed encode maxRows m) ⟨.start files, []⟩
  return { st with state := st.state.logged (st.state.dirs.map fun d => .syncDir d.1 d.2) }

end

/-- One commit for all the tables of a flush, stamped with its version. -/
def FlushState.edits (st : FlushState) (version : Nat) : List Edit :=
  st.written.map fun w => .addSegments w.1 (w.2.map fun s => { s with seq := version })

/-- A job, the live source it migrates, and the source segments it has still to carry. -/
structure Loaded where
  source : TableEntry
  job : Job
  gap : List Nat
  rewrite : Bool

def loadJob (m : Manifest) (id : Nat) : Except StorageError Loaded :=
  match m.job id with
  | none => .error (.manifest (.noSuchJob id))
  | some job =>
    match m.tables.find? (·.id == job.source) with
    | none => .error (.manifest (.conflict job.target.name.display "source table does not exist"))
    | some source =>
      .ok ⟨source, job, source.segmentIds.filter fun id => !job.handled.contains id,
        rewritesSegments source job.target⟩

end Adelie
