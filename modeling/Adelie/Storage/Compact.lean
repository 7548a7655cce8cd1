import Adelie.Storage.Rows

namespace Adelie

/-- One merge an engine proposes: live segments of one partition. -/
structure MergePlan where
  partition : String
  inputs : List Nat
deriving DecidableEq, Repr

def mergeInput (t : TableEntry) (plan : MergePlan) (id : Nat) : Except StorageError SegmentEntry :=
  match t.segments.find? (·.id == id) with
  | none => .error (.usage s!"merge input {id} is not live")
  | some s => do
    ensure (s.partition = plan.partition) (.usage s!"merge input {id} is not in partition {plan.partition}")
    return s

/-- Refuses a plan whose inputs are not all live, not all in its partition, or whose seq range
    straddles a tombstone. No u64 is past the value the minimum starts from. -/
def validateMerge (t : TableEntry) (plan : MergePlan) : Except StorageError Unit := do
  ensure (!plan.inputs.isEmpty) (.usage "merge plan has no inputs")
  let inputs ← plan.inputs.mapM (mergeInput t plan)
  let minSeq := (inputs.map (·.seq)).min?.getD (2 ^ 64 - 1)
  let maxSeq := (inputs.map (·.seq)).max?.getD 0
  t.tombstones.forM fun x => ensure (!(decide (minSeq < x.seq) && decide (x.seq ≤ maxSeq)))
    (.usage s!"merge plan for partition {plan.partition} straddles the tombstone at seq {x.seq}")

structure RunState where
  plans : List MergePlan
  run : List Nat
  runMinSeq : Nat

def closeRun (partition : String) (minInputs : Nat) (st : RunState) : RunState :=
  if minInputs ≤ st.run.length then { st with plans := st.plans ++ [⟨partition, st.run⟩], run := [] }
  else { st with run := [] }

def maxInputs : Nat := 32

def tooBig (opts : StoreOptions) (s : SegmentEntry) : Bool := opts.compactSmallRows ≤ s.rows

def planStep (t : TableEntry) (partition : String) (opts : StoreOptions) (st : RunState) (s : SegmentEntry) :
    RunState :=
  let straddles := !st.run.isEmpty && t.tombstones.any fun x => st.runMinSeq < x.seq && x.seq ≤ s.seq
  let st :=
    if tooBig opts s || straddles || maxInputs ≤ st.run.length then closeRun partition opts.compactMinInputs st
    else st
  if tooBig opts s then st
  else { st with runMinSeq := if st.run.isEmpty then s.seq else st.runMinSeq, run := st.run ++ [s.id] }

/-- Walks one partition in order. A run closes at a segment that is too big, at one whose seq would
    put a tombstone inside it, and at `maxInputs`. -/
def planPartition (t : TableEntry) (partition : String) (opts : StoreOptions) : List MergePlan :=
  let walked := (t.segments.filter (·.partition == partition)).foldl (planStep t partition opts) ⟨[], [], 0⟩
  (closeRun partition opts.compactMinInputs walked).plans

def distinctPartitions (segments : List SegmentEntry) : List String :=
  segments.foldl (fun seen s => if seen.contains s.partition then seen else seen ++ [s.partition]) []

def planMerge (t : TableEntry) (opts : StoreOptions) : List MergePlan :=
  (distinctPartitions t.segments).flatMap fun partition => planPartition t partition opts

/-- What the writer reports of the file it wrote, besides its rows. -/
structure Footer where
  bytes : Nat
  footerCrc : Nat
  columns : List ColumnStats

/-- `db/<id>`, the id in sixteen hexadecimal digits. -/
def TableEntry.dir (t : TableEntry) : String :=
  t.name.db ++ "/" ++ String.ofList (List.leftpad 16 '0' (Nat.toDigits 16 t.id))

/-- Creates the file, truncating what is there. -/
def writeNew (files : Files) (path : SegmentPath) (file : SegmentFile) : Files :=
  fun p => if p = path then some file else files p

/-- The operations a writer of segments performs, in order. -/
inductive FileOp where
  | createDir (dir partition : String)
  | write (path : SegmentPath) (file : SegmentFile)
  | syncFile (path : SegmentPath)
  | syncDir (dir partition : String)

def FileOp.apply (files : Files) : FileOp → Files
  | .write path file => writeNew files path file
  | .createDir _ _ | .syncFile _ | .syncDir _ _ => files

/-- What a writer has done: the files as it sees them, the ids it has drawn, the segments it takes
    out and brings in, and the operations behind them. -/
structure MergeState where
  files : Files
  drawn : Nat
  removes : List Nat
  adds : List SegmentEntry
  log : List FileOp

namespace MergeState

def start (files : Files) : MergeState := ⟨files, 0, [], [], []⟩

@[simp] theorem start_removes (files : Files) : (start files).removes = [] := rfl
@[simp] theorem start_adds (files : Files) : (start files).adds = [] := rfl

def logged (st : MergeState) (ops : List FileOp) : MergeState := { st with log := st.log ++ ops }

@[simp] theorem logged_files (st : MergeState) (ops : List FileOp) : (st.logged ops).files = st.files := rfl
@[simp] theorem logged_removes (st : MergeState) (ops : List FileOp) : (st.logged ops).removes = st.removes := rfl
@[simp] theorem logged_adds (st : MergeState) (ops : List FileOp) : (st.logged ops).adds = st.adds := rfl

/-- The directories the writer has made sure of, each once. -/
def dirs (st : MergeState) : List (String × String) :=
  st.log.foldl (fun seen op =>
    match op with
    | .createDir dir partition => if seen.contains (dir, partition) then seen else seen ++ [(dir, partition)]
    | _ => seen) []

end MergeState

section Prepare

-- the segment ids the store's counter hands to this compaction, and the codec
variable (handed : Nat → Nat) (encode : SegmentFile → Except StorageError Footer)

def writeOutput (t : TableEntry) (partition : String) (seq : Nat) (st : MergeState) (output : List Batch) :
    Except StorageError MergeState :=
  if wide : ∀ row ∈ output.flatten, row.length = t.fields.length then do
    let file := writeSegment t.fields output wide
    let footer ← encode file
    let s : SegmentEntry :=
      { id := handed st.drawn
        partition := partition
        seq := seq
        rows := file.rows.length
        bytes := footer.bytes
        footerCrc := footer.footerCrc
        columns := footer.columns
        sideFiles := []
        dir := t.dir
        fieldIds := t.schemaIds
        fileFieldIds := [] }
    return { st with
      files := writeNew st.files s.path file
      drawn := st.drawn + 1
      adds := st.adds ++ [s]
      log := st.log ++ [.write s.path file, .syncFile s.path] }
  else .error (.usage "batch fields do not match writer fields")

/-- One plan: its inputs as the table sees them, deleted rows included, written out again under
    the greatest seq of the inputs. -/
def mergePlan (maxRows : Nat) (t : TableEntry) (st : MergeState) (plan : MergePlan) :
    Except StorageError MergeState := do
  validateMerge t plan
  let inputs ← plan.inputs.mapM (mergeInput t plan)
  let maxSeq := (inputs.map (·.seq)).max?.getD 0
  let batches ← inputs.mapM fun s => readSegmentAs st.files s t.schema
  let st ← (merge t batches maxRows).foldlM (writeOutput handed encode t plan.partition maxSeq)
    (st.logged [.createDir t.dir plan.partition])
  return { st with removes := st.removes ++ plan.inputs, log := st.log ++ [.syncDir t.dir plan.partition] }

def mergePlans (maxRows : Nat) (t : TableEntry) (files : Files) (plans : List MergePlan) :
    Except StorageError MergeState :=
  plans.foldlM (mergePlan handed encode maxRows t) (.start files)

/-- Every merge the table's engine proposes, written; nothing when it proposes none. -/
def prepare (opts : StoreOptions) (files : Files) (m : Manifest) (table : TableName) :
    Except StorageError (Option MergeState) :=
  match m.table table with
  | none => .error (.unknownTable table.display)
  | some t => do
    ensure (engineByName t.engine) (.manifest (.unknownEngine table.display t.engine))
    let plans := planMerge t opts
    if plans.isEmpty then return none
    else return some (← mergePlans handed encode opts.maxRows t files plans)

end Prepare

/-- The one commit of a compaction. -/
def MergeState.edits (st : MergeState) (table : TableName) : List Edit :=
  [.removeSegments table st.removes, .addSegments table st.adds]

end Adelie
