import Adelie.Sql.Insert
import Adelie.Storage.Zone

namespace Adelie

section Bind

variable (P : Platform)

def literalText (text : String) (ty : DataType) (message : String) : Except Halt Value :=
  match P.fromText text ty with
  | .error panic => .error (.panicked panic)
  | .ok none => .error (.returned (.sql (.bind message)))
  | .ok (some v) => .ok v

def literalValue (lit : Ast.Literal) (target : DataType) : Except Halt Value :=
  match lit with
  | .null => .ok .null
  | .number text => literalText P text target s!"value {text} does not fit {target.display}"
  | .string s => .ok (.string s)
  | .bool b => .ok (.bool b)
  | .date s => literalText P s .date ("invalid date '" ++ s ++ "'")
  | .timestamp s => literalText P s .timestamp ("invalid timestamp '" ++ s ++ "'")
  | .interval _ => .error (.returned (.sql (.bind "INTERVAL is not valid here")))

def astConjuncts : Ast.Expr → List Ast.Expr
  | .binaryOp .and left right => astConjuncts left ++ astConjuncts right
  | e => [e]

def manifestCmp : Ast.BinaryOp → Option CmpOp
  | .eq => some .eq
  | .notEq => some .ne
  | .lt => some .lt
  | .ltEq => some .le
  | .gt => some .gt
  | .gtEq => some .ge
  | _ => none

def unsupportedDelete : Halt :=
  .returned (.sql (.bind "DELETE supports AND of column comparisons with literals in v1"))

/-- A column, a literal and the comparison between them, flipped when the literal stands first. -/
def comparedColumn : Ast.Expr → Option (String × Ast.Literal × CmpOp)
  | .binaryOp op left right => do
    let cmp ← manifestCmp op
    match left, right with
    | .column [name], .literal l => some (name, l, cmp)
    | .literal l, .column [name] => some (name, l, cmp.flip)
    | _, _ => none
  | _ => none

def bindDeletePredicate (fields : List Field) (c : Ast.Expr) : Except Halt Predicate :=
  match comparedColumn c with
  | none => .error unsupportedDelete
  | some (name, lit, cmp) =>
    match fields.find? (·.name == name) with
    | none => .error (.returned (.sql (.bind s!"column \"{name}\" does not exist")))
    | some f => do
      let value ← literalValue P lit f.ty
      ensure (!value.isNull) unsupportedDelete
      return ⟨name, cmp, value⟩

/-- Without WHERE the list is empty, and matches every row. -/
def bindDeletePredicates (fields : List Field) : Option Ast.Expr → Except Halt (List Predicate)
  | none => .ok []
  | some selection => (astConjuncts selection).mapM (bindDeletePredicate P fields)

end Bind

section Count

/-- The columns the count reads: those the predicates name, in order, or the table's first. -/
def countColumns (fields : List Field) (preds : List Predicate) : List String :=
  if preds.isEmpty then [(fields.head?.map (·.name)).getD ""]
  else (preds.map (·.column)).dedup.insertionSort (· ≤ ·)

def countConjunct (fields : List Field) (columns : List String) (p : Predicate) : Expr :=
  .cmp p.op (.column (columns.idxOf p.column))
    (.literal p.value (((fields.find? (·.name == p.column)).map (·.ty)).getD .string))

def countPredicate (fields : List Field) (columns : List String) (preds : List Predicate) : Option Expr :=
  match preds.map (countConjunct fields columns) with
  | [] => none
  | [e] => some e
  | parts => some (.and parts)

/-- Segments by the statistics of their entries, row groups by their zone maps. The engine writes no index. -/
def predicatePruner (t : TableEntry) (columns : List Nat) (pred : Option Expr) : Pruner where
  segment s := pred.all (mayMatch (segmentRanges s t.schema columns))
  group s file i := do
    let index ← mapFileColumns s.id t.schema s.fileIds file.fields
    return pred.all (mayMatch (zoneRanges file index columns ((file.groups[i]?).getD [])))

/-- The batches a segment's morsel gives: one for each row group that keeps a row. -/
def readMorsel (files : Files) (t : TableEntry) (prune : Pruner) (scan : TableScan) (s : SegmentEntry) :
    Except StorageError (List (List Row)) := do
  let file ← openSegment files s
  let index ← mapFileColumns s.id t.schema s.fileIds file.fields
  let tombstones := t.tombstonesFor s
  let needed ← neededColumns t.schema scan.columns tombstones
  let groups ← file.groups.zipIdx.mapM fun group => do
    if ← prune.group s file group.2 then readGroup t scan file index needed tombstones group.1 else return []
  return groups.filter fun rows => !rows.isEmpty

variable (K : Kernels)

def filterRows (fields : List Field) (pred : Expr) (rows : List Row) : Except ExecError (List Row) := do
  let mask ← truthy (← pred.eval K fields rows)
  return filterBatch rows mask

/-- The scan's own filter, then the plan's: a batch goes on when a row of it passes, or all of them do. -/
def passBatch (fields : List Field) (pred : Option Expr) (rows : List Row) : Except ExecError (List Row) :=
  match pred with
  | none => .ok rows
  | some pred => do
    let passed ← filterRows K fields pred rows
    if passed.isEmpty && !rows.isEmpty then return [] else filterRows K fields pred passed

/-- `count(*)` over a table's snapshot, with the predicates a DELETE is about to apply. -/
def countMatching (files : Files) (t : TableEntry) (buffered : List (List Row)) (preds : List Predicate) :
    Except InsertError Nat := do
  let names := countColumns t.fields preds
  let pred := countPredicate t.fields names preds
  let columns := names.map fun name => t.schema.findIdx (·.field.name == name)
  let prune := predicatePruner t columns pred
  let opened ← (openScan t prune names).mapError .storage
  let _ ← (pred.mapM (Expr.dataType K opened.fields)).mapError .exec
  let segments ← (opened.segments.mapM (readMorsel files t prune opened)).mapError .storage
  let buffered ← (buffered.mapM (projectBuffered opened)).mapError .storage
  let passed ← ((segments.flatten ++ buffered).mapM (passBatch K opened.fields pred)).mapError .exec
  return (passed.map List.length).sum

/-- A count of rows in a `u64`, read as an `i64` and no less than zero. -/
def rowsAffected (P : Platform) (n : Nat) : Except String Nat :=
  let asI64 (n : Nat) : Nat := if n < 2 ^ 63 then n else 0
  if n < 2 ^ 64 then .ok (asI64 n)
  else if P.overflowChecks then .error "attempt to add with overflow"
  else .ok (asI64 (n % 2 ^ 64))

end Count

/-- A store with rows in its buffer, and rows a flush has taken from there. -/
structure OpenStore where
  manifest : Manifest
  files : Files
  nextId : Nat
  inFlight : List (TableName × List ColumnBatch)
  pending : List (TableName × List ColumnBatch)

namespace OpenStore

/-- The batches of a table among those of a buffer. -/
def batchesOf (name : TableName) (buffer : List (TableName × List ColumnBatch)) : List ColumnBatch :=
  (buffer.filter (·.1 == name)).flatMap Prod.snd

def bufferedOf (s : OpenStore) (name : TableName) : List ColumnBatch :=
  batchesOf name s.inFlight ++ batchesOf name s.pending

section Flush

variable (w : Writer)

def flushTable (first : Nat) (m : Manifest) (st : FlushState) (buffered : TableName × List ColumnBatch) :
    Except InsertError FlushState :=
  if buffered.2.isEmpty then .ok st
  else
    match m.table buffered.1 with
    | none => .error (.unknownTable buffered.1.display)
    | some t => do
      ensure (engineByName t.engine) (.storage (.manifest (.unknownEngine buffered.1.display t.engine)))
      let outputs ← (Append.flush t buffered.2 w.opts.maxRows).mapError .exec
      let next ← ((outputs.map (List.map ColumnBatch.toRows)).foldlM (writeOutput (first + ·) w.encode t "_" 0)
        (st.state.logged [.createDir t.dir "_"])).mapError .storage
      return ⟨next, st.written ++ [(buffered.1, next.adds.drop st.state.adds.length)]⟩

def commit (s : OpenStore) (edits : List Edit) (nowMs : Nat) : Except InsertError Manifest := do
  let m ← ((Commit.mk s.manifest.version edits).apply s.manifest nowMs).mapError fun e => .storage (.manifest e)
  (w.publish m).mapError .storage
  return m

/-- One flush: every table of a buffer, in one commit. -/
def flushBuffer (s : OpenStore) (buffer : List (TableName × List ColumnBatch)) (nowMs : Nat) :
    Except InsertError OpenStore :=
  if buffer.isEmpty then .ok s
  else do
    let st ← buffer.foldlM (flushTable w s.nextId s.manifest) ⟨.start s.files, []⟩
    let m ← s.commit w (st.edits (s.manifest.version + 1)) nowMs
    return { s with manifest := m, files := st.state.files, nextId := s.nextId + st.state.drawn }

/-- What is in flight lands first, then what was pending. -/
def flush (s : OpenStore) (nowMs : Nat) : Except InsertError OpenStore := do
  let s ← s.flushBuffer w s.inFlight nowMs
  let s ← s.flushBuffer w s.pending nowMs
  return { s with inFlight := [], pending := [] }

def delete (s : OpenStore) (name : TableName) (preds : List Predicate) (nowMs : Nat) : Except InsertError OpenStore := do
  let s ← s.flush w nowMs
  let m ← s.commit w [.addTombstone name preds] nowMs
  return { s with manifest := m }

end Flush

end OpenStore

def executeDelete (K : Kernels) (P : Platform) (w : Writer) (s : OpenStore) (name : TableName)
    (selection : Option Ast.Expr) (nowMs : Nat) : Except Halt (Nat × OpenStore) :=
  match s.manifest.table name with
  | none => .error (.returned (.sql (.bind s!"table {name.display} does not exist")))
  | some t => do
    let preds ← bindDeletePredicates P t.fields selection
    let n ← (countMatching K s.files t ((s.bufferedOf name).map ColumnBatch.toRows) preds).mapError .returned
    let affected ← (rowsAffected P n).mapError .panicked
    let s ← (s.delete w name preds nowMs).mapError .returned
    return (affected, s)

end Adelie
