import Adelie.Exec.Rowkey
import Adelie.Exec.Select
import Adelie.Lib.Chunks
import Adelie.Lib.Multimap

namespace Adelie

inductive JoinKind where
  | inner | left
deriving DecidableEq, Repr

def rowCell (r : Row) (i : Nat) : Value := r[i]?.getD .null

def keyCells (b : ColumnBatch) (keys : List Nat) (row : Nat) : List Value := keys.map (rowCell (b.row row))

/-- The build side in one batch, and the rows under each key. -/
structure JoinTable where
  batch : ColumnBatch
  map : Multimap (List UInt8) Nat
  keys : List Nat

/-- Row numbers go into the map `as u32`; a row with a NULL or NaN key is left out. -/
def JoinTable.build (fields : List Field) (keys : List Nat) (batches : List ColumnBatch) :
    Except ExecError JoinTable := do
  let batch ← concatBatches fields batches
  let map := Multimap.group (fun row => encodeRowKey .skip (keyCells batch keys row)) asU32 (List.range batch.rows)
  return ⟨batch, map, keys⟩

structure HashJoinProbe where
  table : JoinTable
  fields : List Field
  probeKeys : List Nat
  kind : JoinKind

namespace HashJoinProbe

def checkKeyTypes (probeFields buildFields : List Field) : List (Nat × Nat) → Except ExecError Unit
  | [] => .ok ()
  | (pk, bk) :: rest =>
    match probeFields[pk]?, buildFields[bk]? with
    | some p, some b =>
      if p.ty = b.ty then checkKeyTypes probeFields buildFields rest
      else .error (.plan s!"join key type mismatch: probe key is {p.ty.display}, build key is {b.ty.display}")
    | _, _ => .error (.panicked "index out of bounds")

def new (table : JoinTable) (probeFields : List Field) (probeKeys : List Nat) (kind : JoinKind) :
    Except ExecError HashJoinProbe := do
  ensure (probeKeys.length = table.keys.length)
    (.plan s!"join key count mismatch: probe has {probeKeys.length}, build has {table.keys.length}")
  checkKeyTypes probeFields table.batch.fields (probeKeys.zip table.keys)
  match repeatedName (probeFields ++ table.batch.fields) with
  | some name => .error (.plan s!"duplicate join output column: {name}")
  | none => .ok ⟨table, probeFields ++ table.batch.fields, probeKeys, kind⟩

variable (p : HashJoinProbe) (b : ColumnBatch)

/-- The rows a batch joins to, both numbers `as u32`. -/
def indices : List (Nat × Option Nat) :=
  (List.range b.rows).flatMap fun row =>
    match (encodeRowKey .skip (keyCells b p.probeKeys row)).bind p.table.map.get? with
    | some ids => ids.map fun id => (asU32 row, some id)
    | none => if p.kind = .left then [(asU32 row, none)] else []

def emit (chunk : List (Nat × Option Nat)) : Except ExecError ColumnBatch := do
  let left ← b.columns.mapM fun c => takeRows c (chunk.map Prod.fst)
  let right ← p.table.batch.columns.mapM fun c => takeOpt c (chunk.map Prod.snd)
  (ColumnBatch.new p.fields (left ++ right)).mapError fun _ =>
    .panicked "probe ++ build columns share `fields`'s types and one row count"

def push : Except ExecError (List ColumnBatch) := (chunks batchRows (p.indices b)).mapM (p.emit b)

def run (probes : List ColumnBatch) : Except ExecError (List ColumnBatch) :=
  (probes.mapM p.push).map List.flatten

end HashJoinProbe

/-- What the executor does before the first probe batch. -/
def openJoin (leftFields rightFields : List Field) (kind : JoinKind) (on : List (Nat × Nat))
    (builds : List ColumnBatch) : Except ExecError HashJoinProbe := do
  match on.find? fun k => leftFields.length ≤ k.1 || rightFields.length ≤ k.2 with
  | some (l, r) =>
    if leftFields.length ≤ l then
      .error (.plan s!"join left column {l} out of range for {leftFields.length} inputs")
    else .error (.plan s!"join right column {r} out of range for {rightFields.length} inputs")
  | none =>
    let table ← JoinTable.build rightFields (on.map Prod.snd) builds
    HashJoinProbe.new table leftFields (on.map Prod.fst) kind

section NestedLoop

variable (kind : JoinKind) (on : List (Nat × Nat)) (width : Nat)

/-- Every key pair is equal. -/
def rowsMatch (l r : Row) : Bool := on.all fun k => sqlEq (rowCell l k.1) (rowCell r k.2) = some true

/-- In probe order, then build order; an unmatched row stays in a LEFT join. -/
def joinPairs (left right : List Row) : List (Nat × Option Nat) :=
  left.zipIdx.flatMap fun (l, i) =>
    match right.zipIdx.filter fun r => rowsMatch on l r.1 with
    | [] => if kind = .left then [(i, none)] else []
    | hits => hits.map fun r => (i, some r.2)

def nestedLoop (left right : List Row) : List Row :=
  left.flatMap fun l =>
    match right.filter (rowsMatch on l) with
    | [] => if kind = .left then [l ++ List.replicate width .null] else []
    | hits => hits.map (l ++ ·)

end NestedLoop

end Adelie
