import Adelie.Exec.Order
import Adelie.Lib.Pool

namespace Adelie

/-- One worker's part of a result, merged with the others' at the end. -/
structure Sink (σ : Type) where
  empty : σ
  push : σ → ColumnBatch → Except ExecError σ
  merge : σ → σ → Except ExecError σ
  done : σ → Bool

/-- Keeps every batch; merging pushes the other's batches one by one. -/
def bufferSink : Sink (List ColumnBatch) where
  empty := []
  push held b := .ok (held ++ [b])
  merge held other := other.foldlM (fun held b => .ok (held ++ [b])) held
  done _ := false

namespace CollectSink

def sink : Sink (List ColumnBatch) := bufferSink

def finish (fields : List Field) (held : List ColumnBatch) : Except ExecError (List ColumnBatch) :=
  rechunk fields held

end CollectSink

namespace SortSink

def sink : Sink (List ColumnBatch) := bufferSink

/-- `sort_batches`. -/
def finish (fields : List Field) (keys : List SortKey) (held : List ColumnBatch) :
    Except ExecError (List ColumnBatch) := do
  if held.isEmpty then return []
  let concat ← concatBatches fields held
  let order ← sortIndices concat keys
  let sorted ← takeBatch concat order
  rechunk fields [sorted]

end SortSink

namespace TopKSink

variable (fields : List Field) (keys : List SortKey) (k : Nat)

/-- What is held comes first, so ties keep the order of arrival. -/
def foldIn (held incoming : List ColumnBatch) : Except ExecError (List ColumnBatch) := do
  if k = 0 then return held
  if (held ++ incoming).isEmpty then return held
  let concat ← concatBatches fields (held ++ incoming)
  let order ← sortIndices concat keys
  let taken ← takeBatch concat (order.take k)
  return [taken]

def sink : Sink (List ColumnBatch) where
  empty := []
  push held b := foldIn fields keys k held [b]
  merge := foldIn fields keys k
  done _ := k = 0

end TopKSink

structure LimitSink where
  batches : List ColumnBatch
  rows : Nat

namespace LimitSink

variable (limit : Option Nat) (offset : Nat)

/-- The most rows ever held, a `usize` sum. -/
def bound : Option Nat := limit.map fun l => (offset + l) % 2 ^ 64

def cut (held : LimitSink) (b : ColumnBatch) : Except ExecError ColumnBatch :=
  match bound limit offset with
  | some bound => if bound < held.rows + b.rows then sliceBatch b 0 (bound - held.rows) else .ok b
  | none => .ok b

def push (held : LimitSink) (b : ColumnBatch) : Except ExecError LimitSink := do
  if limit = some 0 then return held
  let b ← cut limit offset held b
  if b.rows = 0 then return held
  return ⟨held.batches ++ [b], held.rows + b.rows⟩

def sink : Sink LimitSink where
  empty := ⟨[], 0⟩
  push := push limit offset
  merge held other := other.batches.foldlM (push limit offset) held
  done held := limit = some 0 || (bound limit offset).any (· ≤ held.rows)

/-- Drops the first `remaining` rows. -/
def skip : Nat → List ColumnBatch → Except ExecError (List ColumnBatch)
  | _, [] => .ok []
  | remaining, b :: rest =>
    if b.rows ≤ remaining then skip (remaining - b.rows) rest
    else do
      let first ← sliceBatch b remaining (b.rows - remaining)
      return first :: (← skip 0 rest)

def finish (fields : List Field) (held : LimitSink) : Except ExecError (List ColumnBatch) := do
  rechunk fields (← skip offset held.batches)

end LimitSink

end Adelie
