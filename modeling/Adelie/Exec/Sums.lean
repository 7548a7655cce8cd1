import Adelie.Exec.Arith
import Adelie.Segment.Wire

namespace Adelie

namespace Agg

def stateVersion : Nat := 1

def invalid (what : String) (e : DecodeError) : ExecError := .invalid s!"{what} state: {(repr e).pretty}"

/-- The leading version byte of an encoded state. -/
def checkVersion (what : String) (version : Nat) : Except ExecError Unit :=
  ensure (version = stateVersion) (.invalid s!"{what} state: unknown version {version}")

inductive SumKind where
  | int64 | uint64 | float64
  | decimal (scale : Nat)
deriving DecidableEq, Repr

def SumKind.of : DataType → Option SumKind
  | .int64 => some .int64
  | .uint64 => some .uint64
  | .float64 => some .float64
  | .decimal t => some (.decimal t.scale)
  | _ => none

def opName : SumKind → String
  | .int64 => "sum(INT64)"
  | .uint64 => "sum(UINT64)"
  | .float64 => "sum(FLOAT64)"
  | .decimal _ => "sum(DECIMAL)"

/-- The output kind's own range, checked at every step. -/
def inRange : SumKind → Int → Bool
  | .int64, sum => -2 ^ 63 ≤ sum && sum < 2 ^ 63
  | .uint64, sum => 0 ≤ sum && sum < 2 ^ 64
  | _, _ => true

/-- By group; a group not yet reached has neither rows nor a sum. -/
structure SumState where
  has : Nat → Bool
  intSum : Nat → Int
  floatSum : Nat → Float64

def SumState.new : SumState := ⟨fun _ => false, fun _ => 0, fun _ => .ofNat false 0⟩

/-- The row is filtered out. -/
def dropped (filter : Option (List Bool)) (r : Nat) : Bool := filter.any fun f => !f.getD r false

/-- Each group's row, in order, skipping what the filter drops and NULLs. -/
def updateRows {S : Type} (add : S → Nat → Value → Except ExecError S) (cells : List Value) (filter : Option (List Bool))
    (s : S) (row : Nat × Nat) : Except ExecError S :=
  if dropped filter row.2 then .ok s
  else match cells[row.2]? with
    | none => .error (.panicked "index out of bounds")
    | some v => if v.isNull then .ok s else add s row.1 v

section Sum

variable (P : Platform) (kind : SumKind)

/-- Checked in an `i128`, then against the output kind. -/
def addInt (s : SumState) (g : Nat) (v : Int) : Except ExecError SumState :=
  match Cast.checkedI128 (s.intSum g + v) with
  | none => .error (.overflow (opName kind))
  | some sum =>
    if inRange kind sum then .ok { s with intSum := Function.update s.intSum g sum, has := Function.update s.has g true }
    else .error (.overflow (opName kind))

def addFloat (s : SumState) (g : Nat) (f : Float64) : SumState :=
  { s with floatSum := Function.update s.floatSum g (P.add (s.floatSum g) f), has := Function.update s.has g true }

def addValue (s : SumState) (g : Nat) (v : Value) : Except ExecError SumState :=
  match kind, v with
  | .float64, .float64 f => .ok (addFloat P s g f)
  | .int64, .int64 n => addInt kind s g n.val
  | .uint64, .uint64 n => addInt kind s g n.val
  | .decimal _, .decimal d => addInt kind s g d.unscaled
  | _, _ => .error (.panicked "sum arg type matches the accumulator's kind")

def sumUpdate (s : SumState) (groups : List Nat) (cells : List Value) (filter : Option (List Bool)) : Except ExecError SumState :=
  groups.zipIdx.foldlM (updateRows (addValue P kind) cells filter) s

/-- The other's group, unless it has no rows, into its target. -/
def sumMergeRow (other s : SumState) (row : Nat × Nat) : Except ExecError SumState :=
  if !other.has row.2 then .ok s
  else match kind with
    | .float64 => .ok (addFloat P s row.1 (other.floatSum row.2))
    | _ => addInt kind s row.1 (other.intSum row.2)

def sumMerge (s : SumState) (groups : List Nat) (other : SumState) : Except ExecError SumState :=
  groups.zipIdx.foldlM (sumMergeRow P kind other) s

def sumEncodeState (s : SumState) (group : Nat) : List UInt8 :=
  Sink.u8 stateVersion ++ (Sink.u8 (s.has group).toNat ++
    if s.has group then
      match kind with
      | .float64 => Sink.u64 (s.floatSum group).bits.val
      | _ => Sink.i128 (s.intSum group)
    else [])

def sumMergeEncoded (s : SumState) (group : Nat) (bytes : List UInt8) : Except ExecError SumState := do
  let (version, bytes) ← (Cursor.u8 bytes).mapError (invalid "sum")
  checkVersion "sum" version
  let (has, bytes) ← (Cursor.u8 bytes).mapError (invalid "sum")
  if has = 0 then return s
  else match kind with
    | .float64 =>
      let (bits, _) ← (Cursor.u64 bytes).mapError (invalid "sum")
      return addFloat P s group ⟨⟨bits % 2 ^ 64, Nat.mod_lt _ (Nat.two_pow_pos 64)⟩⟩
    | _ =>
      let (v, _) ← (Cursor.i128 bytes).mapError (invalid "sum")
      addInt kind s group v

def sumType : Except ExecError DataType :=
  match kind with
  | .int64 => .ok .int64
  | .uint64 => .ok .uint64
  | .float64 => .ok .float64
  | .decimal scale =>
    match DecimalType.new 38 scale with
    | .ok t => .ok (.decimal t)
    | .error _ => .error (.panicked "scale <= 38 fits DECIMAL(38,_)")

def wrapU64 (n : Int) : U64 := ⟨(n % 2 ^ 64).toNat, by omega⟩

def sumCell (s : SumState) (g : Nat) : Except ExecError Value :=
  if !s.has g then .ok .null
  else match kind with
    | .int64 => .ok (.int64 (wrapI64 (s.intSum g)))
    | .uint64 => .ok (.uint64 (wrapU64 (s.intSum g)))
    | .float64 => .ok (.float64 (s.floatSum g))
    | .decimal scale =>
      match Decimal.new (s.intSum g) scale with
      | .ok d => .ok (.decimal d)
      | .error _ => .error (.overflow "sum(DECIMAL)")

def sumFinish (s : SumState) (totalGroups : Nat) : Except ExecError Column := do
  let ty ← sumType kind
  buildColumn ty (← (List.range totalGroups).mapM (sumCell kind s))

end Sum

inductive AvgKind where
  | intLike | float64
  | decimal (scale : Nat)
deriving DecidableEq, Repr

def AvgKind.of : DataType → Option AvgKind
  | .int64 | .uint64 => some .intLike
  | .decimal t => some (.decimal t.scale)
  | .float64 => some .float64
  | _ => none

structure AvgState where
  intSum : Nat → Int
  floatSum : Nat → Float64
  counts : Nat → Nat

def AvgState.new : AvgState := ⟨fun _ => 0, fun _ => .ofNat false 0, fun _ => 0⟩

section Avg

variable (P : Platform) (kind : AvgKind)

/-- An unchecked `+` on integers from `low` up to `high`: past the range a checked build panics, and any other wraps. -/
def plain (low high : Int) (n : Int) : Except ExecError Int :=
  if low ≤ n ∧ n < high then .ok n
  else if P.overflowChecks then .error (.panicked "attempt to add with overflow")
  else .ok ((n - low) % (high - low) + low)

def addCounted (s : AvgState) (g : Nat) (v : Int) (count : Nat) : Except ExecError AvgState := do
  let sum ← plain P (-2 ^ 127) (2 ^ 127) (s.intSum g + v)
  let total ← plain P 0 (2 ^ 64) (s.counts g + count)
  return { s with intSum := Function.update s.intSum g sum, counts := Function.update s.counts g total.toNat }

def addCountedFloat (s : AvgState) (g : Nat) (f : Float64) (count : Nat) : Except ExecError AvgState := do
  let total ← plain P 0 (2 ^ 64) (s.counts g + count)
  return { s with floatSum := Function.update s.floatSum g (P.add (s.floatSum g) f)
                  counts := Function.update s.counts g total.toNat }

def avgValue (s : AvgState) (g : Nat) (v : Value) : Except ExecError AvgState :=
  match kind, v with
  | .float64, .float64 f => addCountedFloat P s g f 1
  | .decimal _, .decimal d => addCounted P s g d.unscaled 1
  | .intLike, .int64 n => addCounted P s g n.val 1
  | .intLike, .uint64 n => addCounted P s g n.val 1
  | _, _ => .error (.panicked "avg arg type matches the accumulator's kind")

def avgUpdate (s : AvgState) (groups : List Nat) (cells : List Value) (filter : Option (List Bool)) : Except ExecError AvgState :=
  groups.zipIdx.foldlM (updateRows (avgValue P kind) cells filter) s

def avgMergeRow (other s : AvgState) (row : Nat × Nat) : Except ExecError AvgState :=
  if other.counts row.2 = 0 then .ok s
  else match kind with
    | .float64 => addCountedFloat P s row.1 (other.floatSum row.2) (other.counts row.2)
    | _ => addCounted P s row.1 (other.intSum row.2) (other.counts row.2)

def avgMerge (s : AvgState) (groups : List Nat) (other : AvgState) : Except ExecError AvgState :=
  groups.zipIdx.foldlM (avgMergeRow P kind other) s

/-- The sum as SUM encodes it, and the count. -/
def avgEncodeState (s : AvgState) (group : Nat) : List UInt8 :=
  Sink.u8 stateVersion ++ (Sink.u8 (decide (0 < s.counts group)).toNat ++
    ((if 0 < s.counts group then
      match kind with
      | .float64 => Sink.u64 (s.floatSum group).bits.val
      | _ => Sink.i128 (s.intSum group)
    else []) ++ Sink.uvarint (s.counts group)))

def avgMergeEncoded (s : AvgState) (group : Nat) (bytes : List UInt8) : Except ExecError AvgState := do
  let (version, bytes) ← (Cursor.u8 bytes).mapError (invalid "avg")
  checkVersion "avg" version
  let (has, bytes) ← (Cursor.u8 bytes).mapError (invalid "avg")
  if has = 0 then
    let (count, _) ← (Cursor.uvarint bytes).mapError (invalid "avg")
    let total ← plain P 0 (2 ^ 64) (s.counts group + count)
    return { s with counts := Function.update s.counts group total.toNat }
  else match kind with
    | .float64 =>
      let (bits, bytes) ← (Cursor.u64 bytes).mapError (invalid "avg")
      let (count, _) ← (Cursor.uvarint bytes).mapError (invalid "avg")
      addCountedFloat P s group ⟨⟨bits % 2 ^ 64, Nat.mod_lt _ (Nat.two_pow_pos 64)⟩⟩ count
    | _ =>
      let (v, bytes) ← (Cursor.i128 bytes).mapError (invalid "avg")
      let (count, _) ← (Cursor.uvarint bytes).mapError (invalid "avg")
      addCounted P s group v count

/-- The sum over the count, a DECIMAL's sum scaled down first. -/
def avgCell (s : AvgState) (g : Nat) : Value :=
  if s.counts g = 0 then .null
  else .float64 (match kind with
    | .float64 => P.div (s.floatSum g) (P.ofInt (s.counts g))
    | .decimal scale => P.div (P.div (P.ofInt (s.intSum g)) (P.ofInt (10 ^ scale))) (P.ofInt (s.counts g))
    | .intLike => P.div (P.ofInt (s.intSum g)) (P.ofInt (s.counts g)))

def avgFinish (s : AvgState) (totalGroups : Nat) : Except ExecError Column :=
  buildColumn .float64 ((List.range totalGroups).map (avgCell P kind s))

end Avg

/-- How an accumulator came about: rows added, other accumulators merged, whole or by the encoded state of one group. -/
inductive Plan where
  | empty
  | update (p : Plan) (groups : List Nat) (cells : List Value) (filter : Option (List Bool))
  | merge (p : Plan) (groups : List Nat) (q : Plan)
  | mergeEncoded (p : Plan) (group : Nat) (q : Plan) (other : Nat)

namespace Plan

variable (P : Platform)

def sum (kind : SumKind) : Plan → Except ExecError SumState
  | .empty => .ok .new
  | .update p groups cells filter => do sumUpdate P kind (← p.sum kind) groups cells filter
  | .merge p groups q => do sumMerge P kind (← p.sum kind) groups (← q.sum kind)
  | .mergeEncoded p group q other => do
    sumMergeEncoded P kind (← p.sum kind) group (sumEncodeState kind (← q.sum kind) other)

def avg (kind : AvgKind) : Plan → Except ExecError AvgState
  | .empty => .ok .new
  | .update p groups cells filter => do avgUpdate P kind (← p.avg kind) groups cells filter
  | .merge p groups q => do avgMerge P kind (← p.avg kind) groups (← q.avg kind)
  | .mergeEncoded p group q other => do
    avgMergeEncoded P kind (← p.avg kind) group (avgEncodeState kind (← q.avg kind) other)

end Plan

end Agg

end Adelie
