import Adelie.Exec.GroupKey
import Adelie.Lib.Assoc

namespace Adelie

namespace TopK

structure Entry where
  value : Value
  count : Nat
  error : Nat

abbrev Key := List UInt8

/-- A group's hash map, as its items in the order it iterates. -/
abbrev Summary := List (Key × Entry)

/-- `min_by_key` of the counts: of several least, the first to come by. -/
def minByCount : Summary → Option (Key × Entry)
  | [] => none
  | x :: rest =>
    match minByCount rest with
    | none => some x
    | some least => if least.2.count < x.2.count then some least else some x

/-- One more of a kept key; a new key in a free place, else in place of a least one, whose count it takes over.
    Nothing is the `expect` of a map that is full and empty. -/
def insert (s : Summary) (key : Key) (value : Value) (capacity : Nat) : Option Summary :=
  match Assoc.get s key with
  | some _ => some (Assoc.modify s key fun e => { e with count := e.count + 1 })
  | none =>
    if s.length < capacity then some ((key, ⟨value, 1, 0⟩) :: s)
    else (minByCount s).map fun least =>
      (key, ⟨value, least.2.count + 1, least.2.count⟩) :: Assoc.remove s least.1

def addEntry (e oe : Entry) : Entry := { e with count := e.count + oe.count, error := e.error + oe.error }

/-- The larger count first, then the smaller key. -/
def Before (a b : Key × Entry) : Prop :=
  b.2.count < a.2.count ∨ a.2.count = b.2.count ∧ a.1.map UInt8.toNat ≤ b.1.map UInt8.toNat

instance : DecidableRel Before := fun _ _ => inferInstanceAs (Decidable (_ ∨ _ ∧ _))

/-- The largest counts, ties by key bytes. -/
def trim (s : Summary) (capacity : Nat) : Summary :=
  if s.length ≤ capacity then s else (s.insertionSort Before).take capacity

def mergeEntry (s : Summary) (x : Key × Entry) : Summary :=
  match Assoc.get s x.1 with
  | some _ => Assoc.modify s x.1 fun e => addEntry e x.2
  | none => x :: s

def merge (s other : Summary) (capacity : Nat) : Summary := trim (other.foldl mergeEntry s) capacity

/-- A value's `encode_row_key` bytes. -/
def keyOf (v : Value) : Key := (encodeRowKey .group [v]).getD []

/-- The larger count first, then the smaller value. -/
def Ahead (a b : Entry) : Prop :=
  b.count < a.count ∨ a.count = b.count ∧ (totalCmp a.value b.value).getD .eq ≠ .gt

instance : DecidableRel Ahead := fun _ _ => inferInstanceAs (Decidable (_ ∨ _ ∧ _))

/-- A group's list; NULL when nothing is kept. -/
def finish (s : Summary) (k : Nat) : Value :=
  if s.isEmpty then .null else .list ((((s.map Prod.snd).insertionSort Ahead).take k).map Entry.value)

structure TopKAccumulator where
  ty : DataType
  k : Nat
  capacity : Nat

/-- A product of two `usize`: past 64 bits a checked build panics, and any other wraps. -/
def usizeMul (P : Platform) (a b : Nat) : Except ExecError Nat :=
  if a * b < 2 ^ 64 then .ok (a * b)
  else if P.overflowChecks then .error (.panicked "attempt to multiply with overflow")
  else .ok (a * b % 2 ^ 64)

def TopKAccumulator.new (P : Platform) (ty : DataType) (k : Nat) : Except ExecError TopKAccumulator :=
  match ty with
  | .list _ => .error (.plan s!"top_k: LIST argument {ty.display} is not supported")
  | .scalar _ => do
    ensure (k ≠ 0) (.invalid "top_k: k must be at least 1")
    return ⟨ty, k, max (← usizeMul P 8 k) 64⟩

/-- A row of a group: NULLs are skipped. -/
def updateRow (s : Summary) (v : Value) (capacity : Nat) : Option Summary :=
  if v.isNull then some s else insert s (keyOf v) v capacity

/-- How a group's summary came about: rows and merges. -/
inductive Plan where
  | empty
  | row (p : Plan) (v : Value)
  | merge (p q : Plan)

/-- The summaries a plan may leave: a hash map iterates in any order. -/
inductive Reach (capacity : Nat) : Plan → Summary → Prop where
  | empty : Reach capacity .empty []
  | row {p : Plan} {s s' : Summary} {v : Value} : Reach capacity p s → updateRow s v capacity = some s' → Reach capacity (.row p v) s'
  | merge {p q : Plan} {s other : Summary} : Reach capacity p s → Reach capacity q other →
      Reach capacity (.merge p q) (merge s other capacity)
  | reorder {p : Plan} {s s' : Summary} : Reach capacity p s → s.Perm s' → Reach capacity p s'

end TopK

end Adelie
