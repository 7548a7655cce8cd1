import Adelie.Storage.Read

namespace Adelie

/-- Rows of one schema that travel together. -/
abbrev Batch := List Row

structure StoreOptions where
  maxRows : Nat := 1000000
  maxBytes : Nat := 64 * 1024 * 1024
  flushInterval : Duration := 250 * 10 ^ 6
  retainManifests : Nat := 8
  gcGrace : Duration := 5 * 60 * 10 ^ 9
  compactMinInputs : Nat := 4
  compactSmallRows : Nat := 262144
  retainDefinitions : Duration := 24 * 60 * 60 * 10 ^ 9
  jobStepSegments : Nat := 16
  jobSwapGap : Nat := 4
deriving DecidableEq, Repr

structure SplitState where
  segments : List (List Batch)
  current : List Batch
  rows : Nat

def splitStep (maxRows : Nat) (st : SplitState) (batch : Batch) : SplitState :=
  if !st.current.isEmpty && maxRows < st.rows + batch.length then
    ⟨st.segments ++ [st.current], [batch], batch.length⟩
  else ⟨st.segments, st.current ++ [batch], st.rows + batch.length⟩

/-- Batches in order, with a new segment each time the next one would push the current past
    `maxRows`. A batch is never split. -/
def splitIntoSegments (batches : List Batch) (maxRows : Nat) : List (List Batch) :=
  let st := batches.foldl (splitStep maxRows) ⟨[], [], 0⟩
  if st.current.isEmpty then st.segments else st.segments ++ [st.current]

/-- Two cells of one column, NULL last. -/
def compareCells (a b : Value) : Ordering :=
  match a.isNull, b.isNull with
  | true, true => .eq
  | true, false => .gt
  | false, true => .lt
  | false, false => (totalCmp a b).getD .eq

def compareRows (order : List Nat) (a b : Row) : Ordering :=
  order.foldl (fun acc column => acc.then (compareCells (a.getD column .null) (b.getD column .null))) .eq

structure GroupState where
  groups : List (List Row)
  pending : List Row

def groupPush (size : Nat) (st : GroupState) (batch : Batch) : GroupState :=
  let pending := st.pending ++ batch
  if size ≤ pending.length then ⟨st.groups ++ [pending], []⟩ else ⟨st.groups, pending⟩

/-- Batches gathered until a group holds `size` rows. -/
def groupRows (size : Nat) (batches : List Batch) : List (List Row) :=
  let st := batches.foldl (groupPush size) ⟨[], []⟩
  if st.pending.isEmpty then st.groups else st.groups ++ [st.pending]

def batchRows : Nat := 4096

/-- A stable sort by the ORDER BY columns, cut into batches of `batchRows` again. -/
def sortRows (batches : List Batch) (order : List Nat) : List Batch :=
  let sorted := batches.flatten.insertionSort fun a b => compareRows order a b ≠ .gt
  groupRows batchRows (sorted.map ([·]))

def rowGroupRows : Nat := 65536

/-- Each ORDER BY field as a position of the schema. -/
def orderPositions (t : TableEntry) : List Nat := t.orderBy.map fun id => t.schemaIds.idxOf id

/-- The batches of each output segment. Inputs arrive in the order of their segments. -/
def merge (t : TableEntry) (inputs : List (List Batch)) (maxRows : Nat) : List (List Batch) :=
  if t.orderBy.isEmpty then splitIntoSegments inputs.flatten maxRows
  else splitIntoSegments (sortRows inputs.flatten (orderPositions t)) maxRows

theorem splitStep_flatten (maxRows : Nat) (st : SplitState) (batch : Batch) :
    (splitStep maxRows st batch).segments.flatten ++ (splitStep maxRows st batch).current =
      st.segments.flatten ++ st.current ++ [batch] := by
  unfold splitStep
  split <;> simp

/-- Splitting keeps every batch, in order. -/
theorem splitIntoSegments_flatten (batches : List Batch) (maxRows : Nat) :
    (splitIntoSegments batches maxRows).flatten = batches := by
  have folded : ∀ st : SplitState, (batches.foldl (splitStep maxRows) st).segments.flatten ++
      (batches.foldl (splitStep maxRows) st).current = st.segments.flatten ++ st.current ++ batches := by
    induction batches with
    | nil => simp
    | cons batch rest ih =>
      intro st
      rw [List.foldl_cons, ih, splitStep_flatten]
      simp
  unfold splitIntoSegments
  have whole := folded ⟨[], [], 0⟩
  dsimp only
  split
  · rename_i done
    rw [List.isEmpty_iff] at done
    simpa [done] using whole
  · simpa using whole

theorem groupPush_flatten (size : Nat) (st : GroupState) (batch : Batch) :
    (groupPush size st batch).groups.flatten ++ (groupPush size st batch).pending =
      st.groups.flatten ++ st.pending ++ batch := by
  unfold groupPush
  dsimp only
  split <;> simp

/-- Grouping keeps every row, in order. -/
theorem groupRows_flatten (size : Nat) (batches : List Batch) :
    (groupRows size batches).flatten = batches.flatten := by
  have folded : ∀ st : GroupState, (batches.foldl (groupPush size) st).groups.flatten ++
      (batches.foldl (groupPush size) st).pending = st.groups.flatten ++ st.pending ++ batches.flatten := by
    induction batches with
    | nil => simp
    | cons batch rest ih =>
      intro st
      rw [List.foldl_cons, ih, groupPush_flatten]
      simp
  unfold groupRows
  have whole := folded ⟨[], []⟩
  dsimp only
  split
  · rename_i done
    rw [List.isEmpty_iff] at done
    simpa [done] using whole
  · simpa using whole

theorem sortRows_perm (batches : List Batch) (order : List Nat) :
    (sortRows batches order).flatten.Perm batches.flatten := by
  unfold sortRows
  dsimp only
  rw [groupRows_flatten, ← List.flatMap_def, List.flatMap_singleton']
  exact List.perm_insertionSort _ _

/-- A merge keeps every row. -/
theorem merge_perm (t : TableEntry) (inputs : List (List Batch)) (maxRows : Nat) :
    (merge t inputs maxRows).flatten.flatten.Perm inputs.flatten.flatten := by
  unfold merge
  split
  · rw [splitIntoSegments_flatten]
  · rw [splitIntoSegments_flatten]
    exact sortRows_perm _ _

/-- What a writer makes of the batches of one segment. -/
def writeSegment (fields : List Field) (batches : List Batch)
    (wide : ∀ row ∈ batches.flatten, row.length = fields.length) : SegmentFile where
  fields := fields
  groups := groupRows rowGroupRows batches
  wide := by
    intro g member row inside
    refine wide row ?_
    rw [← groupRows_flatten rowGroupRows]
    exact List.mem_flatten.mpr ⟨g, member, inside⟩

end Adelie
