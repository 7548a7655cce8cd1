import Adelie.Exec.Built
import Adelie.Manifest.Altered
import Adelie.Storage.Flush

namespace Adelie

section Split

variable {β : Type} (size : β → Nat) (maxRows : Nat)

/-- Segments closed so far, the one being filled and its rows. -/
structure Filling (β : Type) where
  segments : List (List β)
  current : List β
  rows : Nat

def fill (st : Filling β) (batch : β) : Filling β :=
  if !st.current.isEmpty && maxRows < st.rows + size batch then ⟨st.segments ++ [st.current], [batch], size batch⟩
  else ⟨st.segments, st.current ++ [batch], st.rows + size batch⟩

def splitBy (batches : List β) : List (List β) :=
  let st := batches.foldl (fill size maxRows) ⟨[], [], 0⟩
  if st.current.isEmpty then st.segments else st.segments ++ [st.current]

/-- Two batches or more stay within the bound together. -/
def Bounded (segment : List β) : Prop := segment.length ≤ 1 ∨ (segment.map size).sum ≤ maxRows

structure Filled (done : List β) (st : Filling β) : Prop where
  kept : st.segments.flatten ++ st.current = done
  counted : st.rows = (st.current.map size).sum
  closed : ∀ segment ∈ st.segments, Bounded size maxRows segment
  bounded : Bounded size maxRows st.current

variable {size maxRows}

theorem fill_filled {done : List β} {st : Filling β} (filled : Filled size maxRows done st) (batch : β) :
    Filled size maxRows (done ++ [batch]) (fill size maxRows st batch) := by
  obtain ⟨kept, counted, closed, bounded⟩ := filled
  unfold fill
  by_cases past : (!st.current.isEmpty && decide (maxRows < st.rows + size batch)) = true
  · rw [if_pos past]
    refine ⟨by simp [← kept], by simp, ?_, .inl (by simp)⟩
    intro segment member
    rcases List.mem_append.mp member with member | member
    · exact closed segment member
    · rw [List.mem_singleton.mp member]
      exact bounded
  · rw [if_neg past]
    refine ⟨by simp [← kept], by simp [counted], closed, ?_⟩
    by_cases none : st.current = []
    · exact .inl (by simp [none])
    · right
      have room : st.rows + size batch ≤ maxRows := by simpa [none] using past
      simpa [counted] using room

theorem splitBy_filled (batches : List β) :
    (splitBy size maxRows batches).flatten = batches ∧
      ∀ segment ∈ splitBy size maxRows batches, Bounded size maxRows segment := by
  have run : ∀ (rest done : List β) (st : Filling β), Filled size maxRows done st →
      Filled size maxRows (done ++ rest) (rest.foldl (fill size maxRows) st) := by
    intro rest
    induction rest with
    | nil =>
      intro done st filled
      rwa [List.append_nil]
    | cons batch rest ih =>
      intro done st filled
      have next := ih (done ++ [batch]) _ (fill_filled filled batch)
      rwa [List.append_assoc] at next
  obtain ⟨kept, _, closed, bounded⟩ := run batches [] ⟨[], [], 0⟩ ⟨rfl, rfl, by simp, .inl (by simp)⟩
  unfold splitBy
  dsimp only
  rw [List.nil_append] at kept
  split
  · rename_i none
    rw [List.isEmpty_iff.mp none, List.append_nil] at kept
    exact ⟨kept, closed⟩
  · refine ⟨by simpa using kept, ?_⟩
    intro segment member
    rcases List.mem_append.mp member with member | member
    · exact closed segment member
    · rw [List.mem_singleton.mp member]
      exact bounded

end Split

def splitBatches (batches : List ColumnBatch) (maxRows : Nat) : List (List ColumnBatch) :=
  splitBy ColumnBatch.rows maxRows batches

def positionOf (t : TableEntry) (id : Nat) : Except ExecError Nat :=
  match t.schemaIds.findIdx? (· == id) with
  | some i => .ok i
  | none => .error (.panicked "order_by only ever names a field id present in schema")

def sortBatches (fields : List Field) (batches : List ColumnBatch) (order : List Nat) :
    Except ExecError (List ColumnBatch) := SortSink.finish fields (order.map SortKey.asc) batches

def Append.flush (t : TableEntry) (batches : List ColumnBatch) (maxRows : Nat) :
    Except ExecError (List (List ColumnBatch)) := do
  if t.orderBy.isEmpty then return splitBatches batches maxRows
  let order ← t.orderBy.mapM (positionOf t)
  let sorted ← sortBatches t.fields batches order
  return splitBatches sorted maxRows

/-- Inputs arrive in the order of their seqs. -/
def Append.merge (t : TableEntry) (inputs : List (List ColumnBatch)) (maxRows : Nat) :
    Except ExecError (List (List ColumnBatch)) := do
  if t.orderBy.isEmpty then return splitBatches inputs.flatten maxRows
  let order ← t.orderBy.mapM (positionOf t)
  let sorted ← sortBatches t.fields inputs.flatten order
  return splitBatches sorted maxRows

/-- Some column of all the batches together has more bytes or elements than a `u32` can offset. -/
def Oversized (t : TableEntry) (batches : List ColumnBatch) : Prop :=
  ∃ i < t.fields.length, ¬ FitsOffsets (stacked batches i)

/-- The segments hold the rows of the batches: sorted by the ORDER BY columns where there are some, in
    order where there are none. -/
structure Keeps (t : TableEntry) (batches : List ColumnBatch) (maxRows : Nat) (segments : List (List ColumnBatch)) :
    Prop where
  unordered : t.orderBy = [] → segments.flatten.flatMap ColumnBatch.toRows = batches.flatMap ColumnBatch.toRows
  ordered : t.orderBy ≠ [] → StableSort (compareRows (orderPositions t)) (batches.flatMap ColumnBatch.toRows)
    (segments.flatten.flatMap ColumnBatch.toRows)
  bounded : ∀ segment ∈ segments, Bounded ColumnBatch.rows maxRows segment

/-- Segments that keep the rows, or an error for a column that is too large. -/
def Returned (t : TableEntry) (batches : List ColumnBatch) (maxRows : Nat)
    (result : Except ExecError (List (List ColumnBatch))) : Prop :=
  (∃ segments, result = .ok segments ∧ Keeps t batches maxRows segments) ∨
    Oversized t batches ∧ ∃ message, result = .error (.plan message)

section Keys

variable {order : List Nat} {a b : Row}

theorem SortKey.asc_compare (column : Nat) (x y : Value) : (SortKey.asc column).compare x y = compareCells x y := by
  unfold SortKey.compare compareCells
  cases x.isNull <;> cases y.isNull <;> rfl

theorem compareKeys_asc (order : List Nat) (a b : Row) :
    compareKeys (order.map SortKey.asc) a b = compareRows order a b := by
  have cell : ∀ (r : Row) (i : Nat), rowCell r i = r.getD i .null := fun r i => (List.getD_eq_getElem?_getD ..).symm
  have general : ∀ (order : List Nat) (acc : Ordering),
      order.foldl (fun acc column => acc.then (compareCells (a.getD column .null) (b.getD column .null))) acc =
        acc.then (compareKeys (order.map SortKey.asc) a b) := by
    intro order
    induction order with
    | nil =>
      intro acc
      cases acc <;> rfl
    | cons column rest ih =>
      intro acc
      rw [List.foldl_cons, ih, List.map_cons, compareKeys, SortKey.asc_compare, cell, cell]
      cases acc <;> rfl
  unfold compareRows
  rw [general]
  rfl

end Keys

section Order

variable {t : TableEntry} {batches : List ColumnBatch} {maxRows : Nat}

theorem positionOf_ok {id : Nat} (known : id ∈ t.schemaIds) : positionOf t id = .ok (t.schemaIds.idxOf id) := by
  unfold positionOf
  rw [List.findIdx?_eq_some_of_exists ⟨id, known, by simp⟩]
  rfl

theorem orderPositions_ok (defined_ : t.Defined) : t.orderBy.mapM (positionOf t) = .ok (orderPositions t) := by
  apply mapM_except_of_forall₂
  unfold orderPositions
  rw [List.forall₂_map_right_iff, List.forall₂_same]
  intro id member
  exact positionOf_ok (defined_.orderBy_live id member)

theorem orderPositions_inside (defined_ : t.Defined) :
    ∀ key ∈ (orderPositions t).map SortKey.asc, key.column < t.fields.length := by
  intro key member
  obtain ⟨i, inside, rfl⟩ := List.mem_map.mp member
  obtain ⟨id, own, rfl⟩ := List.mem_map.mp inside
  have below := List.idxOf_lt_length_of_mem (defined_.orderBy_live id own)
  simpa [SortKey.asc, TableEntry.fields, TableEntry.schemaIds] using below

theorem flush_ordered (defined_ : t.Defined) (some_ : t.orderBy ≠ []) :
    Append.flush t batches maxRows =
      (sortBatches t.fields batches (orderPositions t)).map (splitBatches · maxRows) := by
  unfold Append.flush
  rw [if_neg (by simpa using some_), orderPositions_ok defined_]
  change (sortBatches t.fields batches (orderPositions t) >>= fun sorted => pure (splitBatches sorted maxRows)) = _
  cases sortBatches t.fields batches (orderPositions t) <;> rfl

theorem merge_eq_flush (inputs : List (List ColumnBatch)) :
    Append.merge t inputs maxRows = Append.flush t inputs.flatten maxRows := rfl

theorem flush_unordered (none_ : t.orderBy = []) :
    Append.flush t batches maxRows = .ok (splitBatches batches maxRows) := by
  unfold Append.flush
  rw [if_pos (by simpa using none_)]
  rfl

/-- The sort of a defined table's rows returns, unless a column is too large. -/
theorem sortBatches_of_fits (defined_ : t.Defined) (some_ : t.orderBy ≠ [])
    (sound : ∀ b ∈ batches, b.fields = t.fields ∧ b.Sound) (fits : ¬ Oversized t batches) :
    ∃ sorted, sortBatches t.fields batches (orderPositions t) = .ok sorted ∧
      (sorted.flatMap ColumnBatch.toRows).length = asU32 (batches.flatMap ColumnBatch.toRows).length := by
  have wide : t.fields ≠ [] := by
    intro none
    obtain ⟨id, own⟩ := List.exists_mem_of_ne_nil _ some_
    have known := defined_.orderBy_live id own
    rw [TableEntry.schemaIds, List.map_eq_nil_iff.mp none] at known
    cases known
  have names : (t.fields.map Field.name).Nodup := by
    rw [TableEntry.fields, List.map_map]
    exact defined_.schema.names_nodup
  apply SortSink.finish_of_fits wide names sound
  intro i below
  by_contra past
  exact fits ⟨i, below, past⟩

/-- Few enough rows to number come out sorted. -/
theorem flush_sorted (defined_ : t.Defined) (some_ : t.orderBy ≠ [])
    (sound : ∀ b ∈ batches, b.fields = t.fields ∧ b.Sound)
    (few : (batches.flatMap ColumnBatch.toRows).length < 2 ^ 32) (fits : ¬ Oversized t batches) :
    ∃ segments, Append.flush t batches maxRows = .ok segments ∧ Keeps t batches maxRows segments := by
  obtain ⟨sorted, made, _⟩ := sortBatches_of_fits defined_ some_ sound fits
  obtain ⟨_, rows⟩ := SortSink.finish_ok sound few made
  obtain ⟨flat, bounded⟩ := @splitBy_filled _ ColumnBatch.rows maxRows sorted
  refine ⟨splitBatches sorted maxRows, ?_, ?_, ?_, bounded⟩
  · rw [flush_ordered defined_ some_, made]
    rfl
  · intro none
    exact absurd none some_
  · intro _
    have stable := stableSort_rows (orderPositions_inside defined_) (typed_of_sound sound)
    have same : compareKeys ((orderPositions t).map SortKey.asc) = compareRows (orderPositions t) := by
      funext a b
      exact compareKeys_asc (orderPositions t) a b
    rw [splitBatches, flat, rows, ← same]
    exact stable

/-- Rows past the `u32`s are left out. -/
theorem flush_loses (defined_ : t.Defined) (some_ : t.orderBy ≠ [])
    (sound : ∀ b ∈ batches, b.fields = t.fields ∧ b.Sound)
    (many : 2 ^ 32 ≤ (batches.flatMap ColumnBatch.toRows).length) (fits : ¬ Oversized t batches) :
    ¬ Returned t batches maxRows (Append.flush t batches maxRows) := by
  obtain ⟨sorted, made, count⟩ := sortBatches_of_fits defined_ some_ sound fits
  have flat := (@splitBy_filled _ ColumnBatch.rows maxRows sorted).1
  rintro (⟨segments, returned, keeps⟩ | ⟨oversized, _⟩)
  · rw [flush_ordered defined_ some_, made] at returned
    cases returned
    have length := (keeps.ordered some_).perm.length_eq
    change ((splitBy ColumnBatch.rows maxRows sorted).flatten.flatMap _).length = _ at length
    rw [flat, count] at length
    have small := (asU32_eq_iff _).mp length
    omega
  · exact fits oversized

theorem returned_iff (defined_ : t.Defined) (sound : ∀ b ∈ batches, b.fields = t.fields ∧ b.Sound) :
    Returned t batches maxRows (Append.flush t batches maxRows) ↔
      t.orderBy = [] ∨ (batches.map ColumnBatch.rows).sum < 2 ^ 32 ∨ Oversized t batches := by
  rw [← length_toRows_flatMap]
  constructor
  · intro returned
    by_contra outside
    rw [not_or, not_or, Nat.not_lt] at outside
    exact flush_loses defined_ outside.1 sound outside.2.1 outside.2.2 returned
  · intro within
    by_cases none : t.orderBy = []
    · obtain ⟨flat, bounded⟩ := @splitBy_filled _ ColumnBatch.rows maxRows batches
      refine .inl ⟨_, flush_unordered none, ?_, fun some_ => absurd none some_, bounded⟩
      intro _
      rw [splitBatches, flat]
    · by_cases large : Oversized t batches
      · obtain ⟨i, below, past⟩ := large
        obtain ⟨message, refused⟩ := @SortSink.finish_of_oversized _ ((orderPositions t).map SortKey.asc) _ sound _
          below past
        refine .inr ⟨⟨i, below, past⟩, message, ?_⟩
        rw [flush_ordered defined_ none, sortBatches, refused]
        rfl
      · have few := (within.resolve_left none).resolve_right large
        exact .inl (flush_sorted defined_ none sound few large)

end Order

/-- A flush and a merge give the rows of their input, in the order they promise, exactly while the rows
    to sort can be numbered by a `u32`. -/
theorem flush_and_merge_keep_rows_iff (t : TableEntry) (defined_ : t.Defined) (maxRows : Nat)
    (batches : List ColumnBatch) (inputs : List (List ColumnBatch))
    (sound : ∀ b ∈ batches ++ inputs.flatten, b.fields = t.fields ∧ b.Sound) :
    (Returned t batches maxRows (Append.flush t batches maxRows) ↔
      t.orderBy = [] ∨ (batches.map ColumnBatch.rows).sum < 2 ^ 32 ∨ Oversized t batches) ∧
    (Returned t inputs.flatten maxRows (Append.merge t inputs maxRows) ↔
      t.orderBy = [] ∨ (inputs.flatten.map ColumnBatch.rows).sum < 2 ^ 32 ∨ Oversized t inputs.flatten) := by
  constructor
  · exact returned_iff defined_ fun b member => sound b (List.mem_append_left _ member)
  · rw [merge_eq_flush]
    exact returned_iff defined_ fun b member => sound b (List.mem_append_right _ member)

def flagged : TableEntry :=
  { id := 1
    name := ⟨"main", "flags"⟩
    engine := "append"
    schema := [⟨1, ⟨"a", .bool⟩⟩]
    nextFieldId := 2
    key := []
    version := none
    orderBy := [1]
    partitionBy := none
    ttl := none
    options := []
    segments := []
    tombstones := [] }

theorem flagged_defined : flagged.Defined where
  schema := ⟨⟨by decide, by decide, by decide⟩, by decide, by decide⟩
  key_live := by decide
  version_live := by simp [flagged]
  orderBy_live := by decide
  partitionBy_live := by simp [flagged]
  ttl_live := by simp [flagged]
  keyed := by simp [flagged]
  resolved := by simp [flagged]

theorem allTrue_sound (n : Nat) : ∀ b ∈ [allTrue n], b.fields = flagged.fields ∧ b.Sound := by
  intro b member
  rw [List.mem_singleton.mp member]
  exact ⟨rfl, allTrue_whole n⟩

theorem allTrue_not_oversized (n : Nat) : ¬ Oversized flagged [allTrue n] := by
  rintro ⟨i, below, past⟩
  have first : i = 0 := Nat.lt_one_iff.mp below
  subst first
  apply past
  simpa [stacked, allTrue] using allTrue_fits n

/-- A flush and a merge of 2³² rows into a sorted table. -/
theorem flush_and_merge_lose_rows :
    ¬ Returned flagged [allTrue (2 ^ 32)] 1000000 (Append.flush flagged [allTrue (2 ^ 32)] 1000000) ∧
    ¬ Returned flagged [[allTrue (2 ^ 32)]].flatten 1000000 (Append.merge flagged [[allTrue (2 ^ 32)]] 1000000) := by
  have many : 2 ^ 32 ≤ ([allTrue (2 ^ 32)].flatMap ColumnBatch.toRows).length := by
    rw [length_toRows_flatMap, allTrue_rows]
  have lost := @flush_loses flagged [allTrue (2 ^ 32)] 1000000 flagged_defined (by decide) (allTrue_sound _) many
    (allTrue_not_oversized _)
  exact ⟨lost, lost⟩

theorem flush_and_merge_keep_rows_two :
    (2 : Nat) < 2 ^ 32 ∧ Returned flagged [allTrue 2] 1000000 (Append.flush flagged [allTrue 2] 1000000) ∧
      Returned flagged [allTrue 2] 1000000 (Append.merge flagged [[allTrue 2]] 1000000) := by
  have both := flush_and_merge_keep_rows_iff flagged flagged_defined 1000000 [allTrue 2] [[allTrue 2]]
    (by
      intro b member
      exact allTrue_sound 2 b (by simpa using member))
  have few : ([allTrue 2].map ColumnBatch.rows).sum < 2 ^ 32 := by
    rw [allTrue_rows]
    decide
  exact ⟨by decide, both.1.mpr (.inr (.inl few)), both.2.mpr (.inr (.inl few))⟩

end Adelie
