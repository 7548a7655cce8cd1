import Adelie.Lib.Select
import Adelie.Storage.Rows

namespace Adelie

/-- `apply_cmp`; `none` where one of its `expect`s fails. -/
def applyCmp? (op : CmpOp) (a b : Value) : Option Bool :=
  match op with
  | .eq => sqlEq a b
  | .ne => (sqlEq a b).map (!·)
  | .lt => (totalCmp a b).map (· == .lt)
  | .le => (totalCmp a b).map (· != .gt)
  | .gt => (totalCmp a b).map (· == .gt)
  | .ge => (totalCmp a b).map (· != .lt)

/-- Every cell of a column against one value. -/
def compareColumn (ty : DataType) (cells : List Value) (op : CmpOp) (v : Value) :
    Except StorageError (List (Option Bool)) :=
  if v.isNull then .ok (cells.map fun _ => none)
  else do
    ensure (matchesKind ty v) (.plan s!"cannot compare {ty.display} column")
    cells.mapM fun cell =>
      if cell.isNull then .ok none
      else match applyCmp? op cell v with
        | some test => .ok (some test)
        | none => .error (.manifest (.panicked "same-kind values always compare"))

/-- Where the column a predicate names stands in a schema. -/
def predicateColumn (schema : List SchemaField) (seq : Nat) (p : Predicate) : Except StorageError Nat :=
  match schema.findIdx? (·.field.name == p.column) with
  | some i => .ok i
  | none => .error (.usage s!"tombstone at seq {seq} names unknown column {p.column}")

/-- The cells of column `i`, over some rows of a batch. -/
def columnOf (rows : List Row) (i : Nat) : List Value := rows.map fun row => row[i]?.getD .null

def predicateTests (schema : List SchemaField) (rows : List Row) (seq : Nat) (p : Predicate) :
    Except StorageError (List (Option Bool)) := do
  let i ← predicateColumn schema seq p
  match schema[i]? with
  | some f => compareColumn f.field.ty (columnOf rows i) p.op p.value
  | none => .error (.manifest (.panicked "index out of bounds"))

def tombstoneTests (schema : List SchemaField) (rows : List Row) (t : Tombstone) :
    Except StorageError (List (Option Bool)) := do
  let tests ← t.predicates.mapM (predicateTests schema rows t.seq)
  return match tests with
    | [] => rows.map fun _ => some true
    | first :: rest => rest.foldl (List.zipWith kleeneAnd) first

/-- OR over every tombstone's AND of its predicates; `none` means nothing to delete. -/
def tombstoneKeepMask (tombstones : List Tombstone) (schema : List SchemaField) (rows : List Row) :
    Except StorageError (Option (List Bool)) := do
  let tests ← tombstones.mapM (tombstoneTests schema rows)
  return match tests with
    | [] => none
    | first :: rest => some ((rest.foldl (List.zipWith kleeneOr) first).map fun deleted => !(deleted == some true))

def filterBatch (rows : List Row) (keep : List Bool) : List Row := ((rows.zip keep).filter Prod.snd).map Prod.fst

/-- `Batch::new` on columns of one length, each of its field's type: names have to differ. -/
def checkFields (fields : List Field) : Except StorageError Unit :=
  ensure (fields.map (·.name)).Nodup (.usage "duplicate field in batch")

/-- The rows of the write buffer of one table, on its columns. -/
structure Buffered (t : TableEntry) where
  batches : List (List Row)
  wide : ∀ batch ∈ batches, ∀ row ∈ batch, row.length = t.schema.length

/-- What a predicate rules out before it is read: segments by their statistics in the manifest, row
    groups by zone maps and indexes. -/
structure Pruner where
  segment : SegmentEntry → Bool
  group : SegmentEntry → SegmentFile → Nat → Except StorageError Bool

def Pruner.none : Pruner := ⟨fun _ => true, fun _ _ _ => .ok true⟩

def Pruner.keeps (prune : Pruner) (s : SegmentEntry) (file : SegmentFile) (group : Nat) : Bool :=
  match prune.group s file group with
  | .ok keep => keep
  | .error _ => false

/-- One table's scan: `columns` are the schema positions of `fields`. -/
structure TableScan where
  fields : List Field
  columns : List Nat
  segments : List SegmentEntry

def columnPosition (t : TableEntry) (name : String) : Except StorageError Nat :=
  match t.schema.findIdx? (·.field.name == name) with
  | some i => .ok i
  | none => .error (.plan s!"unknown column {name}")

/-- The one engine resolves a scan to every live segment. -/
def resolve (t : TableEntry) : List Nat := t.segmentIds

def openScan (t : TableEntry) (prune : Pruner) (names : List String) : Except StorageError TableScan := do
  ensure (!names.isEmpty) (.plan "scan needs at least one column")
  let columns ← names.mapM (columnPosition t)
  ensure (engineByName t.engine) (.usage s!"unknown engine {t.engine}")
  return {
    fields := columns.filterMap fun i => t.schema[i]?.map (·.field)
    columns := columns
    segments := (t.segments.filter fun s => (resolve t).contains s.id).filter prune.segment }

def addNeeded (schema : List SchemaField) (seq : Nat) (needed : List Nat) (p : Predicate) :
    Except StorageError (List Nat) := do
  let i ← predicateColumn schema seq p
  return if needed.contains i then needed else needed ++ [i]

/-- The requested columns and those the tombstones name, in schema order. -/
def neededColumns (schema : List SchemaField) (columns : List Nat) (tombstones : List Tombstone) :
    Except StorageError (List Nat) := do
  let needed ← tombstones.foldlM (fun needed t => t.predicates.foldlM (addNeeded schema t.seq) needed) columns
  return sortByKey id needed

/-- A row with the columns at these positions, in this order. -/
def pick (columns : List Nat) (row : Row) : Row := columns.map fun i => row[i]?.getD .null

/-- One row group of a segment: its needed columns decoded and realigned, deleted rows taken out, and
    of what is left the requested columns. -/
def readGroup (t : TableEntry) (scan : TableScan) (file : SegmentFile) (index : List (Option Nat)) (needed : List Nat)
    (tombstones : List Tombstone) (rows : List Row) : Except StorageError (List Row) := do
  let subSchema := needed.filterMap (t.schema[·]?)
  let subIndex := needed.filterMap (index[·]?)
  let projection := subIndex.filterMap id
  checkFields (projection.filterMap (file.fields[·]?))
  checkFields (subSchema.map (·.field))
  let full := realign subIndex rows
  let mask ← tombstoneKeepMask tombstones subSchema full
  let filtered := mask.elim full (filterBatch full)
  if filtered.isEmpty then return []
  else do
    checkFields scan.fields
    return filtered.map (pick (scan.columns.map needed.idxOf))

def readSegment (files : Files) (t : TableEntry) (prune : Pruner) (scan : TableScan) (s : SegmentEntry) :
    Except StorageError (List Row) := do
  let file ← openSegment files s
  let index ← mapFileColumns s.id t.schema s.fileIds file.fields
  let tombstones := t.tombstonesFor s
  let needed ← neededColumns t.schema scan.columns tombstones
  let groups ← file.groups.zipIdx.mapM fun group => do
    if ← prune.group s file group.2 then readGroup t scan file index needed tombstones group.1 else return []
  return groups.flatten

/-- Buffered rows are newer than every tombstone. -/
def projectBuffered (scan : TableScan) (batch : List Row) : Except StorageError (List Row) := do
  ensure (scan.fields.map (·.name)).Nodup
    (.manifest (.panicked "a buffered batch already matches the table schema"))
  return batch.map (pick scan.columns)

/-- Segments in manifest order, then the buffer in order, one morsel after the other. -/
def scan (files : Files) (t : TableEntry) (prune : Pruner) (buffer : Buffered t) (names : List String) :
    Except StorageError (List Field × List Row) := do
  let opened ← openScan t prune names
  let segments ← opened.segments.mapM (readSegment files t prune opened)
  let buffered ← buffer.batches.mapM (projectBuffered opened)
  return (opened.fields, segments.flatten ++ buffered.flatten)

section Mask

variable {schema : List SchemaField} {rows : List Row} {tombstones : List Tombstone}

theorem applyCmp?_eq_some {op : CmpOp} {a b : Value} {test : Bool} (made : applyCmp? op a b = some test) :
    applyCmp op a b = test := by
  cases op <;> simp only [applyCmp?, applyCmp] at made ⊢
  case eq => simp [made]
  case ne =>
    obtain ⟨equal, same, rfl⟩ := Option.map_eq_some_iff.mp made
    cases equal <;> simp [same]
  all_goals
    obtain ⟨order, same, rfl⟩ := Option.map_eq_some_iff.mp made
    cases order <;> simp [same]

theorem compareColumn_eq_ok {ty : DataType} {cells : List Value} {op : CmpOp} {v : Value} {tests : List (Option Bool)}
    (made : compareColumn ty cells op v = .ok tests) : tests = cells.map fun cell => compareScalar cell op v := by
  unfold compareColumn at made
  split at made
  · rename_i null
    cases made
    simp [compareScalar, null]
  · rename_i value
    obtain ⟨_, _, made⟩ := Except.bind_eq_ok.mp made
    refine eq_map_of_mapM made fun cell _ test compared => ?_
    unfold compareScalar
    split at compared
    · rename_i null
      cases compared
      simp [null]
    · rename_i notNull
      split at compared
      · rename_i result defined_
        cases compared
        simp [value, notNull, applyCmp?_eq_some defined_]
      · cases compared

theorem find?_zip {α β : Type} {p : α → Bool} {l : List α} {r : List β} {i : Nat} (at_ : l.findIdx? p = some i)
    (within : i < r.length) : ∃ x, l[i]? = some x ∧ (l.zip r).find? (fun y => p y.1) = some (x, r[i]) := by
  induction l generalizing r i with
  | nil => cases at_
  | cons x rest ih =>
    cases r with
    | nil => cases within
    | cons y r =>
      rw [List.findIdx?_cons] at at_
      by_cases first : p x = true
      · simp only [first, if_true] at at_
        cases at_
        exact ⟨x, rfl, by simp [first]⟩
      · simp only [first, Bool.false_eq_true, if_false] at at_
        obtain ⟨j, found, rfl⟩ := Option.map_eq_some_iff.mp at_
        obtain ⟨z, inside, hit⟩ := ih found (Nat.lt_of_succ_lt_succ within)
        exact ⟨z, inside, by simpa [first] using hit⟩

/-- A predicate's test on a row, at the position of its column. -/
theorem Predicate.test_at {p : Predicate} {i : Nat} {row : Row}
    (at_ : schema.findIdx? (·.field.name == p.column) = some i) (wide : row.length = schema.length) :
    p.test schema row = compareScalar (row[i]?.getD .null) p.op p.value := by
  obtain ⟨within, _⟩ := List.findIdx?_eq_some_iff_getElem.mp at_
  have inside : i < row.length := by omega
  obtain ⟨f, _, found⟩ := find?_zip at_ inside
  unfold Predicate.test
  rw [found]
  simp [inside]

theorem foldl_zipWith_map {β : Type} (op : β → β → β) (tests : List (Row → β)) (first : Row → β) (rows : List Row) :
    (tests.map fun test => rows.map test).foldl (List.zipWith op) (rows.map first) =
      rows.map fun row => (tests.map (· row)).foldl op (first row) := by
  induction tests generalizing first with
  | nil => rfl
  | cons test rest ih =>
    rw [List.map_cons, List.foldl_cons, List.zipWith_map, List.zipWith_self]
    exact ih fun row => op (first row) (test row)

theorem tombstoneTests_eq_ok {x : Tombstone} {tests : List (Option Bool)} (wide : ∀ row ∈ rows, row.length = schema.length)
    (made : tombstoneTests schema rows x = .ok tests) : tests = rows.map (x.test schema) := by
  unfold tombstoneTests at made
  obtain ⟨columns, each, made⟩ := Except.bind_eq_ok.mp made
  cases made
  have same : columns = x.predicates.map fun p => rows.map (p.test schema) := by
    refine eq_map_of_mapM each fun p _ column compared => ?_
    obtain ⟨i, at_, compared⟩ := Except.bind_eq_ok.mp compared
    unfold predicateColumn at at_
    split at at_
    · rename_i found
      cases at_
      split at compared
      · rw [compareColumn_eq_ok compared, columnOf, List.map_map]
        apply List.map_congr_left
        intro row member
        exact (Predicate.test_at found (wide row member)).symm
      · cases compared
    · cases at_
  rw [same]
  unfold Tombstone.test
  cases x.predicates with
  | nil => rfl
  | cons p rest =>
    have folded := foldl_zipWith_map kleeneAnd (rest.map fun p => p.test schema) (p.test schema) rows
    rw [List.map_map] at folded
    simp only [List.map_cons, List.foldl_cons]
    refine folded.trans (List.map_congr_left fun row _ => ?_)
    rw [List.map_map]
    cases p.test schema row with
    | none => rfl
    | some b => cases b <;> rfl

theorem filterBatch_map (rows : List Row) (keep : Row → Bool) : filterBatch rows (rows.map keep) = rows.filter keep := by
  unfold filterBatch
  induction rows with
  | nil => rfl
  | cons row rest ih =>
    rw [List.map_cons, List.zip_cons_cons]
    by_cases kept : keep row = true
    · simp [kept, ih]
    · simp [kept, ih]

theorem tombstoneKeepMask_eq_ok {mask : Option (List Bool)} (wide : ∀ row ∈ rows, row.length = schema.length)
    (made : tombstoneKeepMask tombstones schema rows = .ok mask) :
    (mask.elim rows (filterBatch rows)) = rows.filter fun row => !deleted schema tombstones row := by
  unfold tombstoneKeepMask at made
  obtain ⟨tests, each, made⟩ := Except.bind_eq_ok.mp made
  cases made
  have same : tests = tombstones.map fun x => rows.map (x.test schema) :=
    eq_map_of_mapM each fun x _ tests made => tombstoneTests_eq_ok wide made
  rw [same]
  unfold deleted
  cases tombstones with
  | nil => simp
  | cons x rest =>
    have folded := foldl_zipWith_map kleeneOr (rest.map fun x => x.test schema) (x.test schema) rows
    rw [List.map_map] at folded
    simp only [List.map_cons, List.foldl_cons, Option.elim_some]
    rw [show (rest.map fun x => rows.map (x.test schema)) = rest.map ((fun test => rows.map test) ∘ fun x => x.test schema)
      from rfl, folded, List.map_map]
    have start : ∀ row, kleeneOr (some false) (x.test schema row) = x.test schema row := by
      intro row
      cases x.test schema row with
      | none => rfl
      | some b => cases b <;> rfl
    simp only [start]
    refine (filterBatch_map rows _).trans (List.filter_congr fun row _ => ?_)
    rw [Function.comp_apply, List.map_map, Bool.eq_iff_iff]
    simp [Function.comp_def]

end Mask

section Needed

variable {schema : List SchemaField} {needed needed' : List Nat} {tombstones : List Tombstone}

/-- The column a predicate names is among these. -/
def Covers (schema : List SchemaField) (needed : List Nat) (p : Predicate) : Prop :=
  ∃ i ∈ needed, schema.findIdx? (·.field.name == p.column) = some i

/-- Positions added to others, all inside the schema. -/
structure Adds (schema : List SchemaField) (needed needed' : List Nat) : Prop where
  kept : ∀ i ∈ needed, i ∈ needed'
  within : ∀ i ∈ needed', i ∈ needed ∨ i < schema.length

theorem Adds.refl (schema : List SchemaField) (needed : List Nat) : Adds schema needed needed :=
  ⟨fun _ member => member, fun _ => .inl⟩

theorem Adds.trans {needed'' : List Nat} (first : Adds schema needed needed') (second : Adds schema needed' needed'') :
    Adds schema needed needed'' := by
  refine ⟨fun i member => second.kept i (first.kept i member), ?_⟩
  intro i member
  rcases second.within i member with old | inside
  · exact first.within i old
  · exact .inr inside

theorem Covers.mono {p : Predicate} (covers : Covers schema needed p) (adds : Adds schema needed needed') :
    Covers schema needed' p := by
  obtain ⟨i, member, at_⟩ := covers
  exact ⟨i, adds.kept i member, at_⟩

theorem addNeeded_eq_ok {seq : Nat} {p : Predicate} (made : addNeeded schema seq needed p = .ok needed') :
    Adds schema needed needed' ∧ Covers schema needed' p := by
  obtain ⟨i, at_, made⟩ := Except.bind_eq_ok.mp made
  unfold predicateColumn at at_
  split at at_
  · rename_i found
    cases at_
    cases made
    obtain ⟨inside, _⟩ := List.findIdx?_eq_some_iff_getElem.mp found
    split
    · rename_i listed
      exact ⟨.refl _ _, i, by simpa using listed, found⟩
    · refine ⟨⟨fun k member => List.mem_append_left _ member, ?_⟩, i, by simp, found⟩
      intro k member
      rcases List.mem_append.mp member with old | new
      · exact .inl old
      · rw [List.mem_singleton.mp new]
        exact .inr inside
  · cases at_

theorem foldlM_addNeeded {seq : Nat} {predicates : List Predicate}
    (made : predicates.foldlM (addNeeded schema seq) needed = .ok needed') :
    Adds schema needed needed' ∧ ∀ p ∈ predicates, Covers schema needed' p := by
  induction predicates generalizing needed with
  | nil =>
    cases made
    exact ⟨.refl _ _, by simp⟩
  | cons p rest ih =>
    rw [List.foldlM_cons] at made
    obtain ⟨mid, first, made⟩ := Except.bind_eq_ok.mp made
    obtain ⟨adds, covers⟩ := addNeeded_eq_ok first
    obtain ⟨adds', others⟩ := ih made
    exact ⟨adds.trans adds', List.forall_mem_cons.mpr ⟨covers.mono adds', others⟩⟩

theorem neededColumns_eq_ok {columns : List Nat} (made : neededColumns schema columns tombstones = .ok needed) :
    Adds schema columns needed ∧ ∀ x ∈ tombstones, ∀ p ∈ x.predicates, Covers schema needed p := by
  obtain ⟨found, gathered, sorted⟩ := Except.bind_eq_ok.mp made
  cases sorted
  have all : Adds schema columns found ∧ ∀ x ∈ tombstones, ∀ p ∈ x.predicates, Covers schema found p := by
    clear made
    induction tombstones generalizing columns with
    | nil =>
      cases gathered
      exact ⟨.refl _ _, by simp⟩
    | cons x rest ih =>
      rw [List.foldlM_cons] at gathered
      obtain ⟨mid, first, gathered⟩ := Except.bind_eq_ok.mp gathered
      obtain ⟨adds, covers⟩ := foldlM_addNeeded first
      obtain ⟨adds', others⟩ := ih gathered
      exact ⟨adds.trans adds', List.forall_mem_cons.mpr ⟨fun p member => (covers p member).mono adds', others⟩⟩
  have sorts : Adds schema found (sortByKey id found) :=
    ⟨fun i member => mem_sortByKey.mpr member, fun i member => .inl (mem_sortByKey.mp member)⟩
  exact ⟨all.1.trans sorts, fun x member p inside => (all.2 x member p inside).mono sorts⟩

/-- The part of a schema at some positions. -/
theorem subSchema_idxOf (within : ∀ i ∈ needed, i < schema.length) {i : Nat} (member : i ∈ needed) :
    (needed.filterMap (schema[·]?))[needed.idxOf i]? = schema[i]? := by
  induction needed with
  | nil => cases member
  | cons k rest ih =>
    have inside := within k (.head _)
    rw [List.filterMap_cons_some (List.getElem?_eq_getElem inside), List.idxOf_cons]
    by_cases same : k = i
    · simp [same]
    · have later : i ∈ rest := by
        rcases List.mem_cons.mp member with rfl | later
        · exact absurd rfl same
        · exact later
      rw [beq_false_of_ne same, cond_false, List.getElem?_cons_succ]
      exact ih (fun j listed => within j (.tail _ listed)) later

theorem subSchema_find? (names : ((needed.filterMap (schema[·]?)).map (·.field.name)).Nodup) {p : Predicate}
    (covers : Covers schema needed p) :
    (needed.filterMap (schema[·]?)).find? (·.field.name == p.column) = schema.find? (·.field.name == p.column) := by
  obtain ⟨i, member, at_⟩ := covers
  obtain ⟨inside, named, before⟩ := List.findIdx?_eq_some_iff_getElem.mp at_
  have named : schema[i].field.name = p.column := by simpa using named
  have listed : schema[i] ∈ needed.filterMap (schema[·]?) :=
    List.mem_filterMap.mpr ⟨i, member, List.getElem?_eq_getElem inside⟩
  have sub := find?_key names listed
  rw [named] at sub
  rw [sub, eq_comm, List.find?_eq_some_iff_getElem]
  exact ⟨by simp [named], i, inside, rfl, fun j earlier => by simpa using before j earlier⟩

end Needed

/-- Every predicate of the tombstone is TRUE on the row; without predicates, it takes every row. -/
def Tombstone.Takes (schema : List SchemaField) (row : Row) (x : Tombstone) : Prop :=
  ∀ p ∈ x.predicates, p.test schema row = some true

instance (schema : List SchemaField) (row : Row) (x : Tombstone) : Decidable (x.Takes schema row) :=
  inferInstanceAs (Decidable (∀ p ∈ x.predicates, p.test schema row = some true))

/-- The cell of a row under a column's name. -/
def namedCell (schema : List SchemaField) (row : Row) (name : String) : Value :=
  (((schema.zip row).find? (·.1.field.name == name)).map Prod.snd).getD .null

/-- The rows of a segment, on the table's columns by field id, that no newer tombstone takes. -/
def keptRows (files : Files) (t : TableEntry) (s : SegmentEntry) : List Row :=
  (rowsOf files t.schema s).filter fun row => decide (∀ x ∈ t.tombstones, s.seq < x.seq → ¬x.Takes t.schema row)

section Rows

variable {schema : List SchemaField} {tombstones : List Tombstone} {row : Row}

theorem foldl_kleeneAnd_eq_true (tests : List (Option Bool)) (acc : Option Bool) :
    tests.foldl kleeneAnd acc = some true ↔ acc = some true ∧ ∀ test ∈ tests, test = some true := by
  induction tests generalizing acc with
  | nil => simp
  | cons test rest ih =>
    rw [List.foldl_cons, ih, List.forall_mem_cons, ← and_assoc]
    refine and_congr_left fun _ => ?_
    rcases acc with _ | _ | _ <;> rcases test with _ | _ | _ <;> simp [kleeneAnd]

theorem Tombstone.test_eq_true {x : Tombstone} : x.test schema row = some true ↔ x.Takes schema row := by
  unfold Tombstone.test Tombstone.Takes
  rw [foldl_kleeneAnd_eq_true]
  simp

/-- A row stays just when no tombstone takes it. -/
theorem not_deleted (row : Row) :
    (!deleted schema tombstones row) = decide (∀ x ∈ tombstones, ¬x.Takes schema row) := by
  rw [Bool.eq_iff_iff, Bool.not_eq_true', Bool.eq_false_iff, decide_eq_true_eq, Ne, deleted_iff, not_exists]
  simp only [not_and, Tombstone.test_eq_true]

theorem visible_eq_keptRows (files : Files) (t : TableEntry) (s : SegmentEntry) :
    visible files t.schema t.tombstones s = keptRows files t s := by
  unfold visible keptRows
  apply List.filter_congr
  intro row _
  rw [not_deleted, decide_eq_decide]
  simp

theorem pick_eq_named {names : List String} {columns : List Nat}
    (at_ : List.Forall₂ (fun name i => schema.findIdx? (·.field.name == name) = some i) names columns)
    (wide : row.length = schema.length) : pick columns row = names.map (namedCell schema row) := by
  unfold pick
  induction at_ with
  | nil => rfl
  | @cons name i names columns head _ tail =>
    rw [List.map_cons, List.map_cons, tail]
    congr 1
    obtain ⟨within, _⟩ := List.findIdx?_eq_some_iff_getElem.mp head
    have inside : i < row.length := by omega
    obtain ⟨f, _, found⟩ := find?_zip head inside
    unfold namedCell
    rw [found]
    simp [inside]

/-- A tombstone sees the same row on the columns it names. -/
theorem deleted_subSchema {fileIds : List Nat} {needed : List Nat}
    (names : ((needed.filterMap (schema[·]?)).map (·.field.name)).Nodup)
    (covers : ∀ x ∈ tombstones, ∀ p ∈ x.predicates, Covers schema needed p) (row : Row) :
    deleted (needed.filterMap (schema[·]?)) tombstones (rowAs fileIds (needed.filterMap (schema[·]?)) row) =
      deleted schema tombstones (rowAs fileIds schema row) := by
  unfold deleted
  have same : tombstones.map (·.test (needed.filterMap (schema[·]?)) (rowAs fileIds (needed.filterMap (schema[·]?)) row)) =
      tombstones.map (·.test schema (rowAs fileIds schema row)) := by
    apply List.map_congr_left
    intro x member
    unfold Tombstone.test
    congr 1
    apply List.map_congr_left
    intro p inside
    rw [rowAs, rowAs, Predicate.test_map, Predicate.test_map, subSchema_find? names (covers x member p inside)]
  rw [same]

theorem pick_subSchema {fileIds needed columns : List Nat} (within : ∀ i ∈ needed, i < schema.length)
    (kept : ∀ i ∈ columns, i ∈ needed) (row : Row) :
    pick (columns.map needed.idxOf) (rowAs fileIds (needed.filterMap (schema[·]?)) row) =
      pick columns (rowAs fileIds schema row) := by
  unfold pick
  rw [List.map_map]
  apply List.map_congr_left
  intro i member
  simp only [Function.comp_apply, rowAs, List.getElem?_map, subSchema_idxOf within (kept i member)]

end Rows

section Read

variable {files : Files} {t : TableEntry} {s : SegmentEntry} {opened : TableScan} {file : SegmentFile}
  {needed : List Nat} {rows kept : List Row}

theorem readGroup_eq_ok {index : List (Option Nat)} (mapped : index = t.schema.map fun f => fileColumn s.fileIds f.id)
    (nonempty : needed ≠ []) (within : ∀ i ∈ needed, i < t.schema.length) (requested : ∀ i ∈ opened.columns, i ∈ needed)
    (covers : ∀ x ∈ t.tombstonesFor s, ∀ p ∈ x.predicates, Covers t.schema needed p)
    (read : readGroup t opened file index needed (t.tombstonesFor s) rows = .ok kept) :
    kept = ((rows.map (rowAs s.fileIds t.schema)).filter fun row => !deleted t.schema (t.tombstonesFor s) row).map
      (pick opened.columns) := by
  unfold readGroup at read
  obtain ⟨_, _, read⟩ := Except.bind_eq_ok.mp read
  obtain ⟨_, distinct, read⟩ := Except.bind_eq_ok.mp read
  obtain ⟨mask, masked, read⟩ := Except.bind_eq_ok.mp read
  generalize sub : needed.filterMap (t.schema[·]?) = subSchema at distinct masked read
  have subIndex : needed.filterMap (index[·]?) = subSchema.map fun f => fileColumn s.fileIds f.id := by
    rw [mapped, ← sub, List.map_filterMap]
    simp only [List.getElem?_map]
  have subNonempty : subSchema ≠ [] := by
    obtain ⟨i, member⟩ := List.exists_mem_of_ne_nil _ nonempty
    rw [← sub]
    exact List.ne_nil_of_mem (List.mem_filterMap.mpr ⟨i, member, List.getElem?_eq_getElem (within i member)⟩)
  have full : realign (needed.filterMap (index[·]?)) rows = rows.map (rowAs s.fileIds subSchema) := by
    rw [subIndex]
    have flat := realign_flatten subNonempty s.fileIds [rows]
    simpa using flat
  rw [full] at masked read
  have names : (subSchema.map (·.field.name)).Nodup := by
    have := ensure_eq_ok.mp distinct
    simpa [List.map_map, Function.comp_def] using this
  have filtered := tombstoneKeepMask_eq_ok (by simp [rowAs]) masked
  dsimp only at read
  rw [filtered] at read
  have result : kept = ((rows.map (rowAs s.fileIds subSchema)).filter fun row =>
      !deleted subSchema (t.tombstonesFor s) row).map (pick (opened.columns.map needed.idxOf)) := by
    split at read
    · rename_i none_
      cases read
      rw [List.isEmpty_iff.mp none_]
      rfl
    · obtain ⟨_, _, read⟩ := Except.bind_eq_ok.mp read
      cases read
      rfl
  rw [result, List.filter_map, List.filter_map, List.map_map, List.map_map]
  subst sub
  have tests : ((fun row => !deleted (needed.filterMap (t.schema[·]?)) (t.tombstonesFor s) row) ∘
      rowAs s.fileIds (needed.filterMap (t.schema[·]?))) =
      (fun row => !deleted t.schema (t.tombstonesFor s) row) ∘ rowAs s.fileIds t.schema := by
    funext row
    simp only [Function.comp_apply, deleted_subSchema names covers row]
  rw [tests]
  apply List.map_congr_left
  intro row _
  exact pick_subSchema within requested row

/-- The rows of the row groups that are read, as the file has them. -/
def readRows (files : Files) (prune : Pruner) (s : SegmentEntry) : List Row :=
  match files s.path with
  | some file => (file.groups.zipIdx.filter fun group => prune.keeps s file group.2).flatMap Prod.fst
  | none => []

theorem readSegment_eq_ok {prune : Pruner} (nonempty : opened.columns ≠ [])
    (within : ∀ i ∈ opened.columns, i < t.schema.length) (read : readSegment files t prune opened s = .ok kept) :
    kept = (((readRows files prune s).map (rowAs s.fileIds t.schema)).filter fun row =>
      !deleted t.schema (t.tombstonesFor s) row).map (pick opened.columns) := by
  unfold readSegment at read
  obtain ⟨file, opens, read⟩ := Except.bind_eq_ok.mp read
  obtain ⟨index, mapped, read⟩ := Except.bind_eq_ok.mp read
  obtain ⟨needed, gathered, read⟩ := Except.bind_eq_ok.mp read
  obtain ⟨groups, each, read⟩ := Except.bind_eq_ok.mp read
  cases read
  obtain ⟨adds, covers⟩ := neededColumns_eq_ok gathered
  have inside : ∀ i ∈ needed, i < t.schema.length := fun i member => (adds.within i member).elim (within i) id
  have some_ : needed ≠ [] := by
    obtain ⟨i, member⟩ := List.exists_mem_of_ne_nil _ nonempty
    exact List.ne_nil_of_mem (adds.kept i member)
  have same : groups = file.groups.zipIdx.map fun group =>
      if prune.keeps s file group.2 then ((group.1.map (rowAs s.fileIds t.schema)).filter fun row =>
        !deleted t.schema (t.tombstonesFor s) row).map (pick opened.columns) else [] := by
    refine eq_map_of_mapM each fun group _ rows read => ?_
    obtain ⟨keep, decided, read⟩ := Except.bind_eq_ok.mp read
    simp only [Pruner.keeps, decided]
    cases keep with
    | true => exact readGroup_eq_ok (mapFileColumns_eq_ok mapped).1 some_ inside adds.kept covers read
    | false =>
      cases read
      rfl
  rw [same, readRows, (openSegment_eq_ok opens).1]
  dsimp only
  generalize file.groups.zipIdx = all
  induction all with
  | nil => rfl
  | cons group rest ih =>
    rw [List.map_cons, List.flatten_cons, ih]
    by_cases keep : prune.keeps s file group.2 = true
    · simp [keep]
    · simp [keep]

theorem openScan_eq_ok {prune : Pruner} {names : List String} (made : openScan t prune names = .ok opened) :
    names ≠ [] ∧ engineByName t.engine = true ∧
    List.Forall₂ (fun name i => t.schema.findIdx? (·.field.name == name) = some i) names opened.columns ∧
    opened.fields = opened.columns.filterMap (fun i => t.schema[i]?.map (·.field)) ∧
    opened.segments = t.segments.filter prune.segment := by
  unfold openScan at made
  obtain ⟨_, some_, made⟩ := Except.bind_eq_ok.mp made
  obtain ⟨columns, each, made⟩ := Except.bind_eq_ok.mp made
  obtain ⟨_, engine, made⟩ := Except.bind_eq_ok.mp made
  cases made
  refine ⟨by simpa using ensure_eq_ok.mp some_, ensure_eq_ok.mp engine, ?_, rfl, ?_⟩
  · refine (forall₂_of_mapM_except each).imp ?_
    intro name i at_
    unfold columnPosition at at_
    split at at_
    · rename_i found
      cases at_
      exact found
    · cases at_
  · have all : (t.segments.filter fun s => (resolve t).contains s.id) = t.segments := by
      rw [List.filter_eq_self]
      intro s member
      rw [List.contains_iff_mem]
      exact List.mem_map_of_mem member
    rw [all]

/-- Without a predicate every row group is read. -/
theorem readRows_none (schema : List SchemaField) :
    (readRows files .none s).map (rowAs s.fileIds schema) = rowsOf files schema s := by
  unfold readRows rowsOf
  cases files s.path with
  | none => rfl
  | some file =>
    have all : (file.groups.zipIdx.filter fun group => Pruner.none.keeps s file group.2) = file.groups.zipIdx :=
      List.filter_eq_self.mpr fun _ _ => rfl
    dsimp only
    rw [all, List.flatMap_def, List.zipIdx_map_fst]
    rfl

theorem readSegment_visible (nonempty : opened.columns ≠ []) (within : ∀ i ∈ opened.columns, i < t.schema.length)
    (read : readSegment files t .none opened s = .ok kept) : kept = (keptRows files t s).map (pick opened.columns) := by
  rw [readSegment_eq_ok nonempty within read, readRows_none, ← visible_eq_keptRows]
  rfl

end Read

end Adelie
