import Adelie.Storage.Engine

namespace Adelie

def SegmentFile.rows (file : SegmentFile) : List Row := file.groups.flatten

/-- The cell of field `id` in a row of a file; NULL where the file has no such column. -/
def cellOf (fileIds : List Nat) (row : Row) (id : Nat) : Value :=
  ((fileColumn fileIds id).bind (row[·]?)).getD .null

/-- A file's row as a schema sees it. -/
def rowAs (fileIds : List Nat) (schema : List SchemaField) (row : Row) : Row :=
  schema.map fun f => cellOf fileIds row f.id

/-- A file that can be read onto a schema: it has the columns its entry lists, each of the type
    the schema gives it. -/
structure Readable (file : SegmentFile) (fileIds : List Nat) (schema : List SchemaField) : Prop where
  count : fileIds.length = file.fields.length
  types : ∀ f ∈ schema, ∀ i, fileColumn fileIds f.id = some i →
    ∃ column, file.fields[i]? = some column ∧ column.ty = f.field.ty

section Read

variable {files : Files} {s : SegmentEntry} {schema : List SchemaField} {file : SegmentFile}

theorem mapFileColumns_eq_ok {segId : Nat} {fileIds : List Nat} {fields : List Field} {index : List (Option Nat)}
    (mapped : mapFileColumns segId schema fileIds fields = .ok index) :
    index = schema.map (fun f => fileColumn fileIds f.id) ∧
    ∀ f ∈ schema, ∀ i, fileColumn fileIds f.id = some i →
      ∃ column, fields[i]? = some column ∧ column.ty = f.field.ty := by
  have each := forall₂_of_mapM_except mapped
  clear mapped
  induction each with
  | nil => exact ⟨rfl, nofun⟩
  | @cons f column schema index head _ tail =>
    obtain ⟨same, types⟩ := tail
    cases found : fileColumn fileIds f.id with
    | none =>
      simp only [found] at head
      cases head
      refine ⟨by rw [List.map_cons, found, same], ?_⟩
      intro g member i at_
      rcases List.mem_cons.mp member with rfl | member
      · rw [found] at at_
        cases at_
      · exact types g member i at_
    | some i =>
      simp only [found] at head
      split at head
      · cases head
      · rename_i fileField at_
        obtain ⟨_, typed, made⟩ := Except.bind_eq_ok.mp head
        cases made
        refine ⟨by rw [List.map_cons, found, same], ?_⟩
        intro g member j atj
        rcases List.mem_cons.mp member with rfl | member
        · rw [found] at atj
          cases atj
          exact ⟨fileField, at_, by simpa using ensure_eq_ok.mp typed⟩
        · exact types g member j atj

theorem mapFileColumns_of_types {segId : Nat} {fileIds : List Nat} {fields : List Field}
    (types : ∀ f ∈ schema, ∀ i, fileColumn fileIds f.id = some i →
      ∃ column, fields[i]? = some column ∧ column.ty = f.field.ty) :
    mapFileColumns segId schema fileIds fields = .ok (schema.map fun f => fileColumn fileIds f.id) := by
  apply mapM_except_of_forall₂
  induction schema with
  | nil => exact .nil
  | cons f schema ih =>
    refine .cons ?_ (ih fun g member => types g (.tail _ member))
    cases found : fileColumn fileIds f.id with
    | none => simp only [found]
    | some i =>
      obtain ⟨column, at_, typed⟩ := types f (.head _) i found
      simp only [found, at_, typed, decide_true, ensure, if_true]
      rfl

theorem openSegment_eq_ok (opened : openSegment files s = .ok file) :
    files s.path = some file ∧ s.fileIds.length = file.fields.length := by
  unfold openSegment at opened
  split at opened
  · cases opened
  · rename_i found
    obtain ⟨_, count, made⟩ := Except.bind_eq_ok.mp opened
    cases made
    exact ⟨found, by simpa using ensure_eq_ok.mp count⟩

theorem realign_flatten (nonempty : schema ≠ []) (fileIds : List Nat) (groups : List (List Row)) :
    (groups.map (realign (schema.map fun f => fileColumn fileIds f.id))).flatten =
      groups.flatten.map (rowAs fileIds schema) := by
  have shape : realign (schema.map fun f => fileColumn fileIds f.id) = List.map (rowAs fileIds schema) := by
    funext rows
    simp only [realign, List.isEmpty_map, List.isEmpty_iff, nonempty, if_false, List.map_map]
    rfl
  rw [shape, List.map_flatten]

theorem readSegmentAs_eq_ok {batches : List Batch} (nonempty : schema ≠ [])
    (read : readSegmentAs files s schema = .ok batches) :
    ∃ file, files s.path = some file ∧ Readable file s.fileIds schema ∧
      batches.flatten = file.rows.map (rowAs s.fileIds schema) := by
  unfold readSegmentAs at read
  obtain ⟨file, opened, read⟩ := Except.bind_eq_ok.mp read
  obtain ⟨index, mapped, made⟩ := Except.bind_eq_ok.mp read
  cases made
  obtain ⟨found, count⟩ := openSegment_eq_ok opened
  obtain ⟨rfl, types⟩ := mapFileColumns_eq_ok mapped
  exact ⟨file, found, ⟨count, types⟩, realign_flatten nonempty _ _⟩

theorem readSegmentAs_of_readable (nonempty : schema ≠ []) (found : files s.path = some file)
    (readable : Readable file s.fileIds schema) :
    ∃ batches, readSegmentAs files s schema = .ok batches ∧
      batches.flatten = file.rows.map (rowAs s.fileIds schema) := by
  refine ⟨_, ?_, realign_flatten nonempty s.fileIds file.groups⟩
  have opened : openSegment files s = .ok file := by
    simp only [openSegment, found, readable.count, decide_true, ensure, if_true]
    rfl
  unfold readSegmentAs
  rw [opened]
  change (mapFileColumns s.id schema s.fileIds file.fields >>= fun _ => _) = _
  rw [mapFileColumns_of_types readable.types]
  rfl

/-- Every cell a schema reads is of its field's width: a row read on a schema is as wide. -/
theorem length_rowAs (fileIds : List Nat) (row : Row) : (rowAs fileIds schema row).length = schema.length := by
  simp [rowAs]

end Read

section Tombstones

variable {schema : List SchemaField}

/-- A predicate reads the one cell its column names. -/
theorem Predicate.test_map (p : Predicate) (cell : SchemaField → Value) :
    p.test schema (schema.map cell) =
      (schema.find? (·.field.name == p.column)).bind fun f => compareScalar (cell f) p.op p.value := by
  unfold Predicate.test
  have paired : schema.zip (schema.map cell) = schema.map fun f => (f, cell f) := by
    induction schema with
    | nil => rfl
    | cons f rest ih => simp [ih]
  rw [paired, List.find?_map, Option.bind_map]
  rfl

theorem matchesKind_of_hasType {v : Value} {ty : DataType} (value : v.isNull = false) (typed : v.HasType ty) :
    matchesKind ty v = true := by
  cases ty with
  | scalar t =>
    cases v <;> cases t <;> first | rfl | exact typed.elim | cases value
  | list t =>
    cases v <;> try (first | exact typed.elim | cases value)
    rename_i items
    simp only [matchesKind, List.all_eq_true, Bool.or_eq_true]
    intro item member
    have typed := typed item member
    cases item <;> cases t <;> first | exact .inl rfl | exact .inr rfl | exact typed.elim

theorem checkTombstones_ok {tombstones : List Tombstone} (names : (schema.map (·.field.name)).Nodup)
    (fits : ∀ t ∈ tombstones, ∀ p ∈ t.predicates, p.Fits schema) :
    checkTombstones schema tombstones = .ok () := by
  have one : ∀ (seq : Nat) (p : Predicate), p.Fits schema → checkPredicate schema seq p = .ok () := by
    rintro seq p ⟨f, column, named, value, typed⟩
    unfold checkPredicate
    cases found : schema.find? (·.field.name == p.column) with
    | none =>
      have := List.find?_eq_none.mp found f column
      simp [named] at this
    | some g =>
      have same : g = f := by
        refine List.inj_on_of_nodup_map names (List.mem_of_find?_eq_some found) column ?_
        simpa [named] using List.find?_some found
      simp only [same, matchesKind_of_hasType value typed, Bool.or_true, ensure, if_true]
  exact forM_eq_ok.mpr fun t member => forM_eq_ok.mpr fun p inside => one t.seq p (fits t member p inside)

end Tombstones

section Deleted

variable {schema : List SchemaField} {row : Row}

theorem foldl_kleeneOr_eq_true (tests : List (Option Bool)) (acc : Option Bool) :
    tests.foldl kleeneOr acc = some true ↔ acc = some true ∨ some true ∈ tests := by
  induction tests generalizing acc with
  | nil => simp
  | cons test rest ih =>
    rw [List.foldl_cons, ih, List.mem_cons, ← or_assoc]
    refine or_congr_left ?_
    rcases acc with _ | _ | _ <;> rcases test with _ | _ | _ <;> simp [kleeneOr]

/-- A row goes when one tombstone takes it. -/
theorem deleted_iff {tombstones : List Tombstone} :
    deleted schema tombstones row = true ↔ ∃ x ∈ tombstones, x.test schema row = some true := by
  unfold deleted
  rw [decide_eq_true_eq, foldl_kleeneOr_eq_true]
  simp

theorem deleted_append (a b : List Tombstone) :
    deleted schema (a ++ b) row = (deleted schema a row || deleted schema b row) := by
  rw [Bool.eq_iff_iff, Bool.or_eq_true, deleted_iff, deleted_iff, deleted_iff]
  simp [or_and_right, exists_or]

end Deleted

section Scan

variable {files files' : Files} {schema : List SchemaField} {t : TableEntry} {s : SegmentEntry}

/-- The segment's file is there and can be read onto the schema. -/
def Opens (files : Files) (schema : List SchemaField) (s : SegmentEntry) : Prop :=
  ∃ file, files s.path = some file ∧ Readable file s.fileIds schema

/-- The rows of a segment on a schema, deleted or not. -/
def rowsOf (files : Files) (schema : List SchemaField) (s : SegmentEntry) : List Row :=
  match files s.path with
  | some file => file.rows.map (rowAs s.fileIds schema)
  | none => []

/-- The rows that the tombstones newer than the segment leave. -/
def visible (files : Files) (schema : List SchemaField) (tombstones : List Tombstone) (s : SegmentEntry) :
    List Row :=
  (rowsOf files schema s).filter fun row => !deleted schema (tombstones.filter fun x => s.seq < x.seq) row

theorem rowsOf_of_file {file : SegmentFile} (found : files s.path = some file) :
    rowsOf files schema s = file.rows.map (rowAs s.fileIds schema) := by
  rw [rowsOf, found]

theorem scanSegment_eq_ok_iff {rows : List Row} (nonempty : t.schema ≠ []) :
    scanSegment files t s = .ok rows ↔ Opens files t.schema s ∧
      checkTombstones t.schema (t.tombstonesFor s) = .ok () ∧ rows = visible files t.schema t.tombstones s := by
  unfold scanSegment
  constructor
  · intro scanned
    obtain ⟨batches, read, scanned⟩ := Except.bind_eq_ok.mp scanned
    obtain ⟨_, checked, made⟩ := Except.bind_eq_ok.mp scanned
    cases made
    obtain ⟨file, found, readable, flat⟩ := readSegmentAs_eq_ok nonempty read
    refine ⟨⟨file, found, readable⟩, checked, ?_⟩
    rw [flat, visible, rowsOf_of_file found]
    rfl
  · rintro ⟨⟨file, found, readable⟩, checked, rfl⟩
    obtain ⟨batches, read, flat⟩ := readSegmentAs_of_readable nonempty found readable
    rw [read]
    change (checkTombstones t.schema (t.tombstonesFor s) >>= fun _ => _) = _
    rw [checked, visible, rowsOf_of_file found, ← flat]
    rfl

/-- A scan reads every segment, and gives the rows its tombstones leave. -/
theorem scanAll_eq_ok_iff {rows : List Row} : scanAll files t = .ok rows ↔
    t.schema ≠ [] ∧ engineByName t.engine = true ∧ (∀ s ∈ t.segments, Opens files t.schema s) ∧
    (∀ s ∈ t.segments, checkTombstones t.schema (t.tombstonesFor s) = .ok ()) ∧
    rows = t.segments.flatMap (visible files t.schema t.tombstones) := by
  have parts (nonempty : t.schema ≠ []) : ∀ {segments : List SegmentEntry} {parts : List (List Row)},
      segments.mapM (scanSegment files t) = .ok parts ↔ (∀ s ∈ segments, Opens files t.schema s) ∧
      (∀ s ∈ segments, checkTombstones t.schema (t.tombstonesFor s) = .ok ()) ∧
      parts = segments.map (visible files t.schema t.tombstones) := by
    intro segments
    induction segments with
    | nil => simp [pure, Except.pure, eq_comm]
    | cons s rest ih =>
      intro parts
      simp only [List.mapM_cons, Except.bind_eq_ok, scanSegment_eq_ok_iff nonempty, ih, List.forall_mem_cons,
        List.map_cons]
      constructor
      · rintro ⟨_, ⟨opens, checked, rfl⟩, _, ⟨opens', checked', rfl⟩, made⟩
        cases made
        exact ⟨⟨opens, opens'⟩, ⟨checked, checked'⟩, rfl⟩
      · rintro ⟨⟨opens, opens'⟩, ⟨checked, checked'⟩, rfl⟩
        exact ⟨_, ⟨opens, checked, rfl⟩, _, ⟨opens', checked', rfl⟩, rfl⟩
  unfold scanAll
  constructor
  · intro scanned
    obtain ⟨_, nonempty, scanned⟩ := Except.bind_eq_ok.mp scanned
    obtain ⟨_, engine, scanned⟩ := Except.bind_eq_ok.mp scanned
    obtain ⟨read, each, made⟩ := Except.bind_eq_ok.mp scanned
    cases made
    have nonempty : t.schema ≠ [] := by simpa using ensure_eq_ok.mp nonempty
    obtain ⟨opens, checked, rfl⟩ := (parts nonempty).mp each
    exact ⟨nonempty, ensure_eq_ok.mp engine, opens, checked, List.flatMap_def.symm⟩
  · rintro ⟨nonempty, engine, opens, checked, rfl⟩
    rw [(parts nonempty).mpr ⟨opens, checked, rfl⟩, List.flatMap_def]
    simp only [ensure, engine, if_true]
    rw [if_pos (by simpa using nonempty)]
    rfl

/-- Files are only ever added: a path, once written, keeps its content. -/
def Extends (files files' : Files) : Prop := ∀ path file, files path = some file → files' path = some file

theorem Extends.refl (files : Files) : Extends files files := fun _ _ found => found

theorem Extends.trans {files'' : Files} (first : Extends files files') (second : Extends files' files'') :
    Extends files files'' := fun path file found => second path file (first path file found)

theorem Opens.mono (opens : Opens files schema s) (grown : Extends files files') : Opens files' schema s := by
  obtain ⟨file, found, readable⟩ := opens
  exact ⟨file, grown _ _ found, readable⟩

theorem rowsOf_mono (opens : Opens files schema s) (grown : Extends files files') :
    rowsOf files' schema s = rowsOf files schema s := by
  obtain ⟨file, found, _⟩ := opens
  rw [rowsOf_of_file found, rowsOf_of_file (grown _ _ found)]

end Scan

end Adelie
