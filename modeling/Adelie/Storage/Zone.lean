import Adelie.Storage.Faithful
import Adelie.Storage.Pruned
import Adelie.Storage.Scanned

namespace Adelie

namespace SegmentFile

/-- The zone maps of a row group, one for each column of the file. -/
def zoneMaps (file : SegmentFile) (group : List Row) : List ColumnStats :=
  file.fields.zipIdx.map fun f => Column.zoneMap ⟨f.1.ty, columnOf group f.2⟩

/-- What the writer reports of each column over the whole segment. -/
def columnStats (file : SegmentFile) : List ColumnStats :=
  file.fields.zipIdx.map fun f => segmentStats (file.groups.map fun group => ⟨f.1.ty, columnOf group f.2⟩)

end SegmentFile

/-- The ranges a scan tests one row group with: none for a column the file lacks. -/
def zoneRanges (file : SegmentFile) (index : List (Option Nat)) (columns : List Nat) (group : List Row) (c : Nat) :
    Option ColumnRange :=
  (columns[c]?.bind (index[·]?)).join.bind ((file.zoneMaps group)[·]?)

/-- The ranges a scan tests a whole segment with. -/
def segmentRanges (s : SegmentEntry) (schema : List SchemaField) (columns : List Nat) (c : Nat) : Option ColumnRange :=
  columns[c]?.bind ((s.projectOnto schema).columns[·]?)

/-- The entries there are for a file: the writer's own on the schema it wrote, and what `project_onto`
    makes of an entry, any number of times. -/
inductive Produced (file : SegmentFile) : List SchemaField → SegmentEntry → Prop where
  | written {schema : List SchemaField} {s : SegmentEntry} (fields : file.fields = schema.map (·.field))
      (positive : ∀ f ∈ schema, 0 < f.id) (ids : s.fieldIds = schema.map (·.id)) (own : s.fileFieldIds = [])
      (rows : s.rows = file.rows.length) (columns : s.columns = file.columnStats) : Produced file schema s
  | projected {old new : List SchemaField} {s : SegmentEntry} (from_ : Produced file old s) :
      Produced file new (s.projectOnto new)

section Stats

variable {file : SegmentFile} {s : SegmentEntry} {schema : List SchemaField}

/-- The statistics of an entry are true of what it reads from the file. -/
structure TrueStats (file : SegmentFile) (s : SegmentEntry) : Prop where
  rows : s.rows = file.rows.length
  count : file.fields ≠ [] → s.fileIds.length = file.fields.length
  columns : ∀ id ∈ s.fieldIds, Bounds (s.statsOf id) (file.rows.map (cellOf s.fileIds · id))

theorem bounds_allNull {cells : List Value} (null : ∀ v ∈ cells, v = .null) :
    Bounds ⟨cells.length, cells.length, none, none⟩ cells := by
  refine ⟨rfl, ?_, by simp, by simp⟩
  symm
  rw [List.countP_eq_length]
  intro v member
  rw [null v member]
  rfl

theorem row_length {row : Row} (member : row ∈ file.rows) : row.length = file.fields.length := by
  obtain ⟨g, group, inside⟩ := List.mem_flatten.mp member
  exact file.wide g group row inside

theorem zip_cells_typed (typed : file.Typed) {i : Nat} {f : Field} (at_ : file.fields[i]? = some f) {group : List Row}
    (member : group ∈ file.groups) : ∀ v ∈ columnOf group i, v.HasType f.ty := by
  intro v inside
  obtain ⟨row, listed, rfl⟩ := List.mem_map.mp inside
  obtain ⟨within, rfl⟩ := List.getElem?_eq_some_iff.mp at_
  have row_in : row ∈ file.rows := List.mem_flatten.mpr ⟨group, member, listed⟩
  have wide : i < row.length := by rw [row_length row_in]; exact within
  rw [List.getElem?_eq_getElem wide, Option.getD_some]
  refine typed row row_in (file.fields[i], row[i]) ?_
  rw [List.mem_iff_getElem]
  exact ⟨i, by simp [within, wide], by simp⟩

/-- The writer's statistics of one column. -/
theorem columnStats_bounds (typed : file.Typed) {i : Nat} {f : Field} (at_ : file.fields[i]? = some f) :
    ∃ stats, file.columnStats[i]? = some stats ∧ Bounds stats (columnOf file.rows i) := by
  refine ⟨segmentStats (file.groups.map fun group => ⟨f.ty, columnOf group i⟩), ?_, ?_⟩
  · simp [SegmentFile.columnStats, at_]
  · have cells : ∀ g ∈ file.groups.map (columnOf · i), ∀ v ∈ g, v.HasType f.ty := by
      intro g member
      obtain ⟨group, inside, rfl⟩ := List.mem_map.mp member
      exact zip_cells_typed typed at_ inside
    have bounds := segmentStats_bounds cells
    have flat : (file.groups.map (columnOf · i)).flatten = columnOf file.rows i := by
      simp only [columnOf, SegmentFile.rows, List.map_flatten]
    rw [flat, List.map_map] at bounds
    exact bounds

theorem fileIds_own (own : s.fileFieldIds = []) : s.fileIds = s.fieldIds := by
  simp [SegmentEntry.fileIds, own]

/-- The first column under an id, and its statistics. -/
theorem statsOf_at {i : Nat} {id : Nat} (first : s.fieldIds.findIdx? (· == id) = some i) {stats : ColumnStats}
    (at_ : s.columns[i]? = some stats) : s.statsOf id = stats := by
  obtain ⟨within, rfl⟩ := List.getElem?_eq_some_iff.mp at_
  obtain ⟨x, _, found⟩ := find?_zip first within
  unfold SegmentEntry.statsOf
  rw [found]

theorem trueStats_written (typed : file.Typed) (fields : file.fields = schema.map (·.field))
    (positive : ∀ f ∈ schema, 0 < f.id) (ids : s.fieldIds = schema.map (·.id)) (own : s.fileFieldIds = [])
    (rows : s.rows = file.rows.length) (columns : s.columns = file.columnStats) : TrueStats file s := by
  have listed := fileIds_own own
  refine ⟨rows, fun _ => by rw [listed, ids, fields]; simp, ?_⟩
  intro id member
  have nonzero : id ≠ 0 := by
    rw [ids] at member
    obtain ⟨f, inside, rfl⟩ := List.mem_map.mp member
    exact (positive f inside).ne'
  cases first : s.fieldIds.findIdx? (· == id) with
  | none =>
    rw [List.findIdx?_eq_none_iff] at first
    simpa using first id member
  | some i =>
    have within : i < file.fields.length := by
      have := (List.findIdx?_eq_some_iff_getElem.mp first).1
      rw [ids, List.length_map] at this
      rw [fields, List.length_map]
      exact this
    obtain ⟨stats, at_, bounds⟩ := columnStats_bounds typed (List.getElem?_eq_getElem within)
    rw [statsOf_at first (by rw [columns]; exact at_)]
    have column : fileColumn s.fileIds id = some i := by
      rw [listed, ← first]
      unfold fileColumn
      congr 1
      funext x
      by_cases same : x = id
      · simp [same, nonzero]
      · simp [same]
    have cells : (file.rows.map (cellOf s.fileIds · id)) = columnOf file.rows i := by
      simp only [columnOf, cellOf, column, Option.bind_some]
    rw [cells]
    exact bounds

theorem TrueStats.projectOnto (holds : TrueStats file s) (new : List SchemaField) : TrueStats file (s.projectOnto new) := by
  by_cases hollow : file.fields = []
  · -- rows of no columns read NULL everywhere
    have null : ∀ (ids : List Nat) (id : Nat), ∀ v ∈ file.rows.map (cellOf ids · id), v = .null := by
      intro ids id v member
      obtain ⟨row, inside, rfl⟩ := List.mem_map.mp member
      have short := row_length inside
      rw [hollow, List.length_nil, List.length_eq_zero_iff] at short
      simp [cellOf, short]
    refine ⟨holds.rows, fun some_ => absurd hollow some_, ?_⟩
    intro id member
    obtain ⟨f, inside, rfl⟩ := List.mem_map.mp member
    rw [statsOf_projectOnto inside]
    by_cases listed : f.id ∈ s.fieldIds
    · have bounds := holds.columns f.id listed
      have same : file.rows.map (cellOf (s.projectOnto new).fileIds · f.id) = file.rows.map (cellOf s.fileIds · f.id) := by
        apply List.map_congr_left
        intro row inside
        rw [null _ _ _ (List.mem_map_of_mem inside), null _ _ _ (List.mem_map_of_mem inside)]
      rw [same]
      exact bounds
    · rw [statsOf_absent listed, holds.rows]
      have bounds := bounds_allNull (null (s.projectOnto new).fileIds f.id)
      rw [List.length_map] at bounds
      exact bounds
  · have length := holds.count hollow
    have some_ : s.fileIds ≠ [] := by
      intro none_
      rw [none_, List.length_nil] at length
      exact hollow (List.length_eq_zero_iff.mp length.symm)
    have ids := SegmentEntry.fileIds_projectOnto some_ new
    refine ⟨holds.rows, fun _ => by rw [ids, List.length_map]; exact length, ?_⟩
    intro id member
    obtain ⟨f, inside, rfl⟩ := List.mem_map.mp member
    rw [statsOf_projectOnto inside, ids]
    simp only [cellOf, fileColumn_masked]
    by_cases listed : f.id ∈ s.fieldIds
    · simp only [listed, if_true]
      exact holds.columns f.id listed
    · simp only [listed, if_false]
      rw [statsOf_absent listed, holds.rows]
      have null : ∀ v ∈ file.rows.map fun _ : Row => Value.null, v = .null := by simp
      have bounds := bounds_allNull null
      rw [List.length_map] at bounds
      exact bounds

theorem Produced.trueStats (produced : Produced file schema s) (typed : file.Typed) : TrueStats file s := by
  induction produced with
  | written fields positive ids own rows columns => exact trueStats_written typed fields positive ids own rows columns
  | projected _ ih => exact ih.projectOnto _

/-- Flush, compaction and migration write such entries, given a writer that reports these statistics. -/
theorem writeOutput_produced {handed : Nat → Nat} {encode : SegmentFile → Except StorageError Footer} {t : TableEntry}
    {partition : String} {seq : Nat} {st st' : MergeState} {output : List Batch}
    (reports : ∀ file footer, encode file = .ok footer → footer.columns = file.columnStats) (ok : t.SchemaOk)
    (wrote : writeOutput handed encode t partition seq st output = .ok st') :
    ∃ s file, st'.adds = st.adds ++ [s] ∧ st'.files s.path = some file ∧ Produced file t.schema s := by
  unfold writeOutput at wrote
  split at wrote
  · obtain ⟨footer, encoded, made⟩ := Except.bind_eq_ok.mp wrote
    cases made
    exact ⟨_, _, rfl, if_pos rfl, .written rfl ok.ids.positive rfl rfl rfl (reports _ _ encoded)⟩
  · cases wrote

theorem Produced.fieldIds (produced : Produced file schema s) : s.fieldIds = schema.map (·.id) := by
  cases produced with
  | written _ _ ids => exact ids
  | projected _ => rfl

/-- A row as a scan hands it on: the requested columns of what the table sees in the file. -/
def scanRow (fileIds : List Nat) (schema : List SchemaField) (columns : List Nat) (row : Row) : Row :=
  pick columns (rowAs fileIds schema row)

theorem scanRow_cell {fileIds columns : List Nat} {c j : Nat} {f : SchemaField} (asked : columns[c]? = some j)
    (at_ : schema[j]? = some f) (row : Row) :
    (scanRow fileIds schema columns row)[c]?.getD .null = cellOf fileIds row f.id := by
  simp [scanRow, pick, rowAs, asked, at_]

theorem columnOf_scanRows {fileIds columns : List Nat} {c j : Nat} {f : SchemaField} (asked : columns[c]? = some j)
    (at_ : schema[j]? = some f) {rows of_ : List Row} (from_ : ∀ row ∈ rows, ∃ r ∈ of_, row = scanRow fileIds schema columns r) :
    ∀ v ∈ columnOf rows c, v ∈ of_.map (cellOf fileIds · f.id) := by
  intro v member
  obtain ⟨row, inside, rfl⟩ := List.mem_map.mp member
  obtain ⟨r, listed, rfl⟩ := from_ row inside
  rw [scanRow_cell asked at_]
  exact List.mem_map_of_mem listed

theorem statsHold_segment (produced : Produced file schema s) (typed : file.Typed) {columns : List Nat} {rows : List Row}
    (from_ : ∀ row ∈ rows, ∃ r ∈ file.rows, row = scanRow s.fileIds schema columns r) :
    StatsHold (segmentRanges s schema columns) rows := by
  intro c range known
  obtain ⟨j, asked, at_⟩ := Option.bind_eq_some_iff.mp known
  simp only [SegmentEntry.projectOnto, List.getElem?_map, Option.map_eq_some_iff] at at_
  obtain ⟨f, found, rfl⟩ := at_
  have listed : f.id ∈ s.fieldIds := by
    rw [produced.fieldIds]
    exact List.mem_map_of_mem (List.mem_of_getElem? found)
  exact ((produced.trueStats typed).columns f.id listed).covers (columnOf_scanRows asked found from_)

theorem statsHold_zone (typed : file.Typed) {columns : List Nat} {index : List (Option Nat)}
    (mapped : mapFileColumns s.id schema s.fileIds file.fields = .ok index) {group rows : List Row}
    (member : group ∈ file.groups) (from_ : ∀ row ∈ rows, ∃ r ∈ group, row = scanRow s.fileIds schema columns r) :
    StatsHold (zoneRanges file index columns group) rows := by
  intro c range known
  obtain ⟨i, place, at_⟩ := Option.bind_eq_some_iff.mp known
  obtain ⟨j, asked, place⟩ := Option.bind_eq_some_iff.mp (Option.join_eq_some_iff.mp place)
  rw [(mapFileColumns_eq_ok mapped).1, List.getElem?_map, Option.map_eq_some_iff] at place
  obtain ⟨f, found, column⟩ := place
  simp only [SegmentFile.zoneMaps, List.getElem?_map, List.getElem?_zipIdx, Option.map_map, Option.map_eq_some_iff,
    Function.comp_apply] at at_
  obtain ⟨field, here, rfl⟩ := at_
  have bounds : Bounds _ (columnOf group (0 + i)) :=
    zoneMap_bounds (c := ⟨field.ty, columnOf group (0 + i)⟩) (zip_cells_typed typed (by simpa using here) member)
  refine bounds.covers ?_
  have cells : group.map (cellOf s.fileIds · f.id) = columnOf group (0 + i) := by
    simp only [columnOf, cellOf, column, Option.bind_some, Nat.zero_add]
  rw [← cells]
  exact columnOf_scanRows asked found from_

end Stats

section Sound

variable (K : Kernels) (fields : List Field) (pred : Expr) (columns : List Nat)

/-- Pruning drops nothing a predicate would keep: neither a row group by its zone maps nor a segment by
    the statistics of its entry has a row, deleted or not, on which a ruled out predicate is TRUE. -/
theorem mayMatch_sound {file : SegmentFile} {schema : List SchemaField} {s : SegmentEntry}
    (produced : Produced file schema s) (typed : file.Typed) {index : List (Option Nat)}
    (mapped : mapFileColumns s.id schema s.fileIds file.fields = .ok index) :
    (∀ group ∈ file.groups, mayMatch (zoneRanges file index columns group) pred = false →
      ∀ rows, (∀ row ∈ rows, ∃ r ∈ group, row = scanRow s.fileIds schema columns r) → NeverTrue K fields rows pred) ∧
    (mayMatch (segmentRanges s schema columns) pred = false →
      ∀ rows, (∀ row ∈ rows, ∃ r ∈ file.rows, row = scanRow s.fileIds schema columns r) → NeverTrue K fields rows pred) := by
  refine ⟨?_, ?_⟩
  · intro group member ruled rows from_
    exact neverTrue_of_mayMatch (statsHold_zone typed mapped member from_) ruled
  · intro ruled rows from_
    exact neverTrue_of_mayMatch (statsHold_segment produced typed from_) ruled

/-- One BOOL column with a FALSE and a NULL. -/
def flagSchema : List SchemaField := [⟨1, ⟨"a", .bool⟩⟩]

def flagFile : SegmentFile where
  fields := [⟨"a", .bool⟩]
  groups := [[[.bool false], [.null]]]
  wide := by decide

def flagSegment : SegmentEntry :=
  ⟨1, "_", 1, 2, 0, 0, flagFile.columnStats, [], "db/t", [1], []⟩

/-- `a = TRUE`. -/
def flagIsTrue : Expr := .cmp .eq (.column 0) (.literal (.bool true) .bool)

theorem flagFile_typed : flagFile.Typed := by
  intro row member p inside
  simp only [flagFile, SegmentFile.rows, List.flatten_cons, List.flatten_nil, List.append_nil, List.mem_cons,
    List.not_mem_nil, or_false] at member
  rcases member with rfl | rfl <;> simp only [flagFile, List.zip_cons_cons, List.zip_nil_right, List.mem_singleton] at inside
    <;> subst inside <;> exact True.intro

theorem flagSegment_produced : Produced flagFile flagSchema flagSegment :=
  .written rfl (by decide) rfl rfl rfl rfl

theorem mayMatch_sound_flag :
    mayMatch (zoneRanges flagFile [some 0] [0] [[.bool false], [.null]]) flagIsTrue = false ∧
    mayMatch (segmentRanges flagSegment flagSchema [0]) flagIsTrue = false ∧
    NeverTrue noKernels [⟨"a", .bool⟩] [[.bool false], [.null]] flagIsTrue := by
  have mapped : mapFileColumns flagSegment.id flagSchema flagSegment.fileIds flagFile.fields = .ok [some 0] := rfl
  have sound := mayMatch_sound noKernels [⟨"a", .bool⟩] flagIsTrue [0] flagSegment_produced flagFile_typed mapped
  refine ⟨by decide, by decide, ?_⟩
  apply sound.1 [[.bool false], [.null]] (by simp [flagFile]) (by decide)
  intro row member
  exact ⟨row, member, by
    simp only [List.mem_cons, List.not_mem_nil, or_false] at member
    rcases member with rfl | rfl <;> rfl⟩

end Sound

end Adelie
