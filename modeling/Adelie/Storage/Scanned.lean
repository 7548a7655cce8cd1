import Adelie.Storage.Scan

namespace Adelie

/-- Every cell of a file is NULL or of its column's type. -/
def SegmentFile.Typed (file : SegmentFile) : Prop :=
  ∀ row ∈ file.rows, ∀ p ∈ file.fields.zip row, p.2.HasType p.1.ty

/-- What a scan needs: known columns, each asked for once, a known engine, files that can be read onto
    the schema, and tombstones on columns of the schema. -/
structure Scannable (files : Files) (t : TableEntry) (names : List String) : Prop where
  some_ : names ≠ []
  once : names.Nodup
  known : ∀ name ∈ names, ∃ f ∈ t.schema, f.field.name = name
  engine : engineByName t.engine = true
  schema : t.SchemaOk
  files : ∀ s ∈ t.segments, ∃ file, files s.path = some file ∧ Readable file s.fileIds t.schema ∧
    (file.fields.map (·.name)).Nodup ∧ file.Typed
  tombstones : ∀ x ∈ t.tombstones, ∀ p ∈ x.predicates, ∃ f ∈ t.schema, f.field.name = p.column ∧
    Manifest.valueMatchesType p.value f.field.ty = true

section Compare

theorem matchesKind_of_valueMatchesType {v : Value} {ty : DataType} (fits : Manifest.valueMatchesType v ty = true) :
    matchesKind ty v = true := by
  rcases ty with ty | ty
  · cases ty <;> cases v <;> first | rfl | cases fits
  · cases v <;> cases fits

/-- Values of one scalar type compare. -/
theorem applyCmp?_isSome {cell v : Value} {ty : DataType} (op : CmpOp) (fits : Manifest.valueMatchesType v ty = true)
    (typed : cell.HasType ty) (value : cell.isNull = false) : (applyCmp? op cell v).isSome := by
  have equal : (sqlEq cell v).isSome := by
    rcases ty with ty | ty
    · cases ty <;> cases v <;> try cases fits
      all_goals cases cell <;> first | exact absurd value (by decide) | exact False.elim typed | simp [sqlEq, scalarSqlEq]
    · cases v <;> cases fits
  have order : (totalCmp cell v).isSome := by
    rcases ty with ty | ty
    · cases ty <;> cases v <;> try cases fits
      all_goals cases cell <;> first | exact absurd value (by decide) | exact False.elim typed | simp [totalCmp, scalarCmp]
    · cases v <;> cases fits
  cases op <;> simpa [applyCmp?]

theorem compareColumn_ok {ty : DataType} {cells : List Value} {v : Value} (op : CmpOp)
    (fits : Manifest.valueMatchesType v ty = true) (typed : ∀ cell ∈ cells, cell.HasType ty) :
    ∃ tests, compareColumn ty cells op v = .ok tests := by
  unfold compareColumn
  split
  · exact ⟨_, rfl⟩
  · rw [matchesKind_of_valueMatchesType fits]
    simp only [ensure, if_true]
    apply exists_mapM_eq_ok
    intro cell member
    split
    · exact ⟨_, rfl⟩
    · rename_i value
      obtain ⟨test, made⟩ := Option.isSome_iff_exists.mp
        (applyCmp?_isSome op fits (typed cell member) (by simpa using value))
      rw [made]
      exact ⟨_, rfl⟩

end Compare

section Succeeds

variable {files : Files} {t : TableEntry} {s : SegmentEntry} {file : SegmentFile} {needed : List Nat}

/-- Two columns of a file are never the same one, read under two ids. -/
theorem fileColumn_inj {fileIds : List Nat} {a b i : Nat} (first : fileColumn fileIds a = some i)
    (second : fileColumn fileIds b = some i) : a = b := by
  obtain ⟨_, hitA, _⟩ := List.findIdx?_eq_some_iff_getElem.mp first
  obtain ⟨_, hitB, _⟩ := List.findIdx?_eq_some_iff_getElem.mp second
  simp only [Bool.and_eq_true, beq_iff_eq] at hitA hitB
  exact hitA.2.symm.trans hitB.2

theorem nodup_filterMap {α β : Type} {f : α → Option β} {l : List α} (once : l.Nodup)
    (apart : ∀ x ∈ l, ∀ y ∈ l, ∀ z, f x = some z → f y = some z → x = y) : (l.filterMap f).Nodup := by
  rw [List.Nodup, List.pairwise_filterMap]
  refine once.imp_of_mem ?_
  rintro x y inX inY different z fromX _ fromY rfl
  exact different (apart x inX y inY z fromX fromY)

/-- In a list of different keys, equal keys stand at one position. -/
theorem index_eq_of_key {α κ : Type} {key : α → κ} {l : List α} (distinct : (l.map key).Nodup) {i j : Nat} {x y : α}
    (atI : l[i]? = some x) (atJ : l[j]? = some y) (same : key x = key y) : i = j := by
  obtain ⟨inI, rfl⟩ := List.getElem?_eq_some_iff.mp atI
  obtain ⟨inJ, rfl⟩ := List.getElem?_eq_some_iff.mp atJ
  have apart := List.pairwise_iff_getElem.mp distinct
  rcases Nat.lt_trichotomy i j with less | equal | more
  · refine absurd ?_ (apart i j (by simpa using inI) (by simpa using inJ) less)
    rw [List.getElem_map, List.getElem_map]
    exact same
  · exact equal
  · refine absurd ?_ (apart j i (by simpa using inJ) (by simpa using inI) more)
    rw [List.getElem_map, List.getElem_map]
    exact same.symm

theorem subSchema_nodup (ok : t.SchemaOk) (once : needed.Nodup) :
    ((needed.filterMap (t.schema[·]?)).map (·.field.name)).Nodup := by
  rw [List.map_filterMap]
  refine nodup_filterMap once fun i _ j _ name fromI fromJ => ?_
  obtain ⟨f, atI, rfl⟩ := Option.map_eq_some_iff.mp fromI
  obtain ⟨g, atJ, same⟩ := Option.map_eq_some_iff.mp fromJ
  exact index_eq_of_key ok.names_nodup atI atJ same.symm

theorem addNeeded_ok {schema : List SchemaField} {seq : Nat} {p : Predicate} (once : needed.Nodup)
    (known : ∃ f ∈ schema, f.field.name = p.column) :
    ∃ needed', addNeeded schema seq needed p = .ok needed' ∧ needed'.Nodup := by
  obtain ⟨f, member, named⟩ := known
  unfold addNeeded predicateColumn
  cases found : schema.findIdx? (·.field.name == p.column) with
  | none =>
    have := List.findIdx?_eq_none_iff.mp found f member
    simp [named] at this
  | some i =>
    refine ⟨_, rfl, ?_⟩
    split
    · exact once
    · rename_i absent
      exact List.nodup_append.mpr ⟨once, by simp, by
        rintro k old j new rfl
        rw [List.mem_singleton.mp new] at old
        simp [old] at absent⟩

theorem foldlM_ok {σ α ε : Type} {step : σ → α → Except ε σ} {Good : σ → Prop} {l : List α}
    (each : ∀ x ∈ l, ∀ s, Good s → ∃ s', step s x = .ok s' ∧ Good s') {s : σ} (good : Good s) :
    ∃ s', l.foldlM step s = .ok s' ∧ Good s' := by
  induction l generalizing s with
  | nil => exact ⟨s, rfl, good⟩
  | cons x rest ih =>
    obtain ⟨mid, first, good⟩ := each x (.head _) s good
    obtain ⟨s', ran, good⟩ := ih (fun y member => each y (.tail _ member)) good
    exact ⟨s', by rw [List.foldlM_cons, first]; exact ran, good⟩

theorem neededColumns_ok {schema : List SchemaField} {columns : List Nat} {tombstones : List Tombstone}
    (once : columns.Nodup) (known : ∀ x ∈ tombstones, ∀ p ∈ x.predicates, ∃ f ∈ schema, f.field.name = p.column) :
    ∃ needed, neededColumns schema columns tombstones = .ok needed ∧ needed.Nodup := by
  have one : ∀ x ∈ tombstones, ∀ needed, needed.Nodup →
      ∃ needed', x.predicates.foldlM (addNeeded schema x.seq) needed = .ok needed' ∧ needed'.Nodup :=
    fun x member needed once => foldlM_ok (fun p inside _ once => addNeeded_ok once (known x member p inside)) once
  obtain ⟨found, ran, nodup⟩ := foldlM_ok one once
  refine ⟨sortByKey id found, ?_, (sortByKey_perm id found).nodup_iff.mpr nodup⟩
  unfold neededColumns
  rw [ran]
  rfl

theorem predicateTests_ok {schema : List SchemaField} {rows : List Row} {p : Predicate} (seq : Nat)
    (names : (schema.map (·.field.name)).Nodup)
    (fits : ∃ f ∈ schema, f.field.name = p.column ∧ Manifest.valueMatchesType p.value f.field.ty = true)
    (typed : ∀ row ∈ rows, ∀ (i : Nat) (f : SchemaField), schema[i]? = some f → (row[i]?.getD Value.null).HasType f.field.ty) :
    ∃ tests, predicateTests schema rows seq p = .ok tests := by
  obtain ⟨f, listed, named, kind⟩ := fits
  unfold predicateTests predicateColumn
  cases found : schema.findIdx? (·.field.name == p.column) with
  | none =>
    have := List.findIdx?_eq_none_iff.mp found f listed
    simp [named] at this
  | some i =>
    obtain ⟨within, hit, _⟩ := List.findIdx?_eq_some_iff_getElem.mp found
    have same : schema[i] = f := by
      refine List.inj_on_of_nodup_map names (List.getElem_mem within) listed ?_
      rw [named]
      simpa using hit
    have at_ : schema[i]? = some f := by rw [List.getElem?_eq_getElem within, same]
    have cells : ∀ cell ∈ columnOf rows i, cell.HasType f.field.ty := by
      intro cell member
      obtain ⟨row, inside, rfl⟩ := List.mem_map.mp member
      exact typed row inside i f at_
    obtain ⟨tests, made⟩ := compareColumn_ok p.op kind cells
    refine ⟨tests, ?_⟩
    rw [← made]
    simp only [bind, Except.bind, at_]

theorem tombstoneKeepMask_ok {schema : List SchemaField} {tombstones : List Tombstone} {rows : List Row}
    (names : (schema.map (·.field.name)).Nodup)
    (fits : ∀ x ∈ tombstones, ∀ p ∈ x.predicates, ∃ f ∈ schema, f.field.name = p.column ∧
      Manifest.valueMatchesType p.value f.field.ty = true)
    (typed : ∀ row ∈ rows, ∀ (i : Nat) (f : SchemaField), schema[i]? = some f → (row[i]?.getD Value.null).HasType f.field.ty) :
    ∃ mask, tombstoneKeepMask tombstones schema rows = .ok mask := by
  have each : ∀ x ∈ tombstones, ∃ tests, tombstoneTests schema rows x = .ok tests := by
    intro x member
    obtain ⟨columns, made⟩ := exists_mapM_eq_ok fun p inside =>
      predicateTests_ok x.seq names (fits x member p inside) typed
    unfold tombstoneTests
    rw [made]
    exact ⟨_, rfl⟩
  obtain ⟨tests, made⟩ := exists_mapM_eq_ok each
  unfold tombstoneKeepMask
  rw [made]
  exact ⟨_, rfl⟩

theorem hasType_null (ty : DataType) : Value.null.HasType ty := by
  cases ty <;> exact True.intro

theorem cellOf_typed {schema : List SchemaField} {fileIds : List Nat} {row : Row} {f : SchemaField}
    (readable : Readable file fileIds schema) (typed : ∀ p ∈ file.fields.zip row, p.2.HasType p.1.ty)
    (member : f ∈ schema) : (cellOf fileIds row f.id).HasType f.field.ty := by
  unfold cellOf
  cases at_ : fileColumn fileIds f.id with
  | none => exact hasType_null _
  | some k =>
    obtain ⟨column, has, same⟩ := readable.types f member k at_
    rw [Option.bind_some, ← same]
    cases cell : row[k]? with
    | none => exact hasType_null _
    | some v =>
      obtain ⟨inFields, rfl⟩ := List.getElem?_eq_some_iff.mp has
      obtain ⟨inRow, rfl⟩ := List.getElem?_eq_some_iff.mp cell
      refine typed (file.fields[k], row[k]) (List.mem_iff_getElem.mpr ⟨k, by simp [inFields, inRow], by simp⟩)

/-- The file columns a scan reads have different names, when the file's all do. -/
theorem projection_nodup (ok : t.SchemaOk) (names : (file.fields.map (·.name)).Nodup) (once : needed.Nodup) :
    ((((needed.filterMap ((t.schema.map fun f => fileColumn s.fileIds f.id)[·]?)).filterMap id).filterMap
      (file.fields[·]?)).map (·.name)).Nodup := by
  have positions : ((needed.filterMap ((t.schema.map fun f => fileColumn s.fileIds f.id)[·]?)).filterMap id).Nodup := by
    rw [List.filterMap_filterMap]
    refine nodup_filterMap once fun i _ j _ k fromI fromJ => ?_
    simp only [List.getElem?_map, Option.bind_map, Function.id_comp] at fromI fromJ
    obtain ⟨f, atI, columnI⟩ := Option.bind_eq_some_iff.mp fromI
    obtain ⟨g, atJ, columnJ⟩ := Option.bind_eq_some_iff.mp fromJ
    exact index_eq_of_key ok.ids.nodup atI atJ (fileColumn_inj columnI columnJ)
  generalize (needed.filterMap ((t.schema.map fun f => fileColumn s.fileIds f.id)[·]?)).filterMap id = indices at positions
  rw [List.map_filterMap]
  refine nodup_filterMap positions fun i _ j _ name fromI fromJ => ?_
  obtain ⟨f, atI, rfl⟩ := Option.map_eq_some_iff.mp fromI
  obtain ⟨g, atJ, same⟩ := Option.map_eq_some_iff.mp fromJ
  exact index_eq_of_key names atI atJ same.symm

theorem readGroup_ok {names : List String} (ready : Scannable files t names) {opened : TableScan} (once : needed.Nodup)
    (nonempty : needed ≠ []) (within : ∀ i ∈ needed, i < t.schema.length)
    (fields : (opened.fields.map (·.name)).Nodup)
    (covers : ∀ x ∈ t.tombstonesFor s, ∀ p ∈ x.predicates, Covers t.schema needed p)
    (readable : Readable file s.fileIds t.schema) (distinct : (file.fields.map (·.name)).Nodup) {rows : List Row}
    (typed : ∀ row ∈ rows, ∀ p ∈ file.fields.zip row, p.2.HasType p.1.ty) :
    ∃ kept, readGroup t opened file (t.schema.map fun f => fileColumn s.fileIds f.id) needed (t.tombstonesFor s) rows =
      .ok kept := by
  have names := subSchema_nodup ready.schema once
  have sub : needed.filterMap ((t.schema.map fun f => fileColumn s.fileIds f.id)[·]?) =
      (needed.filterMap (t.schema[·]?)).map fun f => fileColumn s.fileIds f.id := by
    rw [List.map_filterMap]
    simp only [List.getElem?_map]
  have listed : ∀ f ∈ needed.filterMap (t.schema[·]?), f ∈ t.schema := by
    intro f member
    obtain ⟨i, _, at_⟩ := List.mem_filterMap.mp member
    exact List.mem_of_getElem? at_
  have full : realign (needed.filterMap ((t.schema.map fun f => fileColumn s.fileIds f.id)[·]?)) rows =
      rows.map (rowAs s.fileIds (needed.filterMap (t.schema[·]?))) := by
    have some_ : needed.filterMap (t.schema[·]?) ≠ [] := by
      obtain ⟨i, member⟩ := List.exists_mem_of_ne_nil _ nonempty
      exact List.ne_nil_of_mem (List.mem_filterMap.mpr ⟨i, member, List.getElem?_eq_getElem (within i member)⟩)
    rw [sub]
    simpa using realign_flatten some_ s.fileIds [rows]
  have fits : ∀ x ∈ t.tombstonesFor s, ∀ p ∈ x.predicates, ∃ f ∈ needed.filterMap (t.schema[·]?),
      f.field.name = p.column ∧ Manifest.valueMatchesType p.value f.field.ty = true := by
    intro x member p inside
    obtain ⟨f, column, named, kind⟩ := ready.tombstones x (List.mem_of_mem_filter member) p inside
    obtain ⟨i, at_, found⟩ := covers x member p inside
    obtain ⟨inI, hit, _⟩ := List.findIdx?_eq_some_iff_getElem.mp found
    have same : t.schema[i] = f := by
      refine List.inj_on_of_nodup_map ready.schema.names_nodup (List.getElem_mem inI) column ?_
      rw [named]
      simpa using hit
    exact ⟨f, List.mem_filterMap.mpr ⟨i, at_, by rw [List.getElem?_eq_getElem inI, same]⟩, named, kind⟩
  have cells : ∀ row ∈ rows.map (rowAs s.fileIds (needed.filterMap (t.schema[·]?))), ∀ (i : Nat) (f : SchemaField),
      (needed.filterMap (t.schema[·]?))[i]? = some f → (row[i]?.getD Value.null).HasType f.field.ty := by
    intro row member i f at_
    obtain ⟨raw, inside, rfl⟩ := List.mem_map.mp member
    have cell : (rowAs s.fileIds (needed.filterMap (t.schema[·]?)) raw)[i]? = some (cellOf s.fileIds raw f.id) := by
      rw [rowAs, List.getElem?_map, at_]
      rfl
    rw [cell, Option.getD_some]
    exact cellOf_typed readable (typed raw inside) (listed f (List.mem_of_getElem? at_))
  obtain ⟨mask, masked⟩ := tombstoneKeepMask_ok names fits cells
  have checked (fields : List Field) (distinct : (fields.map (·.name)).Nodup) : checkFields fields = .ok () := by
    simp [checkFields, ensure, distinct]
  unfold readGroup
  dsimp only
  rw [full, checked _ (projection_nodup ready.schema distinct once), checked _ (by rw [List.map_map]; exact names), masked]
  simp only [bind, Except.bind]
  split
  · exact ⟨_, rfl⟩
  · rw [checked _ fields]
    exact ⟨_, rfl⟩

theorem openScan_ok {names : List String} (ready : Scannable files t names) :
    ∃ opened, openScan t .none names = .ok opened := by
  obtain ⟨columns, found⟩ : ∃ columns, names.mapM (columnPosition t) = Except.ok columns := by
    apply exists_mapM_eq_ok
    intro name member
    obtain ⟨f, column, named⟩ := ready.known name member
    unfold columnPosition
    cases at_ : t.schema.findIdx? (·.field.name == name) with
    | none =>
      have := List.findIdx?_eq_none_iff.mp at_ f column
      simp [named] at this
    | some i => exact ⟨i, rfl⟩
  have some_ : names.isEmpty = false := by simpa using ready.some_
  unfold openScan
  rw [found]
  simp only [ensure, ready.engine, some_, Bool.not_false, if_true]
  exact ⟨_, rfl⟩

theorem columns_nodup {names : List String} {columns : List Nat}
    (at_ : List.Forall₂ (fun name i => t.schema.findIdx? (·.field.name == name) = some i) names columns)
    (once : names.Nodup) : columns.Nodup := by
  induction at_ with
  | nil => exact List.nodup_nil
  | @cons name i names columns head rest tail =>
    obtain ⟨new, once⟩ := List.nodup_cons.mp once
    refine List.nodup_cons.mpr ⟨?_, tail once⟩
    intro again
    obtain ⟨other, listed, found⟩ := List.Forall₂.source rest again
    obtain ⟨_, hit, _⟩ := List.findIdx?_eq_some_iff_getElem.mp head
    obtain ⟨_, hit', _⟩ := List.findIdx?_eq_some_iff_getElem.mp found
    simp only [beq_iff_eq] at hit hit'
    exact new (hit.symm.trans hit' ▸ listed)

/-- The columns of an opened scan: at least one, inside the schema, each once. -/
structure Requested (t : TableEntry) (opened : TableScan) : Prop where
  inside : ∀ i ∈ opened.columns, i < t.schema.length
  once : opened.columns.Nodup
  some_ : opened.columns ≠ []
  names : (opened.fields.map (·.name)).Nodup

theorem Scannable.requested {names : List String} (ready : Scannable files t names) {opened : TableScan}
    (made : openScan t .none names = .ok opened) : Requested t opened := by
  obtain ⟨_, _, columns, fields, _⟩ := openScan_eq_ok made
  have once := columns_nodup columns ready.once
  refine ⟨?_, once, ?_, ?_⟩
  · intro i member
    obtain ⟨name, _, found⟩ := List.Forall₂.source columns member
    exact (List.findIdx?_eq_some_iff_getElem.mp found).1
  · intro none_
    rw [none_] at columns
    cases columns
    exact ready.some_ rfl
  · have distinct := subSchema_nodup ready.schema once
    rw [List.map_filterMap] at distinct
    rw [fields, List.map_filterMap]
    simpa [Option.map_map, Function.comp_def] using distinct

theorem readSegment_ok {names : List String} (ready : Scannable files t names) {opened : TableScan}
    (asked : Requested t opened) (live : s ∈ t.segments) : ∃ rows, readSegment files t .none opened s = .ok rows := by
  obtain ⟨file, found, readable, distinct, typed⟩ := ready.files s live
  have known : ∀ x ∈ t.tombstonesFor s, ∀ p ∈ x.predicates, ∃ f ∈ t.schema, f.field.name = p.column := by
    intro x member p inside
    obtain ⟨f, column, named, _⟩ := ready.tombstones x (List.mem_of_mem_filter member) p inside
    exact ⟨f, column, named⟩
  obtain ⟨needed, gathered, once⟩ := neededColumns_ok asked.once known
  obtain ⟨adds, covers⟩ := neededColumns_eq_ok gathered
  have within : ∀ i ∈ needed, i < t.schema.length := fun i member => (adds.within i member).elim (asked.inside i) id
  have some_ : needed ≠ [] := by
    obtain ⟨i, member⟩ := List.exists_mem_of_ne_nil _ asked.some_
    exact List.ne_nil_of_mem (adds.kept i member)
  have opens : openSegment files s = .ok file := by
    simp only [openSegment, found, readable.count, decide_true, ensure, if_true]
    rfl
  unfold readSegment
  rw [opens]
  simp only [bind, Except.bind, mapFileColumns_of_types readable.types, gathered]
  have read : ∀ group ∈ file.groups.zipIdx, ∃ kept, readGroup t opened file
      (t.schema.map fun f => fileColumn s.fileIds f.id) needed (t.tombstonesFor s) group.1 = .ok kept := by
    intro group member
    apply readGroup_ok ready once some_ within asked.names covers readable distinct
    intro row inside
    exact typed row (List.mem_flatten.mpr ⟨group.1, List.fst_mem_of_mem_zipIdx member, inside⟩)
  obtain ⟨groups, each⟩ := exists_mapM_eq_ok read
  simp only [Pruner.none, if_true]
  rw [each]
  exact ⟨_, rfl⟩

theorem scan_ok {names : List String} (ready : Scannable files t names) (buffer : Buffered t) :
    ∃ result, scan files t .none buffer names = .ok result := by
  obtain ⟨opened, made⟩ := openScan_ok ready
  have asked := ready.requested made
  obtain ⟨_, _, _, _, segments⟩ := openScan_eq_ok made
  obtain ⟨parts, read⟩ := exists_mapM_eq_ok (l := opened.segments) fun s member =>
    readSegment_ok ready asked (List.mem_of_mem_filter (segments ▸ member))
  have projected : ∀ batch ∈ buffer.batches, ∃ rows, projectBuffered opened batch = .ok rows := by
    intro batch _
    simp only [projectBuffered, ensure, asked.names, decide_true, if_true]
    exact ⟨_, rfl⟩
  obtain ⟨tail, buffered⟩ := exists_mapM_eq_ok projected
  unfold scan
  rw [made]
  simp only [bind, Except.bind, read, buffered]
  exact ⟨_, rfl⟩

end Succeeds

theorem fields_named {schema : List SchemaField} {names : List String} {columns : List Nat}
    (at_ : List.Forall₂ (fun name i => schema.findIdx? (·.field.name == name) = some i) names columns) :
    (columns.filterMap fun i => schema[i]?.map (·.field)).map (·.name) = names := by
  induction at_ with
  | nil => rfl
  | @cons name i names columns head _ tail =>
    obtain ⟨within, hit, _⟩ := List.findIdx?_eq_some_iff_getElem.mp head
    rw [List.filterMap_cons_some (by rw [List.getElem?_eq_getElem within]; rfl), List.map_cons, tail]
    congr 1
    simpa using hit

theorem length_keptRows {files : Files} {t : TableEntry} {s : SegmentEntry} {row : Row}
    (listed : row ∈ keptRows files t s) : row.length = t.schema.length := by
  have read := List.mem_of_mem_filter listed
  unfold rowsOf at read
  split at read
  · obtain ⟨raw, _, rfl⟩ := List.mem_map.mp read
    exact length_rowAs _ _
  · cases read

/-- A scan returns the requested columns, in the order requested, of every row that no newer tombstone
    takes, segment after segment, and then of every buffered row. -/
theorem scan_rows (files : Files) (t : TableEntry) (buffer : Buffered t) (names : List String) :
    (∀ fields rows, scan files t .none buffer names = .ok (fields, rows) →
      fields.map (·.name) = names ∧ (∀ f ∈ fields, f ∈ t.fields) ∧
      rows = (t.segments.flatMap (keptRows files t)).map (fun row => names.map (namedCell t.schema row)) ++
        buffer.batches.flatten.map fun row => names.map (namedCell t.schema row)) ∧
    (Scannable files t names → ∃ result, scan files t .none buffer names = .ok result) := by
  refine ⟨?_, fun ready => scan_ok ready buffer⟩
  intro fields rows made
  unfold scan at made
  obtain ⟨opened, opens, made⟩ := Except.bind_eq_ok.mp made
  obtain ⟨parts, read, made⟩ := Except.bind_eq_ok.mp made
  obtain ⟨tail, buffered, made⟩ := Except.bind_eq_ok.mp made
  cases made
  obtain ⟨some_, _, columns, fields, segments⟩ := openScan_eq_ok opens
  have inside : ∀ i ∈ opened.columns, i < t.schema.length := by
    intro i member
    obtain ⟨name, _, found⟩ := List.Forall₂.source columns member
    exact (List.findIdx?_eq_some_iff_getElem.mp found).1
  have nonempty : opened.columns ≠ [] := by
    intro none_
    rw [none_] at columns
    cases columns
    exact some_ rfl
  refine ⟨?_, ?_, ?_⟩
  · rw [fields]
    exact fields_named columns
  · intro f member
    rw [fields] at member
    obtain ⟨i, _, at_⟩ := List.mem_filterMap.mp member
    obtain ⟨column, has, rfl⟩ := Option.map_eq_some_iff.mp at_
    exact List.mem_map_of_mem (List.mem_of_getElem? has)
  · congr 1
    · have each : parts = opened.segments.map fun s => (keptRows files t s).map fun row => names.map (namedCell t.schema row) := by
        refine eq_map_of_mapM read fun s member rows read => ?_
        rw [readSegment_visible nonempty inside read]
        refine List.map_congr_left fun row listed => pick_eq_named columns ?_
        exact length_keptRows listed
      have all : t.segments.filter Pruner.none.segment = t.segments := List.filter_eq_self.mpr fun _ _ => rfl
      rw [each, segments, all, List.flatMap_def, List.map_flatten, List.map_map]
      rfl
    · have each : tail = buffer.batches.map fun batch => batch.map fun row => names.map (namedCell t.schema row) := by
        refine eq_map_of_mapM buffered fun batch member rows projected => ?_
        obtain ⟨_, _, projected⟩ := Except.bind_eq_ok.mp projected
        cases projected
        exact List.map_congr_left fun row listed => pick_eq_named columns (buffer.wide batch member row listed)
      rw [each, List.map_flatten]

/-- A table of three columns over a file of two: a delete by a column that is not asked for, and one by
    the column the file lacks. -/
def maskedTable : TableEntry :=
  let s : SegmentEntry := ⟨7, "_", 2, 2, 1, 0, [], [], "d/1", [1, 2, 3], [1, 2]⟩
  { id := 1, name := ⟨"d", "t"⟩, engine := "append"
    schema := [⟨1, ⟨"a", .bool⟩⟩, ⟨2, ⟨"b", .bool⟩⟩, ⟨3, ⟨"c", .bool⟩⟩]
    nextFieldId := 4, key := [], version := none, orderBy := [], partitionBy := none, ttl := none, options := []
    segments := [s]
    tombstones := [⟨1, []⟩, ⟨5, [⟨"b", .eq, .bool true⟩]⟩, ⟨9, [⟨"c", .ne, .bool true⟩]⟩] }

def maskedFiles : Files := fun path =>
  if path.id = 7 then some ⟨[⟨"a", .bool⟩, ⟨"b", .bool⟩], [[[.bool true, .bool false], [.bool false, .bool true]]], by simp⟩
  else none

def maskedBuffer : Buffered maskedTable := ⟨[[[.bool false, .bool true, .bool true]]], by simp [maskedTable]⟩

theorem maskedTable_scannable : Scannable maskedFiles maskedTable ["c", "a"] := by
  refine ⟨by decide, by decide, by decide, by decide, ⟨⟨by decide, by decide, by decide⟩, by decide, by decide⟩, ?_,
    by decide⟩
  intro s member
  rw [List.mem_singleton.mp member]
  refine ⟨_, rfl, ⟨rfl, ?_⟩, by decide, ?_⟩
  · have mapped : mapFileColumns 7 maskedTable.schema [1, 2] [⟨"a", .bool⟩, ⟨"b", .bool⟩] =
      .ok [some 0, some 1, none] := rfl
    exact (mapFileColumns_eq_ok mapped).2
  · intro row listed
    rcases List.mem_cons.mp listed with rfl | listed
    · simp [Value.HasType, Value.HasScalarType]
    · rw [List.mem_singleton.mp listed]
      simp [Value.HasType, Value.HasScalarType]

theorem scan_rows_maskedTable :
    ∃ fields rows, scan maskedFiles maskedTable .none maskedBuffer ["c", "a"] = .ok (fields, rows) ∧
      fields.map (·.name) = ["c", "a"] ∧
      rows = (maskedTable.segments.flatMap (keptRows maskedFiles maskedTable)).map
          (fun row => ["c", "a"].map (namedCell maskedTable.schema row)) ++
        maskedBuffer.batches.flatten.map fun row => ["c", "a"].map (namedCell maskedTable.schema row) := by
  obtain ⟨exact_, returns⟩ := scan_rows maskedFiles maskedTable maskedBuffer ["c", "a"]
  obtain ⟨⟨fields, rows⟩, made⟩ := returns maskedTable_scannable
  obtain ⟨names, _, same⟩ := exact_ fields rows made
  exact ⟨fields, rows, made, names, same⟩

example : scan maskedFiles maskedTable .none maskedBuffer ["c", "a"] =
    .ok ([⟨"c", .bool⟩, ⟨"a", .bool⟩], [[.null, .bool true], [.bool true, .bool false]]) := rfl

end Adelie
