import Adelie.Manifest.Inversion

namespace Adelie

/-- The name `TableEntry.spec` reads an id back as. -/
def nameIn (schema : List SchemaField) (id : Nat) : String := ((schema.find? (·.id == id)).map (·.field.name)).getD ""

/-- Two specs of one definition: they may only spell ORDER BY differently. -/
structure TableSpec.Equivalent (a b : TableSpec) : Prop where
  name : a.name = b.name
  columns : a.columns = b.columns
  engine : a.engine = b.engine
  key : a.key = b.key
  version : a.version = b.version
  resolvedOrderBy : a.resolvedOrderBy = b.resolvedOrderBy
  partitionBy : a.partitionBy = b.partitionBy
  ttl : a.ttl = b.ttl
  options : a.options = b.options

/-- Two entries with one schema, under the same ids, and the same clauses. -/
structure TableEntry.Redefines (a b : TableEntry) : Prop where
  name : a.name = b.name
  engine : a.engine = b.engine
  schema : a.schema = b.schema
  nextFieldId : a.nextFieldId = b.nextFieldId
  key : a.key = b.key
  version : a.version = b.version
  orderBy : a.orderBy = b.orderBy
  partitionBy : a.partitionBy = b.partitionBy
  ttl : a.ttl = b.ttl
  options : a.options = b.options

section Names

variable {schema : List SchemaField} {message : String}

theorem nameIn_of_mem (nodup : (schema.map (·.id)).Nodup) {f : SchemaField} (member : f ∈ schema) :
    nameIn schema f.id = f.field.name := by
  have found : schema.find? (·.id == f.id) = some f := by
    induction schema with
    | nil => cases member
    | cons g rest ih =>
      rw [List.map_cons, List.nodup_cons] at nodup
      cases member with
      | head => simp
      | tail _ member =>
        have other : g.id ≠ f.id := by
          intro same
          exact nodup.1 (same ▸ List.mem_map_of_mem member)
        rw [List.find?_cons_of_neg (by simpa using other)]
        exact ih nodup.2 member
  rw [nameIn, found]
  rfl

/-- A name that stands in the schema is found, under an id that reads back as the name. -/
theorem expectFieldId_known (nodup : (schema.map (·.id)).Nodup) {name : String}
    (known : name ∈ schema.map (·.field.name)) :
    ∃ id, expectFieldId schema message name = .ok id ∧ nameIn schema id = name := by
  obtain ⟨f, member, named⟩ := List.mem_map.mp known
  cases found : schema.find? (·.field.name == name) with
  | none =>
    have missing := List.find?_eq_none.mp found f member
    simp [named] at missing
  | some g =>
    refine ⟨g.id, by rw [expectFieldId, found], ?_⟩
    rw [nameIn_of_mem nodup (List.mem_of_find?_eq_some found)]
    simpa using List.find?_some found

theorem expectFieldIds_known (nodup : (schema.map (·.id)).Nodup) {names : List String}
    (known : ∀ name ∈ names, name ∈ schema.map (·.field.name)) :
    ∃ ids, names.mapM (expectFieldId schema message) = .ok ids ∧ ids.map (nameIn schema) = names := by
  induction names with
  | nil => exact ⟨[], rfl, rfl⟩
  | cons name rest ih =>
    obtain ⟨first, others⟩ := List.forall_mem_cons.mp known
    obtain ⟨id, here, back⟩ := @expectFieldId_known schema message nodup name first
    obtain ⟨ids, there, backs⟩ := ih others
    refine ⟨id :: ids, ?_, by rw [List.map_cons, back, backs]⟩
    rw [List.mapM_cons, here, there]
    rfl

theorem expectFieldId_option (nodup : (schema.map (·.id)).Nodup) {name : Option String}
    (known : ∀ n ∈ name, n ∈ schema.map (·.field.name)) :
    ∃ id, name.mapM (expectFieldId schema message) = .ok id ∧ id.map (nameIn schema) = name := by
  cases name with
  | none => exact ⟨none, rfl, rfl⟩
  | some name =>
    obtain ⟨id, here, back⟩ := @expectFieldId_known schema message nodup name (known name rfl)
    refine ⟨some id, ?_, by rw [Option.map_some, back]⟩
    rw [Option.mapM_some, here]
    rfl

theorem expectClause {β : Type} (make : Nat → Duration → β) (nodup : (schema.map (·.id)).Nodup)
    {clause : Option (String × Duration)} (known : ∀ p ∈ clause, p.1 ∈ schema.map (·.field.name)) :
    ∃ found : Option (Nat × Duration),
      clause.mapM (fun p => do return make (← expectFieldId schema message p.1) p.2) =
        .ok (found.map fun p => make p.1 p.2) ∧
      found.map (fun p => (nameIn schema p.1, p.2)) = clause := by
  cases clause with
  | none => exact ⟨none, rfl, rfl⟩
  | some clause =>
    obtain ⟨id, here, back⟩ := @expectFieldId_known schema message nodup clause.1 (known clause rfl)
    refine ⟨some (id, clause.2), ?_, by rw [Option.map_some, back]⟩
    rw [Option.mapM_some, here]
    rfl

/-- Ids that read back as different names differ, so two clauses agree by id where they agree by name. -/
theorem ids_eq_iff {ids ids' : List Nat} {names names' : List String}
    (made : names.mapM (expectFieldId schema message) = .ok ids) (back : ids.map (nameIn schema) = names)
    (made' : names'.mapM (expectFieldId schema message) = .ok ids') (back' : ids'.map (nameIn schema) = names') :
    ids = ids' ↔ names = names' := by
  constructor
  · rintro rfl
    rw [← back, ← back']
  · rintro rfl
    rw [made] at made'
    cases made'
    rfl

end Names

/-- The columns of a new table under ids from `1`. -/
def numbered (columns : List Field) : List SchemaField := columns.mapIdx fun i field => ⟨i + 1, field⟩

theorem numbered_ids (columns : List Field) : ((numbered columns).map (·.id)).Nodup := by
  have ids : (numbered columns).map (·.id) = List.range' 1 columns.length := by
    refine List.ext_getElem (by simp [numbered]) fun i _ _ => ?_
    simp [numbered, Nat.add_comm]
  rw [ids]
  exact List.nodup_range'

theorem numbered_fields (columns : List Field) : (numbered columns).map (·.field) = columns :=
  List.ext_getElem (by simp [numbered]) fun i _ _ => by simp [numbered]

theorem mem_numbered_names {s : TableSpec} {name : String} (known : (s.column name).isSome) :
    name ∈ (numbered s.columns).map (·.field.name) := by
  obtain ⟨f, found⟩ := Option.isSome_iff_exists.mp known
  have names : (numbered s.columns).map (·.field.name) = s.columns.map (·.name) := by
    conv_rhs => rw [← numbered_fields s.columns]
    rw [List.map_map]
    rfl
  have member := List.mem_of_find?_eq_some found
  have named : f.name = name := by simpa using List.find?_some found
  rw [names, ← named]
  exact List.mem_map_of_mem member

/-- The id a clause of a new table resolves a name to. -/
def newFieldId (columns : List Field) : String → Except Error Nat :=
  expectFieldId (numbered columns) "validate already checked every clause names a real column"

/-- What creation resolves the clauses of a spec to. -/
structure Resolves (s : TableSpec) (entry : TableEntry) : Prop where
  key : s.key.mapM (newFieldId s.columns) = .ok entry.key
  version : s.version.mapM (newFieldId s.columns) = .ok entry.version
  orderBy : s.resolvedOrderBy.mapM (newFieldId s.columns) = .ok entry.orderBy
  partitionBy : s.partitionBy.mapM (fun p => do return PartitionBy.mk (← newFieldId s.columns p.1) p.2) =
    .ok entry.partitionBy
  ttl : s.ttl.mapM (fun p => do return Ttl.mk (← newFieldId s.columns p.1) p.2) = .ok entry.ttl

/-- An entry whose clauses read back as those of the spec. -/
structure Reads (s : TableSpec) (entry : TableEntry) : Prop where
  resolves : Resolves s entry
  name : entry.name = s.name
  engine : entry.engine = s.engine
  schema : entry.schema = numbered s.columns
  nextFieldId : entry.nextFieldId = s.columns.length + 1
  options : entry.options = s.options
  key : entry.key.map (nameIn entry.schema) = s.key
  version : entry.version.map (nameIn entry.schema) = s.version
  orderBy : entry.orderBy.map (nameIn entry.schema) = s.resolvedOrderBy
  sorted_by_key : entry.orderBy = entry.key ↔ s.resolvedOrderBy = s.key
  partitionBy : entry.partitionBy.map (fun p => (nameIn entry.schema p.column, p.bucket)) = s.partitionBy
  ttl : entry.ttl.map (fun l => (nameIn entry.schema l.column, l.after)) = s.ttl

namespace Manifest

variable {m : Manifest} {s : TableSpec}

theorem table_insertByKey {entry : TableEntry} (absent : m.table entry.name = none) :
    (insertByKey (·.name) entry m.tables).find? (·.name == entry.name) = some entry := by
  have others : ∀ t ∈ m.tables, ¬ (t.name == entry.name) = true := List.find?_eq_none.mp absent
  unfold insertByKey
  rw [List.find?_append, List.find?_eq_none.mpr]
  · simp
  · intro t member
    exact others t (List.takeWhile_subset _ member)

/-- A valid spec of a new name makes a table: no clause fails to resolve. -/
theorem createTable_succeeds (valid : s.validate = .ok ()) (absent : m.table s.name = none) :
    ∃ m' entry, m.createTable s = .ok m' ∧ m'.table s.name = some entry ∧ Reads s entry ∧
      m' = { m with nextTableId := m.nextTableId + 1, tables := insertByKey (·.name) entry m.tables } := by
  have known := TableSpec.valid_of_validate valid
  have ids := numbered_ids s.columns
  obtain ⟨key, keyIds, keyBack⟩ := @expectFieldIds_known _
    "validate already checked every clause names a real column" ids s.key
    fun name member => mem_numbered_names (known.key_known name member)
  obtain ⟨version, versionId, versionBack⟩ := @expectFieldId_option _
    "validate already checked every clause names a real column" ids s.version
    fun name member => mem_numbered_names (known.version_known name member)
  obtain ⟨orderBy, orderByIds, orderByBack⟩ := @expectFieldIds_known _
    "validate already checked every clause names a real column" ids s.resolvedOrderBy
    fun name member => mem_numbered_names (known.orderBy_known name member)
  obtain ⟨partitionBy, partitionId, partitionBack⟩ := @expectClause _
    "validate already checked every clause names a real column" _ PartitionBy.mk ids s.partitionBy
    fun p member => mem_numbered_names (known.partitionBy_known p member)
  obtain ⟨ttl, ttlId, ttlBack⟩ := @expectClause _
    "validate already checked every clause names a real column" _ Ttl.mk ids s.ttl
    fun p member => mem_numbered_names (known.ttl_known p member)
  let entry : TableEntry :=
    { id := m.nextTableId
      name := s.name
      engine := s.engine
      schema := numbered s.columns
      nextFieldId := (numbered s.columns).length + 1
      key := key
      version := version
      orderBy := orderBy
      partitionBy := partitionBy.map fun p => ⟨p.1, p.2⟩
      ttl := ttl.map fun p => ⟨p.1, p.2⟩
      options := s.options
      segments := []
      tombstones := [] }
  refine ⟨{ m with nextTableId := m.nextTableId + 1, tables := insertByKey (·.name) entry m.tables }, entry, ?_,
    @table_insertByKey m entry absent, ?_, rfl⟩
  · have fresh : (m.table s.name).isNone = true := by rw [absent]; rfl
    unfold createTable
    refine Except.bind_eq_ok.mpr ⟨(), valid, Except.bind_eq_ok.mpr ⟨(), ensure_eq_ok.mpr fresh, ?_⟩⟩
    refine Except.bind_eq_ok.mpr ⟨key, keyIds, Except.bind_eq_ok.mpr ⟨version, versionId, ?_⟩⟩
    refine Except.bind_eq_ok.mpr ⟨orderBy, orderByIds, Except.bind_eq_ok.mpr ⟨_, partitionId, ?_⟩⟩
    exact Except.bind_eq_ok.mpr ⟨_, ttlId, rfl⟩
  · refine ⟨⟨keyIds, versionId, orderByIds, partitionId, ttlId⟩, rfl, rfl, rfl, ?_, rfl, keyBack, versionBack, orderByBack, ?_, ?_, ?_⟩
    · simp [entry, numbered]
    · exact ids_eq_iff orderByIds orderByBack keyIds keyBack
    · show (partitionBy.map _).map _ = s.partitionBy
      rw [Option.map_map]
      exact partitionBack
    · show (ttl.map _).map _ = s.ttl
      rw [Option.map_map]
      exact ttlBack

theorem createTable_reads {m' : Manifest} (made : m.createTable s = .ok m') :
    ∃ entry, s.validate = .ok () ∧ Reads s entry ∧
      m' = { m with nextTableId := m.nextTableId + 1, tables := insertByKey (·.name) entry m.tables } := by
  have run := made
  unfold createTable at run
  obtain ⟨_, valid, run⟩ := Except.bind_eq_ok.mp run
  obtain ⟨_, absent, _⟩ := Except.bind_eq_ok.mp run
  obtain ⟨m'', entry, again, _, reads, rfl⟩ := createTable_succeeds valid (by simpa using ensure_eq_ok.mp absent)
  rw [made] at again
  cases again
  exact ⟨entry, valid, reads, rfl⟩

end Manifest

namespace Reads

variable {s : TableSpec} {entry : TableEntry}

/-- What the entry's spec is: the original, but for an ORDER BY equal to KEY. -/
theorem spec_eq (reads : Reads s entry) :
    entry.spec = { s with orderBy := if s.resolvedOrderBy = [] ∨ s.resolvedOrderBy = s.key then []
      else s.resolvedOrderBy } := by
  have empty : entry.orderBy = [] ↔ s.resolvedOrderBy = [] := by
    rw [← reads.orderBy, List.map_eq_nil_iff]
  have fields : entry.fields = s.columns := by
    rw [TableEntry.fields, reads.schema]
    exact numbered_fields s.columns
  have orderBy : (if !entry.orderBy.isEmpty && entry.orderBy != entry.key then
      entry.orderBy.map (nameIn entry.schema) else []) =
      if s.resolvedOrderBy = [] ∨ s.resolvedOrderBy = s.key then [] else s.resolvedOrderBy := by
    by_cases none_ : s.resolvedOrderBy = []
    · simp [none_, empty.mpr none_]
    · have some_ : entry.orderBy ≠ [] := fun bare => none_ (empty.mp bare)
      by_cases same : s.resolvedOrderBy = s.key
      · simp [same, reads.sorted_by_key.mpr same]
      · have other : entry.orderBy ≠ entry.key := fun bare => same (reads.sorted_by_key.mp bare)
        simp [some_, other, none_, same, reads.orderBy]
  unfold TableEntry.spec
  rw [reads.name, fields, reads.engine, reads.options]
  show TableSpec.mk s.name s.columns s.engine (entry.key.map (nameIn entry.schema))
    (entry.version.map (nameIn entry.schema)) (if !entry.orderBy.isEmpty && entry.orderBy != entry.key then
      entry.orderBy.map (nameIn entry.schema) else [])
    (entry.partitionBy.map fun p => (nameIn entry.schema p.column, p.bucket))
    (entry.ttl.map fun l => (nameIn entry.schema l.column, l.after)) s.options = _
  rw [reads.key, reads.version, orderBy, reads.partitionBy, reads.ttl]

end Reads

namespace TableSpec

variable {s : TableSpec}

/-- KEY is given exactly on a keyed engine. -/
theorem keyed_of_validate (valid : s.validate = .ok ()) :
    (engineRules s.engine).any (·.keyed) = !s.key.isEmpty := by
  unfold validate at valid
  obtain ⟨_, _, valid⟩ := Except.bind_eq_ok.mp valid
  obtain ⟨_, _, valid⟩ := Except.bind_eq_ok.mp valid
  split at valid
  · cases valid
  · rename_i rules known
    obtain ⟨_, _, valid⟩ := Except.bind_eq_ok.mp valid
    obtain ⟨_, keyed, _⟩ := Except.bind_eq_ok.mp valid
    unfold checkKey at keyed
    obtain ⟨_, allowed, keyed⟩ := Except.bind_eq_ok.mp keyed
    obtain ⟨_, required, _⟩ := Except.bind_eq_ok.mp keyed
    rw [ensure_eq_ok] at allowed required
    rw [known]
    cases bare : s.key.isEmpty <;> simp_all

/-- Leaving out an ORDER BY equal to KEY changes nothing a table is made of. -/
theorem resolvedOrderBy_implicit (valid : s.validate = .ok ()) (same : s.orderBy = s.key) :
    ({ s with orderBy := [] } : TableSpec).resolvedOrderBy = s.resolvedOrderBy := by
  have keyed := keyed_of_validate valid
  unfold resolvedOrderBy
  rw [same]
  cases bare : s.key.isEmpty with
  | true =>
    have none_ : s.key = [] := List.isEmpty_iff.mp bare
    simp [none_]
  | false =>
    rw [bare] at keyed
    simp [keyed, bare]

theorem validate_implicit (valid : s.validate = .ok ()) (same : s.orderBy = s.key) :
    ({ s with orderBy := [] } : TableSpec).validate = .ok () := by
  have resolved := resolvedOrderBy_implicit valid same
  unfold validate at valid ⊢
  obtain ⟨_, named, valid⟩ := Except.bind_eq_ok.mp valid
  obtain ⟨_, unique, valid⟩ := Except.bind_eq_ok.mp valid
  refine Except.bind_eq_ok.mpr ⟨(), named, Except.bind_eq_ok.mpr ⟨(), unique, ?_⟩⟩
  split at valid
  · cases valid
  · rename_i rules known
    obtain ⟨_, clauses, valid⟩ := Except.bind_eq_ok.mp valid
    obtain ⟨_, keyed, durations⟩ := Except.bind_eq_ok.mp valid
    simp only [known]
    refine Except.bind_eq_ok.mpr ⟨(), ?_, Except.bind_eq_ok.mpr ⟨(), ?_, durations⟩⟩
    · unfold checkClauses at clauses ⊢
      obtain ⟨_, key, clauses⟩ := Except.bind_eq_ok.mp clauses
      obtain ⟨_, once, clauses⟩ := Except.bind_eq_ok.mp clauses
      obtain ⟨_, version, clauses⟩ := Except.bind_eq_ok.mp clauses
      obtain ⟨_, _, clauses⟩ := Except.bind_eq_ok.mp clauses
      obtain ⟨_, _, rest⟩ := Except.bind_eq_ok.mp clauses
      refine Except.bind_eq_ok.mpr ⟨(), key, Except.bind_eq_ok.mpr ⟨(), once, ?_⟩⟩
      refine Except.bind_eq_ok.mpr ⟨(), version, Except.bind_eq_ok.mpr ⟨(), rfl, ?_⟩⟩
      exact Except.bind_eq_ok.mpr ⟨(), rfl, rest⟩
    · unfold checkKey at keyed ⊢
      rw [resolved]
      exact keyed

end TableSpec

namespace Reads

variable {s : TableSpec} {entry : TableEntry}

theorem spec_of_key_order (reads : Reads s entry) (same : s.orderBy = s.key) :
    entry.spec = { s with orderBy := [] } := by
  have resolved : s.resolvedOrderBy = s.key := by
    rcases s.resolvedOrderBy_eq with eq | eq
    · exact eq
    · exact eq.trans same
  rw [reads.spec_eq, if_pos (.inr resolved)]

theorem spec_of_own_order (reads : Reads s entry) (valid : s.validate = .ok ()) (other : s.orderBy ≠ s.key) :
    entry.spec = s := by
  have keyed := TableSpec.keyed_of_validate valid
  rw [reads.spec_eq]
  by_cases implicit : s.orderBy = []
  · have some_ : s.key ≠ [] := fun bare => other (implicit.trans bare.symm)
    have resolved : s.resolvedOrderBy = s.key := by
      unfold TableSpec.resolvedOrderBy
      rw [implicit, keyed]
      simp [some_]
    rw [if_pos (.inr resolved), ← implicit]
  · have resolved : s.resolvedOrderBy = s.orderBy := by
      unfold TableSpec.resolvedOrderBy
      simp [implicit]
    rw [resolved, if_neg (by simp [implicit, other])]

theorem spec_equivalent (reads : Reads s entry) (valid : s.validate = .ok ()) : entry.spec.Equivalent s := by
  by_cases same : s.orderBy = s.key
  · rw [reads.spec_of_key_order same]
    exact ⟨rfl, rfl, rfl, rfl, rfl, TableSpec.resolvedOrderBy_implicit valid same, rfl, rfl, rfl⟩
  · rw [reads.spec_of_own_order valid same]
    exact ⟨rfl, rfl, rfl, rfl, rfl, rfl, rfl, rfl, rfl⟩

theorem spec_valid (reads : Reads s entry) (valid : s.validate = .ok ()) : entry.spec.validate = .ok () := by
  by_cases same : s.orderBy = s.key
  · rw [reads.spec_of_key_order same]
    exact TableSpec.validate_implicit valid same
  · rw [reads.spec_of_own_order valid same]
    exact valid

/-- Equivalent specs make the same table. -/
theorem redefines {r : TableSpec} {again : TableEntry} (same : r.Equivalent s) (reads : Reads s entry)
    (reread : Reads r again) : again.Redefines entry := by
  have here := reads.resolves
  have there := reread.resolves
  have columns : newFieldId r.columns = newFieldId s.columns := by rw [same.columns]
  refine ⟨?_, ?_, ?_, ?_, ?_, ?_, ?_, ?_, ?_, ?_⟩
  · rw [reread.name, reads.name, same.name]
  · rw [reread.engine, reads.engine, same.engine]
  · rw [reread.schema, reads.schema, same.columns]
  · rw [reread.nextFieldId, reads.nextFieldId, same.columns]
  · have eq := there.key
    rw [same.key, columns, here.key] at eq
    exact (Except.ok.inj eq).symm
  · have eq := there.version
    rw [same.version, columns, here.version] at eq
    exact (Except.ok.inj eq).symm
  · have eq := there.orderBy
    rw [same.resolvedOrderBy, columns, here.orderBy] at eq
    exact (Except.ok.inj eq).symm
  · have eq := there.partitionBy
    rw [same.partitionBy, columns, here.partitionBy] at eq
    exact (Except.ok.inj eq).symm
  · have eq := there.ttl
    rw [same.ttl, columns, here.ttl] at eq
    exact (Except.ok.inj eq).symm
  · rw [reread.options, reads.options, same.options]

end Reads

/-- A spec that `validate` accepts comes back from the table it makes, and makes that table again: an
    ORDER BY equal to KEY comes back as the implicit one, and nothing else changes. -/
theorem createTable_spec_round_trip (m : Manifest) (version nowMs : Nat) (s : TableSpec) (valid : s.validate = .ok ())
    (absent : m.table s.name = none) :
    ∃ m' entry, m.applyEdit version nowMs (.createTable s) = .ok m' ∧ m'.table s.name = some entry ∧
      entry.spec.Equivalent s ∧ (s.orderBy = s.key → entry.spec.orderBy = []) ∧
      (s.orderBy ≠ s.key → entry.spec = s) ∧
      ∀ n : Manifest, n.table s.name = none →
        ∃ n' again, n.applyEdit version nowMs (.createTable entry.spec) = .ok n' ∧ n'.table s.name = some again ∧
          again.Redefines entry := by
  obtain ⟨m', entry, made, found, reads, _⟩ := Manifest.createTable_succeeds valid absent
  have same := reads.spec_equivalent valid
  refine ⟨m', entry, made, found, same, ?_, fun other => reads.spec_of_own_order valid other, ?_⟩
  · intro keyed
    rw [reads.spec_of_key_order keyed]
  · intro n free
    have open_ : n.table entry.spec.name = none := by rw [same.name]; exact free
    obtain ⟨n', again, remade, refound, reread, _⟩ := Manifest.createTable_succeeds (reads.spec_valid valid) open_
    exact ⟨n', again, remade, same.name ▸ refound, Reads.redefines same reads reread⟩

/-- A keyed table with the KEY spelled out as its ORDER BY. -/
def keyedSpec : TableSpec :=
  { TableSpec.new ⟨"main", "events"⟩ [⟨"id", .int64⟩, ⟨"at", .timestamp⟩] with
    engine := "latest"
    key := ["id"]
    orderBy := ["id"]
    ttl := some ("at", 1000) }

theorem createTable_spec_round_trip_keyed :
    keyedSpec.validate = .ok () ∧ Manifest.empty.table keyedSpec.name = none ∧
    ∃ m' entry, Manifest.empty.applyEdit 1 0 (.createTable keyedSpec) = .ok m' ∧
      m'.table keyedSpec.name = some entry ∧ entry.spec.Equivalent keyedSpec ∧
      (keyedSpec.orderBy = keyedSpec.key → entry.spec.orderBy = []) ∧
      (keyedSpec.orderBy ≠ keyedSpec.key → entry.spec = keyedSpec) ∧
      ∀ n : Manifest, n.table keyedSpec.name = none →
        ∃ n' again, n.applyEdit 1 0 (.createTable entry.spec) = .ok n' ∧ n'.table keyedSpec.name = some again ∧
          again.Redefines entry :=
  ⟨by decide, rfl, createTable_spec_round_trip Manifest.empty 1 0 keyedSpec (by decide) rfl⟩

end Adelie
