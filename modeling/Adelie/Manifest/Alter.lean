import Adelie.Manifest.Spec

namespace Adelie

/-- One step of a migration. Engine, KEY and VERSION have no op. -/
inductive Alter where
  | addColumn (field : Field)
  | dropColumn (column : String)
  | renameColumn (source target : String)
  | orderBy (columns : List String)
  | partitionBy (clause : Option (String × Duration))
  | setType (column : String) (ty : DataType)
deriving DecidableEq, Repr

/-- Rollups are not built: no column is used by one. -/
def rollupsUsing (_ : TableEntry) (_ : Nat) : List String := []

/-- What the clauses seen so far make of the definition; `orderBy` is by name. -/
structure AlterState where
  schema : List SchemaField
  nextFieldId : Nat
  orderBy : List String

namespace AlterState

def named (column : String) (f : SchemaField) : Bool := f.field.name == column

/-- The `seq` of the first tombstone of `source` on `column`. -/
def tombstoneOn (source : TableEntry) (column : String) : Option Nat :=
  (source.tombstones.find? fun t => t.predicates.any (·.column == column)).map (·.seq)

def checkRollups (source : TableEntry) (id : Nat) (column : String) : Except Error Unit :=
  match rollupsUsing source id with
  | rollup :: _ => .error (.columnUsedByRollup source.name.display column rollup)
  | [] => .ok ()

/-- The refusals of DROP COLUMN, in the source's order. -/
def checkDrop (source : TableEntry) (st : AlterState) (id : Nat) (c : String) : Except Error Unit := do
  let table := source.name.display
  checkRollups source id c
  ensure (!source.key.contains id) (.fixedColumn table c "KEY")
  ensure (source.version != some id) (.fixedColumn table c "VERSION")
  ensure (!st.orderBy.contains c)
    (.usage s!"table {table}: column {c} is in ORDER BY; change ORDER BY first")
  ensure (!source.partitionBy.any (·.column == id))
    (.usage s!"table {table}: column {c} is in PARTITION BY; change PARTITION BY first")
  ensure (!source.ttl.any (·.column == id))
    (.usage s!"table {table}: column {c} is in TTL; change TTL first")
  let origName := ((source.field id).map (·.field.name)).getD c
  match tombstoneOn source origName with
  | some seq => .error (.columnInTombstone table c seq)
  | none => .ok ()

def step (source : TableEntry) (st : AlterState) : Alter → Except Error AlterState
  | .addColumn f => do
    ensure (!st.schema.any (named f.name))
      (.usage s!"table {source.name.display}: column {f.name} already exists")
    return { st with schema := st.schema ++ [⟨st.nextFieldId, f⟩], nextFieldId := st.nextFieldId + 1 }
  | .dropColumn c =>
    match position (named c) st.schema with
    | none => .error (.usage s!"table {source.name.display}: unknown column {c}")
    | some spot => do
      checkDrop source st spot.found.id c
      return { st with schema := spot.removed }
  | .renameColumn old new =>
    match position (named old) st.schema with
    | none => .error (.usage s!"table {source.name.display}: unknown column {old}")
    | some spot => do
      ensure (!st.schema.any (named new))
        (.usage s!"table {source.name.display}: column {new} already exists")
      let renamed := { spot.found with field := { spot.found.field with name := new } }
      return { st with
        schema := spot.replaced renamed
        orderBy := st.orderBy.map fun name => if name = old then new else name }
  | .orderBy cols =>
    match cols.find? fun c => !st.schema.any (named c) with
    | some c => .error (.usage s!"table {source.name.display}: ORDER BY names unknown column {c}")
    | none => .ok { st with orderBy := cols }
  | .partitionBy _ => .error (.migrationNotBuilt source.name.display "PARTITION BY")
  | .setType column _ =>
    match st.schema.find? (named column) with
    | none => .error (.usage s!"table {source.name.display}: unknown column {column}")
    | some f => do
      checkRollups source f.id column
      .error (.migrationNotBuilt source.name.display "changing a column's type")

def run (source : TableEntry) (st : AlterState) (ops : List Alter) : Except Error AlterState :=
  ops.foldlM (step source) st

end AlterState

/-- The id of a column by name, as `find(..).expect(..)` gives it. -/
def expectFieldId (schema : List SchemaField) (message name : String) : Except Error Nat :=
  match schema.find? (·.field.name == name) with
  | some f => .ok f.id
  | none => .error (.panicked message)

/-- The target definition `ops` produce from `source`: `id` is `0` until a job assigns it, and
    there are no segments or tombstones. -/
def planAlter (source : TableEntry) (ops : List Alter) : Except Error TableEntry := do
  ensure (!ops.isEmpty)
    (.usage s!"table {source.name.display}: ALTER TABLE needs at least one clause")
  let st ← AlterState.run source ⟨source.schema, source.nextFieldId, source.spec.orderBy⟩ ops
  let nameOf (id : Nat) : String := ((st.schema.find? (·.id == id)).map (·.field.name)).getD ""
  let spec : TableSpec :=
    { name := source.name
      columns := st.schema.map (·.field)
      engine := source.engine
      key := source.key.map nameOf
      version := source.version.map nameOf
      orderBy := st.orderBy
      partitionBy := source.partitionBy.map fun p => (nameOf p.column, p.bucket)
      ttl := source.ttl.map fun t => (nameOf t.column, t.after)
      options := source.options }
  let orderBy ← spec.resolvedOrderBy.mapM
    (expectFieldId st.schema "resolved_order_by only names columns already checked to exist")
  let target : TableEntry :=
    { id := 0
      name := source.name
      engine := source.engine
      schema := st.schema
      nextFieldId := st.nextFieldId
      key := source.key
      version := source.version
      orderBy := orderBy
      partitionBy := source.partitionBy
      ttl := source.ttl
      options := source.options
      segments := []
      tombstones := [] }
  target.spec.validate
  return target

/-- Whether every segment must be rewritten: the sort or the partition layout changed. -/
def rewritesSegments (source target : TableEntry) : Bool :=
  source.orderBy != target.orderBy || source.partitionBy != target.partitionBy

/-- A schema that gives each column its own id, never `0` and below the next one to hand out. -/
structure SchemaIds (schema : List SchemaField) (next : Nat) : Prop where
  nodup : (schema.map (·.id)).Nodup
  positive : ∀ f ∈ schema, 0 < f.id
  below : ∀ f ∈ schema, f.id < next

/-- A definition whose columns have names and ids of their own. -/
structure TableEntry.SchemaOk (e : TableEntry) : Prop where
  ids : SchemaIds e.schema e.nextFieldId
  names_nodup : (e.schema.map (·.field.name)).Nodup
  next_pos : 0 < e.nextFieldId

/-- Every field id two schemas share has one type in both. -/
def TypesAgree (a b : List SchemaField) : Prop :=
  ∀ f ∈ a, ∀ g ∈ b, f.id = g.id → f.field.ty = g.field.ty

/-- What a planned definition keeps of its source: a column is the source's, of the same type,
    or new, under an id the source never handed out. -/
structure Descends (source : TableEntry) (schema : List SchemaField) (next : Nat) : Prop where
  next_le : source.nextFieldId ≤ next
  origin : ∀ f ∈ schema, source.nextFieldId ≤ f.id ∨ ∃ g ∈ source.schema, g.id = f.id ∧ g.field.ty = f.field.ty

namespace AlterState

/-- What one clause can do to the schema: add a column under the next id, take columns away, or
    rename one. -/
theorem step_cases {source : TableEntry} {st st' : AlterState} {op : Alter}
    (stepped : step source st op = .ok st') :
    (∃ f, st'.schema = st.schema ++ [⟨st.nextFieldId, f⟩] ∧ st'.nextFieldId = st.nextFieldId + 1) ∨
    (st'.nextFieldId = st.nextFieldId ∧ st'.schema.Sublist st.schema) ∨
    (st'.nextFieldId = st.nextFieldId ∧ ∃ (spot : Located SchemaField) (name : String),
      st.schema = spot.replaced spot.found ∧
      st'.schema = spot.replaced { spot.found with field := { spot.found.field with name := name } }) := by
  cases op with
  | addColumn f =>
    obtain ⟨_, _, made⟩ := Except.bind_eq_ok.mp stepped
    cases made
    exact .inl ⟨f, rfl, rfl⟩
  | dropColumn c =>
    simp only [step] at stepped
    split at stepped
    · cases stepped
    · rename_i spot found
      obtain ⟨_, _, made⟩ := Except.bind_eq_ok.mp stepped
      cases made
      have whole := (position_eq_some found).1
      exact .inr (.inl ⟨rfl, by rw [whole]; exact spot.removed_sublist _⟩)
  | renameColumn old new =>
    simp only [step] at stepped
    split at stepped
    · cases stepped
    · rename_i spot found
      obtain ⟨_, _, made⟩ := Except.bind_eq_ok.mp stepped
      cases made
      exact .inr (.inr ⟨rfl, spot, new, (position_eq_some found).1, rfl⟩)
  | orderBy cols =>
    simp only [step] at stepped
    split at stepped
    · cases stepped
    · cases stepped
      exact .inr (.inl ⟨rfl, .refl _⟩)
  | partitionBy clause => cases stepped
  | setType column ty =>
    simp only [step] at stepped
    split at stepped
    · cases stepped
    · obtain ⟨_, _, made⟩ := Except.bind_eq_ok.mp stepped
      cases made

theorem step_ids {source : TableEntry} {st st' : AlterState} {op : Alter}
    (stepped : step source st op = .ok st') (ids : SchemaIds st.schema st.nextFieldId)
    (next_pos : 0 < st.nextFieldId) : SchemaIds st'.schema st'.nextFieldId ∧ 0 < st'.nextFieldId := by
  rcases step_cases stepped with ⟨f, schema, next⟩ | ⟨next, sub⟩ | ⟨next, spot, name, whole, schema⟩
  · rw [schema, next]
    refine ⟨⟨?_, ?_, ?_⟩, by omega⟩
    · rw [List.map_append]
      refine List.nodup_append.mpr ⟨ids.nodup, List.nodup_singleton _, ?_⟩
      rintro id member id' fresh rfl
      obtain ⟨g, inside, rfl⟩ := List.mem_map.mp member
      have := ids.below g inside
      simp only [List.map_cons, List.map_nil, List.mem_singleton] at fresh
      omega
    · intro g member
      rcases List.mem_append.mp member with member | member
      · exact ids.positive g member
      · rw [List.mem_singleton.mp member]
        exact next_pos
    · intro g member
      rcases List.mem_append.mp member with member | member
      · have := ids.below g member
        omega
      · rw [List.mem_singleton.mp member]
        exact Nat.lt_succ_self _
  · rw [next]
    exact ⟨⟨ids.nodup.sublist (sub.map _), fun g member => ids.positive g (sub.subset member),
      fun g member => ids.below g (sub.subset member)⟩, next_pos⟩
  · rw [next, schema]
    rw [whole] at ids
    refine ⟨⟨?_, ?_, ?_⟩, next_pos⟩
    · have same := ids.nodup
      simpa [Located.replaced] using same
    · intro g member
      rcases Located.mem_replaced.mp member with rfl | member
      · exact ids.positive spot.found (Located.mem_replaced.mpr (.inl rfl))
      · exact ids.positive g (Located.mem_replaced.mpr (.inr member))
    · intro g member
      rcases Located.mem_replaced.mp member with rfl | member
      · exact ids.below spot.found (Located.mem_replaced.mpr (.inl rfl))
      · exact ids.below g (Located.mem_replaced.mpr (.inr member))

theorem step_descends {source : TableEntry} {st st' : AlterState} {op : Alter}
    (stepped : step source st op = .ok st') (from_ : Descends source st.schema st.nextFieldId) :
    Descends source st'.schema st'.nextFieldId := by
  rcases step_cases stepped with ⟨f, schema, next⟩ | ⟨next, sub⟩ | ⟨next, spot, name, whole, schema⟩
  · rw [schema, next]
    refine ⟨from_.next_le.trans (Nat.le_succ _), ?_⟩
    intro g member
    rcases List.mem_append.mp member with member | member
    · exact from_.origin g member
    · rw [List.mem_singleton.mp member]
      exact .inl from_.next_le
  · rw [next]
    exact ⟨from_.next_le, fun g member => from_.origin g (sub.subset member)⟩
  · rw [next, schema]
    rw [whole] at from_
    refine ⟨from_.next_le, ?_⟩
    intro g member
    rcases Located.mem_replaced.mp member with rfl | member
    · exact from_.origin spot.found (Located.mem_replaced.mpr (.inl rfl))
    · exact from_.origin g (Located.mem_replaced.mpr (.inr member))

theorem run_spec {source : TableEntry} {ops : List Alter} {st st' : AlterState}
    (ran : run source st ops = .ok st') (ids : SchemaIds st.schema st.nextFieldId)
    (next_pos : 0 < st.nextFieldId) (from_ : Descends source st.schema st.nextFieldId) :
    SchemaIds st'.schema st'.nextFieldId ∧ Descends source st'.schema st'.nextFieldId := by
  induction ops generalizing st with
  | nil =>
    cases ran
    exact ⟨ids, from_⟩
  | cons op ops ih =>
    obtain ⟨mid, stepped, rest⟩ := Except.bind_eq_ok.mp (by simpa [run] using ran)
    obtain ⟨ids', next_pos'⟩ := step_ids stepped ids next_pos
    exact ih rest ids' next_pos' (step_descends stepped from_)

end AlterState

theorem planAlter_frame {source target : TableEntry} {ops : List Alter}
    (planned : planAlter source ops = .ok target) :
    target.segments = [] ∧ target.engine = source.engine ∧ target.tombstones = [] := by
  unfold planAlter at planned
  obtain ⟨_, _, planned⟩ := Except.bind_eq_ok.mp planned
  obtain ⟨st, ran, planned⟩ := Except.bind_eq_ok.mp planned
  obtain ⟨orderBy, _, planned⟩ := Except.bind_eq_ok.mp planned
  obtain ⟨_, _, made⟩ := Except.bind_eq_ok.mp planned
  cases made
  exact ⟨rfl, rfl, rfl⟩

/-- What the planner promises of a target over a well-formed source. -/
structure Planned (source target : TableEntry) : Prop where
  name : target.name = source.name
  engine : target.engine = source.engine
  id : target.id = 0
  segments : target.segments = []
  tombstones : target.tombstones = []
  schema : target.SchemaOk
  descends : Descends source target.schema target.nextFieldId
  partitionBy : target.partitionBy = source.partitionBy

theorem planAlter_spec {source target : TableEntry} {ops : List Alter}
    (planned : planAlter source ops = .ok target) (ok : source.SchemaOk) : Planned source target := by
  unfold planAlter at planned
  obtain ⟨_, _, planned⟩ := Except.bind_eq_ok.mp planned
  obtain ⟨st, ran, planned⟩ := Except.bind_eq_ok.mp planned
  obtain ⟨orderBy, _, planned⟩ := Except.bind_eq_ok.mp planned
  obtain ⟨_, valid, made⟩ := Except.bind_eq_ok.mp planned
  cases made
  have start : Descends source source.schema source.nextFieldId :=
    ⟨Nat.le_refl _, fun f member => .inr ⟨f, member, rfl, rfl⟩⟩
  obtain ⟨ids', descends⟩ := AlterState.run_spec ran ok.ids ok.next_pos start
  have names := (TableSpec.valid_of_validate valid).names_nodup
  refine ⟨rfl, rfl, rfl, rfl, rfl, ⟨ids', ?_, ok.next_pos.trans_le descends.next_le⟩, descends, rfl⟩
  simpa [TableEntry.spec, TableEntry.fields, List.map_map, Function.comp_def] using names

theorem Descends.typesAgree {source : TableEntry} {schema : List SchemaField} {next : Nat}
    (descends : Descends source schema next) (ids : SchemaIds source.schema source.nextFieldId) :
    TypesAgree schema source.schema := by
  intro f member g inside same
  rcases descends.origin f member with fresh | ⟨h, origin, sameId, sameTy⟩
  · have := ids.below g inside
    omega
  · have : h = g := List.inj_on_of_nodup_map ids.nodup origin inside (sameId.trans same)
    rw [← this, sameTy]

end Adelie
