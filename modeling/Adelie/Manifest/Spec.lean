import Adelie.Manifest.Entry

namespace Adelie

/-- What an engine takes, whether or not it is built yet. -/
structure EngineRules where
  name : String
  keyed : Bool
  version : Bool
deriving DecidableEq, Repr

def engines : List EngineRules :=
  [⟨"append", false, false⟩, ⟨"latest", true, true⟩, ⟨"rollup", true, false⟩,
    ⟨"vector", false, false⟩, ⟨"ledger", true, false⟩]

def engineRules (name : String) : Option EngineRules := engines.find? (·.name == name)

/-- A `CREATE TABLE` in waiting: every clause, with columns by name. -/
structure TableSpec where
  name : TableName
  columns : List Field
  engine : String
  key : List String
  version : Option String
  orderBy : List String
  partitionBy : Option (String × Duration)
  ttl : Option (String × Duration)
  options : List (String × String)
deriving DecidableEq, Repr

namespace TableSpec

def new (name : TableName) (columns : List Field) : TableSpec :=
  ⟨name, columns, "append", [], none, [], none, none, []⟩

/-- A keyed engine with no ORDER BY sorts by KEY. -/
def resolvedOrderBy (s : TableSpec) : List String :=
  if s.orderBy.isEmpty && (engineRules s.engine).any (·.keyed) && !s.key.isEmpty then s.key
  else s.orderBy

def column (s : TableSpec) (name : String) : Option Field := s.columns.find? (·.name == name)

def checkNamesExist (s : TableSpec) (table clause : String) (cols : List String) : Except Error Unit :=
  match cols.find? fun c => (s.column c).isNone with
  | some c => .error (.usage s!"table {table}: {clause} names unknown column {c}")
  | none => .ok ()

def checkNoDuplicates (table clause : String) (cols : List String) : Except Error Unit :=
  match firstRepeat cols with
  | some c => .error (.usage s!"table {table}: {clause} names column {c} twice")
  | none => .ok ()

def checkTimestampColumn (s : TableSpec) (table clause col : String) : Except Error Unit :=
  match s.column col with
  | none => .error (.panicked "column existence checked already")
  | some field =>
    ensure (field.ty = .timestamp)
      (.usage s!"table {table}: {clause} column {col} must be TIMESTAMP, not {field.ty.display}")

def checkColumnsUnique (s : TableSpec) (table : String) : Except Error Unit :=
  match firstRepeat (s.columns.map (·.name)) with
  | some c => .error (.usage s!"table {table}: column {c} is declared twice")
  | none => .ok ()

/-- Rule 4: every clause names a real column, and KEY and ORDER BY name none twice. -/
def checkClauses (s : TableSpec) (table : String) : Except Error Unit := do
  s.checkNamesExist table "KEY" s.key
  checkNoDuplicates table "KEY" s.key
  s.checkNamesExist table "VERSION" s.version.toList
  s.checkNamesExist table "ORDER BY" s.orderBy
  checkNoDuplicates table "ORDER BY" s.orderBy
  s.checkNamesExist table "PARTITION BY" (s.partitionBy.map (·.1)).toList
  s.checkNamesExist table "TTL" (s.ttl.map (·.1)).toList

/-- Rules 5 to 8: KEY and VERSION against what the engine takes. -/
def checkKey (s : TableSpec) (table : String) (rules : EngineRules) : Except Error Unit := do
  ensure (s.key.isEmpty || rules.keyed) (.keyNotAllowed table s.engine s.key)
  ensure (!s.key.isEmpty || !rules.keyed) (.keyRequired table s.engine)
  ensure (s.version.isNone || rules.version)
    (.usage s!"table {table}: VERSION is only for ENGINE = latest")
  ensure (s.key.isEmpty || s.key.isPrefixOf s.resolvedOrderBy)
    (.keyNotSortPrefix table s.key s.resolvedOrderBy)

/-- Rule 9: PARTITION BY and TTL columns are TIMESTAMP, and their durations are not zero. -/
def checkDurations (s : TableSpec) (table : String) : Except Error Unit := do
  if let some (col, bucket) := s.partitionBy then
    s.checkTimestampColumn table "PARTITION BY" col
    ensure (bucket ≠ 0) (.usage s!"table {table}: PARTITION BY bucket must not be zero")
  if let some (col, after) := s.ttl then
    s.checkTimestampColumn table "TTL" col
    ensure (after ≠ 0) (.usage s!"table {table}: TTL must not be zero")

def validate (s : TableSpec) : Except Error Unit := do
  let table := s.name.display
  ensure (isPathComponent s.name.db && isPathComponent s.name.name)
    (.usage s!"table {table}: db and name must each be one path component")
  s.checkColumnsUnique table
  match engineRules s.engine with
  | none => .error (.unknownEngine table s.engine)
  | some rules => do
    s.checkClauses table
    s.checkKey table rules
    s.checkDurations table

theorem columns_nodup_of_checkColumnsUnique {s : TableSpec} {table : String} {u : Unit}
    (passed : s.checkColumnsUnique table = .ok u) : (s.columns.map (·.name)).Nodup := by
  unfold checkColumnsUnique at passed
  split at passed
  · cases passed
  · rename_i once
    exact nodup_of_firstRepeat once

theorem checkNamesExist_eq_ok {s : TableSpec} {table clause : String} {cols : List String} {u : Unit}
    (passed : s.checkNamesExist table clause cols = .ok u) : ∀ c ∈ cols, (s.column c).isSome := by
  unfold checkNamesExist at passed
  split at passed
  · cases passed
  · rename_i none_missing
    intro c member
    simpa [Option.isSome_iff_ne_none] using List.find?_eq_none.mp none_missing c member

/-- What a valid spec promises the commit that creates the table. -/
structure Valid (s : TableSpec) : Prop where
  names_nodup : (s.columns.map (·.name)).Nodup
  key_known : ∀ c ∈ s.key, (s.column c).isSome
  version_known : ∀ c ∈ s.version, (s.column c).isSome
  orderBy_known : ∀ c ∈ s.resolvedOrderBy, (s.column c).isSome
  partitionBy_known : ∀ p ∈ s.partitionBy, (s.column p.1).isSome
  ttl_known : ∀ p ∈ s.ttl, (s.column p.1).isSome

theorem resolvedOrderBy_eq (s : TableSpec) :
    s.resolvedOrderBy = s.key ∨ s.resolvedOrderBy = s.orderBy := by
  unfold resolvedOrderBy
  split
  · exact .inl rfl
  · exact .inr rfl

theorem valid_of_validate {s : TableSpec} {u : Unit} (passed : s.validate = .ok u) : s.Valid := by
  unfold validate at passed
  obtain ⟨_, _, passed⟩ := Except.bind_eq_ok.mp passed
  obtain ⟨_, unique, passed⟩ := Except.bind_eq_ok.mp passed
  split at passed
  · cases passed
  · obtain ⟨_, clauses, _⟩ := Except.bind_eq_ok.mp passed
    unfold checkClauses at clauses
    obtain ⟨_, key, clauses⟩ := Except.bind_eq_ok.mp clauses
    obtain ⟨_, _, clauses⟩ := Except.bind_eq_ok.mp clauses
    obtain ⟨_, version, clauses⟩ := Except.bind_eq_ok.mp clauses
    obtain ⟨_, orderBy, clauses⟩ := Except.bind_eq_ok.mp clauses
    obtain ⟨_, _, clauses⟩ := Except.bind_eq_ok.mp clauses
    obtain ⟨_, partitionBy, ttl⟩ := Except.bind_eq_ok.mp clauses
    refine ⟨columns_nodup_of_checkColumnsUnique unique, checkNamesExist_eq_ok key, ?_, ?_, ?_, ?_⟩
    · intro c member
      exact checkNamesExist_eq_ok version c (Option.mem_toList.mpr member)
    · intro c member
      rcases resolvedOrderBy_eq s with same | same
      · exact checkNamesExist_eq_ok key c (same ▸ member)
      · exact checkNamesExist_eq_ok orderBy c (same ▸ member)
    · intro p member
      exact checkNamesExist_eq_ok partitionBy p.1
        (Option.mem_toList.mpr (Option.mem_map_of_mem _ member))
    · intro p member
      exact checkNamesExist_eq_ok ttl p.1 (Option.mem_toList.mpr (Option.mem_map_of_mem _ member))

end TableSpec

/-- The inverse of create, with every id resolved back to its column name. An ORDER BY equal to
    KEY is left implicit. -/
def TableEntry.spec (t : TableEntry) : TableSpec :=
  let nameOf (id : Nat) : String := ((t.field id).map (·.field.name)).getD ""
  { name := t.name
    columns := t.fields
    engine := t.engine
    key := t.key.map nameOf
    version := t.version.map nameOf
    orderBy := if !t.orderBy.isEmpty && t.orderBy != t.key then t.orderBy.map nameOf else []
    partitionBy := t.partitionBy.map fun p => (nameOf p.column, p.bucket)
    ttl := t.ttl.map fun l => (nameOf l.column, l.after)
    options := t.options }

end Adelie
