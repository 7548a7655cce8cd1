import Adelie.Manifest.Commit

namespace Adelie.Manifest

variable {m m' : Manifest} {table : TableName} {version nowMs : Nat}

theorem tableIndex_eq_ok {spot : Located TableEntry} (at_ : m.tableIndex table = .ok spot) :
    m.tables = spot.replaced spot.found ∧ spot.found.name = table ∧ m.table table = some spot.found := by
  unfold tableIndex at at_
  split at at_
  · rename_i found
    cases at_
    obtain ⟨whole, named, _⟩ := position_eq_some found
    exact ⟨whole, by simpa using named, find?_of_position found⟩
  · cases at_

/-- No job runs on the table just found. -/
theorem refuseJob_eq_ok {t : TableEntry} {u : Unit} (at_ : m.table table = some t)
    (passed : m.refuseJob table = .ok u) : ∀ j ∈ m.jobs, j.source ≠ t.id := by
  unfold refuseJob jobFor at passed
  rw [at_] at passed
  split at passed
  · cases passed
  · rename_i idle
    intro j member
    simpa using List.find?_eq_none.mp idle j member

theorem jobAndSource_eq_ok {jobId : Nat} {job : Located Job} {source : Located TableEntry}
    (found : m.jobAndSource jobId = .ok (job, source)) :
    m.jobs = job.replaced job.found ∧ job.found.id = jobId ∧ m.job jobId = some job.found ∧
    m.tables = source.replaced source.found ∧ source.found.id = job.found.source := by
  unfold jobAndSource at found
  split at found
  · cases found
  · rename_i job' atJob
    split at found
    · cases found
    · rename_i source' atSource
      cases found
      obtain ⟨jobs, sameJob, _⟩ := position_eq_some atJob
      obtain ⟨tables, sameSource, _⟩ := position_eq_some atSource
      exact ⟨jobs, by simpa using sameJob, find?_of_position atJob, tables, by simpa using sameSource⟩

/-- A release of segments, each under the name of its own table. -/
def releaseAll (version nowMs : Nat) (m : Manifest) (segments : List (TableName × SegmentEntry)) : Manifest :=
  segments.foldl (fun m s => m.releaseOne s.1 version nowMs s.2) m

theorem release_eq_releaseAll (segments : List SegmentEntry) :
    m.release table segments version nowMs = m.releaseAll version nowMs (segments.map (table, ·)) := by
  rw [releaseAll, List.foldl_map]
  rfl

theorem expireRetired_eq_releaseAll (beforeMs : Nat) :
    m.expireRetired beforeMs version nowMs =
      { m with retired := m.retired.filter fun r => !(decide (r.retiredAtMs < beforeMs)) }.releaseAll version nowMs
        ((m.retired.filter fun (r : Retired) => r.retiredAtMs < beforeMs).flatMap fun (r : Retired) =>
          r.entry.segments.map (r.entry.name, ·)) := by
  rw [releaseAll, List.foldl_flatMap, expireRetired, List.partition_eq_filter_filter]
  simp only [List.foldl_map]
  rfl

/-- A release touches nothing but garbage. -/
theorem releaseOne_frame (m : Manifest) (s : SegmentEntry) :
    m.releaseOne table version nowMs s =
      { m with garbage := (m.releaseOne table version nowMs s).garbage } := by
  unfold releaseOne
  split <;> rfl

theorem releaseAll_frame (m : Manifest) (segments : List (TableName × SegmentEntry)) :
    m.releaseAll version nowMs segments =
      { m with garbage := (m.releaseAll version nowMs segments).garbage } := by
  unfold releaseAll
  induction segments generalizing m with
  | nil => rfl
  | cons s rest ih =>
    rw [List.foldl_cons, ih]
    rw [releaseOne_frame]

theorem release_frame (m : Manifest) (segments : List SegmentEntry) :
    m.release table segments version nowMs =
      { m with garbage := (m.release table segments version nowMs).garbage } := by
  rw [release_eq_releaseAll]
  exact releaseAll_frame m _

theorem expireRetired_frame (m : Manifest) (beforeMs : Nat) :
    m.expireRetired beforeMs version nowMs =
      { m with
        retired := m.retired.filter fun r => !(decide (r.retiredAtMs < beforeMs))
        garbage := (m.expireRetired beforeMs version nowMs).garbage } := by
  rw [expireRetired_eq_releaseAll]
  exact releaseAll_frame _ _

/-- What the new segments of one edit have passed. -/
def Aligned (schema : List SchemaField) (s : SegmentEntry) : Prop :=
  s.fieldIds = schema.map (·.id) ∧ s.columns.length = schema.length

theorem validateNewSegments_eq_ok {t : TableEntry} {segments : List SegmentEntry} {u : Unit}
    (passed : validateNewSegments table t.schemaIds segments = .ok u) :
    ∀ s ∈ segments, Aligned t.schema s := by
  intro s member
  have head := forM_eq_ok.mp passed s member
  unfold validateNewSegment at head
  obtain ⟨_, count, head⟩ := Except.bind_eq_ok.mp head
  obtain ⟨_, ids, _⟩ := Except.bind_eq_ok.mp head
  refine ⟨of_decide_eq_true (ensure_eq_ok.mp ids), ?_⟩
  simpa [TableEntry.schemaIds] using ensure_eq_ok.mp count

/-- A new table: no rows, and field ids `1` to the number of its columns. -/
structure Created (m : Manifest) (spec : TableSpec) (entry : TableEntry) : Prop where
  id : entry.id = m.nextTableId
  name : entry.name = spec.name
  engine : entry.engine = spec.engine
  schema : entry.schema = spec.columns.mapIdx fun i field => (⟨i + 1, field⟩ : SchemaField)
  nextFieldId : entry.nextFieldId = entry.schema.length + 1
  segments : entry.segments = []
  tombstones : entry.tombstones = []
  absent : m.table spec.name = none
  valid : spec.Valid

theorem Created.schemaOk {spec : TableSpec} {entry : TableEntry} (created : Created m spec entry) :
    entry.SchemaOk := by
  have ids : entry.schema.map (·.id) = List.range' 1 entry.schema.length := by
    rw [created.schema]
    refine List.ext_getElem (by simp) fun i _ _ => ?_
    simp [Nat.add_comm]
  have bound : ∀ f ∈ entry.schema, 1 ≤ f.id ∧ f.id < 1 + entry.schema.length := by
    intro f member
    have listed : f.id ∈ entry.schema.map (·.id) := List.mem_map_of_mem member
    rw [ids, List.mem_range'_1] at listed
    exact listed
  refine ⟨⟨?_, fun f member => (bound f member).1, fun f member => ?_⟩, ?_, ?_⟩
  · rw [ids]
    exact List.nodup_range'
  · have := bound f member
    have := created.nextFieldId
    omega
  · have names : entry.schema.map (·.field.name) = spec.columns.map (·.name) := by
      rw [created.schema]
      exact List.ext_getElem (by simp) fun i _ _ => by simp
    rw [names]
    exact created.valid.names_nodup
  · have := created.nextFieldId
    omega

theorem createTable_eq_ok {spec : TableSpec} (made : m.createTable spec = .ok m') :
    ∃ entry, Created m spec entry ∧
      m' = { m with nextTableId := m.nextTableId + 1, tables := insertByKey (·.name) entry m.tables } := by
  unfold createTable at made
  obtain ⟨_, valid, made⟩ := Except.bind_eq_ok.mp made
  obtain ⟨_, absent, made⟩ := Except.bind_eq_ok.mp made
  obtain ⟨key, _, made⟩ := Except.bind_eq_ok.mp made
  obtain ⟨version, _, made⟩ := Except.bind_eq_ok.mp made
  obtain ⟨orderBy, _, made⟩ := Except.bind_eq_ok.mp made
  obtain ⟨partitionBy, _, made⟩ := Except.bind_eq_ok.mp made
  obtain ⟨ttl, _, made⟩ := Except.bind_eq_ok.mp made
  cases made
  exact ⟨_, ⟨rfl, rfl, rfl, rfl, rfl, rfl, rfl, by simpa using ensure_eq_ok.mp absent,
    TableSpec.valid_of_validate valid⟩, rfl⟩

theorem addSegments_eq_ok {segments : List SegmentEntry} (made : m.addSegments table segments = .ok m') :
    ∃ spot : Located TableEntry, m.tables = spot.replaced spot.found ∧ spot.found.name = table ∧
      (∀ s ∈ segments, Aligned spot.found.schema s) ∧
      m' = { m with
        tables := spot.replaced { spot.found with
          segments := sortByKey SegmentEntry.order (spot.found.segments ++ segments) }
        nextSegmentId := coverSegmentIds m.nextSegmentId
          (sortByKey SegmentEntry.order (spot.found.segments ++ segments)) } := by
  unfold addSegments at made
  obtain ⟨spot, at_, made⟩ := Except.bind_eq_ok.mp made
  obtain ⟨_, valid, made⟩ := Except.bind_eq_ok.mp made
  cases made
  obtain ⟨whole, named, _⟩ := tableIndex_eq_ok at_
  exact ⟨spot, whole, named, validateNewSegments_eq_ok valid, rfl⟩

theorem removeSegments_eq_ok {ids : List Nat} (made : m.removeSegments table ids version nowMs = .ok m') :
    ∃ spot : Located TableEntry, m.tables = spot.replaced spot.found ∧ spot.found.name = table ∧
      (∀ j ∈ m.jobs, j.source ≠ spot.found.id) ∧ (∀ id ∈ ids, id ∈ spot.found.segmentIds) ∧
      m' = { m with tables := spot.replaced { spot.found with
          segments := spot.found.segments.filter fun s => !ids.contains s.id } }.release table
        (spot.found.segments.filter fun s => ids.contains s.id) version nowMs := by
  unfold removeSegments at made
  obtain ⟨spot, at_, made⟩ := Except.bind_eq_ok.mp made
  obtain ⟨_, idle, made⟩ := Except.bind_eq_ok.mp made
  obtain ⟨whole, named, isTable⟩ := tableIndex_eq_ok at_
  split at made
  · cases made
  · rename_i live
    rw [List.partition_eq_filter_filter] at made
    cases made
    refine ⟨spot, whole, named, refuseJob_eq_ok isTable idle, ?_, rfl⟩
    intro id member
    simpa [TableEntry.segmentIds] using List.find?_eq_none.mp live id member

theorem addTombstone_eq_ok {predicates : List Predicate} (made : m.addTombstone table predicates = .ok m') :
    ∃ (spot : Located TableEntry) (stored : List Predicate), m.tables = spot.replaced spot.found ∧
      spot.found.name = table ∧
      List.Forall₂ (fun p q => storedPredicate spot.found.schema p = .ok q) predicates stored ∧
      m' = { m with tables := spot.replaced { spot.found with
        tombstones := spot.found.tombstones ++ [⟨m.version + 1, stored⟩] } } := by
  unfold addTombstone at made
  obtain ⟨spot, at_, made⟩ := Except.bind_eq_ok.mp made
  obtain ⟨whole, named, _⟩ := tableIndex_eq_ok at_
  split at made
  · cases made
  · obtain ⟨stored, each, made⟩ := Except.bind_eq_ok.mp made
    cases made
    exact ⟨spot, stored, whole, named, forall₂_of_mapM_except each, rfl⟩

theorem createJob_eq_ok {ops : List Alter} (made : m.createJob table ops = .ok m') :
    ∃ (spot : Located TableEntry) (target : TableEntry), m.tables = spot.replaced spot.found ∧
      spot.found.name = table ∧ (∀ j ∈ m.jobs, j.source ≠ spot.found.id) ∧
      planAlter spot.found ops = .ok target ∧
      m' = { m with
        nextTableId := m.nextTableId + 1
        nextJobId := m.nextJobId + 1
        jobs := m.jobs ++
          [⟨m.nextJobId, spot.found.id, m.version, { target with id := m.nextTableId }, [], 0, 0⟩] } := by
  unfold createJob at made
  obtain ⟨spot, at_, made⟩ := Except.bind_eq_ok.mp made
  obtain ⟨_, idle, made⟩ := Except.bind_eq_ok.mp made
  obtain ⟨target, planned, made⟩ := Except.bind_eq_ok.mp made
  cases made
  obtain ⟨whole, named, isTable⟩ := tableIndex_eq_ok at_
  exact ⟨spot, target, whole, named, refuseJob_eq_ok isTable idle, planned, rfl⟩

/-- The segment of a table that `project_onto` carries over for an id. -/
def CarriedFrom (source target : TableEntry) (id : Nat) (s' : SegmentEntry) : Prop :=
  ∃ s ∈ source.segments, s.id = id ∧ s' = s.projectOnto target.schema

/-- What an accepted AdvanceJob makes of its job. -/
structure Advanced (source : TableEntry) (job : Job) (reused rewritten : List Nat)
    (segments carried : List SegmentEntry) (job' : Job) : Prop where
  live : ∀ id ∈ reused ++ rewritten, id ∈ source.segmentIds
  unhandled : ∀ id ∈ reused ++ rewritten, id ∉ job.handled
  aligned : ∀ s ∈ segments, Aligned job.target.schema s
  projected : List.Forall₂ (CarriedFrom source job.target) reused carried
  job : job' = { job with
    target := { job.target with
      segments := sortByKey SegmentEntry.order (job.target.segments ++ (carried ++ segments)) }
    handled := sortByKey id (job.handled ++ (reused ++ rewritten))
    reused := job.reused + reused.length
    rewritten := job.rewritten + rewritten.length }

theorem Advanced.carried_ids {source : TableEntry} {job job' : Job} {reused rewritten : List Nat}
    {segments carried : List SegmentEntry} (advanced : Advanced source job reused rewritten segments carried job') :
    carried.map (·.id) = reused := by
  have each := advanced.projected
  clear advanced
  induction each with
  | nil => rfl
  | cons head _ tail =>
    obtain ⟨s, _, same, rfl⟩ := head
    rw [List.map_cons, tail, ← same]
    rfl

theorem advanceJob_eq_ok {jobId : Nat} {reused rewritten : List Nat} {segments : List SegmentEntry}
    (made : m.advanceJob jobId reused rewritten segments = .ok m') :
    ∃ (job : Located Job) (source : Located TableEntry) (carried : List SegmentEntry) (job' : Job),
      m.jobs = job.replaced job.found ∧ job.found.id = jobId ∧ m.job jobId = some job.found ∧
      m.tables = source.replaced source.found ∧ source.found.id = job.found.source ∧
      Advanced source.found job.found reused rewritten segments carried job' ∧
      m' = { m with
        jobs := job.replaced job'
        nextSegmentId := coverSegmentIds m.nextSegmentId job'.target.segments } := by
  unfold advanceJob at made
  obtain ⟨⟨job, source⟩, found, made⟩ := Except.bind_eq_ok.mp made
  obtain ⟨jobs, sameJob, isJob, tables, sameSource⟩ := jobAndSource_eq_ok found
  dsimp only at made
  split at made
  · cases made
  · rename_i free
    obtain ⟨_, valid, made⟩ := Except.bind_eq_ok.mp made
    obtain ⟨carried, each, made⟩ := Except.bind_eq_ok.mp made
    cases made
    have checked := List.find?_eq_none.mp free
    refine ⟨job, source, carried, _, jobs, sameJob, isJob, tables, sameSource, ⟨?_, ?_, ?_, ?_, rfl⟩, rfl⟩
    · intro id member
      have := checked id member
      simp only [Bool.not_eq_true, Bool.or_eq_false_iff, Bool.not_eq_false'] at this
      simpa [TableEntry.segmentIds] using this.1
    · intro id member
      have := checked id member
      simp only [Bool.not_eq_true, Bool.or_eq_false_iff, Bool.not_eq_false'] at this
      simpa using this.2
    · exact validateNewSegments_eq_ok valid
    · refine (forall₂_of_mapM_except each).imp ?_
      intro id s' carriedOver
      split at carriedOver
      · rename_i s isLive
        cases carriedOver
        exact ⟨s, List.mem_of_find?_eq_some isLive, by simpa using List.find?_some isLive, rfl⟩
      · cases carriedOver

/-- A tombstone under another schema's names: each predicate keeps its operator and value, and
    its column keeps its field id. -/
def RenamedPredicate (old new : List SchemaField) (p q : Predicate) : Prop :=
  ∃ f g, old.find? (·.field.name == p.column) = some f ∧ new.find? (·.id == f.id) = some g ∧
    q = { p with column := g.field.name }

def RenamedTombstone (old new : List SchemaField) (t u : Tombstone) : Prop :=
  u.seq = t.seq ∧ List.Forall₂ (RenamedPredicate old new) t.predicates u.predicates

theorem renameTombstone_eq_ok {old new : List SchemaField} {unknown lacking : Nat → String → Error}
    {t u : Tombstone} (renamed : renameTombstone old new unknown lacking t = .ok u) :
    RenamedTombstone old new t u := by
  unfold renameTombstone at renamed
  obtain ⟨predicates, each, made⟩ := Except.bind_eq_ok.mp renamed
  cases made
  refine ⟨rfl, (forall₂_of_mapM_except each).imp ?_⟩
  intro p q kept
  split at kept
  · cases kept
  · rename_i f known
    split at kept
    · cases kept
    · rename_i g present
      cases kept
      exact ⟨f, g, known, present, rfl⟩

theorem swapJob_eq_ok {jobId : Nat} (made : m.swapJob jobId version nowMs = .ok m') :
    ∃ (job : Located Job) (source : Located TableEntry) (tombstones : List Tombstone),
      m.jobs = job.replaced job.found ∧ job.found.id = jobId ∧ m.job jobId = some job.found ∧
      m.tables = source.replaced source.found ∧ source.found.id = job.found.source ∧
      (∀ id ∈ source.found.segmentIds, id ∈ job.found.handled) ∧
      List.Forall₂ (RenamedTombstone source.found.schema job.found.target.schema)
        source.found.tombstones tombstones ∧
      m' = { m with
        tables := insertByKey (·.name) { job.found.target with tombstones := tombstones } source.removed
        jobs := job.removed
        retired := m.retired ++
          [⟨source.found, .swapped, nowMs, version, sortByKey id job.found.target.segmentIds⟩] } := by
  unfold swapJob at made
  obtain ⟨⟨job, source⟩, found, made⟩ := Except.bind_eq_ok.mp made
  obtain ⟨jobs, sameJob, isJob, tables, sameSource⟩ := jobAndSource_eq_ok found
  dsimp only at made
  split at made
  · cases made
  · rename_i handled
    obtain ⟨tombstones, each, made⟩ := Except.bind_eq_ok.mp made
    cases made
    refine ⟨job, source, tombstones, jobs, sameJob, isJob, tables, sameSource, ?_, ?_, rfl⟩
    · intro id member
      simpa using List.find?_eq_none.mp handled id member
    · exact (forall₂_of_mapM_except each).imp fun _ _ => renameTombstone_eq_ok

theorem cancelJob_eq_ok {jobId : Nat} (made : m.cancelJob jobId version nowMs = .ok m') :
    ∃ job : Located Job, m.jobs = job.replaced job.found ∧ job.found.id = jobId ∧
      m' = { m with jobs := job.removed }.release job.found.target.name job.found.target.segments
        version nowMs := by
  unfold cancelJob at made
  split at made
  · cases made
  · rename_i job found
    cases made
    obtain ⟨jobs, sameJob, _⟩ := position_eq_some found
    exact ⟨job, jobs, by simpa using sameJob, rfl⟩

theorem revertTable_eq_ok (made : m.revertTable table version nowMs = .ok m') :
    ∃ (r : Located Retired) (cur : Located TableEntry) (tombstones : List Tombstone),
      rposition (fun r => r.reason == .swapped && r.entry.name == table) m.retired = some r ∧
      m.retired = r.replaced r.found ∧ r.found.reason = .swapped ∧ r.found.entry.name = table ∧
      m.tables = cur.replaced cur.found ∧ cur.found.name = table ∧
      (∀ j ∈ m.jobs, j.source ≠ cur.found.id) ∧
      (∀ id ∈ r.found.successorSegments, id ∈ cur.found.segmentIds) ∧
      List.Forall₂ (RenamedTombstone cur.found.schema r.found.entry.schema)
        (cur.found.tombstones.filter fun t => r.found.version < t.seq) tombstones ∧
      m' = { m with
        tables := insertByKey (·.name) (restored r.found cur.found tombstones) cur.removed
        retired := r.removed ++ [⟨cur.found, .reverted, nowMs, version, []⟩] } := by
  unfold revertTable at made
  split at made
  · cases made
  · rename_i r found
    split at made
    · cases made
    · rename_i cur at_
      obtain ⟨_, idle, made⟩ := Except.bind_eq_ok.mp made
      split at made
      · cases made
      · rename_i live
        obtain ⟨tombstones, each, made⟩ := Except.bind_eq_ok.mp made
        cases made
        obtain ⟨retired, isSwapped, _⟩ := rposition_eq_some found
        obtain ⟨tables, named, _⟩ := position_eq_some at_
        simp only [Bool.and_eq_true, beq_iff_eq] at isSwapped
        refine ⟨r, cur, tombstones, found, retired, isSwapped.1, isSwapped.2, tables,
          by simpa using named, refuseJob_eq_ok (find?_of_position at_) idle, ?_,
          (forall₂_of_mapM_except each).imp fun _ _ => renameTombstone_eq_ok, rfl⟩
        intro id member
        simpa using List.find?_eq_none.mp live id member

theorem dropTable_eq_ok (made : m.dropTable table version nowMs = .ok m') :
    ∃ spot : Located TableEntry, m.tables = spot.replaced spot.found ∧ spot.found.name = table ∧
      (∀ j ∈ m.jobs, j.source ≠ spot.found.id) ∧
      m' = { m with
        tables := spot.removed, retired := m.retired ++ [⟨spot.found, .dropped, nowMs, version, []⟩] } := by
  unfold dropTable at made
  obtain ⟨spot, at_, made⟩ := Except.bind_eq_ok.mp made
  obtain ⟨_, idle, made⟩ := Except.bind_eq_ok.mp made
  cases made
  obtain ⟨whole, named, isTable⟩ := tableIndex_eq_ok at_
  exact ⟨spot, whole, named, refuseJob_eq_ok isTable idle, rfl⟩

theorem undropTable_eq_ok (made : m.undropTable table = .ok m') :
    ∃ r : Located Retired,
      rposition (fun r => r.reason == .dropped && r.entry.name == table) m.retired = some r ∧
      m.retired = r.replaced r.found ∧ r.found.reason = .dropped ∧ r.found.entry.name = table ∧ m.table table = none ∧
      m' = { m with retired := r.removed, tables := insertByKey (·.name) r.found.entry m.tables } := by
  unfold undropTable at made
  split at made
  · cases made
  · rename_i r found
    obtain ⟨_, absent, made⟩ := Except.bind_eq_ok.mp made
    cases made
    obtain ⟨retired, isDropped, _⟩ := rposition_eq_some found
    simp only [Bool.and_eq_true, beq_iff_eq] at isDropped
    exact ⟨r, found, retired, isDropped.1, isDropped.2, by simpa using ensure_eq_ok.mp absent, rfl⟩

theorem truncateTable_eq_ok (made : m.truncateTable table version nowMs = .ok m') :
    ∃ spot : Located TableEntry, m.tables = spot.replaced spot.found ∧ spot.found.name = table ∧
      (∀ j ∈ m.jobs, j.source ≠ spot.found.id) ∧
      m' = { m with tables := spot.replaced { spot.found with segments := [], tombstones := [] } }.release
        table spot.found.segments version nowMs := by
  unfold truncateTable at made
  obtain ⟨spot, at_, made⟩ := Except.bind_eq_ok.mp made
  obtain ⟨_, idle, made⟩ := Except.bind_eq_ok.mp made
  cases made
  obtain ⟨whole, named, isTable⟩ := tableIndex_eq_ok at_
  exact ⟨spot, whole, named, refuseJob_eq_ok isTable idle, rfl⟩

theorem recordMigration_eq_ok {name : String} {checksum : Nat}
    (made : m.recordMigration name checksum nowMs = .ok m') :
    m' = { m with migrations := m.migrations ++ [⟨name, checksum, nowMs⟩] } := by
  obtain ⟨_, _, made⟩ := Except.bind_eq_ok.mp made
  cases made
  rfl

end Adelie.Manifest
