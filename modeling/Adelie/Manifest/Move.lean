import Adelie.Manifest.Garbage

namespace Adelie.Manifest

/-- What an edit does to the definitions of a manifest, with its segments read as sets of ids.
    Segments of `new` are the ones the edit brings in. -/
inductive Move (m m' : Manifest) (new : List Nat) : Prop where
  | quiet (tables : m'.tables = m.tables) (jobs : m'.jobs = m.jobs)
      (retired : m'.retired.Sublist m.retired) (next : m'.nextTableId = m.nextTableId)
  | create (entry : TableEntry) (id : entry.id = m.nextTableId) (segments : entry.segments = [])
      (schema : entry.SchemaOk)
      (absent : ∀ t ∈ m.tables, t.name ≠ entry.name)
      (tables : m'.tables = insertByKey (·.name) entry m.tables) (jobs : m'.jobs = m.jobs)
      (retired : m'.retired = m.retired) (next : m'.nextTableId = m.nextTableId + 1)
  | update (spot : Located TableEntry) (t : TableEntry) (whole : m.tables = spot.replaced spot.found)
      (same : t = { spot.found with segments := t.segments, tombstones := t.tombstones })
      (segments : ∀ id ∈ t.segmentIds, id ∈ spot.found.segmentIds ∨ id ∈ new)
      (tables : m'.tables = spot.replaced t) (jobs : m'.jobs = m.jobs)
      (retired : m'.retired = m.retired) (next : m'.nextTableId = m.nextTableId)
  | plan (spot : Located TableEntry) (job : Job) (whole : m.tables = spot.replaced spot.found)
      (idle : ∀ j ∈ m.jobs, j.source ≠ spot.found.id) (source : job.source = spot.found.id)
      (id : job.target.id = m.nextTableId) (segments : job.target.segments = [])
      (planned : ∃ target ops, planAlter spot.found ops = .ok target ∧
        job.target = { target with id := m.nextTableId })
      (tables : m'.tables = m.tables) (jobs : m'.jobs = m.jobs ++ [job])
      (retired : m'.retired = m.retired) (next : m'.nextTableId = m.nextTableId + 1)
  | carry (spot : Located Job) (source : TableEntry) (job : Job) (whole : m.jobs = spot.replaced spot.found)
      (live : source ∈ m.tables) (from_ : source.id = spot.found.source)
      (same : job.target = { spot.found.target with segments := job.target.segments })
      (sameSource : job.source = spot.found.source)
      (segments : ∀ id ∈ job.target.segmentIds, id ∈ spot.found.target.segmentIds ∨
        id ∈ source.segmentIds ∧ id ∈ job.handled ∨ id ∈ new)
      (handled : ∀ id ∈ spot.found.handled, id ∈ job.handled)
      (tables : m'.tables = m.tables) (jobs : m'.jobs = spot.replaced job)
      (retired : m'.retired = m.retired) (next : m'.nextTableId = m.nextTableId)
  | cancel (spot : Located Job) (whole : m.jobs = spot.replaced spot.found)
      (tables : m'.tables = m.tables) (jobs : m'.jobs = spot.removed)
      (retired : m'.retired = m.retired) (next : m'.nextTableId = m.nextTableId)
  | swap (job : Located Job) (source : Located TableEntry) (t : TableEntry) (r : Retired)
      (wholeJobs : m.jobs = job.replaced job.found) (wholeTables : m.tables = source.replaced source.found)
      (from_ : source.found.id = job.found.source)
      (same : t = { job.found.target with tombstones := t.tombstones })
      (entry : r.entry = source.found) (reason : r.reason = .swapped)
      (successors : ∀ id, id ∈ r.successorSegments ↔ id ∈ job.found.target.segmentIds)
      (tables : m'.tables = insertByKey (·.name) t source.removed) (jobs : m'.jobs = job.removed)
      (retired : m'.retired = m.retired ++ [r]) (next : m'.nextTableId = m.nextTableId)
  | revert (r : Located Retired) (cur : Located TableEntry) (t : TableEntry) (old : Retired)
      (wholeRetired : m.retired = r.replaced r.found) (wholeTables : m.tables = cur.replaced cur.found)
      (reason : r.found.reason = .swapped) (named : r.found.entry.name = cur.found.name)
      (idle : ∀ j ∈ m.jobs, j.source ≠ cur.found.id)
      (successors : ∀ id ∈ r.found.successorSegments, id ∈ cur.found.segmentIds)
      (id : t.id = r.found.entry.id) (name : t.name = r.found.entry.name)
      (schema : t.schema = r.found.entry.schema) (fields : r.found.entry.nextFieldId ≤ t.nextFieldId)
      (segments : ∀ id ∈ t.segmentIds, id ∈ r.found.entry.segmentIds ∨ id ∈ cur.found.segmentIds)
      (entry : old.entry = cur.found) (oldReason : old.reason = .reverted)
      (tables : m'.tables = insertByKey (·.name) t cur.removed) (jobs : m'.jobs = m.jobs)
      (retired : m'.retired = r.removed ++ [old]) (next : m'.nextTableId = m.nextTableId)
  | drop (spot : Located TableEntry) (r : Retired) (whole : m.tables = spot.replaced spot.found)
      (idle : ∀ j ∈ m.jobs, j.source ≠ spot.found.id) (entry : r.entry = spot.found)
      (reason : r.reason = .dropped) (tables : m'.tables = spot.removed) (jobs : m'.jobs = m.jobs)
      (retired : m'.retired = m.retired ++ [r]) (next : m'.nextTableId = m.nextTableId)
  | undrop (r : Located Retired) (whole : m.retired = r.replaced r.found) (reason : r.found.reason = .dropped)
      (absent : ∀ t ∈ m.tables, t.name ≠ r.found.entry.name)
      (tables : m'.tables = insertByKey (·.name) r.found.entry m.tables) (jobs : m'.jobs = m.jobs)
      (retired : m'.retired = r.removed) (next : m'.nextTableId = m.nextTableId)

variable {m m' : Manifest} {version nowMs : Nat}

theorem absent_of_table {name : TableName} (missing : m.table name = none) : ∀ t ∈ m.tables, t.name ≠ name := by
  intro t member
  simpa using List.find?_eq_none.mp missing t member

theorem applyEdit_move {e : Edit} (applied : applyEdit version nowMs m e = .ok m') : Move m m' e.newIds := by
  cases e with
  | createTable spec =>
    obtain ⟨entry, created, rfl⟩ := createTable_eq_ok applied
    exact .create entry created.id created.segments created.schemaOk (created.name ▸ absent_of_table created.absent)
      rfl rfl rfl rfl
  | addSegments table segments =>
    obtain ⟨spot, whole, _, _, rfl⟩ := addSegments_eq_ok applied
    refine .update spot _ whole ?_ ?_ rfl rfl rfl rfl
    · rfl
    · intro id member
      have listed := mem_sorted_ids.mp member
      rwa [List.map_append, List.mem_append] at listed
  | removeSegments table ids =>
    obtain ⟨spot, whole, _, _, _, rfl⟩ := removeSegments_eq_ok applied
    rw [release_frame]
    refine .update spot _ whole ?_ ?_ rfl rfl rfl rfl
    · rfl
    · intro id member
      exact .inl ((List.filter_sublist.map _).subset member)
  | addTombstone table predicates =>
    obtain ⟨spot, stored, whole, _, _, rfl⟩ := addTombstone_eq_ok applied
    refine .update spot _ whole ?_ ?_ rfl rfl rfl rfl
    · rfl
    · exact fun id member => .inl member
  | forgetGarbage ids => cases applied; exact .quiet rfl rfl (.refl _) rfl
  | reserveSegmentIds next => cases applied; exact .quiet rfl rfl (.refl _) rfl
  | createJob table ops =>
    obtain ⟨spot, target, whole, _, idle, planned, rfl⟩ := createJob_eq_ok applied
    refine .plan spot _ whole idle ?_ ?_ ?_ ⟨target, ops, planned, ?_⟩ rfl rfl rfl rfl
    · rfl
    · rfl
    · change target.segments = []
      exact (planAlter_frame planned).1
    · rfl
  | advanceJob jobId reused rewritten segments =>
    obtain ⟨job, source, carried, job', jobs, _, _, tables, from_, advanced, rfl⟩ := advanceJob_eq_ok applied
    have same := advanced.job
    refine .carry job source.found job' jobs ?_ from_ (by rw [same]) (by rw [same]) ?_ ?_ rfl rfl rfl rfl
    · rw [tables]
      exact Located.mem_replaced.mpr (.inl rfl)
    · intro id member
      simp only [same, TableEntry.segmentIds, mem_sorted_ids, List.map_append, List.mem_append] at member
      rcases member with member | member | member
      · exact .inl member
      · obtain ⟨s', inside, rfl⟩ := List.mem_map.mp member
        obtain ⟨id, wanted, s, live, rfl, rfl⟩ := List.Forall₂.source advanced.projected inside
        refine .inr (.inl ⟨List.mem_map.mpr ⟨s, live, rfl⟩, ?_⟩)
        simp [same, wanted]
      · exact .inr (.inr member)
    · intro id member
      simp [same, member]
  | swapJob jobId =>
    obtain ⟨job, source, tombstones, jobs, _, _, tables, from_, _, _, rfl⟩ := swapJob_eq_ok applied
    refine .swap job source _ _ jobs tables from_ ?_ ?_ ?_ ?_ rfl rfl rfl rfl
    · rfl
    · rfl
    · rfl
    · exact fun id => mem_sortByKey
  | cancelJob jobId =>
    obtain ⟨job, jobs, _, rfl⟩ := cancelJob_eq_ok applied
    rw [release_frame]
    exact .cancel job jobs rfl rfl rfl rfl
  | revertTable table =>
    obtain ⟨r, cur, tombstones, _, retired, reason, named, tables, current, idle, live, _, rfl⟩ :=
      revertTable_eq_ok applied
    refine .revert r cur _ _ retired tables reason (named.trans current.symm) idle live ?_ ?_ ?_ ?_
      ?_ ?_ ?_ rfl rfl rfl rfl
    · rfl
    · rfl
    · rfl
    · exact Nat.le_max_left _ _
    · intro id member
      exact (mem_restored_ids.mp member).imp_right And.left
    · rfl
    · rfl
  | dropTable table =>
    obtain ⟨spot, whole, _, idle, rfl⟩ := dropTable_eq_ok applied
    refine .drop spot _ whole idle ?_ ?_ rfl rfl rfl rfl
    · rfl
    · rfl
  | undropTable table =>
    obtain ⟨r, _, whole, reason, named, missing, rfl⟩ := undropTable_eq_ok applied
    exact .undrop r whole reason (named ▸ absent_of_table missing) rfl rfl rfl rfl
  | truncateTable table =>
    obtain ⟨spot, whole, _, _, rfl⟩ := truncateTable_eq_ok applied
    rw [release_frame]
    refine .update spot _ whole ?_ ?_ rfl rfl rfl rfl
    · rfl
    · intro id member
      cases member
  | expireRetired beforeMs =>
    cases applied
    rw [expireRetired_frame]
    exact .quiet rfl rfl List.filter_sublist rfl
  | recordMigration name checksum =>
    cases recordMigration_eq_ok applied
    exact .quiet rfl rfl (.refl _) rfl

end Adelie.Manifest
