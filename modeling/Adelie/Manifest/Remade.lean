import Adelie.Manifest.Garbage

namespace Adelie.Manifest

/-- The definition an edit makes, out of the ones the manifest has. -/
inductive Remade (m : Manifest) : Edit → TableEntry → Prop
  | created {spec : TableSpec} {entry : TableEntry} (new : Created m spec entry) :
    Remade m (.createTable spec) entry
  | added {t : TableEntry} {segments : List SegmentEntry} (live : t ∈ m.tables)
    (aligned : ∀ s ∈ segments, Aligned t.schema s) :
    Remade m (.addSegments t.name segments)
      { t with segments := sortByKey SegmentEntry.order (t.segments ++ segments) }
  | thinned {t : TableEntry} {ids : List Nat} (live : t ∈ m.tables) :
    Remade m (.removeSegments t.name ids)
      { t with segments := t.segments.filter fun s => !ids.contains s.id }
  | marked {t : TableEntry} {predicates stored : List Predicate} (live : t ∈ m.tables)
    (each : List.Forall₂ (fun p q => storedPredicate t.schema p = .ok q) predicates stored) :
    Remade m (.addTombstone t.name predicates)
      { t with tombstones := t.tombstones ++ [⟨m.version + 1, stored⟩] }
  | planned {t target : TableEntry} {ops : List Alter} (live : t ∈ m.tables)
    (plan : planAlter t ops = .ok target) :
    Remade m (.createJob t.name ops) { target with id := m.nextTableId }
  | advanced {j j' : Job} {source : TableEntry} {reused rewritten : List Nat}
    {segments carried : List SegmentEntry} (running : j ∈ m.jobs) (isJob : m.job j.id = some j)
    (live : source ∈ m.tables) (from_ : source.id = j.source)
    (advanced : Advanced source j reused rewritten segments carried j') :
    Remade m (.advanceJob j.id reused rewritten segments) j'.target
  | swapped {j : Job} {source : TableEntry} {tombstones : List Tombstone} (running : j ∈ m.jobs)
    (isJob : m.job j.id = some j) (live : source ∈ m.tables) (from_ : source.id = j.source)
    (handled : ∀ id ∈ source.segmentIds, id ∈ j.handled)
    (renamed : List.Forall₂ (RenamedTombstone source.schema j.target.schema) source.tombstones tombstones) :
    Remade m (.swapJob j.id) { j.target with tombstones := tombstones }
  | reverted {r : Located Retired} {cur : TableEntry} {tombstones : List Tombstone}
    (at_ : rposition (fun r => r.reason == .swapped && r.entry.name == cur.name) m.retired = some r)
    (kept : r.found ∈ m.retired) (reason : r.found.reason = .swapped) (named : r.found.entry.name = cur.name)
    (live : cur ∈ m.tables) (stale : ∀ id ∈ r.found.successorSegments, id ∈ cur.segmentIds)
    (renamed : List.Forall₂ (RenamedTombstone cur.schema r.found.entry.schema)
      (cur.tombstones.filter fun t => r.found.version < t.seq) tombstones) :
    Remade m (.revertTable cur.name) (restored r.found cur tombstones)
  | emptied {t : TableEntry} (live : t ∈ m.tables) :
    Remade m (.truncateTable t.name) { t with segments := [], tombstones := [] }

variable {m m' : Manifest} {version nowMs : Nat} {e : Edit}

/-- Every definition is an old one, or the one the edit made. -/
theorem entries_cases (tables : ∀ t ∈ m'.tables, t ∈ m.entries ∨ Remade m e t)
    (retired : ∀ r ∈ m'.retired, r.entry ∈ m.entries)
    (jobs : ∀ j ∈ m'.jobs, j ∈ m.jobs ∨ Remade m e j.target) :
    ∀ t ∈ m'.entries, t ∈ m.entries ∨ Remade m e t := by
  intro t inside
  rcases mem_entries.mp inside with live | ⟨r, kept, rfl⟩ | ⟨j, running, rfl⟩
  · exact tables t live
  · exact .inl (retired r kept)
  · exact (jobs j running).imp_left entries_of_job

theorem entries_replaced {spot : Located TableEntry} {t : TableEntry} (whole : m.tables = spot.replaced spot.found)
    (made : Remade m e t) : ∀ u ∈ spot.replaced t, u ∈ m.entries ∨ Remade m e u := by
  intro u live
  rcases Located.mem_replaced.mp live with rfl | live
  · exact .inr made
  · exact .inl (entries_of_table (by simp [whole, live]))

theorem entries_inserted {spot : Located TableEntry} {t : TableEntry} (whole : m.tables = spot.replaced spot.found)
    (made : Remade m e t) : ∀ u ∈ insertByKey (·.name) t spot.removed, u ∈ m.entries ∨ Remade m e u := by
  intro u live
  rcases mem_insertByKey.mp live with rfl | live
  · exact .inr made
  · exact .inl (entries_of_table (by simp [whole, live]))

theorem retired_concat {r : Retired} {l : List Retired} (old : r.entry ∈ m.entries)
    (rest : ∀ r' ∈ l, r' ∈ m.retired) : ∀ r' ∈ l ++ [r], r'.entry ∈ m.entries := by
  intro r' kept
  rcases List.mem_append.mp kept with kept | kept
  · exact entries_of_retired (rest r' kept)
  · rw [List.mem_singleton.mp kept]
    exact old

theorem applyEdit_remade (applied : applyEdit version nowMs m e = .ok m') :
    ∀ t ∈ m'.entries, t ∈ m.entries ∨ Remade m e t := by
  have stays : ∀ r ∈ m.retired, r.entry ∈ m.entries := fun r => entries_of_retired
  cases e with
  | createTable spec =>
    obtain ⟨entry, new, rfl⟩ := createTable_eq_ok applied
    refine entries_cases ?_ stays (fun j => .inl)
    intro t live
    rcases mem_insertByKey.mp live with rfl | live
    · exact .inr (.created new)
    · exact .inl (entries_of_table live)
  | addSegments table segments =>
    obtain ⟨spot, whole, rfl, aligned, rfl⟩ := addSegments_eq_ok applied
    exact entries_cases (entries_replaced whole (.added (by simp [whole]) aligned)) stays (fun j => .inl)
  | removeSegments table ids =>
    obtain ⟨spot, whole, rfl, _, _, rfl⟩ := removeSegments_eq_ok applied
    rw [release_frame]
    exact entries_cases (entries_replaced whole (.thinned (by simp [whole]))) stays (fun j => .inl)
  | addTombstone table predicates =>
    obtain ⟨spot, stored, whole, rfl, each, rfl⟩ := addTombstone_eq_ok applied
    exact entries_cases (entries_replaced whole (.marked (by simp [whole]) each)) stays (fun j => .inl)
  | forgetGarbage ids => cases applied; exact fun t => .inl
  | reserveSegmentIds next => cases applied; exact fun t => .inl
  | createJob table ops =>
    obtain ⟨spot, target, whole, rfl, _, plan, rfl⟩ := createJob_eq_ok applied
    refine entries_cases (fun t live => .inl (entries_of_table live)) stays ?_
    intro j running
    rcases List.mem_append.mp running with running | running
    · exact .inl running
    · rw [List.mem_singleton.mp running]
      exact .inr (.planned (by simp [whole]) plan)
  | advanceJob job reused rewritten segments =>
    obtain ⟨job, source, carried, job', jobs, rfl, isJob, tables, from_, advanced, rfl⟩ := advanceJob_eq_ok applied
    refine entries_cases (fun t live => .inl (entries_of_table live)) stays ?_
    intro j running
    rcases Located.mem_replaced.mp running with rfl | running
    · exact .inr (.advanced (by simp [jobs]) isJob (by simp [tables]) from_ advanced)
    · exact .inl (by simp [jobs, running])
  | swapJob job =>
    obtain ⟨job, source, tombstones, jobs, rfl, isJob, tables, from_, handled, renamed, rfl⟩ := swapJob_eq_ok applied
    have live : source.found ∈ m.tables := by simp [tables]
    refine entries_cases (entries_inserted tables (.swapped (by simp [jobs]) isJob live from_ handled renamed))
      (retired_concat (entries_of_table live) fun r => id) ?_
    intro j running
    exact .inl (by simp [jobs, show j ∈ job.removed from running])
  | cancelJob job =>
    obtain ⟨job, jobs, _, rfl⟩ := cancelJob_eq_ok applied
    rw [release_frame]
    refine entries_cases (fun t live => .inl (entries_of_table live)) stays ?_
    intro j running
    exact .inl (by simp [jobs, show j ∈ job.removed from running])
  | revertTable table =>
    obtain ⟨r, cur, tombstones, at_, retired, reason, named, tables, rfl, _, stale, renamed, rfl⟩ :=
      revertTable_eq_ok applied
    have live : cur.found ∈ m.tables := by simp [tables]
    refine entries_cases (entries_inserted tables
      (.reverted at_ (by simp [retired]) reason named live stale renamed))
      (retired_concat (entries_of_table live) ?_) (fun j => .inl)
    intro r' kept
    simp [retired, kept]
  | dropTable table =>
    obtain ⟨spot, whole, _, _, rfl⟩ := dropTable_eq_ok applied
    refine entries_cases ?_ (retired_concat (entries_of_table (by simp [whole])) fun r => id) (fun j => .inl)
    intro t live
    exact .inl (entries_of_table (by simp [whole, show t ∈ spot.removed from live]))
  | undropTable table =>
    obtain ⟨r, _, retired, _, _, _, rfl⟩ := undropTable_eq_ok applied
    refine entries_cases ?_ ?_ (fun j => .inl)
    · intro t live
      rcases mem_insertByKey.mp live with rfl | live
      · exact .inl (entries_of_retired (by simp [retired]))
      · exact .inl (entries_of_table live)
    · intro r' kept
      exact entries_of_retired (by simp [retired, show r' ∈ r.removed from kept])
  | truncateTable table =>
    obtain ⟨spot, whole, rfl, _, rfl⟩ := truncateTable_eq_ok applied
    rw [release_frame]
    exact entries_cases (entries_replaced whole (.emptied (by simp [whole]))) stays (fun j => .inl)
  | expireRetired beforeMs =>
    cases applied
    rw [expireRetired_frame]
    refine entries_cases (fun t live => .inl (entries_of_table live)) ?_ (fun j => .inl)
    intro r kept
    exact entries_of_retired (List.mem_of_mem_filter kept)
  | recordMigration name checksum => cases recordMigration_eq_ok applied; exact fun t => .inl

end Adelie.Manifest
