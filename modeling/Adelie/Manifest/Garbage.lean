import Adelie.Manifest.Run

namespace Adelie

/-- The segment ids an edit brings in from its caller. -/
def Edit.newIds : Edit → List Nat
  | .addSegments _ segments | .advanceJob _ _ _ segments => segments.map (·.id)
  | _ => []

def Edit.forgets : Edit → List Nat
  | .forgetGarbage ids => ids
  | _ => []

namespace Manifest

def garbageIds (m : Manifest) : List Nat := m.garbage.map (·.segment.id)

/-- Every definition that can hold a segment: live tables, retired entries and job targets. -/
def entries (m : Manifest) : List TableEntry :=
  m.tables ++ (m.retired.map (·.entry) ++ m.jobs.map (·.target))

def References (m : Manifest) (id : Nat) : Prop := ∃ e ∈ m.entries, id ∈ e.segmentIds

/-- New segment ids are neither referenced nor in garbage. -/
def Fresh (m : Manifest) (e : Edit) : Prop :=
  ∀ id ∈ e.newIds, m.referencesSegment id = false ∧ id ∉ m.garbageIds

variable {m m' : Manifest} {table : TableName} {version nowMs : Nat}

theorem mem_entries {e : TableEntry} :
    e ∈ m.entries ↔ e ∈ m.tables ∨ (∃ r ∈ m.retired, r.entry = e) ∨ ∃ j ∈ m.jobs, j.target = e := by
  simp [entries]

theorem entries_of_table {t : TableEntry} (live : t ∈ m.tables) : t ∈ m.entries :=
  mem_entries.mpr (.inl live)

theorem entries_of_retired {r : Retired} (kept : r ∈ m.retired) : r.entry ∈ m.entries :=
  mem_entries.mpr (.inr (.inl ⟨r, kept, rfl⟩))

theorem entries_of_job {j : Job} (running : j ∈ m.jobs) : j.target ∈ m.entries :=
  mem_entries.mpr (.inr (.inr ⟨j, running, rfl⟩))

theorem referencesSegment_iff {id : Nat} : m.referencesSegment id = true ↔ m.References id := by
  simp only [referencesSegment, References, mem_entries, TableEntry.segmentIds, Bool.or_eq_true,
    List.any_eq_true, List.mem_map, beq_iff_eq]
  constructor
  · rintro ((⟨t, inside, has⟩ | ⟨r, inside, has⟩) | ⟨j, inside, has⟩)
    · exact ⟨t, .inl inside, has⟩
    · exact ⟨r.entry, .inr (.inl ⟨r, inside, rfl⟩), has⟩
    · exact ⟨j.target, .inr (.inr ⟨j, inside, rfl⟩), has⟩
  · rintro ⟨e, inside | ⟨r, inside, rfl⟩ | ⟨j, inside, rfl⟩, has⟩
    · exact .inl (.inl ⟨e, inside, has⟩)
    · exact .inl (.inr ⟨r, inside, has⟩)
    · exact .inr ⟨j, inside, has⟩

/-- What one edit other than ForgetGarbage does to references and garbage: a dropped reference
    lands in garbage once, and only new ids become referenced. -/
structure Exchange (m m' : Manifest) (new : List Nat) : Prop where
  kept : ∀ id, m.References id → m'.References id ∨ id ∈ m'.garbageIds
  gained : ∀ id, m'.References id → m.References id ∨ id ∈ new
  added : ∀ id ∈ new, m'.References id
  dropped : ∃ dropped, m'.garbageIds = m.garbageIds ++ dropped ∧ dropped.Nodup ∧
    ∀ id ∈ dropped, m.References id ∧ id ∉ m.garbageIds ∧ ¬m'.References id

theorem Exchange.of_entries {new : List Nat} (garbage : m'.garbage = m.garbage)
    (kept : ∀ id, m.References id → m'.References id)
    (gained : ∀ id, m'.References id → m.References id ∨ id ∈ new)
    (added : ∀ id ∈ new, m'.References id) : Exchange m m' new :=
  ⟨fun id held => .inl (kept id held), gained, added, [], by simp [garbageIds, garbage], .nil, nofun⟩

theorem Exchange.of_same (garbage : m'.garbage = m.garbage) (entries : m'.entries = m.entries) :
    Exchange m m' [] := by
  refine .of_entries garbage ?_ ?_ (by simp)
  · intro id held
    rwa [References, entries]
  · intro id held
    exact .inl (by rwa [References, entries] at held)

section Release

theorem references_of_frame {garbage : List Garbage} {id : Nat} :
    References { m with garbage := garbage } id ↔ m.References id := Iff.rfl

theorem releaseAll_references {segments : List (TableName × SegmentEntry)} {id : Nat} :
    (m.releaseAll version nowMs segments).References id ↔ m.References id := by
  rw [releaseAll_frame]
  exact references_of_frame

/-- A release lists each unreferenced segment once, after what was there. -/
theorem releaseAll_garbage (version nowMs : Nat) (m : Manifest) (segments : List (TableName × SegmentEntry)) :
    (∃ dropped, (m.releaseAll version nowMs segments).garbageIds = m.garbageIds ++ dropped ∧
      dropped.Nodup ∧ ∀ id ∈ dropped, (∃ s ∈ segments, s.2.id = id) ∧ id ∉ m.garbageIds ∧ ¬m.References id) ∧
    ∀ s ∈ segments, m.References s.2.id ∨ s.2.id ∈ (m.releaseAll version nowMs segments).garbageIds := by
  induction segments generalizing m with
  | nil => exact ⟨⟨[], by simp [releaseAll], .nil, nofun⟩, nofun⟩
  | cons head rest ih =>
    obtain ⟨table, s⟩ := head
    have unfolded : m.releaseAll version nowMs ((table, s) :: rest) =
        (m.releaseOne table version nowMs s).releaseAll version nowMs rest := rfl
    rw [unfolded]
    by_cases skip : m.referencesSegment s.id || m.garbage.any (·.segment.id == s.id)
    · have same : m.releaseOne table version nowMs s = m := by simp only [releaseOne, skip, if_true]
      rw [same]
      obtain ⟨⟨dropped, garbage, nodup, new⟩, covered⟩ := ih m
      refine ⟨⟨dropped, garbage, nodup, fun id member => ?_⟩, ?_⟩
      · obtain ⟨⟨s', inside, same⟩, apart⟩ := new id member
        exact ⟨⟨s', .tail _ inside, same⟩, apart⟩
      intro s' member
      rcases List.mem_cons.mp member with rfl | member
      · rcases Bool.or_eq_true _ _ ▸ skip with held | listed
        · exact .inl (referencesSegment_iff.mp held)
        · refine .inr ?_
          rw [garbage]
          exact List.mem_append_left _ (by simpa [garbageIds] using listed)
      · exact covered s' member
    · obtain ⟨⟨dropped, garbage, nodup, new⟩, covered⟩ := ih (m.releaseOne table version nowMs s)
      have listed : (m.releaseOne table version nowMs s).garbageIds = m.garbageIds ++ [s.id] := by
        simp only [releaseOne, skip, Bool.false_eq_true, if_false, garbageIds, List.map_append,
          List.map_cons, List.map_nil]
      have held : ∀ id, (m.releaseOne table version nowMs s).References id ↔ m.References id := by
        intro id
        rw [releaseOne_frame]
        exact references_of_frame
      simp only [Bool.or_eq_true, not_or, referencesSegment_iff] at skip
      rw [listed] at garbage new
      refine ⟨⟨s.id :: dropped, by simpa using garbage, ?_, ?_⟩, ?_⟩
      · refine List.nodup_cons.mpr ⟨fun again => ?_, nodup⟩
        exact (new s.id again).2.1 (by simp)
      · intro id member
        rcases List.mem_cons.mp member with rfl | member
        · exact ⟨⟨(table, s), .head _, rfl⟩, by simpa [garbageIds] using skip.2, skip.1⟩
        · obtain ⟨⟨s', inside, same⟩, unlisted, unheld⟩ := new id member
          exact ⟨⟨s', .tail _ inside, same⟩, fun old => unlisted (List.mem_append_left _ old),
            fun h => unheld ((held id).mpr h)⟩
      · intro s' member
        rcases List.mem_cons.mp member with rfl | member
        · refine .inr ?_
          rw [garbage]
          simp
        · exact (covered s' member).imp_left (held s'.2.id).mp

/-- Taking segments out of the definitions and releasing them. -/
theorem Exchange.of_release {mid : Manifest} {segments : List (TableName × SegmentEntry)}
    (garbage : mid.garbage = m.garbage) (fewer : ∀ id, mid.References id → m.References id)
    (held : ∀ s ∈ segments, m.References s.2.id)
    (taken : ∀ id, m.References id → mid.References id ∨ ∃ s ∈ segments, s.2.id = id) :
    Exchange m (mid.releaseAll version nowMs segments) [] := by
  obtain ⟨⟨dropped, listed, nodup, new⟩, covered⟩ :=
    releaseAll_garbage version nowMs mid segments
  have same : mid.garbageIds = m.garbageIds := by rw [garbageIds, garbage]; rfl
  refine ⟨?_, ?_, nofun, dropped, by rw [listed, same], nodup, ?_⟩
  · intro id held
    rcases taken id held with held | ⟨s, member, rfl⟩
    · exact .inl (releaseAll_references.mpr held)
    · exact (covered s member).imp_left releaseAll_references.mpr
  · intro id held
    exact .inl (fewer id (releaseAll_references.mp held))
  · intro id member
    obtain ⟨⟨s, inside, rfl⟩, unlisted, unheld⟩ := new id member
    exact ⟨held s inside, same ▸ unlisted, fun held => unheld (releaseAll_references.mp held)⟩

end Release

/-- Some element of a list holds the segment, in the definition `entry` reads off it. -/
def HeldIn {α : Type} (entry : α → TableEntry) (l : List α) (id : Nat) : Prop :=
  ∃ x ∈ l, id ∈ (entry x).segmentIds

section HeldIn

variable {α : Type} {entry : α → TableEntry} {id : Nat}

@[simp] theorem heldIn_replaced {spot : Located α} {x : α} :
    HeldIn entry (spot.replaced x) id ↔ id ∈ (entry x).segmentIds ∨ HeldIn entry spot.removed id := by
  simp only [HeldIn, Located.mem_replaced, exists_eq_or_imp]

@[simp] theorem heldIn_insertByKey {κ : Type} [LinearOrder κ] {key : α → κ} {x : α} {l : List α} :
    HeldIn entry (insertByKey key x l) id ↔ id ∈ (entry x).segmentIds ∨ HeldIn entry l id := by
  simp only [HeldIn, mem_insertByKey, exists_eq_or_imp]

@[simp] theorem heldIn_concat {x : α} {l : List α} :
    HeldIn entry (l ++ [x]) id ↔ HeldIn entry l id ∨ id ∈ (entry x).segmentIds := by
  simp [HeldIn, or_and_right, exists_or]

theorem references_iff : m.References id ↔
    HeldIn (fun t => t) m.tables id ∨ HeldIn Retired.entry m.retired id ∨ HeldIn Job.target m.jobs id := by
  simp only [References, HeldIn, entries, List.mem_append, List.mem_map, or_and_right, exists_or,
    exists_exists_and_eq_and]

end HeldIn

@[simp] theorem mem_sorted_ids {segments : List SegmentEntry} {id : Nat} :
    id ∈ (sortByKey SegmentEntry.order segments).map (·.id) ↔ id ∈ segments.map (·.id) :=
  ((sortByKey_perm _ _).map _).mem_iff

section Edits

theorem createTable_exchange {spec : TableSpec} (made : m.createTable spec = .ok m') : Exchange m m' [] := by
  obtain ⟨entry, created, rfl⟩ := createTable_eq_ok made
  have none_yet : entry.segmentIds = [] := by simp [TableEntry.segmentIds, created.segments]
  refine .of_entries rfl ?_ ?_ (by simp)
  all_goals
    intro id
    simp only [references_iff, heldIn_insertByKey, none_yet, List.not_mem_nil]
    tauto

theorem addSegments_exchange {segments : List SegmentEntry} (made : m.addSegments table segments = .ok m') :
    Exchange m m' (segments.map (·.id)) := by
  obtain ⟨spot, whole, _, _, rfl⟩ := addSegments_eq_ok made
  refine .of_entries rfl ?_ ?_ ?_
  all_goals
    intro id
    simp only [references_iff, whole, heldIn_replaced, TableEntry.segmentIds, mem_sorted_ids,
      List.map_append, List.mem_append]
    tauto

theorem removeSegments_exchange {ids : List Nat} (made : m.removeSegments table ids version nowMs = .ok m') :
    Exchange m m' [] := by
  obtain ⟨spot, whole, _, _, _, rfl⟩ := removeSegments_eq_ok made
  rw [release_eq_releaseAll]
  refine .of_release rfl ?_ ?_ ?_
  · intro id
    simp only [references_iff, whole, heldIn_replaced]
    exact Or.imp_left (Or.imp_left fun member => (List.filter_sublist.map _).subset member)
  · intro s member
    obtain ⟨s, inside, rfl⟩ := List.mem_map.mp member
    simp only [references_iff, whole, heldIn_replaced]
    exact .inl (.inl (List.mem_map_of_mem (List.mem_of_mem_filter inside)))
  · intro id
    simp only [references_iff, whole, heldIn_replaced]
    rintro ((held | held) | held)
    · obtain ⟨s, member, rfl⟩ := List.mem_map.mp held
      by_cases gone : ids.contains s.id
      · exact .inr ⟨(table, s), List.mem_map_of_mem (List.mem_filter.mpr ⟨member, gone⟩), rfl⟩
      · have stays : s ∈ spot.found.segments.filter fun s => !ids.contains s.id :=
          List.mem_filter.mpr ⟨member, by simpa using gone⟩
        exact .inl (.inl (.inl (List.mem_map_of_mem stays)))
    · exact .inl (.inl (.inr held))
    · exact .inl (.inr held)

theorem addTombstone_exchange {predicates : List Predicate} (made : m.addTombstone table predicates = .ok m') :
    Exchange m m' [] := by
  obtain ⟨spot, stored, whole, _, _, rfl⟩ := addTombstone_eq_ok made
  refine .of_entries rfl ?_ ?_ (by simp)
  all_goals
    intro id
    simp only [references_iff, whole, heldIn_replaced, TableEntry.segmentIds]
    tauto

theorem createJob_exchange {ops : List Alter} (made : m.createJob table ops = .ok m') : Exchange m m' [] := by
  obtain ⟨spot, target, whole, _, _, planned, rfl⟩ := createJob_eq_ok made
  have none_yet : target.segments = [] := (planAlter_frame planned).1
  refine .of_entries rfl ?_ ?_ (by simp)
  all_goals
    intro id
    simp only [references_iff, heldIn_concat, TableEntry.segmentIds, none_yet, List.map_nil, List.not_mem_nil]
    tauto

theorem advanceJob_exchange {jobId : Nat} {reused rewritten : List Nat} {segments : List SegmentEntry}
    (made : m.advanceJob jobId reused rewritten segments = .ok m') :
    Exchange m m' (segments.map (·.id)) := by
  obtain ⟨job, source, carried, job', jobs, _, _, tables, _, advanced, rfl⟩ := advanceJob_eq_ok made
  have from_source : ∀ id ∈ carried.map (·.id), id ∈ source.found.segmentIds := by
    intro id member
    obtain ⟨s', inside, rfl⟩ := List.mem_map.mp member
    obtain ⟨_, _, s, live, _, rfl⟩ := List.Forall₂.source advanced.projected inside
    exact List.mem_map.mpr ⟨s, live, rfl⟩
  refine .of_entries rfl ?_ ?_ ?_
  all_goals
    intro id
    have := from_source id
    simp only [references_iff, tables, jobs, heldIn_replaced, advanced.job, TableEntry.segmentIds,
      mem_sorted_ids, List.map_append, List.mem_append] at *
    tauto

theorem swapJob_exchange {jobId : Nat} (made : m.swapJob jobId version nowMs = .ok m') : Exchange m m' [] := by
  obtain ⟨job, source, tombstones, jobs, _, _, tables, _, _, _, rfl⟩ := swapJob_eq_ok made
  refine .of_entries rfl ?_ ?_ (by simp)
  all_goals
    intro id
    simp only [references_iff, tables, jobs, heldIn_replaced, heldIn_insertByKey, heldIn_concat,
      TableEntry.segmentIds]
    tauto

theorem cancelJob_exchange {jobId : Nat} (made : m.cancelJob jobId version nowMs = .ok m') :
    Exchange m m' [] := by
  obtain ⟨job, jobs, _, rfl⟩ := cancelJob_eq_ok made
  rw [release_eq_releaseAll]
  refine .of_release rfl ?_ ?_ ?_
  · intro id
    simp only [references_iff, jobs, heldIn_replaced]
    tauto
  · intro s member
    obtain ⟨s, inside, rfl⟩ := List.mem_map.mp member
    simp only [references_iff, jobs, heldIn_replaced]
    exact .inr (.inr (.inl (List.mem_map_of_mem inside)))
  · intro id
    simp only [references_iff, jobs, heldIn_replaced, TableEntry.segmentIds, List.mem_map,
      exists_exists_and_eq_and]
    tauto

theorem mem_restored_ids {retired : Retired} {cur : TableEntry} {tombstones : List Tombstone} {id : Nat} :
    id ∈ (restored retired cur tombstones).segmentIds ↔
      id ∈ retired.entry.segmentIds ∨ id ∈ cur.segmentIds ∧ id ∉ retired.successorSegments := by
  simp only [restored, TableEntry.segmentIds, mem_sorted_ids, List.map_append, List.mem_append, List.map_map]
  refine or_congr_right ?_
  constructor
  · intro member
    obtain ⟨s, inside, rfl⟩ := List.mem_map.mp member
    obtain ⟨live, since⟩ := List.mem_filter.mp inside
    exact ⟨List.mem_map.mpr ⟨s, live, rfl⟩, by simpa using since⟩
  · rintro ⟨member, since⟩
    obtain ⟨s, live, rfl⟩ := List.mem_map.mp member
    exact List.mem_map.mpr ⟨s, List.mem_filter.mpr ⟨live, by simpa using since⟩, rfl⟩

theorem revertTable_exchange (made : m.revertTable table version nowMs = .ok m') : Exchange m m' [] := by
  obtain ⟨r, cur, tombstones, _, retired, _, _, tables, _, _, _, _, rfl⟩ := revertTable_eq_ok made
  refine .of_entries rfl ?_ ?_ (by simp)
  all_goals
    intro id
    simp only [references_iff, tables, retired, heldIn_replaced, heldIn_insertByKey, heldIn_concat,
      mem_restored_ids]
    tauto

theorem dropTable_exchange (made : m.dropTable table version nowMs = .ok m') : Exchange m m' [] := by
  obtain ⟨spot, whole, _, _, rfl⟩ := dropTable_eq_ok made
  refine .of_entries rfl ?_ ?_ (by simp)
  all_goals
    intro id
    simp only [references_iff, whole, heldIn_replaced, heldIn_concat]
    tauto

theorem undropTable_exchange (made : m.undropTable table = .ok m') : Exchange m m' [] := by
  obtain ⟨r, _, retired, _, _, _, rfl⟩ := undropTable_eq_ok made
  refine .of_entries rfl ?_ ?_ (by simp)
  all_goals
    intro id
    simp only [references_iff, retired, heldIn_replaced, heldIn_insertByKey]
    tauto

theorem truncateTable_exchange (made : m.truncateTable table version nowMs = .ok m') : Exchange m m' [] := by
  obtain ⟨spot, whole, _, _, rfl⟩ := truncateTable_eq_ok made
  rw [release_eq_releaseAll]
  refine .of_release rfl ?_ ?_ ?_
  · intro id
    simp only [references_iff, whole, heldIn_replaced, TableEntry.segmentIds, List.map_nil, List.not_mem_nil]
    tauto
  · intro s member
    obtain ⟨s, inside, rfl⟩ := List.mem_map.mp member
    simp only [references_iff, whole, heldIn_replaced]
    exact .inl (.inl (List.mem_map_of_mem inside))
  · intro id
    simp only [references_iff, whole, heldIn_replaced, TableEntry.segmentIds, List.mem_map, List.map_nil,
      List.not_mem_nil, exists_exists_and_eq_and]
    tauto

theorem expireRetired_exchange (beforeMs : Nat) : Exchange m (m.expireRetired beforeMs version nowMs) [] := by
  rw [expireRetired_eq_releaseAll]
  refine .of_release rfl ?_ ?_ ?_
  · intro id
    simp only [references_iff]
    refine Or.imp_right (Or.imp_left ?_)
    rintro ⟨r, member, held⟩
    exact ⟨r, List.mem_of_mem_filter member, held⟩
  · intro s member
    obtain ⟨r, expired, inside⟩ := List.mem_flatMap.mp member
    obtain ⟨_, held, rfl⟩ := List.mem_map.mp inside
    simp only [references_iff]
    exact .inr (.inl ⟨r, List.mem_of_mem_filter expired, List.mem_map_of_mem held⟩)
  · intro id
    simp only [references_iff]
    rintro (held | ⟨r, member, held⟩ | held)
    · exact .inl (.inl held)
    · by_cases old : r.retiredAtMs < beforeMs
      · obtain ⟨s, inside, rfl⟩ := List.mem_map.mp held
        refine .inr ⟨(r.entry.name, s), List.mem_flatMap.mpr ⟨r, ?_, List.mem_map_of_mem inside⟩, rfl⟩
        exact List.mem_filter.mpr ⟨member, by simpa using old⟩
      · exact .inl (.inr (.inl ⟨r, List.mem_filter.mpr ⟨member, by simpa using old⟩, held⟩))
    · exact .inl (.inr (.inr held))

/-- Every edit but ForgetGarbage is an exchange of references. -/
theorem applyEdit_exchange {e : Edit} (applied : applyEdit version nowMs m e = .ok m') :
    (∃ ids, e = .forgetGarbage ids ∧ m' = m.forgetGarbage ids) ∨ Exchange m m' e.newIds := by
  cases e with
  | createTable spec => exact .inr (createTable_exchange applied)
  | addSegments table segments => exact .inr (addSegments_exchange applied)
  | removeSegments table ids => exact .inr (removeSegments_exchange applied)
  | addTombstone table predicates => exact .inr (addTombstone_exchange applied)
  | forgetGarbage ids => cases applied; exact .inl ⟨ids, rfl, rfl⟩
  | reserveSegmentIds next => cases applied; exact .inr (.of_same rfl rfl)
  | createJob table ops => exact .inr (createJob_exchange applied)
  | advanceJob job reused rewritten segments => exact .inr (advanceJob_exchange applied)
  | swapJob job => exact .inr (swapJob_exchange applied)
  | cancelJob job => exact .inr (cancelJob_exchange applied)
  | revertTable table => exact .inr (revertTable_exchange applied)
  | dropTable table => exact .inr (dropTable_exchange applied)
  | undropTable table => exact .inr (undropTable_exchange applied)
  | truncateTable table => exact .inr (truncateTable_exchange applied)
  | expireRetired beforeMs => cases applied; exact .inr (expireRetired_exchange beforeMs)
  | recordMigration name checksum =>
    cases recordMigration_eq_ok applied
    exact .inr (.of_same rfl rfl)

end Edits

/-- Some edit of the trace brought the segment in. -/
def Added (trace : List (Edit × Manifest)) (id : Nat) : Prop := ∃ x ∈ trace, id ∈ x.1.newIds

/-- A ForgetGarbage edit named the id, and nothing has referenced it from there on. -/
def ForgottenSince (trace : List (Edit × Manifest)) (id : Nat) : Prop :=
  ∃ before e m after, trace = before ++ (e, m) :: after ∧ id ∈ e.forgets ∧
    ∀ x ∈ (e, m) :: after, x.2.referencesSegment id = false

/-- Garbage lists exactly the segments added, no longer referenced and not yet forgotten. -/
structure GarbageExact (trace : List (Edit × Manifest)) (m : Manifest) : Prop where
  unreferenced : ∀ id ∈ m.garbageIds, m.referencesSegment id = false
  nodup : m.garbageIds.Nodup
  listed : ∀ id, Added trace id → m.referencesSegment id = false → ¬ForgottenSince trace id →
    m.garbageIds.count id = 1
  forgotten : ∀ id, ForgottenSince trace id → m.referencesSegment id = false ∧ id ∉ m.garbageIds

section Exact

variable {trace : List (Edit × Manifest)} {e : Edit} {id : Nat}

theorem not_references_iff : m.referencesSegment id = false ↔ ¬m.References id := by
  rw [← referencesSegment_iff, Bool.not_eq_true]

theorem added_concat : Added (trace ++ [(e, m)]) id ↔ Added trace id ∨ id ∈ e.newIds := by
  simp [Added, or_and_right, exists_or]

theorem forgottenSince_concat : ForgottenSince (trace ++ [(e, m)]) id ↔
    m.referencesSegment id = false ∧ (id ∈ e.forgets ∨ ForgottenSince trace id) := by
  constructor
  · rintro ⟨before, e', m₁, after, same, named, since⟩
    rcases List.eq_nil_or_concat after with rfl | ⟨after, last, rfl⟩
    · obtain ⟨rfl, last⟩ := List.append_inj' same rfl
      cases last
      exact ⟨since _ (.head _), .inl named⟩
    · rw [List.concat_eq_append, ← List.cons_append, ← List.append_assoc] at same
      obtain ⟨rfl, last⟩ := List.append_inj' same rfl
      cases last
      refine ⟨since (e, m) (by simp), .inr ⟨before, e', m₁, after, rfl, named, ?_⟩⟩
      intro x member
      refine since x ?_
      rcases List.mem_cons.mp member with rfl | member
      · exact .head _
      · exact List.mem_cons_of_mem _ (by simp [member])
  · rintro ⟨unheld, named | ⟨before, e', m₁, after, rfl, named, since⟩⟩
    · refine ⟨trace, e, m, [], rfl, named, ?_⟩
      intro x member
      cases List.mem_singleton.mp member
      exact unheld
    · refine ⟨before, e', m₁, after ++ [(e, m)], by simp, named, ?_⟩
      intro x member
      rw [← List.cons_append, List.mem_append, List.mem_singleton] at member
      rcases member with member | rfl
      · exact since x member
      · exact unheld

theorem forgetGarbage_exact {ids : List Nat} (exact_ : GarbageExact trace m) :
    GarbageExact (trace ++ [(.forgetGarbage ids, m.forgetGarbage ids)]) (m.forgetGarbage ids) := by
  have same : ∀ id, (m.forgetGarbage ids).referencesSegment id = m.referencesSegment id := fun _ => rfl
  have listed : (m.forgetGarbage ids).garbageIds = m.garbageIds.filter fun id => !ids.contains id := by
    simp only [forgetGarbage, garbageIds, List.filter_map, Function.comp_def]
  refine ⟨?_, ?_, ?_, ?_⟩
  · intro id member
    rw [listed] at member
    exact exact_.unreferenced id (List.mem_of_mem_filter member)
  · rw [listed]
    exact exact_.nodup.filter _
  · intro id added unheld kept
    rw [forgottenSince_concat] at kept
    simp only [Edit.forgets, unheld, true_and, not_or] at kept
    have added : Added trace id := (added_concat.mp added).resolve_right (by simp [Edit.newIds])
    rw [listed, List.count_filter (by simpa using kept.1)]
    exact exact_.listed id added unheld kept.2
  · intro id forgotten
    obtain ⟨unheld, since⟩ := forgottenSince_concat.mp forgotten
    refine ⟨unheld, fun member => ?_⟩
    rw [listed, List.mem_filter] at member
    rcases since with named | before
    · have kept : id ∉ ids := by simpa using member.2
      exact kept named
    · exact (exact_.forgotten id before).2 member.1

theorem Exchange.exact (exact_ : GarbageExact trace m) (exchange : Exchange m m' e.newIds)
    (fresh : m.Fresh e) (keeps : e.forgets = []) : GarbageExact (trace ++ [(e, m')]) m' := by
  obtain ⟨dropped, listed, nodup, new⟩ := exchange.dropped
  refine ⟨?_, ?_, ?_, ?_⟩
  · intro id member
    rw [listed, List.mem_append] at member
    rw [not_references_iff]
    intro held
    rcases member with old | gone
    · rcases exchange.gained id held with held | brought
      · exact not_references_iff.mp (exact_.unreferenced id old) held
      · exact (fresh id brought).2 old
    · exact (new id gone).2.2 held
  · rw [listed]
    refine List.nodup_append.mpr ⟨exact_.nodup, nodup, ?_⟩
    rintro id old id' gone rfl
    exact (new id gone).2.1 old
  · intro id added unheld kept
    rw [not_references_iff] at unheld
    have apart : ∀ id ∈ dropped, id ∉ m.garbageIds := fun id member => (new id member).2.1
    rw [forgottenSince_concat, not_references_iff, keeps] at kept
    simp only [unheld, not_false_eq_true, true_and, List.not_mem_nil, false_or] at kept
    rcases added_concat.mp added with added | brought
    · by_cases held : m.References id
      · have member := (exchange.kept id held).resolve_left unheld
        have nodup' : m'.garbageIds.Nodup := by
          rw [listed]
          refine List.nodup_append.mpr ⟨exact_.nodup, nodup, ?_⟩
          rintro id old id' gone rfl
          exact apart id gone old
        exact List.count_eq_one_of_mem nodup' member
      · have once := exact_.listed id added (not_references_iff.mpr held) kept
        have absent : id ∉ dropped := fun gone => held (new id gone).1
        rw [listed, List.count_append, once, List.count_eq_zero_of_not_mem absent]
    · exact absurd (exchange.added id brought) unheld
  · intro id forgotten
    obtain ⟨unheld, since⟩ := forgottenSince_concat.mp forgotten
    rw [keeps] at since
    have before := exact_.forgotten id (since.resolve_left (by simp))
    refine ⟨unheld, fun member => ?_⟩
    rw [listed, List.mem_append] at member
    rcases member with old | gone
    · exact before.2 old
    · exact not_references_iff.mp before.1 (new id gone).1

theorem applyEdit_exact (applied : applyEdit version nowMs m e = .ok m') (fresh : m.Fresh e)
    (exact_ : GarbageExact trace m) : GarbageExact (trace ++ [(e, m')]) m' := by
  rcases applyEdit_exchange applied with ⟨ids, rfl, rfl⟩ | exchange
  · exact forgetGarbage_exact exact_
  · cases e with
    | forgetGarbage ids => cases applied; exact forgetGarbage_exact exact_
    | _ => exact exchange.exact exact_ fresh rfl

theorem GarbageExact.empty : GarbageExact [] Manifest.empty := by
  refine ⟨nofun, .nil, ?_, ?_⟩
  · rintro id ⟨x, member, _⟩
    cases member
  · rintro id ⟨before, e, m, after, same, _⟩
    exact absurd same (by simp)

/-- In every manifest a run reaches from the empty one with fresh segment ids, garbage is exact. -/
theorem garbage_exact (commits : List Timed) (fresh : Admits Fresh Manifest.empty commits) :
    GarbageExact (Manifest.empty.trace commits) (Manifest.empty.run commits) := by
  refine run_trace_invariant GarbageExact (fun _ _ _ _ _ _ fresh exact_ applied => ?_) ?_ [] fresh .empty
  · exact applyEdit_exact applied fresh exact_
  · intro trace m version exact_
    exact ⟨exact_.unreferenced, exact_.nodup, exact_.listed, exact_.forgotten⟩

/-- A table written to, truncated and collected. -/
def collectedRun : List Timed :=
  let t : TableName := ⟨"d", "t"⟩
  let s : SegmentEntry := ⟨7, "_", 2, 1, 1, 0, [⟨1, 0, none, none⟩], [], "d/1", [1], []⟩
  [(⟨0, [.createTable (.new t [⟨"a", .int64⟩])]⟩, 0), (⟨1, [.addSegments t [s]]⟩, 1),
    (⟨2, [.truncateTable t]⟩, 2), (⟨3, [.forgetGarbage [7]]⟩, 3)]

instance (m : Manifest) (e : Edit) : Decidable (Fresh m e) := inferInstanceAs (Decidable (∀ id ∈ e.newIds, _))

theorem garbage_exact_collectedRun :
    Admits Fresh Manifest.empty collectedRun ∧
    GarbageExact (Manifest.empty.trace collectedRun) (Manifest.empty.run collectedRun) ∧
    (Manifest.empty.run (collectedRun.take 3)).garbageIds = [7] ∧
    (Manifest.empty.run collectedRun).garbageIds = [] :=
  have fresh : Admits Fresh Manifest.empty collectedRun := by decide
  ⟨fresh, garbage_exact collectedRun fresh, by decide, by decide⟩

end Exact

end Manifest

end Adelie
