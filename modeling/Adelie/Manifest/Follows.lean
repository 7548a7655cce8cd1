import Adelie.Manifest.Descent

namespace Adelie.Tracked

open Manifest

variable {s s' : Tracked} {version nowMs : Nat} {e : Edit}

theorem applyEdit_successors (d : Descended s) (tame : s.Tame e) (applied : s.applyEdit version nowMs e = .ok s') :
    ∀ r ∈ s'.manifest.retired, ∀ id ∈ r.successorSegments, s'.past.home id = some (s'.past.root r.entry.id) := by
  have grows := applyEdit_extends tame applied
  obtain ⟨made, _⟩ := applyEdit_eq_ok applied
  have old : ∀ r ∈ s.manifest.retired, ∀ id ∈ r.successorSegments,
      s'.past.home id = some (s'.past.root r.entry.id) := by
    intro r kept id listed
    rw [grows.roots _ (d.coherent.ids_below _ (entries_of_retired kept))]
    exact grows.homes id _ (d.successors r kept id listed)
  -- Only a swap lists successors, and they are of its target.
  have brought : ∀ r ∈ s'.manifest.retired, r ∈ s.manifest.retired ∨ r.successorSegments = [] ∨
      ∃ j ∈ s.manifest.jobs, r.entry.id = j.source ∧ r.entry ∈ s.manifest.entries ∧
        ∀ id ∈ r.successorSegments, id ∈ j.target.segmentIds := by
    generalize s'.manifest = m' at made
    intro r kept
    cases e with
    | swapJob job =>
      obtain ⟨spot, source, _, jobs, _, _, tables, from_, _, _, rfl⟩ := swapJob_eq_ok made
      rcases List.mem_append.mp kept with kept | new
      · exact .inl kept
      · rw [List.mem_singleton.mp new]
        refine .inr (.inr ⟨spot.found, by simp [jobs], from_, entries_of_table (by simp [tables]), ?_⟩)
        exact fun id listed => mem_sortByKey.mp listed
    | revertTable table =>
      obtain ⟨spot, _, _, _, retired, _, _, _, _, _, _, _, rfl⟩ := revertTable_eq_ok made
      rcases List.mem_append.mp kept with kept | new
      · exact .inl (by simp [retired, kept])
      · rw [List.mem_singleton.mp new]
        exact .inr (.inl rfl)
    | dropTable table =>
      obtain ⟨_, _, _, _, rfl⟩ := dropTable_eq_ok made
      rcases List.mem_append.mp kept with kept | new
      · exact .inl kept
      · rw [List.mem_singleton.mp new]
        exact .inr (.inl rfl)
    | undropTable table =>
      obtain ⟨spot, _, retired, _, _, _, rfl⟩ := undropTable_eq_ok made
      exact .inl (by simp [retired, show r ∈ spot.removed from kept])
    | expireRetired beforeMs =>
      cases made
      rw [expireRetired_frame] at kept
      exact .inl (List.mem_of_mem_filter kept)
    | createTable spec => obtain ⟨_, _, rfl⟩ := createTable_eq_ok made; exact .inl kept
    | addSegments table segments => obtain ⟨_, _, _, _, rfl⟩ := addSegments_eq_ok made; exact .inl kept
    | removeSegments table ids =>
      obtain ⟨_, _, _, _, _, rfl⟩ := removeSegments_eq_ok made
      rw [release_frame] at kept
      exact .inl kept
    | addTombstone table predicates => obtain ⟨_, _, _, _, _, rfl⟩ := addTombstone_eq_ok made; exact .inl kept
    | truncateTable table =>
      obtain ⟨_, _, _, _, rfl⟩ := truncateTable_eq_ok made
      rw [release_frame] at kept
      exact .inl kept
    | cancelJob job =>
      obtain ⟨_, _, _, rfl⟩ := cancelJob_eq_ok made
      rw [release_frame] at kept
      exact .inl kept
    | forgetGarbage ids => cases made; exact .inl kept
    | reserveSegmentIds next => cases made; exact .inl kept
    | createJob table ops => obtain ⟨_, _, _, _, _, _, rfl⟩ := createJob_eq_ok made; exact .inl kept
    | advanceJob job reused rewritten segments =>
      obtain ⟨_, _, _, _, _, _, _, _, _, _, rfl⟩ := advanceJob_eq_ok made
      exact .inl kept
    | recordMigration migration checksum => cases recordMigration_eq_ok made; exact .inl kept
  intro r kept id listed
  rcases brought r kept with kept | none_ | ⟨j, running, from_, inside, successors⟩
  · exact old r kept id listed
  · rw [none_] at listed
    cases listed
  · rw [d.old_home grows (entries_of_job running) (successors id listed),
      grows.roots _ (d.coherent.ids_below _ (entries_of_job running)), d.jobs j running, ← from_,
      grows.roots _ (d.coherent.ids_below _ inside)]

theorem applyEdit_jobs (d : Descended s) (tame : s.Tame e) (applied : s.applyEdit version nowMs e = .ok s') :
    ∀ j ∈ s'.manifest.jobs, s'.past.root j.target.id = s'.past.root j.source := by
  have grows := applyEdit_extends tame applied
  have kept : ∀ i ∈ s.manifest.jobs, s'.past.root i.target.id = s'.past.root i.source := by
    intro i running
    obtain ⟨t, live, job⟩ := d.coherent.jobs i running
    rw [grows.roots _ (d.coherent.ids_below _ (entries_of_job running)), d.jobs i running, ← job.source,
      grows.roots _ (d.coherent.ids_below _ (entries_of_table live))]
  obtain ⟨made, past⟩ := applyEdit_eq_ok applied
  obtain ⟨m', a'⟩ := s'
  dsimp only at made past kept ⊢
  intro j running
  cases e with
  | createJob table ops =>
    obtain ⟨spot, target, tables, rfl, _, _, rfl⟩ := createJob_eq_ok made
    have live : spot.found ∈ s.manifest.tables := by simp [tables]
    rcases List.mem_append.mp running with running | new
    · exact kept j running
    · rw [List.mem_singleton.mp new]
      dsimp only
      rw [grows.roots _ (d.coherent.ids_below _ (entries_of_table live)), past]
      simp only [Ancestry.mark, table_eq_some d.coherent.sorted live, Function.update_self]
  | advanceJob job reused rewritten segments =>
    obtain ⟨spot, source, carried, job', jobs, _, _, _, _, advanced, rfl⟩ := advanceJob_eq_ok made
    rcases Located.mem_replaced.mp running with rfl | running
    · rw [advanced.job]
      exact kept spot.found (by simp [jobs])
    · exact kept j (by simp [jobs, running])
  | swapJob job =>
    obtain ⟨spot, _, _, jobs, _, _, _, _, _, _, rfl⟩ := swapJob_eq_ok made
    exact kept j (by simp [jobs, show j ∈ spot.removed from running])
  | cancelJob job =>
    obtain ⟨spot, jobs, _, rfl⟩ := cancelJob_eq_ok made
    rw [release_frame] at running
    exact kept j (by simp [jobs, show j ∈ spot.removed from running])
  | removeSegments table ids =>
    obtain ⟨_, _, _, _, _, rfl⟩ := removeSegments_eq_ok made
    rw [release_frame] at running
    exact kept j running
  | truncateTable table =>
    obtain ⟨_, _, _, _, rfl⟩ := truncateTable_eq_ok made
    rw [release_frame] at running
    exact kept j running
  | expireRetired beforeMs =>
    cases made
    rw [expireRetired_frame] at running
    exact kept j running
  | createTable spec => obtain ⟨_, _, rfl⟩ := createTable_eq_ok made; exact kept j running
  | addSegments table segments => obtain ⟨_, _, _, _, rfl⟩ := addSegments_eq_ok made; exact kept j running
  | addTombstone table predicates => obtain ⟨_, _, _, _, _, rfl⟩ := addTombstone_eq_ok made; exact kept j running
  | revertTable table => obtain ⟨_, _, _, _, _, _, _, _, _, _, _, _, rfl⟩ := revertTable_eq_ok made; exact kept j running
  | dropTable table => obtain ⟨_, _, _, _, rfl⟩ := dropTable_eq_ok made; exact kept j running
  | undropTable table => obtain ⟨_, _, _, _, _, _, rfl⟩ := undropTable_eq_ok made; exact kept j running
  | forgetGarbage ids => cases made; exact kept j running
  | reserveSegmentIds next => cases made; exact kept j running
  | recordMigration migration checksum => cases recordMigration_eq_ok made; exact kept j running

/-- A line begins with the oldest of its tables. -/
theorem applyEdit_roots (d : Descended s) (applied : s.applyEdit version nowMs e = .ok s') :
    ∀ x, s'.past.root x ≤ x := by
  obtain ⟨made, past⟩ := applyEdit_eq_ok applied
  intro x
  rw [past]
  cases e with
  | createTable spec =>
    simp only [Ancestry.mark, Function.update_apply]
    split
    · omega
    · exact d.roots x
  | createJob table ops =>
    obtain ⟨spot, _, tables, rfl, _, _, _⟩ := createJob_eq_ok made
    have live : spot.found ∈ s.manifest.tables := by simp [tables]
    have below := d.coherent.ids_below _ (entries_of_table live)
    have root := d.roots spot.found.id
    simp only [Ancestry.mark, table_eq_some d.coherent.sorted live, Function.update_apply]
    split
    · omega
    · exact d.roots x
  | addSegments table segments => simp only [Ancestry.mark]; split <;> exact d.roots x
  | advanceJob job reused rewritten segments => simp only [Ancestry.mark]; split <;> exact d.roots x
  | swapJob job => simp only [Ancestry.mark]; split <;> exact d.roots x
  | _ => exact d.roots x

theorem applyEdit_homes (d : Descended s) (tame : s.Tame e) (applied : s.applyEdit version nowMs e = .ok s') :
    ∀ t ∈ s'.manifest.entries, ∀ id ∈ t.segmentIds, s'.past.home id = some (s'.past.root t.id) := by
  have grows := applyEdit_extends tame applied
  obtain ⟨made, past⟩ := applyEdit_eq_ok applied
  intro t inside id held
  rcases applyEdit_remade made t inside with old | remade
  · exact d.old_home grows old held
  · exact d.remade_home grows past remade held

theorem Tame.fresh (tame : s.Tame e) : ∀ id ∈ e.newIds, s.past.home id = none := by
  intro id brought
  cases e with
  | addSegments table segments =>
    obtain ⟨g, member, rfl⟩ := List.mem_map.mp brought
    exact tame g member
  | advanceJob job reused rewritten segments =>
    obtain ⟨g, member, rfl⟩ := List.mem_map.mp brought
    exact tame g member
  | _ => cases brought

theorem applyEdit_descended (tame : s.Tame e) (d : Descended s) (applied : s.applyEdit version nowMs e = .ok s') :
    Descended s' := by
  refine ⟨?_, applyEdit_homes d tame applied, applyEdit_successors d tame applied, applyEdit_jobs d tame applied,
    applyEdit_roots d applied, applyEdit_leads d tame applied⟩
  apply (applyEdit_move (applyEdit_eq_ok applied).1).coherent _ d.coherent
  intro id brought held
  obtain ⟨t, inside, member⟩ := held
  have home := d.homes t inside id member
  rw [tame.fresh id brought] at home
  cases home

theorem Descended.empty : Descended Tracked.empty := by
  refine ⟨Coherent.empty, ?_, ?_, ?_, fun x => Nat.le_refl x, ?_⟩
  · intro t inside
    cases inside
  · intro r kept
    cases kept
  · intro j running
    cases running
  · intro name
    refine ⟨0, Nat.one_pos, ?_, True.intro⟩
    rintro y (⟨t, live, _⟩ | ⟨_, r, last, _⟩)
    · cases live
    · cases last

theorem Descended.follows (d : Descended s) (e : Edit) : s.Follows e := by
  cases e with
  | revertTable name =>
    intro version nowMs m' made
    obtain ⟨r, cur, tombstones, at_, retired, reason, named, tables, rfl, _, stale, _, rfl⟩ := revertTable_eq_ok made
    have live : cur.found ∈ s.manifest.tables := by simp [tables]
    have kept : r.found ∈ s.manifest.retired := by simp [retired]
    obtain ⟨heir, root⟩ := d.heir at_ live rfl stale
    have table : (s.manifest.tables.find? (·.name == cur.found.name)) = some cur.found :=
      table_eq_some d.coherent.sorted live
    have sorted := (applyEdit_move (e := .revertTable cur.found.name) made).sorted d.coherent
    have now : restored r.found cur.found tombstones ∈
        insertByKey (·.name) (restored r.found cur.found tombstones) cur.removed := mem_insertByKey.mpr (.inl rfl)
    have restoredAt := table_eq_some sorted now
    rw [show (restored r.found cur.found tombstones).name = cur.found.name from named] at restoredAt
    refine ⟨r, at_, cur.found, table, restored r.found cur.found tombstones, restoredAt, heir, root, rfl, ?_⟩
    intro id held
    rcases mem_restored_ids.mp held with old | since
    · exact d.homes _ (entries_of_retired kept) id old
    · rw [d.homes _ (entries_of_table live) id since.1, root]
      rfl
  | _ => exact True.intro

/-- In a run of tame edits, every REVERT that is accepted restores the definition the live table took
    the place of. -/
theorem revert_follows_lineage (commits : List Timed) (tame : Admits Tame Tracked.empty commits) :
    Admits Follows Tracked.empty commits := by
  refine Admits.of_invariant Descended ?_ ?_ (fun s e _ d => d.follows e) Descended.empty tame
  · exact fun version nowMs s e s' tame d applied => applyEdit_descended tame d applied
  · exact fun m past version d => ⟨d.coherent.versionless version, d.homes, d.successors, d.jobs, d.roots, d.leads⟩

instance (s : Tracked) (e : Edit) : Decidable (s.Tame e) :=
  match e with
  | .createTable spec => inferInstanceAs (Decidable (∀ r ∈ s.manifest.retired,
      r.reason = .swapped → r.entry.name = spec.name → r.successorSegments ≠ []))
  | .expireRetired beforeMs => inferInstanceAs (Decidable (s.manifest.retired.Pairwise fun a b =>
      a.entry.name = b.entry.name → b.retiredAtMs < beforeMs → a.retiredAtMs < beforeMs))
  | .addSegments _ segments => inferInstanceAs (Decidable (∀ g ∈ segments, s.past.home g.id = none))
  | .advanceJob _ _ _ segments => inferInstanceAs (Decidable (∀ g ∈ segments, s.past.home g.id = none))
  | .removeSegments .. | .addTombstone .. | .forgetGarbage .. | .reserveSegmentIds .. | .createJob .. | .swapJob ..
  | .cancelJob .. | .revertTable .. | .dropTable .. | .undropTable .. | .truncateTable .. | .recordMigration .. =>
    isTrue True.intro

/-- A table migrated with its segment, written to and reverted. -/
def revertedLine : List Timed :=
  let t : TableName := ⟨"d", "t"⟩
  let s : SegmentEntry := ⟨7, "_", 2, 1, 1, 0, [⟨1, 0, none, none⟩], [], "d/1", [1], []⟩
  let s' : SegmentEntry :=
    ⟨8, "_", 6, 1, 1, 0, [⟨1, 0, none, none⟩, ⟨1, 0, none, none⟩], [], "d/2", [1, 2], []⟩
  [(⟨0, [.createTable (.new t [⟨"a", .int64⟩])]⟩, 0), (⟨1, [.addSegments t [s]]⟩, 1),
    (⟨2, [.createJob t [.addColumn ⟨"b", .int64⟩]]⟩, 2), (⟨3, [.advanceJob 1 [7] [] []]⟩, 3),
    (⟨4, [.swapJob 1]⟩, 4), (⟨5, [.addSegments t [s']]⟩, 5), (⟨6, [.revertTable t]⟩, 6)]

theorem revert_follows_lineage_revertedLine :
    Admits Tame Tracked.empty revertedLine ∧ Admits Follows Tracked.empty revertedLine ∧
    (Manifest.empty.run revertedLine).tables.map (fun t => (t.id, t.segmentIds)) = [(1, [7, 8])] :=
  have tame : Admits Tame Tracked.empty revertedLine := by decide
  ⟨tame, revert_follows_lineage revertedLine tame, by decide⟩

/-- A table migrated before it had a segment, dropped and created anew. -/
def recreatedLine : List Timed :=
  let t : TableName := ⟨"d", "t"⟩
  let s : SegmentEntry := ⟨7, "_", 6, 1, 1, 0, [⟨1, 0, none, none⟩], [], "d/3", [1], []⟩
  [(⟨0, [.createTable (.new t [⟨"a", .int64⟩])]⟩, 0), (⟨1, [.createJob t [.addColumn ⟨"b", .int64⟩]]⟩, 1),
    (⟨2, [.swapJob 1]⟩, 2), (⟨3, [.dropTable t]⟩, 3), (⟨4, [.createTable (.new t [⟨"a", .int64⟩])]⟩, 4),
    (⟨5, [.addSegments t [s]]⟩, 5), (⟨6, [.revertTable t]⟩, 6)]

/-- The REVERT puts table 1, which table 2 took the place of, in the place of table 3 and gives it
    table 3's segment. -/
theorem recreatedLine_strays :
    ¬Admits Follows Tracked.empty recreatedLine ∧
    (Manifest.empty.run recreatedLine).tables.map (fun t => (t.id, t.segmentIds)) = [(1, [7])] := by
  refine ⟨?_, by decide⟩
  intro admits
  have accepted : ∃ m', ((recreatedLine.take 6).foldl advance Tracked.empty).manifest.revertTable ⟨"d", "t"⟩ 7 6 = .ok m' :=
    ⟨_, rfl⟩
  obtain ⟨m', made⟩ := accepted
  obtain ⟨r, at_, cur, live, _, _, heir, _⟩ := admits.2.2.2.2.2.2.1.1 7 6 m' made
  have first : (rposition (fun r : Retired => r.reason == .swapped && r.entry.name == ⟨"d", "t"⟩)
      ((recreatedLine.take 6).foldl advance Tracked.empty).manifest.retired).map (·.found.entry.id) = some 1 := by decide
  have third : (((recreatedLine.take 6).foldl advance Tracked.empty).manifest.table ⟨"d", "t"⟩).map (·.id) = some 3 := by
    decide
  have second : ((recreatedLine.take 6).foldl advance Tracked.empty).past.heir 1 = some 2 := by decide
  have one : r.found.entry.id = 1 := Option.some.inj ((congrArg (Option.map _) at_).symm.trans first)
  have three : cur.id = 3 := Option.some.inj ((congrArg (Option.map _) live).symm.trans third)
  rw [one, three] at heir
  exact absurd (second.symm.trans heir) (by decide)

end Adelie.Tracked
