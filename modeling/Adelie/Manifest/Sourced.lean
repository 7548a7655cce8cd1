import Adelie.Manifest.Lineage
import Adelie.Manifest.Stem

namespace Adelie.Manifest

/-- A definition made out of another: a column of one is a column of the other, or has an id the
    other had not handed out. -/
structure MadeFrom (target t : TableEntry) : Prop where
  engine : target.engine = t.engine
  origin : ∀ f ∈ target.schema, f.id ∈ t.schemaIds ∨ t.nextFieldId ≤ f.id
  next : t.nextFieldId ≤ target.nextFieldId

/-- Every job's target is made from the table it migrates, as that table stands. -/
def Sourced (m : Manifest) : Prop := ∀ j ∈ m.jobs, ∀ t ∈ m.tables, t.id = j.source → MadeFrom j.target t

theorem Planned.madeFrom {source target : TableEntry} (plan : Planned source target) (id : Nat) :
    MadeFrom { target with id := id } source := by
  refine ⟨plan.engine, ?_, plan.descends.next_le⟩
  intro f member
  rcases plan.descends.origin f member with new | ⟨g, old, same, _⟩
  · exact .inr new
  · exact .inl (List.mem_map.mpr ⟨g, old, same⟩)

variable {m m' : Manifest} {new : List Nat}

/-- The source of a job is live, so no definition that is not live has its id. -/
theorem Coherent.source_ne (c : Coherent m) {j : Job} (running : j ∈ m.jobs) {e : TableEntry}
    (other : e.id ∉ m.tables.map (·.id)) : e.id ≠ j.source := by
  obtain ⟨t, live, job⟩ := c.jobs j running
  intro same
  rw [same, ← job.source] at other
  exact other (List.mem_map_of_mem live)

theorem Coherent.retired_id (c : Coherent m) {r : Retired} (kept : r ∈ m.retired) :
    r.entry.id ∉ m.tables.map (·.id) := by
  have nodup := c.ids
  rw [entries, List.map_append, List.map_append] at nodup
  have apart := (List.nodup_append.mp nodup).2.2
  intro listed
  have among : r.entry.id ∈ (m.retired.map (·.entry)).map (·.id) := List.mem_map_of_mem (List.mem_map_of_mem kept)
  exact apart _ listed _ (List.mem_append_left _ among) rfl

theorem Coherent.target_id (c : Coherent m) {j : Job} (running : j ∈ m.jobs) :
    j.target.id ∉ m.tables.map (·.id) := by
  have nodup := c.ids
  rw [entries, List.map_append, List.map_append] at nodup
  have apart := (List.nodup_append.mp nodup).2.2
  intro listed
  have among : j.target.id ∈ (m.jobs.map (·.target)).map (·.id) := List.mem_map_of_mem (List.mem_map_of_mem running)
  exact apart _ listed _ (List.mem_append_right _ among) rfl

/-- Tables come and go around a job, never under it. -/
theorem Move.sourced (move : Move m m' new) (c : Coherent m) (sourced : Sourced m) : Sourced m' := by
  intro j running t live from_
  cases move with
  | quiet tables jobs retired next => exact sourced j (jobs ▸ running) t (tables ▸ live) from_
  | create entry id segments schema absent tables jobs retired next =>
    rw [jobs] at running
    rw [tables] at live
    rcases mem_insertByKey.mp live with rfl | live
    · refine absurd from_ (c.source_ne running ?_)
      intro listed
      obtain ⟨u, live', same⟩ := List.mem_map.mp listed
      have := c.ids_below u (entries_of_table live')
      omega
    · exact sourced j running t live from_
  | update spot u whole same segments tables jobs retired next =>
    rw [jobs] at running
    rw [tables] at live
    rcases Located.mem_replaced.mp live with rfl | live
    · rw [same] at from_ ⊢
      have old := sourced j running spot.found (by simp [whole]) from_
      exact ⟨old.engine, old.origin, old.next⟩
    · exact sourced j running t (by simp [whole, live]) from_
  | plan spot job whole idle source id segments planned tables jobs retired next =>
    rw [jobs] at running
    rw [tables] at live
    rcases List.mem_append.mp running with running | new
    · exact sourced j running t live from_
    · rw [List.mem_singleton.mp new] at from_ ⊢
      obtain ⟨target, ops, planned, made⟩ := planned
      have found : spot.found ∈ m.tables := by simp [whole]
      rw [c.table_unique live found (from_.trans source), made]
      exact Planned.madeFrom (planAlter_spec planned (c.schemas _ (entries_of_table found))) _
  | carry spot source job whole found from' same sameSource segments handled tables jobs retired next =>
    rw [jobs] at running
    rw [tables] at live
    rcases Located.mem_replaced.mp running with rfl | running
    · have old := sourced spot.found (by simp [whole]) t live (from_.trans sameSource)
      rw [same]
      exact ⟨old.engine, old.origin, old.next⟩
    · exact sourced j (by simp [whole, running]) t live from_
  | cancel spot whole tables jobs retired next =>
    rw [jobs] at running
    exact sourced j (by simp [whole, running]) t (tables ▸ live) from_
  | swap job source u r wholeJobs wholeTables from' same entry reason successors tables jobs retired next =>
    rw [jobs] at running
    rw [tables] at live
    have running' : j ∈ m.jobs := by simp [wholeJobs, running]
    rcases mem_insertByKey.mp live with rfl | live
    · rw [same] at from_
      exact absurd from_ (c.source_ne running' (c.target_id (j := job.found) (by simp [wholeJobs])))
    · exact sourced j running' t (by simp [wholeTables, live]) from_
  | revert r cur u old wholeRetired wholeTables reason named idle successors id name schema fields segments
      entry oldReason tables jobs retired next =>
    rw [jobs] at running
    rw [tables] at live
    rcases mem_insertByKey.mp live with rfl | live
    · rw [id] at from_
      exact absurd from_ (c.source_ne running (c.retired_id (r := r.found) (by simp [wholeRetired])))
    · exact sourced j running t (by simp [wholeTables, live]) from_
  | drop spot r whole idle entry reason tables jobs retired next =>
    rw [jobs] at running
    rw [tables] at live
    exact sourced j running t (by simp [whole, live]) from_
  | undrop r whole reason absent tables jobs retired next =>
    rw [jobs] at running
    rw [tables] at live
    rcases mem_insertByKey.mp live with rfl | live
    · exact absurd from_ (c.source_ne running (c.retired_id (r := r.found) (by simp [whole])))
    · exact sourced j running t live from_

theorem Sourced.empty : Sourced Manifest.empty := by
  intro j running
  cases running

/-- Between commits no tombstone is newer than the manifest. -/
def TombstonesBelow (m : Manifest) : Prop := ∀ t ∈ m.entries, ∀ x ∈ t.tombstones, x.seq ≤ m.version

theorem RenamedTombstone.seqs {old new : List SchemaField} {ts us : List Tombstone} {bound : Nat}
    (renamed : List.Forall₂ (RenamedTombstone old new) ts us) (below : ∀ x ∈ ts, x.seq ≤ bound) :
    ∀ x ∈ us, x.seq ≤ bound := by
  intro x member
  obtain ⟨y, inside, same⟩ := List.Forall₂.source renamed member
  rw [same.1]
  exact below y inside

/-- Inside a commit the tombstones are at most at the version it lands at. -/
theorem Remade.tombstones {e : Edit} {t : TableEntry} (made : Remade m e t)
    (below : ∀ t ∈ m.entries, ∀ x ∈ t.tombstones, x.seq ≤ m.version + 1) :
    ∀ x ∈ t.tombstones, x.seq ≤ m.version + 1 := by
  cases made with
  | created new => simp [new.tombstones]
  | @added t segments live aligned => exact below t (entries_of_table live)
  | @thinned t ids live => exact below t (entries_of_table live)
  | @marked t predicates stored live each =>
    intro x member
    rcases List.mem_append.mp member with old | new
    · exact below t (entries_of_table live) x old
    · rw [List.mem_singleton.mp new]
  | @planned t target ops live plan => simp [(planAlter_frame plan).2.2]
  | @advanced j j' source reused rewritten segments carried running isJob live from_ advanced =>
    rw [advanced.job]
    exact below j.target (entries_of_job running)
  | @swapped j source tombstones running isJob live from_ handled renamed =>
    exact RenamedTombstone.seqs renamed (below source (entries_of_table live))
  | @reverted r cur tombstones at_ kept reason named live stale renamed =>
    intro x member
    rcases List.mem_append.mp member with old | since
    · exact below _ (entries_of_retired kept) x old
    · refine RenamedTombstone.seqs renamed ?_ x since
      intro y inside
      exact below cur (entries_of_table live) y (List.mem_of_mem_filter inside)
  | @emptied t live => simp

theorem tombstonesBelow_of_run {P : Manifest → Edit → Prop} {commits : List Timed} (admits : Admits P m commits)
    (below : m.TombstonesBelow) : (m.run commits).TombstonesBelow := by
  refine run_staged_invariant TombstonesBelow (fun m => ∀ t ∈ m.entries, ∀ x ∈ t.tombstones, x.seq ≤ m.version + 1)
    ?_ ?_ ?_ admits below
  · exact fun m below t inside x member => (below t inside x member).trans (Nat.le_succ _)
  · intro nowMs m e m' _ during applied t inside
    rw [(applyEdit_counters applied).version]
    rcases applyEdit_remade applied t inside with old | made
    · exact during t old
    · exact made.tombstones during
  · exact fun m during => during

end Adelie.Manifest
