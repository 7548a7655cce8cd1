import Adelie.Manifest.Stem
import Adelie.Manifest.WellFormed

namespace Adelie.Manifest

variable {m m' : Manifest} {table : TableName} {version nowMs : Nat}

/-- The segments of every definition lie well on its schema. -/
def EntriesOk (m : Manifest) : Prop := ∀ e ∈ m.entries, e.Arranged

theorem unreferenced {id : Nat} {e : TableEntry} (inside : e ∈ m.entries)
    (fresh : m.referencesSegment id = false) : id ∉ e.segmentIds :=
  fun held => not_references_iff.mp fresh (references_of_entry inside held)

/-- What AdvanceJob adds to a target is new to it: handled segments are refused. -/
theorem advanced_arranged {j j' : Job} {source : TableEntry} {reused rewritten : List Nat}
    {segments carried : List SegmentEntry} (c : Coherent m) (ok : EntriesOk m) (running : j ∈ m.jobs)
    (live : source ∈ m.tables) (from_ : source.id = j.source)
    (advanced : Advanced source j reused rewritten segments carried j') (new : m.NewSegments segments)
    (once : reused.Nodup) (files : FilesBelow j.target segments) : j'.target.Arranged := by
  have before := c.jobFor running live from_
  have target := ok _ (entries_of_job running)
  have positive := (c.schemas _ (entries_of_job running)).next_pos
  have ids := advanced.carried_ids
  rw [advanced.job]
  refine target.of_more ?_ ?_ ?_ ?_
  · rw [List.map_append, ids]
    refine List.nodup_append.mpr ⟨once, new.nodup, ?_⟩
    rintro id wanted id' brought rfl
    obtain ⟨s, inside, rfl⟩ := List.mem_map.mp brought
    exact unreferenced (entries_of_table live) (new.fresh s inside).1
      (advanced.live _ (List.mem_append_left _ wanted))
  · intro s member held
    rcases List.mem_append.mp member with member | member
    · have wanted : s.id ∈ reused := ids ▸ List.mem_map_of_mem member
      have listed := List.mem_append_left rewritten wanted
      exact advanced.unhandled _ listed (before.carried _ held (advanced.live _ listed))
    · exact unreferenced (entries_of_job running) (new.fresh s member).1 held
  · intro s member
    rcases List.mem_append.mp member with member | member
    · obtain ⟨_, _, s₀, _, _, rfl⟩ := List.Forall₂.source advanced.projected member
      exact projectOnto_aligned s₀ _
    · exact advanced.aligned s member
  · intro s member
    rcases List.mem_append.mp member with member | member
    · obtain ⟨_, _, s₀, inside, _, rfl⟩ := List.Forall₂.source advanced.projected member
      refine (projectOnto_aligned s₀ _).fileIds_below target.fields_below ?_
      intro id listed
      rcases projectOnto_fileFieldIds listed with rfl | listed
      · exact positive
      · exact ((ok _ (entries_of_table live)).files_below s₀ inside id listed).trans_le before.fields
    · exact (advanced.aligned s member).fileIds_below target.fields_below (files s member)

theorem restored_arranged {r : Retired} {cur : TableEntry} {tombstones : List Tombstone} (c : Coherent m)
    (ok : EntriesOk m) (kept : r ∈ m.retired) (reason : r.reason = .swapped) (live : cur ∈ m.tables) :
    (restored r cur tombstones).Arranged := by
  have old := ok _ (entries_of_retired kept)
  have now := ok _ (entries_of_table live)
  have base : { r.entry with
      nextFieldId := max r.entry.nextFieldId cur.nextFieldId
      tombstones := r.entry.tombstones ++ tombstones }.Arranged := by
    refine ⟨old.sorted, old.nodup, old.aligned, ?_, ?_⟩
    · exact fun f member => (old.fields_below f member).trans_le (Nat.le_max_left _ _)
    · exact fun s member id listed => (old.files_below s member id listed).trans_le (Nat.le_max_left _ _)
  have since : ∀ s ∈ (cur.segments.filter fun s => !r.successorSegments.contains s.id).map
      (·.projectOnto r.entry.schema), ∃ s₀ ∈ cur.segments,
      s₀.id ∉ r.successorSegments ∧ s = s₀.projectOnto r.entry.schema := by
    intro s member
    obtain ⟨s₀, inside, rfl⟩ := List.mem_map.mp member
    obtain ⟨inside, later⟩ := List.mem_filter.mp inside
    exact ⟨s₀, inside, by simpa using later, rfl⟩
  refine base.of_more ?_ ?_ ?_ ?_
  · rw [List.map_map]
    exact now.nodup.sublist (List.filter_sublist.map _)
  · -- what REVERT carries over is not already there: the two share only successors of the swap
    intro s member held
    obtain ⟨s₀, inside, later, rfl⟩ := since s member
    have shared := c.apart _ (mem_current.mpr (.inl live)) r kept s₀.id (List.mem_map_of_mem inside) held
    simp [reason, later] at shared
  · intro s member
    obtain ⟨s₀, _, _, rfl⟩ := since s member
    exact projectOnto_aligned s₀ _
  · intro s member
    obtain ⟨s₀, inside, _, rfl⟩ := since s member
    refine (projectOnto_aligned s₀ _).fileIds_below (t := { r.entry with
      nextFieldId := max r.entry.nextFieldId cur.nextFieldId }) base.fields_below ?_
    intro id listed
    rcases projectOnto_fileFieldIds listed with rfl | listed
    · exact (c.schemas _ (entries_of_retired kept)).next_pos.trans_le (Nat.le_max_left _ _)
    · exact (now.files_below s₀ inside id listed).trans_le (Nat.le_max_right _ _)

theorem Remade.arranged {e : Edit} {t : TableEntry} (made : Remade m e t) (c : Coherent m) (ok : EntriesOk m)
    (provided : m.Provided e) : t.Arranged := by
  cases made with
  | created new =>
    refine ⟨?_, ?_, ?_, new.schemaOk.ids.below, ?_⟩
    all_goals simp [new.segments, TableEntry.segmentIds]
  | @added t segments live aligned =>
    obtain ⟨new, files⟩ := provided
    have found := ok _ (entries_of_table live)
    refine found.of_more new.nodup ?_ aligned ?_
    · intro s member
      exact unreferenced (entries_of_table live) (new.fresh s member).1
    · intro s member
      exact (aligned s member).fileIds_below found.fields_below (files _ live rfl s member)
  | @thinned t ids live => exact (ok _ (entries_of_table live)).of_fewer List.filter_sublist
  | @marked t predicates stored live each => exact (ok _ (entries_of_table live)).of_fewer (.refl _)
  | @planned t target ops live plan =>
    have spec := planAlter_spec plan (c.schemas _ (entries_of_table live))
    refine ⟨?_, ?_, ?_, spec.schema.ids.below, ?_⟩
    all_goals simp [spec.segments, TableEntry.segmentIds]
  | @advanced j j' source reused rewritten segments carried running _ live from_ advanced =>
    obtain ⟨new, once, _, files⟩ := provided
    exact advanced_arranged c ok running live from_ advanced new once (files j running rfl)
  | @swapped j source tombstones running _ live from_ handled renamed =>
    exact (ok _ (entries_of_job running)).of_fewer (.refl _)
  | @reverted r cur tombstones at_ kept reason named live stale renamed =>
    exact restored_arranged c ok kept reason live
  | @emptied t live => exact (ok _ (entries_of_table live)).of_fewer (List.nil_sublist _)

theorem applyEdit_entries {e : Edit} (c : Coherent m) (provided : m.Provided e) (ok : EntriesOk m)
    (applied : applyEdit version nowMs m e = .ok m') : EntriesOk m' := by
  intro t inside
  rcases applyEdit_remade applied t inside with old | made
  · exact ok t old
  · exact made.arranged c ok provided

/-- Every tombstone predicate fits the schema of its definition. -/
def TombstonesFit (m : Manifest) : Prop := ∀ e ∈ m.entries, ∀ t ∈ e.tombstones, ∀ p ∈ t.predicates, p.Fits e.schema

theorem renamed_fits {old new : List SchemaField} {ts us : List Tombstone}
    (renamed : List.Forall₂ (RenamedTombstone old new) ts us) (names : (old.map (·.field.name)).Nodup)
    (types : TypesAgree new old) (fits : ∀ t ∈ ts, ∀ p ∈ t.predicates, p.Fits old) :
    ∀ u ∈ us, ∀ q ∈ u.predicates, q.Fits new := by
  intro u member
  obtain ⟨t, inside, each⟩ := List.Forall₂.source renamed member
  exact each.fits names types (fits t inside)

theorem Remade.fits {e : Edit} {t : TableEntry} (made : Remade m e t) (c : Coherent m) (ok : TombstonesFit m)
    (accounted : m.Accounted e) : ∀ x ∈ t.tombstones, ∀ p ∈ x.predicates, p.Fits t.schema := by
  cases made with
  | created new => simp [new.tombstones]
  | @added t segments live aligned => exact ok t (entries_of_table live)
  | @thinned t ids live => exact ok t (entries_of_table live)
  | @marked t predicates stored live each =>
    intro x member p inside
    rcases List.mem_append.mp member with member | member
    · exact ok _ (entries_of_table live) x member p inside
    · rw [List.mem_singleton.mp member] at inside
      obtain ⟨q, _, kept⟩ := List.Forall₂.source each inside
      exact storedPredicate_fits kept
  | @planned t target ops live plan =>
    simp [(planAlter_spec plan (c.schemas _ (entries_of_table live))).tombstones]
  | @advanced j j' source reused rewritten segments carried running _ live from_ advanced =>
    rw [advanced.job]
    exact ok j.target (entries_of_job running)
  | @swapped j source tombstones running _ live from_ handled renamed =>
    have names := (c.schemas _ (entries_of_table live)).names_nodup
    exact renamed_fits renamed names (c.jobFor running live from_).types (ok _ (entries_of_table live))
  | @reverted r cur tombstones at_ kept reason named live stale renamed =>
    have names := (c.schemas _ (entries_of_table live)).names_nodup
    have types := accounted r at_ _ live rfl
    have fits := renamed_fits renamed names (fun f inside g column same => (types g column f inside same.symm).symm)
      fun t member => ok _ (entries_of_table live) t (List.mem_of_mem_filter member)
    intro x member
    rcases List.mem_append.mp member with member | member
    · exact ok _ (entries_of_retired kept) x member
    · exact fits x member
  | emptied live => simp

theorem applyEdit_fits {e : Edit} (c : Coherent m) (accounted : m.Accounted e) (ok : TombstonesFit m)
    (applied : applyEdit version nowMs m e = .ok m') : TombstonesFit m' := by
  intro t inside
  rcases applyEdit_remade applied t inside with old | made
  · exact ok t old
  · exact made.fits c ok accounted

section SegmentIds

theorem lt_coverSegmentIds {next : Nat} {segments : List SegmentEntry}
    (small : ∀ id ∈ segments.map (·.id), id + 1 < 2 ^ 64) :
    ∀ id ∈ segments.map (·.id), id < coverSegmentIds next segments := by
  intro id member
  unfold coverSegmentIds
  split
  · rename_i maxId greatest
    obtain ⟨inside, most⟩ := List.max?_eq_some_iff.mp greatest
    rw [Nat.mod_eq_of_lt (small maxId inside)]
    have := most id member
    omega
  · rename_i none_
    rw [List.max?_eq_none_iff.mp none_] at member
    cases member

/-- Every referenced id is below the counter, which has not wrapped. -/
def IdsBelow (m : Manifest) : Prop := ∀ id, m.References id → id < m.nextSegmentId ∧ id + 1 < 2 ^ 64

/-- New ids are covered by the counter of the manifest that takes them in. -/
theorem newIds_lt {e : Edit} (below : IdsBelow m) (small : ∀ id ∈ e.newIds, id + 1 < 2 ^ 64)
    (applied : applyEdit version nowMs m e = .ok m') :
    ∀ id ∈ e.newIds, id < m'.nextSegmentId ∧ id + 1 < 2 ^ 64 := by
  have gained : ∀ id, m'.References id → id ∈ e.newIds ∨ id + 1 < 2 ^ 64 := by
    intro id held
    rcases applyEdit_exchange applied with ⟨ids, rfl, rfl⟩ | exchange
    · exact .inr (below id held).2
    · exact (exchange.gained id held).symm.imp_right fun held => (below id held).2
  cases e with
  | addSegments table segments =>
    obtain ⟨spot, whole, _, _, rfl⟩ := addSegments_eq_ok applied
    intro id member
    refine ⟨lt_coverSegmentIds ?_ id (by simpa using .inr (List.mem_map.mp member)), small id member⟩
    intro id listed
    refine (gained id ?_).elim (small id) fun done => done
    exact references_of_entry (entries_of_table (Located.mem_replaced.mpr (.inl rfl))) listed
  | advanceJob job reused rewritten segments =>
    obtain ⟨job, source, carried, job', jobs, _, _, _, _, advanced, rfl⟩ := advanceJob_eq_ok applied
    intro id member
    refine ⟨lt_coverSegmentIds ?_ id ?_, small id member⟩
    · intro id listed
      refine (gained id ?_).elim (small id) fun done => done
      exact references_of_entry (entries_of_job (Located.mem_replaced.mpr (.inl rfl))) listed
    · rw [advanced.job, mem_sorted_ids]
      simpa using .inr (.inr (List.mem_map.mp member))
  | _ => exact nofun

theorem applyEdit_idsBelow {e : Edit} (small : ∀ id ∈ e.newIds, id + 1 < 2 ^ 64) (below : IdsBelow m)
    (applied : applyEdit version nowMs m e = .ok m') : IdsBelow m' := by
  rcases applyEdit_exchange applied with ⟨ids, rfl, rfl⟩ | exchange
  · exact below
  · intro id held
    rcases exchange.gained id held with held | brought
    · obtain ⟨lt, small⟩ := below id held
      exact ⟨lt.trans_le (applyEdit_counters applied).segments, small⟩
    · exact newIds_lt below small applied id brought

end SegmentIds

/-- Every job has an id of its own, which the counter has passed. -/
structure JobIds (m : Manifest) : Prop where
  nodup : (m.jobs.map (·.id)).Nodup
  below : ∀ j ∈ m.jobs, j.id < m.nextJobId

theorem JobIds.of_fewer (ids : JobIds m) (fewer : m'.jobs.Sublist m.jobs) (next : m.nextJobId ≤ m'.nextJobId) :
    JobIds m' :=
  ⟨ids.nodup.sublist (fewer.map _), fun j running => (ids.below j (fewer.subset running)).trans_le next⟩

theorem applyEdit_jobIds {e : Edit} (ids : JobIds m) (applied : applyEdit version nowMs m e = .ok m') :
    JobIds m' := by
  have next := (applyEdit_counters applied).jobs
  have same (jobs : m'.jobs = m.jobs) : JobIds m' := ids.of_fewer (by rw [jobs]) next
  cases e with
  | createTable spec => obtain ⟨_, _, rfl⟩ := createTable_eq_ok applied; exact same rfl
  | addSegments table segments => obtain ⟨_, _, _, _, rfl⟩ := addSegments_eq_ok applied; exact same rfl
  | removeSegments table ids =>
    obtain ⟨_, _, _, _, _, rfl⟩ := removeSegments_eq_ok applied
    exact same (by rw [release_frame])
  | addTombstone table predicates => obtain ⟨_, _, _, _, _, rfl⟩ := addTombstone_eq_ok applied; exact same rfl
  | forgetGarbage ids => cases applied; exact same rfl
  | reserveSegmentIds next => cases applied; exact same rfl
  | createJob table ops =>
    obtain ⟨spot, target, _, _, _, _, rfl⟩ := createJob_eq_ok applied
    refine ⟨?_, ?_⟩
    · rw [List.map_append, List.nodup_append]
      refine ⟨ids.nodup, by simp, ?_⟩
      intro id old id' last same
      obtain ⟨j, running, rfl⟩ := List.mem_map.mp old
      have := ids.below j running
      simp only [List.map_cons, List.map_nil, List.mem_singleton] at last
      omega
    · intro j running
      rcases List.mem_append.mp running with running | running
      · exact (ids.below j running).trans_le next
      · rw [List.mem_singleton.mp running]
        exact Nat.lt_succ_self _
  | advanceJob job reused rewritten segments =>
    obtain ⟨job, source, carried, job', jobs, _, _, _, _, advanced, rfl⟩ := advanceJob_eq_ok applied
    have sameId : job'.id = job.found.id := by rw [advanced.job]
    have listed : (job.replaced job').map (·.id) = m.jobs.map (·.id) := by
      rw [jobs]
      simp [Located.replaced, sameId]
    refine ⟨by rw [listed]; exact ids.nodup, ?_⟩
    intro j running
    have : j.id ∈ m.jobs.map (·.id) := listed ▸ List.mem_map_of_mem running
    obtain ⟨i, running', same⟩ := List.mem_map.mp this
    rw [← same]
    exact ids.below i running'
  | swapJob job =>
    obtain ⟨job, _, _, jobs, _, _, _, _, _, _, rfl⟩ := swapJob_eq_ok applied
    exact ids.of_fewer (by rw [jobs]; exact job.removed_sublist _) next
  | cancelJob job =>
    obtain ⟨job, jobs, _, rfl⟩ := cancelJob_eq_ok applied
    refine ids.of_fewer ?_ next
    rw [release_frame, jobs]
    exact job.removed_sublist _
  | revertTable table => obtain ⟨_, _, _, _, _, _, _, _, _, _, _, _, rfl⟩ := revertTable_eq_ok applied; exact same rfl
  | dropTable table => obtain ⟨_, _, _, _, rfl⟩ := dropTable_eq_ok applied; exact same rfl
  | undropTable table => obtain ⟨_, _, _, _, _, _, rfl⟩ := undropTable_eq_ok applied; exact same rfl
  | truncateTable table =>
    obtain ⟨_, _, _, _, rfl⟩ := truncateTable_eq_ok applied
    exact same (by rw [release_frame])
  | expireRetired beforeMs =>
    cases applied
    exact same (by rw [expireRetired_frame])
  | recordMigration name checksum => cases recordMigration_eq_ok applied; exact same rfl

/-- What holds of every reached manifest whatever its REVERTs bring back. -/
structure Sound (m : Manifest) : Prop where
  coherent : Coherent m
  entries : EntriesOk m
  below : IdsBelow m
  jobs : JobIds m

theorem Sound.empty : Sound Manifest.empty :=
  ⟨.empty, nofun, fun id ⟨_, inside, _⟩ => (by cases inside), ⟨.nil, nofun⟩⟩

theorem applyEdit_sound {e : Edit} (provided : m.Provided e) (sound : Sound m)
    (applied : applyEdit version nowMs m e = .ok m') : Sound m' :=
  ⟨applyEdit_coherent provided.fresh sound.coherent applied,
    applyEdit_entries sound.coherent provided sound.entries applied,
    applyEdit_idsBelow provided.small sound.below applied, applyEdit_jobIds sound.jobs applied⟩

theorem Sound.versionless (sound : Sound m) (version : Nat) : Sound { m with version := version } :=
  ⟨sound.coherent.versionless version, sound.entries, sound.below, sound.jobs.nodup, sound.jobs.below⟩

theorem sound_of_run {commits : List Timed} (provided : Admits Provided Manifest.empty commits) :
    Sound (Manifest.empty.run commits) :=
  run_invariant Sound (fun _ _ _ _ _ => applyEdit_sound) (fun _ version sound => sound.versionless version)
    provided .empty

/-- What the store gives every commit: new segments under ids of its own counter, stamped no later
    than the version the commit lands at. -/
def Given (m : Manifest) (e : Edit) : Prop := m.Provided e ∧ m.Stamped e

theorem Sound.of_given {commits : List Timed} (given : Admits Given m commits) (sound : Sound m) :
    Sound (m.run commits) :=
  run_invariant Sound (fun _ _ _ _ _ given => applyEdit_sound given.1) (fun _ version sound => sound.versionless version)
    given sound

theorem SeqsBelow.of_given {commits : List Timed} (given : Admits Given m commits) (below : m.SeqsBelow) :
    (m.run commits).SeqsBelow :=
  seqsBelow_of_run (given.mono fun _ _ => And.right) below

/-- Every manifest a run reaches from the empty one, under callers that account for what they
    supply, is well-formed. -/
theorem wellFormed_of_run (commits : List Timed) (accounted : Admits Accounted Manifest.empty commits) :
    (Manifest.empty.run commits).WellFormed := by
  have fits := run_invariant (fun m => Coherent m ∧ TombstonesFit m) ?_ ?_ accounted ⟨.empty, nofun⟩
  · obtain ⟨c, ok, below, _⟩ := sound_of_run (accounted.mono fun m e => (·.provided))
    refine ⟨c.sorted, c.ids, c.ids_below, ?_, c.sources, ?_, fun e inside => ⟨ok e inside, fits.2 e inside⟩⟩
    · intro j running
      obtain ⟨t, live, job⟩ := c.jobs j running
      exact ⟨t, live, job.source⟩
    · exact fun id held => (below id (referencesSegment_iff.mp held)).1
  · rintro version nowMs m e m' accounted ⟨c, ok⟩ applied
    exact ⟨applyEdit_coherent accounted.provided.fresh c applied, applyEdit_fits c accounted ok applied⟩
  · rintro m version ⟨c, ok⟩
    exact ⟨c.versionless version, ok⟩

section Decidable

instance (m : Manifest) (segments : List SegmentEntry) : Decidable (m.NewSegments segments) :=
  decidable_of_iff ((∀ s ∈ segments, m.referencesSegment s.id = false ∧ s.id ∉ m.garbageIds) ∧
    (segments.map (·.id)).Nodup ∧ ∀ s ∈ segments, s.id + 1 < 2 ^ 64)
    ⟨fun ⟨fresh, nodup, small⟩ => ⟨fresh, nodup, small⟩, fun new => ⟨new.fresh, new.nodup, new.small⟩⟩

instance (t : TableEntry) (segments : List SegmentEntry) : Decidable (FilesBelow t segments) :=
  inferInstanceAs (Decidable (∀ s ∈ segments, ∀ id ∈ s.fileFieldIds, id < t.nextFieldId))

instance (a b : List SchemaField) : Decidable (TypesAgree a b) :=
  inferInstanceAs (Decidable (∀ f ∈ a, ∀ g ∈ b, f.id = g.id → f.field.ty = g.field.ty))

instance (m : Manifest) (e : Edit) : Decidable (m.Provided e) :=
  match e with
  | .addSegments _ _ => inferInstanceAs (Decidable (_ ∧ ∀ t ∈ m.tables, _ → _))
  | .advanceJob _ _ _ _ => inferInstanceAs (Decidable (_ ∧ _ ∧ _ ∧ ∀ j ∈ m.jobs, _ → _))
  | .createTable _ | .removeSegments _ _ | .addTombstone _ _ | .forgetGarbage _ | .reserveSegmentIds _
  | .createJob _ _ | .swapJob _ | .cancelJob _ | .revertTable _ | .dropTable _ | .undropTable _
  | .truncateTable _ | .expireRetired _ | .recordMigration _ _ => isTrue True.intro

instance (m : Manifest) (e : Edit) : Decidable (m.Given e) :=
  inferInstanceAs (Decidable (m.Provided e ∧ m.Stamped e))

instance (m : Manifest) (e : Edit) : Decidable (m.Accounted e) :=
  match e with
  | .addSegments _ _ => inferInstanceAs (Decidable (_ ∧ ∀ t ∈ m.tables, _ → _))
  | .advanceJob _ _ _ _ => inferInstanceAs (Decidable (_ ∧ _ ∧ _ ∧ ∀ j ∈ m.jobs, _ → _))
  | .revertTable _ => inferInstanceAs (Decidable (∀ r ∈ rposition _ m.retired, ∀ t ∈ m.tables, _ → _))
  | .createTable _ | .removeSegments _ _ | .addTombstone _ _ | .forgetGarbage _ | .reserveSegmentIds _
  | .createJob _ _ | .swapJob _ | .cancelJob _ | .dropTable _ | .undropTable _ | .truncateTable _
  | .expireRetired _ | .recordMigration _ _ => isTrue True.intro

end Decidable

/-- A column renamed and one added over a table with a row and a delete, then taken back. -/
def revertedRun : List Timed :=
  let t : TableName := ⟨"d", "t"⟩
  let s : SegmentEntry := ⟨7, "_", 2, 1, 1, 0, [⟨1, 0, none, none⟩], [], "d/1", [1], []⟩
  [(⟨0, [.createTable (.new t [⟨"a", .int64⟩])]⟩, 0), (⟨1, [.addSegments t [s]]⟩, 1),
    (⟨2, [.addTombstone t [⟨"a", .eq, .int64 ⟨3, by decide⟩⟩]]⟩, 2),
    (⟨3, [.createJob t [.renameColumn "a" "b", .addColumn ⟨"c", .string⟩]]⟩, 3),
    (⟨4, [.advanceJob 1 [7] [] []]⟩, 4), (⟨5, [.swapJob 1]⟩, 5), (⟨6, [.revertTable t]⟩, 6)]

theorem wellFormed_revertedRun :
    Admits Accounted Manifest.empty revertedRun ∧ (Manifest.empty.run revertedRun).WellFormed :=
  have accounted : Admits Accounted Manifest.empty revertedRun := by decide
  ⟨accounted, wellFormed_of_run revertedRun accounted⟩

/-- Whether the id lists of an AdvanceJob are free of repetition. -/
def once : Edit → Bool
  | .advanceJob _ reused rewritten segments =>
    reused.Nodup && rewritten.Nodup && (segments.map (·.id)).Nodup
  | _ => true

/-- A flush that lists a field id its table never handed out. -/
def strayRun : List Timed :=
  let t : TableName := ⟨"d", "t"⟩
  let s : SegmentEntry := ⟨7, "_", 2, 1, 1, 0, [⟨1, 0, none, none⟩], [], "d/1", [1], [99]⟩
  [(⟨0, [.createTable (.new t [⟨"a", .int64⟩])]⟩, 0), (⟨1, [.addSegments t [s]]⟩, 1)]

theorem strayRun_not_wellFormed :
    Admits (fun m e => m.Fresh e ∧ once e) Manifest.empty strayRun ∧
    ¬(Manifest.empty.run strayRun).WellFormed := by
  refine ⟨by decide, fun ok => ?_⟩
  have stray : ∃ e ∈ (Manifest.empty.run strayRun).entries, ∃ s ∈ e.segments, ∃ id ∈ s.fileIds,
      ¬id < e.nextFieldId := by decide
  obtain ⟨e, inside, s, member, id, listed, above⟩ := stray
  exact above ((ok.entries e inside).files_below s member id listed)

end Adelie.Manifest
