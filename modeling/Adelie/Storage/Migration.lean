import Adelie.Storage.Compaction
import Adelie.Storage.Migrate

namespace Adelie

open Manifest

/-- The rows of a segment, each with the seq that decides which tombstones reach it. -/
def tagged (files : Files) (schema : List SchemaField) (s : SegmentEntry) : List (Nat × Row) :=
  (rowsOf files schema s).map fun row => (s.seq, row)

def survives (schema : List SchemaField) (tombstones : List Tombstone) (row : Nat × Row) : Bool :=
  !deleted schema (tombstones.filter fun x => row.1 < x.seq) row.2

theorem flatMap_visible {files : Files} {schema : List SchemaField} {tombstones : List Tombstone}
    (segments : List SegmentEntry) : segments.flatMap (visible files schema tombstones) =
      ((segments.flatMap (tagged files schema)).filter (survives schema tombstones)).map Prod.snd := by
  rw [List.filter_flatMap, List.map_flatMap]
  apply List.flatMap_congr
  intro s _
  rw [tagged, List.filter_map, List.map_map, visible]
  exact (List.map_id' _).symm

/-- How far a job has carried its source: what the target holds is what it has handled. -/
structure Carrying (files : Files) (table : TableName) (jobId : Nat) (t : TableEntry) (j : Job) : Prop where
  named : t.name = table
  job : j.id = jobId
  source : t.id = j.source
  engine : j.target.engine = t.engine
  origin : ∀ f ∈ j.target.schema, f.id ∈ t.schema.map (·.id) ∨ t.nextFieldId ≤ f.id
  handled : ∀ id ∈ j.handled, id ∈ t.segmentIds
  seqs : ∀ o ∈ j.target.segments, ∃ s ∈ t.segments, o.seq = s.seq
  opens : t.schema ≠ [] → (∀ s ∈ t.segments, Opens files t.schema s) →
    ∀ o ∈ j.target.segments, Opens files j.target.schema o
  rows : t.schema ≠ [] → (j.target.segments.flatMap (tagged files j.target.schema)).Perm
    ((t.segments.filter fun s => j.handled.contains s.id).flatMap (tagged files j.target.schema))

/-- The steps between CREATE and SWAP: flushes, deletes, and job steps. Those of job `id` carry a
    source segment once, as it is or rewritten. -/
def Carries (files : Files) (id : Nat) (m : Manifest) : Edit → Prop
  | .addSegments _ _ | .addTombstone _ _ => True
  | .advanceJob job reused rewritten segments => job = id → (reused ++ rewritten).Nodup ∧
    ∀ j ∈ m.jobs, j.id = id → ∀ t ∈ m.tables, t.id = j.source → Rewritten files t j.target rewritten segments
  | _ => False

section Source

variable {files : Files} {t : TableEntry} {s : SegmentEntry}

/-- What a target reads of its source's files: shared columns, and none of the new ones. -/
theorem Carrying.overlaps {table : TableName} {jobId : Nat} {j : Job} (carrying : Carrying files table jobId t j) (arranged : t.Arranged)
    (member : s ∈ t.segments) : Overlaps t.schema j.target.schema s.fileIds := by
  intro f inside
  refine (carrying.origin f inside).imp_right fun new listed => ?_
  have := arranged.files_below s member f.id listed
  omega

theorem TableEntry.Arranged.fileIds_ne_nil (arranged : t.Arranged) (nonempty : t.schema ≠ []) (member : s ∈ t.segments) :
    s.fileIds ≠ [] := by
  unfold SegmentEntry.fileIds
  split
  · rw [(arranged.aligned s member).1]
    simpa using nonempty
  · rename_i listed
    simpa using listed

/-- Flushes and deletes leave what has been carried where it is. -/
theorem Carrying.of_more {table : TableName} {jobId : Nat} {j : Job} {segments : List SegmentEntry} {tombstones : List Tombstone}
    (carrying : Carrying files table jobId t j) (more : ∀ s ∈ t.segments, s ∈ segments)
    (same : (segments.filter fun s => j.handled.contains s.id).Perm
      (t.segments.filter fun s => j.handled.contains s.id)) :
    Carrying files table jobId { t with segments := segments, tombstones := tombstones } j := by
  refine ⟨carrying.named, carrying.job, carrying.source, carrying.engine, carrying.origin, ?_, ?_, ?_, ?_⟩
  · intro id listed
    obtain ⟨s, member, rfl⟩ := List.mem_map.mp (carrying.handled id listed)
    exact List.mem_map_of_mem (more s member)
  · intro o inside
    obtain ⟨s, member, seq⟩ := carrying.seqs o inside
    exact ⟨s, more s member, seq⟩
  · intro nonempty open_
    exact carrying.opens nonempty fun s member => open_ s (more s member)
  · intro nonempty
    exact (carrying.rows nonempty).trans (same.symm.flatMap_right _)

end Source

/-- The source segments behind the ids of a step. -/
theorem picked_of_forall₂ {β : Type} {t : TableEntry} {R : SegmentEntry → β → Prop} {ids : List Nat} {made : List β}
    (each : List.Forall₂ (fun id b => ∃ s ∈ t.segments, s.id = id ∧ R s b) ids made) :
    ∃ picked : List SegmentEntry, picked.map (·.id) = ids ∧ (∀ s ∈ picked, s ∈ t.segments) ∧
      List.Forall₂ R picked made := by
  induction each with
  | nil => exact ⟨[], rfl, by simp, .nil⟩
  | cons head _ tail =>
    obtain ⟨s, live, rfl, related⟩ := head
    obtain ⟨picked, ids, lives, all⟩ := tail
    exact ⟨s :: picked, by simp [ids], List.forall_mem_cons.mpr ⟨live, lives⟩, .cons related all⟩

section Advance

variable {files : Files} {t : TableEntry} {schema : List SchemaField}

theorem tagged_rewritten {picked : List SegmentEntry} {parts : List (List SegmentEntry)}
    (each : List.Forall₂ (RewrittenAs files schema) picked parts) :
    (parts.flatten.flatMap (tagged files schema)).Perm (picked.flatMap (tagged files schema)) := by
  induction each with
  | nil => exact .refl _
  | @cons s part picked parts head _ tail =>
    rw [List.flatten_cons, List.flatMap_append, List.flatMap_cons]
    refine .append ?_ tail
    have stamped : part.flatMap (tagged files schema) = (part.flatMap (rowsOf files schema)).map fun row => (s.seq, row) := by
      rw [List.map_flatMap]
      apply List.flatMap_congr
      intro o member
      rw [tagged, head.seq o member]
    rw [stamped]
    exact head.rows.map _

theorem tagged_reused {picked carried : List SegmentEntry}
    (rows : ∀ s ∈ picked, rowsOf files schema (s.projectOnto schema) = rowsOf files schema s)
    (each : List.Forall₂ (fun s s' => s' = s.projectOnto schema) picked carried) :
    carried.flatMap (tagged files schema) = picked.flatMap (tagged files schema) := by
  induction each with
  | nil => rfl
  | @cons s s' picked carried head _ tail =>
    subst head
    rw [List.flatMap_cons, List.flatMap_cons, tail fun s member => rows s (.tail _ member), tagged, tagged,
      rows s (.head _)]
    rfl

/-- A job step carries the segments it names, and nothing else. -/
theorem Carrying.advance {table : TableName} {jobId : Nat} {j j' : Job} {reused rewritten : List Nat} {segments carried : List SegmentEntry}
    (carrying : Carrying files table jobId t j) (arranged : t.Arranged) (types : TypesAgree j.target.schema t.schema)
    (advanced : Advanced t j reused rewritten segments carried j') (once : (reused ++ rewritten).Nodup)
    (written : Rewritten files t j.target rewritten segments) : Carrying files table jobId t j' := by
  obtain ⟨kept, keptIds, keptLive, projected⟩ := picked_of_forall₂ advanced.projected
  obtain ⟨parts, rfl, each⟩ := written
  obtain ⟨taken, takenIds, takenLive, rewrites⟩ := picked_of_forall₂ each
  have brought : ∀ o ∈ carried ++ parts.flatten, (∃ s ∈ t.segments, o = s.projectOnto j.target.schema) ∨
      ∃ s ∈ t.segments, o.seq = s.seq ∧ Opens files j.target.schema o := by
    intro o member
    rcases List.mem_append.mp member with member | member
    · obtain ⟨s, inside, same⟩ := List.Forall₂.source projected member
      exact .inl ⟨s, keptLive s inside, same⟩
    · obtain ⟨part, among, inside⟩ := List.mem_flatten.mp member
      obtain ⟨s, picked, as⟩ := List.Forall₂.source rewrites among
      exact .inr ⟨s, takenLive s picked, as.seq o inside, as.opens o inside⟩
  rw [advanced.job]
  refine ⟨carrying.named, carrying.job, carrying.source, carrying.engine, carrying.origin, ?_, ?_, ?_, ?_⟩
  · intro id listed
    rcases List.mem_append.mp (mem_sortByKey.mp listed) with old | new
    · exact carrying.handled id old
    · exact advanced.live id new
  · intro o member
    rcases List.mem_append.mp (mem_sortByKey.mp member) with old | new
    · exact carrying.seqs o old
    · rcases brought o new with ⟨s, live, rfl⟩ | ⟨s, live, seq, _⟩
      · exact ⟨s, live, rfl⟩
      · exact ⟨s, live, seq⟩
  · intro nonempty open_ o member
    rcases List.mem_append.mp (mem_sortByKey.mp member) with old | new
    · exact carrying.opens nonempty open_ o old
    · rcases brought o new with ⟨s, live, rfl⟩ | ⟨s, live, _, opens⟩
      · exact opens_projectOnto (arranged.fileIds_ne_nil nonempty live) (arranged.aligned s live).1 types (open_ s live)
      · exact opens
  · intro nonempty
    have reread : ∀ s ∈ kept, rowsOf files j.target.schema (s.projectOnto j.target.schema) =
        rowsOf files j.target.schema s := fun s member =>
      rowsOf_projectOnto (arranged.fileIds_ne_nil nonempty (keptLive s member))
        (arranged.aligned s (keptLive s member)).1 (carrying.overlaps arranged (keptLive s member))
    -- what is handled now was handled before, or is named by the step
    have split_ : (t.segments.filter fun s => (sortByKey id (j.handled ++ (reused ++ rewritten))).contains s.id).Perm
        ((t.segments.filter fun s => j.handled.contains s.id) ++ (kept ++ taken)) := by
      have either : (fun s : SegmentEntry => (sortByKey id (j.handled ++ (reused ++ rewritten))).contains s.id) =
          fun s => j.handled.contains s.id || (reused ++ rewritten).contains s.id := by
        funext s
        rw [Bool.eq_iff_iff]
        simp [mem_sortByKey]
      rw [either]
      refine (filter_or_perm ?_).trans (.append_left _ ?_)
      · intro s _ handled
        rw [Bool.eq_false_iff]
        intro named
        exact advanced.unhandled s.id (by simpa using named) (by simpa using handled)
      · refine filter_keys_perm arranged.nodup (by simp [keptIds, takenIds]) once ?_
        exact List.forall_mem_append.mpr ⟨keptLive, takenLive⟩
    refine ((sortByKey_perm SegmentEntry.order _).flatMap_right _).trans ?_
    refine .trans ?_ (split_.flatMap_right _).symm
    rw [List.flatMap_append, List.flatMap_append, List.flatMap_append, List.flatMap_append]
    exact (carrying.rows nonempty).append
      ((List.Perm.of_eq (tagged_reused reread projected)).append (tagged_rewritten rewrites))

end Advance

section Run

variable {files : Files} {table : TableName} {jobId version nowMs : Nat} {m m' : Manifest}

/-- Job `jobId` is running, and has carried what it has handled. -/
def InProgress (files : Files) (table : TableName) (jobId : Nat) (m : Manifest) : Prop :=
  ∃ t ∈ m.tables, ∃ j ∈ m.jobs, Carrying files table jobId t j

theorem Manifest.JobIds.unique (ids : JobIds m) {i j : Job} (running : i ∈ m.jobs) (running' : j ∈ m.jobs)
    (same : i.id = j.id) : i = j :=
  List.inj_on_of_nodup_map ids.nodup running running' same

/-- New ids are none that a running job has handled. -/
theorem filter_handled {t : TableEntry} {j : Job} {segments : List SegmentEntry} (live : t ∈ m.tables)
    (new : m.NewSegments segments) (handled : ∀ id ∈ j.handled, id ∈ t.segmentIds) :
    ((sortByKey SegmentEntry.order (t.segments ++ segments)).filter fun s => j.handled.contains s.id).Perm
      (t.segments.filter fun s => j.handled.contains s.id) := by
  refine ((sortByKey_perm _ _).filter _).trans ?_
  have none_ : (segments.filter fun s => j.handled.contains s.id) = [] := by
    rw [List.filter_eq_nil_iff]
    intro s member listed
    exact unreferenced (entries_of_table live) (new.fresh s member).1 (handled s.id (by simpa using listed))
  rw [List.filter_append, none_, List.append_nil]

theorem applyEdit_inProgress {e : Edit} (sound : Sound m) (given : m.Given e) (carries : Carries files jobId m e)
    (progress : InProgress files table jobId m) (applied : applyEdit version nowMs m e = .ok m') :
    InProgress files table jobId m' := by
  obtain ⟨t, live, j, running, carrying⟩ := progress
  cases e with
  | addSegments name segments =>
    obtain ⟨spot, whole, _, _, rfl⟩ := addSegments_eq_ok applied
    rcases Located.mem_replaced.mp (whole ▸ live) with rfl | elsewhere
    · refine ⟨_, Located.mem_replaced.mpr (.inl rfl), j, running, carrying.of_more ?_ ?_⟩
      · exact fun s member => mem_sortByKey.mpr (List.mem_append_left _ member)
      · exact filter_handled live given.1.1 carrying.handled
    · exact ⟨t, Located.mem_replaced.mpr (.inr elsewhere), j, running, carrying⟩
  | addTombstone name predicates =>
    obtain ⟨spot, stored, whole, _, _, rfl⟩ := addTombstone_eq_ok applied
    rcases Located.mem_replaced.mp (whole ▸ live) with rfl | elsewhere
    · exact ⟨_, Located.mem_replaced.mpr (.inl rfl), j, running, carrying.of_more (fun s => id) (.refl _)⟩
    · exact ⟨t, Located.mem_replaced.mpr (.inr elsewhere), j, running, carrying⟩
  | advanceJob job reused rewritten segments =>
    obtain ⟨spot, source, carried, job', jobs, sameJob, _, tables, from_, advanced, rfl⟩ := advanceJob_eq_ok applied
    rcases Located.mem_replaced.mp (jobs ▸ running) with rfl | elsewhere
    · have same : source.found = t :=
        sound.coherent.table_unique (by simp [tables]) live (from_.trans carrying.source.symm)
      rw [same] at advanced
      obtain ⟨once, written⟩ := carries (sameJob.symm.trans carrying.job)
      have types := (sound.coherent.jobFor running live carrying.source).types
      refine ⟨t, live, job', Located.mem_replaced.mpr (.inl rfl), ?_⟩
      exact carrying.advance (sound.entries t (entries_of_table live)) types advanced once
        (written _ running carrying.job t live carrying.source)
    · exact ⟨t, live, j, Located.mem_replaced.mpr (.inr elsewhere), carrying⟩
  | _ => exact carries.elim

theorem createJob_inProgress {ops : List Alter} (files : Files) (sound : Sound m)
    (made : m.createJob table ops = .ok m') : InProgress files table m.nextJobId m' := by
  obtain ⟨spot, target, whole, named, _, planned, rfl⟩ := createJob_eq_ok made
  have live : spot.found ∈ m.tables := by simp [whole]
  have plan := planAlter_spec planned (sound.coherent.schemas _ (entries_of_table live))
  refine ⟨spot.found, live, _, List.mem_append_right _ (.head _), named, rfl, rfl, plan.engine, ?_, by simp, ?_, ?_, ?_⟩
  · intro f member
    rcases plan.descends.origin f member with new | ⟨g, old, same, _⟩
    · exact .inr new
    · exact .inl (List.mem_map.mpr ⟨g, old, same⟩)
  · simp [plan.segments]
  · simp [plan.segments]
  · simp [plan.segments]

/-- The rows a swap leaves visible are the rows the source showed, on the new schema. -/
theorem Carrying.swapped_rows {t : TableEntry} {j : Job} {tombstones : List Tombstone}
    (carrying : Carrying files table jobId t j) (arranged : t.Arranged) (ok : j.target.SchemaOk)
    (types : TypesAgree j.target.schema t.schema) (done : ∀ id ∈ t.segmentIds, id ∈ j.handled)
    (renamed : List.Forall₂ (RenamedTombstone t.schema j.target.schema) t.tombstones tombstones)
    (columns : j.target.schema ≠ []) {rows : List Row} (scanned : scanAll files t = .ok rows) :
    ∃ rows', scanAll files { j.target with tombstones := tombstones } = .ok rows' ∧
      rows'.Perm (rows.map (projectRow t.schema j.target.schema)) := by
  obtain ⟨nonempty, engine, opens, checked, rfl⟩ := scanAll_eq_ok_iff.mp scanned
  refine ⟨_, scanAll_eq_ok_iff.mpr ⟨columns, by rw [← engine, ← carrying.engine],
    carrying.opens nonempty opens, ?_, rfl⟩, ?_⟩
  · intro o member
    obtain ⟨s, live, seq⟩ := carrying.seqs o member
    have passed := checkTombstones_renamed ok.names_nodup types renamed (checked s live)
    rw [← seq] at passed
    exact passed
  · have all : (t.segments.filter fun s => j.handled.contains s.id) = t.segments := by
      rw [List.filter_eq_self]
      intro s member
      simpa using done s.id (List.mem_map_of_mem member)
    have carried := carrying.rows nonempty
    rw [all] at carried
    have moved := ((carried.filter (survives j.target.schema tombstones)).map Prod.snd)
    rw [← flatMap_visible, ← flatMap_visible] at moved
    refine moved.trans (.of_eq ?_)
    rw [List.map_flatMap]
    apply List.flatMap_congr
    intro s member
    obtain ⟨file, found, _⟩ := opens s member
    have overlaps := carrying.overlaps arranged member
    unfold visible
    rw [rowsOf_of_file found, rowsOf_of_file found, List.filter_map, List.filter_map, List.map_map]
    have same : ((fun row => !deleted j.target.schema (tombstones.filter fun x => s.seq < x.seq) row) ∘
        rowAs s.fileIds j.target.schema) = (fun row => !deleted t.schema (t.tombstones.filter fun x => s.seq < x.seq) row) ∘
        rowAs s.fileIds t.schema := by
      funext row
      simp only [Function.comp_apply, deleted_renamed ok.names_nodup renamed]
    rw [same]
    apply List.map_congr_left
    intro row _
    exact (projectRow_rowAs overlaps row).symm

/-- A swap of a job in progress. -/
theorem swapJob_rows (sound : Sound m) (progress : InProgress files table jobId m)
    (made : m.swapJob jobId version nowMs = .ok m') :
    ∃ t u, m.table table = some t ∧ m'.table table = some u ∧ (u.schema ≠ [] → ∀ rows, scanAll files t = .ok rows →
      ∃ rows', scanAll files u = .ok rows' ∧ rows'.Perm (rows.map (projectRow t.schema u.schema))) := by
  obtain ⟨t, live, j, running, carrying⟩ := progress
  have applied : applyEdit version nowMs m (.swapJob jobId) = .ok m' := made
  have sorted' := (applyEdit_move applied).sorted sound.coherent
  obtain ⟨spot, source, tombstones, jobs, sameJob, _, tables, from_, done, renamed, rfl⟩ := swapJob_eq_ok made
  have isJob : spot.found = j := sound.jobs.unique (by simp [jobs]) running (sameJob.trans carrying.job.symm)
  rw [isJob] at from_ done renamed sorted'
  have isSource : source.found = t :=
    sound.coherent.table_unique (by simp [tables]) live (from_.trans carrying.source.symm)
  rw [isSource] at done renamed
  have job := sound.coherent.jobFor running live carrying.source
  refine ⟨t, { j.target with tombstones := tombstones }, ?_, ?_, ?_⟩
  · rw [← carrying.named]
    exact Manifest.table_eq_some sound.coherent.sorted live
  · rw [← carrying.named, ← job.name, isJob]
    exact Manifest.table_eq_some (t := { j.target with tombstones := tombstones }) sorted' (mem_insertByKey.mpr (.inl rfl))
  · intro columns rows scanned
    exact carrying.swapped_rows (sound.entries t (entries_of_table live))
      (sound.coherent.schemas _ (entries_of_job running)) job.types done renamed columns scanned

end Run

/-- A migration keeps the rows of its table: whatever is flushed or deleted while it runs, what
    the new definition shows right after the swap is what the old one showed right before it. -/
theorem migration_keeps_rows {files : Files} {history steps : List Timed} {table : TableName} {ops : List Alter}
    {base nowMs base' nowMs' : Nat} {last : List Edit} {created swapped : Manifest}
    (given : Admits Given Manifest.empty history)
    (creates : (Commit.mk base [.createJob table ops]).apply (Manifest.empty.run history) nowMs = .ok created)
    (carries : Admits (fun m e => m.Given e ∧ Carries files (Manifest.empty.run history).nextJobId m e) created steps)
    (carries' : Supplied (applyEdit ((created.run steps).version + 1) nowMs')
      (fun m e => m.Given e ∧ Carries files (Manifest.empty.run history).nextJobId m e) (created.run steps) last)
    (swaps : (Commit.mk base' (last ++ [.swapJob (Manifest.empty.run history).nextJobId])).apply
      (created.run steps) nowMs' = .ok swapped) :
    ∃ before t u, last.foldlM (applyEdit ((created.run steps).version + 1) nowMs') (created.run steps) = .ok before ∧
      before.table table = some t ∧ swapped.table table = some u ∧
      (u.schema ≠ [] → ∀ rows, scanAll files t = .ok rows →
        ∃ rows', scanAll files u = .ok rows' ∧ rows'.Perm (rows.map (projectRow t.schema u.schema))) := by
  have sound := Sound.empty.of_given given
  have start : Sound created ∧ InProgress files table (Manifest.empty.run history).nextJobId created := by
    obtain ⟨next, ran, made⟩ := Except.bind_eq_ok.mp creates
    cases made
    rw [List.foldlM_cons] at ran
    obtain ⟨mid, one, rest⟩ := Except.bind_eq_ok.mp ran
    cases rest
    have provided : (Manifest.empty.run history).Provided (.createJob table ops) := True.intro
    have progress : InProgress files table _ next := createJob_inProgress files sound one
    exact ⟨(applyEdit_sound provided sound one).versionless _, progress⟩
  have keeps : ∀ version nowMs m e m', m.Given e ∧ Carries files (Manifest.empty.run history).nextJobId m e →
      Sound m ∧ InProgress files table (Manifest.empty.run history).nextJobId m →
      applyEdit version nowMs m e = .ok m' →
      Sound m' ∧ InProgress files table (Manifest.empty.run history).nextJobId m' := by
    rintro version nowMs m e m' ⟨given, carries⟩ ⟨sound, progress⟩ applied
    exact ⟨applyEdit_sound given.1 sound applied, applyEdit_inProgress sound given carries progress applied⟩
  have reached := run_invariant _ keeps (fun m version holds => ⟨holds.1.versionless version, holds.2⟩) carries start
  obtain ⟨next, ran, made⟩ := Except.bind_eq_ok.mp swaps
  cases made
  rw [List.foldlM_append] at ran
  obtain ⟨before, ran, swap⟩ := Except.bind_eq_ok.mp ran
  rw [List.foldlM_cons] at swap
  obtain ⟨mid, one, rest⟩ := Except.bind_eq_ok.mp swap
  cases rest
  obtain ⟨sound', progress⟩ := batch_invariant _ (keeps _ _) carries' reached ran
  obtain ⟨t, u, at_, at', rows⟩ := swapJob_rows sound' progress one
  exact ⟨before, t, u, ran, at_, at', rows⟩

/-- A job step that reuses every segment it carries. -/
def Edit.reuses : Edit → Bool
  | .addSegments _ _ | .addTombstone _ _ => true
  | .advanceJob _ reused rewritten segments => reused.Nodup && rewritten.isEmpty && segments.isEmpty
  | _ => false

theorem carries_of_reuses {files : Files} {jobId : Nat} {m : Manifest} {e : Edit} (reuses : e.reuses = true) :
    Carries files jobId m e := by
  cases e with
  | addSegments table segments => exact True.intro
  | addTombstone table predicates => exact True.intro
  | advanceJob job reused rewritten segments =>
    simp only [Edit.reuses, Bool.and_eq_true, decide_eq_true_eq, List.isEmpty_iff] at reuses
    obtain ⟨⟨once, rfl⟩, rfl⟩ := reuses
    exact fun _ => ⟨by simpa using once, fun _ _ _ _ _ _ => ⟨[], rfl, .nil⟩⟩
  | _ => cases reuses

/-- A table of two columns with one row. -/
def oneFlush : List Timed :=
  let t : TableName := ⟨"d", "t"⟩
  let s : SegmentEntry := ⟨7, "_", 2, 1, 1, 0, [⟨1, 0, none, none⟩, ⟨1, 0, none, none⟩], [], "d/1", [1, 2], []⟩
  [(⟨0, [.createTable (.new t [⟨"a", .bool⟩, ⟨"b", .bool⟩])]⟩, 0), (⟨1, [.addSegments t [s]]⟩, 1)]

/-- A row and a delete that come while the table is migrated. -/
def lateWrites : List Timed :=
  let t : TableName := ⟨"d", "t"⟩
  let s : SegmentEntry := ⟨8, "_", 5, 1, 1, 0, [⟨1, 0, none, none⟩, ⟨1, 0, none, none⟩], [], "d/1", [1, 2], []⟩
  [(⟨3, [.advanceJob 1 [7] [] []]⟩, 3), (⟨4, [.addSegments t [s]]⟩, 4),
    (⟨5, [.addTombstone t [⟨"a", .eq, .bool false⟩]]⟩, 5)]

def twoColumns (a b : Bool) : SegmentFile := ⟨[⟨"a", .bool⟩, ⟨"b", .bool⟩], [[[.bool a, .bool b]]], by simp⟩

def migratedFiles : Files := fun path =>
  if path.id = 7 then some (twoColumns true false) else if path.id = 8 then some (twoColumns false true) else none

theorem migration_keeps_rows_lateWrites :
    ∃ created swapped, Admits Given Manifest.empty oneFlush ∧
      (Commit.mk 2 [.createJob ⟨"d", "t"⟩ [.renameColumn "a" "c", .dropColumn "b"]]).apply
        (Manifest.empty.run oneFlush) 2 = .ok created ∧
      (Commit.mk 6 ([.advanceJob 1 [8] [] []] ++ [.swapJob 1])).apply (created.run lateWrites) 6 = .ok swapped ∧
      ∃ before t u, [Edit.advanceJob 1 [8] [] []].foldlM (applyEdit ((created.run lateWrites).version + 1) 6)
          (created.run lateWrites) = .ok before ∧
        before.table ⟨"d", "t"⟩ = some t ∧ swapped.table ⟨"d", "t"⟩ = some u ∧
        (u.schema ≠ [] → ∀ rows, scanAll migratedFiles t = .ok rows →
          ∃ rows', scanAll migratedFiles u = .ok rows' ∧ rows'.Perm (rows.map (projectRow t.schema u.schema))) := by
  have given : Admits Given Manifest.empty oneFlush := by decide
  have ran : ∃ created, (Commit.mk 2 [.createJob ⟨"d", "t"⟩ [.renameColumn "a" "c", .dropColumn "b"]]).apply
      (Manifest.empty.run oneFlush) 2 = .ok created ∧
      Admits (fun m e => m.Given e ∧ e.reuses = true) created lateWrites ∧
      Supplied (applyEdit ((created.run lateWrites).version + 1) 6) (fun m e => m.Given e ∧ e.reuses = true)
        (created.run lateWrites) [.advanceJob 1 [8] [] []] ∧
      ∃ swapped, (Commit.mk 6 ([.advanceJob 1 [8] [] []] ++ [.swapJob 1])).apply
        (created.run lateWrites) 6 = .ok swapped :=
    ⟨_, rfl, by decide, by decide, _, rfl⟩
  obtain ⟨created, creates, reuses, reuses', swapped, swaps⟩ := ran
  refine ⟨created, swapped, given, creates, swaps, ?_⟩
  refine migration_keeps_rows given creates (reuses.mono ?_) (reuses'.mono ?_) swaps
  all_goals exact fun m e h => ⟨h.1, carries_of_reuses h.2⟩

/-- A table whose only columns are dropped. -/
def columnless : List Timed :=
  [(⟨2, [.createJob ⟨"d", "t"⟩ [.dropColumn "a", .dropColumn "b"]]⟩, 2), (⟨3, [.advanceJob 1 [7] [] []]⟩, 3)]

/-- Its rows are visible right before the swap, and cannot be read right after it. -/
theorem columnless_rows_lost : Admits Given Manifest.empty (oneFlush ++ columnless) ∧
    ∃ t u rows, (Manifest.empty.run (oneFlush ++ columnless)).table ⟨"d", "t"⟩ = some t ∧
      (Manifest.empty.run (oneFlush ++ columnless ++ [(⟨4, [.swapJob 1]⟩, 4)])).table ⟨"d", "t"⟩ = some u ∧
      scanAll migratedFiles t = .ok rows ∧
      ¬∃ rows', scanAll migratedFiles u = .ok rows' ∧ rows'.Perm (rows.map (projectRow t.schema u.schema)) := by
  refine ⟨by decide, _, _, _, rfl, rfl, rfl, ?_⟩
  rintro ⟨rows', scanned, _⟩
  exact (scanAll_eq_ok_iff.mp scanned).1 (by decide)

end Adelie
