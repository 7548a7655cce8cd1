import Adelie.Storage.Merged

namespace Adelie

open Manifest

/-- A flush or a delete. -/
def Edit.isWrite : Edit → Bool
  | .addSegments _ _ | .addTombstone _ _ => true
  | _ => false

/-- What flushes and deletes make of a table, after version `since`. -/
structure Grown (t u : TableEntry) (since : Nat) : Prop where
  name : u.name = t.name
  engine : u.engine = t.engine
  schema : u.schema = t.schema
  segments : ∀ s ∈ t.segments, s ∈ u.segments
  tombstones : ∀ x ∈ u.tombstones, x ∈ t.tombstones ∨ since < x.seq

theorem applyEdit_grown {m m' : Manifest} {nowMs since : Nat} {e : Edit} {t u : TableEntry} (write : e.isWrite = true)
    (later : since ≤ m.version) (live : u ∈ m.tables) (grown : Grown t u since)
    (applied : applyEdit (m.version + 1) nowMs m e = .ok m') : ∃ u' ∈ m'.tables, Grown t u' since := by
  cases e with
  | addSegments table segments =>
    obtain ⟨spot, whole, _, _, rfl⟩ := addSegments_eq_ok applied
    rw [whole] at live
    rcases Located.mem_replaced.mp live with rfl | live
    · refine ⟨_, Located.mem_replaced.mpr (.inl rfl), grown.name, grown.engine, grown.schema, ?_, grown.tombstones⟩
      intro s member
      exact mem_sortByKey.mpr (List.mem_append_left _ (grown.segments s member))
    · exact ⟨u, Located.mem_replaced.mpr (.inr live), grown⟩
  | addTombstone table predicates =>
    obtain ⟨spot, stored, whole, _, _, rfl⟩ := addTombstone_eq_ok applied
    rw [whole] at live
    rcases Located.mem_replaced.mp live with rfl | live
    · refine ⟨_, Located.mem_replaced.mpr (.inl rfl), grown.name, grown.engine, grown.schema, grown.segments, ?_⟩
      intro x member
      rcases List.mem_append.mp member with member | member
      · exact grown.tombstones x member
      · rw [List.mem_singleton.mp member]
        exact .inr (Nat.lt_succ_of_le later)
    · exact ⟨u, Located.mem_replaced.mpr (.inr live), grown⟩
  | _ => cases write

theorem grown_of_run {m : Manifest} {commits : List Timed} {t : TableEntry} (live : t ∈ m.tables)
    (writes : Admits (fun _ e => e.isWrite = true) m commits) :
    ∃ u ∈ (m.run commits).tables, Grown t u m.version := by
  have reached := run_staged_invariant (fun m' => m.version ≤ m'.version ∧ ∃ u ∈ m'.tables, Grown t u m.version)
    (fun m' => m.version ≤ m'.version ∧ ∃ u ∈ m'.tables, Grown t u m.version) ?_ ?_ ?_ writes
    ⟨Nat.le_refl _, t, live, rfl, rfl, rfl, fun s => id, fun x => .inl⟩
  · exact reached.2
  · exact fun _ => id
  · rintro nowMs m₁ e m₂ write ⟨later, u, live, grown⟩ applied
    refine ⟨?_, applyEdit_grown write later live grown applied⟩
    rw [(applyEdit_counters applied).version]
    exact later
  · rintro m₁ ⟨later, held⟩
    exact ⟨later.trans (Nat.le_succ _), held⟩

/-- What a compaction commit makes of its table. -/
def compacted (u : TableEntry) (removes : List Nat) (adds : List SegmentEntry) : TableEntry :=
  { u with segments := sortByKey SegmentEntry.order ((u.segments.filter fun s => !removes.contains s.id) ++ adds) }

theorem removeSegments_live {m m' : Manifest} {version nowMs : Nat} {ids : List Nat} {u : TableEntry}
    (c : Coherent m) (live : u ∈ m.tables) (made : m.removeSegments u.name ids version nowMs = .ok m') :
    { u with segments := u.segments.filter fun s => !ids.contains s.id } ∈ m'.tables := by
  obtain ⟨spot, whole, named, _, _, rfl⟩ := removeSegments_eq_ok made
  have same : spot.found = u := c.named_unique (by simp [whole]) live named
  rw [release_frame, same]
  exact Located.mem_replaced.mpr (.inl rfl)

theorem addSegments_live {m m' : Manifest} {segments : List SegmentEntry} {u : TableEntry}
    (c : Coherent m) (live : u ∈ m.tables) (made : m.addSegments u.name segments = .ok m') :
    { u with segments := sortByKey SegmentEntry.order (u.segments ++ segments) } ∈ m'.tables := by
  obtain ⟨spot, whole, named, _, rfl⟩ := addSegments_eq_ok made
  have same : spot.found = u := c.named_unique (by simp [whole]) live named
  rw [same]
  exact Located.mem_replaced.mpr (.inl rfl)

/-- The commit replaces the table by its compacted self. -/
theorem compaction_apply {m m' : Manifest} {base nowMs : Nat} {st : MergeState} {u : TableEntry} (c : Coherent m)
    (live : u ∈ m.tables) (applied : (Commit.mk base (st.edits u.name)).apply m nowMs = .ok m') :
    m'.table u.name = some (compacted u st.removes st.adds) := by
  obtain ⟨next, ran, made⟩ := Except.bind_eq_ok.mp applied
  cases made
  simp only [MergeState.edits, List.foldlM_cons, List.foldlM_nil] at ran
  obtain ⟨mid, removed, ran⟩ := Except.bind_eq_ok.mp ran
  obtain ⟨last, added, ran⟩ := Except.bind_eq_ok.mp ran
  cases ran
  have c' := applyEdit_coherent (by simp [Fresh, Edit.newIds]) c removed
  have live' := addSegments_live c' (removeSegments_live c live removed) added
  exact Manifest.table_eq_some ((applyEdit_move added).sorted c') live'

/-- A compaction of a table, from the manifest it reads to the one it commits: the plans are
    merged over the files there are, flushes and deletes go on, and the commit is accepted. -/
structure Compacts (handed : Nat → Nat) (encode : SegmentFile → Except StorageError Footer) (maxRows : Nat)
    (read : Manifest) (t : TableEntry) (plans : List MergePlan) (files : Files) (between : List Timed)
    (files' : Files) (nowMs : Nat) (committed : Manifest) : Prop where
  sets : (plans.flatMap (·.inputs)).Nodup
  distinct : handed.Injective
  unwritten : ∀ k path, path.id = handed k → files path = none
  given : Admits Given read between
  writes : Admits (fun _ e => e.isWrite = true) read between
  merged : ∃ st, mergePlans handed encode maxRows t files plans = .ok st ∧ Extends st.files files' ∧
    (Commit.mk read.version (st.edits t.name)).apply (read.run between) nowMs = .ok committed

theorem compacted_rows {t u : TableEntry} {since : Nat} {files : Files} {inputs adds : List SegmentEntry}
    {removes : List Nat} (grown : Grown t u since) (seqs : ∀ s ∈ t.segments, s.seq ≤ since)
    (nodup : u.segmentIds.Nodup) (ids : inputs.map (·.id) = removes) (once : removes.Nodup)
    (merged : Merged t files inputs adds) {rows : List Row} (scanned : scanAll files u = .ok rows) :
    ∃ rows', scanAll files (compacted u removes adds) = .ok rows' ∧ rows'.Perm rows := by
  have newer : Newer t u.tombstones := by
    intro x member
    exact (grown.tombstones x member).imp_right fun later s inside => (seqs s inside).trans_lt later
  have inside : ∀ s ∈ inputs, s ∈ u.segments := fun s member => grown.segments s (merged.live s member)
  obtain ⟨nonempty, engine, opens, checked, rfl⟩ := scanAll_eq_ok_iff.mp scanned
  refine ⟨_, scanAll_eq_ok_iff.mpr ⟨nonempty, engine, ?_, ?_, rfl⟩, ?_⟩
  · intro s member
    rcases List.mem_append.mp (mem_sortByKey.mp member) with kept | brought
    · exact opens s (List.mem_of_mem_filter kept)
    · change Opens files u.schema s
      rw [grown.schema]
      exact merged.opens s brought
  · intro s member
    rcases List.mem_append.mp (mem_sortByKey.mp member) with kept | brought
    · exact checked s (List.mem_of_mem_filter kept)
    · obtain ⟨s₀, old, same⟩ := merged.sides s brought
      have passed := checked s₀ (inside s₀ old)
      rw [TableEntry.tombstonesFor, ← (same _ newer).filter] at passed
      exact passed
  · -- the commit takes out exactly the inputs
    have taken := filter_keys_perm nodup ids once inside
    have split_ := List.filter_append_perm (fun s => removes.contains s.id) u.segments
    have after := (sortByKey_perm SegmentEntry.order
      ((u.segments.filter fun s => !removes.contains s.id) ++ adds)).flatMap_right
        (visible files u.schema u.tombstones)
    have moved := merged.rows u.tombstones newer
    rw [← grown.schema] at moved
    have before := (((taken.append_right _).symm.trans split_).flatMap_right (visible files u.schema u.tombstones))
    rw [List.flatMap_append] at after before
    exact after.trans (List.perm_append_comm.trans ((moved.append_right _).trans before))

section

variable {handed : Nat → Nat} {encode : SegmentFile → Except StorageError Footer}

/-- What the store prepares is a merge of plans that share no input. -/
theorem prepare_eq_ok {opts : StoreOptions} {files : Files} {m : Manifest} {table : TableName} {st : MergeState}
    (sound : Sound m) (prepared : prepare handed encode opts files m table = .ok (some st)) :
    ∃ t ∈ m.tables, t.name = table ∧ ((planMerge t opts).flatMap (·.inputs)).Nodup ∧
      mergePlans handed encode opts.maxRows t files (planMerge t opts) = .ok st := by
  unfold prepare at prepared
  split at prepared
  · cases prepared
  · rename_i t at_
    obtain ⟨live, named⟩ := Manifest.table_live at_
    obtain ⟨_, _, prepared⟩ := Except.bind_eq_ok.mp prepared
    refine ⟨t, live, named, planMerge_nodup (sound.entries t (entries_of_table live)) opts, ?_⟩
    dsimp only at prepared
    split at prepared
    · cases prepared
    · obtain ⟨st', ran, made⟩ := Except.bind_eq_ok.mp prepared
      cases made
      exact ran

end

/-- Two flushes of one row each. -/
def twoFlushes : List Timed :=
  let t : TableName := ⟨"d", "t"⟩
  let s (id seq : Nat) : SegmentEntry := ⟨id, "_", seq, 1, 1, 0, [⟨1, 0, none, none⟩], [], "d/1", [1], []⟩
  [(⟨0, [.createTable (.new t [⟨"a", .bool⟩])]⟩, 0), (⟨1, [.addSegments t [s 7 2]]⟩, 1),
    (⟨2, [.addSegments t [s 8 3]]⟩, 2)]

def flushedFile (v : Value) : SegmentFile := ⟨[⟨"a", .bool⟩], [[[v]]], by simp⟩

def flushedFiles : Files := fun path =>
  if path.id = 7 then some (flushedFile (.bool true)) else if path.id = 8 then some (flushedFile (.bool false))
  else none

/-- A delete that lands while the two are merged. -/
def lateDelete : List Timed := [(⟨3, [.addTombstone ⟨"d", "t"⟩ [⟨"a", .eq, .bool false⟩]]⟩, 3)]

/-- With no least number of inputs, a segment too big to merge closes an empty run before it. -/
def bigFlush : List Timed :=
  let t : TableName := ⟨"d", "t"⟩
  let s : SegmentEntry := ⟨7, "_", 2, 262144, 1, 0, [⟨262144, 0, none, none⟩], [], "d/1", [1], []⟩
  [(⟨0, [.createTable (.new t [⟨"a", .bool⟩])]⟩, 0), (⟨1, [.addSegments t [s]]⟩, 1)]

end Adelie
