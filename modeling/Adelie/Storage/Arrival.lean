import Adelie.Storage.Flush
import Adelie.Storage.InPlace

namespace Adelie

open Manifest

/-- A store around one table: the counter of segment ids, and the rows in the order they were written. -/
structure Arrival where
  manifest : Manifest
  files : Files
  nextId : Nat
  written : List Row

inductive ArrivalEvent where
  | flush (batches : List Batch) (nowMs : Nat)
  | compact (between : List (List Batch × Nat)) (nowMs : Nat)

section Steps

variable (encode : SegmentFile → Except StorageError Footer) (opts : StoreOptions) (name : TableName)

namespace Arrival

def flush? (s : Arrival) (batches : List Batch) (nowMs : Nat) : Except StorageError Arrival := do
  let st ← flushTables (s.nextId + ·) encode opts.maxRows s.manifest s.files [(name, batches)]
  let m ← ((Commit.mk s.manifest.version (st.edits (s.manifest.version + 1))).apply s.manifest nowMs).mapError .manifest
  return ⟨m, st.state.files, s.nextId + st.state.drawn, s.written ++ batches.flatten⟩

/-- A flush that fails leaves the table as it was. -/
def flushed (s : Arrival) (f : List Batch × Nat) : Arrival :=
  match s.flush? encode opts name f.1 f.2 with
  | .ok s' => s'
  | .error _ => s

/-- What a compaction has prepared is committed after the flushes that came in between. -/
def compacted (s : Arrival) (between : List (List Batch × Nat)) (nowMs : Nat) : Arrival :=
  match prepare (s.nextId + ·) encode opts s.files s.manifest name with
  | .ok (some st) =>
    let s' := between.foldl (flushed encode opts name) { s with files := st.files, nextId := s.nextId + st.drawn }
    match (Commit.mk s.manifest.version (st.edits name)).apply s'.manifest nowMs with
    | .ok m => { s' with manifest := m }
    | .error _ => s'
  | _ => between.foldl (flushed encode opts name) s

def step (s : Arrival) : ArrivalEvent → Arrival
  | .flush batches nowMs => s.flushed encode opts name (batches, nowMs)
  | .compact between nowMs => s.compacted encode opts name between nowMs

def run (s : Arrival) (events : List ArrivalEvent) : Arrival := events.foldl (step encode opts name) s

/-- No compaction of the run severs what it finds. -/
def Whole (s : Arrival) : List ArrivalEvent → Prop
  | [] => True
  | e :: rest =>
    (∀ between nowMs, e = .compact between nowMs → ∀ t, s.manifest.table name = some t → ¬ Severed t (planMerge t opts)) ∧
      (s.step encode opts name e).Whole rest

end Arrival

end Steps

section Manifest

variable {m m' : Manifest} {name : TableName} {t : TableEntry}

theorem found_eq {spot : Located TableEntry} (names : (m.tables.map (·.name)).Nodup) (at_ : m.table name = some t)
    (whole : m.tables = spot.replaced spot.found) (named : spot.found.name = name) : spot.found = t := by
  obtain ⟨live, own⟩ := Manifest.table_live at_
  refine List.inj_on_of_nodup_map names ?_ live (named.trans own.symm)
  simp [whole, Located.replaced]

theorem table_replaced {spot : Located TableEntry} {u : TableEntry} (names : (m.tables.map (·.name)).Nodup)
    (whole : m.tables = spot.replaced spot.found) (named : spot.found.name = name) (same : u.name = spot.found.name)
    (tables : m'.tables = spot.replaced u) :
    m'.table name = some u ∧ m'.tables.map (·.name) = m.tables.map (·.name) := by
  have kept : m'.tables.map (·.name) = m.tables.map (·.name) := by
    rw [tables, whole]
    simp [Located.replaced, same]
  refine ⟨?_, kept⟩
  have found := @find?_key _ _ _ TableEntry.name m'.tables (by rw [kept]; exact names) u
    (by simp [tables, Located.replaced])
  rwa [same, named] at found

theorem addSegments_table {segments : List SegmentEntry} (names : (m.tables.map (·.name)).Nodup)
    (at_ : m.table name = some t) (made : m.addSegments name segments = .ok m') :
    m'.table name = some { t with segments := sortByKey SegmentEntry.order (t.segments ++ segments) } ∧
      m'.tables.map (·.name) = m.tables.map (·.name) := by
  obtain ⟨spot, whole, named, _, rfl⟩ := addSegments_eq_ok made
  have same := found_eq names at_ whole named
  subst same
  exact table_replaced names whole named rfl rfl

theorem removeSegments_table {ids : List Nat} {version nowMs : Nat} (names : (m.tables.map (·.name)).Nodup)
    (at_ : m.table name = some t) (made : m.removeSegments name ids version nowMs = .ok m') :
    m'.table name = some { t with segments := t.segments.filter fun s => !ids.contains s.id } ∧
      m'.tables.map (·.name) = m.tables.map (·.name) := by
  obtain ⟨spot, whole, named, _, _, rfl⟩ := removeSegments_eq_ok made
  have same := found_eq names at_ whole named
  subst same
  rw [release_frame]
  exact table_replaced names whole named rfl rfl

end Manifest

/-- The manifest's order of segments that have keys of their own. -/
theorem sortByKey_order {l placed : List SegmentEntry} (perm : placed.Perm l) (order : InOrder placed) :
    sortByKey SegmentEntry.order l = placed := by
  have keys : (placed.map SegmentEntry.order).Nodup := List.pairwise_map.mpr (order.imp fun less => less.ne)
  have same := (sortByKey_perm SegmentEntry.order l).trans perm.symm
  refine same.eq_of_pairwise ?_ (sortByKey_sorted SegmentEntry.order l) (order.imp fun less => less.le)
  intro a b left right below above
  exact List.inj_on_of_nodup_map keys (same.mem_iff.mp left) right (le_antisymm below above)

/-- A table whose segments are in order, in one partition, and hold the rows in the order they came. -/
structure HoldsRows (t : TableEntry) (files : Files) (nextId version : Nat) (written : List Row) : Prop where
  ok : t.SchemaOk
  nonempty : t.schema ≠ []
  engine : engineByName t.engine = true
  plain : t.orderBy = []
  bare : t.tombstones = []
  single : ∀ s ∈ t.segments, s.partition = "_"
  order : InOrder t.segments
  nodup : t.segmentIds.Nodup
  below : ∀ s ∈ t.segments, s.id < nextId
  seqs : ∀ s ∈ t.segments, s.seq ≤ version
  opens : ∀ s ∈ t.segments, Opens files t.schema s
  rows : t.segments.flatMap (rowsOf files t.schema) = written

structure Arrived (name : TableName) (s : Arrival) (t : TableEntry) : Prop where
  names : (s.manifest.tables.map (·.name)).Nodup
  live : s.manifest.table name = some t
  unwritten : ∀ path : SegmentPath, s.nextId ≤ path.id → s.files path = none
  holds : HoldsRows t s.files s.nextId s.manifest.version s.written

/-- What a scan of such a table gives. -/
theorem HoldsRows.scan {t : TableEntry} {files : Files} {nextId version : Nat} {written : List Row}
    (holds : HoldsRows t files nextId version written) : scanAll files t = .ok written := by
  refine scanAll_eq_ok_iff.mpr ⟨holds.nonempty, holds.engine, holds.opens, ?_, ?_⟩
  · intro s _
    rw [TableEntry.tombstonesFor, holds.bare]
    rfl
  · rw [← holds.rows]
    apply List.flatMap_congr
    intro s _
    simp [visible, holds.bare, deleted]

section Flush

variable {encode : SegmentFile → Except StorageError Footer} {opts : StoreOptions} {name : TableName}
  {m : Manifest} {t : TableEntry} {files : Files} {first : Nat} {batches : List Batch} {fst : FlushState}

/-- The segments of one table's flush, with their rows in the order of the batches. -/
structure Flushed (t : TableEntry) (first : Nat) (files : Files) (batches : List Batch) (st : MergeState)
    (made : List SegmentEntry) : Prop where
  drawn : Drawn first "_" 0 st.drawn made
  grown : Extends files st.files
  unwritten : Unwritten (first + ·) st
  opens : ∀ o ∈ made, Opens st.files t.schema o
  rows : made.flatMap (rowsOf st.files t.schema) = batches.flatten

theorem flush_flatten (plain : t.orderBy = []) (maxRows : Nat) :
    (flush t batches maxRows).flatten.flatten = batches.flatten := by
  unfold flush
  rw [if_pos (by simpa using plain), splitIntoSegments_flatten]

theorem flushTables_one (ok : t.SchemaOk) (plain : t.orderBy = []) (at_ : m.table name = some t)
    (unwritten : ∀ path : SegmentPath, first ≤ path.id → files path = none)
    (ran : flushTables (first + ·) encode opts.maxRows m files [(name, batches)] = .ok fst) :
    ∃ made, Flushed t first files batches fst.state made ∧
      (fst.written = [(name, made)] ∨ fst.written = [] ∧ made = []) := by
  have fresh : Unwritten (first + ·) (.start files) := by
    intro k _ path same
    exact unwritten path (same ▸ Nat.le_add_right first k)
  unfold flushTables at ran
  obtain ⟨last, walk, done⟩ := Except.bind_eq_ok.mp ran
  cases done
  rw [List.foldlM_cons] at walk
  obtain ⟨mid, head, walk⟩ := Except.bind_eq_ok.mp walk
  cases walk
  unfold flushTable at head
  split at head
  · rename_i none
    cases head
    refine ⟨[], ⟨⟨Nat.le_refl _, by simp, .nil, by simp⟩, .refl _, fresh.logged _, by simp, ?_⟩, .inr ⟨rfl, rfl⟩⟩
    have empty : batches = [] := List.isEmpty_iff.mp none
    rw [empty]
    rfl
  · simp only [at_] at head
    obtain ⟨_, _, head⟩ := Except.bind_eq_ok.mp head
    obtain ⟨next, wrote, head⟩ := Except.bind_eq_ok.mp head
    cases head
    obtain ⟨made, adds, _, grown, unwritten', written⟩ :=
      writeOutputs_eq_ok (add_injective first) (fresh.logged _) wrote
    obtain ⟨made', adds', drawn⟩ := writeOutputs_drawn wrote
    have own : made' = made := List.append_cancel_left (adds'.symm.trans adds)
    subst own
    refine ⟨made', ⟨drawn, grown, unwritten'.logged _, ?_, ?_⟩, .inl ?_⟩
    · intro o member
      obtain ⟨_, _, one⟩ := List.Forall₂.source written member
      exact one.opens ok
    · have kept := wrote_rows ok written
      rwa [flush_flatten plain] at kept
    · have all : next.adds = made' := by
        rw [adds]
        rfl
      simp [all, MergeState.start]

end Flush

section Kept

variable {t : TableEntry} {files files' : Files} {nextId nextId' version version' : Nat} {written more : List Row}

theorem HoldsRows.mono (holds : HoldsRows t files nextId version written) (grown : Extends files files')
    (ids : nextId ≤ nextId') (versions : version ≤ version') : HoldsRows t files' nextId' version' written := by
  refine ⟨holds.ok, holds.nonempty, holds.engine, holds.plain, holds.bare, holds.single, holds.order, holds.nodup,
    fun s member => (holds.below s member).trans_le ids, fun s member => (holds.seqs s member).trans versions,
    fun s member => (holds.opens s member).mono grown, ?_⟩
  rw [← holds.rows]
  exact List.flatMap_congr fun s member => rowsOf_mono (holds.opens s member) grown

/-- New segments behind all others, with the rows that came last. -/
theorem HoldsRows.append {made : List SegmentEntry} {hi : Nat} (holds : HoldsRows t files nextId version written)
    (drawn : Drawn nextId "_" 0 hi made) (stamped : ∀ s ∈ made, s.seq = version + 1)
    (opens : ∀ s ∈ made, Opens files t.schema s) (rows : made.flatMap (rowsOf files t.schema) = more) :
    HoldsRows { t with segments := t.segments ++ made } files (nextId + hi) (version + 1) (written ++ more) := by
  refine ⟨⟨holds.ok.ids, holds.ok.names_nodup, holds.ok.next_pos⟩, holds.nonempty, holds.engine, holds.plain, holds.bare,
    List.forall_mem_append.mpr ⟨holds.single, drawn.partition⟩, ?_, ?_, ?_, ?_,
    List.forall_mem_append.mpr ⟨holds.opens, opens⟩, ?_⟩
  · refine List.pairwise_append.mpr ⟨holds.order, ?_, ?_⟩
    · refine drawn.rising.imp_of_mem ?_
      intro a b left right less
      rw [order_lt_iff, stamped a left, stamped b right]
      omega
    · intro a left b right
      have old := holds.seqs a left
      rw [order_lt_iff, stamped b right]
      omega
  · change ((t.segments ++ made).map (·.id)).Nodup
    rw [List.map_append]
    refine List.nodup_append.mpr ⟨holds.nodup, List.pairwise_map.mpr (drawn.rising.imp fun less => less.ne), ?_⟩
    intro a left b right
    obtain ⟨x, inside, rfl⟩ := List.mem_map.mp left
    obtain ⟨y, own, rfl⟩ := List.mem_map.mp right
    have old := holds.below x inside
    have new := (drawn.ids y own).1
    omega
  · refine List.forall_mem_append.mpr ⟨?_, ?_⟩
    · exact fun s member => (holds.below s member).trans_le (Nat.le_add_right _ _)
    · exact fun s member => (drawn.ids s member).2
  · refine List.forall_mem_append.mpr ⟨?_, ?_⟩
    · exact fun s member => (holds.seqs s member).trans (Nat.le_succ _)
    · exact fun s member => (stamped s member).le
  · rw [List.flatMap_append, holds.rows, rows]

end Kept

section Step

variable {encode : SegmentFile → Except StorageError Footer} {opts : StoreOptions} {name : TableName}
  {s s' : Arrival} {t u : TableEntry}

/-- What flushes add behind the segments a table had. -/
structure Followed (s s' : Arrival) (t u : TableEntry) : Prop where
  files : Extends s.files s'.files
  ids : s.nextId ≤ s'.nextId
  versions : s.manifest.version ≤ s'.manifest.version
  table : ∃ newer, u = { t with segments := t.segments ++ newer } ∧
    ∀ n ∈ newer, s.manifest.version < n.seq ∧ s.nextId ≤ n.id

theorem Followed.refl (s : Arrival) (t : TableEntry) : Followed s s t t :=
  ⟨.refl _, Nat.le_refl _, Nat.le_refl _, [], by simp, by simp⟩

theorem Followed.trans {s'' : Arrival} {v : TableEntry} (before : Followed s s' t u) (after : Followed s' s'' u v) :
    Followed s s'' t v := by
  obtain ⟨newer, rfl, new⟩ := before.table
  obtain ⟨newer', rfl, new'⟩ := after.table
  have versions := before.versions
  have ids := before.ids
  refine ⟨before.files.trans after.files, ids.trans after.ids, versions.trans after.versions, newer ++ newer', by simp, ?_⟩
  refine List.forall_mem_append.mpr ⟨new, ?_⟩
  intro n member
  have := new' n member
  omega

theorem Drawn.stamp {first lo hi : Nat} {partition : String} {made : List SegmentEntry}
    (drawn : Drawn first partition lo hi made) (version : Nat) :
    Drawn first partition lo hi (made.map fun x => { x with seq := version }) := by
  refine ⟨drawn.le, ?_, List.pairwise_map.mpr drawn.rising, ?_⟩
  · intro x member
    obtain ⟨y, inside, rfl⟩ := List.mem_map.mp member
    exact drawn.ids y inside
  · intro x member
    obtain ⟨y, inside, rfl⟩ := List.mem_map.mp member
    exact drawn.partition y inside

/-- The edits of one table's flush put its segments behind the others. -/
theorem flushed_table {st : FlushState} {made : List SegmentEntry} {version nowMs : Nat} {m last : Manifest}
    (names : (m.tables.map (·.name)).Nodup) (at_ : m.table name = some t)
    (listed : st.written = [(name, made)] ∨ st.written = [] ∧ made = [])
    (order : InOrder (t.segments ++ made.map fun x => { x with seq := version }))
    (edited : (st.edits version).foldlM (applyEdit version nowMs) m = .ok last) :
    last.table name = some { t with segments := t.segments ++ made.map fun x => { x with seq := version } } ∧
      last.tables.map (·.name) = m.tables.map (·.name) := by
  unfold FlushState.edits at edited
  rcases listed with listed | ⟨listed, none⟩
  · rw [listed, List.map_singleton, List.foldlM_cons] at edited
    obtain ⟨mid, added, edited⟩ := Except.bind_eq_ok.mp edited
    cases edited
    obtain ⟨found, kept⟩ := addSegments_table names at_ added
    rw [sortByKey_order (.refl _) order] at found
    exact ⟨found, kept⟩
  · rw [listed] at edited
    cases edited
    subst none
    simpa using at_

theorem flushed_arrived (arrived : Arrived name s t) (f : List Batch × Nat) :
    ∃ u, Arrived name (s.flushed encode opts name f) u ∧ Followed s (s.flushed encode opts name f) t u := by
  unfold Arrival.flushed
  cases flushed : s.flush? encode opts name f.1 f.2 with
  | error e => exact ⟨t, arrived, .refl s t⟩
  | ok s' =>
    unfold Arrival.flush? at flushed
    obtain ⟨st, ran, flushed⟩ := Except.bind_eq_ok.mp flushed
    obtain ⟨m, committed, flushed⟩ := Except.bind_eq_ok.mp flushed
    cases flushed
    obtain ⟨made, new, listed⟩ := flushTables_one arrived.holds.ok arrived.holds.plain arrived.live arrived.unwritten ran
    obtain ⟨last, edited, applied⟩ := Except.bind_eq_ok.mp (mapError_eq_ok committed)
    cases applied
    let version := s.manifest.version + 1
    let stamped := made.map fun x => { x with seq := version }
    have behind : HoldsRows { t with segments := t.segments ++ stamped } st.state.files (s.nextId + st.state.drawn)
        version (s.written ++ f.1.flatten) := by
      refine (arrived.holds.mono new.grown (Nat.le_refl _) (Nat.le_refl _)).append (new.drawn.stamp version) ?_ ?_ ?_
      · intro x member
        obtain ⟨y, _, rfl⟩ := List.mem_map.mp member
        rfl
      · intro x member
        obtain ⟨y, inside, rfl⟩ := List.mem_map.mp member
        exact new.opens y inside
      · rw [List.flatMap_map]
        exact new.rows
    obtain ⟨found, kept⟩ := flushed_table arrived.names arrived.live listed behind.order edited
    refine ⟨_, ⟨?_, found, ?_, behind⟩, new.grown, Nat.le_add_right _ _, Nat.le_succ _, stamped, rfl, ?_⟩
    · exact kept ▸ arrived.names
    · intro path past
      obtain ⟨k, sum⟩ := Nat.exists_eq_add_of_le past
      exact new.unwritten (st.state.drawn + k) (Nat.le_add_right _ _) path (by rw [sum, Nat.add_assoc])
    · intro n member
      obtain ⟨y, inside, rfl⟩ := List.mem_map.mp member
      exact ⟨Nat.lt_succ_self _, (new.drawn.ids y inside).1⟩

theorem flushes_arrived (between : List (List Batch × Nat)) (arrived : Arrived name s t) :
    ∃ u, Arrived name (between.foldl (Arrival.flushed encode opts name) s) u ∧
      Followed s (between.foldl (Arrival.flushed encode opts name) s) t u := by
  induction between generalizing s t with
  | nil => exact ⟨t, arrived, .refl s t⟩
  | cons f rest ih =>
    obtain ⟨u, next, followed⟩ := @flushed_arrived encode opts name s t arrived f
    obtain ⟨v, last, followed'⟩ := ih next
    exact ⟨v, last, followed.trans followed'⟩

theorem prepare_table {st : MergeState} {first : Nat} (at_ : s.manifest.table name = some t)
    (prepared : prepare (first + ·) encode opts s.files s.manifest name = .ok (some st)) :
    (planMerge t opts).foldlM (mergePlan (first + ·) encode opts.maxRows t) (.start s.files) = .ok st := by
  unfold prepare at prepared
  simp only [at_] at prepared
  obtain ⟨_, _, prepared⟩ := Except.bind_eq_ok.mp prepared
  split at prepared
  · cases prepared
  · obtain ⟨st', ran, made⟩ := Except.bind_eq_ok.mp prepared
    cases made
    exact ran

/-- The merges of a table that no merge severs, each in the place of what it took. -/
theorem prepared_in_place {st : MergeState} (arrived : Arrived name s t) (whole : ¬ Severed t (planMerge t opts))
    (ran : (planMerge t opts).foldlM (mergePlan (s.nextId + ·) encode opts.maxRows t) (.start s.files) = .ok st) :
    ∃ placed, st.removes = (planMerge t opts).flatMap (·.inputs) ∧ Drawn s.nextId "_" 0 st.drawn st.adds ∧
      Extends s.files st.files ∧ Unwritten (s.nextId + ·) st ∧
      InPlace t s.nextId 0 st.files t.segments (planMerge t opts) st.adds placed := by
  have holds := arrived.holds
  have fresh : Unwritten (s.nextId + ·) (.start s.files) := by
    intro k _ path same
    exact arrived.unwritten path (same ▸ Nat.le_add_right s.nextId k)
  have joined : ∀ l ∈ t.segments, ∀ x ∈ t.segments, l.id ∈ (planMerge t opts).flatMap (·.inputs) →
      x.id ∉ (planMerge t opts).flatMap (·.inputs) → l.seq = x.seq → ¬ l.id < x.id := by
    intro l left x right taken stays same less
    exact whole ⟨l, left, x, right, taken, stays, same, less⟩
  obtain ⟨outputs, placed, adds, removes, drawn, grown, unwritten, inPlace⟩ :=
    (planMerge_stretches holds.single opts).merged holds.ok holds.nonempty holds.plain holds.nodup holds.single
      (fun x member => member) holds.below holds.order holds.nodup joined holds.opens fresh ran
  have own : st.adds = outputs := by simpa using adds
  subst own
  exact ⟨placed, by simpa using removes, drawn, grown, unwritten, inPlace⟩

/-- A segment in place is one that was there, or one a merge wrote under the seq of one that was. -/
theorem InPlace.cases {files : Files} {plans : List MergePlan} {segments outputs placed : List SegmentEntry}
    {first lo : Nat} (inPlace : InPlace t first lo files segments plans outputs placed) {p : SegmentEntry}
    (member : p ∈ placed) : p ∈ segments ∨ p ∈ outputs := by
  rcases List.mem_append.mp (inPlace.perm.mem_iff.mp member) with kept | new
  · exact .inl (List.mem_of_mem_filter kept)
  · exact .inr new

section Commit

variable {newer outputs placed : List SegmentEntry} {files files' : Files} {plans : List MergePlan}
  {first hi nextId since version : Nat} {written written' : List Row}

theorem InPlace.committed (inPlace : InPlace t first 0 files t.segments plans outputs placed)
    (inputs : ∀ id ∈ plans.flatMap (·.inputs), id < first) (new : ∀ n ∈ newer, first + hi ≤ n.id) :
    (placed ++ newer).Perm
      (((t.segments ++ newer).filter fun s => !(plans.flatMap (·.inputs)).contains s.id) ++ outputs) := by
  have stays : newer.filter (fun s => !(plans.flatMap (·.inputs)).contains s.id) = newer := by
    rw [List.filter_eq_self]
    intro n member
    have outside : n.id ∉ plans.flatMap (·.inputs) := by
      intro taken
      have old := inputs _ taken
      have := new n member
      omega
    simpa using outside
  rw [List.filter_append, stays]
  refine (inPlace.perm.append_right newer).trans ?_
  rw [List.append_assoc, List.append_assoc]
  exact List.perm_append_comm.append_left _

/-- The commit of what was merged leaves the table with its rows where they were. -/
theorem HoldsRows.compacted (before : HoldsRows t files first since written)
    (holds : HoldsRows { t with segments := t.segments ++ newer } files' nextId version written')
    (inPlace : InPlace t first 0 files t.segments plans outputs placed)
    (inputs : ∀ id ∈ plans.flatMap (·.inputs), id < first) (drawn : Drawn first "_" 0 hi outputs)
    (grown : Extends files files') (counted : first + hi ≤ nextId) (later : since ≤ version)
    (new : ∀ n ∈ newer, since < n.seq ∧ first + hi ≤ n.id) :
    sortByKey SegmentEntry.order
      (((t.segments ++ newer).filter fun s => !(plans.flatMap (·.inputs)).contains s.id) ++ outputs) = placed ++ newer ∧
      HoldsRows { t with segments := placed ++ newer } files' nextId (version + 1) written' := by
  have perm := inPlace.committed inputs fun n member => (new n member).2
  obtain ⟨_, after, _⟩ := List.pairwise_append.mp holds.order
  have old : ∀ p ∈ placed, p.seq ≤ since := by
    intro p member
    rcases inPlace.each p member with ⟨kept, _⟩ | ⟨_, s, inside, seq⟩
    · exact before.seqs p kept
    · exact seq ▸ before.seqs s inside
  have order : InOrder (placed ++ newer) := by
    refine List.pairwise_append.mpr ⟨inPlace.order, after, ?_⟩
    intro p member n own
    have := old p member
    have := new n own
    rw [order_lt_iff]
    omega
  have ids : ((placed ++ newer).map (·.id)).Nodup := by
    rw [(perm.map _).nodup_iff, List.map_append]
    refine List.nodup_append.mpr ⟨?_, List.pairwise_map.mpr (drawn.rising.imp fun less => less.ne), ?_⟩
    · exact holds.nodup.sublist (List.filter_sublist.map _)
    · intro a left b right
      obtain ⟨x, inside, rfl⟩ := List.mem_map.mp left
      obtain ⟨y, own, rfl⟩ := List.mem_map.mp right
      have fresh := drawn.ids y own
      rcases List.mem_append.mp (List.mem_of_mem_filter inside) with there | came
      · have := before.below x there
        omega
      · have := (new x came).2
        omega
  refine ⟨sortByKey_order perm order, ⟨before.ok.ids, before.ok.names_nodup, before.ok.next_pos⟩, holds.nonempty,
    holds.engine, holds.plain, holds.bare, ?_, order, ids, ?_, ?_, ?_, ?_⟩
  · refine List.forall_mem_append.mpr ⟨?_, (List.forall_mem_append.mp holds.single).2⟩
    intro p member
    exact (inPlace.cases member).elim (before.single p) (drawn.partition p)
  · refine List.forall_mem_append.mpr ⟨?_, (List.forall_mem_append.mp holds.below).2⟩
    intro p member
    rcases inPlace.cases member with there | made
    · have := before.below p there
      omega
    · have := drawn.ids p made
      omega
  · refine List.forall_mem_append.mpr ⟨?_, ?_⟩
    · intro p member
      have := old p member
      omega
    · exact fun n member => ((List.forall_mem_append.mp holds.seqs).2 n member).trans (Nat.le_succ _)
  · refine List.forall_mem_append.mpr ⟨?_, (List.forall_mem_append.mp holds.opens).2⟩
    exact fun p member => (inPlace.opens p member).mono grown
  · have moved : placed.flatMap (rowsOf files' t.schema) = t.segments.flatMap (rowsOf files' t.schema) := by
      have now : placed.flatMap (rowsOf files' t.schema) = placed.flatMap (rowsOf files t.schema) :=
        List.flatMap_congr fun p member => rowsOf_mono (inPlace.opens p member) grown
      have then_ : t.segments.flatMap (rowsOf files' t.schema) = t.segments.flatMap (rowsOf files t.schema) :=
        List.flatMap_congr fun x member => rowsOf_mono (before.opens x member) grown
      rw [now, then_, inPlace.rows]
    have all := holds.rows
    rw [List.flatMap_append] at all ⊢
    rw [← all]
    exact congrArg (· ++ _) moved

end Commit

theorem compacted_arrived (arrived : Arrived name s t) (whole : ¬ Severed t (planMerge t opts))
    (between : List (List Batch × Nat)) (nowMs : Nat) :
    ∃ u, Arrived name (s.compacted encode opts name between nowMs) u := by
  unfold Arrival.compacted
  split
  · rename_i st prepared
    obtain ⟨placed, removes, drawn, grown, unwritten, inPlace⟩ :=
      prepared_in_place arrived whole (prepare_table arrived.live prepared)
    have start : Arrived name { s with files := st.files, nextId := s.nextId + st.drawn } t := by
      refine ⟨arrived.names, arrived.live, ?_, arrived.holds.mono grown (Nat.le_add_right _ _) (Nat.le_refl _)⟩
      intro path past
      obtain ⟨k, sum⟩ := Nat.exists_eq_add_of_le past
      exact unwritten (st.drawn + k) (Nat.le_add_right _ _) path (by rw [sum]; exact Nat.add_assoc _ _ _)
    obtain ⟨u, next, followed⟩ := @flushes_arrived encode opts name _ t between start
    dsimp only
    generalize between.foldl (Arrival.flushed encode opts name) _ = s' at next followed ⊢
    split
    · rename_i m applied
      obtain ⟨newer, rfl, new⟩ := followed.table
      obtain ⟨last, edited, made⟩ := Except.bind_eq_ok.mp applied
      cases made
      simp only [MergeState.edits, List.foldlM_cons, List.foldlM_nil] at edited
      obtain ⟨mid, removed, edited⟩ := Except.bind_eq_ok.mp edited
      obtain ⟨last', added, edited⟩ := Except.bind_eq_ok.mp edited
      cases edited
      obtain ⟨thinned, kept⟩ := removeSegments_table next.names next.live removed
      obtain ⟨found, kept'⟩ := addSegments_table (kept ▸ next.names) thinned added
      have inputs : ∀ id ∈ (planMerge t opts).flatMap (·.inputs), id < s.nextId := by
        intro id taken
        obtain ⟨x, inside, rfl⟩ := List.mem_map.mp
          ((planMerge_stretches arrived.holds.single opts).inputs_mem taken)
        exact arrived.holds.below x inside
      obtain ⟨sorted, after⟩ := (arrived.holds.mono grown (Nat.le_refl _) (Nat.le_refl _)).compacted next.holds inPlace
        inputs drawn followed.files followed.ids followed.versions new
      rw [removes] at found
      dsimp only at found
      rw [sorted] at found
      exact ⟨_, by rw [kept', kept]; exact next.names, found, next.unwritten, after⟩
    · exact ⟨u, next⟩
  · obtain ⟨u, next, _⟩ := @flushes_arrived encode opts name s t between arrived
    exact ⟨u, next⟩

theorem run_arrived (events : List ArrivalEvent) (arrived : Arrived name s t) (whole : s.Whole encode opts name events) :
    ∃ u, Arrived name (s.run encode opts name events) u := by
  induction events generalizing s t with
  | nil => exact ⟨t, arrived⟩
  | cons e rest ih =>
    obtain ⟨here, later⟩ := whole
    have stepped : ∃ u, Arrived name (s.step encode opts name e) u := by
      cases e with
      | flush batches nowMs =>
        obtain ⟨u, next, _⟩ := @flushed_arrived encode opts name s t arrived (batches, nowMs)
        exact ⟨u, next⟩
      | compact between nowMs => exact compacted_arrived arrived (here between nowMs rfl t arrived.live) between nowMs
    obtain ⟨u, next⟩ := stepped
    exact ih next later

end Step

/-- A new table without an ORDER BY, in a store that some commits have reached. -/
structure NewTable (history : List Timed) (name : TableName) (s : Arrival) (t : TableEntry) : Prop where
  given : Admits Given Manifest.empty history
  reached : s.manifest = Manifest.empty.run history
  live : s.manifest.table name = some t
  engine : engineByName t.engine = true
  columns : t.schema ≠ []
  plain : t.orderBy = []
  bare : t.tombstones = []
  none_ : t.segments = [] ∧ s.written = []
  unwritten : ∀ path : SegmentPath, s.nextId ≤ path.id → s.files path = none

theorem NewTable.arrived {history : List Timed} {name : TableName} {s : Arrival} {t : TableEntry}
    (new : NewTable history name s t) : Arrived name s t := by
  have sound := Sound.empty.of_given new.given
  rw [← new.reached] at sound
  have inside := entries_of_table (Manifest.table_live new.live).1
  refine ⟨?_, new.live, new.unwritten, sound.coherent.schemas t inside, new.columns, new.engine, new.plain, new.bare,
    ?_, ?_, ?_, ?_, ?_, ?_, ?_⟩
  · exact List.pairwise_map.mpr (sound.coherent.sorted.imp fun less => less.ne)
  all_goals simp [new.none_.1, new.none_.2, TableEntry.segmentIds]

def oneFlag : List Timed := [(⟨0, [.createTable (.new ⟨"d", "t"⟩ [⟨"a", .bool⟩])]⟩, 0)]

def newFlags : Arrival := ⟨Manifest.empty.run oneFlag, fun _ => none, 1, []⟩

def plainFooter (file : SegmentFile) : Except StorageError Footer := .ok ⟨1, 0, file.fields.map fun _ => ⟨1, 0, none, none⟩⟩

/-- Two small segments, the second with a big one behind it that the same flush wrote. -/
def severing : List ArrivalEvent :=
  [.flush [[[.bool true]]] 1, .flush [[[.bool true]], [[.bool false], [.bool false]]] 2, .compact [] 3]

def tightOptions : StoreOptions := { maxRows := 2, compactMinInputs := 2, compactSmallRows := 2 }

theorem newFlags_new : ∃ t, NewTable oneFlag ⟨"d", "t"⟩ newFlags t :=
  ⟨_, by decide, rfl, rfl, by decide, by decide, rfl, rfl, ⟨rfl, rfl⟩, fun _ _ => rfl⟩

theorem severing_scans :
    (newFlags.run plainFooter tightOptions ⟨"d", "t"⟩ severing).written =
      [[.bool true], [.bool true], [.bool false], [.bool false]] ∧
    ∃ u, (newFlags.run plainFooter tightOptions ⟨"d", "t"⟩ severing).manifest.table ⟨"d", "t"⟩ = some u ∧
      scanAll (newFlags.run plainFooter tightOptions ⟨"d", "t"⟩ severing).files u =
        .ok [[.bool false], [.bool false], [.bool true], [.bool true]] := by
  refine ⟨rfl, _, rfl, ?_⟩
  rfl

/-- Two flushes of one row each, merged. -/
def joining : List ArrivalEvent := [.flush [[[.bool true]]] 1, .flush [[[.bool false]]] 2, .compact [] 3]

theorem joining_whole : newFlags.Whole plainFooter tightOptions ⟨"d", "t"⟩ joining := by
  refine ⟨?_, ?_, ?_, True.intro⟩
  · intro between nowMs wrong
    cases wrong
  · intro between nowMs wrong
    cases wrong
  · intro between nowMs _ t live
    have known : ((newFlags.step plainFooter tightOptions ⟨"d", "t"⟩ (.flush [[[.bool true]]] 1)).step plainFooter
        tightOptions ⟨"d", "t"⟩ (.flush [[[.bool false]]] 2)).manifest.table ⟨"d", "t"⟩ = some _ := rfl
    rw [known] at live
    cases live
    decide

end Adelie
