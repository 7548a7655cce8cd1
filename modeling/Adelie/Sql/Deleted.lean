import Adelie.Sql.Counted
import Adelie.Sql.Inserted

namespace Adelie

section Sorting

variable {fields : List Field} {keys : List SortKey} {held batches : List ColumnBatch}

/-- A sort takes the rows that a `u32` of their number still counts. -/
theorem SortSink.finish_taken (each : ∀ b ∈ held, b.fields = fields ∧ b.Sound) (some_ : held ≠ [])
    (made : SortSink.finish fields keys held = .ok batches) :
    ∃ taken, rechunk fields [taken] = .ok batches ∧ taken.Shaped fields ∧ taken.toRows.Perm
      ((held.flatMap ColumnBatch.toRows).take (asU32 (held.flatMap ColumnBatch.toRows).length)) := by
  unfold SortSink.finish at made
  rw [if_neg (by simpa using some_)] at made
  obtain ⟨concat, joined, made⟩ := Except.bind_eq_ok.mp made
  obtain ⟨order, sorted, made⟩ := Except.bind_eq_ok.mp made
  obtain ⟨taken, took, made⟩ := Except.bind_eq_ok.mp made
  obtain ⟨named, sound, rows⟩ := concatBatches_rows ⟨held, each⟩ joined
  change concat.toRows = held.flatMap ColumnBatch.toRows at rows
  obtain ⟨wide, perm⟩ : concat.columns ≠ [] ∧ order.Perm (List.range (asU32 concat.rows)) := by
    unfold sortIndices at sorted
    split at sorted
    · cases sorted
    · rename_i c rest columns
      cases sorted
      have own : c.cells.length = concat.rows := by simp [ColumnBatch.rows, columns]
      rw [← own]
      exact ⟨by simp [columns], List.perm_insertionSort _ _⟩
  have within : asU32 concat.rows ≤ concat.rows := Nat.mod_le _ _
  have inside : ∀ i ∈ order, i < concat.rows := by
    intro i member
    exact (List.mem_range.mp (perm.mem_iff.mp member)).trans_le within
  obtain ⟨named', _, takenRows⟩ := takeBatch_ok sound wide inside took
  rw [named] at named'
  refine ⟨taken, made, named', ?_⟩
  rw [takenRows, ← rows, concat.length_toRows]
  refine (perm.map concat.row).trans ?_
  rw [ColumnBatch.toRows, ← List.map_take, List.take_range, Nat.min_eq_left within]

theorem SortSink.finish_kept (each : ∀ b ∈ held, b.fields = fields ∧ b.Sound)
    (made : SortSink.finish fields keys held = .ok batches) :
    (batches.flatMap ColumnBatch.toRows).Perm
      ((held.flatMap ColumnBatch.toRows).take (asU32 (held.flatMap ColumnBatch.toRows).length)) := by
  by_cases none_ : held = []
  · subst none_
    cases made
    rfl
  · obtain ⟨taken, cut, shaped, perm⟩ := SortSink.finish_taken each none_ made
    have same := (rechunk_ok (by simpa using shaped) cut).2
    rw [List.flatMap_singleton] at same
    rwa [same]

/-- A number of rows that no `u32` counts leaves nothing. -/
theorem SortSink.finish_wrapped (each : ∀ b ∈ held, b.fields = fields ∧ b.Sound) (some_ : held ≠ [])
    (made : SortSink.finish fields keys held = .ok batches) (wraps : asU32 (held.flatMap ColumnBatch.toRows).length = 0) :
    batches = [] := by
  obtain ⟨taken, cut, _, perm⟩ := SortSink.finish_taken each some_ made
  rw [wraps, List.take_zero] at perm
  have none_ : taken.rows = 0 := by rw [← taken.length_toRows, perm.eq_nil, List.length_nil]
  unfold rechunk at cut
  simp only [List.map_singleton, List.sum_singleton, none_, if_true] at cut
  exact (Except.ok.inj cut).symm

end Sorting

/-- The rows of a table's batches that its flush stores, and those that it cuts off. -/
def keptBy (t : TableEntry) (rows : List Row) : List Row :=
  if t.orderBy.isEmpty then rows else rows.take (asU32 rows.length)

def lostBy (t : TableEntry) (rows : List Row) : List Row :=
  if t.orderBy.isEmpty then [] else rows.drop (asU32 rows.length)

theorem keptBy_lostBy (t : TableEntry) (rows : List Row) : keptBy t rows ++ lostBy t rows = rows := by
  unfold keptBy lostBy
  split
  · exact List.append_nil rows
  · exact List.take_append_drop _ rows

namespace OpenStore

/-- One entry of a buffer for each table, with the rows a flush keeps of it. -/
def flushedOf (t : TableEntry) (name : TableName) (buffer : List (TableName × List ColumnBatch)) : List Row :=
  (buffer.filter (·.1 == name)).flatMap fun e => keptBy t (e.2.flatMap ColumnBatch.toRows)

def cutOff (t : TableEntry) (name : TableName) (buffer : List (TableName × List ColumnBatch)) : List Row :=
  (buffer.filter (·.1 == name)).flatMap fun e => lostBy t (e.2.flatMap ColumnBatch.toRows)

theorem flushedOf_cutOff (t : TableEntry) (name : TableName) (buffer : List (TableName × List ColumnBatch)) :
    ((batchesOf name buffer).flatMap ColumnBatch.toRows).Perm (flushedOf t name buffer ++ cutOff t name buffer) := by
  unfold batchesOf flushedOf cutOff
  induction buffer.filter (·.1 == name) with
  | nil => simp
  | cons e rest ih =>
    simp only [List.flatMap_cons, List.flatMap_append]
    nth_rewrite 1 [← keptBy_lostBy t (e.2.flatMap ColumnBatch.toRows)]
    rw [List.append_assoc, List.append_assoc]
    refine List.Perm.append_left _ ?_
    refine (ih.append_left _).trans ?_
    rw [← List.append_assoc, ← List.append_assoc]
    exact List.perm_append_comm.append_right _

/-- Every batch in the buffer has the columns of its table. -/
def Fits (m : Manifest) (buffer : List (TableName × List ColumnBatch)) : Prop :=
  ∀ e ∈ buffer, ∀ t, m.table e.1 = some t → ∀ b ∈ e.2, b.fields = t.fields ∧ b.Sound

section Flush

open Manifest

variable {w : Writer} {first : Nat} {m : Manifest} {st st' : FlushState} {name : TableName} {t : TableEntry}

theorem appendFlush_kept (defined_ : t.Defined) {batches : List ColumnBatch} {maxRows : Nat}
    {outputs : List (List ColumnBatch)} (sound : ∀ b ∈ batches, b.fields = t.fields ∧ b.Sound)
    (flushed : Append.flush t batches maxRows = .ok outputs) :
    (outputs.flatten.flatMap ColumnBatch.toRows).Perm (keptBy t (batches.flatMap ColumnBatch.toRows)) := by
  unfold keptBy
  by_cases plain : t.orderBy = []
  · rw [flush_unordered plain] at flushed
    cases flushed
    rw [if_pos (by simpa using plain), splitBatches, (splitBy_filled batches).1]
  · rw [if_neg (by simpa using plain)]
    rw [flush_ordered defined_ plain] at flushed
    cases sorted : sortBatches t.fields batches (orderPositions t) with
    | error e =>
      rw [sorted] at flushed
      cases flushed
    | ok out =>
      rw [sorted] at flushed
      cases flushed
      change ((splitBy ColumnBatch.rows maxRows out).flatten.flatMap ColumnBatch.toRows).Perm _
      rw [(splitBy_filled out).1]
      exact SortSink.finish_kept sound sorted

/-- The segments written for one table of a flush. -/
def madeFor (name : TableName) (written : List (TableName × List SegmentEntry)) : List SegmentEntry :=
  (written.filter (·.1 == name)).flatMap Prod.snd

@[simp] theorem madeFor_append (name : TableName) (a b : List (TableName × List SegmentEntry)) :
    madeFor name (a ++ b) = madeFor name a ++ madeFor name b := by
  simp [madeFor]

/-- What a flush has done for one table: segments that can be read, and hold these rows. -/
structure Made (files : Files) (t : TableEntry) (made : List SegmentEntry) (rows : List Row) : Prop where
  opens : ∀ o ∈ made, Opens files t.schema o
  rows : (made.flatMap (rowsOf files t.schema)).Perm rows

theorem Made.mono {files files' : Files} {made : List SegmentEntry} {rows : List Row} (holds : Made files t made rows)
    (grown : Extends files files') : Made files' t made rows := by
  refine ⟨fun o member => (holds.opens o member).mono grown, ?_⟩
  rw [List.flatMap_congr fun o member => rowsOf_mono (holds.opens o member) grown]
  exact holds.rows

theorem Made.append {files : Files} {made made' : List SegmentEntry} {rows rows' : List Row} (one : Made files t made rows)
    (other : Made files t made' rows') : Made files t (made ++ made') (rows ++ rows') := by
  refine ⟨List.forall_mem_append.mpr ⟨one.opens, other.opens⟩, ?_⟩
  rw [List.flatMap_append]
  exact one.rows.append other.rows

theorem flushTable_eq_ok (at_ : m.table name = some t) (defined_ : t.Defined) {e : TableName × List ColumnBatch}
    (sound : e.1 = name → ∀ b ∈ e.2, b.fields = t.fields ∧ b.Sound) (fresh : Unwritten (first + ·) st.state)
    (ran : flushTable w first m st e = .ok st') :
    Extends st.state.files st'.state.files ∧ Unwritten (first + ·) st'.state ∧
      ∃ new, st'.written = st.written ++ new ∧ Made st'.state.files t (madeFor name new) (flushedOf t name [e]) := by
  unfold flushTable at ran
  split at ran
  · rename_i none_
    cases ran
    refine ⟨.refl _, fresh, [], by simp, by simp [madeFor], ?_⟩
    have bare : keptBy t [] = [] := by
      unfold keptBy
      split <;> simp
    rw [flushedOf]
    by_cases own : (e.1 == name) = true
    · simp [own, List.isEmpty_iff.mp none_, bare, madeFor]
    · simp [own, madeFor]
  · split at ran
    · cases ran
    · rename_i u there
      obtain ⟨_, _, ran⟩ := Except.bind_eq_ok.mp ran
      obtain ⟨outputs, flushed, ran⟩ := Except.bind_eq_ok.mp ran
      obtain ⟨next, put, ran⟩ := Except.bind_eq_ok.mp ran
      cases ran
      obtain ⟨made, adds, _, grown, fresh', written⟩ :=
        writeOutputs_eq_ok (add_injective first) (fresh.logged _) (mapError_eq_ok put)
      rw [MergeState.logged_adds] at adds
      have drawn : next.adds.drop st.state.adds.length = made := by simp [adds]
      refine ⟨grown, fresh', [(e.1, made)], by rw [drawn], ?_⟩
      by_cases own : (e.1 == name) = true
      · have same : u = t := by
          rw [beq_iff_eq.mp own, at_] at there
          exact (Option.some.inj there).symm
        subst same
        simp only [madeFor, flushedOf, own, List.filter_cons_of_pos, List.filter_nil, List.flatMap_singleton]
        refine ⟨?_, ?_⟩
        · intro o member
          obtain ⟨_, _, one⟩ := List.Forall₂.source written member
          exact one.opens defined_.schema
        · rw [wrote_rows defined_.schema written, ← List.map_flatten, ← List.flatMap_def]
          exact appendFlush_kept defined_ (sound (beq_iff_eq.mp own)) (mapError_eq_ok flushed)
      · simp only [madeFor, flushedOf, own, List.filter_cons_of_neg, List.filter_nil, List.flatMap_nil, Bool.false_eq_true,
          not_false_eq_true]
        exact ⟨by simp, .refl _⟩

theorem flushTables_eq_ok {buffer : List (TableName × List ColumnBatch)} (at_ : m.table name = some t)
    (defined_ : t.Defined) (sound : ∀ e ∈ buffer, e.1 = name → ∀ b ∈ e.2, b.fields = t.fields ∧ b.Sound)
    (fresh : Unwritten (first + ·) st.state) (ran : buffer.foldlM (flushTable w first m) st = .ok st') :
    Extends st.state.files st'.state.files ∧ Unwritten (first + ·) st'.state ∧
      ∃ new, st'.written = st.written ++ new ∧ Made st'.state.files t (madeFor name new) (flushedOf t name buffer) := by
  induction buffer generalizing st with
  | nil =>
    cases ran
    exact ⟨.refl _, fresh, [], by simp, by simp [madeFor], by simp [madeFor, flushedOf]⟩
  | cons e rest ih =>
    obtain ⟨here, later⟩ := List.forall_mem_cons.mp sound
    rw [List.foldlM_cons] at ran
    obtain ⟨mid, head, ran⟩ := Except.bind_eq_ok.mp ran
    obtain ⟨grown, fresh', new, written, made⟩ := flushTable_eq_ok at_ defined_ here fresh head
    obtain ⟨grown', fresh'', new', written', made'⟩ := ih later fresh' ran
    refine ⟨grown.trans grown', fresh'', new ++ new', by rw [written', written, List.append_assoc], ?_⟩
    have split_ : flushedOf t name (e :: rest) = flushedOf t name [e] ++ flushedOf t name rest := by
      simp only [flushedOf]
      rw [← List.flatMap_append, ← List.filter_append]
      rfl
    rw [madeFor_append, split_]
    exact (made.mono grown').append made'

end Flush

section Edits

open Manifest

variable {m m' last : Manifest} {name : TableName} {t : TableEntry}

theorem table_replaced_other {spot : Located TableEntry} {u : TableEntry} (whole : m.tables = spot.replaced spot.found)
    (tables : m'.tables = spot.replaced u) (same : u.name = spot.found.name) (other : spot.found.name ≠ name) :
    m'.table name = m.table name := by
  unfold Manifest.table
  rw [tables, whole]
  simp [Located.replaced, List.find?_append, same, other]

/-- A table has kept everything but its segments. -/
theorem addSegments_for (names : (m.tables.map (·.name)).Nodup) (at_ : m.table name = some t) {target : TableName}
    {segments : List SegmentEntry} (made : m.addSegments target segments = .ok m') :
    ∃ all, m'.table name = some { t with segments := all } ∧ m'.tables.map (·.name) = m.tables.map (·.name) ∧
      all.Perm (t.segments ++ if target == name then segments else []) := by
  by_cases own : target = name
  · subst own
    obtain ⟨found, kept⟩ := addSegments_table names at_ made
    exact ⟨_, found, kept, by simpa using sortByKey_perm SegmentEntry.order (t.segments ++ segments)⟩
  · obtain ⟨spot, whole, named, _, rfl⟩ := addSegments_eq_ok made
    refine ⟨t.segments, ?_, ?_, by simp [own]⟩
    · exact (table_replaced_other whole rfl (by rfl) (by rw [named]; exact own)).trans at_
    · dsimp only
      rw [whole]
      simp [Located.replaced]

def stamp (version : Nat) (s : SegmentEntry) : SegmentEntry := { s with seq := version }

theorem edits_eq_ok {st : FlushState} {version nowMs : Nat} (names : (m.tables.map (·.name)).Nodup)
    (at_ : m.table name = some t) (made : (st.edits version).foldlM (applyEdit version nowMs) m = .ok last) :
    ∃ all, last.table name = some { t with segments := all } ∧ last.tables.map (·.name) = m.tables.map (·.name) ∧
      all.Perm (t.segments ++ (madeFor name st.written).map (stamp version)) := by
  unfold FlushState.edits at made
  generalize st.written = written at made ⊢
  induction written generalizing m t with
  | nil =>
    cases made
    exact ⟨t.segments, at_, rfl, by simp [madeFor]⟩
  | cons e rest ih =>
    rw [List.map_cons, List.foldlM_cons] at made
    obtain ⟨mid, added, made⟩ := Except.bind_eq_ok.mp made
    obtain ⟨all, found, kept, perm⟩ := addSegments_for names at_ added
    obtain ⟨all', found', kept', perm'⟩ := ih (kept ▸ names) found made
    refine ⟨all', found', kept'.trans kept, perm'.trans ?_⟩
    dsimp only at perm ⊢
    refine (perm.append_right _).trans ?_
    rw [List.append_assoc]
    refine List.Perm.append_left _ ?_
    by_cases own : (e.1 == name) = true
    · have here : madeFor name (e :: rest) = e.2 ++ madeFor name rest := by simp [madeFor, own]
      rw [if_pos own, here, List.map_append]
      exact .refl _
    · simp [madeFor, own]

theorem commit_eq_ok {w : Writer} {s : OpenStore} {edits : List Edit} {nowMs : Nat} (made : s.commit w edits nowMs = .ok m) :
    ∃ last, edits.foldlM (applyEdit (s.manifest.version + 1) nowMs) s.manifest = .ok last ∧
      m = { last with version := s.manifest.version + 1 } := by
  obtain ⟨_, applied, made⟩ := Except.bind_eq_ok.mp made
  obtain ⟨_, _, made⟩ := Except.bind_eq_ok.mp made
  cases made
  obtain ⟨last, edited, applied⟩ := Except.bind_eq_ok.mp (mapError_eq_ok applied)
  cases applied
  exact ⟨last, edited, rfl⟩

end Edits

section Steps

open Manifest

variable {w : Writer} {s s' : OpenStore} {name : TableName} {t : TableEntry} {nowMs : Nat}

/-- A store whose commits come after everything its table holds, with no file under an id still to be drawn. -/
structure Ready (s : OpenStore) (name : TableName) (t : TableEntry) : Prop where
  names : (s.manifest.tables.map (·.name)).Nodup
  live : s.manifest.table name = some t
  defined_ : t.Defined
  seqs : ∀ g ∈ t.segments, g.seq ≤ s.manifest.version
  tombstones : ∀ x ∈ t.tombstones, x.seq ≤ s.manifest.version
  unwritten : ∀ path : SegmentPath, s.nextId ≤ path.id → s.files path = none

theorem rowsOf_stamp (files : Files) (schema : List SchemaField) (version : Nat) (g : SegmentEntry) :
    rowsOf files schema (stamp version g) = rowsOf files schema g := rfl

/-- A flush adds rows to the table, those it does not cut off, and nothing else. -/
theorem flushBuffer_ready (ready : Ready s name t) {buffer : List (TableName × List ColumnBatch)}
    (sound : ∀ e ∈ buffer, e.1 = name → ∀ b ∈ e.2, b.fields = t.fields ∧ b.Sound)
    (flushed : s.flushBuffer w buffer nowMs = .ok s') :
    ∃ all, Ready s' name { t with segments := all } ∧ s'.pending = s.pending ∧ ∀ rows, scanAll s.files t = .ok rows →
      ∃ rows', scanAll s'.files { t with segments := all } = .ok rows' ∧ rows'.Perm (rows ++ flushedOf t name buffer) := by
  unfold flushBuffer at flushed
  split at flushed
  · rename_i none_
    cases flushed
    refine ⟨t.segments, ready, rfl, fun rows scanned => ⟨rows, scanned, ?_⟩⟩
    simp [flushedOf, List.isEmpty_iff.mp none_]
  · obtain ⟨st, ran, flushed⟩ := Except.bind_eq_ok.mp flushed
    obtain ⟨m, committed, flushed⟩ := Except.bind_eq_ok.mp flushed
    cases flushed
    have fresh : Unwritten (s.nextId + ·) (MergeState.start s.files) := by
      intro k _ path same
      exact ready.unwritten path (same ▸ Nat.le_add_right s.nextId k)
    obtain ⟨grown, fresh', new, written, made⟩ := flushTables_eq_ok ready.live ready.defined_ sound fresh ran
    rw [List.nil_append] at written
    subst written
    obtain ⟨last, edited, rfl⟩ := commit_eq_ok committed
    obtain ⟨all, found, kept, perm⟩ := edits_eq_ok ready.names ready.live edited
    have member : ∀ g ∈ all, g ∈ t.segments ∨ ∃ o ∈ madeFor name st.written, g = stamp (s.manifest.version + 1) o := by
      intro g inside
      rcases List.mem_append.mp (perm.mem_iff.mp inside) with old | new
      · exact .inl old
      · obtain ⟨o, own, rfl⟩ := List.mem_map.mp new
        exact .inr ⟨o, own, rfl⟩
    have recent : ∀ o : SegmentEntry,
        t.tombstones.filter (fun x => (stamp (s.manifest.version + 1) o).seq < x.seq) = [] := by
      intro o
      rw [List.filter_eq_nil_iff]
      intro x inside
      have old := ready.tombstones x inside
      rw [decide_eq_true_eq]
      change ¬ s.manifest.version + 1 < x.seq
      omega
    have d := ready.defined_
    refine ⟨all, ⟨by rw [kept]; exact ready.names, found, ⟨⟨d.schema.ids, d.schema.names_nodup, d.schema.next_pos⟩, d.key_live,
      d.version_live, d.orderBy_live, d.partitionBy_live, d.ttl_live, d.keyed, d.resolved⟩, ?_, ?_, ?_⟩, rfl, ?_⟩
    · intro g inside
      rcases member g inside with old | ⟨o, _, rfl⟩
      · exact (ready.seqs g old).trans (Nat.le_succ _)
      · exact Nat.le_refl _
    · exact fun x inside => (ready.tombstones x inside).trans (Nat.le_succ _)
    · intro path past
      obtain ⟨k, sum⟩ := Nat.exists_eq_add_of_le past
      exact fresh' (st.state.drawn + k) (Nat.le_add_right _ _) path (by rw [sum]; exact Nat.add_assoc _ _ _)
    · intro rows scanned
      obtain ⟨nonempty, engine, opens, checked, rfl⟩ := scanAll_eq_ok_iff.mp scanned
      refine ⟨_, scanAll_eq_ok_iff.mpr ⟨nonempty, engine, ?_, ?_, rfl⟩, ?_⟩
      · intro g inside
        rcases member g inside with old | ⟨o, own, rfl⟩
        · exact (opens g old).mono grown
        · exact made.opens o own
      · intro g inside
        rcases member g inside with old | ⟨o, _, rfl⟩
        · exact checked g old
        · simp only [TableEntry.tombstonesFor, recent o]
          rfl
      · refine (perm.flatMap_right (visible st.state.files t.schema t.tombstones)).trans ?_
        rw [List.flatMap_append]
        refine List.Perm.append ?_ ?_
        · rw [flatMap_visible_mono opens grown]
        · have each : ∀ o ∈ madeFor name st.written, visible st.state.files t.schema t.tombstones
              (stamp (s.manifest.version + 1) o) = rowsOf st.state.files t.schema o := by
            intro o _
            rw [visible, recent o]
            exact List.filter_eq_self.mpr (by simp [deleted])
          rw [List.flatMap_map, List.flatMap_congr each]
          exact made.rows

/-- A tombstone takes the rows that match its stored predicates, and leaves the others. -/
theorem tombstone_scan (ready : Ready s name t) {preds : List Predicate} {m : Manifest}
    (committed : s.commit w [.addTombstone name preds] nowMs = .ok m) :
    ∃ stored, List.Forall₂ (fun p q => storedPredicate t.schema p = .ok q) preds stored ∧
      m.table name = some { t with tombstones := t.tombstones ++ [⟨s.manifest.version + 1, stored⟩] } ∧
      ∀ rows, scanAll s.files t = .ok rows →
        scanAll s.files { t with tombstones := t.tombstones ++ [⟨s.manifest.version + 1, stored⟩] } =
          .ok (rows.filter fun row => !decide ((Tombstone.mk (s.manifest.version + 1) stored).Takes t.schema row)) := by
  obtain ⟨last, edited, rfl⟩ := commit_eq_ok committed
  rw [List.foldlM_cons] at edited
  obtain ⟨_, added, edited⟩ := Except.bind_eq_ok.mp edited
  cases edited
  obtain ⟨spot, stored, whole, named, each, rfl⟩ := addTombstone_eq_ok added
  have same := found_eq ready.names ready.live whole named
  subst same
  refine ⟨stored, each, (table_replaced ready.names whole named (by rfl) (by rfl)).1, ?_⟩
  intro rows scanned
  obtain ⟨nonempty, engine, opens, checked, rfl⟩ := scanAll_eq_ok_iff.mp scanned
  let x : Tombstone := ⟨s.manifest.version + 1, stored⟩
  have later : ∀ g ∈ spot.found.segments, (spot.found.tombstones ++ [x]).filter (fun y => g.seq < y.seq) =
      spot.found.tombstones.filter (fun y => g.seq < y.seq) ++ [x] := by
    intro g inside
    have old := ready.seqs g inside
    rw [List.filter_append, List.filter_singleton]
    have newer : g.seq < x.seq := by
      change g.seq < s.manifest.version + 1
      omega
    simp [newer]
  refine scanAll_eq_ok_iff.mpr ⟨nonempty, engine, opens, ?_, ?_⟩
  · intro g inside
    change checkTombstones spot.found.schema ((spot.found.tombstones ++ [x]).filter fun y => g.seq < y.seq) = .ok ()
    rw [later g inside]
    refine forM_eq_ok.mpr (List.forall_mem_append.mpr ⟨forM_eq_ok.mp (checked g inside), ?_⟩)
    refine forM_eq_ok.mp (checkTombstones_ok ready.defined_.schema.names_nodup ?_)
    intro y own q listed
    rw [List.mem_singleton.mp own] at listed
    obtain ⟨p, _, one⟩ := List.Forall₂.source each listed
    exact storedPredicate_fits one
  · rw [List.filter_flatMap]
    apply List.flatMap_congr
    intro g inside
    change (visible _ _ _ g).filter _ = (rowsOf s.files spot.found.schema g).filter fun row =>
      !deleted spot.found.schema ((spot.found.tombstones ++ [x]).filter fun y => g.seq < y.seq) row
    rw [later g inside, visible, List.filter_filter]
    apply List.filter_congr
    intro row _
    rw [deleted_append, Bool.not_or, Bool.and_comm]
    congr 1
    rw [not_deleted, ← decide_not, decide_eq_decide]
    simp [x]

end Steps

/-- A store that commits have led to, its segments as writers left them, its buffers on the columns of their tables. -/
structure Sourced (s : OpenStore) : Prop where
  history : ∃ commits, Manifest.Admits Manifest.Given Manifest.empty commits ∧ s.manifest = Manifest.empty.run commits
  unwritten : ∀ path : SegmentPath, s.nextId ≤ path.id → s.files path = none
  segments : ∀ t ∈ s.manifest.tables, ∀ g ∈ t.segments, ∃ file, StoredAs s.files t.schema g file
  inFlight : Fits s.manifest s.inFlight
  pending : Fits s.manifest s.pending

/-- The rows of a table that a snapshot sees, beside those stored. -/
def seen (s : OpenStore) (name : TableName) (rows : List Row) : List Row :=
  rows ++ (s.bufferedOf name).flatMap ColumnBatch.toRows

/-- The rows a flush of the two buffers cuts off. -/
def cut (s : OpenStore) (t : TableEntry) (name : TableName) : List Row :=
  cutOff t name s.inFlight ++ cutOff t name s.pending

end OpenStore

/-- The one new tombstone takes `n` of the rows there were, and every other row is still there. -/
def DeleteExact (s s' : OpenStore) (name : TableName) (n : Nat) : Prop :=
  ∃ t t' x rows rows', s.manifest.table name = some t ∧ s'.manifest.table name = some t' ∧
    t'.tombstones = t.tombstones ++ [x] ∧ scanAll s.files t = .ok rows ∧ scanAll s'.files t' = .ok rows' ∧
    rows'.Perm ((s.seen name rows).filter fun row => !decide (x.Takes t.schema row)) ∧
    n = (s.seen name rows).countP fun row => decide (x.Takes t.schema row)

/-- Whether a row matches every predicate, each value at its column's type. -/
def matched (schema : List SchemaField) (preds : List Predicate) (row : Row) : Bool :=
  preds.all fun p =>
    match Manifest.storedPredicate schema p with
    | .ok q => q.test schema row == some true
    | .error _ => false

section Exact

open Manifest OpenStore

variable {K : Kernels} {P : Platform} {w : Writer} {s s' : OpenStore} {name : TableName} {t : TableEntry}
  {preds stored : List Predicate}

theorem matched_eq {schema : List SchemaField} {seq : Nat} {row : Row}
    (each : List.Forall₂ (fun p q => storedPredicate schema p = .ok q) preds stored) :
    matched schema preds row = decide ((Tombstone.mk seq stored).Takes schema row) := by
  rw [Bool.eq_iff_iff, decide_eq_true_eq, matched, List.all_eq_true, Tombstone.Takes]
  dsimp only
  induction each with
  | nil => simp
  | @cons p q preds stored head _ ih =>
    rw [List.forall_mem_cons, List.forall_mem_cons, ih, head]
    simp

theorem rowsAffected_eq_iff {n affected : Nat} (read : rowsAffected P n = .ok affected) :
    affected = n ↔ n < 2 ^ 63 := by
  unfold rowsAffected at read
  dsimp only at read
  split at read
  · cases read
    split <;> omega
  · split at read
    · cases read
    · cases read
      split <;> omega

theorem bufferedRow_width (fits : Fits s.manifest s.inFlight) (fits' : Fits s.manifest s.pending)
    (at_ : s.manifest.table name = some t) :
    ∀ batch ∈ (s.bufferedOf name).map ColumnBatch.toRows, ∀ row ∈ batch, row.length = t.schema.length := by
  intro batch member row own
  obtain ⟨b, inside, rfl⟩ := List.mem_map.mp member
  have sound : b.fields = t.fields ∧ b.Sound := by
    rcases List.mem_append.mp inside with here | here
    all_goals
      obtain ⟨e, among, held⟩ := List.mem_flatMap.mp here
      obtain ⟨listed, named⟩ := List.mem_filter.mp among
      have target : s.manifest.table e.1 = some t := by rw [beq_iff_eq.mp named]; exact at_
    · exact fits e listed t target b held
    · exact fits' e listed t target b held
  obtain ⟨i, _, rfl⟩ := List.mem_map.mp own
  have count := sound.2.typed.length_eq
  rw [sound.1, TableEntry.fields, List.length_map] at count
  simpa [ColumnBatch.row] using count

theorem OpenStore.Sourced.ready (sourced : s.Sourced) (at_ : s.manifest.table name = some t) : Ready s name t := by
  obtain ⟨commits, given, led⟩ := sourced.history
  have coherent := (Sound.empty.of_given given).coherent
  have below := tombstonesBelow_of_run given (by intro t inside; cases inside)
  have seqs := SeqsBelow.empty.of_given given
  have defined_ := allDefined_of_run commits
  rw [← led] at coherent below defined_ seqs
  have inside := entries_of_table (Manifest.table_live at_).1
  exact ⟨List.pairwise_map.mpr (coherent.sorted.imp fun less => less.ne), at_, defined_ t inside,
    fun g member => seqs.segment inside member, below t inside, sourced.unwritten⟩

/-- What a DELETE leaves of a table: its rows and those a flush keeps of the buffers, less what the tombstone takes. -/
theorem delete_scan (sourced : s.Sourced) (at_ : s.manifest.table name = some t) {rows : List Row}
    (scanned : scanAll s.files t = .ok rows) {nowMs : Nat} (deleted_ : s.delete w name preds nowMs = .ok s') :
    ∃ stored t' seq rows', List.Forall₂ (fun p q => storedPredicate t.schema p = .ok q) preds stored ∧
      s'.manifest.table name = some t' ∧ t'.tombstones = t.tombstones ++ [⟨seq, stored⟩] ∧
      scanAll s'.files t' = .ok rows' ∧ rows'.Perm ((rows ++ flushedOf t name s.inFlight ++ flushedOf t name s.pending).filter
        fun row => !decide ((Tombstone.mk seq stored).Takes t.schema row)) := by
  obtain ⟨s₂, flushed, deleted_⟩ := Except.bind_eq_ok.mp deleted_
  obtain ⟨m, committed, deleted_⟩ := Except.bind_eq_ok.mp deleted_
  cases deleted_
  obtain ⟨s₁, first, flushed⟩ := Except.bind_eq_ok.mp flushed
  obtain ⟨s₃, second, flushed⟩ := Except.bind_eq_ok.mp flushed
  cases flushed
  have own : ∀ {buffer}, Fits s.manifest buffer → ∀ e ∈ buffer, e.1 = name → ∀ b ∈ e.2, b.fields = t.fields ∧ b.Sound := by
    rintro buffer fits e member rfl b held
    exact fits e member t at_ b held
  obtain ⟨all, ready, kept, grown⟩ := flushBuffer_ready (sourced.ready at_) (own sourced.inFlight) first
  rw [kept] at second
  obtain ⟨all', ready', _, grown'⟩ := flushBuffer_ready ready (own sourced.pending) second
  obtain ⟨rows₁, scanned₁, perm₁⟩ := grown rows scanned
  obtain ⟨rows₂, scanned₂, perm₂⟩ := grown' rows₁ scanned₁
  have last : Ready { s₃ with inFlight := [], pending := [] } name { t with segments := all' } :=
    ⟨ready'.names, ready'.live, ready'.defined_, ready'.seqs, ready'.tombstones, ready'.unwritten⟩
  obtain ⟨stored, each, found, takes⟩ := tombstone_scan last committed
  exact ⟨stored, _, _, _, each, found, rfl, takes rows₂ scanned₂, (perm₂.trans (perm₁.append_right _)).filter _⟩

end Exact

section Wrapped

/-- A table of one BOOL column, in its order. -/
def sortedFlag : List Manifest.Timed :=
  [(⟨0, [.createTable { TableSpec.new ⟨"d", "t"⟩ [⟨"a", .bool⟩] with orderBy := ["a"] }]⟩, 0)]

/-- As many rows of TRUE in its buffer. -/
def bufferedFlags (n : Nat) : OpenStore :=
  ⟨Manifest.empty.run sortedFlag, fun _ => none, 1, [], [(⟨"d", "t"⟩, [allTrue n])]⟩

def flagIs (b : Bool) : Option Ast.Expr := some (.binaryOp .eq (.column ["a"]) (.literal (.bool b)))

def deleteFlags (n : Nat) (b : Bool) : Except Halt (Nat × OpenStore) :=
  executeDelete noKernels checkedPlatform plainWriter (bufferedFlags n) ⟨"d", "t"⟩ (flagIs b) 1

theorem bufferedFlags_sourced (n : Nat) : (bufferedFlags n).Sourced := by
  refine ⟨⟨sortedFlag, by decide, rfl⟩, fun _ _ => rfl, ?_, ?_, ?_⟩
  · intro t live g inside
    have known : (bufferedFlags n).manifest.tables = [_] := rfl
    rw [known, List.mem_singleton] at live
    subst live
    cases inside
  · intro e member
    cases member
  · intro e member t at_ b held
    rw [bufferedFlags, List.mem_singleton] at member
    subst member
    cases at_
    exact allTrue_sound n b held

theorem allTrue_toRows (n : Nat) : (allTrue n).toRows = List.replicate n [.bool true] := by
  have each : ∀ i ∈ List.range n, (allTrue n).row i = [.bool true] := by
    intro i below
    simp [ColumnBatch.row, allTrue, List.mem_range.mp below]
  have count : (allTrue n).rows = n := by simp [allTrue, ColumnBatch.rows]
  rw [ColumnBatch.toRows, count, List.map_congr_left each, List.map_const', List.length_range]

/-- No row of TRUE is counted under `a = FALSE`. -/
theorem countMatching_flags {n : Nat} (some_ : 0 < n) {t : TableEntry}
    (at_ : (bufferedFlags n).manifest.table ⟨"d", "t"⟩ = some t) :
    countMatching noKernels (fun _ => none) t [(allTrue n).toRows] [⟨"a", .eq, .bool false⟩] = .ok 0 := by
  cases at_
  let e : Expr := .cmp .eq (.column 0) (.literal (.bool false) .bool)
  let rows := (allTrue n).toRows.map (pick [0])
  have all : ∀ row ∈ rows, row = [.bool true] := by
    intro row member
    obtain ⟨raw, inside, rfl⟩ := List.mem_map.mp member
    rw [allTrue_toRows] at inside
    rw [List.eq_of_mem_replicate inside]
    rfl
  have cells : ∀ cell ∈ columnOf rows 0, cell = .bool true := by
    intro cell member
    obtain ⟨row, inside, rfl⟩ := List.mem_map.mp member
    rw [all row inside]
    rfl
  have tested : (columnOf rows 0).mapM (compareCell .eq · (.bool false)) =
      .ok ((columnOf rows 0).map fun _ => some false) := by
    apply mapM_except_of_forall₂
    rw [List.forall₂_map_right_iff, List.forall₂_same]
    intro cell member
    rw [cells cell member]
    rfl
  have typed : e.dataType noKernels [⟨"a", .bool⟩] = .ok .bool := by
    simp [e, Expr.dataType, sameKind, fits, coerce, coerceScalar, ensure, Value.isNull, bind, Except.bind, pure, Except.pure]
  have left_ : (Expr.column 0).eval noKernels [⟨"a", .bool⟩] rows = .ok ⟨.bool, columnOf rows 0⟩ := by
    simp [Expr.eval, Expr.dataType, bind, Except.bind, pure, Except.pure]
  have evaluated : e.eval noKernels [⟨"a", .bool⟩] rows = .ok (boolColumn ((columnOf rows 0).map fun _ => some false)) := by
    change (Expr.cmp .eq (.column 0) (.literal (.bool false) .bool)).eval noKernels [⟨"a", .bool⟩] rows = _
    rw [Expr.eval]
    change (e.dataType noKernels [⟨"a", .bool⟩] >>= fun _ =>
      evalCmp .eq (.column 0) (.literal (.bool false) .bool) ((Expr.column 0).eval noKernels [⟨"a", .bool⟩] rows)
        ((Expr.literal (.bool false) .bool).eval noKernels [⟨"a", .bool⟩] rows)) = _
    rw [typed, left_]
    change compareScalarColumn ⟨.bool, columnOf rows 0⟩ .eq (.bool false) = _
    unfold compareScalarColumn
    rw [if_neg (by decide), tested]
    rfl
  have none_ : filterRows noKernels [⟨"a", .bool⟩] e rows = .ok [] := by
    unfold filterRows truthy
    rw [evaluated]
    simp only [bind, Except.bind, bools_boolColumn, pure, Except.pure, columnOf, List.map_map]
    rw [filterBatch_map]
    simp
  have passed : passBatch noKernels [⟨"a", .bool⟩] (some e) rows = .ok [] := by
    have held : rows ≠ [] := by
      simp only [rows, allTrue_toRows, ne_eq, List.map_eq_nil_iff, List.replicate_eq_nil_iff]
      omega
    unfold passBatch
    simp only [none_, bind, Except.bind]
    rw [if_pos (by simpa using held)]
    rfl
  refine Except.bind_eq_ok.mpr ⟨⟨[⟨"a", .bool⟩], [0], []⟩, rfl, Except.bind_eq_ok.mpr ⟨some .bool, ?_, ?_⟩⟩
  · change Except.mapError InsertError.exec ((some e).mapM (Expr.dataType noKernels [⟨"a", .bool⟩])) = _
    rw [Option.mapM_some, typed]
    rfl
  · refine Except.bind_eq_ok.mpr ⟨[], rfl, Except.bind_eq_ok.mpr ⟨[rows], rfl, Except.bind_eq_ok.mpr ⟨[[]], ?_, rfl⟩⟩⟩
    change Except.mapError InsertError.exec ([rows].mapM (passBatch noKernels [⟨"a", .bool⟩] (some e))) = _
    rw [List.mapM_cons, passed]
    rfl

/-- A flush of 2³² rows writes no segment for an ordered table. -/
theorem flush_wrapped {n maxRows : Nat} (wraps : asU32 n = 0) {t : TableEntry}
    (at_ : (bufferedFlags n).manifest.table ⟨"d", "t"⟩ = some t) : Append.flush t [allTrue n] maxRows = .ok [] := by
  have defined_ := ((bufferedFlags_sourced n).ready at_).defined_
  have shape : t.fields = flagged.fields ∧ t.orderBy ≠ [] := by
    cases at_
    exact ⟨rfl, by decide⟩
  have sound : ∀ b ∈ [allTrue n], b.fields = t.fields ∧ b.Sound := by
    rw [shape.1]
    exact allTrue_sound n
  have fits : ¬ Oversized t [allTrue n] := by
    rintro ⟨i, below, past⟩
    rw [shape.1] at below
    exact allTrue_not_oversized n ⟨i, below, past⟩
  obtain ⟨sorted, made, _⟩ := sortBatches_of_fits defined_ shape.2 sound fits
  have none_ : sorted = [] := by
    refine SortSink.finish_wrapped sound (List.cons_ne_nil _ _) made ?_
    rwa [List.flatMap_singleton, allTrue_toRows, List.length_replicate]
  rw [flush_ordered defined_ shape.2, made, none_]
  rfl

/-- The flush of a DELETE and its tombstone both commit. -/
theorem deleted_wrapped {n : Nat} (wraps : asU32 n = 0) :
    ∃ s', (bufferedFlags n).delete plainWriter ⟨"d", "t"⟩ [⟨"a", .eq, .bool false⟩] 1 = .ok s' := by
  obtain ⟨t, at_⟩ : ∃ t, (bufferedFlags n).manifest.table ⟨"d", "t"⟩ = some t := ⟨_, rfl⟩
  let st : FlushState := ⟨(MergeState.start fun _ => none).logged [.createDir t.dir "_"], [(⟨"d", "t"⟩, [])]⟩
  have table : OpenStore.flushTable plainWriter 1 (bufferedFlags n).manifest ⟨.start fun _ => none, []⟩
      (⟨"d", "t"⟩, [allTrue n]) = .ok st := by
    have none_ := @flush_wrapped n plainWriter.opts.maxRows wraps t at_
    unfold OpenStore.flushTable
    rw [if_neg (by simp), at_]
    dsimp only
    rw [none_]
    cases at_
    rfl
  have buffer : (bufferedFlags n).pending.foldlM (OpenStore.flushTable plainWriter 1 (bufferedFlags n).manifest)
      ⟨.start fun _ => none, []⟩ = .ok st := by
    change (OpenStore.flushTable plainWriter 1 (bufferedFlags n).manifest ⟨.start fun _ => none, []⟩
      (⟨"d", "t"⟩, [allTrue n]) >>= pure) = _
    rw [table]
    rfl
  let flushed (m : Manifest) : OpenStore := ⟨m, st.state.files, 1 + st.state.drawn, [], []⟩
  obtain ⟨m, m', landed, taken⟩ : ∃ m m', (bufferedFlags n).commit plainWriter (st.edits 2) 1 = .ok m ∧
      (flushed m).commit plainWriter [.addTombstone ⟨"d", "t"⟩ [⟨"a", .eq, .bool false⟩]] 1 = .ok m' := by
    cases at_
    exact ⟨_, _, rfl, rfl⟩
  refine ⟨{ flushed m with manifest := m' }, Except.bind_eq_ok.mpr ⟨flushed m, ?_, Except.bind_eq_ok.mpr ⟨m', taken, rfl⟩⟩⟩
  refine Except.bind_eq_ok.mpr ⟨bufferedFlags n, rfl, Except.bind_eq_ok.mpr
    ⟨{ flushed m with pending := (bufferedFlags n).pending }, ?_, rfl⟩⟩
  exact Except.bind_eq_ok.mpr ⟨st, buffer, Except.bind_eq_ok.mpr ⟨m, landed, rfl⟩⟩

/-- A DELETE of no row, which loses every row. -/
theorem deleteFlags_wrapped {n : Nat} (some_ : 0 < n) (wraps : asU32 n = 0) :
    ∃ s', deleteFlags n false = .ok (0, s') ∧ ¬ DeleteExact (bufferedFlags n) s' ⟨"d", "t"⟩ 0 := by
  obtain ⟨t, at_⟩ : ∃ t, (bufferedFlags n).manifest.table ⟨"d", "t"⟩ = some t := ⟨_, rfl⟩
  have counted := countMatching_flags some_ at_
  obtain ⟨s', deleted_⟩ := deleted_wrapped wraps
  have scanned : scanAll (bufferedFlags n).files t = .ok [] := by
    cases at_
    rfl
  refine ⟨s', ?_, ?_⟩
  · have buffered : ((bufferedFlags n).bufferedOf ⟨"d", "t"⟩).map ColumnBatch.toRows = [(allTrue n).toRows] := rfl
    have bound : bindDeletePredicates checkedPlatform t.fields (flagIs false) = .ok [⟨"a", .eq, .bool false⟩] := by
      cases at_
      rfl
    unfold deleteFlags executeDelete
    simp only [at_]
    rw [buffered]
    refine Except.bind_eq_ok.mpr ⟨_, bound, Except.bind_eq_ok.mpr ⟨0, congrArg (Except.mapError Halt.returned) counted, ?_⟩⟩
    refine Except.bind_eq_ok.mpr ⟨0, rfl, Except.bind_eq_ok.mpr ⟨s', ?_, rfl⟩⟩
    rw [deleted_]
    rfl
  · rintro ⟨t₀, t₁, x, rows, rows', live, live', added, before, later, kept, count⟩
    obtain ⟨stored, u, seq, left_, each, found, tombstones, after, perm⟩ :=
      delete_scan (bufferedFlags_sourced n) at_ scanned deleted_
    rw [at_] at live
    cases live
    rw [found] at live'
    cases live'
    rw [after] at later
    cases later
    rw [scanned] at before
    cases before
    have shape : t.orderBy.isEmpty = false := by
      cases at_
      rfl
    have none_ : rows' = [] := by
      have gone : OpenStore.flushedOf t ⟨"d", "t"⟩ (bufferedFlags n).pending = [] := by
        change [(_, [allTrue n])].flatMap _ = []
        rw [List.flatMap_singleton, keptBy, shape, if_neg (by decide), List.flatMap_singleton, allTrue_toRows,
          List.length_replicate, wraps, List.take_zero]
      rw [gone] at perm
      exact perm.eq_nil
    rw [none_] at kept
    have all := List.filter_eq_nil_iff.mp kept.symm.eq_nil
    have untaken := List.countP_eq_zero.mp count.symm
    have member : [.bool true] ∈ (bufferedFlags n).seen ⟨"d", "t"⟩ [] := by
      change _ ∈ [] ++ [allTrue n].flatMap ColumnBatch.toRows
      rw [List.nil_append, List.flatMap_singleton, allTrue_toRows]
      exact List.mem_replicate.mpr ⟨by omega, rfl⟩
    exact all _ member (by simpa using untaken _ member)

end Wrapped

end Adelie
