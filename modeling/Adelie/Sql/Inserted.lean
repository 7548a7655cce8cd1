import Adelie.Manifest.Sourced
import Adelie.Sql.Insert

namespace Adelie

section Build

variable {P : Platform} {fields : List Field} {b b' : RowBuilder} {done : List Placement} {started : Placement}

/-- The calls that put a row into its targets. -/
def rowCalls (targets : List Nat) (row : Row) : List RowCall := targets.zipWith RowCall.setValue row

/-- What the row loop needs of each call it makes. -/
def RowClear (P : Platform) (targets : List Nat) (b : RowBuilder) (row : Row) : Prop :=
  Supplied (setTarget P row) (fun b target => ∀ v ∈ row[target.2]?, RowCall.Clear P b (.setValue target.1 v)) b
      targets.zipIdx ∧
    ∀ b', targets.zipIdx.foldlM (setTarget P row) b = .ok b' → RowCall.Clear P b' .endRow

/-- A loop that has stopped has stopped with an error it returns. -/
def Unpanicked {α : Type} (result : Except Halt α) : Prop := ∀ message, result ≠ .error (.panicked message)

theorem Unpanicked.ok {α : Type} (x : α) : Unpanicked (.ok x) := by
  intro message stopped
  cases stopped

theorem Unpanicked.returned {α : Type} (e : InsertError) : @Unpanicked α (.error (.returned e)) := by
  intro message stopped
  cases stopped

theorem Unpanicked.recast {α β : Type} {e : Halt} (calm : @Unpanicked α (.error e)) : @Unpanicked β (.error e) := by
  intro message stopped
  cases stopped
  exact calm message rfl

theorem setTargets_tracks {row : Row} {targets : List Nat} {k : Nat} (tracks : Tracks fields b done started)
    (wide : k + targets.length ≤ row.length)
    (clear : Supplied (setTarget P row) (fun b target => ∀ v ∈ row[target.2]?, RowCall.Clear P b (.setValue target.1 v)) b
      (targets.zipIdx k)) :
    Unpanicked ((targets.zipIdx k).foldlM (setTarget P row) b) ∧
      ∀ b', (targets.zipIdx k).foldlM (setTarget P row) b = .ok b' →
        ∃ placed, List.Forall₂ (Lands P fields) (rowCalls targets (row.drop k)) placed ∧
          Tracks fields b' done (started ++ placed.flatten) := by
  induction targets generalizing b started k with
  | nil =>
    refine ⟨.ok b, ?_⟩
    intro b' ran
    cases ran
    exact ⟨[], .nil, by simpa using tracks⟩
  | cons col rest ih =>
    have within : k < row.length := by
      simp only [List.length_cons] at wide
      omega
    have found := List.getElem?_eq_getElem within
    have step : setTarget P row b (col, k) = accept (b.setValue P col row[k]) := by
      rw [setTarget, index_eq_ok found]
      rfl
    rw [List.zipIdx_cons] at clear ⊢
    have calls : rowCalls (col :: rest) (row.drop k) = .setValue col row[k] :: rowCalls rest (row.drop (k + 1)) := by
      rw [List.drop_eq_getElem_cons within]
      rfl
    rcases tracks.setValue (clear.1 _ found) with ⟨e, refused⟩ | ⟨mid, p, accepted, lands, next⟩
    · rw [List.foldlM_cons, step, refused]
      refine ⟨.returned (.ingest e), ?_⟩
      intro b' ran
      cases ran
    · have stepped : setTarget P row b (col, k) = .ok mid := by
        rw [step, accepted]
        rfl
      obtain ⟨calm, tracked⟩ := ih next (by simp only [List.length_cons] at wide; omega) (clear.2 mid stepped)
      rw [List.foldlM_cons, stepped]
      refine ⟨calm, ?_⟩
      intro b' ran
      obtain ⟨placed, all, last⟩ := tracked b' ran
      refine ⟨p :: placed, ?_, ?_⟩
      · rw [calls]
        exact .cons lands all
      · simpa using last

theorem insertRow_tracks {row : Row} {targets : List Nat} (tracks : Tracks fields b done [])
    (wide : targets.length ≤ row.length) (clear : RowClear P targets b row) :
    Unpanicked (insertRow P targets b row) ∧ ∀ b', insertRow P targets b row = .ok b' →
      ∃ p, Fills P fields (rowCalls targets row) p ∧ Tracks fields b' (done ++ [p]) [] := by
  obtain ⟨calm, tracked⟩ := setTargets_tracks tracks (by simpa using wide) clear.1
  unfold insertRow
  cases set : targets.zipIdx.foldlM (setTarget P row) b with
  | error e =>
    rw [set] at calm
    refine ⟨calm, ?_⟩
    intro b' ran
    cases ran
  | ok mid =>
    obtain ⟨placed, all, next⟩ := tracked mid set
    obtain ⟨last, ended, next'⟩ := next.endRow (clear.2 mid set)
    have stepped : (do let b ← (Except.ok mid : Except Halt RowBuilder); accept (b.endRow P)) = .ok last := by
      show accept (mid.endRow P) = .ok last
      rw [ended]
      rfl
    rw [stepped]
    refine ⟨.ok last, ?_⟩
    intro b' ran
    cases ran
    rw [List.drop_zero] at all
    exact ⟨placed.flatten, ⟨by simpa using next.once, placed, all, rfl⟩, by simpa using next'⟩

theorem insertRows_tracks {rows : List Row} {targets : List Nat} (tracks : Tracks fields b done [])
    (wide : ∀ row ∈ rows, targets.length ≤ row.length) (clear : Supplied (insertRow P targets) (RowClear P targets) b rows) :
    Unpanicked (rows.foldlM (insertRow P targets) b) ∧ ∀ b', rows.foldlM (insertRow P targets) b = .ok b' →
      ∃ added, List.Forall₂ (fun row => Fills P fields (rowCalls targets row)) rows added ∧
        Tracks fields b' (done ++ added) [] := by
  induction rows generalizing b done with
  | nil =>
    refine ⟨.ok b, ?_⟩
    intro b' ran
    cases ran
    exact ⟨[], .nil, by simpa using tracks⟩
  | cons row rest ih =>
    have each := List.forall_mem_cons.mp wide
    obtain ⟨calm, tracked⟩ := insertRow_tracks tracks each.1 clear.1
    rw [List.foldlM_cons]
    cases stepped : insertRow P targets b row with
    | error e =>
      rw [stepped] at calm
      refine ⟨calm, ?_⟩
      intro b' ran
      cases ran
    | ok mid =>
      obtain ⟨p, fills, next⟩ := tracked mid stepped
      obtain ⟨calm', tracked'⟩ := ih next each.2 (clear.2 mid stepped)
      refine ⟨calm', ?_⟩
      intro b' ran
      obtain ⟨added, all, last⟩ := tracked' b' ran
      exact ⟨p :: added, .cons fills all, by simpa using last⟩

end Build

section Write

open Manifest

variable {w : Writer} {s s' : Arrival} {name : TableName} {t : TableEntry} {batch : ColumnBatch} {nowMs : Nat}

/-- A store a run of commits has led to, none of whose files bears an id still to be drawn. -/
structure Reached (s : Arrival) : Prop where
  history : ∃ commits, Admits Given Manifest.empty commits ∧ s.manifest = Manifest.empty.run commits
  unwritten : ∀ path : SegmentPath, s.nextId ≤ path.id → s.files path = none

/-- The table after the batch is written: its rows and those of the batch. -/
theorem write_eq_ok (reached : Reached s) (at_ : s.manifest.table name = some t) (own : batch.fields = t.fields)
    (sound : batch.Sound) (few : t.orderBy = [] ∨ batch.rows < 2 ^ 32) (wrote : s.write w name batch nowMs = .ok s') :
    ∃ t', s'.manifest.table name = some t' ∧ t'.schema = t.schema ∧ ∀ rows, scanAll s.files t = .ok rows →
      ∃ rows', scanAll s'.files t' = .ok rows' ∧ rows'.Perm (rows ++ batch.toRows) := by
  obtain ⟨commits, given, led⟩ := reached.history
  have coherent := (Sound.empty.of_given given).coherent
  have below := tombstonesBelow_of_run given (by intro t inside; cases inside)
  have defined_ := allDefined_of_run commits
  rw [← led] at coherent below defined_
  obtain ⟨live, _⟩ := Manifest.table_live at_
  have inside := entries_of_table live
  have names : (s.manifest.tables.map (·.name)).Nodup :=
    List.pairwise_map.mpr (coherent.sorted.imp fun less => less.ne)
  unfold Arrival.write at wrote
  simp only [at_] at wrote
  obtain ⟨_, _, wrote⟩ := Except.bind_eq_ok.mp wrote
  obtain ⟨_, _, wrote⟩ := Except.bind_eq_ok.mp wrote
  obtain ⟨outputs, flushed, wrote⟩ := Except.bind_eq_ok.mp wrote
  obtain ⟨st, put, wrote⟩ := Except.bind_eq_ok.mp wrote
  obtain ⟨m, committed, wrote⟩ := Except.bind_eq_ok.mp wrote
  obtain ⟨_, _, wrote⟩ := Except.bind_eq_ok.mp wrote
  cases wrote
  -- the flush keeps the rows
  have flushed := mapError_eq_ok flushed
  have kept : (outputs.map (List.map ColumnBatch.toRows)).flatten.flatten.Perm batch.toRows := by
    rw [← List.map_flatten, ← List.flatMap_def]
    have within : t.orderBy = [] ∨ ([batch].map ColumnBatch.rows).sum < 2 ^ 32 ∨ Oversized t [batch] :=
      few.imp_right fun small => .inl (by simpa using small)
    have all : ∀ b ∈ [batch], b.fields = t.fields ∧ b.Sound := by
      intro b member
      rw [List.mem_singleton.mp member]
      exact ⟨own, sound⟩
    rcases (returned_iff (defined_ t inside) all).mpr within with ⟨segments, returned, keeps⟩ | ⟨_, message, refused⟩
    · rw [flushed] at returned
      cases returned
      by_cases plain : t.orderBy = []
      · rw [keeps.unordered plain]
        simp
      · simpa using (keeps.ordered plain).perm
    · rw [flushed] at refused
      cases refused
  have fresh : Unwritten (s.nextId + ·) (MergeState.start s.files) := by
    intro k _ path same
    exact reached.unwritten path (same ▸ Nat.le_add_right s.nextId k)
  obtain ⟨made, adds, _, grown, _, written⟩ :=
    writeOutputs_eq_ok (add_injective s.nextId) (fresh.logged _) (mapError_eq_ok put)
  have ok := coherent.schemas t inside
  have rows := wrote_rows ok written
  rw [MergeState.logged_adds, MergeState.start_adds, List.nil_append] at adds
  obtain ⟨last, edited, applied⟩ := Except.bind_eq_ok.mp (mapError_eq_ok committed)
  cases applied
  rw [List.foldlM_cons] at edited
  obtain ⟨_, added, edited⟩ := Except.bind_eq_ok.mp edited
  cases edited
  obtain ⟨found, _⟩ := addSegments_table names at_ added
  rw [adds] at found
  have recent : ∀ g : SegmentEntry,
      t.tombstones.filter (fun x => ({ g with seq := s.manifest.version + 1 } : SegmentEntry).seq < x.seq) = [] := by
    intro g
    rw [List.filter_eq_nil_iff]
    intro x member
    have old := below t inside x member
    simp only [decide_eq_true_eq]
    omega
  refine ⟨_, found, rfl, ?_⟩
  intro before scanned
  obtain ⟨nonempty, engine, opens, checked, rfl⟩ := scanAll_eq_ok_iff.mp scanned
  refine ⟨_, scanAll_eq_ok_iff.mpr ⟨nonempty, engine, ?_, ?_, rfl⟩, ?_⟩
  · intro g member
    rcases List.mem_append.mp (mem_sortByKey.mp member) with old | new
    · exact (opens g old).mono grown
    · obtain ⟨o, brought, rfl⟩ := List.mem_map.mp new
      obtain ⟨_, _, one⟩ := List.Forall₂.source written brought
      exact one.opens ok
  · intro g member
    rcases List.mem_append.mp (mem_sortByKey.mp member) with old | new
    · exact checked g old
    · obtain ⟨o, _, rfl⟩ := List.mem_map.mp new
      simp only [TableEntry.tombstonesFor, recent o]
      rfl
  · have sorted := (sortByKey_perm SegmentEntry.order
      (t.segments ++ made.map fun g => { g with seq := s.manifest.version + 1 })).flatMap_right
        (visible st.files t.schema t.tombstones)
    refine sorted.trans ?_
    rw [List.flatMap_append]
    refine List.Perm.append ?_ ?_
    · rw [flatMap_visible_mono opens grown]
    · have each : ∀ g ∈ made, visible st.files t.schema t.tombstones { g with seq := s.manifest.version + 1 } =
          rowsOf st.files t.schema g := by
        intro g _
        rw [visible, recent g]
        exact List.filter_eq_self.mpr (by simp [deleted])
      rw [List.flatMap_map, List.flatMap_congr each, rows]
      exact kept

/-- Every row of the result is stored once, its values in the targets and NULL beside them. -/
def Inserted (P : Platform) (s s' : Arrival) (name : TableName) (t : TableEntry) (targets : List Nat)
    (result : List Row) : Prop :=
  ∃ t' added, s'.manifest.table name = some t' ∧ t'.schema = t.schema ∧
    List.Forall₂ (fun row => HoldsSets P t.fields (rowCalls targets row)) result added ∧
    ∀ rows, scanAll s.files t = .ok rows → ∃ rows', scanAll s'.files t' = .ok rows' ∧ rows'.Perm (rows ++ added)

/-- An INSERT of a query's result returns an error and changes nothing, or writes the result, whose columns are then
    as many as the targets. -/
structure InsertExact (P : Platform) (s : Arrival) (name : TableName) (columns : Option (List String))
    (query : Except InsertError QueryResult) (outcome : Arrival × Except Halt Nat) : Prop where
  total : Unpanicked outcome.2
  unchanged : ∀ e, outcome.2 = .error (.returned e) → outcome.1 = s
  written : ∀ n, outcome.2 = .ok n → ∃ result t targets, query = .ok result ∧ s.manifest.table name = some t ∧
    targetColumns (.new t.fields) columns = .ok targets ∧ result.fields.length = targets.length ∧
    n = result.rows.length ∧ Inserted P s outcome.1 name t targets result.rows

/-- As many columns as targets, calls that are clear, and rows a sorted table can number. -/
def InsertClear (P : Platform) (s : Arrival) (name : TableName) (columns : Option (List String))
    (result : QueryResult) : Prop :=
  ∀ t, s.manifest.table name = some t → ∀ targets, targetColumns (.new t.fields) columns = .ok targets →
    result.fields.length = targets.length ∧
    Supplied (insertRow P targets) (RowClear P targets) (.new t.fields) result.rows ∧
    (t.orderBy = [] ∨ result.rows.length < 2 ^ 32)

theorem QueryResult.width {result : QueryResult} {row : Row} (member : row ∈ result.rows) :
    row.length = result.fields.length := by
  obtain ⟨b, inside, own⟩ := List.mem_flatMap.mp member
  obtain ⟨i, _, rfl⟩ := List.mem_map.mp own
  obtain ⟨named, sound⟩ := result.each b inside
  rw [← named, ← sound.typed.length_eq]
  simp [ColumnBatch.row]

theorem QueryResult.rows_of_columnless {result : QueryResult} (none_ : result.fields = []) : result.rows = [] := by
  rw [QueryResult.rows, List.flatMap_eq_nil_iff]
  intro b inside
  obtain ⟨named, sound⟩ := result.each b inside
  have bare : b.columns = [] := by
    have count := sound.typed.length_eq
    rw [named, none_] at count
    exact List.length_eq_zero_iff.mp count
  simp [ColumnBatch.toRows, ColumnBatch.rows, bare]

theorem targetColumns_unpanicked (b : RowBuilder) (columns : Option (List String)) :
    Unpanicked (targetColumns b columns) := by
  cases columns with
  | none => exact .ok _
  | some names =>
    intro message stopped
    obtain ⟨n, _, refused⟩ := exists_of_mapM_error stopped
    split at refused
    · cases refused
    · cases refused

theorem targetColumns_lt {fields : List Field} {columns : Option (List String)} {targets : List Nat}
    (found : targetColumns (.new fields) columns = .ok targets) : ∀ i ∈ targets, i < fields.length := by
  intro i member
  cases columns with
  | none =>
    cases found
    exact List.mem_range.mp (List.mem_of_mem_filter member)
  | some names =>
    obtain ⟨n, _, resolved⟩ := List.Forall₂.source (forall₂_of_mapM_except found) member
    split at resolved
    · rename_i at_
      cases resolved
      exact (List.findIdx?_eq_some_iff_getElem.mp at_).1
    · cases resolved

/-- The batch an INSERT makes of a result: one row each. -/
theorem insertBatch_rows {ε : Type} {P : Platform} (bindValue : ε → DataType → Except SqlError Value)
    {fields : List Field} (distinct : (fields.map Field.name).Nodup) {columns : Option (List String)}
    {query : Except InsertError QueryResult}
    (clear : ∀ result, query = .ok result → ∀ targets, targetColumns (.new fields) columns = .ok targets →
      result.fields.length = targets.length ∧
      Supplied (insertRow P targets) (RowClear P targets) (.new fields) result.rows) :
    Unpanicked (insertBatch P bindValue fields columns (.query query)) ∧
      ∀ batch, insertBatch P bindValue fields columns (.query query) = .ok batch → ∃ result targets added,
        query = .ok result ∧ targetColumns (.new fields) columns = .ok targets ∧ batch.fields = fields ∧ batch.Sound ∧
        List.Forall₂ (fun row => Fills P fields (rowCalls targets row)) result.rows added ∧
        batch.toRows = added.map (rowOf fields) := by
  unfold insertBatch
  dsimp only
  cases found : targetColumns (.new fields) columns with
  | error e =>
    have calm := targetColumns_unpanicked (.new fields) columns
    rw [found] at calm
    refine ⟨calm.recast, ?_⟩
    intro batch made
    cases made
  | ok targets =>
    cases query with
    | error e =>
      refine ⟨.returned e, ?_⟩
      intro batch made
      cases made
    | ok result =>
      obtain ⟨count, clear⟩ := clear result rfl targets found
      have wide : ∀ row ∈ result.rows, targets.length ≤ row.length := by
        intro row member
        rw [QueryResult.width member, count]
      obtain ⟨calm, tracked⟩ := insertRows_tracks (RowBuilder.new_tracks fields) wide clear
      simp only [bind, Except.bind, Except.mapError]
      cases ran : result.rows.foldlM (insertRow P targets) (.new fields) with
      | error e =>
        rw [ran] at calm
        refine ⟨calm.recast, ?_⟩
        intro batch made
        cases made
      | ok b =>
        obtain ⟨added, all, tracks⟩ := tracked b ran
        have between : RowCall.Clear P b .finish := by
          intro set member
          obtain ⟨i, within, rfl⟩ := List.getElem_of_mem member
          have at_ := tracks.set_at i (by rwa [← tracks.set_length])
          rw [List.getElem?_eq_getElem within] at at_
          exact Option.some.inj at_
        have bare : fields = [] → [] ++ added = [] := by
          intro none_
          have empty : targets = [] := by
            rw [List.eq_nil_iff_forall_not_mem]
            intro i member
            have := targetColumns_lt found i member
            rw [none_] at this
            exact absurd this (Nat.not_lt_zero i)
          rw [empty] at count
          rw [QueryResult.rows_of_columnless (List.length_eq_zero_iff.mp count)] at all
          cases all
          rfl
        obtain ⟨_, batch, finished, named, same, sound, _⟩ := tracks.finish between bare distinct
        simp only [finished]
        refine ⟨.ok batch, ?_⟩
        intro batch' made
        cases made
        exact ⟨result, targets, added, rfl, rfl, named, sound, all, by simpa using same⟩

end Write

/-- One row of as many BOOL columns as there are names. -/
def flagRow (names : List String) (distinct : names.Nodup) : QueryResult where
  fields := names.map fun n => ⟨n, .bool⟩
  batches := [⟨names.map fun n => ⟨n, .bool⟩, names.map fun _ => ⟨.bool, [.bool true]⟩⟩]
  each := by
    intro b member
    rw [List.mem_singleton.mp member]
    refine ⟨rfl, ?_, ?_, ?_, ?_⟩
    · rw [List.forall₂_map_left_iff, List.forall₂_map_right_iff, List.forall₂_same]
      exact fun _ _ => rfl
    · intro c inside
      obtain ⟨n, _, rfl⟩ := List.mem_map.mp inside
      cases names with
      | nil => cases inside
      | cons n rest => rfl
    · rw [List.map_map]
      change (names.map id).Nodup
      rwa [List.map_id]
    · intro c inside
      obtain ⟨n, _, rfl⟩ := List.mem_map.mp inside
      exact ⟨by simp [Value.HasType, Value.HasScalarType], allTrue_fits 1⟩

def plainWriter : Writer := ⟨plainFooter, fun _ => .ok (), tightOptions⟩

theorem newFlags_reached : Reached newFlags :=
  ⟨⟨oneFlag, by decide, rfl⟩, fun _ _ => rfl⟩

def insertFlags (names : List String) (distinct : names.Nodup) : Arrival × Except Halt Nat :=
  executeInsert checkedPlatform (fun (v : Value) _ => .ok v) plainWriter newFlags ⟨"d", "t"⟩ none
    (.query (.ok (flagRow names distinct))) 1

end Adelie
