import Adelie.Exec.Joined

namespace Adelie

section Cells

variable {b : ColumnBatch} {cells : List Value} {v : Value}

theorem FitsOffsets.small (fits : FitsOffsets cells) (member : v ∈ cells) : v.Small := by
  have data := dataLen_of_mem member
  have total := fits.data
  cases v with
  | list items =>
    have children := childLen_of_mem member
    have count := fits.children
    refine ⟨by simp only [elements] at children; omega, fun w inside => ?_⟩
    have listed : w ∈ cells.flatMap elements := List.mem_flatMap.mpr ⟨_, member, inside⟩
    have inner := dataLen_of_mem listed
    have bytes := fits.childData
    cases w <;> first | exact True.intro | (simp only [rowBytes] at inner; exact lt_of_le_of_lt inner bytes)
  | string s => exact lt_of_le_of_lt data total
  | bytes b => exact lt_of_le_of_lt data total
  | _ => exact True.intro

theorem rowCell_row (b : ColumnBatch) (i k : Nat) :
    rowCell (b.row i) k = ((b.columns[k]?).bind fun c => c.cells[i]?).getD .null := by
  simp only [rowCell, ColumnBatch.row, List.getElem?_map]
  cases b.columns[k]? <;> rfl

/-- A key cell is of its field's type, and short enough for its key to hold its length. -/
theorem rowCell_typed (sound : b.Sound) {k : Nat} {f : Field} (at_ : b.fields[k]? = some f) (i : Nat) :
    (rowCell (b.row i) k).HasType f.ty ∧ (rowCell (b.row i) k).Small := by
  obtain ⟨within, rfl⟩ := List.getElem?_eq_some_iff.mp at_
  have within' : k < b.columns.length := by rw [sound.typed.length_eq]; exact within
  have ty : b.columns[k].ty = b.fields[k].ty := sound.typed.get within' within
  rw [rowCell_row, List.getElem?_eq_getElem within', Option.bind_some]
  have column := sound.columns _ (List.getElem_mem within')
  cases cell : b.columns[k].cells[i]? with
  | none =>
    refine ⟨?_, True.intro⟩
    cases b.fields[k].ty <;> exact True.intro
  | some v =>
    have member := List.mem_of_getElem? cell
    rw [← ty]
    exact ⟨column.typed v member, column.fits.small member⟩

end Cells

section Matching

variable {on : List (Nat × Nat)} {l r : Row}

theorem rowsMatch_eq (on : List (Nat × Nat)) (l r : Row) :
    rowsMatch on l r = keysEqual ((on.map Prod.fst).map (rowCell l)) ((on.map Prod.snd).map (rowCell r)) := by
  simp only [rowsMatch, keysEqual, List.map_map, List.zip_map', List.all_map]
  rfl

/-- NULL and NaN equal nothing. -/
def Unequal : Value → Prop
  | .null => True
  | .float64 f => f.isNaN
  | _ => False

theorem sqlEq_of_unequal {v w : Value} (never : Unequal v ∨ Unequal w) : sqlEq v w ≠ some true := by
  rcases never with never | never
  · cases v <;> first | exact never.elim | skip
    · cases w <;> simp [sqlEq, scalarSqlEq]
    · rename_i f
      have nan : f.isNaN = true := never
      cases w <;> simp [sqlEq, scalarSqlEq, nan]
  · cases w <;> first | exact never.elim | skip
    · cases v <;> simp [sqlEq, scalarSqlEq]
    · rename_i f
      have nan : f.isNaN = true := never
      cases v <;> simp [sqlEq, scalarSqlEq, nan]

theorem rowsMatch_of_unequal {k : Nat × Nat} (key : k ∈ on)
    (never : Unequal (rowCell l k.1) ∨ Unequal (rowCell r k.2)) : rowsMatch on l r = false := by
  by_contra all
  rw [Bool.not_eq_false, rowsMatch, List.all_eq_true] at all
  exact sqlEq_of_unequal never (of_decide_eq_true (all k key))

end Matching

section Pairs

variable {kind : JoinKind} {on : List (Nat × Nat)} {width n m : Nat} {f g : Nat → Row}

/-- The row a pair of row numbers stands for. -/
def joinedRow (f g : Nat → Row) (width : Nat) : Nat × Option Nat → Row
  | (i, some j) => f i ++ g j
  | (i, none) => f i ++ List.replicate width .null

/-- Row `i`'s pairs. -/
def hitPairs (kind : JoinKind) (i : Nat) : List Nat → List (Nat × Option Nat)
  | [] => if kind = .left then [(i, none)] else []
  | hits => hits.map fun j => (i, some j)

theorem zipIdx_map_range (f : Nat → Row) (n : Nat) :
    ((List.range n).map f).zipIdx = (List.range n).map fun i => (f i, i) := by
  apply List.ext_getElem
  · simp
  · intro i left right
    simp

theorem joinPairs_eq :
    joinPairs kind on ((List.range n).map f) ((List.range m).map g) =
      (List.range n).flatMap fun i => hitPairs kind i ((List.range m).filter fun j => rowsMatch on (f i) (g j)) := by
  simp only [joinPairs, zipIdx_map_range, List.flatMap_map]
  congr 1
  funext i
  have hits : (((List.range m).map fun j => (g j, j)).filter fun r => rowsMatch on (f i) r.1) =
      ((List.range m).filter fun j => rowsMatch on (f i) (g j)).map fun j => (g j, j) := by
    rw [List.filter_map]
    rfl
  rw [hits]
  cases (List.range m).filter fun j => rowsMatch on (f i) (g j) with
  | nil => rfl
  | cons j rest => simp [hitPairs]

theorem nestedLoop_eq :
    nestedLoop kind on width ((List.range n).map f) ((List.range m).map g) =
      (joinPairs kind on ((List.range n).map f) ((List.range m).map g)).map (joinedRow f g width) := by
  rw [joinPairs_eq, List.map_flatMap, nestedLoop, List.flatMap_map]
  congr 1
  funext i
  have hits : ((List.range m).map g).filter (rowsMatch on (f i)) =
      ((List.range m).filter fun j => rowsMatch on (f i) (g j)).map g := by
    rw [List.filter_map]
    rfl
  rw [hits]
  cases (List.range m).filter fun j => rowsMatch on (f i) (g j) with
  | nil => by_cases keeps : kind = .left <;> simp [hitPairs, keeps, joinedRow]
  | cons j rest => simp [hitPairs, joinedRow]

theorem joinPairs_inside {p : Nat × Option Nat}
    (member : p ∈ joinPairs kind on ((List.range n).map f) ((List.range m).map g)) :
    p.1 < n ∧ ∀ j, p.2 = some j → j < m := by
  rw [joinPairs_eq] at member
  obtain ⟨i, row, inside⟩ := List.mem_flatMap.mp member
  rw [List.mem_range] at row
  have within : ∀ j ∈ (List.range m).filter fun j => rowsMatch on (f i) (g j), j < m := by
    intro j hit
    exact List.mem_range.mp (List.mem_filter.mp hit).1
  generalize (List.range m).filter (fun j => rowsMatch on (f i) (g j)) = hits at inside within
  cases hits with
  | nil =>
    rw [hitPairs] at inside
    split at inside
    · rw [List.mem_singleton] at inside
      subst inside
      exact ⟨row, nofun⟩
    · cases inside
  | cons j rest =>
    obtain ⟨j', hit, rfl⟩ := List.mem_map.mp inside
    refine ⟨row, fun j'' same => ?_⟩
    cases same
    exact within _ hit

end Pairs

section Opened

variable {leftFields rightFields : List Field} {kind : JoinKind} {on : List (Nat × Nat)}

/-- What the executor has checked of a join it runs. -/
structure Accepted (leftFields rightFields : List Field) (on : List (Nat × Nat)) : Prop where
  keys : ∀ k ∈ on, ∃ l r, leftFields[k.1]? = some l ∧ rightFields[k.2]? = some r ∧ l.ty = r.ty
  distinct : ((leftFields ++ rightFields).map Field.name).Nodup

theorem checkKeyTypes_ok {keys : List (Nat × Nat)}
    (checked : HashJoinProbe.checkKeyTypes leftFields rightFields keys = .ok ()) :
    ∀ k ∈ keys, ∃ l r, leftFields[k.1]? = some l ∧ rightFields[k.2]? = some r ∧ l.ty = r.ty := by
  induction keys with
  | nil => nofun
  | cons k rest ih =>
    obtain ⟨pk, bk⟩ := k
    rw [HashJoinProbe.checkKeyTypes] at checked
    split at checked
    · rename_i l r left right
      split at checked
      · rename_i same
        intro k member
        rcases List.mem_cons.mp member with rfl | member
        · exact ⟨l, r, left, right, same⟩
        · exact ih checked k member
      · cases checked
    · cases checked

theorem openJoin_ok {builds : List ColumnBatch} {p : HashJoinProbe}
    (opened : openJoin leftFields rightFields kind on builds = .ok p) :
    ∃ batch, concatBatches rightFields builds = .ok batch ∧ Accepted leftFields batch.fields on ∧
      p = ⟨⟨batch, Multimap.group (fun row => encodeRowKey .skip (keyCells batch (on.map Prod.snd) row)) asU32
        (List.range batch.rows), on.map Prod.snd⟩, leftFields ++ batch.fields, on.map Prod.fst, kind⟩ := by
  unfold openJoin at opened
  split at opened
  · split at opened <;> cases opened
  · obtain ⟨table, built, new⟩ := Except.bind_eq_ok.mp opened
    obtain ⟨batch, concat, made⟩ := Except.bind_eq_ok.mp built
    cases made
    unfold HashJoinProbe.new at new
    obtain ⟨_, _, new⟩ := Except.bind_eq_ok.mp new
    obtain ⟨⟨⟩, types, new⟩ := Except.bind_eq_ok.mp new
    split at new
    · cases new
    · rename_i names
      cases new
      refine ⟨batch, concat, ⟨?_, repeatedName_eq_none.mp names⟩, rfl⟩
      have zipped : (on.map Prod.fst).zip (on.map Prod.snd) = on := by
        rw [List.zip_map']
        simp
      rw [zipped] at types
      exact checkKeyTypes_ok types

end Opened

section Probe

variable {leftFields : List Field} {kind : JoinKind} {on : List (Nat × Nat)} {batch b : ColumnBatch}

/-- The probe that `openJoin` returns over a build side. -/
def probeOver (leftFields : List Field) (kind : JoinKind) (on : List (Nat × Nat)) (batch : ColumnBatch) :
    HashJoinProbe :=
  ⟨⟨batch, Multimap.group (fun row => encodeRowKey .skip (keyCells batch (on.map Prod.snd) row)) asU32
    (List.range batch.rows), on.map Prod.snd⟩, leftFields ++ batch.fields, on.map Prod.fst, kind⟩

/-- Two rows share a key exactly when they match. -/
theorem rowKey_iff_match (accepted : Accepted b.fields batch.fields on) (probed : b.Sound) (built : batch.Sound)
    (i j : Nat) :
    (∃ k, encodeRowKey .skip (keyCells b (on.map Prod.fst) i) = some k ∧
      encodeRowKey .skip (keyCells batch (on.map Prod.snd) j) = some k) ↔ rowsMatch on (b.row i) (batch.row j) := by
  have typed : ∀ k ∈ on, ∃ ty, ((rowCell (b.row i) k.1).HasType ty ∧ (rowCell (b.row i) k.1).Small) ∧
      (rowCell (batch.row j) k.2).HasType ty ∧ (rowCell (batch.row j) k.2).Small := by
    intro k member
    obtain ⟨l, r, left, right, same⟩ := accepted.keys k member
    have right := rowCell_typed built right j
    rw [← same] at right
    exact ⟨l.ty, rowCell_typed probed left i, right⟩
  have : Nonempty DataType := ⟨.bool⟩
  choose! ty types using typed
  have left : List.Forall₂ Value.HasType (keyCells b (on.map Prod.fst) i) (on.map ty) := by
    rw [keyCells, List.map_map, List.forall₂_map_left_iff, List.forall₂_map_right_iff, List.forall₂_same]
    intro k member
    exact (types k member).1.1
  have right : List.Forall₂ Value.HasType (keyCells batch (on.map Prod.snd) j) (on.map ty) := by
    rw [keyCells, List.map_map, List.forall₂_map_left_iff, List.forall₂_map_right_iff, List.forall₂_same]
    intro k member
    exact (types k member).2.1
  rw [rowsMatch_eq]
  apply rowKey_eq_iff left right
  · intro v member
    rw [keyCells, List.map_map] at member
    obtain ⟨k, key, rfl⟩ := List.mem_map.mp member
    exact (types k key).1.2
  · intro v member
    rw [keyCells, List.map_map] at member
    obtain ⟨k, key, rfl⟩ := List.mem_map.mp member
    exact (types k key).2.2

/-- The pairs the code records are the nested loop's, each row number cut to 32 bits. -/
theorem indices_eq (accepted : Accepted b.fields batch.fields on) (probed : b.Sound) (built : batch.Sound) :
    (probeOver b.fields kind on batch).indices b =
      (joinPairs kind on b.toRows batch.toRows).map fun p => (asU32 p.1, p.2.map asU32) := by
  have key := rowKey_iff_match accepted probed built
  simp only [ColumnBatch.toRows, joinPairs_eq, HashJoinProbe.indices, probeOver, List.map_flatMap]
  congr 1
  funext i
  cases here : encodeRowKey .skip (keyCells b (on.map Prod.fst) i) with
  | none =>
    have nothing : (List.range batch.rows).filter (fun j => rowsMatch on (b.row i) (batch.row j)) = [] := by
      rw [List.filter_eq_nil_iff]
      intro j _ hit
      obtain ⟨k, found, _⟩ := (key i j).mpr hit
      rw [here] at found
      cases found
    rw [nothing, Option.bind_none]
    by_cases keeps : kind = .left <;> simp [hitPairs, keeps]
  | some k =>
    have same : (List.range batch.rows).filter
        (fun j => encodeRowKey .skip (keyCells batch (on.map Prod.snd) j) = some k) =
        (List.range batch.rows).filter fun j => rowsMatch on (b.row i) (batch.row j) := by
      apply List.filter_congr
      intro j _
      rw [Bool.eq_iff_iff, decide_eq_true_eq, ← key i j, here]
      constructor
      · intro found
        exact ⟨k, rfl, found⟩
      · rintro ⟨_, first, found⟩
        cases first
        exact found
    rw [Option.bind_some, Multimap.get?_group, same]
    cases (List.range batch.rows).filter fun j => rowsMatch on (b.row i) (batch.row j) with
    | nil => by_cases keeps : kind = .left <;> simp [hitPairs, keeps]
    | cons j rest => simp [hitPairs]

end Probe

section Panics

variable {α β : Type} {f : α → Except ExecError β}

/-- Where a step can only panic, so can the whole traversal. -/
theorem mapM_panics {l : List α} (each : ∀ x ∈ l, (∃ y, f x = .ok y) ∨ ∃ m, f x = .error (.panicked m))
    (one : ∃ x ∈ l, ∃ m, f x = .error (.panicked m)) : ∃ m, l.mapM f = .error (.panicked m) := by
  induction l with
  | nil =>
    obtain ⟨x, member, _⟩ := one
    cases member
  | cons x rest ih =>
    rw [List.mapM_cons]
    rcases each x (.head _) with ⟨y, head⟩ | ⟨m, head⟩
    · obtain ⟨z, member, m, bad⟩ := one
      have later : z ∈ rest := by
        rcases List.mem_cons.mp member with rfl | member
        · rw [head] at bad
          cases bad
        · exact member
      obtain ⟨m, stopped⟩ := ih (fun z inside => each z (.tail _ inside)) ⟨z, later, m, bad⟩
      rw [head, stopped]
      exact ⟨m, rfl⟩
    · rw [head]
      exact ⟨m, rfl⟩

end Panics

section Emit

variable {leftFields : List Field} {kind : JoinKind} {on : List (Nat × Nat)} {batch b : ColumnBatch}
  {chunk : List (Nat × Option Nat)}

/-- The cells a chunk takes of a probe column, and of a build column. -/
def leftPicks (chunk : List (Nat × Option Nat)) (c : Column) : List Value :=
  chunk.map fun p => c.cells[p.1]?.getD .null

def rightPicks (chunk : List (Nat × Option Nat)) (c : Column) : List Value :=
  chunk.map fun p => (p.2.bind fun j => c.cells[j]?).getD .null

/-- The rows a chunk stands for. -/
def chunkRows (b batch : ColumnBatch) (chunk : List (Nat × Option Nat)) : List Row :=
  chunk.map (joinedRow b.row batch.row batch.columns.length)

theorem joinedRow_eq (b batch : ColumnBatch) (p : Nat × Option Nat) :
    joinedRow b.row batch.row batch.columns.length p =
      (b.columns.map fun c => c.cells[p.1]?.getD .null) ++
        batch.columns.map fun c => (p.2.bind fun j => c.cells[j]?).getD .null := by
  obtain ⟨i, j⟩ := p
  cases j with
  | none => simp [joinedRow, ColumnBatch.row, List.map_const']
  | some j => simp [joinedRow, ColumnBatch.row]

theorem chunkRows_left {k : Nat} {c : Column} (at_ : b.columns[k]? = some c) :
    (chunkRows b batch chunk).map (rowCell · k) = leftPicks chunk c := by
  obtain ⟨within, rfl⟩ := List.getElem?_eq_some_iff.mp at_
  simp only [chunkRows, leftPicks, List.map_map]
  apply List.map_congr_left
  intro p _
  simp only [Function.comp, joinedRow_eq, rowCell]
  rw [List.getElem?_append_left (by simpa using within), List.getElem?_map, List.getElem?_eq_getElem within]
  rfl

theorem chunkRows_right {k : Nat} {c : Column} (at_ : batch.columns[k]? = some c) :
    (chunkRows b batch chunk).map (rowCell · (b.columns.length + k)) = rightPicks chunk c := by
  obtain ⟨within, rfl⟩ := List.getElem?_eq_some_iff.mp at_
  simp only [chunkRows, rightPicks, List.map_map]
  apply List.map_congr_left
  intro p _
  simp only [Function.comp, joinedRow_eq, rowCell]
  rw [List.getElem?_append_right (by simp), List.length_map, Nat.add_sub_cancel_left, List.getElem?_map,
    List.getElem?_eq_getElem within]
  rfl

/-- Every column of these rows, of which there are `width`, keeps its offsets in range. -/
def Roomy (width : Nat) (rows : List Row) : Prop := ∀ k < width, FitsOffsets (rows.map (rowCell · k))

theorem roomy_chunkRows :
    Roomy (b.columns.length + batch.columns.length) (chunkRows b batch chunk) ↔
      (∀ c ∈ b.columns, FitsOffsets (leftPicks chunk c)) ∧ ∀ c ∈ batch.columns, FitsOffsets (rightPicks chunk c) := by
  constructor
  · intro roomy
    constructor
    · intro c member
      obtain ⟨k, within, rfl⟩ := List.getElem_of_mem member
      rw [← chunkRows_left (List.getElem?_eq_getElem within)]
      exact roomy k (by omega)
    · intro c member
      obtain ⟨k, within, rfl⟩ := List.getElem_of_mem member
      rw [← chunkRows_right (List.getElem?_eq_getElem within)]
      exact roomy _ (by omega)
  · rintro ⟨left, right⟩ k within
    by_cases first : k < b.columns.length
    · rw [chunkRows_left (List.getElem?_eq_getElem first)]
      exact left _ (List.getElem_mem first)
    · obtain ⟨k, rfl⟩ := Nat.exists_eq_add_of_le (Nat.not_lt.mp first)
      have second : k < batch.columns.length := by omega
      rw [chunkRows_right (List.getElem?_eq_getElem second)]
      exact right _ (List.getElem_mem second)

section Columns

variable (probed : b.Sound) (built : batch.Sound)
  (inside : ∀ p ∈ chunk, p.1 < b.rows ∧ ∀ j, p.2 = some j → j < batch.rows)

include probed inside in
theorem takeRows_eq {c : Column} (member : c ∈ b.columns) :
    takeRows c (chunk.map Prod.fst) = rebuild c.ty (leftPicks chunk c) := by
  rw [takeRows, takeOpt_eq]
  · simp only [leftPicks, List.map_map]
    rfl
  · intro i there
    simp only [List.mem_map] at there
    obtain ⟨_, ⟨p, inChunk, rfl⟩, same⟩ := there
    cases same
    rw [probed.even c member]
    exact (inside p inChunk).1

include built inside in
theorem takeOpt_right {c : Column} (member : c ∈ batch.columns) :
    takeOpt c (chunk.map Prod.snd) = rebuild c.ty (rightPicks chunk c) := by
  rw [takeOpt_eq]
  · simp only [rightPicks, List.map_map]
    rfl
  · intro j there
    obtain ⟨p, inChunk, same⟩ := List.mem_map.mp there
    rw [built.even c member]
    exact (inside p inChunk).2 j same

include probed in
theorem rebuild_left {c : Column} (member : c ∈ b.columns) :
    (FitsOffsets (leftPicks chunk c) → rebuild c.ty (leftPicks chunk c) = .ok ⟨c.ty, leftPicks chunk c⟩) ∧
    (¬FitsOffsets (leftPicks chunk c) → ∃ m, rebuild c.ty (leftPicks chunk c) = .error (.panicked m)) := by
  apply rebuild_iff
  have typed := pick_typed (probed.columns c member) (chunk.map fun p => some p.1)
  rw [List.map_map] at typed
  exact typed

include built in
theorem rebuild_right {c : Column} (member : c ∈ batch.columns) :
    (FitsOffsets (rightPicks chunk c) → rebuild c.ty (rightPicks chunk c) = .ok ⟨c.ty, rightPicks chunk c⟩) ∧
    (¬FitsOffsets (rightPicks chunk c) → ∃ m, rebuild c.ty (rightPicks chunk c) = .error (.panicked m)) := by
  apply rebuild_iff
  have typed := pick_typed (built.columns c member) (chunk.map Prod.snd)
  rw [List.map_map] at typed
  exact typed

include probed inside in
theorem takeLeft {c : Column} (member : c ∈ b.columns) :
    (FitsOffsets (leftPicks chunk c) → takeRows c (chunk.map Prod.fst) = .ok ⟨c.ty, leftPicks chunk c⟩) ∧
    (¬FitsOffsets (leftPicks chunk c) → ∃ m, takeRows c (chunk.map Prod.fst) = .error (.panicked m)) := by
  rw [takeRows_eq probed inside member]
  exact rebuild_left probed member

include built inside in
theorem takeRight {c : Column} (member : c ∈ batch.columns) :
    (FitsOffsets (rightPicks chunk c) → takeOpt c (chunk.map Prod.snd) = .ok ⟨c.ty, rightPicks chunk c⟩) ∧
    (¬FitsOffsets (rightPicks chunk c) → ∃ m, takeOpt c (chunk.map Prod.snd) = .error (.panicked m)) := by
  rw [takeOpt_right built inside member]
  exact rebuild_right built member

/-- The columns a chunk comes out with. -/
def joinedColumns (b batch : ColumnBatch) (chunk : List (Nat × Option Nat)) : List Column :=
  (b.columns.map fun c => ⟨c.ty, leftPicks chunk c⟩) ++ batch.columns.map fun c => ⟨c.ty, rightPicks chunk c⟩

include inside in
/-- A chunk has a row, so its probe batch has a column to count rows by. -/
theorem rows_joinedColumns (some_ : chunk ≠ []) (fields : List Field) :
    (ColumnBatch.mk fields (joinedColumns b batch chunk)).rows = chunk.length := by
  obtain ⟨p, rest, rfl⟩ := List.exists_cons_of_ne_nil some_
  have pos := (inside p (.head _)).1
  cases columns : b.columns with
  | nil => simp [ColumnBatch.rows, columns] at pos
  | cons c others => simp [ColumnBatch.rows, joinedColumns, columns, leftPicks]

include probed built inside in
theorem new_joinedColumns (some_ : chunk ≠ []) (distinct : ((b.fields ++ batch.fields).map Field.name).Nodup) :
    ColumnBatch.new (b.fields ++ batch.fields) (joinedColumns b batch chunk) =
      .ok ⟨b.fields ++ batch.fields, joinedColumns b batch chunk⟩ := by
  rw [ColumnBatch.new_eq_ok, rows_joinedColumns inside some_]
  refine ⟨rfl, ?_, ?_, distinct⟩
  · apply List.rel_append
    · rw [List.forall₂_map_left_iff]
      exact probed.typed
    · rw [List.forall₂_map_left_iff]
      exact built.typed
  · intro c member
    rcases List.mem_append.mp member with member | member
    · obtain ⟨_, _, rfl⟩ := List.mem_map.mp member
      simp [leftPicks]
    · obtain ⟨_, _, rfl⟩ := List.mem_map.mp member
      simp [rightPicks]

include inside in
theorem toRows_joinedColumns (some_ : chunk ≠ []) (fields : List Field) :
    (ColumnBatch.mk fields (joinedColumns b batch chunk)).toRows = chunkRows b batch chunk := by
  simp only [ColumnBatch.toRows, rows_joinedColumns inside some_, chunkRows]
  apply List.ext_getElem
  · simp
  · intro i within _
    have within : i < chunk.length := by simpa using within
    simp [ColumnBatch.row, joinedColumns, joinedRow_eq, leftPicks, rightPicks, List.getElem?_eq_getElem within,
      Function.comp_def]

include probed built inside in
/-- A chunk comes out as its rows while every column has room. -/
theorem emit_roomy (some_ : chunk ≠ []) (distinct : ((b.fields ++ batch.fields).map Field.name).Nodup)
    (roomy : Roomy (b.columns.length + batch.columns.length) (chunkRows b batch chunk)) :
    ∃ out, (probeOver b.fields kind on batch).emit b chunk = .ok out ∧ out.toRows = chunkRows b batch chunk := by
  obtain ⟨fits, fits'⟩ := roomy_chunkRows.mp roomy
  have lefts : b.columns.mapM (fun c => takeRows c (chunk.map Prod.fst)) =
      .ok (b.columns.map fun c => ⟨c.ty, leftPicks chunk c⟩) := by
    apply mapM_except_of_forall₂
    rw [List.forall₂_map_right_iff, List.forall₂_same]
    intro c member
    exact (takeLeft probed inside member).1 (fits c member)
  have rights : batch.columns.mapM (fun c => takeOpt c (chunk.map Prod.snd)) =
      .ok (batch.columns.map fun c => ⟨c.ty, rightPicks chunk c⟩) := by
    apply mapM_except_of_forall₂
    rw [List.forall₂_map_right_iff, List.forall₂_same]
    intro c member
    exact (takeRight built inside member).1 (fits' c member)
  have made := new_joinedColumns probed built inside some_ distinct
  refine ⟨_, ?_, toRows_joinedColumns inside some_ (b.fields ++ batch.fields)⟩
  simp only [HashJoinProbe.emit, probeOver, lefts, rights, bind, Except.bind]
  rw [joinedColumns] at made
  rw [made]
  rfl

include probed built inside in
/-- One column without room stops the chunk. -/
theorem emit_panics (tight : ¬Roomy (b.columns.length + batch.columns.length) (chunkRows b batch chunk)) :
    ∃ m, (probeOver b.fields kind on batch).emit b chunk = .error (.panicked m) := by
  have leftOutcome : ∀ c ∈ b.columns, (∃ y, takeRows c (chunk.map Prod.fst) = .ok y) ∨
      ∃ m, takeRows c (chunk.map Prod.fst) = .error (.panicked m) := by
    intro c member
    by_cases fits : FitsOffsets (leftPicks chunk c)
    · exact .inl ⟨_, (takeLeft probed inside member).1 fits⟩
    · exact .inr ((takeLeft probed inside member).2 fits)
  have rightOutcome : ∀ c ∈ batch.columns, (∃ y, takeOpt c (chunk.map Prod.snd) = .ok y) ∨
      ∃ m, takeOpt c (chunk.map Prod.snd) = .error (.panicked m) := by
    intro c member
    by_cases fits : FitsOffsets (rightPicks chunk c)
    · exact .inl ⟨_, (takeRight built inside member).1 fits⟩
    · exact .inr ((takeRight built inside member).2 fits)
  rw [roomy_chunkRows] at tight
  by_cases fits : ∀ c ∈ b.columns, FitsOffsets (leftPicks chunk c)
  · have bad : ∃ c ∈ batch.columns, ¬FitsOffsets (rightPicks chunk c) := by
      by_contra all
      push Not at all
      exact tight ⟨fits, all⟩
    obtain ⟨c, member, past⟩ := bad
    obtain ⟨m, stopped⟩ := mapM_panics rightOutcome ⟨c, member, (takeRight built inside member).2 past⟩
    have taken : ∃ lefts, b.columns.mapM (fun c => takeRows c (chunk.map Prod.fst)) = .ok lefts :=
      exists_mapM_eq_ok fun c member => ⟨_, (takeLeft probed inside member).1 (fits c member)⟩
    obtain ⟨lefts, taken⟩ := taken
    refine ⟨m, ?_⟩
    simp only [HashJoinProbe.emit, probeOver, taken, stopped, bind, Except.bind]
  · push Not at fits
    obtain ⟨c, member, past⟩ := fits
    obtain ⟨m, stopped⟩ := mapM_panics leftOutcome ⟨c, member, (takeLeft probed inside member).2 past⟩
    refine ⟨m, ?_⟩
    simp only [HashJoinProbe.emit, stopped, bind, Except.bind]

end Columns

end Emit

section Run

variable {leftFields rightFields : List Field} {kind : JoinKind} {on : List (Nat × Nat)}

theorem nestedLoop_flatMap {α : Type} (width : Nat) (f : α → List Row) (l : List α) (right : List Row) :
    nestedLoop kind on width (l.flatMap f) right = l.flatMap fun a => nestedLoop kind on width (f a) right := by
  rw [nestedLoop, List.flatMap_assoc]
  rfl

/-- Row numbers that 32 bits hold, and room for every chunk of the joined rows. -/
structure Holds (kind : JoinKind) (on : List (Nat × Nat)) (width rightWidth : Nat) (left right : List Row) : Prop where
  numbered : ∀ p ∈ joinPairs kind on left right, p.1 < 2 ^ 32 ∧ ∀ j, p.2 = some j → j < 2 ^ 32
  roomy : ∀ chunk ∈ chunks batchRows (nestedLoop kind on rightWidth left right), Roomy (width + rightWidth) chunk

section Batch

variable {b batch : ColumnBatch} (probed : b.Sound) (built : batch.Sound)
  (accepted : Accepted b.fields batch.fields on)

theorem chunks_nestedLoop (b batch : ColumnBatch) :
    chunks batchRows (nestedLoop kind on batch.columns.length b.toRows batch.toRows) =
      (chunks batchRows (joinPairs kind on b.toRows batch.toRows)).map (chunkRows b batch) := by
  rw [ColumnBatch.toRows, ColumnBatch.toRows, nestedLoop_eq, chunks_map]
  rfl

theorem chunk_inside {chunk : List (Nat × Option Nat)}
    (piece : chunk ∈ chunks batchRows (joinPairs kind on b.toRows batch.toRows)) :
    ∀ p ∈ chunk, p.1 < b.rows ∧ ∀ j, p.2 = some j → j < batch.rows := by
  intro p member
  have whole := List.mem_flatten.mpr ⟨chunk, piece, member⟩
  rw [flatten_chunks (by decide), ColumnBatch.toRows, ColumnBatch.toRows] at whole
  exact joinPairs_inside whole

include probed built accepted in
/-- A batch joins to the nested loop's rows while its pairs are numbered right and its chunks have room. -/
theorem push_holds (holds : Holds kind on b.columns.length batch.columns.length b.toRows batch.toRows) :
    (probeOver b.fields kind on batch).indices b = joinPairs kind on b.toRows batch.toRows ∧
      ∃ out, (probeOver b.fields kind on batch).push b = .ok out ∧
        out.flatMap ColumnBatch.toRows = nestedLoop kind on batch.columns.length b.toRows batch.toRows := by
  have numbered : (probeOver b.fields kind on batch).indices b = joinPairs kind on b.toRows batch.toRows := by
    rw [indices_eq accepted probed built]
    conv_rhs => rw [← List.map_id (joinPairs kind on b.toRows batch.toRows)]
    apply List.map_congr_left
    rintro ⟨i, j⟩ member
    obtain ⟨first, second⟩ := holds.numbered _ member
    cases j with
    | none => simp [(asU32_eq_iff i).mpr first]
    | some j => simp [(asU32_eq_iff i).mpr first, (asU32_eq_iff j).mpr (second j rfl)]
  refine ⟨numbered, ?_⟩
  have each : ∀ chunk ∈ chunks batchRows (joinPairs kind on b.toRows batch.toRows),
      ∃ out, (probeOver b.fields kind on batch).emit b chunk = .ok out ∧ out.toRows = chunkRows b batch chunk := by
    intro chunk piece
    apply emit_roomy probed built (chunk_inside piece) (ne_nil_of_mem_chunks (by decide) piece) accepted.distinct
    apply holds.roomy
    rw [chunks_nestedLoop]
    exact List.mem_map.mpr ⟨chunk, piece, rfl⟩
  obtain ⟨out, made⟩ := exists_mapM_eq_ok fun chunk piece =>
    let ⟨out, emitted, _⟩ := each chunk piece
    ⟨out, emitted⟩
  refine ⟨out, by rw [HashJoinProbe.push, numbered]; exact made, ?_⟩
  have rows : out.map ColumnBatch.toRows =
      (chunks batchRows (joinPairs kind on b.toRows batch.toRows)).map (chunkRows b batch) := by
    apply map_of_mapM made
    intro chunk piece y emitted
    obtain ⟨out, made, rows⟩ := each chunk piece
    cases emitted.symm.trans made
    exact rows
  rw [List.flatMap_def, rows, ← chunks_nestedLoop, flatten_chunks (by decide)]

include probed built accepted in
/-- And only then. -/
theorem holds_of_push {out : List ColumnBatch} (made : (probeOver b.fields kind on batch).push b = .ok out)
    (numbered : (probeOver b.fields kind on batch).indices b = joinPairs kind on b.toRows batch.toRows) :
    Holds kind on b.columns.length batch.columns.length b.toRows batch.toRows := by
  constructor
  · intro p member
    rw [indices_eq accepted probed built] at numbered
    have same := List.map_inj_left.mp (numbered.trans (List.map_id _).symm) p member
    obtain ⟨i, j⟩ := p
    simp only [id, Prod.mk.injEq] at same
    refine ⟨(asU32_eq_iff i).mp same.1, ?_⟩
    rintro j rfl
    simpa [asU32_eq_iff] using same.2
  · intro rows piece
    rw [chunks_nestedLoop] at piece
    obtain ⟨chunk, inPairs, rfl⟩ := List.mem_map.mp piece
    by_contra tight
    have stopped : ∃ m, (probeOver b.fields kind on batch).emit b chunk = .error (.panicked m) :=
      emit_panics probed built (chunk_inside inPairs) tight
    obtain ⟨m, stopped⟩ := stopped
    rw [HashJoinProbe.push, numbered] at made
    obtain ⟨out, _, emitted⟩ := List.Forall₂.image (forall₂_of_mapM_except made) inPairs
    cases stopped.symm.trans emitted

end Batch

/-- The operator's whole outcome is the nested loop's: its rows in probe order and then build order, no panic, and no
    row number cut short on the way. -/
structure JoinsAsNestedLoop (p : HashJoinProbe) (on : List (Nat × Nat)) (rightWidth : Nat) (probes : List ColumnBatch)
    (right : List Row) : Prop where
  runs : ∃ out, p.run probes = .ok out ∧
    out.flatMap ColumnBatch.toRows = nestedLoop p.kind on rightWidth (probes.flatMap ColumnBatch.toRows) right
  numbered : ∀ b ∈ probes, p.indices b = joinPairs p.kind on b.toRows right

section Whole

variable {batch : ColumnBatch} {probes : List ColumnBatch} (each : ∀ b ∈ probes, b.fields = leftFields ∧ b.Sound)
  (built : batch.Sound) (accepted : Accepted leftFields batch.fields on)

include each built accepted in
theorem joins_of_holds
    (holds : ∀ b ∈ probes, Holds kind on leftFields.length batch.columns.length b.toRows batch.toRows) :
    JoinsAsNestedLoop (probeOver leftFields kind on batch) on batch.columns.length probes batch.toRows := by
  have push : ∀ b ∈ probes, (probeOver leftFields kind on batch).indices b = joinPairs kind on b.toRows batch.toRows ∧
      ∃ out, (probeOver leftFields kind on batch).push b = .ok out ∧
        out.flatMap ColumnBatch.toRows = nestedLoop kind on batch.columns.length b.toRows batch.toRows := by
    intro b member
    obtain ⟨rfl, probed⟩ := each b member
    apply push_holds probed built accepted
    rw [probed.typed.length_eq]
    exact holds b member
  refine ⟨?_, fun b member => (push b member).1⟩
  have made : ∃ outs, probes.mapM (probeOver leftFields kind on batch).push = .ok outs :=
    exists_mapM_eq_ok fun b member =>
      let ⟨_, out, made, _⟩ := push b member
      ⟨out, made⟩
  obtain ⟨outs, made⟩ := made
  refine ⟨outs.flatten, by rw [HashJoinProbe.run, made]; rfl, ?_⟩
  have rows : outs.map (fun out => out.flatMap ColumnBatch.toRows) =
      probes.map fun b => nestedLoop kind on batch.columns.length b.toRows batch.toRows := by
    apply map_of_mapM made
    intro b member out pushed
    obtain ⟨_, out', made', rows⟩ := push b member
    cases pushed.symm.trans made'
    exact rows
  calc outs.flatten.flatMap ColumnBatch.toRows
      = (outs.map fun out => out.flatMap ColumnBatch.toRows).flatten := by
        rw [List.flatten_eq_flatMap, List.flatMap_assoc, List.flatMap_def]
        rfl
    _ = probes.flatMap fun b => nestedLoop kind on batch.columns.length b.toRows batch.toRows := by
        rw [rows, List.flatMap_def]
    _ = nestedLoop kind on batch.columns.length (probes.flatMap ColumnBatch.toRows) batch.toRows := by
        rw [nestedLoop_flatMap]

include each built accepted in
theorem holds_of_joins
    (joins : JoinsAsNestedLoop (probeOver leftFields kind on batch) on batch.columns.length probes batch.toRows) :
    ∀ b ∈ probes, Holds kind on leftFields.length batch.columns.length b.toRows batch.toRows := by
  obtain ⟨⟨out, ran, _⟩, numbered⟩ := joins
  intro b member
  obtain ⟨rfl, probed⟩ := each b member
  rw [← probed.typed.length_eq]
  have pushed : ∃ outs, probes.mapM (probeOver b.fields kind on batch).push = .ok outs := by
    cases whole : probes.mapM (probeOver b.fields kind on batch).push with
    | ok outs => exact ⟨outs, rfl⟩
    | error e =>
      rw [HashJoinProbe.run, whole] at ran
      cases ran
  obtain ⟨outs, pushed⟩ := pushed
  obtain ⟨out, _, made⟩ := List.Forall₂.image (forall₂_of_mapM_except pushed) member
  exact holds_of_push probed built accepted made (numbered b member)

end Whole

/-- A join that the executor runs is the nested-loop join exactly when, for every probe batch, the rows that take part
    are numbered below `2^32` and each chunk of `batchRows` joined rows keeps every STRING, BYTES and LIST column's
    offsets in a `u32`. No row with a NULL or NaN key has a part in it. -/
theorem hashJoin_iff (builds : Batches rightFields) (probes : Batches leftFields) {p : HashJoinProbe}
    (opened : openJoin leftFields rightFields kind on builds.batches = .ok p) :
    (∀ l r, ∀ k ∈ on, Unequal (rowCell l k.1) ∨ Unequal (rowCell r k.2) → rowsMatch on l r = false) ∧
    (JoinsAsNestedLoop p on rightFields.length probes.batches builds.toRows ↔
      ∀ b ∈ probes.batches, Holds kind on leftFields.length rightFields.length b.toRows builds.toRows) := by
  refine ⟨fun l r k key never => rowsMatch_of_unequal key never, ?_⟩
  obtain ⟨batch, concat, accepted, rfl⟩ := openJoin_ok opened
  obtain ⟨rfl, built, rows⟩ := concatBatches_rows builds concat
  rw [← rows, ← built.typed.length_eq]
  constructor
  · exact holds_of_joins probes.each built accepted
  · exact joins_of_holds probes.each built accepted

end Run

section FanOut

def flagField (name : String) : Field := ⟨name, .bool⟩

/-- One flag column, all true. -/
def flagBatch (name : String) (n : Nat) : ColumnBatch := ⟨[flagField name], [⟨.bool, List.replicate n (.bool true)⟩]⟩

/-- One row: a flag, and bytes of a length. -/
def blobBatch (size : Nat) : ColumnBatch :=
  ⟨[flagField "k", ⟨"x", .bytes⟩], [⟨.bool, [.bool true]⟩, ⟨.bytes, [.bytes (List.replicate size 0)]⟩]⟩

theorem flagBatch_sound (name : String) (n : Nat) : (flagBatch name n).Sound where
  typed := by simp [flagBatch, flagField]
  even := by simp [flagBatch, ColumnBatch.rows]
  distinct := by simp [flagBatch]
  columns := by
    intro c member
    rw [flagBatch, List.mem_singleton] at member
    subst member
    refine ⟨fun v member => ?_, ?_, ?_, ?_⟩
    · rw [List.eq_of_mem_replicate member]
      exact True.intro
    · simp [dataLen, rowBytes]
    · simp [childLen, elements]
    · rw [List.flatMap_eq_nil_iff.mpr fun v member => by rw [List.eq_of_mem_replicate member]; rfl]
      decide

theorem blobBatch_sound {size : Nat} (small : size < 2 ^ 32) : (blobBatch size).Sound where
  typed := by simp [blobBatch, flagField]
  even := by simp [blobBatch, ColumnBatch.rows]
  distinct := by simp [blobBatch, flagField]
  columns := by
    intro c member
    rw [blobBatch, List.mem_cons, List.mem_singleton] at member
    rcases member with rfl | rfl
    · exact ⟨by simp [Value.HasType, Value.HasScalarType], by decide, by decide, by decide⟩
    · refine ⟨by simp [Value.HasType, Value.HasScalarType], ?_, by simp [childLen, elements], by simp [elements]⟩
      simpa [rowBytes] using small

def flagRows (n : Nat) : Batches [flagField "r"] :=
  ⟨[flagBatch "r" n], fun b member => by
    rw [List.mem_singleton] at member
    subst member
    exact ⟨rfl, flagBatch_sound "r" n⟩⟩

def blobRow (size : Nat) (small : size < 2 ^ 32) : Batches [flagField "k", ⟨"x", .bytes⟩] :=
  ⟨[blobBatch size], fun b member => by
    rw [List.mem_singleton] at member
    subst member
    exact ⟨rfl, blobBatch_sound small⟩⟩

theorem blobRows (size : Nat) :
    nestedLoop .inner [(0, 0)] 1 (blobBatch size).toRows (flagBatch "r" 2).toRows =
      [[.bool true, .bytes (List.replicate size 0), .bool true], [.bool true, .bytes (List.replicate size 0), .bool true]] :=
  rfl

theorem roomy_blobRows (size : Nat) :
    Roomy 3 (nestedLoop .inner [(0, 0)] 1 (blobBatch size).toRows (flagBatch "r" 2).toRows) ↔ size + size < 2 ^ 32 := by
  rw [blobRows]
  constructor
  · intro roomy
    simpa [rowCell, rowBytes] using (roomy 1 (by decide)).data
  · intro small k within
    have cases : k = 0 ∨ k = 1 ∨ k = 2 := by omega
    rcases cases with rfl | rfl | rfl
    · exact ⟨by simp [rowCell, rowBytes], by simp [rowCell, elements], by simp [rowCell, elements]⟩
    · exact ⟨by simpa [rowCell, rowBytes] using small, by simp [rowCell, elements], by simp [rowCell, elements]⟩
    · exact ⟨by simp [rowCell, rowBytes], by simp [rowCell, elements], by simp [rowCell, elements]⟩

theorem hashJoin_iff_flags :
    openJoin [flagField "k", ⟨"x", .bytes⟩] [flagField "r"] .inner [(0, 0)] (flagRows 2).batches =
      .ok (probeOver [flagField "k", ⟨"x", .bytes⟩] .inner [(0, 0)] (flagBatch "r" 2)) ∧
    JoinsAsNestedLoop (probeOver [flagField "k", ⟨"x", .bytes⟩] .inner [(0, 0)] (flagBatch "r" 2)) [(0, 0)] 1
      (blobRow 5 (by decide)).batches (flagRows 2).toRows := by
  refine ⟨rfl, ((hashJoin_iff (flagRows 2) (blobRow 5 (by decide)) rfl).2).mpr ?_⟩
  intro b member
  rw [blobRow, List.mem_singleton] at member
  subst member
  constructor
  · intro p pair
    have both : p = (0, some 0) ∨ p = (0, some 1) := by
      simpa [blobBatch, flagRows, flagBatch] using show p ∈ [(0, some 0), (0, some 1)] from pair
    rcases both with rfl | rfl <;> exact ⟨by decide, fun j same => by cases same; decide⟩
  · intro chunk piece
    have whole : chunk = nestedLoop .inner [(0, 0)] 1 (blobBatch 5).toRows (flagBatch "r" 2).toRows :=
      List.mem_singleton.mp piece
    rw [whole]
    exact (roomy_blobRows 5).mpr (by decide)

/-- Two matches of one row whose bytes take half of a buffer: the copies take all of it, and the last offset wraps. -/
theorem hashJoin_panics :
    ¬∀ (leftFields rightFields : List Field) (kind : JoinKind) (on : List (Nat × Nat)) (builds : Batches rightFields)
      (probes : Batches leftFields) (p : HashJoinProbe),
      openJoin leftFields rightFields kind on builds.batches = .ok p →
        JoinsAsNestedLoop p on rightFields.length probes.batches builds.toRows := by
  intro claim
  have joins := claim _ _ .inner [(0, 0)] (flagRows 2) (blobRow (2 ^ 31) (by decide))
    (probeOver [flagField "k", ⟨"x", .bytes⟩] .inner [(0, 0)] (flagBatch "r" 2)) rfl
  have accepted : Accepted [flagField "k", ⟨"x", .bytes⟩] [flagField "r"] [(0, 0)] := by
    refine ⟨fun k member => ?_, by decide⟩
    rw [List.mem_singleton] at member
    subst member
    exact ⟨_, _, rfl, rfl, rfl⟩
  have holds := holds_of_joins (blobRow (2 ^ 31) (by decide)).each (flagBatch_sound "r" 2) accepted joins
    (blobBatch (2 ^ 31)) (.head _)
  have roomy := (roomy_blobRows (2 ^ 31)).mp (holds.roomy _ (.head _))
  exact absurd roomy (by decide)

end FanOut

end Adelie
