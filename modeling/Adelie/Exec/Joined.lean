import Adelie.Exec.Join

namespace Adelie

/-- Row-wise reading of columns. -/
def acrossRows (n : Nat) (cols : List (List Value)) : List Row :=
  (List.range n).map fun j => cols.map fun col => col[j]?.getD .null

theorem ColumnBatch.toRows_eq (b : ColumnBatch) : b.toRows = acrossRows b.rows (b.columns.map Column.cells) := by
  simp only [ColumnBatch.toRows, acrossRows, List.map_map]
  rfl

/-- Columns put one after another read as the rows one after another. -/
theorem acrossRows_append {n m : Nat} {above below : List (List Value)} (even : ∀ c ∈ above, c.length = n)
    (lengths : above.length = below.length) :
    acrossRows (n + m) (List.zipWith (· ++ ·) above below) = acrossRows n above ++ acrossRows m below := by
  simp only [acrossRows, List.range_add, List.map_append, List.map_map]
  congr 1
  · apply List.map_congr_left
    intro j inside
    rw [List.mem_range] at inside
    apply List.ext_getElem
    · simp [lengths]
    · intro i left right
      have above_i : i < above.length := by simpa using right
      have long := even _ (List.getElem_mem above_i)
      simp only [List.getElem_map, List.getElem_zipWith]
      rw [List.getElem?_append_left (by omega)]
  · apply List.map_congr_left
    intro j _
    apply List.ext_getElem
    · simp [lengths]
    · intro i left right
      have above_i : i < above.length := by
        have := right
        simp only [List.length_map] at this
        omega
      have long := even _ (List.getElem_mem above_i)
      simp only [List.getElem_map, List.getElem_zipWith, Function.comp]
      rw [List.getElem?_append_right (by omega), long, Nat.add_sub_cancel_left]

section New

variable {fields : List Field} {columns : List Column} {b : ColumnBatch}

theorem repeatedName_eq_none : repeatedName fields = none ↔ (fields.map Field.name).Nodup := by
  simp only [repeatedName, Option.map_eq_none_iff, List.find?_eq_none, List.any_eq_true, decide_eq_true_eq]
  rw [List.nodup_iff_pairwise_ne, List.pairwise_iff_getElem]
  constructor
  · intro none i j left right less same
    simp only [List.length_map] at left right
    simp only [List.getElem_map] at same
    exact none (fields[j], j) (List.mk_mem_zipIdx_iff_getElem?.mpr (List.getElem?_eq_getElem right))
      ⟨fields[i], List.mem_take_iff_getElem.mpr ⟨i, by omega, rfl⟩, same⟩
  · rintro apart ⟨f, j⟩ member ⟨g, before, same⟩
    have at_ := List.mk_mem_zipIdx_iff_getElem?.mp member
    obtain ⟨right, rfl⟩ := List.getElem?_eq_some_iff.mp at_
    obtain ⟨i, less, rfl⟩ := List.mem_take_iff_getElem.mp before
    have := apart i j (by simp; omega) (by simpa using right) (by omega)
    simp only [List.getElem_map] at this
    exact this same

/-- What `Batch::new` has checked. -/
theorem ColumnBatch.new_eq_ok :
    ColumnBatch.new fields columns = .ok b ↔
      b = ⟨fields, columns⟩ ∧ List.Forall₂ (fun c f => c.ty = f.ty) columns fields ∧
        (∀ c ∈ columns, c.cells.length = (ColumnBatch.mk fields columns).rows) ∧ (fields.map Field.name).Nodup := by
  have mismatch : (fields.zip columns).find? (fun p => p.2.ty ≠ p.1.ty) = none ∧ fields.length = columns.length ↔
      List.Forall₂ (fun c f => c.ty = f.ty) columns fields := by
    simp only [ne_eq, decide_not, List.find?_eq_none, Bool.not_eq_true', decide_eq_false_iff_not, not_not]
    constructor
    · rintro ⟨all, count⟩
      apply List.Forall₂.flip
      rw [List.forall₂_iff_zip]
      exact ⟨count, fun member => all _ member⟩
    · intro typed
      have both := List.forall₂_iff_zip.mp typed.flip
      exact ⟨fun p member => both.2 member, both.1⟩
  have uneven : fields.length = columns.length →
      ((fields.zip columns).find? (fun p => p.2.cells.length ≠ (ColumnBatch.mk fields columns).rows) = none ↔
        ∀ c ∈ columns, c.cells.length = (ColumnBatch.mk fields columns).rows) := by
    intro count
    simp only [ne_eq, decide_not, List.find?_eq_none, Bool.not_eq_true', decide_eq_false_iff_not, not_not]
    constructor
    · intro all c member
      obtain ⟨i, inside, rfl⟩ := List.getElem_of_mem member
      exact all (fields[i], columns[i]) (List.mem_iff_getElem.mpr ⟨i, by simp; omega, by simp⟩)
    · intro all p member
      exact all _ (List.of_mem_zip member).2
  rw [← repeatedName_eq_none, ← mismatch]
  unfold ColumnBatch.new
  by_cases count : fields.length = columns.length
  · rw [← uneven count]
    simp only [ensure, count, decide_true, if_true, and_true, ColumnBatch.rows]
    cases types : (fields.zip columns).find? fun p => p.2.ty ≠ p.1.ty with
    | some p =>
      simp only [reduceCtorEq, false_and, and_false, iff_false]
      intro made
      cases made
    | none =>
      cases lengths : (fields.zip columns).find? fun p =>
        p.2.cells.length ≠ (columns.head?.map fun c => c.cells.length).getD 0 with
      | some p =>
        constructor
        · intro made
          cases made
        · rintro ⟨_, _, even, _⟩
          cases lengths.symm.trans even
      | none =>
        cases names : repeatedName fields with
        | some name =>
          simp only [reduceCtorEq, and_false, iff_false]
          intro made
          cases made
        | none =>
          constructor
          · intro made
            cases made
            exact ⟨rfl, rfl, lengths, rfl⟩
          · rintro ⟨rfl, _⟩
            rfl
  · simp only [ensure, count, decide_false, Bool.false_eq_true, if_false, and_false, false_and, iff_false]
    intro made
    cases made

end New

section Totals

variable {size : Column → Nat} {cols : List Column}

theorem runningTotal_lt {n : Nat} (made : runningTotal size cols = .ok n) : (cols.map size).sum < 2 ^ 32 := by
  suffices general : ∀ (cols : List Column) (base n : Nat), base < 2 ^ 32 →
      cols.foldlM (fun base c => do
        ensure (base + size c < 2 ^ 32) (ExecError.plan ListBuilder.tooLarge)
        return base + size c) base = .ok n → base + (cols.map size).sum < 2 ^ 32 by
    have := general cols 0 n (by decide) made
    omega
  intro cols
  induction cols with
  | nil =>
    intro base n small _
    simpa using small
  | cons c rest ih =>
    intro base n small made
    rw [List.foldlM_cons] at made
    by_cases fits : base + size c < 2 ^ 32
    · simp only [ensure, fits, decide_true, if_true] at made
      have := ih (base + size c) n fits made
      rw [List.map_cons, List.sum_cons]
      omega
    · simp only [ensure, fits, decide_false, Bool.false_eq_true, if_false] at made
      cases made

theorem dataLen_flatMap {α : Type} (f : α → List Value) (l : List α) :
    dataLen (l.flatMap f) = (l.map fun a => dataLen (f a)).sum := by
  induction l with
  | nil => rfl
  | cons a rest ih => simp [ih]

theorem childLen_flatMap {α : Type} (f : α → List Value) (l : List α) :
    childLen (l.flatMap f) = (l.map fun a => childLen (f a)).sum := by
  induction l with
  | nil => rfl
  | cons a rest ih => simp [ih]

theorem Column.concat_ok {ty : DataType} {c : Column} (made : Column.concat ty cols = .ok c) :
    c = ⟨ty, cols.flatMap Column.cells⟩ ∧ FitsOffsets (cols.flatMap Column.cells) := by
  unfold Column.concat at made
  obtain ⟨_, data, made⟩ := Except.bind_eq_ok.mp made
  obtain ⟨_, children, made⟩ := Except.bind_eq_ok.mp made
  obtain ⟨_, childData, made⟩ := Except.bind_eq_ok.mp made
  cases made
  refine ⟨rfl, ?_, ?_, ?_⟩
  · rw [dataLen_flatMap]
    exact runningTotal_lt data
  · rw [childLen_flatMap]
    exact runningTotal_lt children
  · rw [List.flatMap_assoc, dataLen_flatMap]
    exact runningTotal_lt childData

end Totals

section Concat

variable {fields : List Field}

/-- Column `i` of every batch. -/
def stacked (batches : List ColumnBatch) (i : Nat) : List Value :=
  batches.flatMap fun b => (b.columns[i]?.map Column.cells).getD []

theorem concatField_ok {batches : List ColumnBatch} {f : Field × Nat} {c : Column}
    (made : concatField batches f = .ok c) : c.cells = stacked batches f.2 ∧ FitsOffsets c.cells := by
  obtain ⟨cols, found, concat⟩ := Except.bind_eq_ok.mp made
  obtain ⟨rfl, fits⟩ := Column.concat_ok concat
  refine ⟨?_, fits⟩
  replace found := forall₂_of_mapM_except found
  clear concat fits made
  induction found with
  | nil => rfl
  | @cons b c rest cols head _ tail =>
    have here : b.columns[f.2]? = some c := by
      unfold ColumnBatch.column at head
      split at head
      · cases head
        assumption
      · cases head
    simp only [stacked, List.flatMap_cons, here, Option.map_some, Option.getD_some] at tail ⊢
    rw [tail]

theorem concatBatches_ok {batches : List ColumnBatch} {b : ColumnBatch} (made : concatBatches fields batches = .ok b) :
    b.fields = fields ∧ List.Forall₂ (fun c f => c.ty = f.ty) b.columns b.fields ∧
      (∀ c ∈ b.columns, c.cells.length = b.rows) ∧ (b.fields.map Field.name).Nodup ∧
      (∀ c ∈ b.columns, FitsOffsets c.cells) ∧
      b.columns.map Column.cells = (List.range fields.length).map (stacked batches) := by
  unfold concatBatches at made
  obtain ⟨columns, parts, checked⟩ := Except.bind_eq_ok.mp made
  have built : ColumnBatch.new fields columns = .ok b := by
    cases new : ColumnBatch.new fields columns with
    | error e => rw [new] at checked; cases checked
    | ok b' => rw [new] at checked; cases checked; rfl
  obtain ⟨rfl, typed, even, distinct⟩ := ColumnBatch.new_eq_ok.mp built
  have each := forall₂_of_mapM_except parts
  refine ⟨rfl, typed, even, distinct, ?_, ?_⟩
  · intro c member
    obtain ⟨p, _, concat⟩ := List.Forall₂.source each member
    exact (concatField_ok concat).2
  · have lengths : fields.zipIdx.length = columns.length := each.length_eq
    rw [List.length_zipIdx] at lengths
    apply List.ext_getElem
    · simp [lengths]
    · intro i left right
      have inside : i < columns.length := by simpa using left
      have concat := each.get (by simp; omega) inside
      simp only [List.getElem_map, List.getElem_range]
      have := (concatField_ok concat).1
      simpa using this

theorem stacked_rows {batches : List ColumnBatch} (each : ∀ b ∈ batches, b.Shaped fields) :
    acrossRows (batches.map ColumnBatch.rows).sum ((List.range fields.length).map (stacked batches)) =
        batches.flatMap ColumnBatch.toRows ∧
      ∀ i < fields.length, (stacked batches i).length = (batches.map ColumnBatch.rows).sum := by
  induction batches with
  | nil => simp [acrossRows, stacked]
  | cons b rest ih =>
    rw [List.forall_mem_cons] at each
    obtain ⟨⟨rfl, typed, even⟩, others⟩ := each
    obtain ⟨rows, lengths⟩ := ih others
    have width : b.columns.length = b.fields.length := typed.length_eq
    have first : (List.range b.fields.length).map (stacked (b :: rest)) =
        List.zipWith (· ++ ·) (b.columns.map Column.cells) ((List.range b.fields.length).map (stacked rest)) := by
      apply List.ext_getElem
      · simp [width]
      · intro i left right
        have inside : i < b.columns.length := by
          rw [width]
          simpa using left
        simp [stacked, List.getElem?_eq_getElem inside]
    rw [List.map_cons, List.sum_cons, List.flatMap_cons, first, acrossRows_append, rows, ← ColumnBatch.toRows_eq]
    · refine ⟨rfl, fun i inside => ?_⟩
      have inside' : i < b.columns.length := by omega
      have here : (stacked (b :: rest) i) = b.columns[i].cells ++ stacked rest i := by
        simp [stacked, List.getElem?_eq_getElem inside']
      rw [here, List.length_append, lengths i inside, even _ (List.getElem_mem inside')]
    · intro c member
      obtain ⟨col, inside, rfl⟩ := List.mem_map.mp member
      exact even col inside
    · simp [width]

/-- Every row is kept, in order. -/
theorem concatBatches_toRows {batches : List ColumnBatch} (each : ∀ b ∈ batches, b.Shaped fields) {b : ColumnBatch}
    (made : concatBatches fields batches = .ok b) :
    b.Shaped fields ∧ b.toRows = batches.flatMap ColumnBatch.toRows := by
  obtain ⟨rfl, typed, even, distinct, fits, cells⟩ := concatBatches_ok made
  refine ⟨⟨rfl, typed, even⟩, ?_⟩
  rw [ColumnBatch.toRows_eq, cells]
  by_cases none : b.fields = []
  · have empty : b.columns = [] := List.eq_nil_of_length_eq_zero (by rw [typed.length_eq, none]; rfl)
    have rows : ∀ part ∈ batches, part.toRows = [] := by
      intro part member
      have width : part.columns = [] :=
        List.eq_nil_of_length_eq_zero (by rw [(each part member).typed.length_eq, none]; rfl)
      simp [ColumnBatch.toRows, ColumnBatch.rows, width]
    simp [ColumnBatch.rows, empty, acrossRows, List.flatMap_eq_nil_iff.mpr rows]
  · obtain ⟨rows, lengths⟩ := stacked_rows each
    have total : b.rows = (batches.map ColumnBatch.rows).sum := by
      have pos : 0 < b.fields.length := List.length_pos_iff.mpr none
      have pos' : 0 < b.columns.length := by rw [typed.length_eq]; exact pos
      have first := List.getElem_of_eq cells (i := 0) (by simpa using pos')
      rw [← even _ (List.getElem_mem pos'), ← lengths 0 pos]
      simpa using congrArg List.length first
    rw [total, rows]

/-- The build side keeps every row, in order. -/
theorem concatBatches_rows (s : Batches fields) {b : ColumnBatch} (made : concatBatches fields s.batches = .ok b) :
    b.fields = fields ∧ b.Sound ∧ b.toRows = s.toRows := by
  obtain ⟨rfl, typed, even, distinct, fits, cells⟩ := concatBatches_ok made
  have typedCells : ∀ c ∈ b.columns, ∀ v ∈ c.cells, v.HasType c.ty := by
    intro c member v inside
    obtain ⟨i, within, rfl⟩ := List.getElem_of_mem member
    have within' : i < b.fields.length := by
      rw [← typed.length_eq]
      exact within
    have here : b.columns[i].cells = stacked s.batches i := by
      have := List.getElem_of_eq cells (i := i) (by simpa using within)
      simpa using this
    rw [here] at inside
    obtain ⟨part, source, inside⟩ := List.mem_flatMap.mp inside
    obtain ⟨named, sound⟩ := s.each part source
    have width : i < part.columns.length := by rw [sound.typed.length_eq, named]; exact within'
    rw [List.getElem?_eq_getElem width] at inside
    have cell := (sound.columns _ (List.getElem_mem width)).typed v inside
    have ty : part.columns[i].ty = b.columns[i].ty := by
      have left := sound.typed.get width (by rw [named]; exact within')
      have right := typed.get within within'
      simp only [List.get_eq_getElem, named] at left right
      rw [left, right]
    rwa [ty] at cell
  have shaped : ∀ part ∈ s.batches, part.Shaped b.fields :=
    fun part member => (s.each part member).2.shaped (s.each part member).1
  exact ⟨rfl, ⟨typed, even, distinct, fun c member => ⟨typedCells c member, fits c member⟩⟩,
    (concatBatches_toRows shaped made).2⟩

end Concat

/-- Cells at row numbers that exist. -/
theorem takeOpt_eq {c : Column} {idx : List (Option Nat)} (inside : ∀ i, some i ∈ idx → i < c.cells.length) :
    takeOpt c idx = rebuild c.ty (idx.map fun o => (o.bind fun i => c.cells[i]?).getD .null) := by
  have picked : idx.mapM c.pick = .ok (idx.map fun o => (o.bind fun i => c.cells[i]?).getD .null) := by
    apply mapM_except_of_forall₂
    rw [List.forall₂_map_right_iff, List.forall₂_same]
    intro o member
    cases o with
    | none => rfl
    | some i => simp [Column.pick, List.getElem?_eq_getElem (inside i member)]
  rw [takeOpt, picked]
  rfl

theorem pick_typed {c : Column} (sound : c.Sound) (idx : List (Option Nat)) :
    ∀ v ∈ idx.map (fun o => (o.bind fun i => c.cells[i]?).getD .null), v.HasType c.ty := by
  intro v member
  obtain ⟨o, _, rfl⟩ := List.mem_map.mp member
  have null : Value.HasType .null c.ty := by cases c.ty <;> exact True.intro
  cases o with
  | none => exact null
  | some i =>
    rw [Option.bind_some]
    cases cell : c.cells[i]? with
    | none => exact null
    | some v => exact sound.typed v (List.mem_of_getElem? cell)

end Adelie
