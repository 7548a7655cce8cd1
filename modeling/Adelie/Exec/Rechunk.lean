import Adelie.Exec.Joined
import Adelie.Lib.Chunks
import Adelie.Storage.Engine

namespace Adelie

/-- A batch again of columns that the kernel made of a batch's own. -/
def ColumnBatch.remade (fields : List Field) (columns : List Column) (message : String) :
    Except ExecError ColumnBatch :=
  (ColumnBatch.new fields columns).mapError fun e => .panicked s!"{message}: {e.display}"

def takeBatch (b : ColumnBatch) (indices : List Nat) : Except ExecError ColumnBatch := do
  let columns ← b.columns.mapM (takeRows · indices)
  ColumnBatch.remade b.fields columns "take keeps every column's type and gives them all one row count"

def Column.slice (c : Column) (start len : Nat) : Except ExecError Column := do
  ensure (start + len ≤ c.cells.length)
    (.panicked s!"slice {start}..{start + len} out of range for column len {c.cells.length}")
  return ⟨c.ty, (c.cells.drop start).take len⟩

def sliceBatch (b : ColumnBatch) (start len : Nat) : Except ExecError ColumnBatch := do
  let columns ← b.columns.mapM (·.slice start len)
  ColumnBatch.remade b.fields columns "slice keeps every column's type and gives them all one row count"

/-- Where each piece of at most `batchRows` rows starts, and how long it is. -/
def pieces (total : Nat) : List (Nat × Nat) :=
  (List.range ((total + (batchRows - 1)) / batchRows)).map fun k =>
    (k * batchRows, min (total - k * batchRows) batchRows)

def rechunk (fields : List Field) (batches : List ColumnBatch) : Except ExecError (List ColumnBatch) := do
  let total := (batches.map ColumnBatch.rows).sum
  if total = 0 then return []
  let combined ← concatBatches fields batches
  (pieces total).mapM fun p => sliceBatch combined p.1 p.2

section Shapes

variable {b b' : ColumnBatch} {fields : List Field}

theorem ColumnBatch.remade_ok {columns : List Column} {message : String}
    (made : ColumnBatch.remade fields columns message = .ok b) : ColumnBatch.new fields columns = .ok b := by
  unfold ColumnBatch.remade at made
  cases new : ColumnBatch.new fields columns with
  | error e =>
    rw [new] at made
    cases made
  | ok b' =>
    rw [new] at made
    cases made
    rfl

theorem ColumnBatch.length_toRows (b : ColumnBatch) : b.toRows.length = b.rows := by simp [ColumnBatch.toRows]

/-- A slice is the rows it names. -/
theorem sliceBatch_ok {start len : Nat} (shaped : b.Shaped fields) (made : sliceBatch b start len = .ok b')
    (inside : start + len ≤ b.rows) :
    b'.Shaped fields ∧ b'.toRows = (b.toRows.drop start).take len := by
  obtain ⟨rfl, typed, even⟩ := shaped
  unfold sliceBatch at made
  obtain ⟨columns, parts, made⟩ := Except.bind_eq_ok.mp made
  obtain ⟨rfl, typed', even', _⟩ := ColumnBatch.new_eq_ok.mp (ColumnBatch.remade_ok made)
  have each := forall₂_of_mapM_except parts
  have cells : columns = b.columns.map fun c => ⟨c.ty, (c.cells.drop start).take len⟩ := by
    apply eq_map_of_mapM parts
    intro c member c' sliced
    simp only [Column.slice, even c member, ensure, inside, decide_true, if_true] at sliced
    cases sliced
    rfl
  subst cells
  refine ⟨⟨rfl, typed', even'⟩, ?_⟩
  cases none : b.columns with
  | nil =>
    have empty : b.rows = 0 := by simp [ColumnBatch.rows, none]
    simp [ColumnBatch.toRows, ColumnBatch.rows, none]
  | cons c rest =>
    have length : ∀ c ∈ b.columns, ((c.cells.drop start).take len).length = len := by
      intro c member
      have := even c member
      simp only [List.length_take, List.length_drop]
      omega
    have rows : (ColumnBatch.mk b.fields (b.columns.map fun c => ⟨c.ty, (c.cells.drop start).take len⟩)).rows = len := by
      have := length c (by rw [none]; simp)
      simpa [ColumnBatch.rows, none] using this
    rw [← none]
    apply List.ext_getElem
    · rw [ColumnBatch.length_toRows, rows, List.length_take, List.length_drop, ColumnBatch.length_toRows]
      omega
    · intro i left right
      rw [ColumnBatch.length_toRows, rows] at left
      simp only [ColumnBatch.toRows, List.getElem_map, List.getElem_range, List.getElem_take, List.getElem_drop,
        ColumnBatch.row, List.map_map]
      apply List.map_congr_left
      intro c member
      simp [left, List.getElem?_drop]

/-- Taken rows are the rows at the numbers. -/
theorem takeBatch_ok {indices : List Nat} (sound : b.Sound) (some : b.columns ≠ [])
    (inside : ∀ i ∈ indices, i < b.rows) (made : takeBatch b indices = .ok b') :
    b'.Shaped b.fields ∧ b'.Sound ∧ b'.toRows = indices.map b.row := by
  unfold takeBatch at made
  obtain ⟨columns, parts, made⟩ := Except.bind_eq_ok.mp made
  obtain ⟨rfl, typed, even, distinct⟩ := ColumnBatch.new_eq_ok.mp (ColumnBatch.remade_ok made)
  have spec : ∀ c ∈ b.columns, ∀ c', takeRows c indices = .ok c' →
      c' = ⟨c.ty, indices.map fun i => c.cells[i]?.getD .null⟩ ∧ c'.Sound := by
    intro c member c' taken
    have picks := pick_typed (sound.columns c member) (indices.map Option.some)
    rw [takeRows, takeOpt_eq] at taken
    · by_cases fits : FitsOffsets ((indices.map Option.some).map fun o => (o.bind fun i => c.cells[i]?).getD .null)
      · rw [(rebuild_iff picks).1 fits] at taken
        cases taken
        exact ⟨by simp [List.map_map, Function.comp_def], picks, fits⟩
      · obtain ⟨m, refused⟩ := (rebuild_iff picks).2 fits
        rw [refused] at taken
        cases taken
    · intro i member'
      rw [sound.even c member]
      exact inside i (by simpa using member')
  have cells : columns = b.columns.map fun c => ⟨c.ty, indices.map fun i => c.cells[i]?.getD .null⟩ :=
    eq_map_of_mapM parts fun c member c' taken => (spec c member c' taken).1
  have sounds : ∀ c' ∈ columns, c'.Sound := by
    intro c' member
    obtain ⟨c, source, taken⟩ := List.Forall₂.source (forall₂_of_mapM_except parts) member
    exact (spec c source c' taken).2
  refine ⟨⟨rfl, typed, even⟩, ⟨typed, even, distinct, sounds⟩, ?_⟩
  obtain ⟨c, rest, first⟩ := List.exists_cons_of_ne_nil some
  subst cells
  have rows : (ColumnBatch.mk b.fields
      (b.columns.map fun c => ⟨c.ty, indices.map fun i => c.cells[i]?.getD .null⟩)).rows = indices.length := by
    simp [ColumnBatch.rows, first]
  apply List.ext_getElem
  · rw [ColumnBatch.length_toRows, rows, List.length_map]
  · intro i left right
    rw [ColumnBatch.length_toRows, rows] at left
    simp only [ColumnBatch.toRows, List.getElem_map, List.getElem_range, ColumnBatch.row, List.map_map]
    apply List.map_congr_left
    intro c member
    simp [left]

theorem flatMap_pieces {α : Type} (l : List α) :
    (pieces l.length).flatMap (fun p => (l.drop p.1).take p.2) = l := by
  suffices general : ∀ (count : Nat) (l : List α), l.length ≤ count * batchRows →
      (List.range count).flatMap (fun k => (l.drop (k * batchRows)).take (min (l.length - k * batchRows) batchRows)) = l by
    have enough : l.length ≤ (l.length + (batchRows - 1)) / batchRows * batchRows := by
      unfold batchRows
      omega
    simpa [pieces, List.flatMap_map] using general _ l enough
  intro count l
  induction count generalizing l with
  | zero =>
    intro short
    rw [Nat.zero_mul, Nat.le_zero] at short
    rw [List.eq_nil_of_length_eq_zero short]
    rfl
  | succ count ih =>
    intro short
    have first : (l.drop (0 * batchRows)).take (min (l.length - 0 * batchRows) batchRows) = l.take batchRows := by
      rw [Nat.zero_mul, List.drop_zero, Nat.sub_zero]
      rcases Nat.le_total l.length batchRows with le | le
      · rw [Nat.min_eq_left le, List.take_length, List.take_of_length_le le]
      · rw [Nat.min_eq_right le]
    have rest := ih (l.drop batchRows) (by rw [List.length_drop]; rw [Nat.succ_mul] at short; omega)
    rw [List.range_succ_eq_map, List.flatMap_cons, List.flatMap_map, first]
    conv_rhs => rw [← List.take_append_drop batchRows l]
    congr 1
    conv_rhs => rw [← rest]
    congr 1
    funext k
    rw [List.drop_drop, List.length_drop, Nat.succ_mul, Nat.add_comm batchRows, Nat.sub_sub,
      Nat.add_comm batchRows]

theorem mem_pieces {total : Nat} {p : Nat × Nat} (member : p ∈ pieces total) : p.1 + p.2 ≤ total ∧ 0 < p.2 := by
  obtain ⟨k, inside, rfl⟩ := List.mem_map.mp member
  rw [List.mem_range] at inside
  have : k * batchRows < total := by
    unfold batchRows at *
    omega
  have positive : 0 < batchRows := by decide
  dsimp only
  omega

/-- Cut again into pieces, the rows are the same and in order. -/
theorem rechunk_ok {batches out : List ColumnBatch} (each : ∀ b ∈ batches, b.Shaped fields)
    (made : rechunk fields batches = .ok out) :
    (∀ b ∈ out, b.Shaped fields) ∧ out.flatMap ColumnBatch.toRows = batches.flatMap ColumnBatch.toRows := by
  have lengths : (batches.flatMap ColumnBatch.toRows).length = (batches.map ColumnBatch.rows).sum := by
    rw [List.length_flatMap]
    congr 1
    exact List.map_congr_left fun b _ => b.length_toRows
  unfold rechunk at made
  dsimp only at made
  split at made
  · rename_i none
    cases made
    refine ⟨by simp, ?_⟩
    rw [none] at lengths
    rw [List.eq_nil_of_length_eq_zero lengths]
    rfl
  · obtain ⟨combined, concat, made⟩ := Except.bind_eq_ok.mp made
    obtain ⟨shaped, rows⟩ := concatBatches_toRows each concat
    have total : combined.rows = (batches.map ColumnBatch.rows).sum := by
      rw [← combined.length_toRows, rows, lengths]
    have slices := forall₂_of_mapM_except made
    have spec : ∀ p b', p ∈ pieces (batches.map ColumnBatch.rows).sum → sliceBatch combined p.1 p.2 = .ok b' →
        b'.Shaped fields ∧ b'.toRows = (combined.toRows.drop p.1).take p.2 := by
      intro p b' member sliced
      exact sliceBatch_ok shaped sliced (by rw [total]; exact (mem_pieces member).1)
    constructor
    · intro b' member
      obtain ⟨p, inside, sliced⟩ := List.Forall₂.source slices member
      exact (spec p b' inside sliced).1
    · have parts := map_of_mapM (g := ColumnBatch.toRows) (h := fun p => (combined.toRows.drop p.1).take p.2) made
        (fun p inside b' sliced => (spec p b' inside sliced).2)
      rw [← rows, List.flatMap_def, parts, ← List.flatMap_def, ← total, ← combined.length_toRows, flatMap_pieces]

end Shapes

end Adelie
