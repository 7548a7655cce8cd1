import Adelie.Exec.Sorting

namespace Adelie

theorem runningTotal_of_lt {size : Column → Nat} {cols : List Column} (fits : (cols.map size).sum < 2 ^ 32) :
    ∃ n, runningTotal size cols = .ok n := by
  suffices general : ∀ (cols : List Column) (base : Nat), base + (cols.map size).sum < 2 ^ 32 →
      ∃ n, cols.foldlM (fun base c => do
        ensure (base + size c < 2 ^ 32) (ExecError.plan ListBuilder.tooLarge)
        return base + size c) base = .ok n from general cols 0 (by omega)
  intro cols
  induction cols with
  | nil => exact fun base _ => ⟨base, rfl⟩
  | cons c rest ih =>
    intro base fits
    rw [List.map_cons, List.sum_cons] at fits
    obtain ⟨n, made⟩ := ih (base + size c) (by omega)
    refine ⟨n, ?_⟩
    rw [List.foldlM_cons]
    simp only [ensure, (by omega : base + size c < 2 ^ 32), decide_true, if_true]
    exact made

/-- A running total past `u32::MAX` is the one error of a concatenation. -/
theorem runningTotal_error {size : Column → Nat} {cols : List Column} {e : ExecError}
    (refused : runningTotal size cols = .error e) : e = .plan ListBuilder.tooLarge := by
  suffices general : ∀ (cols : List Column) (base : Nat), cols.foldlM (fun base c => do
      ensure (base + size c < 2 ^ 32) (ExecError.plan ListBuilder.tooLarge)
      return base + size c) base = .error e → e = .plan ListBuilder.tooLarge from general cols 0 refused
  intro cols
  induction cols with
  | nil =>
    intro base wrong
    cases wrong
  | cons c rest ih =>
    intro base refused
    rw [List.foldlM_cons] at refused
    by_cases fits : base + size c < 2 ^ 32
    · simp only [ensure, fits, decide_true, if_true] at refused
      exact ih _ refused
    · simp only [ensure, fits, decide_false, Bool.false_eq_true, if_false] at refused
      cases refused
      rfl

theorem Column.concat_of_fits {ty : DataType} {cols : List Column} (fits : FitsOffsets (cols.flatMap Column.cells)) :
    Column.concat ty cols = .ok ⟨ty, cols.flatMap Column.cells⟩ := by
  have data := fits.data
  have children := fits.children
  have childData := fits.childData
  rw [dataLen_flatMap] at data
  rw [childLen_flatMap] at children
  rw [List.flatMap_assoc, dataLen_flatMap] at childData
  obtain ⟨_, first⟩ := runningTotal_of_lt data
  obtain ⟨_, second⟩ := runningTotal_of_lt children
  obtain ⟨_, third⟩ := runningTotal_of_lt childData
  unfold Column.concat
  exact Except.bind_eq_ok.mpr ⟨_, first, Except.bind_eq_ok.mpr ⟨_, second, Except.bind_eq_ok.mpr ⟨_, third, rfl⟩⟩⟩

section Concat

variable {fields : List Field} {batches : List ColumnBatch}

theorem columns_of_shaped (each : ∀ b ∈ batches, b.Shaped fields) {i : Nat} (inside : i < fields.length) :
    ∃ cols, batches.mapM (·.column i) = .ok cols ∧ cols.flatMap Column.cells = stacked batches i := by
  induction batches with
  | nil => exact ⟨[], rfl, rfl⟩
  | cons b rest ih =>
    rw [List.forall_mem_cons] at each
    obtain ⟨cols, found, cells⟩ := ih each.2
    have wide : i < b.columns.length := by
      rw [each.1.typed.length_eq]
      exact inside
    refine ⟨b.columns[i] :: cols, ?_, ?_⟩
    · rw [List.mapM_cons]
      have own : b.column i = .ok b.columns[i] := by
        rw [ColumnBatch.column, List.getElem?_eq_getElem wide]
      exact Except.bind_eq_ok.mpr ⟨_, own, Except.bind_eq_ok.mpr ⟨_, found, rfl⟩⟩
    · rw [List.flatMap_cons, cells]
      simp [stacked, List.getElem?_eq_getElem wide]

/-- Batches of the same distinct fields concatenate as long as no column's offsets run over. -/
theorem concatBatches_of_fits (each : ∀ b ∈ batches, b.Shaped fields) (distinct : (fields.map Field.name).Nodup)
    (fits : ∀ i < fields.length, FitsOffsets (stacked batches i)) :
    ∃ b, concatBatches fields batches = .ok b := by
  have lengths := (stacked_rows each).2
  have parts : fields.zipIdx.mapM (concatField batches) =
      .ok (fields.zipIdx.map fun f => ⟨f.1.ty, stacked batches f.2⟩) := by
    apply mapM_except_of_forall₂
    rw [List.forall₂_map_right_iff, List.forall₂_same]
    intro f member
    have inside : f.2 < fields.length := by
      have at_ := List.mk_mem_zipIdx_iff_getElem?.mp member
      exact (List.getElem?_eq_some_iff.mp at_).1
    obtain ⟨cols, found, cells⟩ := columns_of_shaped each inside
    refine Except.bind_eq_ok.mpr ⟨cols, found, ?_⟩
    rw [← cells]
    apply Column.concat_of_fits
    rw [cells]
    exact fits f.2 inside
  let columns : List Column := fields.zipIdx.map fun f => ⟨f.1.ty, stacked batches f.2⟩
  have typed : List.Forall₂ (fun (c : Column) (f : Field) => c.ty = f.ty) columns fields := by
    rw [List.forall₂_iff_get]
    refine ⟨by simp [columns], ?_⟩
    intro i left right
    simp [columns]
  have long : ∀ c ∈ columns, c.cells.length = (batches.map ColumnBatch.rows).sum := by
    intro c member
    obtain ⟨f, inside, rfl⟩ := List.mem_map.mp member
    have at_ := List.mk_mem_zipIdx_iff_getElem?.mp inside
    exact lengths f.2 (List.getElem?_eq_some_iff.mp at_).1
  have even : ∀ c ∈ columns, c.cells.length = (ColumnBatch.mk fields columns).rows := by
    intro c member
    obtain ⟨first, rest, head⟩ := List.exists_cons_of_ne_nil (List.ne_nil_of_mem member)
    have own : (ColumnBatch.mk fields columns).rows = first.cells.length := by
      simp [ColumnBatch.rows, head]
    rw [own, long c member, long first (by rw [head]; simp)]
  have made : ColumnBatch.new fields columns = .ok ⟨fields, columns⟩ :=
    ColumnBatch.new_eq_ok.mpr ⟨rfl, typed, even, distinct⟩
  refine ⟨⟨fields, columns⟩, ?_⟩
  unfold concatBatches
  refine Except.bind_eq_ok.mpr ⟨columns, parts, ?_⟩
  rw [made]
  rfl

/-- What a concatenation of shaped batches refuses, it refuses with an error of its own. -/
theorem concatBatches_error (each : ∀ b ∈ batches, b.Shaped fields) {e : ExecError}
    (refused : concatBatches fields batches = .error e) : ∃ message, e = .plan message := by
  unfold concatBatches at refused
  cases parts : fields.zipIdx.mapM (concatField batches) with
  | ok columns =>
    rw [parts] at refused
    change (ColumnBatch.new fields columns).mapError _ = _ at refused
    cases new : ColumnBatch.new fields columns with
    | ok b =>
      rw [new] at refused
      cases refused
    | error e' =>
      rw [new] at refused
      cases refused
      exact ⟨_, rfl⟩
  | error e' =>
    rw [parts] at refused
    cases refused
    obtain ⟨f, member, failed⟩ := exists_of_mapM_error parts
    have at_ := List.mk_mem_zipIdx_iff_getElem?.mp member
    obtain ⟨cols, found, _⟩ := columns_of_shaped each (List.getElem?_eq_some_iff.mp at_).1
    unfold concatField at failed
    rw [found] at failed
    change Column.concat f.1.ty cols = _ at failed
    unfold Column.concat at failed
    refine ⟨ListBuilder.tooLarge, ?_⟩
    cases first : runningTotal (fun c => dataLen c.cells) cols with
    | error e' =>
      rw [first] at failed
      cases failed
      exact runningTotal_error first
    | ok n =>
      rw [first] at failed
      cases second : runningTotal (fun c => childLen c.cells) cols with
      | error e' =>
        simp only [second, bind, Except.bind] at failed
        cases failed
        exact runningTotal_error second
      | ok n =>
        cases third : runningTotal (fun c => dataLen (c.cells.flatMap elements)) cols with
        | error e' =>
          simp only [second, third, bind, Except.bind] at failed
          cases failed
          exact runningTotal_error third
        | ok n =>
          simp only [second, third, bind, Except.bind] at failed
          cases failed

end Concat

theorem FitsOffsets.of_subperm {cells picked : List Value} (fits : FitsOffsets cells) (sub : picked.Subperm cells) :
    FitsOffsets picked := by
  obtain ⟨l, perm, sublist⟩ := sub
  have less : ∀ size : Value → Nat, (picked.map size).sum ≤ (cells.map size).sum := by
    intro size
    rw [← (perm.map size).sum_eq]
    exact (sublist.map size).sum_le_sum (by simp)
  refine ⟨(less _).trans_lt fits.data, (less _).trans_lt fits.children, ?_⟩
  have childData := fits.childData
  rw [dataLen_flatMap] at childData ⊢
  exact (less _).trans_lt childData

section Taken

variable {b : ColumnBatch}

theorem map_range_getD {cells : List Value} {k : Nat} (within : k ≤ cells.length) :
    (List.range k).map (fun i => cells[i]?.getD .null) = cells.take k := by
  apply List.ext_getElem
  · simp [within]
  · intro i left right
    have inside : i < cells.length := by
      rw [List.length_take] at right
      omega
    simp [inside]

theorem takeRows_of_perm {c : Column} {indices : List Nat} {k : Nat} (sound : c.Sound) (perm : indices.Perm (List.range k))
    (within : k ≤ c.cells.length) :
    takeRows c indices = .ok ⟨c.ty, indices.map fun i => c.cells[i]?.getD .null⟩ := by
  have picks := pick_typed sound (indices.map Option.some)
  have shape : (indices.map Option.some).map (fun o => (o.bind fun i => c.cells[i]?).getD .null) =
      indices.map fun i => c.cells[i]?.getD .null := by
    simp [List.map_map, Function.comp_def]
  have sub : (indices.map fun i => c.cells[i]?.getD .null).Subperm c.cells := by
    refine ⟨c.cells.take k, ?_, List.take_sublist k c.cells⟩
    rw [← map_range_getD within]
    exact (perm.map _).symm
  rw [takeRows, takeOpt_eq]
  · rw [shape] at picks ⊢
    exact (rebuild_iff picks).1 (sound.fits.of_subperm sub)
  · intro i member
    have inside : i ∈ List.range k := perm.mem_iff.mp (by simpa using member)
    exact (List.mem_range.mp inside).trans_le within

/-- Rows in any order, the first of a batch all taken once, make a batch again. -/
theorem takeBatch_of_perm {indices : List Nat} {k : Nat} (sound : b.Sound) (perm : indices.Perm (List.range k))
    (within : k ≤ b.rows) : ∃ b', takeBatch b indices = .ok b' := by
  let columns : List Column := b.columns.map fun c => ⟨c.ty, indices.map fun i => c.cells[i]?.getD .null⟩
  have parts : b.columns.mapM (takeRows · indices) = .ok columns := by
    apply mapM_except_of_forall₂
    rw [List.forall₂_map_right_iff, List.forall₂_same]
    intro c member
    exact takeRows_of_perm (sound.columns c member) perm (by rw [sound.even c member]; exact within)
  have typed : List.Forall₂ (fun c f => c.ty = f.ty) columns b.fields := by
    rw [List.forall₂_map_left_iff]
    exact sound.typed
  have even : ∀ c ∈ columns, c.cells.length = (ColumnBatch.mk b.fields columns).rows := by
    intro c member
    obtain ⟨source, inside, rfl⟩ := List.mem_map.mp member
    obtain ⟨first, rest, head⟩ := List.exists_cons_of_ne_nil (List.ne_nil_of_mem inside)
    simp [ColumnBatch.rows, columns, head]
  refine ⟨⟨b.fields, columns⟩, ?_⟩
  unfold takeBatch
  refine Except.bind_eq_ok.mpr ⟨columns, parts, ?_⟩
  rw [ColumnBatch.remade, ColumnBatch.new_eq_ok.mpr ⟨rfl, typed, even, sound.distinct⟩]
  rfl

theorem sliceBatch_of_inside {fields : List Field} {start len : Nat} (shaped : b.Shaped fields)
    (distinct : (fields.map Field.name).Nodup) (inside : start + len ≤ b.rows) :
    ∃ b', sliceBatch b start len = .ok b' := by
  obtain ⟨rfl, typed, even⟩ := shaped
  let columns : List Column := b.columns.map fun c => ⟨c.ty, (c.cells.drop start).take len⟩
  have parts : b.columns.mapM (·.slice start len) = .ok columns := by
    apply mapM_except_of_forall₂
    rw [List.forall₂_map_right_iff, List.forall₂_same]
    intro c member
    simp only [Column.slice, even c member, ensure, inside, decide_true, if_true]
    rfl
  have typed' : List.Forall₂ (fun c f => c.ty = f.ty) columns b.fields := by
    rw [List.forall₂_map_left_iff]
    exact typed
  have long : ∀ c ∈ columns, c.cells.length = len := by
    intro c member
    obtain ⟨source, own, rfl⟩ := List.mem_map.mp member
    have := even source own
    simp only [List.length_take, List.length_drop]
    omega
  have even' : ∀ c ∈ columns, c.cells.length = (ColumnBatch.mk b.fields columns).rows := by
    intro c member
    obtain ⟨first, rest, head⟩ := List.exists_cons_of_ne_nil (List.ne_nil_of_mem member)
    have own : (ColumnBatch.mk b.fields columns).rows = first.cells.length := by
      simp [ColumnBatch.rows, head]
    rw [own, long c member, long first (by rw [head]; simp)]
  refine ⟨⟨b.fields, columns⟩, ?_⟩
  unfold sliceBatch
  refine Except.bind_eq_ok.mpr ⟨columns, parts, ?_⟩
  rw [ColumnBatch.remade, ColumnBatch.new_eq_ok.mpr ⟨rfl, typed', even', distinct⟩]
  rfl

theorem rechunk_of_sound (sound : b.Sound) : ∃ out, rechunk b.fields [b] = .ok out := by
  have each : ∀ c ∈ [b], c.Shaped b.fields := by simpa using sound.shaped rfl
  have fits : ∀ i < b.fields.length, FitsOffsets (stacked [b] i) := by
    intro i inside
    have wide : i < b.columns.length := by
      rw [sound.typed.length_eq]
      exact inside
    have own := (sound.columns _ (List.getElem_mem wide)).fits
    simpa [stacked, List.getElem?_eq_getElem wide] using own
  obtain ⟨combined, concat⟩ := concatBatches_of_fits each sound.distinct fits
  obtain ⟨shaped, rows⟩ := concatBatches_toRows each concat
  have total : combined.rows = b.rows := by
    rw [← combined.length_toRows, rows, List.flatMap_singleton, b.length_toRows]
  by_cases none : b.rows = 0
  · exact ⟨[], by simp [rechunk, none]; rfl⟩
  · have sliced : ∀ p ∈ pieces b.rows, ∃ b', sliceBatch combined p.1 p.2 = .ok b' := by
      intro p member
      exact sliceBatch_of_inside shaped sound.distinct (by rw [total]; exact (mem_pieces member).1)
    obtain ⟨out, cut⟩ := exists_mapM_eq_ok sliced
    refine ⟨out, ?_⟩
    unfold rechunk
    simp only [List.map_cons, List.map_nil, List.sum_cons, List.sum_nil, Nat.add_zero, none, if_false]
    exact Except.bind_eq_ok.mpr ⟨combined, concat, cut⟩

end Taken

/-- Batches that fit together are concatenated and numbered as far as a `u32` goes. -/
theorem sorted_of_fits {fields : List Field} {keys : List SortKey} {held : List ColumnBatch} (some_ : fields ≠ [])
    (distinct : (fields.map Field.name).Nodup) (each : ∀ b ∈ held, b.fields = fields ∧ b.Sound)
    (fits : ∀ i < fields.length, FitsOffsets (stacked held i)) :
    ∃ concat order, concatBatches fields held = .ok concat ∧ sortIndices concat keys = .ok order ∧
      concat.fields = fields ∧ concat.Sound ∧ concat.columns ≠ [] ∧
      concat.rows = (held.flatMap ColumnBatch.toRows).length ∧ order.Perm (List.range (asU32 concat.rows)) := by
  have shaped : ∀ b ∈ held, b.Shaped fields := fun b member => (each b member).2.shaped (each b member).1
  obtain ⟨concat, joined⟩ := concatBatches_of_fits shaped distinct fits
  obtain ⟨named, sound, rows⟩ := concatBatches_rows ⟨held, each⟩ joined
  have total : concat.rows = (held.flatMap ColumnBatch.toRows).length := by
    rw [← concat.length_toRows, rows]
    rfl
  have wide : concat.columns ≠ [] := by
    intro empty
    have width := sound.typed.length_eq
    rw [empty, named] at width
    exact some_ (List.eq_nil_of_length_eq_zero width.symm)
  obtain ⟨order, sorted, perm⟩ : ∃ order, sortIndices concat keys = .ok order ∧
      order.Perm (List.range (asU32 concat.rows)) := by
    obtain ⟨c, rest, columns⟩ := List.exists_cons_of_ne_nil wide
    have own : c.cells.length = concat.rows := by simp [ColumnBatch.rows, columns]
    rw [← own]
    unfold sortIndices
    rw [columns]
    exact ⟨_, rfl, List.perm_insertionSort _ _⟩
  exact ⟨concat, order, joined, sorted, named, sound, wide, total, perm⟩

/-- A sort returns as many rows as the `u32` of their number. -/
theorem SortSink.finish_of_fits {fields : List Field} {keys : List SortKey} {held : List ColumnBatch}
    (some_ : fields ≠ []) (distinct : (fields.map Field.name).Nodup) (each : ∀ b ∈ held, b.fields = fields ∧ b.Sound)
    (fits : ∀ i < fields.length, FitsOffsets (stacked held i)) :
    ∃ batches, SortSink.finish fields keys held = .ok batches ∧
      (batches.flatMap ColumnBatch.toRows).length = asU32 (held.flatMap ColumnBatch.toRows).length := by
  unfold SortSink.finish
  by_cases none : held = []
  · subst none
    exact ⟨[], rfl, rfl⟩
  obtain ⟨concat, order, joined, sorted, named, sound, wide, total, perm⟩ :=
    @sorted_of_fits _ keys _ some_ distinct each fits
  have within : asU32 concat.rows ≤ concat.rows := Nat.mod_le _ _
  obtain ⟨taken, took⟩ := takeBatch_of_perm sound perm within
  have inside : ∀ i ∈ order, i < concat.rows := by
    intro i member
    exact (List.mem_range.mp (perm.mem_iff.mp member)).trans_le within
  obtain ⟨named', sound', takenRows⟩ := takeBatch_ok sound wide inside took
  obtain ⟨out, cut⟩ := rechunk_of_sound sound'
  rw [named'.named, named] at cut
  refine ⟨out, ?_, ?_⟩
  · rw [if_neg (by simpa using none)]
    exact Except.bind_eq_ok.mpr ⟨concat, joined, Except.bind_eq_ok.mpr ⟨order, sorted,
      Except.bind_eq_ok.mpr ⟨taken, took, cut⟩⟩⟩
  · have shapes : ∀ b ∈ [taken], b.Shaped fields := by
      simpa using sound'.shaped (named'.named.trans named)
    rw [(rechunk_ok shapes cut).2, List.flatMap_singleton, takenRows, List.length_map, perm.length_eq,
      List.length_range, total]

/-- A sort of batches that are too large together is refused. -/
theorem SortSink.finish_of_oversized {fields : List Field} {keys : List SortKey} {held : List ColumnBatch}
    (each : ∀ b ∈ held, b.fields = fields ∧ b.Sound) {i : Nat} (inside : i < fields.length)
    (oversized : ¬ FitsOffsets (stacked held i)) :
    ∃ message, SortSink.finish fields keys held = .error (.plan message) := by
  have some_ : held ≠ [] := by
    intro none
    subst none
    exact oversized ⟨by simp [stacked], by simp [stacked], by simp [stacked]⟩
  have shaped : ∀ b ∈ held, b.Shaped fields := fun b member => (each b member).2.shaped (each b member).1
  unfold SortSink.finish
  rw [if_neg (by simpa using some_)]
  cases joined : concatBatches fields held with
  | ok concat =>
    obtain ⟨_, typed, _, _, fits, cells⟩ := concatBatches_ok joined
    have own : stacked held i ∈ concat.columns.map Column.cells := by
      rw [cells]
      exact List.mem_map.mpr ⟨i, List.mem_range.mpr inside, rfl⟩
    obtain ⟨c, member, same⟩ := List.mem_map.mp own
    rw [← same] at oversized
    exact absurd (fits c member) oversized
  | error e =>
    obtain ⟨message, rfl⟩ := concatBatches_error shaped joined
    exact ⟨message, rfl⟩

def allTrue (n : Nat) : ColumnBatch := ⟨[⟨"a", .bool⟩], [⟨.bool, List.replicate n (.bool true)⟩]⟩

theorem allTrue_fits (n : Nat) : FitsOffsets (List.replicate n (.bool true)) := by
  have none : (List.replicate n (Value.bool true)).flatMap elements = [] := by
    rw [List.flatMap_eq_nil_iff]
    intro v member
    rw [List.eq_of_mem_replicate member]
    rfl
  exact ⟨by simp [dataLen, rowBytes], by simp [childLen, elements], by simp [none]⟩

theorem allTrue_whole (n : Nat) : (allTrue n).Sound := by
  refine ⟨by simp [allTrue], by simp [allTrue, ColumnBatch.rows], by simp [allTrue], ?_⟩
  intro c inside
  rw [List.mem_singleton.mp inside]
  refine ⟨?_, allTrue_fits n⟩
  intro v own
  rw [List.eq_of_mem_replicate own]
  exact True.intro

theorem allTrue_rows (n : Nat) : ([allTrue n].map ColumnBatch.rows).sum = n := by
  simp [allTrue, ColumnBatch.rows]

end Adelie
