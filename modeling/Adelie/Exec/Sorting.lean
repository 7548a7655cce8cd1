import Adelie.Exec.Gathered
import Adelie.Lib.Stable
import Adelie.Lib.Top

namespace Adelie

section Rows

variable {fields : List Field} {keys : List SortKey} {rows : List Row}

/-- The order of the keys on rows of the fields' types. -/
abbrev RowLe (fields : List Field) (keys : List SortKey) : Row → Row → Prop := Within (Typed fields) (KeyLe keys)

theorem rowLe_total (inside : ∀ key ∈ keys, key.column < fields.length) : Std.Total (RowLe fields keys) :=
  Within.total (keyLe_total inside)

theorem rowLe_trans (inside : ∀ key ∈ keys, key.column < fields.length) : IsTrans Row (RowLe fields keys) :=
  Within.trans (keyLe_trans inside)

/-- Sorted, rows of the fields' types are a permutation in non-decreasing order. -/
theorem sorted_rows (inside : ∀ key ∈ keys, key.column < fields.length) (typed : ∀ r ∈ rows, Typed fields r) :
    (rows.insertionSort (KeyLe keys)).Perm rows ∧ (rows.insertionSort (KeyLe keys)).Pairwise (KeyLe keys) := by
  classical
  have := rowLe_total inside
  have := rowLe_trans inside
  have perm := List.perm_insertionSort (KeyLe keys) rows
  refine ⟨perm, ?_⟩
  apply pairwise_of_within (P := Typed fields) fun r member => typed r (perm.mem_iff.mp member)
  rw [insertionSort_within typed]
  exact List.pairwise_insertionSort _ _

theorem compareKeys_tied {a b x : Row} (inside : ∀ key ∈ keys, key.column < fields.length) (left : Typed fields a)
    (right : Typed fields b) (middle : Typed fields x) (tied : compareKeys keys a x = .eq) (tied' : compareKeys keys b x = .eq) :
    compareKeys keys a b = .eq := by
  have := compareKeys_transCmp inside
  have back : compareKeys keys x b = .eq :=
    @Std.OrientedCmp.eq_symm _ (fun a b : TypedRow fields => compareKeys keys a.val b.val) _ ⟨b, right⟩ ⟨x, middle⟩ tied'
  exact @Std.TransCmp.eq_trans _ (fun a b : TypedRow fields => compareKeys keys a.val b.val) _
    ⟨a, left⟩ ⟨x, middle⟩ ⟨b, right⟩ tied back

/-- Sorted rows keep the order they came in where the keys do not tell them apart. -/
theorem stableSort_rows (inside : ∀ key ∈ keys, key.column < fields.length) (typed : ∀ r ∈ rows, Typed fields r) :
    StableSort (compareKeys keys) rows (rows.insertionSort (KeyLe keys)) := by
  obtain ⟨perm, sorted⟩ := sorted_rows inside typed
  refine ⟨perm, sorted, ?_⟩
  intro x member
  apply filter_insertionSort
  intro a left b right tied tied'
  have both := compareKeys_tied inside (typed a left) (typed b right) (typed x member) (by simpa using tied)
    (by simpa using tied')
  change compareKeys keys a b ≠ .gt
  rw [both]
  decide

theorem typed_of_sound {batches : List ColumnBatch} (sound : ∀ b ∈ batches, b.fields = fields ∧ b.Sound) :
    ∀ r ∈ batches.flatMap ColumnBatch.toRows, Typed fields r := by
  intro r member
  obtain ⟨b, own, inside⟩ := List.mem_flatMap.mp member
  obtain ⟨rfl, whole⟩ := sound b own
  exact whole.typed_rows r inside

end Rows

/-- A stream whose batches are what the types of a batch and a column promise. -/
structure SoundStream where
  stream : Stream
  sound : ∀ i out, stream.emits i = .ok out → ∀ b ∈ out, b.fields = stream.fields ∧ b.Sound

theorem SoundStream.typed_rows (s : SoundStream) : ∀ r ∈ s.stream.rows, Typed s.stream.fields r := by
  intro r member
  obtain ⟨i, _, inside⟩ := List.mem_flatMap.mp member
  unfold Stream.rowsAt at inside
  cases emitted : s.stream.emits i with
  | error e =>
    rw [emitted] at inside
    cases inside
  | ok out =>
    rw [emitted] at inside
    obtain ⟨b, source, inside⟩ := List.mem_flatMap.mp inside
    obtain ⟨named, sound⟩ := s.sound i out emitted b source
    rw [← named]
    exact sound.typed_rows r inside

theorem checkSortKeys_ok {keys : List SortKey} {fields : List Field} {u : Unit} (made : checkSortKeys keys fields = .ok u) :
    ∀ key ∈ keys, key.column < fields.length := by
  unfold checkSortKeys at made
  split at made
  · cases made
  · rename_i none
    intro key member
    simpa using List.find?_eq_none.mp none key member

section Finish

variable {fields : List Field} {keys : List SortKey} {held batches : List ColumnBatch}

/-- The rows taken at the first `n` of the sorted numbers. -/
theorem takeSorted_ok {b b' : ColumnBatch} {order : List Nat} {n : Nat} (sound : b.Sound) (few : b.rows < 2 ^ 32)
    (sorted : sortIndices b keys = .ok order) (taken : takeBatch b (order.take n) = .ok b') :
    b'.fields = b.fields ∧ b'.Sound ∧ b'.toRows = (b.toRows.insertionSort (KeyLe keys)).take n := by
  obtain ⟨some, inside, rows⟩ := sortIndices_ok sorted few
  obtain ⟨shaped, sound', taken⟩ :=
    takeBatch_ok sound some (fun i member => inside i (List.mem_of_mem_take member)) taken
  exact ⟨shaped.named, sound', by rw [taken, List.map_take, rows]⟩

theorem length_toRows_flatMap (held : List ColumnBatch) :
    (held.flatMap ColumnBatch.toRows).length = (held.map ColumnBatch.rows).sum := by
  rw [List.length_flatMap]
  congr 1
  exact List.map_congr_left fun b _ => b.length_toRows

theorem SortSink.finish_ok (each : ∀ b ∈ held, b.fields = fields ∧ b.Sound)
    (few : (held.flatMap ColumnBatch.toRows).length < 2 ^ 32) (made : SortSink.finish fields keys held = .ok batches) :
    (∀ b ∈ batches, b.Shaped fields) ∧
      batches.flatMap ColumnBatch.toRows = (held.flatMap ColumnBatch.toRows).insertionSort (KeyLe keys) := by
  unfold SortSink.finish at made
  split at made
  · rename_i none
    cases made
    rw [List.isEmpty_iff.mp none]
    exact ⟨by simp, rfl⟩
  · obtain ⟨concat, joined, made⟩ := Except.bind_eq_ok.mp made
    obtain ⟨order, sorted, made⟩ := Except.bind_eq_ok.mp made
    obtain ⟨taken, took, made⟩ := Except.bind_eq_ok.mp made
    obtain ⟨named, sound, rows⟩ := concatBatches_rows ⟨held, each⟩ joined
    have count : concat.rows < 2 ^ 32 := by
      rw [← concat.length_toRows, rows]
      exact few
    have short : order.take order.length = order := List.take_length
    rw [← short] at took
    obtain ⟨named', sound', sortedRows⟩ := takeSorted_ok sound count sorted took
    have shaped : taken.Shaped fields := sound'.shaped (named'.trans named)
    have all : ∀ b ∈ [taken], b.Shaped fields := by simpa using shaped
    obtain ⟨shapes, same⟩ := rechunk_ok all made
    refine ⟨shapes, ?_⟩
    have length : order.length = (concat.toRows.insertionSort (KeyLe keys)).length := by
      have := congrArg List.length (sortIndices_ok sorted count).2.2
      rw [List.length_map] at this
      exact this
    rw [same, List.flatMap_singleton, sortedRows, length, List.take_length, rows]
    rfl

end Finish

namespace TopKSink

variable {fields : List Field} {keys : List SortKey} {k : Nat} {held incoming held' : List ColumnBatch}
  {all more : List Row}

/-- The first `k` rows of those given so far, in order. -/
structure Tops (fields : List Field) (keys : List SortKey) (k : Nat) (held : List ColumnBatch) (all : List Row) : Prop where
  sound : ∀ b ∈ held, b.fields = fields ∧ b.Sound
  tops : TopOf (RowLe fields keys) k (held.flatMap ColumnBatch.toRows) all
  sorted : (held.flatMap ColumnBatch.toRows).Pairwise (RowLe fields keys)
  short : (held.flatMap ColumnBatch.toRows).length ≤ k

theorem tops_empty : Tops fields keys k [] [] where
  sound := by simp
  tops := TopOf.whole []
  sorted := List.Pairwise.nil
  short := Nat.zero_le k

theorem foldIn_tops (inside : ∀ key ∈ keys, key.column < fields.length) (tops : Tops fields keys k held all)
    (sound : ∀ b ∈ incoming, b.fields = fields ∧ b.Sound)
    (tops' : TopOf (RowLe fields keys) k (incoming.flatMap ColumnBatch.toRows) more)
    (few : (all ++ more).length < 2 ^ 32) (made : foldIn fields keys k held incoming = .ok held') :
    Tops fields keys k held' (all ++ more) := by
  classical
  have := rowLe_total inside
  have := rowLe_trans inside
  have merged := tops.tops.merge tops'
  unfold foldIn at made
  split at made
  · rename_i none
    subst none
    cases made
    have nothing : held.flatMap ColumnBatch.toRows = [] := List.eq_nil_of_length_eq_zero (Nat.le_zero.mp tops.short)
    refine ⟨tops.sound, ?_, tops.sorted, tops.short⟩
    rw [nothing]
    exact TopOf.none _
  · split at made
    · rename_i nothing
      cases made
      obtain ⟨none, none'⟩ := List.append_eq_nil_iff.mp (List.isEmpty_iff.mp nothing)
      subst none none'
      refine ⟨tops.sound, ?_, tops.sorted, tops.short⟩
      simpa using merged
    · obtain ⟨concat, joined, made⟩ := Except.bind_eq_ok.mp made
      obtain ⟨order, sorted, made⟩ := Except.bind_eq_ok.mp made
      obtain ⟨taken, took, made⟩ := Except.bind_eq_ok.mp made
      cases made
      have each : ∀ b ∈ held ++ incoming, b.fields = fields ∧ b.Sound := by
        intro b member
        rcases List.mem_append.mp member with member | member
        · exact tops.sound b member
        · exact sound b member
      obtain ⟨named, soundConcat, rows⟩ := concatBatches_rows ⟨held ++ incoming, each⟩ joined
      have rows : concat.toRows = held.flatMap ColumnBatch.toRows ++ incoming.flatMap ColumnBatch.toRows := by
        rw [rows]
        exact List.flatMap_append
      have count : concat.rows < 2 ^ 32 := by
        obtain ⟨rest, parts, _⟩ := tops.tops
        obtain ⟨rest', parts', _⟩ := tops'
        have left := parts.length_eq
        have right := parts'.length_eq
        rw [← concat.length_toRows, rows]
        simp only [List.length_append] at left right few ⊢
        omega
      obtain ⟨named', sound', takenRows⟩ := takeSorted_ok soundConcat count sorted took
      have typed : ∀ r ∈ concat.toRows, Typed fields r := by
        rw [← named]
        exact soundConcat.typed_rows
      rw [insertionSort_within typed, rows] at takenRows
      have flat : [taken].flatMap ColumnBatch.toRows =
          (((held.flatMap ColumnBatch.toRows ++ incoming.flatMap ColumnBatch.toRows)).insertionSort
            (RowLe fields keys)).take k := by
        rw [List.flatMap_singleton, takenRows]
      refine ⟨?_, ?_, ?_, ?_⟩
      · intro b member
        rw [List.mem_singleton.mp member]
        exact ⟨named'.trans named, sound'⟩
      · rw [flat]
        exact merged
      · rw [flat]
        exact (List.pairwise_insertionSort _ _).sublist (List.take_sublist _ _)
      · rw [flat, List.length_take]
        exact Nat.min_le_left _ _

end TopKSink

end Adelie
