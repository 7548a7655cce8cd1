import Adelie.Exec.Gathered

namespace Adelie

/-- Rows `offset` to `offset + count`, all from `offset` on without a count. -/
def window (count : Option Nat) (offset : Nat) (rows : List Row) : List Row :=
  match count with
  | some l => (rows.drop offset).take l
  | none => rows.drop offset

namespace LimitSink

variable {fields : List Field} {limit : Option Nat} {offset : Nat} {held held' other : LimitSink} {rows more : List Row}

/-- What of the rows given so far a sink keeps. -/
def keep (limit : Option Nat) (offset : Nat) (rows : List Row) : List Row :=
  if limit = some 0 then []
  else match bound limit offset with
    | some bound => rows.take bound
    | none => rows

theorem keep_zero (zero : limit = some 0) (rows : List Row) : keep limit offset rows = [] := if_pos zero

theorem keep_all (positive : limit ≠ some 0) (none : bound limit offset = none) (rows : List Row) :
    keep limit offset rows = rows := by
  unfold keep
  rw [if_neg positive, none]

theorem keep_most {most : Nat} (positive : limit ≠ some 0) (some : bound limit offset = some most) (rows : List Row) :
    keep limit offset rows = rows.take most := by
  unfold keep
  rw [if_neg positive, some]

structure Keeps (fields : List Field) (limit : Option Nat) (offset : Nat) (held : LimitSink) (rows : List Row) : Prop where
  shaped : ∀ b ∈ held.batches, b.Shaped fields
  kept : held.batches.flatMap ColumnBatch.toRows = keep limit offset rows
  count : held.rows = (keep limit offset rows).length

theorem keeps_empty : Keeps fields limit offset ⟨[], 0⟩ [] where
  shaped := by simp
  kept := by
    unfold keep
    split
    · rfl
    · split <;> simp
  count := by
    unfold keep
    split
    · rfl
    · split <;> simp

/-- A batch of no rows adds nothing; any other is appended. -/
theorem push_ok {b : ColumnBatch} (shaped : b.Shaped fields) (keeps : Keeps fields limit offset held rows)
    (made : push limit offset held b = .ok held') : Keeps fields limit offset held' (rows ++ b.toRows) := by
  obtain ⟨shapes, kept, count⟩ := keeps
  unfold push at made
  split at made
  · rename_i zero
    cases made
    rw [keep_zero zero] at kept count
    exact ⟨shapes, by rw [keep_zero zero, kept], by rw [keep_zero zero, count]⟩
  · rename_i positive
    obtain ⟨b', cutted, made⟩ := Except.bind_eq_ok.mp made
    -- the cut leaves what there is room for
    have added : b'.Shaped fields ∧ keep limit offset (rows ++ b.toRows) = keep limit offset rows ++ b'.toRows := by
      unfold cut at cutted
      cases most : bound limit offset with
      | none =>
        rw [most] at cutted
        cases cutted
        exact ⟨shaped, by rw [keep_all positive most, keep_all positive most]⟩
      | some most' =>
        rw [most] at cutted
        dsimp only at cutted
        rw [keep_most positive most, List.length_take] at count
        rw [keep_most positive most, keep_most positive most, List.take_append]
        split at cutted
        · rename_i past
          obtain ⟨shaped', rows'⟩ := sliceBatch_ok shaped cutted (by omega)
          refine ⟨shaped', ?_⟩
          have room : most' - held.rows = most' - rows.length := by omega
          rw [rows', List.drop_zero, room]
        · rename_i room
          cases cutted
          refine ⟨shaped, ?_⟩
          rw [List.take_of_length_le (i := most' - rows.length) (by rw [b.length_toRows]; omega)]
    split at made
    · rename_i nothing
      cases made
      have none : b'.toRows = [] := List.eq_nil_of_length_eq_zero (by rw [b'.length_toRows, nothing])
      rw [none, List.append_nil] at added
      exact ⟨shapes, by rw [added.2, kept], by rw [added.2, count]⟩
    · cases made
      refine ⟨?_, ?_, ?_⟩
      · intro c member
        rcases List.mem_append.mp member with member | member
        · exact shapes c member
        · rw [List.mem_singleton.mp member]
          exact added.1
      · rw [added.2, List.flatMap_append, kept, List.flatMap_singleton]
      · rw [added.2, List.length_append, b'.length_toRows, count]

theorem keep_keep (rows more : List Row) :
    keep limit offset (rows ++ keep limit offset more) = keep limit offset (rows ++ more) := by
  unfold keep
  split
  · rfl
  · split
    · rename_i most _
      rw [List.take_append, List.take_append, List.take_take]
      congr 2
      omega
    · rfl

theorem merge_ok (keeps : Keeps fields limit offset held rows) (keeps' : Keeps fields limit offset other more)
    (made : other.batches.foldlM (push limit offset) held = .ok held') :
    Keeps fields limit offset held' (rows ++ more) := by
  have general : ∀ (batches : List ColumnBatch) (held : LimitSink) (rows : List Row), (∀ b ∈ batches, b.Shaped fields) →
      Keeps fields limit offset held rows → batches.foldlM (push limit offset) held = .ok held' →
      Keeps fields limit offset held' (rows ++ batches.flatMap ColumnBatch.toRows) := by
    intro batches
    induction batches with
    | nil =>
      intro held rows _ keeps made
      cases made
      simpa using keeps
    | cons b rest ih =>
      intro held rows shapes keeps made
      rw [List.forall_mem_cons] at shapes
      rw [List.foldlM_cons] at made
      obtain ⟨next, pushed, made⟩ := Except.bind_eq_ok.mp made
      have := ih next _ shapes.2 (push_ok shapes.1 keeps pushed) made
      simpa using this
  obtain ⟨shapes, kept, count⟩ := general _ held rows keeps'.shaped keeps made
  rw [keeps'.kept, keep_keep] at kept count
  exact ⟨shapes, kept, count⟩

theorem skip_ok {batches out : List ColumnBatch} {n : Nat} (shapes : ∀ b ∈ batches, b.Shaped fields)
    (made : skip n batches = .ok out) :
    (∀ b ∈ out, b.Shaped fields) ∧ out.flatMap ColumnBatch.toRows = (batches.flatMap ColumnBatch.toRows).drop n := by
  induction batches generalizing n out with
  | nil =>
    cases made
    simp
  | cons b rest ih =>
    rw [List.forall_mem_cons] at shapes
    rw [List.flatMap_cons, List.drop_append, b.length_toRows]
    unfold skip at made
    split at made
    · rename_i past
      obtain ⟨shapes', rows⟩ := ih shapes.2 made
      refine ⟨shapes', ?_⟩
      have none : b.toRows.drop n = [] := List.drop_of_length_le (by rw [b.length_toRows]; exact past)
      rw [rows, none, List.nil_append]
    · rename_i left
      obtain ⟨first, sliced, made⟩ := Except.bind_eq_ok.mp made
      obtain ⟨others, skipped, made⟩ := Except.bind_eq_ok.mp made
      cases made
      obtain ⟨shaped', rows⟩ := sliceBatch_ok shapes.1 sliced (by omega)
      obtain ⟨shapes', rows'⟩ := ih shapes.2 skipped
      refine ⟨List.forall_mem_cons.mpr ⟨shaped', shapes'⟩, ?_⟩
      have whole : (b.toRows.drop n).take (b.rows - n) = b.toRows.drop n :=
        List.take_of_length_le (by rw [List.length_drop, b.length_toRows])
      have none : n - b.rows = 0 := by omega
      rw [List.flatMap_cons, rows, rows', whole, none, List.drop_zero]

/-- The end of the window is a `usize`. -/
def Fits (limit : Option Nat) (offset : Nat) : Prop := ∀ l, limit = some l → offset + l < 2 ^ 64

/-- What is kept reaches to the end of the window. -/
theorem drop_keep (fits : Fits limit offset) (rows : List Row) : (keep limit offset rows).drop offset = window limit offset rows := by
  unfold keep window bound
  cases limit with
  | none => rfl
  | some l =>
    by_cases zero : l = 0
    · subst zero
      simp
    · simp only [Option.some.injEq, zero, if_false, Option.map_some, Nat.mod_eq_of_lt (fits l rfl)]
      rw [List.drop_take, Nat.add_sub_cancel_left]

theorem finish_ok {out : List ColumnBatch} (fits : Fits limit offset) (keeps : Keeps fields limit offset held rows)
    (made : finish offset fields held = .ok out) :
    (∀ b ∈ out, b.Shaped fields) ∧ out.flatMap ColumnBatch.toRows = window limit offset rows := by
  unfold finish at made
  obtain ⟨left, skipped, made⟩ := Except.bind_eq_ok.mp made
  obtain ⟨shapes, rows'⟩ := skip_ok keeps.shaped skipped
  obtain ⟨shapes', same⟩ := rechunk_ok shapes made
  exact ⟨shapes', by rw [same, rows', keeps.kept, drop_keep fits]⟩

/-- A sink that has enough holds all there will ever be to keep. -/
theorem keep_of_done {part : LimitSink} (keeps : Keeps fields limit offset part rows)
    (done : (sink limit offset).done part = true) (more : List Row) :
    keep limit offset (rows ++ more) = keep limit offset rows := by
  have count := keeps.count
  simp only [sink, Bool.or_eq_true, decide_eq_true_eq] at done
  by_cases zero : limit = some 0
  · rw [keep_zero zero, keep_zero zero]
  · rcases done with wrong | full
    · exact absurd wrong zero
    · cases most : bound limit offset with
      | none =>
        rw [most] at full
        cases full
      | some most' =>
        rw [most] at full
        simp only [Option.any_some, decide_eq_true_eq] at full
        rw [keep_most zero most, List.length_take] at count
        rw [keep_most zero most, keep_most zero most, List.take_append_of_le_length (by omega)]

end LimitSink

end Adelie
