import Adelie.Exec.Built
import Adelie.Exec.History
import Adelie.Exec.Limiting

namespace Adelie

theorem usize_pos : 0 < 2 ^ 64 := by decide

/-- A `usize` sum that does not fit panics where overflow is checked and wraps where it is not. -/
def usizeAdd (checks : Bool) (a b : Nat) : Except ExecError Nat :=
  if a + b < 2 ^ 64 then .ok (a + b)
  else if checks then .error (.panicked "attempt to add with overflow") else .ok ((a + b) % 2 ^ 64)

theorem usizeAdd_of_fits {checks : Bool} {a b : Nat} (fits : a + b < 2 ^ 64) : usizeAdd checks a b = .ok (a + b) := if_pos fits

namespace LimitSink

section Checked

variable (checks : Bool) (limit : Option U64) (offset : U64)

/-- `offset + limit`, computed again by every call. -/
def boundAt : Except ExecError (Option Nat) :=
  match limit with
  | none => .ok none
  | some l => (usizeAdd checks offset.val l.val).map some

def cutAt (held : LimitSink) (b : ColumnBatch) : Except ExecError ColumnBatch := do
  match ← boundAt checks limit offset with
  | none => return b
  | some most =>
    let rows ← usizeAdd checks held.rows b.rows
    if most < rows then sliceBatch b 0 (most - held.rows) else return b

def pushAt (held : LimitSink) (b : ColumnBatch) : Except ExecError LimitSink := do
  if limit = some ⟨0, usize_pos⟩ then return held
  let b ← cutAt checks limit offset held b
  if b.rows = 0 then return held
  let rows ← usizeAdd checks held.rows b.rows
  return ⟨held.batches ++ [b], rows⟩

def mergeAt (held other : LimitSink) : Except ExecError LimitSink :=
  other.batches.foldlM (pushAt checks limit offset) held

def doneAt (held : LimitSink) : Except ExecError Bool := do
  if limit = some ⟨0, usize_pos⟩ then return true
  return (← boundAt checks limit offset).any (· ≤ held.rows)

/-- A sink after its history. -/
def run : History → Except ExecError LimitSink
  | .new => .ok ⟨[], 0⟩
  | .push before b => do pushAt checks limit offset (← run before) b
  | .merge before other => do mergeAt checks limit offset (← run before) (← run other)

/-- No call panics; the result is the window of all that was given, or a column of it is too large to build; `done` is
    true only where the window can no longer change. Row counts are `usize`. -/
def Law : Prop :=
  ∀ (fields : List Field) (h : History), h.Of fields → h.rows.length < 2 ^ 64 →
    ∃ held, run checks limit offset h = .ok held ∧
      (∀ out, finish offset.val fields held = .ok out →
        out.flatMap ColumnBatch.toRows = window (limit.map (·.val)) offset.val h.rows) ∧
      (∀ e, finish offset.val fields held = .error e → ∃ message, e = .plan message) ∧
      ∃ enough, doneAt checks limit offset held = .ok enough ∧ (enough = true → ∀ more,
        window (limit.map (·.val)) offset.val (h.rows ++ more) = window (limit.map (·.val)) offset.val h.rows)

end Checked

section Fitting

variable {checks : Bool} {limit : Option U64} {offset : U64} {fields : List Field} {held held' other : LimitSink}
  {rows more : List Row} {b : ColumnBatch}

theorem boundAt_of_fits (fits : Fits (limit.map (·.val)) offset.val) :
    boundAt checks limit offset = .ok (bound (limit.map (·.val)) offset.val) := by
  cases limit with
  | none => rfl
  | some l =>
    have small : offset.val + l.val < 2 ^ 64 := fits l.val rfl
    rw [boundAt, usizeAdd_of_fits small, bound, Option.map_some, Option.map_some, Nat.mod_eq_of_lt small]
    rfl

theorem limit_zero : limit.map (·.val) = some 0 ↔ limit = some ⟨0, usize_pos⟩ := by
  cases limit with
  | none => simp
  | some l => simp [Subtype.ext_iff]

/-- Where no sum runs over the calls are those without overflow. -/
theorem pushAt_of_fits (fits : Fits (limit.map (·.val)) offset.val) (small : held.rows + b.rows < 2 ^ 64)
    (shaped : b.Shaped fields) : pushAt checks limit offset held b = push (limit.map (·.val)) offset.val held b := by
  unfold pushAt push
  by_cases zero : limit = some ⟨0, usize_pos⟩
  · rw [if_pos zero, if_pos (limit_zero.mpr zero)]
  · rw [if_neg zero, if_neg (mt limit_zero.mp zero)]
    have cut_eq : cutAt checks limit offset held b = cut (limit.map (·.val)) offset.val held b := by
      unfold cutAt cut
      rw [boundAt_of_fits fits, usizeAdd_of_fits small]
      cases bound (limit.map (·.val)) offset.val <;> rfl
    rw [cut_eq]
    cases cutted : cut (limit.map (·.val)) offset.val held b with
    | error e => rfl
    | ok b' =>
      have shorter : b'.rows ≤ b.rows := by
        unfold cut at cutted
        split at cutted
        · split at cutted
          · obtain ⟨_, rows'⟩ := sliceBatch_ok shaped cutted (by omega)
            rw [← b'.length_toRows, rows', ← b.length_toRows]
            simp
          · cases cutted
            exact Nat.le_refl _
        · cases cutted
          exact Nat.le_refl _
      have fits' : held.rows + b'.rows < 2 ^ 64 := by omega
      change (if b'.rows = 0 then _ else usizeAdd checks held.rows b'.rows >>= _) = _
      rw [usizeAdd_of_fits fits']
      rfl

theorem push_of_shaped {limit : Option Nat} {offset : Nat} (shaped : b.Shaped fields)
    (distinct : (fields.map Field.name).Nodup) : ∃ held', push limit offset held b = .ok held' := by
  have cutted : ∃ b', cut limit offset held b = .ok b' := by
    unfold cut
    split
    · split
      · exact sliceBatch_of_inside shaped distinct (by omega)
      · exact ⟨b, rfl⟩
    · exact ⟨b, rfl⟩
  obtain ⟨b', cutted⟩ := cutted
  unfold push
  split
  · exact ⟨held, rfl⟩
  · by_cases none_ : b'.rows = 0
    · exact ⟨held, Except.bind_eq_ok.mpr ⟨b', cutted, if_pos none_⟩⟩
    · exact ⟨_, Except.bind_eq_ok.mpr ⟨b', cutted, if_neg none_⟩⟩

theorem length_keep {limit : Option Nat} {offset : Nat} (rows : List Row) : (keep limit offset rows).length ≤ rows.length := by
  unfold keep
  split
  · exact Nat.zero_le _
  · split
    · exact List.length_take_le' _ _
    · exact Nat.le_refl _

/-- Batches pushed one by one, as a merge does, none of them a failure. -/
theorem pushesAt_of_fits (fits : Fits (limit.map (·.val)) offset.val) (distinct : (fields.map Field.name).Nodup)
    {batches : List ColumnBatch} (shapes : ∀ b ∈ batches, b.Shaped fields)
    (keeps : Keeps fields (limit.map (·.val)) offset.val held rows)
    (small : rows.length + (batches.map ColumnBatch.rows).sum < 2 ^ 64) :
    ∃ held', batches.foldlM (pushAt checks limit offset) held = .ok held' ∧
      Keeps fields (limit.map (·.val)) offset.val held' (rows ++ batches.flatMap ColumnBatch.toRows) := by
  induction batches generalizing held rows with
  | nil => exact ⟨held, rfl, by simpa using keeps⟩
  | cons b rest ih =>
    rw [List.forall_mem_cons] at shapes
    rw [List.map_cons, List.sum_cons] at small
    have count := keeps.count
    have shorter := @length_keep (limit.map (·.val)) offset.val rows
    obtain ⟨next, pushed⟩ := @push_of_shaped _ held _ (limit.map (·.val)) offset.val shapes.1 distinct
    have keeps' := push_ok shapes.1 keeps pushed
    have length : (rows ++ b.toRows).length + (rest.map ColumnBatch.rows).sum < 2 ^ 64 := by
      rw [List.length_append, b.length_toRows]
      omega
    obtain ⟨held', folded, kept⟩ := ih shapes.2 keeps' length
    refine ⟨held', ?_, by simpa using kept⟩
    rw [List.foldlM_cons, pushAt_of_fits fits (by omega) shapes.1, pushed]
    exact folded

/-- A history that fits runs to its end; a batch held shows that the fields' names differ. -/
theorem run_of_fits (fits : Fits (limit.map (·.val)) offset.val) {h : History} (of : h.Of fields)
    (small : h.rows.length < 2 ^ 64) : ∃ held, run checks limit offset h = .ok held ∧
      Keeps fields (limit.map (·.val)) offset.val held h.rows ∧
      (held.batches ≠ [] → (fields.map Field.name).Nodup) := by
  induction h with
  | new => exact ⟨⟨[], 0⟩, rfl, keeps_empty, by simp⟩
  | push before b ih =>
    obtain ⟨earlier, named, sound⟩ := History.of_push.mp of
    rw [History.rows_push] at small ⊢
    rw [List.length_append, b.length_toRows] at small
    obtain ⟨held, made, keeps, _⟩ := ih earlier (by omega)
    have distinct : (fields.map Field.name).Nodup := named ▸ sound.distinct
    have shapes : ∀ c ∈ [b], c.Shaped fields := by simpa using sound.shaped named
    obtain ⟨held', pushed, keeps'⟩ := @pushesAt_of_fits checks _ _ _ _ _ fits distinct [b] shapes keeps (by simpa using small)
    rw [List.foldlM_cons] at pushed
    obtain ⟨next, pushed, last⟩ := Except.bind_eq_ok.mp pushed
    cases last
    exact ⟨held', Except.bind_eq_ok.mpr ⟨held, made, pushed⟩, by simpa using keeps', fun _ => distinct⟩
  | merge before other ih ih' =>
    obtain ⟨earlier, others⟩ := History.of_merge.mp of
    rw [History.rows_merge] at small ⊢
    rw [List.length_append] at small
    obtain ⟨held, made, keeps, own⟩ := ih earlier (by omega)
    obtain ⟨part, made', keeps', theirs⟩ := ih' others (by omega)
    by_cases none_ : part.batches = []
    · have merged : part.batches.foldlM (push (limit.map (·.val)) offset.val) held = .ok held := by
        rw [none_]
        rfl
      refine ⟨held, Except.bind_eq_ok.mpr ⟨held, made, Except.bind_eq_ok.mpr ⟨part, made', ?_⟩⟩, merge_ok keeps keeps' merged, own⟩
      rw [mergeAt, none_]
      rfl
    · have shorter := @length_keep (limit.map (·.val)) offset.val other.rows
      have sum : (part.batches.map ColumnBatch.rows).sum = (keep (limit.map (·.val)) offset.val other.rows).length := by
        rw [← keeps'.kept, length_toRows_flatMap]
      obtain ⟨held', folded, kept⟩ :=
        @pushesAt_of_fits checks _ _ _ _ _ fits (theirs none_) _ keeps'.shaped keeps (by omega)
      refine ⟨held', Except.bind_eq_ok.mpr ⟨held, made, Except.bind_eq_ok.mpr ⟨part, made', folded⟩⟩, ?_, fun _ => theirs none_⟩
      obtain ⟨shapes, cells, count⟩ := kept
      rw [keeps'.kept, keep_keep] at cells count
      exact ⟨shapes, cells, count⟩

theorem skip_of_shaped (distinct : (fields.map Field.name).Nodup) {batches : List ColumnBatch}
    (shapes : ∀ b ∈ batches, b.Shaped fields) (n : Nat) : ∃ out, skip n batches = .ok out := by
  induction batches generalizing n with
  | nil => exact ⟨[], rfl⟩
  | cons b rest ih =>
    rw [List.forall_mem_cons] at shapes
    unfold skip
    split
    · exact ih shapes.2 _
    · obtain ⟨first, sliced⟩ := @sliceBatch_of_inside b fields n (b.rows - n) shapes.1 distinct (by omega)
      obtain ⟨others, skipped⟩ := ih shapes.2 0
      exact ⟨first :: others, Except.bind_eq_ok.mpr ⟨first, sliced, Except.bind_eq_ok.mpr ⟨others, skipped, rfl⟩⟩⟩

/-- Rechunking refuses nothing but a column too large to build. -/
theorem rechunk_error (distinct : (fields.map Field.name).Nodup) {batches : List ColumnBatch}
    (shapes : ∀ b ∈ batches, b.Shaped fields) {e : ExecError} (refused : rechunk fields batches = .error e) :
    ∃ message, e = .plan message := by
  unfold rechunk at refused
  dsimp only at refused
  split at refused
  · cases refused
  · cases concat : concatBatches fields batches with
    | error e' =>
      rw [concat] at refused
      cases refused
      exact concatBatches_error shapes concat
    | ok combined =>
      obtain ⟨shaped, rows⟩ := concatBatches_toRows shapes concat
      have total : combined.rows = (batches.map ColumnBatch.rows).sum := by
        rw [← combined.length_toRows, rows, length_toRows_flatMap]
      have sliced : ∀ p ∈ pieces (batches.map ColumnBatch.rows).sum, ∃ b', sliceBatch combined p.1 p.2 = .ok b' := by
        intro p member
        exact sliceBatch_of_inside shaped distinct (by rw [total]; exact (mem_pieces member).1)
      obtain ⟨out, cut⟩ := exists_mapM_eq_ok sliced
      rw [concat] at refused
      change (pieces _).mapM _ = _ at refused
      rw [cut] at refused
      cases refused

theorem finish_error {limit : Option Nat} {offset : Nat} (keeps : Keeps fields limit offset held rows)
    (distinct : held.batches ≠ [] → (fields.map Field.name).Nodup) {e : ExecError}
    (refused : finish offset fields held = .error e) : ∃ message, e = .plan message := by
  unfold finish at refused
  by_cases none_ : held.batches = []
  · rw [none_] at refused
    cases refused
  · obtain ⟨left, skipped⟩ := skip_of_shaped (distinct none_) keeps.shaped offset
    rw [skipped] at refused
    exact rechunk_error (distinct none_) (skip_ok keeps.shaped skipped).1 refused

theorem doneAt_of_fits (fits : Fits (limit.map (·.val)) offset.val) :
    doneAt checks limit offset held = .ok ((sink (limit.map (·.val)) offset.val).done held) := by
  unfold doneAt
  by_cases zero : limit = some ⟨0, usize_pos⟩
  · rw [if_pos zero]
    simp [sink, limit_zero.mpr zero]
    rfl
  · rw [if_neg zero, boundAt_of_fits fits]
    have other := mt limit_zero.mp zero
    simp only [sink, other, decide_false, Bool.false_or]
    rfl

/-- The law of LIMIT and OFFSET where `offset + limit` is a `usize`. -/
theorem law_of_fits (fits : Fits (limit.map (·.val)) offset.val) : Law checks limit offset := by
  intro fields h of small
  obtain ⟨held, made, keeps, distinct⟩ := @run_of_fits checks limit offset fields fits h of small
  refine ⟨held, made, fun out finished => (finish_ok fits keeps finished).2, fun e refused => finish_error keeps distinct refused,
    _, doneAt_of_fits fits, ?_⟩
  intro done more
  rw [← drop_keep fits, ← drop_keep fits, keep_of_done keeps done]

end Fitting

section Overflowing

variable {limit : Option U64} {offset l : U64}

theorem allTrue_of (n : Nat) : (History.push .new (allTrue n)).Of [⟨"a", .bool⟩] := by
  rw [History.of_push]
  exact ⟨by simp [History.Of, History.batches], rfl, allTrue_whole n⟩

theorem allTrue_history_rows (n : Nat) : (History.push .new (allTrue n)).rows.length = n := by
  rw [History.rows_push, History.rows_new, List.nil_append, ColumnBatch.length_toRows]
  simp [allTrue, ColumnBatch.rows]

/-- With overflow checks the first row pushed panics. -/
theorem not_law_checked (past : 2 ^ 64 ≤ offset.val + l.val) : ¬ Law true (some l) offset := by
  intro law
  obtain ⟨held, made, _⟩ := law _ _ (allTrue_of 1) (by rw [allTrue_history_rows]; decide)
  have positive : some l ≠ some (⟨0, by decide⟩ : U64) := by
    rintro ⟨rfl⟩
    have := offset.property
    simp only at past
    omega
  obtain ⟨start, first, made⟩ := Except.bind_eq_ok.mp made
  unfold pushAt at made
  rw [if_neg positive] at made
  obtain ⟨b, cutted, _⟩ := Except.bind_eq_ok.mp made
  obtain ⟨most, bounded, _⟩ := Except.bind_eq_ok.mp cutted
  rw [boundAt, usizeAdd, if_neg (by omega)] at bounded
  cases bounded

/-- Without them the bound wraps: a sink has enough as soon as it holds that few rows. -/
theorem not_law_wrapping (past : 2 ^ 64 ≤ offset.val + l.val) : ¬ Law false (some l) offset := by
  intro law
  have first_lt := offset.property
  have second_lt := l.property
  obtain ⟨few, few_eq⟩ : ∃ few, few = offset.val + l.val - 2 ^ 64 := ⟨_, rfl⟩
  have bounded : boundAt false (some l) offset = .ok (some few) := by
    have wrapped : (offset.val + l.val) % 2 ^ 64 = few := by omega
    rw [boundAt, usizeAdd, if_neg (by omega), if_neg (by decide), wrapped]
    rfl
  have positive : some l ≠ some (⟨0, by decide⟩ : U64) := by
    rintro ⟨rfl⟩
    simp only at past
    omega
  obtain ⟨held, made, _, _, enough, done, fixed⟩ := law _ _ (allTrue_of few) (by rw [allTrue_history_rows]; omega)
  have rows : held.rows = few := by
    obtain ⟨start, first, made⟩ := Except.bind_eq_ok.mp made
    cases first
    unfold pushAt at made
    rw [if_neg positive] at made
    obtain ⟨b, cutted, made⟩ := Except.bind_eq_ok.mp made
    obtain ⟨most, bounded', cutted⟩ := Except.bind_eq_ok.mp cutted
    rw [bounded] at bounded'
    cases bounded'
    obtain ⟨total, summed, cutted⟩ := Except.bind_eq_ok.mp cutted
    have width : (allTrue few).rows = few := by simp [allTrue, ColumnBatch.rows]
    have summable : (⟨[], 0⟩ : LimitSink).rows + few < 2 ^ 64 := by
      change 0 + few < 2 ^ 64
      omega
    rw [width, usizeAdd_of_fits summable] at summed
    cases summed
    rw [if_neg (by simp)] at cutted
    cases cutted
    rw [width] at made
    split at made
    · rename_i none_
      cases made
      exact none_.symm
    · rw [usizeAdd_of_fits summable] at made
      cases made
      exact Nat.zero_add few
  have full : enough = true := by
    unfold doneAt at done
    rw [if_neg positive, bounded] at done
    cases done
    simp [rows]
  have same := fixed full (List.replicate (offset.val + 1) [.bool true])
  have length := congrArg List.length same
  simp only [window, Option.map_some, List.length_take, List.length_drop, List.length_append, List.length_replicate,
    allTrue_history_rows] at length
  omega

end Overflowing

end LimitSink

/-- A LIMIT keeps its law exactly where `offset + limit` is a `usize`, whether overflow is checked or not. -/
theorem limit_law_iff (checks : Bool) (limit : Option U64) (offset : U64) :
    LimitSink.Law checks limit offset ↔ ∀ l, limit = some l → offset.val + l.val < 2 ^ 64 := by
  constructor
  · rintro law l rfl
    by_contra past
    cases checks with
    | true => exact LimitSink.not_law_checked (not_lt.mp past) law
    | false => exact LimitSink.not_law_wrapping (not_lt.mp past) law
  · intro fits
    apply LimitSink.law_of_fits
    intro l some_
    obtain ⟨l, rfl, rfl⟩ := Option.map_eq_some_iff.mp some_
    exact fits l rfl

/-- The first row past the largest offset. -/
theorem limit_law_fails : ¬ LimitSink.Law true (some ⟨1, by decide⟩) ⟨2 ^ 64 - 1, by decide⟩ ∧
    ¬ LimitSink.Law false (some ⟨1, by decide⟩) ⟨2 ^ 64 - 1, by decide⟩ := by
  exact ⟨LimitSink.not_law_checked (by decide), LimitSink.not_law_wrapping (by decide)⟩

end Adelie
