import Adelie.Exec.Limiting
import Adelie.Exec.Sorting

namespace Adelie

/-- What the chain makes of each morsel. -/
def Stream.morsels (s : Stream) : List (Except ExecError (List ColumnBatch)) := (List.range s.reads.length).map s.emits

/-- The rows up to the first morsel that fails. -/
def shown : List (Except ExecError (List ColumnBatch)) → List Row
  | [] => []
  | .ok out :: rest => out.flatMap ColumnBatch.toRows ++ shown rest
  | .error _ :: _ => []

namespace SortedPlan

def keys : SortedPlan → List SortKey
  | .sort keys | .topK keys _ => keys
  | .limit inner _ _ | .project inner _ => inner.keys

/-- Every window ends within a `usize`. -/
def Fits : SortedPlan → Prop
  | .sort _ | .topK _ _ => True
  | .limit inner count offset => inner.Fits ∧ LimitSink.Fits count offset
  | .project inner _ => inner.Fits

/-- What a plan is to make of the rows in order: the morsels of its stream, and their fields. A limit shows its
    window of what it reads, with nothing failing before the window is full. -/
inductive Delivers (K : Kernels) (fields : List Field) (sorted : List Row) :
    SortedPlan → List Field → List (Except ExecError (List ColumnBatch)) → Prop
  | sort {keys : List SortKey} {batches : List ColumnBatch} (whole : batches.flatMap ColumnBatch.toRows = sorted) :
    Delivers K fields sorted (.sort keys) fields (batches.map fun b => .ok [b])
  | topK {keys : List SortKey} {k : Nat} {batches : List ColumnBatch}
      (whole : batches.flatMap ColumnBatch.toRows = sorted.take k) :
    Delivers K fields sorted (.topK keys k) fields (batches.map fun b => .ok [b])
  | limit {inner : SortedPlan} {out : List Field} {morsels : List (Except ExecError (List ColumnBatch))}
      {count : Option Nat} {offset : Nat} {batches : List ColumnBatch} (input : Delivers K fields sorted inner out morsels)
      (enough : (∀ m ∈ morsels, ∃ read, m = .ok read) ∨
        ∃ l, count = some l ∧ (l = 0 ∨ offset + l ≤ (shown morsels).length))
      (whole : batches.flatMap ColumnBatch.toRows = window count offset (shown morsels)) :
    Delivers K fields sorted (.limit inner count offset) out (batches.map fun b => .ok [b])
  | project {inner : SortedPlan} {out named : List Field} {morsels : List (Except ExecError (List ColumnBatch))}
      {exprs : List (String × Expr)} (input : Delivers K fields sorted inner out morsels)
      (names : Project.newFields K out exprs [] = .ok named) :
    Delivers K fields sorted (.project inner exprs) named
      (morsels.map fun m => do return (← (← m).mapM (Project.push K exprs named)).flatten)

end SortedPlan

section Streams

variable {s : Stream} {fields : List Field} {batches : List ColumnBatch}

theorem shown_append (parts : List (List ColumnBatch)) (rest : List (Except ExecError (List ColumnBatch))) :
    shown (parts.map .ok ++ rest) = parts.flatten.flatMap ColumnBatch.toRows ++ shown rest := by
  induction parts with
  | nil => rfl
  | cons part parts ih => simp [shown, ih]

/-- The morsels read so far are the first of what is shown. -/
theorem morsels_split {m : Nat} {parts : List (List ColumnBatch)} (small : m ≤ s.reads.length)
    (mapped : (List.range m).mapM s.emits = .ok parts) :
    s.morsels = parts.map .ok ++ (s.morsels.drop m) := by
  have first : s.morsels.take m = parts.map .ok := by
    rw [← map_eq_map_ok mapped]
    unfold Stream.morsels
    rw [← List.map_take, List.take_range, Nat.min_eq_left small]
  rw [← first, List.take_append_drop]

theorem single_restart (fields : List Field) (batches : List ColumnBatch) : (Stream.restart fields batches).Single := by
  intro r member out same
  obtain ⟨b, _, rfl⟩ := List.mem_map.mp member
  cases same
  exact le_rfl

theorem emits_restart {i : Nat} {b : ColumnBatch} (inside : batches[i]? = some b) :
    (Stream.restart fields batches).emits i = .ok [b] := by
  simp only [Stream.emits, Stream.restart, List.getElem?_map, inside, Option.map_some, Option.getD_some]
  rfl

theorem morsels_restart (fields : List Field) (batches : List ColumnBatch) :
    (Stream.restart fields batches).morsels = batches.map fun b => .ok [b] := by
  apply List.ext_getElem
  · simp [Stream.morsels, Stream.restart]
  · intro i left right
    have inside : i < batches.length := by simpa using right
    simp only [Stream.morsels, List.getElem_map, List.getElem_range]
    exact emits_restart (List.getElem?_eq_getElem inside)

theorem shaped_restart (shapes : ∀ b ∈ batches, b.Shaped fields) (i : Nat) (out : List ColumnBatch)
    (emitted : (Stream.restart fields batches).emits i = .ok out) : ∀ b ∈ out, b.Shaped fields := by
  cases inside : batches[i]? with
  | none =>
    simp only [Stream.emits, Stream.restart, List.getElem?_map, inside, Option.map_none, Option.getD_none] at emitted
    cases emitted
  | some b =>
    rw [emits_restart inside] at emitted
    cases emitted
    intro c member
    rw [List.mem_singleton.mp member]
    exact shapes b (List.mem_of_getElem? inside)

/-- With one batch a morsel, an operator more is that operator on each morsel. -/
theorem emits_pipe (single : s.Single) (push : ColumnBatch → Except ExecError (List ColumnBatch)) (i : Nat) :
    (s.pipe fields push).emits i = (do return (← (← s.emits i).mapM push).flatten) := by
  unfold Stream.emits Stream.pipe
  dsimp only
  cases entry : s.reads[i]? with
  | none => rfl
  | some r =>
    rw [Option.getD_some]
    cases r with
    | error e => rfl
    | ok out =>
      have short := single _ (List.mem_of_getElem? entry) out rfl
      match out with
      | [] => rfl
      | [b] =>
        simp only [bind, Except.bind, List.mapM_cons, List.mapM_nil]
        cases s.through b with
        | error e => rfl
        | ok made =>
          simp only [pure, Except.pure, List.flatten_cons, List.flatten_nil, List.append_nil]
          cases made.mapM push with
          | error e => rfl
          | ok parts => simp
      | _ :: _ :: _ => simp at short

end Streams

namespace SortedPlan

variable {K : Kernels} {ctx : ExecContext} {input : SoundStream} {sorted : List Row}

/-- A stream that shows what its plan is to deliver, when its morsels are read in order. -/
structure Served (K : Kernels) (fields : List Field) (sorted : List Row) (plan : SortedPlan) (s : Stream) : Prop where
  single : s.Single
  shaped : ∀ i out, s.emits i = .ok out → ∀ b ∈ out, b.Shaped s.fields
  delivers : Delivers K fields sorted plan s.fields s.morsels

theorem served_restart {fields out : List Field} {plan : SortedPlan} {batches : List ColumnBatch}
    (shapes : ∀ b ∈ batches, b.Shaped out)
    (delivers : Delivers K fields sorted plan out (batches.map fun b => .ok [b])) :
    Served K fields sorted plan (.restart out batches) where
  single := single_restart out batches
  shaped := shaped_restart shapes
  delivers := by
    rw [morsels_restart]
    exact delivers

/-- Rows of the input, whatever worker took them. -/
theorem rows_perm {s : Stream} {log : List (List Nat)} {parts : List (List ColumnBatch)}
    (perm : log.flatten.Perm (List.range s.reads.length)) (mapped : log.flatten.mapM s.emits = .ok parts) :
    (parts.flatten.flatMap ColumnBatch.toRows).Perm s.rows := by
  rw [rows_of_emits mapped]
  exact perm.flatMap_right _

theorem emitted_sound {items : List Nat} {parts : List (List ColumnBatch)}
    (mapped : items.mapM input.stream.emits = .ok parts) :
    ∀ b ∈ parts.flatten, b.fields = input.stream.fields ∧ b.Sound := by
  intro b member
  obtain ⟨part, inside, member⟩ := List.mem_flatten.mp member
  obtain ⟨i, _, emitted⟩ := List.Forall₂.source (forall₂_of_mapM_except mapped) inside
  exact input.sound i part emitted b member

/-- The sort itself, over any order of the input. -/
theorem sort_served {keys : List SortKey} {log : List (List Nat)} {held batches : List ColumnBatch}
    (inside : ∀ key ∈ keys, key.column < input.stream.fields.length) (few : input.stream.rows.length < 2 ^ 32)
    (ran : Ran ctx input.stream SortSink.sink log (.ok held))
    (made : SortSink.finish input.stream.fields keys held = .ok batches) :
    ∃ sorted : List Row, sorted.Perm input.stream.rows ∧ sorted.Pairwise (KeyLe keys) ∧
      Served K input.stream.fields sorted (.sort keys) (.restart input.stream.fields batches) := by
  obtain ⟨perm, parts, mapped, rfl⟩ := Ran.buffered ran
  have rows := rows_perm perm mapped
  obtain ⟨shapes, same⟩ := SortSink.finish_ok (emitted_sound mapped) (by rw [rows.length_eq]; exact few) made
  have typed : ∀ r ∈ parts.flatten.flatMap ColumnBatch.toRows, Typed input.stream.fields r := by
    intro r member
    exact input.typed_rows r (rows.mem_iff.mp member)
  obtain ⟨perm', ordered⟩ := sorted_rows inside typed
  exact ⟨_, perm'.trans rows, ordered, served_restart shapes (.sort same)⟩

theorem topK_served {keys : List SortKey} {k : Nat} {log : List (List Nat)} {held : List ColumnBatch}
    (inside : ∀ key ∈ keys, key.column < input.stream.fields.length) (few : input.stream.rows.length < 2 ^ 32)
    (ran : Ran ctx input.stream (TopKSink.sink input.stream.fields keys k) log (.ok held)) :
    ∃ sorted : List Row, sorted.Perm input.stream.rows ∧ sorted.Pairwise (KeyLe keys) ∧
      Served K input.stream.fields sorted (.topK keys k) (.restart input.stream.fields held) := by
  classical
  have := rowLe_total inside
  have := rowLe_trans inside
  by_cases zero : k = 0
  · -- nothing is ever held, whatever was read
    subst zero
    obtain ⟨m, _, _, _, first, rest, merged, each⟩ := ran.ok
    have folded : ∀ (out : List ColumnBatch) (start : List ColumnBatch),
        out.foldlM (fun held b => TopKSink.foldIn input.stream.fields keys 0 held [b]) start = .ok start := by
      intro out
      induction out with
      | nil => intro start; rfl
      | cons b rest ih => intro start; exact ih start
    have joined : ∀ (rest : List (List ColumnBatch)) (start : List ColumnBatch),
        rest.foldlM (TopKSink.foldIn input.stream.fields keys 0) start = .ok start := by
      intro rest
      induction rest with
      | nil => intro start; rfl
      | cons other rest ih => intro start; exact ih start
    cases each with
    | cons head tail =>
      obtain ⟨done, fed, _⟩ := head
      obtain ⟨out, pushed, _⟩ := Fed.ok fed
      cases (folded out []).symm.trans pushed
      cases (joined rest []).symm.trans merged
      obtain ⟨perm, ordered⟩ := sorted_rows inside input.typed_rows
      exact ⟨_, perm, ordered, served_restart (by simp) (.topK (by simp))⟩
  · obtain ⟨m, _, perm, parts, mapped, tops, why⟩ := ran.holds
      (fun held out => (out.flatMap ColumnBatch.toRows).length < 2 ^ 32 →
        TopKSink.Tops input.stream.fields keys k held (out.flatMap ColumnBatch.toRows))
      (fun b => b.fields = input.stream.fields ∧ b.Sound)
      (fun _ => TopKSink.tops_empty)
      (fun held out b held' tops fine pushed few => by
        rw [List.flatMap_append, List.flatMap_singleton] at few ⊢
        have sound : ∀ c ∈ [b], c.fields = input.stream.fields ∧ c.Sound := by simpa using fine
        apply TopKSink.foldIn_tops inside (tops (by rw [List.length_append] at few; omega)) sound _ few pushed
        rw [List.flatMap_singleton]
        exact TopOf.whole _)
      (fun held out other out' held' tops tops' merged few => by
        rw [List.flatMap_append] at few ⊢
        have short := few
        rw [List.length_append] at short
        exact TopKSink.foldIn_tops inside (tops (by omega)) (tops' (by omega)).sound (tops' (by omega)).tops few merged)
      input.sound (Or.inr fun _ => by simp [TopKSink.sink, zero])
    have whole : m = input.stream.reads.length := by
      rcases why with whole | ⟨_, _, _, _, done, _⟩
      · exact whole
      · simp [TopKSink.sink, zero] at done
    rw [whole] at perm
    have rows := rows_perm perm mapped
    have tops := tops (by rw [rows.length_eq]; exact few)
    obtain ⟨sorted, perm', ordered, taken⟩ := tops.tops.exists_sorted tops.sorted tops.short
    have perm := perm'.trans rows
    refine ⟨sorted, perm, ?_, served_restart ?_ (.topK taken.symm)⟩
    · exact pairwise_of_within (fun r member => input.typed_rows r (perm.mem_iff.mp member)) ordered
    · intro b member
      obtain ⟨named, sound⟩ := tops.sound b member
      exact sound.shaped named

/-- A limit whose workers' morsels are merged in order shows its window. -/
theorem limit_served {fields : List Field} {plan : SortedPlan} {s : Stream} {count : Option Nat} {offset : Nat}
    {log : List (List Nat)} {held : LimitSink} {batches : List ColumnBatch} (served : Served K fields sorted plan s)
    (fits : LimitSink.Fits count offset) (ran : Ran ctx s (LimitSink.sink count offset) log (.ok held))
    (ordered : log.flatten.Pairwise (· < ·)) (made : LimitSink.finish offset s.fields held = .ok batches) :
    Served K fields sorted (.limit plan count offset) (.restart s.fields batches) := by
  obtain ⟨m, small, perm, parts, mapped, keeps, why⟩ := ran.holds
    (fun held out => LimitSink.Keeps s.fields count offset held (out.flatMap ColumnBatch.toRows))
    (fun b => b.Shaped s.fields) LimitSink.keeps_empty
    (fun held out b held' keeps fine pushed => by
      rw [List.flatMap_append, List.flatMap_singleton]
      exact LimitSink.push_ok fine keeps pushed)
    (fun held out other out' held' keeps keeps' merged => by
      rw [List.flatMap_append]
      exact LimitSink.merge_ok keeps keeps' merged)
    served.shaped (Or.inl served.single)
  rw [flatten_eq_range perm ordered] at mapped
  have split := morsels_split small mapped
  have rows : shown s.morsels = parts.flatten.flatMap ColumnBatch.toRows ++ shown (s.morsels.drop m) := by
    conv_lhs => rw [split]
    exact shown_append _ _
  rcases why with whole | ⟨part, out, more, keeps', done, parted⟩
  · have rest : s.morsels.drop m = [] := by
      rw [whole]
      simp [Stream.morsels]
    rw [rest] at rows split
    simp only [shown, List.append_nil] at rows split
    rw [← rows] at keeps
    obtain ⟨shapes, same⟩ := LimitSink.finish_ok fits keeps made
    refine served_restart shapes (.limit served.delivers (Or.inl ?_) same)
    intro r member
    rw [split] at member
    obtain ⟨read, _, rfl⟩ := List.mem_map.mp member
    exact ⟨read, rfl⟩
  · rw [parted, List.flatMap_append, List.append_assoc] at rows
    have full := LimitSink.keep_of_done keeps' done
    have kept : LimitSink.Keeps s.fields count offset held (shown s.morsels) := by
      refine ⟨keeps.shaped, ?_, ?_⟩
      · rw [keeps.kept, parted, List.flatMap_append, rows, full, full]
      · rw [keeps.count, parted, List.flatMap_append, rows, full, full]
    obtain ⟨shapes, same⟩ := LimitSink.finish_ok fits kept made
    refine served_restart shapes (.limit served.delivers (Or.inr ?_) same)
    simp only [LimitSink.sink, Bool.or_eq_true, decide_eq_true_eq] at done
    rcases done with zero | most
    · exact ⟨0, zero, Or.inl rfl⟩
    · cases count with
      | none => cases most
      | some l =>
        refine ⟨l, rfl, ?_⟩
        by_cases zero : l = 0
        · exact Or.inl zero
        · right
          have bound : LimitSink.bound (some l) offset = some (offset + l) := by
            simp only [LimitSink.bound, Option.map_some, Nat.mod_eq_of_lt (fits l rfl)]
          rw [bound] at most
          simp only [Option.any_some, decide_eq_true_eq] at most
          have held := keeps'.count
          rw [LimitSink.keep_most (by simpa using zero) bound, List.length_take] at held
          rw [rows, List.length_append]
          omega

theorem project_served {fields named : List Field} {plan : SortedPlan} {s : Stream} {exprs : List (String × Expr)}
    (served : Served K fields sorted plan s) (names : Project.newFields K s.fields exprs [] = .ok named) :
    Served K fields sorted (.project plan exprs) (s.pipe named (Project.push K exprs named)) where
  single := served.single
  shaped := by
    intro i out emitted b member
    rw [emits_pipe served.single] at emitted
    obtain ⟨before, _, emitted⟩ := Except.bind_eq_ok.mp emitted
    obtain ⟨parts, pushed, emitted⟩ := Except.bind_eq_ok.mp emitted
    cases emitted
    obtain ⟨part, inside, member⟩ := List.mem_flatten.mp member
    obtain ⟨source, _, made⟩ := List.Forall₂.source (forall₂_of_mapM_except pushed) inside
    unfold Project.push at made
    obtain ⟨columns, _, made⟩ := Except.bind_eq_ok.mp made
    obtain ⟨projected, new, made⟩ := Except.bind_eq_ok.mp made
    cases made
    rw [List.mem_singleton.mp member]
    have built : ColumnBatch.new named columns = .ok projected := by
      cases checked : ColumnBatch.new named columns with
      | error e =>
        rw [checked] at new
        cases new
      | ok b =>
        rw [checked] at new
        cases new
        rfl
    obtain ⟨rfl, typed, even, _⟩ := ColumnBatch.new_eq_ok.mp built
    exact ⟨rfl, typed, even⟩
  delivers := by
    have same : (s.pipe named (Project.push K exprs named)).morsels =
        s.morsels.map fun m => do return (← (← m).mapM (Project.push K exprs named)).flatten := by
      unfold Stream.morsels
      rw [List.map_map]
      apply List.map_congr_left
      intro i _
      exact emits_pipe served.single _ i
    rw [same]
    exact .project served.delivers names

/-- Of the runs behind a stream the first is the sort's own; when the later ones merge in order, the stream shows
    the sorted rows. -/
theorem stream_served (plan : SortedPlan) {logs : List (List (List Nat))} {s : Stream}
    (few : input.stream.rows.length < 2 ^ 32) (fits : plan.Fits)
    (ran : plan.stream K ctx input.stream logs (.ok s)) (ordered : ∀ log ∈ logs.tail, log.flatten.Pairwise (· < ·)) :
    logs ≠ [] ∧ ∃ sorted : List Row, sorted.Perm input.stream.rows ∧ sorted.Pairwise (KeyLe plan.keys) ∧
      Served K input.stream.fields sorted plan s := by
  induction plan generalizing logs s with
  | sort keys =>
    obtain ⟨_, _, _, checked, sorts, rfl⟩ := Scheduled.bind_ok.mp ran
    obtain ⟨held, _, _, ⟨log, rfl, sorting⟩, finishes, rfl⟩ := Scheduled.bind_ok.mp sorts
    obtain ⟨batches, _, _, finished, restarts, rfl⟩ := Scheduled.bind_ok.mp finishes
    obtain ⟨rfl, rfl⟩ := Scheduled.pure_ok.mp restarts
    obtain ⟨rfl, keyed⟩ := Scheduled.lift_ok.mp checked
    obtain ⟨rfl, made⟩ := Scheduled.checked_ok.mp finished
    exact ⟨by simp, sort_served (checkSortKeys_ok keyed) few sorting made⟩
  | topK keys k =>
    obtain ⟨_, _, _, checked, sorts, rfl⟩ := Scheduled.bind_ok.mp ran
    obtain ⟨held, _, _, ⟨log, rfl, sorting⟩, restarts, rfl⟩ := Scheduled.bind_ok.mp sorts
    obtain ⟨rfl, rfl⟩ := Scheduled.pure_ok.mp restarts
    obtain ⟨rfl, keyed⟩ := Scheduled.lift_ok.mp checked
    exact ⟨by simp, topK_served (checkSortKeys_ok keyed) few sorting⟩
  | limit inner count offset ih =>
    obtain ⟨inside, before, _, streamed, limits, rfl⟩ := Scheduled.bind_ok.mp ran
    obtain ⟨held, _, _, ⟨log, rfl, limiting⟩, finishes, rfl⟩ := Scheduled.bind_ok.mp limits
    obtain ⟨batches, _, _, finished, restarts, rfl⟩ := Scheduled.bind_ok.mp finishes
    obtain ⟨rfl, rfl⟩ := Scheduled.pure_ok.mp restarts
    obtain ⟨rfl, made⟩ := Scheduled.checked_ok.mp finished
    simp only [List.append_nil] at ordered ⊢
    refine ⟨by simp, ?_⟩
    cases before with
    | nil => exact absurd rfl (ih fits.1 streamed (by simp)).1
    | cons first rest =>
      rw [List.cons_append, List.tail_cons] at ordered
      obtain ⟨_, sorted, perm, pairwise, served⟩ :=
        ih fits.1 streamed fun log member => ordered log (List.mem_append_left _ member)
      exact ⟨sorted, perm, pairwise, limit_served served fits.2 limiting (ordered log (by simp)) made⟩
  | project inner exprs ih =>
    obtain ⟨inside, before, _, streamed, projects, rfl⟩ := Scheduled.bind_ok.mp ran
    obtain ⟨named, _, _, names, pipes, rfl⟩ := Scheduled.bind_ok.mp projects
    obtain ⟨rfl, rfl⟩ := Scheduled.pure_ok.mp pipes
    obtain ⟨rfl, made⟩ := Scheduled.lift_ok.mp names
    simp only [List.append_nil] at ordered ⊢
    obtain ⟨some, sorted, perm, pairwise, served⟩ := ih fits streamed ordered
    exact ⟨some, sorted, perm, pairwise, project_served served made⟩

/-- The returned rows are the input's in the order of the keys, cut and projected as the plan says. -/
def Sorts (K : Kernels) (input : Stream) (plan : SortedPlan) (batches : List ColumnBatch) : Prop :=
  ∃ (sorted : List Row) (fields : List Field) (parts : List (List ColumnBatch)),
    sorted.Perm input.rows ∧ sorted.Pairwise (KeyLe plan.keys) ∧
    Delivers K input.fields sorted plan fields (parts.map .ok) ∧
    batches.flatMap ColumnBatch.toRows = parts.flatten.flatMap ColumnBatch.toRows

/-- In every run whose pipelines after the sort merge their morsels in order, whatever the workers did before it. -/
theorem execute_sorted (plan : SortedPlan) {logs : List (List (List Nat))} {batches : List ColumnBatch}
    (few : input.stream.rows.length < 2 ^ 32) (fits : plan.Fits)
    (ran : plan.execute K ctx input.stream logs (.ok batches))
    (ordered : ∀ log ∈ logs.tail, log.flatten.Pairwise (· < ·)) : Sorts K input.stream plan batches := by
  obtain ⟨s, before, _, streamed, drains, rfl⟩ := Scheduled.bind_ok.mp ran
  obtain ⟨held, _, _, ⟨log, rfl, drained⟩, finishes, rfl⟩ := Scheduled.bind_ok.mp drains
  obtain ⟨rfl, finished⟩ := Scheduled.checked_ok.mp finishes
  simp only [List.append_nil] at ordered
  cases before with
  | nil => exact absurd rfl (stream_served plan few fits streamed (by simp)).1
  | cons first rest =>
    rw [List.cons_append, List.tail_cons] at ordered
    obtain ⟨_, sorted, perm, pairwise, served⟩ :=
      stream_served plan few fits streamed fun log member => ordered log (List.mem_append_left _ member)
    obtain ⟨perm', parts, mapped, rfl⟩ := Ran.buffered drained
    rw [flatten_eq_range perm' (ordered log (by simp))] at mapped
    have whole : s.morsels = parts.map .ok := map_eq_map_ok mapped
    refine ⟨sorted, s.fields, parts, perm, pairwise, by rw [← whole]; exact served.delivers, ?_⟩
    have shapes : ∀ b ∈ parts.flatten, b.Shaped s.fields := by
      intro b member
      obtain ⟨part, inside, member⟩ := List.mem_flatten.mp member
      obtain ⟨i, _, emitted⟩ := List.Forall₂.source (forall₂_of_mapM_except mapped) inside
      exact served.shaped i part emitted b member
    exact (rechunk_ok shapes finished).2

end SortedPlan

end Adelie
