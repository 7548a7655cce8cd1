import Adelie.Exec.Sorted

namespace Adelie

section Assigned

variable {ctx : ExecContext} {fields : List Field} {batches : List ColumnBatch}

/-- The batches at some numbers. -/
def batchesAt (batches : List ColumnBatch) (items : List Nat) : List ColumnBatch := items.filterMap (batches[·]?)

theorem fed_restart {items : List Nat} (inside : ∀ i ∈ items, i < batches.length) :
    (pipeline ctx (.restart fields batches) bufferSink).Fed items (batchesAt batches items) false := by
  induction items using List.reverseRecOn with
  | nil => exact .fresh rfl
  | append_singleton items i ih =>
    obtain ⟨b, here⟩ : ∃ b, batches[i]? = some b := ⟨_, List.getElem?_eq_getElem (inside i (by simp))⟩
    refine .more (ih fun j member => inside j (List.mem_append_left _ member)) ?_
    have read : (pipeline ctx (.restart fields batches) bufferSink).read i = .ok [b] := by
      simp [pipeline, Stream.restart, here]
    have last : batchesAt batches (items ++ [i]) = batchesAt batches items ++ [b] := by
      simp [batchesAt, List.filterMap_append, here]
    unfold Pool.feed
    rw [read, last]
    rfl

/-- Whatever worker takes each batch, the batches can be merged in the order of the workers. -/
theorem ran_of_assignment (assign : Nat → Fin (workers ctx (.restart fields batches))) :
    Ran ctx (.restart fields batches) bufferSink (List.ofFn (Pool.share assign batches.length))
      (.ok (batchesAt batches (List.ofFn (Pool.share assign batches.length)).flatten)) := by
  have fed : ∀ w, (pipeline ctx (.restart fields batches) bufferSink).Fed (Pool.share assign batches.length w)
      (batchesAt batches (Pool.share assign batches.length w)) false := by
    intro w
    apply fed_restart
    intro i member
    exact List.mem_range.mp (List.mem_filter.mp member).1
  have total : (pipeline ctx (.restart fields batches) bufferSink).total = batches.length := by
    simp [pipeline, Stream.restart]
  have ends : (pipeline ctx (.restart fields batches) bufferSink).Ends (workers ctx (.restart fields batches))
      (List.ofFn (Pool.share assign batches.length))
      (.ok (List.ofFn fun w => batchesAt batches (Pool.share assign batches.length w))) := by
    rw [← total] at fed ⊢
    exact Pool.Ends.of_assignment fed
  have merged : ∀ (rest : List (List ColumnBatch)) (first : List ColumnBatch),
      rest.foldlM bufferSink.merge first = .ok (first :: rest).flatten := by
    intro rest
    induction rest with
    | nil => intro first; simp; rfl
    | cons other rest ih =>
      intro first
      rw [List.foldlM_cons, bufferSink_merge]
      exact (ih (first ++ other)).trans (by simp)
  cases split : List.ofFn fun w => batchesAt batches (Pool.share assign batches.length w) with
  | nil =>
    have none := congrArg List.length split
    rw [List.length_ofFn, List.length_nil] at none
    unfold workers at none
    omega
  | cons first rest =>
    rw [split] at ends
    have whole : batchesAt batches (List.ofFn (Pool.share assign batches.length)).flatten = (first :: rest).flatten := by
      rw [← split, batchesAt, List.filterMap_flatten, List.map_ofFn]
      rfl
    rw [whole, ← merged]
    exact .merged ends

/-- So a drain can return them in that order. -/
theorem materialize_of_assignment (assign : Nat → Fin (workers ctx (.restart fields batches)))
    {out : List ColumnBatch}
    (made : rechunk fields (batchesAt batches (List.ofFn (Pool.share assign batches.length)).flatten) = .ok out) :
    materialize ctx (.restart fields batches) [List.ofFn (Pool.share assign batches.length)] (.ok out) :=
  Scheduled.bind_ok.mpr ⟨_, _, [], ⟨_, rfl, ran_of_assignment assign⟩, Scheduled.checked_ok.mpr ⟨rfl, made⟩, by simp⟩

/-- Sorted batches come back in the order of any assignment of them to the workers, whatever the input's was. -/
theorem execute_of_assignment {K : Kernels} {keys : List SortKey} {sorted out : List ColumnBatch}
    (keyed : checkSortKeys keys fields = .ok ()) (first : Nat → Fin (workers ctx (.restart fields batches)))
    (second : Nat → Fin (workers ctx (.restart fields sorted)))
    (made : SortSink.finish fields keys (batchesAt batches (List.ofFn (Pool.share first batches.length)).flatten) =
      .ok sorted)
    (cut : rechunk fields (batchesAt sorted (List.ofFn (Pool.share second sorted.length)).flatten) = .ok out) :
    (SortedPlan.sort keys).execute K ctx (.restart fields batches)
      [List.ofFn (Pool.share first batches.length), List.ofFn (Pool.share second sorted.length)] (.ok out) := by
  have streamed : (SortedPlan.sort keys).stream K ctx (.restart fields batches)
      [List.ofFn (Pool.share first batches.length)] (.ok (.restart fields sorted)) := by
    refine Scheduled.bind_ok.mpr ⟨(), [], _, Scheduled.lift_ok.mpr ⟨rfl, keyed⟩, ?_, rfl⟩
    refine Scheduled.bind_ok.mpr ⟨_, _, [], ⟨_, rfl, ran_of_assignment first⟩, ?_, by simp⟩
    refine Scheduled.bind_ok.mpr ⟨sorted, [], [], Scheduled.checked_ok.mpr ⟨rfl, made⟩, ?_, rfl⟩
    exact Scheduled.pure_ok.mpr ⟨rfl, rfl⟩
  exact Scheduled.bind_ok.mpr ⟨_, _, _, streamed, materialize_of_assignment second cut, rfl⟩

end Assigned

section Flags

/-- One BOOL column. -/
def boolBatch (flags : List Bool) : ColumnBatch := ⟨[flagField "v"], [⟨.bool, flags.map .bool⟩]⟩

theorem boolBatch_fits (flags : List Bool) : FitsOffsets (flags.map Value.bool) := by
  have data : dataLen (flags.map Value.bool) = 0 := by
    induction flags with
    | nil => rfl
    | cons f rest ih => simp [rowBytes, ih]
  have children : childLen (flags.map Value.bool) = 0 := by
    induction flags with
    | nil => rfl
    | cons f rest ih => simp_all [rowBytes, elements]
  have none : (flags.map Value.bool).flatMap elements = [] := by
    rw [List.flatMap_eq_nil_iff]
    intro v member
    obtain ⟨f, _, rfl⟩ := List.mem_map.mp member
    rfl
  exact ⟨by rw [data]; decide, by rw [children]; decide, by rw [none]; decide⟩

theorem boolBatch_rows (flags : List Bool) : (boolBatch flags).rows = flags.length := by
  simp [boolBatch, ColumnBatch.rows]

theorem boolBatch_toRows (flags : List Bool) : (boolBatch flags).toRows = flags.map fun f => [.bool f] := by
  apply List.ext_getElem
  · simp [ColumnBatch.toRows, boolBatch_rows]
  · intro i left right
    have inside : i < flags.length := by simpa using right
    simp [ColumnBatch.toRows, ColumnBatch.row, boolBatch, inside]

theorem boolBatch_new (flags : List Bool) :
    ColumnBatch.new [flagField "v"] [⟨.bool, flags.map .bool⟩] = .ok (boolBatch flags) :=
  ColumnBatch.new_eq_ok.mpr ⟨rfl, by simp [flagField], by simp [ColumnBatch.rows], by simp⟩

theorem boolBatch_sound (flags : List Bool) : (boolBatch flags).Sound where
  typed := by simp [boolBatch, flagField]
  even := by simp [boolBatch, ColumnBatch.rows]
  distinct := by simp [boolBatch]
  columns := by
    intro c member
    rw [boolBatch, List.mem_singleton] at member
    subst member
    refine ⟨?_, boolBatch_fits flags⟩
    intro v member
    obtain ⟨f, _, rfl⟩ := List.mem_map.mp member
    exact True.intro

theorem runningTotal_zero {size : Column → Nat} {cols : List Column} (none : ∀ c ∈ cols, size c = 0) :
    runningTotal size cols = .ok 0 := by
  unfold runningTotal
  induction cols with
  | nil => rfl
  | cons c rest ih =>
    rw [List.forall_mem_cons] at none
    rw [List.foldlM_cons, none.1]
    exact ih none.2

theorem concat_flags (parts : List (List Bool)) :
    concatBatches [flagField "v"] (parts.map boolBatch) = .ok (boolBatch parts.flatten) := by
  have columns : (parts.map boolBatch).mapM (·.column 0) =
      .ok (parts.map fun part => (⟨.bool, part.map .bool⟩ : Column)) := by
    apply mapM_except_of_forall₂
    rw [List.forall₂_map_left_iff, List.forall₂_map_right_iff, List.forall₂_same]
    intro part _
    rfl
  have empty : ∀ part : List Bool, dataLen (part.map Value.bool) = 0 ∧ childLen (part.map Value.bool) = 0 ∧
      dataLen ((part.map Value.bool).flatMap elements) = 0 := by
    intro part
    induction part with
    | nil => exact ⟨rfl, rfl, rfl⟩
    | cons f rest ih => simp_all [rowBytes, elements]
  have each : ∀ c ∈ parts.map fun part => (⟨.bool, part.map .bool⟩ : Column), dataLen c.cells = 0 ∧
      childLen c.cells = 0 ∧ dataLen (c.cells.flatMap elements) = 0 := by
    intro c member
    obtain ⟨part, _, rfl⟩ := List.mem_map.mp member
    exact empty part
  have joined : Column.concat .bool (parts.map fun part => (⟨.bool, part.map .bool⟩ : Column)) =
      .ok ⟨.bool, parts.flatten.map .bool⟩ := by
    unfold Column.concat
    rw [runningTotal_zero fun c member => (each c member).1, runningTotal_zero fun c member => (each c member).2.1,
      runningTotal_zero fun c member => (each c member).2.2]
    simp only [bind, Except.bind, pure, Except.pure, List.map_flatten, List.flatMap_def, List.map_map]
    rfl
  have field : concatField (parts.map boolBatch) (flagField "v", 0) = .ok ⟨.bool, parts.flatten.map .bool⟩ := by
    unfold concatField
    rw [columns]
    exact joined
  unfold concatBatches
  rw [show [flagField "v"].zipIdx = [(flagField "v", 0)] from rfl, List.mapM_cons, field]
  simp only [bind, Except.bind, List.mapM_nil, pure, Except.pure, boolBatch_new]
  rfl

theorem slice_flags {flags : List Bool} {start len : Nat} (inside : start + len ≤ flags.length) :
    sliceBatch (boolBatch flags) start len = .ok (boolBatch ((flags.drop start).take len)) := by
  have column : Column.slice ⟨.bool, flags.map .bool⟩ start len =
      .ok ⟨.bool, ((flags.drop start).take len).map .bool⟩ := by
    simp only [Column.slice, List.length_map, inside, decide_true, ensure, if_true, List.map_take, List.map_drop]
    rfl
  unfold sliceBatch
  rw [show (boolBatch flags).columns = [⟨.bool, flags.map .bool⟩] from rfl, List.mapM_cons, column]
  simp only [bind, Except.bind, List.mapM_nil, pure, Except.pure, ColumnBatch.remade, boolBatch, boolBatch_new]
  rfl

/-- Flags cut again are flags, and no step of it fails. -/
theorem rechunk_flags (parts : List (List Bool)) :
    rechunk [flagField "v"] (parts.map boolBatch) =
      .ok ((pieces parts.flatten.length).map fun p => boolBatch ((parts.flatten.drop p.1).take p.2)) := by
  have total : ((parts.map boolBatch).map ColumnBatch.rows).sum = parts.flatten.length := by
    rw [List.map_map, List.length_flatten]
    congr 1
    exact List.map_congr_left fun part _ => boolBatch_rows part
  unfold rechunk
  dsimp only
  rw [total, concat_flags]
  split
  · rename_i none
    rw [none]
    rfl
  · apply mapM_except_of_forall₂
    rw [List.forall₂_map_right_iff, List.forall₂_same]
    intro p member
    exact slice_flags (mem_pieces member).1

/-- Flags already in order are sorted as they stand. -/
theorem sort_flags {flags : List Bool} (sorted : flags.Pairwise (· ≤ ·))
    (few : flags.length < 2 ^ 32) :
    SortSink.finish [flagField "v"] [.asc 0] [boolBatch flags] =
      .ok ((pieces flags.length).map fun p => boolBatch ((flags.drop p.1).take p.2)) := by
  have concat := concat_flags [flags]
  rw [List.map_singleton, List.flatten_singleton] at concat
  have row : ∀ i (inside : i < flags.length), rowCell ((boolBatch flags).row i) 0 = .bool flags[i] := by
    intro i inside
    simp [rowCell, ColumnBatch.row, boolBatch, inside]
  have order : sortIndices (boolBatch flags) [.asc 0] = .ok (List.range flags.length) := by
    have ordered : (List.range flags.length).Pairwise fun i j =>
        compareKeys [.asc 0] ((boolBatch flags).row i) ((boolBatch flags).row j) ≠ .gt := by
      rw [List.pairwise_iff_getElem]
      intro i j left right less
      simp only [List.length_range] at left right
      have le : flags[i] ≤ flags[j] := List.pairwise_iff_getElem.mp sorted i j left right less
      simp only [List.getElem_range, compareKeys, SortKey.asc, row i left, row j right]
      cases first : flags[i] <;> cases second : flags[j] <;> first
        | decide
        | (rw [first, second] at le; exact absurd le (by decide))
    simp only [sortIndices, boolBatch, List.length_map, (asU32_eq_iff _).mpr few]
    rw [← boolBatch, ordered.insertionSort_eq]
  have taken : takeBatch (boolBatch flags) (List.range flags.length) = .ok (boolBatch flags) := by
    have column : takeRows ⟨.bool, flags.map .bool⟩ (List.range flags.length) = .ok ⟨.bool, flags.map .bool⟩ := by
      rw [takeRows, takeOpt_eq]
      · rw [List.map_map]
        have picks : (List.range flags.length).map ((fun o : Option Nat =>
            (o.bind fun i => (flags.map Value.bool)[i]?).getD .null) ∘ Option.some) = flags.map .bool := by
          apply List.ext_getElem
          · simp
          · intro i left right
            have inside : i < flags.length := by simpa using right
            simp [inside]
        exact congrArg (rebuild .bool) picks
      · intro i member
        simpa using member
    unfold takeBatch
    rw [show (boolBatch flags).columns = [⟨.bool, flags.map .bool⟩] from rfl, List.mapM_cons, column]
    simp only [bind, Except.bind, List.mapM_nil, pure, Except.pure, ColumnBatch.remade, boolBatch, boolBatch_new]
    rfl
  have cut := rechunk_flags [flags]
  rw [List.map_singleton, List.flatten_singleton] at cut
  unfold SortSink.finish
  simp only [List.isEmpty_cons, Bool.false_eq_true, if_false, bind, Except.bind, concat, order, taken, cut]

end Flags

namespace SortedPlan

def twoThreads : ExecContext := ⟨2, fun _ => False⟩

/-- A table of one batch of flags. -/
def flagStream (flags : List Bool) : SoundStream where
  stream := .restart [flagField "v"] [boolBatch flags]
  sound := by
    intro i out emitted b member
    cases inside : [boolBatch flags][i]? with
    | none =>
      simp only [Stream.emits, Stream.restart, List.getElem?_map, inside, Option.map_none, Option.getD_none] at emitted
      cases emitted
    | some b' =>
      rw [emits_restart inside] at emitted
      cases emitted
      rw [List.mem_singleton.mp member, List.mem_singleton.mp (List.mem_of_getElem? inside)]
      exact ⟨rfl, boolBatch_sound flags⟩

/-- One worker takes the only batch. -/
theorem share_one (n : Nat) (one : n = 1) (w : Fin n) : List.ofFn (Pool.share (fun _ => w) 1) = [[0]] := by
  subst one
  have only : w = 0 := Subsingleton.elim _ _
  subst only
  rfl

/-- The first worker takes the second batch, the second worker the first. -/
theorem share_crossed (n : Nat) (two : n = 2) (w v : Fin n) (low : w.val = 0) (high : v.val = 1) :
    List.ofFn (Pool.share (fun i => if i = 0 then v else w) 2) = [[1], [0]] := by
  subst two
  have first : w = 0 := Fin.ext low
  have second : v = 1 := Fin.ext high
  subst first second
  rfl

theorem execute_sorted_flags :
    ∃ logs batches, (SortedPlan.sort [.asc 0]).execute noKernels twoThreads (flagStream [false, true]).stream logs
        (.ok batches) ∧ Sorts noKernels (flagStream [false, true]).stream (.sort [.asc 0]) batches := by
  have few : pieces 2 = [(0, 2)] := by decide
  have sorted : SortSink.finish [flagField "v"] [.asc 0] [boolBatch [false, true]] = .ok [boolBatch [false, true]] := by
    rw [sort_flags (by decide) (by decide)]
    rw [show [false, true].length = 2 from rfl, few]
    rfl
  have cut : rechunk [flagField "v"] [boolBatch [false, true]] = .ok [boolBatch [false, true]] := by
    have := rechunk_flags [[false, true]]
    rw [show [[false, true]].flatten.length = 2 from rfl, few] at this
    exact this
  let w : Fin (workers twoThreads (.restart [flagField "v"] [boolBatch [false, true]])) := ⟨0, by decide⟩
  have shares : List.ofFn (Pool.share (fun _ => w) 1) = [[0]] := share_one _ rfl w
  have ran : (SortedPlan.sort [.asc 0]).execute noKernels twoThreads (flagStream [false, true]).stream
      [List.ofFn (Pool.share (fun _ => w) 1), List.ofFn (Pool.share (fun _ => w) 1)] (.ok [boolBatch [false, true]]) := by
    apply execute_of_assignment rfl (fun _ => w) (fun _ => w)
    · rw [List.length_singleton, shares]
      exact sorted
    · rw [List.length_singleton, shares]
      exact cut
  refine ⟨_, _, ran, execute_sorted (.sort [.asc 0]) (by decide) True.intro ran ?_⟩
  rw [shares]
  decide

/-- One row more than a morsel holds, already in order. -/
def manyFlags : List Bool := List.replicate batchRows false ++ [true]

theorem manyFlags_sorted : manyFlags.Pairwise (· ≤ ·) := by
  unfold manyFlags
  rw [List.pairwise_append]
  refine ⟨List.pairwise_replicate.mpr (Or.inr le_rfl), List.pairwise_singleton _ _, ?_⟩
  intro a _ b member
  rw [List.mem_singleton.mp member]
  exact Bool.le_true a

theorem sort_manyFlags : SortSink.finish [flagField "v"] [.asc 0] [boolBatch manyFlags] =
    .ok [boolBatch (List.replicate batchRows false), boolBatch [true]] := by
  have length : manyFlags.length = batchRows + 1 := by simp [manyFlags]
  have cuts : pieces (batchRows + 1) = [(0, batchRows), (batchRows, 1)] := by decide
  rw [sort_flags manyFlags_sorted (by rw [length]; decide), length, cuts]
  simp [manyFlags]

/-- The second worker takes the first morsel and the first worker the second, so the last row comes first. -/
theorem manyFlags_crossed :
    ∃ logs batches, (SortedPlan.sort [.asc 0]).execute noKernels twoThreads (flagStream manyFlags).stream logs
        (.ok batches) ∧
      batches.flatMap ColumnBatch.toRows = [.bool true] :: List.replicate batchRows [.bool false] := by
  obtain ⟨out, cut⟩ : ∃ out, rechunk [flagField "v"] ([[true], List.replicate batchRows false].map boolBatch) = .ok out :=
    ⟨_, rechunk_flags _⟩
  have shapes : ∀ b ∈ [[true], List.replicate batchRows false].map boolBatch, b.Shaped [flagField "v"] := by
    intro b member
    obtain ⟨part, _, rfl⟩ := List.mem_map.mp member
    exact (boolBatch_sound part).shaped rfl
  let w : Fin (workers twoThreads (.restart [flagField "v"] [boolBatch manyFlags])) := ⟨0, by decide⟩
  have shares : List.ofFn (Pool.share (fun _ => w) 1) = [[0]] := share_one _ rfl w
  let last := Stream.restart [flagField "v"] [boolBatch (List.replicate batchRows false), boolBatch [true]]
  let first : Fin (workers twoThreads last) := ⟨0, by decide⟩
  let second : Fin (workers twoThreads last) := ⟨1, by decide⟩
  have crossed : List.ofFn (Pool.share (fun i => if i = 0 then second else first) 2) = [[1], [0]] :=
    share_crossed _ rfl first second rfl rfl
  have ran : (SortedPlan.sort [.asc 0]).execute noKernels twoThreads (flagStream manyFlags).stream
      [List.ofFn (Pool.share (fun _ => w) 1), List.ofFn (Pool.share (fun i => if i = 0 then second else first) 2)]
      (.ok out) := by
    apply execute_of_assignment rfl (fun _ => w) (fun i => if i = 0 then second else first)
    · rw [List.length_singleton, shares]
      exact sort_manyFlags
    · rw [show [boolBatch (List.replicate batchRows false), boolBatch [true]].length = 2 from rfl, crossed]
      exact cut
  refine ⟨_, _, ran, ?_⟩
  rw [(rechunk_ok shapes cut).2]
  simp [boolBatch_toRows]

theorem execute_swaps :
    ¬∀ (K : Kernels) (ctx : ExecContext) (input : SoundStream) (plan : SortedPlan) (logs : List (List (List Nat)))
      (batches : List ColumnBatch), plan.execute K ctx input.stream logs (.ok batches) →
      Sorts K input.stream plan batches := by
  intro claim
  obtain ⟨logs, batches, ran, rows⟩ := manyFlags_crossed
  obtain ⟨sorted, fields, parts, _, ordered, delivers, same⟩ := claim _ _ _ _ _ _ ran
  generalize morsels : parts.map Except.ok = shown at delivers
  cases delivers with
  | @sort _ batches' whole =>
    have apart : Function.Injective (List.map (Except.ok : List ColumnBatch → Except ExecError _)) :=
      List.map_injective_iff.mpr fun _ _ alike => Except.ok.inj alike
    have parted : parts = batches'.map fun b => [b] := by
      apply apart
      rw [morsels, List.map_map]
      rfl
    have flat : parts.flatten = batches' := by
      rw [parted, ← List.flatMap_def]
      exact List.flatMap_singleton' batches'
    rw [rows, flat, whole] at same
    rw [← same] at ordered
    have first : [.bool false] ∈ List.replicate batchRows ([.bool false] : Row) :=
      List.mem_replicate.mpr ⟨by decide, rfl⟩
    exact absurd ((List.pairwise_cons.mp ordered).1 _ first) (by decide)

end SortedPlan

end Adelie
