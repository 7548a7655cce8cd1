import Adelie.Exec.Built
import Adelie.Exec.History
import Adelie.Lib.Merge

namespace Adelie

/-- Bytes a query's operators share. -/
structure MemoryBudget where
  limit : Nat
  used : Nat

namespace MemoryBudget

/-- Refused, `used` stays as it was. -/
def grow (m : MemoryBudget) (bytes : Nat) : Except ExecError MemoryBudget := do
  ensure (m.used + bytes < 2 ^ 64 ∧ m.used + bytes ≤ m.limit) (.budgetExceeded bytes m.used m.limit)
  return { m with used := m.used + bytes }

def shrink (m : MemoryBudget) (bytes : Nat) : MemoryBudget := { m with used := m.used - bytes }

/-- A reservation brought to exactly `bytes`, or made. -/
def resize (m : MemoryBudget) (reserved : Option Nat) (bytes : Nat) : Except ExecError MemoryBudget :=
  match reserved with
  | none => m.grow bytes
  | some held => if held < bytes then m.grow (bytes - held) else .ok (m.shrink (held - bytes))

end MemoryBudget

/-- The rows a top-k sink holds, and the bytes reserved for them. -/
structure TopKPart where
  held : List ColumnBatch
  res : Option Nat

namespace TopKPart

variable (fields : List Field) (keys : List SortKey) (k : Nat) (byteSize : ColumnBatch → Nat)

def new : TopKPart := ⟨[], none⟩

/-- What is held is replaced only once there are bytes for it. -/
def foldIn (part : TopKPart) (budget : MemoryBudget) (incoming : List ColumnBatch) :
    Except ExecError Unit × TopKPart × MemoryBudget :=
  if k = 0 ∨ (part.held ++ incoming).isEmpty then (.ok (), part, budget)
  else
    match TopKSink.foldIn fields keys k part.held incoming with
    | .error e => (.error e, part, budget)
    | .ok held =>
      let bytes := (held.map byteSize).sum
      match budget.resize part.res bytes with
      | .error e => (.error e, part, budget)
      | .ok budget => (.ok (), ⟨held, some bytes⟩, budget)

/-- `check` is what the context answers: the query goes on, is cancelled or has timed out. -/
def push (check : Except ExecError Unit) (part : TopKPart) (budget : MemoryBudget) (b : ColumnBatch) :
    Except ExecError Unit × TopKPart × MemoryBudget :=
  match check with
  | .error e => (.error e, part, budget)
  | .ok () => part.foldIn fields keys k byteSize budget [b]

/-- The other sink's bytes are released first. -/
def merge (check : Except ExecError Unit) (part : TopKPart) (budget : MemoryBudget) (other : TopKPart) :
    Except ExecError Unit × TopKPart × MemoryBudget :=
  let budget := budget.shrink (other.res.getD 0)
  match check with
  | .error e => (.error e, part, budget)
  | .ok () => part.foldIn fields keys k byteSize budget other.held

def finish (part : TopKPart) : List ColumnBatch := part.held

/-- A sink after its history, no call of which failed; `meets` is what each call meets. -/
inductive Ran (meets : List ColumnBatch → List ColumnBatch → Prop) : History → TopKPart → Prop
  | new : Ran meets .new new
  | push {h : History} {part part' : TopKPart} {budget budget' : MemoryBudget} {check : Except ExecError Unit}
      {b : ColumnBatch} (before : Ran meets h part) (met : meets part.held [b])
      (made : part.push fields keys k byteSize check budget b = (.ok (), part', budget')) : Ran meets (.push h b) part'
  | merge {h h' : History} {part other part' : TopKPart} {budget budget' : MemoryBudget}
      {check : Except ExecError Unit} (before : Ran meets h part) (theirs : Ran meets h' other)
      (met : meets part.held other.held)
      (made : part.merge fields keys k byteSize check budget other = (.ok (), part', budget')) :
      Ran meets (.merge h h') part'

end TopKPart

section Trim

variable {fields : List Field} {keys : List SortKey} {k : Nat} {byteSize : ColumnBatch → Nat}
  {held incoming held' : List ColumnBatch} {all more : List Row}

/-- The first rows of a sort, where only the first `k` of each part came to it. -/
theorem take_sorted_append (inside : ∀ key ∈ keys, key.column < fields.length) {first next : List Row}
    (typed : ∀ r ∈ all, Typed fields r) (typed' : ∀ r ∈ more, Typed fields r)
    (typedNext : ∀ r ∈ next, Typed fields r) (first_eq : first = (all.insertionSort (KeyLe keys)).take k)
    (next_eq : (next.insertionSort (KeyLe keys)).take k = (more.insertionSort (KeyLe keys)).take k) :
    ((first ++ next).insertionSort (KeyLe keys)).take k = ((all ++ more).insertionSort (KeyLe keys)).take k := by
  classical
  have := rowLe_total inside
  have := rowLe_trans inside
  have typedFirst : ∀ r ∈ first, Typed fields r := by
    intro r member
    rw [first_eq] at member
    exact typed r ((List.perm_insertionSort _ all).mem_iff.mp (List.mem_of_mem_take member))
  rw [insertionSort_within typed] at first_eq
  rw [insertionSort_within typedNext, insertionSort_within typed'] at next_eq
  rw [insertionSort_within (List.forall_mem_append.mpr ⟨typedFirst, typedNext⟩),
    insertionSort_within (List.forall_mem_append.mpr ⟨typed, typed'⟩)]
  exact take_insertionSort_append first_eq next_eq

theorem take_sorted_twice (inside : ∀ key ∈ keys, key.column < fields.length) (typed : ∀ r ∈ all, Typed fields r) :
    (((all.insertionSort (KeyLe keys)).take k).insertionSort (KeyLe keys)).take k =
      (all.insertionSort (KeyLe keys)).take k := by
  classical
  have := rowLe_total inside
  have := rowLe_trans inside
  have typedTake : ∀ r ∈ (all.insertionSort (KeyLe keys)).take k, Typed fields r := fun r member =>
    typed r ((List.perm_insertionSort _ all).mem_iff.mp (List.mem_of_mem_take member))
  rw [insertionSort_within typedTake, insertionSort_within typed]
  have sorted : ((all.insertionSort (RowLe fields keys)).take k).Pairwise (RowLe fields keys) :=
    (List.pairwise_insertionSort _ all).sublist (List.take_sublist _ _)
  rw [sorted.insertionSort_eq, List.take_take, Nat.min_self]

/-- Batches that are the first `k` rows of what was given, in order. -/
structure TopKPart.Holds (fields : List Field) (keys : List SortKey) (k : Nat) (held : List ColumnBatch)
    (all : List Row) : Prop where
  sound : ∀ b ∈ held, b.fields = fields ∧ b.Sound
  rows : held.flatMap ColumnBatch.toRows = (all.insertionSort (KeyLe keys)).take k

theorem foldIn_holds (inside : ∀ key ∈ keys, key.column < fields.length) (holds : TopKPart.Holds fields keys k held all)
    (sound : ∀ b ∈ incoming, b.fields = fields ∧ b.Sound) (typed : ∀ r ∈ all, Typed fields r)
    (typed' : ∀ r ∈ more, Typed fields r)
    (next_eq : ((incoming.flatMap ColumnBatch.toRows).insertionSort (KeyLe keys)).take k =
      (more.insertionSort (KeyLe keys)).take k)
    (few : ((held ++ incoming).flatMap ColumnBatch.toRows).length < 2 ^ 32) (positive : k ≠ 0)
    (some_ : (held ++ incoming).isEmpty = false) (made : TopKSink.foldIn fields keys k held incoming = .ok held') :
    TopKPart.Holds fields keys k held' (all ++ more) := by
  have each : ∀ b ∈ held ++ incoming, b.fields = fields ∧ b.Sound := List.forall_mem_append.mpr ⟨holds.sound, sound⟩
  unfold TopKSink.foldIn at made
  rw [if_neg positive, if_neg (by simp [some_])] at made
  obtain ⟨concat, joined, made⟩ := Except.bind_eq_ok.mp made
  obtain ⟨order, sorted, made⟩ := Except.bind_eq_ok.mp made
  obtain ⟨taken, took, made⟩ := Except.bind_eq_ok.mp made
  cases made
  obtain ⟨named, soundConcat, rows⟩ := concatBatches_rows ⟨held ++ incoming, each⟩ joined
  have count : concat.rows < 2 ^ 32 := by
    rw [← concat.length_toRows, rows]
    exact few
  obtain ⟨named', sound', takenRows⟩ := takeSorted_ok soundConcat count sorted took
  have typedNext := typed_of_sound sound
  refine ⟨by simpa using ⟨named'.trans named, sound'⟩, ?_⟩
  have parts : concat.toRows = held.flatMap ColumnBatch.toRows ++ incoming.flatMap ColumnBatch.toRows := by
    rw [rows]
    exact List.flatMap_append
  rw [List.flatMap_singleton, takenRows, parts]
  exact take_sorted_append inside typed typed' typedNext holds.rows next_eq

/-- One call, whatever of the rows it is given can still be among the first `k`. -/
theorem TopKPart.Holds.foldIn {part part' : TopKPart} {budget budget' : MemoryBudget}
    (inside : ∀ key ∈ keys, key.column < fields.length) (holds : TopKPart.Holds fields keys k part.held all)
    (sound : ∀ b ∈ incoming, b.fields = fields ∧ b.Sound) (typed : ∀ r ∈ all, Typed fields r)
    (typed' : ∀ r ∈ more, Typed fields r)
    (next_eq : ((incoming.flatMap ColumnBatch.toRows).insertionSort (KeyLe keys)).take k =
      (more.insertionSort (KeyLe keys)).take k)
    (few : k = 0 ∨ ((part.held ++ incoming).flatMap ColumnBatch.toRows).length < 2 ^ 32)
    (made : part.foldIn fields keys k byteSize budget incoming = (.ok (), part', budget')) :
    TopKPart.Holds fields keys k part'.held (all ++ more) := by
  unfold TopKPart.foldIn at made
  by_cases zero : k = 0
  · rw [if_pos (.inl zero)] at made
    cases made
    refine ⟨holds.sound, ?_⟩
    rw [holds.rows, zero, List.take_zero, List.take_zero]
  · cases empty : (part.held ++ incoming).isEmpty with
    | true =>
      rw [if_pos (.inr empty)] at made
      cases made
      obtain ⟨none_, none'⟩ := List.append_eq_nil_iff.mp (List.isEmpty_iff.mp empty)
      have joined := take_sorted_append inside typed typed' (typed_of_sound sound) holds.rows next_eq
      refine ⟨holds.sound, ?_⟩
      rw [← joined, none_, none']
      simp
    | false =>
      rw [if_neg (by simp [zero, empty])] at made
      split at made
      · cases made
      · rename_i held' folded
        dsimp only at made
        split at made
        · cases made
        · cases made
          exact foldIn_holds inside holds sound typed typed' next_eq (few.resolve_left zero) zero empty folded

/-- Every call's rows, those held among them, have `u32` numbers; with `k = 0` nothing is numbered. -/
def TopKPart.Few (k : Nat) (held incoming : List ColumnBatch) : Prop :=
  k = 0 ∨ ((held ++ incoming).flatMap ColumnBatch.toRows).length < 2 ^ 32

theorem TopKPart.Ran.holds (inside : ∀ key ∈ keys, key.column < fields.length) {h : History} {part : TopKPart}
    (ran : TopKPart.Ran fields keys k byteSize (TopKPart.Few k) h part) (of : h.Of fields) :
    TopKPart.Holds fields keys k part.held h.rows := by
  induction ran with
  | new => exact ⟨by simp [TopKPart.new], by simp [TopKPart.new]⟩
  | @push h part part' budget budget' check b before met made ih =>
    obtain ⟨earlier, sound⟩ := History.of_push.mp of
    have own : ∀ c ∈ [b], c.fields = fields ∧ c.Sound := by simpa using sound
    rw [History.rows_push]
    unfold TopKPart.push at made
    split at made
    · cases made
    · refine (ih earlier).foldIn inside own earlier.typed_rows ?_ ?_ met made
      · simpa using typed_of_sound own
      · rw [List.flatMap_singleton]
  | @merge h h' part other part' budget budget' check before theirs met made ih ih' =>
    obtain ⟨earlier, others⟩ := History.of_merge.mp of
    have given := ih' others
    rw [History.rows_merge]
    unfold TopKPart.merge at made
    dsimp only at made
    split at made
    · cases made
    · refine (ih earlier).foldIn inside given.sound earlier.typed_rows others.typed_rows ?_ met made
      rw [given.rows, take_sorted_twice inside others.typed_rows]

theorem TopKPart.foldIn_ok {part : TopKPart} {budget budget' : MemoryBudget} (positive : k ≠ 0)
    (some_ : (part.held ++ incoming).isEmpty = false)
    (folded : TopKSink.foldIn fields keys k part.held incoming = .ok held')
    (room : budget.resize part.res (held'.map byteSize).sum = .ok budget') :
    part.foldIn fields keys k byteSize budget incoming = (.ok (), ⟨held', some (held'.map byteSize).sum⟩, budget') := by
  unfold TopKPart.foldIn
  rw [if_neg (by simp [positive, some_])]
  simp only [folded, room]

/-- A call that fails leaves what is held. -/
theorem TopKPart.foldIn_error {part part' : TopKPart} {budget budget' : MemoryBudget} {e : ExecError}
    (failed : part.foldIn fields keys k byteSize budget incoming = (.error e, part', budget')) : part' = part := by
  unfold TopKPart.foldIn at failed
  split at failed
  · cases failed
  · split at failed
    · cases failed
      rfl
    · dsimp only at failed
      split at failed
      · cases failed
        rfl
      · cases failed

/-- What a top-k sink is for, where every call meets `meets`: the first rows of the stable sort of all it was given. -/
def TopKPart.Exact (meets : Nat → List ColumnBatch → List ColumnBatch → Prop) : Prop :=
  ∀ (fields : List Field) (keys : List SortKey) (k : Nat) (byteSize : ColumnBatch → Nat) (h : History) (part : TopKPart),
    (∀ key ∈ keys, key.column < fields.length) → h.Of fields → Ran fields keys k byteSize (meets k) h part →
    StableSort (compareKeys keys) h.rows (h.rows.insertionSort (KeyLe keys)) ∧
      part.finish.flatMap ColumnBatch.toRows = (h.rows.insertionSort (KeyLe keys)).take (min k h.rows.length)

end Trim

/-- In every run whose calls all have `u32` numbers for their rows the result is the first of the stable sort; and a
    push or merge that fails keeps the held rows. -/
theorem topK_exact {fields : List Field} {keys : List SortKey} {k : Nat} {byteSize : ColumnBatch → Nat} {h : History}
    {part : TopKPart} (inside : ∀ key ∈ keys, key.column < fields.length) (of : h.Of fields)
    (ran : TopKPart.Ran fields keys k byteSize (TopKPart.Few k) h part) :
    StableSort (compareKeys keys) h.rows (h.rows.insertionSort (KeyLe keys)) ∧
      part.finish.flatMap ColumnBatch.toRows = (h.rows.insertionSort (KeyLe keys)).take (min k h.rows.length) ∧
      ∀ (check : Except ExecError Unit) (part' : TopKPart) (budget budget' : MemoryBudget) (e : ExecError),
        (∀ b, part.push fields keys k byteSize check budget b = (.error e, part', budget') → part'.held = part.held) ∧
        ∀ other, part.merge fields keys k byteSize check budget other = (.error e, part', budget') →
          part'.held = part.held := by
  refine ⟨stableSort_rows inside of.typed_rows, ?_, ?_⟩
  · have whole : (h.rows.insertionSort (KeyLe keys)).length = h.rows.length := List.length_insertionSort _ _
    rw [TopKPart.finish, (ran.holds inside of).rows, ← whole, ← List.take_eq_take_min]
  · intro check part' budget budget' e
    refine ⟨?_, ?_⟩
    · intro b failed
      unfold TopKPart.push at failed
      split at failed
      · cases failed
        rfl
      · rw [TopKPart.foldIn_error failed]
    · intro other failed
      unfold TopKPart.merge at failed
      dsimp only at failed
      split at failed
      · cases failed
        rfl
      · rw [TopKPart.foldIn_error failed]

theorem topK_exact_first : StableSort (compareKeys [.asc 0]) (History.push .new (allTrue 2)).rows
      ((History.push .new (allTrue 2)).rows.insertionSort (KeyLe [.asc 0])) ∧
    (TopKPart.mk [allTrue 1] (some 0)).finish.flatMap ColumnBatch.toRows =
      ((History.push .new (allTrue 2)).rows.insertionSort (KeyLe [.asc 0])).take
        (min 1 (History.push .new (allTrue 2)).rows.length) ∧
    ∀ (check : Except ExecError Unit) (part' : TopKPart) (budget budget' : MemoryBudget) (e : ExecError),
      (∀ b, (TopKPart.mk [allTrue 1] (some 0)).push [⟨"a", .bool⟩] [.asc 0] 1 (fun _ => 0) check budget b =
        (.error e, part', budget') → part'.held = [allTrue 1]) ∧
      ∀ other, (TopKPart.mk [allTrue 1] (some 0)).merge [⟨"a", .bool⟩] [.asc 0] 1 (fun _ => 0) check budget other =
        (.error e, part', budget') → part'.held = [allTrue 1] := by
  have folded : TopKSink.foldIn [⟨"a", .bool⟩] [.asc 0] 1 [] [allTrue 2] = .ok [allTrue 1] := by rfl
  have made : TopKPart.new.push [⟨"a", .bool⟩] [.asc 0] 1 (fun _ => 0) (.ok ()) ⟨0, 0⟩ (allTrue 2) =
      (.ok (), ⟨[allTrue 1], some 0⟩, ⟨0, 0⟩) := by
    have room : (MemoryBudget.mk 0 0).resize TopKPart.new.res ([allTrue 1].map fun _ => 0).sum = .ok ⟨0, 0⟩ := rfl
    exact TopKPart.foldIn_ok Nat.one_ne_zero rfl folded room
  refine topK_exact (by simp [SortKey.asc]) ?_ (.push .new (.inr ?_) made)
  · rw [History.of_push]
    exact ⟨by simp [History.Of, History.batches], rfl, allTrue_whole _⟩
  · decide

/-- Where the number of the rows wraps to 0, none is numbered and none is held. -/
theorem foldIn_numbers_none {n : Nat} (wraps : asU32 n = 0) : ∃ b : ColumnBatch,
    TopKSink.foldIn [⟨"a", .bool⟩] [.asc 0] 1 [] [allTrue n] = .ok [b] ∧ b.toRows = [] := by
  have each : ∀ b ∈ [allTrue n], b.fields = [⟨"a", .bool⟩] ∧ b.Sound := by
    rw [List.forall_mem_singleton]
    exact ⟨rfl, allTrue_whole _⟩
  have fits : ∀ i < 1, FitsOffsets (stacked [allTrue n] i) := by
    intro i below
    obtain rfl : i = 0 := by omega
    simpa [stacked, allTrue] using allTrue_fits n
  obtain ⟨concat, order, joined, sorted, named, sound, wide, total, perm⟩ :=
    @sorted_of_fits [⟨"a", .bool⟩] [.asc 0] _ (by simp) (by simp) each fits
  rw [length_toRows_flatMap, allTrue_rows] at total
  rw [total, wraps, List.range_zero] at perm
  have empty : order = [] := perm.eq_nil
  have unnumbered : ([] : List Nat).Perm (List.range 0) := List.Perm.nil
  obtain ⟨taken, took⟩ := takeBatch_of_perm sound unnumbered (Nat.zero_le _)
  obtain ⟨_, _, rows⟩ := takeBatch_ok sound wide (by simp) took
  refine ⟨taken, ?_, by rw [rows]; rfl⟩
  unfold TopKSink.foldIn
  rw [if_neg (by decide), if_neg (by simp)]
  subst empty
  exact Except.bind_eq_ok.mpr ⟨concat, joined, Except.bind_eq_ok.mpr ⟨[], sorted,
    Except.bind_eq_ok.mpr ⟨taken, took, rfl⟩⟩⟩

theorem not_topK_exact {n : Nat} (some_ : n ≠ 0) (wraps : asU32 n = 0) : ¬ TopKPart.Exact fun _ _ _ => True := by
  intro exact_
  obtain ⟨b, folded, none_⟩ := foldIn_numbers_none wraps
  have made : TopKPart.new.push [⟨"a", .bool⟩] [.asc 0] 1 (fun _ => 0) (.ok ()) ⟨0, 0⟩ (allTrue n) =
      (.ok (), ⟨[b], some 0⟩, ⟨0, 0⟩) := by
    exact TopKPart.foldIn_ok (by decide) rfl folded rfl
  have of : (History.push .new (allTrue n)).Of [⟨"a", .bool⟩] := by
    rw [History.of_push]
    exact ⟨by simp [History.Of, History.batches], rfl, allTrue_whole _⟩
  obtain ⟨_, rows⟩ := exact_ [⟨"a", .bool⟩] [.asc 0] 1 (fun _ => 0) _ _ (by simp [SortKey.asc]) of (.push .new True.intro made)
  have count := congrArg List.length rows
  have many : (History.push .new (allTrue n)).rows.length = n := by
    rw [History.rows_push, History.rows_new, List.nil_append, ColumnBatch.length_toRows]
    simp [allTrue, ColumnBatch.rows]
  have first : min 1 n = 1 := by omega
  rw [List.length_take, List.length_insertionSort, many] at count
  simp [TopKPart.finish, none_, first] at count

/-- The first of 2³² TRUE rows, of a sink that was given them in one push. -/
theorem topK_drops_rows : ¬ TopKPart.Exact fun _ _ _ => True :=
  @not_topK_exact (2 ^ 32) (by decide) rfl

end Adelie
