import Adelie.Exec.Batch

namespace Adelie

/-- `n as u32`. -/
def asU32 (n : Nat) : Nat := n % 2 ^ 32

theorem asU32_eq_iff (n : Nat) : asU32 n = n ↔ n < 2 ^ 32 := by
  unfold asU32
  constructor
  · intro same
    have := Nat.mod_lt n (show 0 < 2 ^ 32 by decide)
    omega
  · exact Nat.mod_eq_of_lt

/-- The rows' bytes one after another, the end of each recorded `as u32`. A NULL row adds nothing. -/
def takeVarwidth (picked : List Value) : List Nat × List UInt8 :=
  picked.foldl (fun (offsets, data) v =>
    let data := data ++ rowBytes v
    (offsets ++ [asU32 data.length], data)) ([0], [])

/-- The number of rows, where the offsets start at zero, never fall and end with the data. -/
def validateOffsets (offsets : List Nat) (endLen : Nat) : Except String Nat := do
  match offsets.head? with
  | none => .error "empty offsets"
  | some first =>
    ensure (first = 0) "offsets do not start at zero"
    ensure ((offsets.zip offsets.tail).all fun p => p.1 ≤ p.2) "decreasing offsets"
    ensure (offsets.getLast? = some endLen) "final offset does not match data length"
    return offsets.length - 1

def slices (offsets : List Nat) (data : List UInt8) : List (List UInt8) :=
  List.zipWith (fun first last => (data.take last).drop first) offsets offsets.tail

def readString (bytes : List UInt8) (valid : Bool) : Except String Value :=
  match fromUtf8 bytes with
  | none => .error "string row is not valid utf-8"
  | some s => .ok (if valid then .string s else .null)

def readBytes (bytes : List UInt8) (valid : Bool) : Except String Value :=
  .ok (if valid then .bytes bytes else .null)

/-- `Column::from_parts` of a STRING or BYTES column, as `get` then reads it. -/
def fromVarwidth (read : List UInt8 → Bool → Except String Value) (offsets : List Nat) (data : List UInt8)
    (valid : List Bool) : Except String (List Value) := do
  let rows ← validateOffsets offsets data.length
  let cells ← ((slices offsets data).zip valid).mapM fun p => read p.1 p.2
  ensure (valid.length = rows) "validity length does not match row count"
  return cells

/-- A LIST column under construction: its rows and how much its child holds. -/
structure ListBuilder where
  cells : List Value
  len : Nat
  bytes : Nat

namespace ListBuilder

def empty : ListBuilder := ⟨[], 0, 0⟩

def tooLarge : String := "column buffer exceeds u32::MAX"

/-- The child's offset is checked, never truncated. -/
def pushItem (b : ListBuilder) (v : Value) : Except String ListBuilder := do
  ensure (b.bytes + (rowBytes v).length < 2 ^ 32) tooLarge
  return { b with len := b.len + 1, bytes := b.bytes + (rowBytes v).length }

def push (t : ScalarType) (b : ListBuilder) (v : Value) : Except String ListBuilder :=
  if v.isNull then .ok { b with cells := b.cells ++ [v] }
  else
    match coerce v (.list t) with
    | none => .error s!"value does not losslessly fit {(DataType.list t).display}"
    | some v => do
      ensure (b.len + (elements v).length < 2 ^ 32) tooLarge
      let b ← (elements v).foldlM pushItem b
      return { b with cells := b.cells ++ [v] }

end ListBuilder

/-- The cell at an index, NULL where there is none. -/
def Column.pick (c : Column) : Option Nat → Except ExecError Value
  | none => .ok .null
  | some i =>
    match c.cells[i]? with
    | some v => .ok v
    | none => .error (.panicked s!"column index {i} out of bounds for len {c.cells.length}")

def expect {α : Type} (message : String) : Except String α → Except ExecError α
  | .ok a => .ok a
  | .error e => .error (.panicked s!"{message}: {e}")

def preserves : String := "take/take_opt preserve the source column's own invariants"

/-- The picked cells as a column of the same type, through the buffers the type has. -/
def rebuild (ty : DataType) (picked : List Value) : Except ExecError Column := do
  match ty with
  | .list t =>
    let b ← expect "a value read from a column always fits that same column's type"
      (picked.foldlM (ListBuilder.push t) .empty)
    return ⟨ty, b.cells⟩
  | .string =>
    let (offsets, data) := takeVarwidth picked
    return ⟨ty, ← expect preserves (fromVarwidth readString offsets data (picked.map (!·.isNull)))⟩
  | .bytes =>
    let (offsets, data) := takeVarwidth picked
    return ⟨ty, ← expect preserves (fromVarwidth readBytes offsets data (picked.map (!·.isNull)))⟩
  | _ => return ⟨ty, picked⟩

def takeOpt (c : Column) (indices : List (Option Nat)) : Except ExecError Column := do
  rebuild c.ty (← indices.mapM c.pick)

def takeRows (c : Column) (indices : List Nat) : Except ExecError Column := takeOpt c (indices.map some)

/-- Offsets rebased one column after another; one past `u32::MAX` is refused. -/
def runningTotal (size : Column → Nat) (cols : List Column) : Except ExecError Nat :=
  cols.foldlM (fun base c => do
    ensure (base + size c < 2 ^ 32) (.plan ListBuilder.tooLarge)
    return base + size c) 0

def Column.concat (ty : DataType) (cols : List Column) : Except ExecError Column := do
  let _ ← runningTotal (fun c => dataLen c.cells) cols
  let _ ← runningTotal (fun c => childLen c.cells) cols
  let _ ← runningTotal (fun c => dataLen (c.cells.flatMap elements)) cols
  return ⟨ty, cols.flatMap Column.cells⟩

def ColumnBatch.column (b : ColumnBatch) (i : Nat) : Except ExecError Column :=
  match b.columns[i]? with
  | some c => .ok c
  | none => .error (.panicked "index out of bounds")

/-- Every batch's column under a field, one after another. -/
def concatField (batches : List ColumnBatch) (f : Field × Nat) : Except ExecError Column := do
  Column.concat f.1.ty (← batches.mapM (·.column f.2))

def concatBatches (fields : List Field) (batches : List ColumnBatch) : Except ExecError ColumnBatch := do
  let columns ← fields.zipIdx.mapM (concatField batches)
  (ColumnBatch.new fields columns).mapError fun e => .plan e.display

section Varwidth

/-- Where each row's bytes end, from a starting offset. -/
def ends : Nat → List Value → List Nat
  | _, [] => []
  | n, v :: rest => (n + (rowBytes v).length) :: ends (n + (rowBytes v).length) rest

theorem takeVarwidth_eq (picked : List Value) :
    takeVarwidth picked = (0 :: (ends 0 picked).map asU32, picked.flatMap rowBytes) := by
  suffices general : ∀ (picked : List Value) (offsets : List Nat) (data : List UInt8),
      picked.foldl (fun (offsets, data) v =>
        let data := data ++ rowBytes v
        (offsets ++ [asU32 data.length], data)) (offsets, data) =
      (offsets ++ (ends data.length picked).map asU32, data ++ picked.flatMap rowBytes) from
    general picked [0] []
  intro picked
  induction picked with
  | nil => intro offsets data; simp [ends]
  | cons v rest ih =>
    intro offsets data
    rw [List.foldl_cons, ih]
    simp [ends]

theorem length_ends (n : Nat) (picked : List Value) : (ends n picked).length = picked.length := by
  induction picked generalizing n with
  | nil => rfl
  | cons v rest ih => simp [ends, ih]

theorem ends_le {n : Nat} {picked : List Value} : ∀ m ∈ ends n picked, m ≤ n + dataLen picked := by
  induction picked generalizing n with
  | nil => simp [ends]
  | cons v rest ih =>
    intro m member
    rw [dataLen_cons]
    rcases List.mem_cons.mp member with rfl | member
    · omega
    · have := ih m member
      omega

theorem getLast?_ends (n : Nat) (picked : List Value) : (n :: ends n picked).getLast? = some (n + dataLen picked) := by
  induction picked generalizing n with
  | nil => rfl
  | cons v rest ih =>
    rw [ends, List.getLast?_cons_cons, ih, dataLen_cons]
    congr 1
    omega

theorem ends_sorted (n : Nat) (picked : List Value) :
    ((n :: ends n picked).zip (ends n picked)).all (fun p => p.1 ≤ p.2) = true := by
  induction picked generalizing n with
  | nil => rfl
  | cons v rest ih =>
    simp only [ends, List.zip_cons_cons, List.all_cons, Bool.and_eq_true, decide_eq_true_eq]
    exact ⟨by omega, ih _⟩

/-- Offsets read without truncation cut the data back into the rows. -/
theorem slices_ends (picked : List Value) :
    ∀ before : List UInt8, List.zipWith (fun first last => ((before ++ picked.flatMap rowBytes).take last).drop first)
      (before.length :: ends before.length picked) (ends before.length picked) = picked.map rowBytes := by
  induction picked with
  | nil => intro before; rfl
  | cons v rest ih =>
    intro before
    have next := ih (before ++ rowBytes v)
    rw [List.length_append, List.append_assoc] at next
    simp only [ends, List.zipWith_cons_cons, List.flatMap_cons, List.map_cons, next]
    congr 1
    rw [← List.append_assoc, List.take_append_of_le_length (by simp), List.take_of_length_le (by simp),
      List.drop_left]

theorem map_asU32_ends {picked : List Value} (fits : dataLen picked < 2 ^ 32) :
    (ends 0 picked).map asU32 = ends 0 picked := by
  have each : ∀ m ∈ ends 0 picked, asU32 m = m := by
    intro m member
    have := ends_le m member
    exact (asU32_eq_iff m).mpr (by omega)
  rw [List.map_congr_left each, List.map_id']

theorem validateOffsets_ends (picked : List Value) :
    validateOffsets (0 :: ends 0 picked) (dataLen picked) = .ok picked.length := by
  have last := getLast?_ends 0 picked
  rw [Nat.zero_add] at last
  simp only [validateOffsets, List.head?_cons, List.tail_cons, ends_sorted, last, ensure, decide_true, if_true,
    List.length_cons, length_ends]
  rfl

theorem length_flatMap_rowBytes (picked : List Value) : (picked.flatMap rowBytes).length = dataLen picked := by
  induction picked with
  | nil => rfl
  | cons v rest ih => simp [ih]

variable {picked : List Value} {read : List UInt8 → Bool → Except String Value}

/-- Read back as written, while the offsets hold. -/
theorem fromVarwidth_fits (reads : ∀ v ∈ picked, read (rowBytes v) (!v.isNull) = .ok v)
    (fits : dataLen picked < 2 ^ 32) :
    fromVarwidth read (takeVarwidth picked).1 (takeVarwidth picked).2 (picked.map (!·.isNull)) = .ok picked := by
  have rows : slices (0 :: ends 0 picked) (picked.flatMap rowBytes) = picked.map rowBytes := by
    simpa [slices] using slices_ends picked []
  have cells : ((picked.map rowBytes).zip (picked.map (!·.isNull))).mapM (fun p => read p.1 p.2) = .ok picked := by
    apply mapM_except_of_forall₂
    rw [List.zip_map', List.forall₂_map_left_iff, List.forall₂_same]
    exact reads
  rw [takeVarwidth_eq, map_asU32_ends fits]
  simp only [fromVarwidth, length_flatMap_rowBytes, validateOffsets_ends, rows, cells, List.length_map, ensure,
    bind, Except.bind, decide_true, if_true]
  rfl

/-- A total past `u32::MAX` leaves a last offset that is not the length of the data. -/
theorem fromVarwidth_wraps (read : List UInt8 → Bool → Except String Value) (past : 2 ^ 32 ≤ dataLen picked) :
    ∃ e, fromVarwidth read (takeVarwidth picked).1 (takeVarwidth picked).2 (picked.map (!·.isNull)) = .error e := by
  rw [takeVarwidth_eq]
  have last : (0 :: (ends 0 picked).map asU32).getLast? = some (asU32 (dataLen picked)) := by
    have exact := congrArg (Option.map asU32) (getLast?_ends 0 picked)
    rw [Nat.zero_add, ← List.getLast?_map] at exact
    exact exact
  have apart : asU32 (dataLen picked) ≠ dataLen picked := by
    intro same
    have := (asU32_eq_iff _).mp same
    omega
  have refused : ∃ e, validateOffsets (0 :: (ends 0 picked).map asU32) (dataLen picked) = .error e := by
    simp only [validateOffsets, List.head?_cons, last, ensure, decide_true, if_true, Option.some.injEq, apart,
      decide_false, Bool.false_eq_true, if_false]
    split
    · exact ⟨_, rfl⟩
    · exact ⟨_, rfl⟩
  obtain ⟨e, refused⟩ := refused
  refine ⟨e, ?_⟩
  simp only [fromVarwidth, length_flatMap_rowBytes, refused]
  rfl

end Varwidth

section Lists

open ListBuilder

variable {t : ScalarType} {picked : List Value}

/-- Elements go in one by one; the first that would pass `u32::MAX` bytes stops the row. -/
theorem pushItems_iff (items : List Value) (b : ListBuilder) (small : b.bytes < 2 ^ 32) :
    (b.bytes + dataLen items < 2 ^ 32 →
      items.foldlM pushItem b = .ok ⟨b.cells, b.len + items.length, b.bytes + dataLen items⟩) ∧
    (2 ^ 32 ≤ b.bytes + dataLen items → ∃ e, items.foldlM pushItem b = .error e) := by
  induction items generalizing b with
  | nil =>
    simp only [dataLen_nil, List.length_nil, Nat.add_zero]
    exact ⟨fun _ => rfl, fun past => by omega⟩
  | cons v rest ih =>
    rw [dataLen_cons, List.length_cons, List.foldlM_cons]
    by_cases fits : b.bytes + (rowBytes v).length < 2 ^ 32
    · have pushed : pushItem b v = .ok ⟨b.cells, b.len + 1, b.bytes + (rowBytes v).length⟩ := by
        simp only [pushItem, ensure, fits, decide_true, if_true]
        rfl
      obtain ⟨room, none⟩ := ih ⟨b.cells, b.len + 1, b.bytes + (rowBytes v).length⟩ fits
      simp only [pushed, bind, Except.bind]
      constructor
      · intro total
        rw [room (by dsimp only; omega)]
        congr 2 <;> dsimp only <;> omega
      · intro past
        exact none (by dsimp only; omega)
    · have refused : pushItem b v = .error tooLarge := by
        simp only [pushItem, ensure, fits, decide_false, Bool.false_eq_true, if_false]
        rfl
      simp only [refused, bind, Except.bind]
      exact ⟨fun total => by omega, fun _ => ⟨_, rfl⟩⟩

theorem pushLists_iff (picked : List Value) (typed : ∀ v ∈ picked, v.HasType (.list t)) (b : ListBuilder)
    (small : b.len < 2 ^ 32) (small' : b.bytes < 2 ^ 32) :
    (b.len + childLen picked < 2 ^ 32 ∧ b.bytes + dataLen (picked.flatMap elements) < 2 ^ 32 →
      ∃ b', picked.foldlM (push t) b = .ok b' ∧ b'.cells = b.cells ++ picked) ∧
    (2 ^ 32 ≤ b.len + childLen picked ∨ 2 ^ 32 ≤ b.bytes + dataLen (picked.flatMap elements) →
      ∃ e, picked.foldlM (push t) b = .error e) := by
  induction picked generalizing b with
  | nil =>
    simp only [childLen_nil, List.flatMap_nil, dataLen_nil, Nat.add_zero]
    exact ⟨fun _ => ⟨b, rfl, by simp⟩, fun past => by omega⟩
  | cons v rest ih =>
    rw [List.forall_mem_cons] at typed
    rw [childLen_cons, List.flatMap_cons, dataLen_append, List.foldlM_cons]
    cases v with
    | null =>
      obtain ⟨room, none⟩ := ih typed.2 { b with cells := b.cells ++ [.null] } small small'
      have pushed : push t b .null = .ok { b with cells := b.cells ++ [.null] } := rfl
      simp only [pushed, bind, Except.bind, elements, List.length_nil, dataLen_nil, Nat.zero_add]
      refine ⟨fun total => ?_, none⟩
      obtain ⟨b', made, cells⟩ := room total
      exact ⟨b', made, by rw [cells]; simp⟩
    | list items =>
      have kept : coerce (.list items) (.list t) = some (.list items) := coerce_self typed.1
      have unfolded : push t b (.list items) = (do
          ensure (b.len + items.length < 2 ^ 32) tooLarge
          let b ← items.foldlM pushItem b
          return { b with cells := b.cells ++ [.list items] }) := by
        simp only [push, Value.isNull, Bool.false_eq_true, if_false, kept, elements]
        rfl
      simp only [elements]
      by_cases fits : b.len + items.length < 2 ^ 32
      · obtain ⟨room, none⟩ := pushItems_iff items b small'
        by_cases fits' : b.bytes + dataLen items < 2 ^ 32
        · have pushed : push t b (.list items) =
              .ok ⟨b.cells ++ [.list items], b.len + items.length, b.bytes + dataLen items⟩ := by
            rw [unfolded, room fits']
            simp only [ensure, fits, decide_true, if_true]
            rfl
          obtain ⟨room', none'⟩ :=
            ih typed.2 ⟨b.cells ++ [.list items], b.len + items.length, b.bytes + dataLen items⟩ fits fits'
          simp only [pushed, bind, Except.bind]
          constructor
          · intro total
            obtain ⟨b', made, cells⟩ := room' ⟨by dsimp only; omega, by dsimp only; omega⟩
            exact ⟨b', made, by rw [cells]; simp⟩
          · intro past
            exact none' (by dsimp only; omega)
        · obtain ⟨e, refused⟩ := none (by omega)
          have stopped : push t b (.list items) = .error e := by
            rw [unfolded, refused]
            simp only [ensure, fits, decide_true, if_true]
            rfl
          simp only [stopped, bind, Except.bind]
          exact ⟨fun total => by omega, fun _ => ⟨e, rfl⟩⟩
      · have stopped : push t b (.list items) = .error tooLarge := by
          rw [unfolded]
          simp only [ensure, fits, decide_false, Bool.false_eq_true, if_false]
          rfl
        simp only [stopped, bind, Except.bind]
        exact ⟨fun total => by omega, fun _ => ⟨_, rfl⟩⟩
    | _ => exact typed.1.elim

end Lists

/-- The cells come back as picked exactly while their offsets fit; past that the rebuild panics. -/
theorem rebuild_iff {ty : DataType} {picked : List Value} (typed : ∀ v ∈ picked, v.HasType ty) :
    (FitsOffsets picked → rebuild ty picked = .ok ⟨ty, picked⟩) ∧
    (¬FitsOffsets picked → ∃ m, rebuild ty picked = .error (.panicked m)) := by
  by_cases listed : ∃ t, ty = .list t
  · obtain ⟨t, rfl⟩ := listed
    have noBytes : dataLen picked = 0 := by
      apply List.sum_eq_zero
      intro n member
      obtain ⟨v, inside, rfl⟩ := List.mem_map.mp member
      cases v <;> first | rfl | exact (typed _ inside).elim
    obtain ⟨room, none⟩ := pushLists_iff picked typed .empty (by decide) (by decide)
    simp only [ListBuilder.empty, Nat.zero_add] at room none
    constructor
    · intro fits
      obtain ⟨b, made, cells⟩ := room ⟨fits.children, fits.childData⟩
      simp only [rebuild, ListBuilder.empty, made, expect, bind, Except.bind, cells, List.nil_append]
      rfl
    · intro past
      have which : 2 ^ 32 ≤ childLen picked ∨ 2 ^ 32 ≤ dataLen (picked.flatMap elements) := by
        by_contra fits
        push Not at fits
        exact past ⟨by rw [noBytes]; decide, fits.1, fits.2⟩
      obtain ⟨e, refused⟩ := none which
      simp only [rebuild, ListBuilder.empty, refused, expect, bind, Except.bind]
      exact ⟨_, rfl⟩
  · have noItems : picked.flatMap elements = [] ∧ childLen picked = 0 := by
      have each : ∀ v ∈ picked, elements v = [] := by
        intro v member
        cases ty with
        | list t => exact (listed ⟨t, rfl⟩).elim
        | scalar t =>
          have := typed v member
          cases v <;> first | rfl | (cases t <;> exact this.elim)
      refine ⟨List.flatMap_eq_nil_iff.mpr each, List.sum_eq_zero ?_⟩
      intro n member
      obtain ⟨v, inside, rfl⟩ := List.mem_map.mp member
      rw [each v inside]
      rfl
    have onlyData : FitsOffsets picked ↔ dataLen picked < 2 ^ 32 := by
      constructor
      · exact FitsOffsets.data
      · intro data
        exact ⟨data, by rw [noItems.2]; decide, by rw [noItems.1]; decide⟩
    rw [onlyData, Nat.not_lt]
    cases ty with
    | list t => exact (listed ⟨t, rfl⟩).elim
    | scalar t =>
      cases t with
      | string =>
        have reads : ∀ v ∈ picked, readString (rowBytes v) (!v.isNull) = .ok v := by
          intro v member
          have := typed v member
          cases v <;> first | exact this.elim | skip
          · rfl
          · simp [readString, rowBytes, fromUtf8_utf8, Value.isNull]
        constructor
        · intro fits
          simp only [rebuild, fromVarwidth_fits reads fits, expect, bind, Except.bind]
          rfl
        · intro past
          obtain ⟨e, refused⟩ := fromVarwidth_wraps readString past
          simp only [rebuild, refused, expect, bind, Except.bind]
          exact ⟨_, rfl⟩
      | bytes =>
        have reads : ∀ v ∈ picked, readBytes (rowBytes v) (!v.isNull) = .ok v := by
          intro v member
          have := typed v member
          cases v <;> first | exact this.elim | rfl
        constructor
        · intro fits
          simp only [rebuild, fromVarwidth_fits reads fits, expect, bind, Except.bind]
          rfl
        · intro past
          obtain ⟨e, refused⟩ := fromVarwidth_wraps readBytes past
          simp only [rebuild, refused, expect, bind, Except.bind]
          exact ⟨_, rfl⟩
      | _ =>
        have noBytes : dataLen picked = 0 := by
          apply List.sum_eq_zero
          intro n member
          obtain ⟨v, inside, rfl⟩ := List.mem_map.mp member
          have := typed v inside
          cases v <;> first | rfl | exact this.elim
        rw [noBytes]
        exact ⟨fun _ => rfl, fun past => absurd past (by decide)⟩

end Adelie
