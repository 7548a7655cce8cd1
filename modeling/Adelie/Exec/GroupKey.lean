import Adelie.Exec.HashJoin
import Adelie.Types.Lawful
import Adelie.Types.Platform

namespace Adelie

/-- Both NULL, or on one slot of the total order. -/
def SameKey (a b : Value) : Prop := a.isNull = true ∧ b.isNull = true ∨ totalCmp a b = some .eq

theorem SameKey.cases_null {a b : Value} (same : SameKey a b) :
    a.isNull = true ∧ b.isNull = true ∨ a.isNull = false ∧ b.isNull = false ∧ totalCmp a b = some .eq := by
  refine same.imp id fun tied => ⟨?_, ?_, tied⟩
  · cases a <;> first | rfl | simp [totalCmp, scalarCmp] at tied
  · cases b <;> first | rfl | (cases a <;> simp [totalCmp, scalarCmp] at tied)

namespace Rowkey

theorem normalized_nan_iff (f : Float64) : normalized f = 0x7FF8000000000000 ↔ f.isNaN = true := by
  have small := f.bits.property
  unfold normalized
  split
  · rename_i zero
    simp [Float64.isNaN, zero]
  · split
    · rename_i nan
      exact iff_of_true rfl nan
    · rename_i number
      refine iff_of_false ?_ number
      intro equal
      apply number
      rw [Float64.isNaN, Float64.magnitude, equal]
      decide

theorem normalized_eq_iff_slot (f g : Float64) : normalized f = normalized g ↔ floatTotalCmp f g = .eq := by
  unfold floatTotalCmp
  cases number : f.isNaN with
  | true =>
    have same := (normalized_nan_iff f).mpr number
    cases number' : g.isNaN with
    | true => simp [same, (normalized_nan_iff g).mpr number']
    | false =>
      have differs : normalized g ≠ 0x7FF8000000000000 := by
        intro equal
        simp [(normalized_nan_iff g).mp equal] at number'
      rw [same]
      simp [differs.symm]
  | false =>
    have differs : normalized f ≠ 0x7FF8000000000000 := by
      intro equal
      simp [(normalized_nan_iff f).mp equal] at number
    cases number' : g.isNaN with
    | true =>
      rw [(normalized_nan_iff g).mpr number']
      simp [differs]
    | false =>
      rw [normalized_eq_iff number number', compare_eq_iff_eq]

section Group

variable {a b : Value} {x y k l : List UInt8} {t : ScalarType}

theorem scalar_group_key (typed : a.HasScalarType t) : ∃ k, encodeValue .group a = some k := by
  cases a with
  | list items => cases t <;> exact typed.elim
  | _ => simp [encodeValue]

/-- Where a join key would be given up nothing else changes. -/
theorem group_eq_skip (typed : a.HasScalarType t) (definite : a.definite = true) :
    encodeValue .group a = encodeValue .skip a := by
  cases a with
  | null => cases definite
  | float64 f =>
    have number : f.isNaN = false := by simpa [Value.definite] using definite
    simp [encodeValue, number]
  | list items => cases t <;> exact typed.elim
  | _ => simp [encodeValue]

theorem scalar_slot_cases (typed : a.HasScalarType t) :
    a = .null ∨ (∃ f : Float64, a = .float64 f ∧ f.isNaN = true) ∨ a.definite = true := by
  cases a with
  | null => exact .inl rfl
  | float64 f =>
    cases number : f.isNaN with
    | true => exact .inr (.inl ⟨f, rfl, number⟩)
    | false => exact .inr (.inr (by simp [Value.definite, number]))
  | list items => cases t <;> exact typed.elim
  | _ => exact .inr (.inr rfl)

theorem group_key_head (typed : a.HasScalarType t) (value : a ≠ .null) (made : encodeValue .group a = some k) :
    ∃ rest, k = 1 :: rest := by
  cases a with
  | null => exact absurd rfl value
  | list items => cases t <;> exact typed.elim
  | _ =>
    simp only [encodeValue, reduceCtorEq, and_false, if_false, Option.some.injEq] at made
    exact ⟨_, made.symm⟩

/-- Two floats have one key on one slot only, NaNs among them. -/
theorem float_group_key {f : Float64} (typed : b.HasScalarType .float64) (value : b ≠ .null)
    (right : encodeValue .group b = some l) (same : one ++ Sink.u64 (normalized f) ++ x = l ++ y) :
    totalCmp (.float64 f) b = some .eq ∧ x = y := by
  cases b <;> first | exact typed.elim | exact absurd rfl value | skip
  rename_i g
  simp only [encodeValue, reduceCtorEq, and_false, if_false, Option.some.injEq] at right
  subst right
  obtain ⟨bits, rest⟩ := leBytes_append_inj (normalized_lt f) (normalized_lt g) (one_append_inj same)
  refine ⟨?_, rest⟩
  rw [totalCmp, scalarCmp, (normalized_eq_iff_slot f g).mp bits]
  simp

/-- Keys of two values of one scalar type start alike only on one slot. -/
theorem scalar_group_inj (typed : a.HasScalarType t) (typed' : b.HasScalarType t) (small : a.ScalarSmall)
    (small' : b.ScalarSmall) (left : encodeValue .group a = some k) (right : encodeValue .group b = some l)
    (same : k ++ x = l ++ y) : SameKey a b ∧ x = y := by
  have null : ∀ {v : Value} {k : List UInt8}, v = .null → encodeValue .group v = some k → k = [0] := by
    rintro v k rfl made
    simpa [encodeValue] using made.symm
  by_cases none_ : a = .null
  · have first := null none_ left
    by_cases none' : b = .null
    · have second := null none' right
      subst first second
      exact ⟨.inl ⟨by rw [none_]; rfl, by rw [none']; rfl⟩, by simpa using same⟩
    · obtain ⟨rest, rfl⟩ := group_key_head typed' none' right
      subst first
      simp at same
  · by_cases none' : b = .null
    · have second := null none' right
      obtain ⟨rest, rfl⟩ := group_key_head typed none_ left
      subst second
      simp at same
    · rcases scalar_slot_cases typed with wrong | ⟨f, rfl, _⟩ | definite
      · exact absurd wrong none_
      · cases t <;> first | exact typed.elim | skip
        simp only [encodeValue, reduceCtorEq, and_false, if_false, Option.some.injEq] at left
        subst left
        obtain ⟨tied, rest⟩ := float_group_key typed' none' right same
        exact ⟨.inr tied, rest⟩
      · rcases scalar_slot_cases typed' with wrong | ⟨g, rfl, _⟩ | definite'
        · exact absurd wrong none'
        · cases t <;> first | exact typed'.elim | skip
          simp only [encodeValue, reduceCtorEq, and_false, if_false, Option.some.injEq] at right
          subst right
          obtain ⟨tied, rest⟩ := float_group_key typed none_ left same.symm
          refine ⟨.inr ?_, rest.symm⟩
          have value : a.isNull = false := by cases a <;> first | rfl | exact absurd rfl none_
          exact (PreorderOn.of_domain (DataType.domain .float64)).swap (.float64 g) a .eq ⟨typed', rfl⟩ ⟨typed, value⟩ tied
        · rw [group_eq_skip typed definite] at left
          rw [group_eq_skip typed' definite'] at right
          obtain ⟨equal, rest⟩ := scalar_append_inj typed typed' small small' left right same
          refine ⟨.inr (totalCmp_of_sqlEq a b ?_), rest⟩
          rw [sqlEq_of_scalarType typed]
          exact equal

/-- Values on one slot have one key. -/
theorem scalar_group_same (typed : a.HasScalarType t) (typed' : b.HasScalarType t) (same : SameKey a b) :
    encodeValue .group a = encodeValue .group b := by
  rcases same with ⟨null, null'⟩ | tied
  · cases a <;> cases null
    cases b <;> cases null'
    rfl
  · rcases scalar_slot_cases typed' with rfl | ⟨g, rfl, _⟩ | definite
    · cases a <;> simp [totalCmp, scalarCmp] at tied
    · cases a <;> simp only [totalCmp, scalarCmp, reduceCtorEq, Option.some.injEq] at tied
      rename_i f
      simp [encodeValue, (normalized_eq_iff_slot f g).mpr tied]
    · have equal := (sqlEq_iff_definite a b tied).mpr definite
      rw [sqlEq_of_scalarType typed] at equal
      obtain ⟨k, left, right⟩ := scalar_key_of_sqlEq typed typed' equal
      have definite' : a.definite = true := by
        rcases scalar_slot_cases typed with rfl | ⟨f, rfl, nan⟩ | whole
        · simp [encodeValue] at left
        · simp [encodeValue, nan] at left
        · exact whole
      rw [group_eq_skip typed definite', group_eq_skip typed' definite, left, right]

theorem items_group_key {as : List Value} (typed : ∀ v ∈ as, v.HasScalarType t) : ∃ k, encodeItems .group as = some k := by
  induction as with
  | nil => exact ⟨[], by simp [encodeItems]⟩
  | cons a as ih =>
    rw [List.forall_mem_cons] at typed
    obtain ⟨head, first⟩ := scalar_group_key typed.1
    obtain ⟨tail, others⟩ := ih typed.2
    exact ⟨head ++ tail, encodeItems_cons.mpr ⟨head, tail, first, others, rfl⟩⟩

theorem items_group_inj {as bs : List Value} (typed : ∀ v ∈ as, v.HasScalarType t)
    (typed' : ∀ v ∈ bs, v.HasScalarType t) (small : ∀ v ∈ as, v.ScalarSmall) (small' : ∀ v ∈ bs, v.ScalarSmall)
    (lengths : as.length = bs.length) (left : encodeItems .group as = some k) (right : encodeItems .group bs = some l)
    (same : k ++ x = l ++ y) : listCmp as bs = some .eq ∧ x = y := by
  induction as generalizing bs k l with
  | nil =>
    cases bs with
    | nil =>
      simp only [encodeItems, Option.some.injEq] at left right
      subst left right
      exact ⟨rfl, same⟩
    | cons b bs => cases lengths
  | cons a as ih =>
    cases bs with
    | nil => cases lengths
    | cons b bs =>
      obtain ⟨k₁, k₂, first, others, rfl⟩ := encodeItems_cons.mp left
      obtain ⟨l₁, l₂, first', others', rfl⟩ := encodeItems_cons.mp right
      rw [List.forall_mem_cons] at typed typed' small small'
      rw [List.append_assoc, List.append_assoc] at same
      obtain ⟨slot, rest⟩ := scalar_group_inj typed.1 typed'.1 small.1 small'.1 first first' same
      obtain ⟨tails, rest⟩ := ih typed.2 typed'.2 small.2 small'.2 (Nat.succ.inj lengths) others others' rest
      exact ⟨listCmp_cons_eq.mpr ⟨slot.cases_null, tails⟩, rest⟩

theorem items_group_same {as bs : List Value} (typed : ∀ v ∈ as, v.HasScalarType t)
    (typed' : ∀ v ∈ bs, v.HasScalarType t) (same : listCmp as bs = some .eq) :
    as.length = bs.length ∧ encodeItems .group as = encodeItems .group bs := by
  induction as generalizing bs with
  | nil =>
    cases bs with
    | nil => exact ⟨rfl, rfl⟩
    | cons b bs => cases same
  | cons a as ih =>
    cases bs with
    | nil => cases same
    | cons b bs =>
      rw [List.forall_mem_cons] at typed typed'
      obtain ⟨slot, tails⟩ := listCmp_cons_eq.mp same
      obtain ⟨lengths, rest⟩ := ih typed.2 typed'.2 tails
      have head := scalar_group_same typed.1 typed'.1 (slot.imp id fun tied => tied.2.2)
      refine ⟨by simp [lengths], ?_⟩
      simp only [encodeItems, head, rest]

theorem group_list {items : List Value} : encodeValue .group (.list items) = some k ↔
    ∃ body, encodeItems .group items = some body ∧ k = one ++ (Sink.u32 (items.length % 2 ^ 32) ++ body) := by
  simp only [encodeValue, Option.pure_def, Option.bind_eq_bind, Option.bind_eq_some_iff, Option.some.injEq]
  apply exists_congr
  intro body
  exact and_congr_right fun _ => eq_comm

theorem value_group_key {ty : DataType} (typed : a.HasType ty) : ∃ k, encodeValue .group a = some k := by
  cases ty with
  | scalar t => exact scalar_group_key typed
  | list t =>
    cases a <;> first | exact typed.elim | skip
    · exact ⟨[0], by simp [encodeValue]⟩
    · obtain ⟨body, made⟩ := items_group_key typed
      exact ⟨_, group_list.mpr ⟨body, made, rfl⟩⟩

theorem value_group_inj {ty : DataType} (typed : a.HasType ty) (typed' : b.HasType ty) (small : a.Small)
    (small' : b.Small) (left : encodeValue .group a = some k) (right : encodeValue .group b = some l)
    (same : k ++ x = l ++ y) : SameKey a b ∧ x = y := by
  cases ty with
  | scalar t =>
    have scalarSmall : ∀ {v : Value}, v.HasScalarType t → v.Small → v.ScalarSmall := by
      intro v typed small
      cases v <;> first | exact small | (cases t <;> exact typed.elim)
    exact scalar_group_inj typed typed' (scalarSmall typed small) (scalarSmall typed' small') left right same
  | list t =>
    cases a <;> first | exact typed.elim | skip
    · simp only [encodeValue, reduceCtorEq, if_false, Option.some.injEq] at left
      subst left
      cases b <;> first | exact typed'.elim | skip
      · simp only [encodeValue, reduceCtorEq, if_false, Option.some.injEq] at right
        subst right
        exact ⟨.inl ⟨rfl, rfl⟩, by simpa using same⟩
      · obtain ⟨body, made, rfl⟩ := group_list.mp right
        simp [one] at same
    · rename_i as
      obtain ⟨body, made, rfl⟩ := group_list.mp left
      cases b <;> first | exact typed'.elim | skip
      · simp only [encodeValue, reduceCtorEq, if_false, Option.some.injEq] at right
        subst right
        simp [one] at same
      · rename_i bs
        obtain ⟨body', made', rfl⟩ := group_list.mp right
        have counts := one_append_inj same
        rw [Nat.mod_eq_of_lt small.1, Nat.mod_eq_of_lt small'.1, List.append_assoc, List.append_assoc] at counts
        have first_lt := small.1
        have second_lt := small'.1
        obtain ⟨lengths, rest⟩ := leBytes_append_inj (by omega) (by omega) counts
        obtain ⟨items, rest⟩ := items_group_inj typed typed' small.2 small'.2 lengths made made' rest
        exact ⟨.inr (by rw [totalCmp]; exact items), rest⟩

theorem value_group_same {ty : DataType} (typed : a.HasType ty) (typed' : b.HasType ty) (same : SameKey a b) :
    encodeValue .group a = encodeValue .group b := by
  cases ty with
  | scalar t => exact scalar_group_same typed typed' same
  | list t =>
    rcases same with ⟨null, null'⟩ | tied
    · cases a <;> cases null
      cases b <;> cases null'
      rfl
    · cases a <;> first | exact typed.elim | skip
      · cases b <;> simp [totalCmp, scalarCmp] at tied
      cases b <;> first | exact typed'.elim | skip
      · simp [totalCmp] at tied
      rw [totalCmp] at tied
      obtain ⟨lengths, bodies⟩ := items_group_same typed typed' tied
      simp only [encodeValue, lengths, bodies]

mutual

/-- A join key is given up exactly for a NULL or a NaN in it. -/
theorem value_skip_none (v : Value) : encodeValue .skip v = none ↔ v.definite = false := by
  cases v with
  | list items =>
    rw [Value.definite, ← items_skip_none items]
    simp only [encodeValue, Option.pure_def, Option.bind_eq_bind]
    cases encodeItems .skip items <;> simp
  | _ => simp [encodeValue, Value.definite]

theorem items_skip_none (items : List Value) : encodeItems .skip items = none ↔ definiteItems items = false := by
  cases items with
  | nil => simp [encodeItems, definiteItems]
  | cons v rest =>
    rw [definiteItems, Bool.and_eq_false_iff, ← value_skip_none v, ← items_skip_none rest]
    simp only [encodeItems, Option.pure_def, Option.bind_eq_bind]
    cases encodeValue .skip v <;> cases encodeItems .skip rest <;> simp

end

theorem definiteItems_eq_false {items : List Value} : definiteItems items = false ↔ ∃ v ∈ items, v.definite = false := by
  induction items with
  | nil => simp [definiteItems]
  | cons v rest ih => rw [definiteItems, Bool.and_eq_false_iff, ih, List.exists_mem_cons_iff]

end Group

end Rowkey

section Rows

open Rowkey

variable {types : List DataType} {as bs : List Value}

theorem rows_group_key (typed : List.Forall₂ Value.HasType as types) : ∃ k, encodeRowKey .group as = some k := by
  induction typed with
  | nil => exact ⟨[], by simp [encodeRowKey, encodeItems]⟩
  | cons first _ ih =>
    obtain ⟨head, made⟩ := value_group_key first
    obtain ⟨tail, others⟩ := ih
    exact ⟨head ++ tail, encodeItems_cons.mpr ⟨head, tail, made, others, rfl⟩⟩

/-- The keys of two rows start alike only where the rows group together: each value tells where it ends. -/
theorem rows_group_inj (typed : List.Forall₂ Value.HasType as types) (typed' : List.Forall₂ Value.HasType bs types)
    (small : ∀ v ∈ as, v.Small) (small' : ∀ v ∈ bs, v.Small) {k l x y : List UInt8}
    (left : encodeItems .group as = some k) (right : encodeItems .group bs = some l) (same : k ++ x = l ++ y) :
    List.Forall₂ SameKey as bs ∧ x = y := by
  induction typed generalizing bs k l with
  | nil =>
    cases typed'
    simp only [encodeItems, Option.some.injEq] at left right
    subst left right
    exact ⟨.nil, same⟩
  | @cons a t as types first _ ih =>
    cases typed' with
    | @cons b _ bs _ first' others' =>
      obtain ⟨k₁, k₂, head, tail, rfl⟩ := encodeItems_cons.mp left
      obtain ⟨l₁, l₂, head', tail', rfl⟩ := encodeItems_cons.mp right
      rw [List.forall_mem_cons] at small small'
      rw [List.append_assoc, List.append_assoc] at same
      obtain ⟨slot, rest⟩ := value_group_inj first first' small.1 small'.1 head head' same
      obtain ⟨slots, rest⟩ := ih others' small.2 small'.2 tail tail' rest
      exact ⟨.cons slot slots, rest⟩

theorem rows_group_same (typed : List.Forall₂ Value.HasType as types) (typed' : List.Forall₂ Value.HasType bs types)
    (same : List.Forall₂ SameKey as bs) : encodeRowKey .group as = encodeRowKey .group bs := by
  induction typed generalizing bs with
  | nil =>
    cases same
    rfl
  | cons first _ ih =>
    cases same with
    | cons slot slots =>
      cases typed' with
      | cons first' others' =>
        have tails := ih others' slots
        simp only [encodeRowKey] at tails ⊢
        simp only [encodeItems, value_group_same first first' slot, tails]

end Rows

/-- One row of the key columns. -/
def columnCells (cols : List Column) (row : Nat) : List Value := cols.map fun c => c.cells[row]?.getD .null

theorem columnCells_typed {cols : List Column} (sound : ∀ c ∈ cols, c.Sound) (row : Nat) :
    List.Forall₂ Value.HasType (columnCells cols row) (cols.map Column.ty) ∧ ∀ v ∈ columnCells cols row, v.Small := by
  have cell : ∀ c ∈ cols, (c.cells[row]?.getD .null).HasType c.ty ∧ (c.cells[row]?.getD .null).Small := by
    intro c member
    cases at_ : c.cells[row]? with
    | none =>
      refine ⟨?_, True.intro⟩
      cases c.ty <;> exact True.intro
    | some v =>
      have inside := List.mem_of_getElem? at_
      exact ⟨(sound c member).typed v inside, (sound c member).fits.small inside⟩
  unfold columnCells
  rw [List.forall₂_map_left_iff, List.forall₂_map_right_iff, List.forall₂_same, List.forall_mem_map]
  exact ⟨fun c member => (cell c member).1, fun c member => (cell c member).2⟩

/-- Rows of equally typed columns have one group key exactly where they group together, and a join key is given up
    exactly at a NULL or a NaN. -/
theorem groupKey_faithful (cols cols' : List Column) (row row' : Nat) (sound : ∀ c ∈ cols, c.Sound)
    (sound' : ∀ c ∈ cols', c.Sound) (typed : cols.map Column.ty = cols'.map Column.ty) :
    (∃ k l, encodeRowKey .group (columnCells cols row) = some k ∧ encodeRowKey .group (columnCells cols' row') = some l ∧
      (k = l ↔ List.Forall₂ SameKey (columnCells cols row) (columnCells cols' row'))) ∧
    (encodeRowKey .skip (columnCells cols row) = none ↔ ∃ v ∈ columnCells cols row, v.definite = false) := by
  obtain ⟨left, small⟩ := columnCells_typed sound row
  obtain ⟨right, small'⟩ := columnCells_typed sound' row'
  rw [← typed] at right
  obtain ⟨k, made⟩ := rows_group_key left
  obtain ⟨l, made'⟩ := rows_group_key right
  refine ⟨⟨k, l, made, made', ?_, ?_⟩, ?_⟩
  · rintro rfl
    exact (rows_group_inj (x := []) (y := []) left right small small' made made' rfl).1
  · intro same
    rw [rows_group_same left right same, made'] at made
    exact (Option.some.inj made).symm
  · rw [encodeRowKey, Rowkey.items_skip_none, Rowkey.definiteItems_eq_false]

theorem zero_bits : 0 < 2 ^ 64 := by decide

theorem sign_bits : 2 ^ 63 < 2 ^ 64 := by decide

/-- A zero of either sign, a NaN, and the same in a LIST. -/
def floatKeys : List Column :=
  let zero : Float64 := ⟨⟨0, zero_bits⟩⟩
  let negativeZero : Float64 := ⟨⟨2 ^ 63, sign_bits⟩⟩
  [⟨.scalar .float64, [.float64 zero, .float64 negativeZero]⟩,
    ⟨.list .float64, [.list [.float64 nan, .null], .list [.float64 nan, .null]]⟩]

theorem groupKey_faithful_floats :
    (∃ k l, encodeRowKey .group (columnCells floatKeys 0) = some k ∧ encodeRowKey .group (columnCells floatKeys 1) = some l ∧
      (k = l ↔ List.Forall₂ SameKey (columnCells floatKeys 0) (columnCells floatKeys 1))) ∧
    (encodeRowKey .skip (columnCells floatKeys 0) = none ↔ ∃ v ∈ columnCells floatKeys 0, v.definite = false) := by
  have sound : ∀ c ∈ floatKeys, c.Sound := by
    intro c member
    simp only [floatKeys, List.mem_cons, List.not_mem_nil, or_false] at member
    rcases member with rfl | rfl
    · exact ⟨by simp [Value.HasType, Value.HasScalarType], by decide, by decide, by decide⟩
    · exact ⟨by simp [Value.HasType, Value.HasScalarType], by decide, by decide, by decide⟩
  exact groupKey_faithful floatKeys floatKeys 0 1 sound sound rfl

end Adelie
