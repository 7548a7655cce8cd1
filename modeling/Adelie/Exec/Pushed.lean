import Adelie.Exec.Batch
import Adelie.Exec.Building

namespace Adelie

namespace Physical

section Totals

variable {cells : List Value} {t : ScalarType}

theorem width_eq (v : Value) : width v = (rowBytes v).length := by
  cases v <;> rfl

theorem elementsOf_eq (v : Value) : elementsOf v = (elements v).length := by
  cases v <;> rfl

theorem sum_elementsOf (cells : List Value) : (cells.map elementsOf).sum = childLen cells := by
  rw [childLen]
  congr 1
  apply List.map_congr_left
  intro v _
  exact elementsOf_eq v

theorem sum_width (cells : List Value) : (cells.map width).sum = dataLen cells := by
  rw [dataLen]
  congr 1
  apply List.map_congr_left
  intro v _
  exact width_eq v

/-- Values of a scalar have no elements, LISTs no bytes of their own. -/
theorem sum_bytesOf_scalar (typed : ∀ v ∈ cells, v.HasType (.scalar t)) :
    (cells.map bytesOf).sum = dataLen cells ∧ dataLen (cells.flatMap elements) = 0 := by
  induction cells with
  | nil => exact ⟨rfl, rfl⟩
  | cons v cells ih =>
    rw [List.forall_mem_cons] at typed
    obtain ⟨bytes, none_⟩ := ih typed.2
    obtain ⟨own, no⟩ := bytesOf_scalar typed.1
    rw [elementsOf_eq, List.length_eq_zero_iff] at no
    rw [List.map_cons, List.sum_cons, bytes, own, width_eq, dataLen_cons, List.flatMap_cons, no, List.nil_append]
    exact ⟨rfl, none_⟩

theorem sum_bytesOf_list (typed : ∀ v ∈ cells, v.HasType (.list t)) :
    (cells.map bytesOf).sum = dataLen (cells.flatMap elements) ∧ dataLen cells = 0 := by
  induction cells with
  | nil => exact ⟨rfl, rfl⟩
  | cons v cells ih =>
    rw [List.forall_mem_cons] at typed
    obtain ⟨bytes, none_⟩ := ih typed.2
    rw [List.map_cons, List.sum_cons, bytes, dataLen_cons, none_, List.flatMap_cons, dataLen_append]
    cases v with
    | list items => exact ⟨by rw [bytesOf, sum_width]; rfl, rfl⟩
    | null => exact ⟨rfl, rfl⟩
    | _ => exact typed.1.elim

end Totals

/-- The offsets that values of a type still need. -/
theorem fitsOffsets_iff {cells : List Value} {ty : DataType} (typed : ∀ v ∈ cells, v.HasType ty) :
    FitsOffsets cells ↔ (cells.map elementsOf).sum < 2 ^ 32 ∧ (cells.map bytesOf).sum < 2 ^ 32 := by
  rw [sum_elementsOf]
  cases ty with
  | scalar t =>
    obtain ⟨bytes, none_⟩ := sum_bytesOf_scalar typed
    rw [bytes]
    exact ⟨fun fits => ⟨fits.children, fits.data⟩, fun room => ⟨room.2, room.1, by omega⟩⟩
  | list t =>
    obtain ⟨bytes, none_⟩ := sum_bytesOf_list typed
    rw [bytes]
    exact ⟨fun fits => ⟨fits.children, fits.childData⟩, fun room => ⟨by omega, room.1, room.2⟩⟩

namespace ColumnBuilder

/-- Values pushed one after another, up to the first that is refused. -/
def pushAll (b : ColumnBuilder) : List Value → Called ColumnBuilder
  | [] => some (b, .ok ())
  | v :: rest => Called.andThen (b.push v) fun b' => pushAll b' rest

variable {b : ColumnBuilder} {rows cells : List Value} {v : Value}

theorem size_pushDefault (d : BuilderData) : (Building.pushDefault d).size = d.size ∧ (Building.pushDefault d).elements = d.elements := by
  cases d with
  | flat buffer => cases buffer <;> exact ⟨rfl, rfl⟩
  | list offsets child => exact ⟨rfl, rfl⟩

theorem size_lt {ty : DataType} {d : BuilderData} (sound : ColumnData.Sound ty (Building.finish d)) (child : d.ChildWhole) :
    d.size < 2 ^ 32 := by
  cases d with
  | flat buffer =>
    cases sound with
    | flat own =>
      change buffer.size < 2 ^ 32
      cases own with
      | var whole small _ =>
        rw [Buffer.size, whole]
        exact small
      | _ => exact Nat.two_pow_pos 32
  | list offsets values_ => exact BuilderOf.Whole.size_lt child

/-- A value of the type is the next row while its offsets are `u32`, and is refused past that. -/
theorem Tracks.push_typed (tracks : Tracks b rows) (typed : v.HasType b.ty) :
    (b.data.elements + elementsOf v < 2 ^ 32 ∧ b.data.size + bytesOf v < 2 ^ 32 → ∃ b', b.push v = some (b', .ok ()) ∧ b'.ty = b.ty ∧
      Tracks b' (rows ++ [v]) ∧ b'.data.elements = b.data.elements + elementsOf v ∧ b'.data.size = b.data.size + bytesOf v) ∧
    (¬(b.data.elements + elementsOf v < 2 ^ 32 ∧ b.data.size + bytesOf v < 2 ^ 32) → ∃ b', b.push v = some (b', .error .tooLarge)) := by
  unfold BuilderOf.push
  cases null : v.isNull with
  | true =>
    obtain rfl : v = .null := by
      cases v <;> first
        | rfl
        | cases null
    obtain ⟨size, elements⟩ := size_pushDefault b.data
    have few := BuilderData.elements_lt tracks.whole.sound.data tracks.child
    have small := size_lt tracks.whole.sound.data tracks.child
    refine ⟨fun _ => ⟨_, if_pos rfl, rfl, tracks.pushNull, elements, size⟩, fun past => absurd ⟨few, small⟩ past⟩
  | false =>
    rw [if_neg (by decide), coerce_self typed]
    obtain ⟨stored, full⟩ := BuilderData.pushCoerced_ok tracks.whole.sound.data tracks.child typed null
    refine ⟨?_, ?_⟩
    · intro room
      obtain ⟨d', done, sound, child, same, size, elements⟩ := stored room
      obtain ⟨whole, cells⟩ := tracks.whole.stored sound same
      refine ⟨_, BuilderOf.pushCoerced_ok done, rfl, ⟨whole, child, ?_⟩, elements, size⟩
      rw [cells, tracks.cells, List.map_append, List.map_singleton]
    · intro past
      obtain ⟨d', done, _⟩ := full past
      exact ⟨_, BuilderOf.pushCoerced_refused done⟩

/-- Rows pushed behind those there are: all of them while every offset is a `u32`, else some row is too large. -/
theorem Tracks.pushAll (tracks : Tracks b rows) (typed : ∀ v ∈ cells, v.HasType b.ty) :
    (b.data.elements + (cells.map elementsOf).sum < 2 ^ 32 ∧ b.data.size + (cells.map bytesOf).sum < 2 ^ 32 →
      ∃ b', pushAll b cells = some (b', .ok ()) ∧ b'.ty = b.ty ∧ Tracks b' (rows ++ cells)) ∧
    (¬(b.data.elements + (cells.map elementsOf).sum < 2 ^ 32 ∧ b.data.size + (cells.map bytesOf).sum < 2 ^ 32) →
      ∃ b', pushAll b cells = some (b', .error .tooLarge)) := by
  induction cells generalizing b rows with
  | nil =>
    have few := BuilderData.elements_lt tracks.whole.sound.data tracks.child
    have small := size_lt tracks.whole.sound.data tracks.child
    refine ⟨fun _ => ⟨b, rfl, rfl, by rwa [List.append_nil]⟩, fun past => ?_⟩
    exact absurd ⟨few, small⟩ past
  | cons v cells ih =>
    rw [List.forall_mem_cons] at typed
    rw [List.map_cons, List.map_cons, List.sum_cons, List.sum_cons, ← Nat.add_assoc, ← Nat.add_assoc]
    obtain ⟨stored, refused⟩ := tracks.push_typed typed.1
    by_cases first : b.data.elements + elementsOf v < 2 ^ 32 ∧ b.data.size + bytesOf v < 2 ^ 32
    · obtain ⟨b₁, done, ty, tracks₁, elements, size⟩ := stored first
      have next : ColumnBuilder.pushAll b (v :: cells) = ColumnBuilder.pushAll b₁ cells := by
        rw [ColumnBuilder.pushAll, done]
        rfl
      obtain ⟨all, past⟩ := ih tracks₁ (ty ▸ typed.2)
      rw [elements, size] at all past
      rw [next]
      refine ⟨fun room => ?_, past⟩
      obtain ⟨b', made, same, whole⟩ := all room
      exact ⟨b', made, same.trans ty, by rwa [List.append_assoc] at whole⟩
    · obtain ⟨b₁, done⟩ := refused first
      refine ⟨?_, fun _ => ⟨b₁, ?_⟩⟩
      · intro room
        exact absurd (by omega) first
      · rw [ColumnBuilder.pushAll, done]
        rfl

/-- Values of a type become a column that reads as them while every offset is a `u32`; past that some value is too large. -/
theorem pushAll_typed {ty : DataType} (typed : ∀ v ∈ cells, v.HasType ty) :
    (FitsOffsets cells → ∃ b, ColumnBuilder.pushAll (.new ty) cells = some (b, .ok ()) ∧ b.ty = ty ∧ Tracks b cells) ∧
    (¬FitsOffsets cells → ∃ b, ColumnBuilder.pushAll (.new ty) cells = some (b, .error .tooLarge)) := by
  obtain ⟨all, past⟩ := (new_tracks ty).pushAll typed
  have elements : (BuilderOf.new ty : ColumnBuilder).data.elements = 0 := by
    cases ty <;> rfl
  have size : (BuilderOf.new ty : ColumnBuilder).data.size = 0 := by
    rcases ty with t | t <;> cases t <;> rfl
  rw [elements, size, Nat.zero_add, Nat.zero_add, ← fitsOffsets_iff typed] at all past
  exact ⟨all, past⟩

/-- A value is pushed as what it coerces to. -/
theorem push_coerced {coerced : Value} (fits : coerce v b.ty = some coerced) : b.push v = b.push coerced := by
  have again : coerce coerced b.ty = some coerced := coerce_self (coerce_type fits)
  unfold BuilderOf.push
  cases null : v.isNull with
  | true =>
    obtain rfl : v = .null := by
      cases v <;> first
        | rfl
        | cases null
    have same : coerced = .null := by
      cases own : b.ty <;> rw [own] at fits <;> cases fits <;> rfl
    rw [same]
    rfl
  | false => rw [fits, again, coerce_present fits null]

theorem push_ty {b' : ColumnBuilder} {r : Except ColumnError Unit} (done : b.push v = some (b', r)) : b'.ty = b.ty := by
  unfold BuilderOf.push at done
  split at done
  · cases done
    rfl
  · split at done
    · cases done
      rfl
    · obtain ⟨out, _, done⟩ := Option.map_eq_some_iff.mp done
      split at done <;> cases done <;> rfl

theorem pushAll_append (xs ys : List Value) : pushAll b (xs ++ ys) = Called.andThen (pushAll b xs) fun b' => pushAll b' ys := by
  induction xs generalizing b with
  | nil => rfl
  | cons v xs ih =>
    rw [List.cons_append, pushAll, pushAll]
    cases first : b.push v with
    | none => rfl
    | some out =>
      obtain ⟨b₁, r⟩ := out
      cases r with
      | error e => rfl
      | ok u => exact ih

theorem pushAll_coerced {ty : DataType} {vs : List Value} (own : b.ty = ty) (fits : vs.mapM (coerce · ty) = some cells) :
    pushAll b vs = pushAll b cells := by
  have each := forall₂_of_mapM_option fits
  clear fits
  induction each generalizing b with
  | nil => rfl
  | @cons v coerced vs cells first _ ih =>
    subst own
    rw [pushAll, pushAll, push_coerced first]
    cases done : b.push coerced with
    | none => rfl
    | some out =>
      obtain ⟨b₁, r⟩ := out
      cases r with
      | error e => rfl
      | ok u => exact ih (push_ty done)

theorem coerced_typed {ty : DataType} {vs : List Value} (fits : vs.mapM (coerce · ty) = some cells) : ∀ v ∈ cells, v.HasType ty := by
  intro w member
  obtain ⟨i, inside, rfl⟩ := List.mem_iff_getElem.mp member
  have each := forall₂_of_mapM_option fits
  exact coerce_type (each.get (by rw [each.length_eq]; exact inside) inside)

end ColumnBuilder

/-- One push a value. `none` is a panic. -/
def Column.fromValues (ty : DataType) (vs : List Value) : Option (Except ColumnError Column) :=
  (ColumnBuilder.pushAll (.new ty) vs).map fun out => out.2.map fun _ => out.1.finish

theorem Column.fromValues_eq {ty : DataType} {vs : List Value} {b : ColumnBuilder} {r : Except ColumnError Unit}
    (made : ColumnBuilder.pushAll (.new ty) vs = some (b, r)) : Column.fromValues ty vs = some (r.map fun _ => b.finish) := by
  rw [Column.fromValues, made]
  rfl

/-- Typed cells whose offsets fit are a column. -/
theorem Column.fromValues_typed {ty : DataType} {cells : List Value} (typed : ∀ v ∈ cells, v.HasType ty) (fits : FitsOffsets cells) :
    ∃ c, Column.fromValues ty cells = some (.ok c) ∧ c.Sound ∧ c.ty = ty ∧ c.cells = cells.map some := by
  obtain ⟨b, made, own, tracks⟩ := (ColumnBuilder.pushAll_typed typed).1 fits
  exact ⟨b.finish, Column.fromValues_eq made, tracks.whole.sound, own, tracks.cells⟩

/-- Values that fit the type become a column that reads as what they coerce to, while its offsets are `u32`. The first that does not fit
    is refused, unless a row before it was too large. -/
theorem Column.fromValues_built (ty : DataType) (vs : List Value) {cells : List Value} (fits : vs.mapM (coerce · ty) = some cells) :
    (FitsOffsets cells → (∃ c, Column.fromValues ty vs = some (.ok c) ∧ c.Sound ∧ c.ty = ty ∧ c.cells = cells.map some) ∧
      ∀ v rest, coerce v ty = none → Column.fromValues ty (vs ++ v :: rest) = some (.error (.doesNotFit v ty))) ∧
    (¬FitsOffsets cells → ∀ rest, Column.fromValues ty (vs ++ rest) = some (.error .tooLarge)) := by
  have same : ColumnBuilder.pushAll (.new ty) vs = ColumnBuilder.pushAll (.new ty) cells := ColumnBuilder.pushAll_coerced rfl fits
  obtain ⟨all, past⟩ := ColumnBuilder.pushAll_typed (ColumnBuilder.coerced_typed fits)
  refine ⟨?_, ?_⟩
  · intro few
    obtain ⟨b, made, own, tracks⟩ := all few
    rw [← same] at made
    refine ⟨⟨b.finish, Column.fromValues_eq made, tracks.whole.sound, own, tracks.cells⟩, ?_⟩
    intro v rest misfit
    have present : v.isNull = false := by
      cases v with
      | null => cases ty <;> cases misfit
      | _ => rfl
    have refused : b.push v = some (b, .error (.doesNotFit v ty)) := by
      rw [← own] at misfit ⊢
      unfold BuilderOf.push
      rw [if_neg (by simp [present]), misfit]
    have stops : ColumnBuilder.pushAll b (v :: rest) = some (b, .error (.doesNotFit v ty)) := by
      rw [ColumnBuilder.pushAll, refused]
      rfl
    have whole : ColumnBuilder.pushAll (.new ty) (vs ++ v :: rest) = some (b, .error (.doesNotFit v ty)) := by
      rw [ColumnBuilder.pushAll_append, made]
      exact stops
    exact Column.fromValues_eq whole
  · intro many rest
    obtain ⟨b, made⟩ := past many
    rw [← same] at made
    have whole : ColumnBuilder.pushAll (.new ty) (vs ++ rest) = some (b, .error .tooLarge) := by
      rw [ColumnBuilder.pushAll_append, made]
      rfl
    exact Column.fromValues_eq whole

theorem Column.fromValues_built_bools :
    (FitsOffsets [.bool true, .null] → (∃ c, Column.fromValues .bool [.bool true, .null] = some (.ok c) ∧ c.Sound ∧ c.ty = .bool ∧
        c.cells = [.bool true, .null].map some) ∧
      ∀ v rest, coerce v .bool = none → Column.fromValues .bool ([.bool true, .null] ++ v :: rest) = some (.error (.doesNotFit v .bool))) ∧
    (¬FitsOffsets [.bool true, .null] → ∀ rest, Column.fromValues .bool ([.bool true, .null] ++ rest) = some (.error .tooLarge)) :=
  Column.fromValues_built .bool [.bool true, .null] rfl

end Physical

end Adelie
