import Adelie.Exec.Builder

namespace Adelie

namespace Physical

/-- Bytes a value adds to a STRING or BYTES buffer. -/
def width : Value → Nat
  | .string s => (utf8 s).length
  | .bytes b => b.length
  | _ => 0

/-- Bytes in a STRING or BYTES buffer. -/
def Buffer.size : Buffer → Nat
  | .var _ _ data => data.length
  | _ => 0

section Slots

variable {t : ScalarType} {v : Value}

theorem zero_fits : (k : Fixed) → k.Fits t k.zero
  | .decimal => by
    intro d _
    simp [Fixed.zero]
  | .int64 | .uint64 | .float64 | .timestamp | .date | .uuid | .ip => True.intro

/-- A value of the type is read back from its slot. -/
theorem carry_fixed {k : Fixed} (kind : fixedKind t = some k) (typed : v.HasScalarType t) (some_ : v.isNull = false) :
    ∃ x, k.carry v = some x ∧ k.Fits t x ∧ k.value (.scalar t) x = some v ∧ width v = 0 := by
  cases v with
  | null => cases some_
  | decimal d =>
    cases t <;> cases kind <;> try exact typed.elim
    rename_i type
    refine ⟨d.unscaled, rfl, ?_, ?_, rfl⟩
    · intro type' same
      cases same
      exact typed.2
    · simp only [Fixed.value, ← typed.1, Decimal.new, dif_pos d.scale_le, dif_pos d.small]
      rfl
  | _ =>
    cases t <;> cases kind <;> first
      | exact typed.elim
      | exact ⟨_, rfl, True.intro, rfl, rfl⟩

theorem carry_var {k : Varwidth} (typed : v.HasScalarType k.type) (some_ : v.isNull = false) :
    ∃ row, k.carry v = some row ∧ k.value row = some v ∧ width v = row.length := by
  cases v with
  | null => cases some_
  | string s =>
    cases k with
    | string => exact ⟨_, rfl, by rw [Varwidth.value, fromUtf8_utf8]; rfl, rfl⟩
    | bytes => exact typed.elim
  | bytes b =>
    cases k with
    | string => exact typed.elim
    | bytes => exact ⟨_, rfl, rfl, rfl⟩
  | _ => cases k <;> exact typed.elim

theorem value_empty (k : Varwidth) : (k.value []).isSome := by
  cases k with
  | string =>
    have empty := fromUtf8_utf8 ""
    rw [Varwidth.value, show ([] : List UInt8) = utf8 "" by decide, empty]
    rfl
  | bytes => rfl

end Slots

namespace Buffer

variable {ty : DataType} {t : ScalarType} {d : Buffer} {v : Value}

/-- A run of bytes put behind the others is one more row. -/
theorem Sound.pushRow {k : Varwidth} {lengths : List Nat} {data row : List UInt8} (whole : data.length = lengths.sum)
    (reads : ∀ row ∈ rowsAt (sums lengths) data, (k.value row).isSome) (read : (k.value row).isSome)
    (room : lengths.sum + row.length < 2 ^ 32) :
    Sound (.scalar k.type) (.var k (sums lengths ++ [lengths.sum + row.length]) (data ++ row)) ∧
      values ty (Buffer.var k (sums lengths ++ [lengths.sum + row.length]) (data ++ row)) =
        values ty (Buffer.var k (sums lengths) data) ++ [k.value row] := by
  have rows := @rowsAt_push _ lengths data row whole
  rw [← sums_push]
  refine ⟨.var ?_ ?_ ?_, ?_⟩
  · simp [whole]
  · simpa using room
  · intro other member
    rw [rows] at member
    rcases List.mem_append.mp member with member | member
    · exact reads other member
    · rwa [List.mem_singleton.mp member]
  · rw [values_var, values_var, rows, List.map_append, List.map_singleton]

theorem pushDefault_ok (sound : Sound ty d) : Sound ty d.pushDefault ∧ (∃ x, values ty d.pushDefault = values ty d ++ [x]) ∧
    d.pushDefault.size = d.size := by
  cases sound with
  | @bool bits whole =>
    refine ⟨.bool (Bitmap.push_whole whole), ⟨some (.bool false), ?_⟩, rfl⟩
    rw [pushDefault, values_bool, values_bool, Bitmap.push_bits whole, List.map_append, List.map_singleton]
  | @fixed t k v kind fits =>
    refine ⟨.fixed kind ?_, ⟨k.value (.scalar t) k.zero, ?_⟩, rfl⟩
    · intro x member
      rcases List.mem_append.mp member with member | member
      · exact fits x member
      · rw [List.mem_singleton.mp member]
        exact zero_fits k
    · rw [pushDefault, values_fixed, values_fixed, List.map_append, List.map_singleton]
  | @var k lengths data whole small reads =>
    obtain ⟨sound, same⟩ := @Sound.pushRow (.scalar k.type) k lengths data [] whole reads (value_empty k) (by simpa using small)
    have empty : pushDefault (.var k (sums lengths) data) =
        .var k (sums lengths ++ [lengths.sum + ([] : List UInt8).length]) (data ++ []) := by
      rw [pushDefault, getLast?_sums, List.append_nil]
      rfl
    rw [empty]
    exact ⟨sound, ⟨_, same⟩, by rw [List.append_nil]; rfl⟩

/-- A value of the type is one more row, while its bytes fit; past `u32::MAX` nothing moves. -/
theorem pushCoerced_ok (sound : Sound (.scalar t) d) (typed : v.HasScalarType t) (some_ : v.isNull = false) :
    (d.size + width v < 2 ^ 32 → ∃ d', d.pushCoerced v = some (d', .ok ()) ∧ Sound (.scalar t) d' ∧
      values (.scalar t) d' = values (.scalar t) d ++ [some v] ∧ d'.size = d.size + width v) ∧
    (2 ^ 32 ≤ d.size + width v → d.pushCoerced v = some (d, .error .tooLarge)) := by
  rcases scalar_cases t with rfl | ⟨k, kind⟩ | ⟨k, rfl⟩
  · obtain ⟨bits, rfl, whole⟩ := sound.inv_bool
    obtain ⟨b, rfl⟩ : ∃ b, v = .bool b := by
      cases v <;> first
        | exact ⟨_, rfl⟩
        | exact typed.elim
        | cases some_
    constructor
    · intro _
      refine ⟨_, rfl, .bool (Bitmap.push_whole whole), ?_, rfl⟩
      rw [values_bool, values_bool, Bitmap.push_bits whole, List.map_append, List.map_singleton]
    · intro past
      simp [size, width] at past
  · obtain ⟨buf, rfl, fits⟩ := sound.inv_fixed kind
    obtain ⟨x, carried, fit, read, none_⟩ := carry_fixed kind typed some_
    constructor
    · intro _
      refine ⟨.fixed k (buf ++ [x]), ?_, .fixed kind ?_, ?_, by rw [none_]; rfl⟩
      · rw [pushCoerced, carried]
        rfl
      · intro y member
        rcases List.mem_append.mp member with member | member
        · exact fits y member
        · rwa [List.mem_singleton.mp member]
      · rw [values_fixed, values_fixed, List.map_append, List.map_singleton, read]
    · intro past
      rw [none_] at past
      simp [size] at past
  · obtain ⟨lengths, data, rfl, whole, small, reads⟩ := sound.inv_var
    obtain ⟨row, carried, read, long⟩ := carry_var typed some_
    constructor
    · intro room
      rw [long] at room
      change data.length + row.length < 2 ^ 32 at room
      have fits : checkedOffset (data.length + row.length) = .ok (data.length + row.length) := if_pos room
      rw [whole] at room
      obtain ⟨sound, same⟩ := @Sound.pushRow (.scalar k.type) k lengths data row whole reads (by rw [read]; rfl) room
      refine ⟨_, ?_, sound, by rw [same, read], ?_⟩
      · rw [pushCoerced, carried, Option.map_some]
        simp only [fits]
        rw [whole]
      · rw [long]
        exact List.length_append
    · intro past
      rw [long] at past
      change 2 ^ 32 ≤ data.length + row.length at past
      have full : checkedOffset (data.length + row.length) = .error .tooLarge := if_neg (Nat.not_lt.mpr past)
      rw [pushCoerced, carried, Option.map_some]
      simp only [full]

end Buffer

namespace Nulled

variable {δ : Type} [LawfulLayout δ] {c : Nulled δ} {data : δ} {x : Option Value}

theorem rows_push (same : values c.ty data = values c.ty c.data ++ [x]) : Layout.rows data = c.len + 1 := by
  rw [← @values_length _ _ c.ty, same, List.length_append, values_length]
  rfl

/-- A row behind the others, its bit set. -/
theorem push_valid (sound : c.Sound) (own : LawfulLayout.Sound c.ty data) (same : values c.ty data = values c.ty c.data ++ [x]) :
    (Nulled.mk c.ty data (c.validity.map (·.push true)) c.nullCount).Sound ∧
      (Nulled.mk c.ty data (c.validity.map (·.push true)) c.nullCount).cells = c.cells ++ [x] := by
  have rows := rows_push same
  have sound' : (Nulled.mk c.ty data (c.validity.map (·.push true)) c.nullCount).Sound := by
    refine ⟨own, ?_, ?_⟩
    · intro bits pushed
      obtain ⟨old, found, rfl⟩ := Option.map_eq_some_iff.mp pushed
      obtain ⟨whole, length⟩ := sound.whole old found
      exact ⟨Bitmap.push_whole whole, by rw [Bitmap.push_len, length]; exact rows.symm⟩
    · rw [sound.nulls]
      cases found : c.validity with
      | none => rfl
      | some old =>
        obtain ⟨whole, length⟩ := sound.whole old found
        rw [Option.map_some, countNulls, countNulls, Option.elim_some, Option.elim_some, Bitmap.countValid_eq whole,
          Bitmap.countValid_eq (Bitmap.push_whole whole), Bitmap.push_bits whole, List.count_append, List.count_singleton_self]
        change _ = Layout.rows data - _
        omega
  refine ⟨sound', ?_⟩
  have bits : (Nulled.mk c.ty data (c.validity.map (·.push true)) c.nullCount).valid = c.valid ++ [true] := by
    unfold valid
    cases found : c.validity with
    | none =>
      rw [Option.map_none, Option.elim_none, Option.elim_none, Nulled.len, rows, List.replicate_succ']
    | some old => exact Bitmap.push_bits (sound.whole old found).1
  rw [sound'.cells_eq, bits, sound.cells_eq, same, List.zipWith_append (by rw [sound.length_valid, values_length]; rfl)]
  rfl

/-- A null row: its bit clear, whatever the buffer has there. -/
theorem push_null (sound : c.Sound) (own : LawfulLayout.Sound c.ty data) (same : values c.ty data = values c.ty c.data ++ [x]) :
    (Nulled.mk c.ty data (some ((c.validity.getD (.newValid c.len)).push false)) (c.nullCount + 1)).Sound ∧
      (Nulled.mk c.ty data (some ((c.validity.getD (.newValid c.len)).push false)) (c.nullCount + 1)).cells = c.cells ++ [some .null] := by
  have rows := rows_push same
  obtain ⟨whole, length, bits⟩ : (c.validity.getD (.newValid c.len)).Whole ∧ (c.validity.getD (.newValid c.len)).len = c.len ∧
      (c.validity.getD (.newValid c.len)).bits = c.valid := by
    unfold valid
    cases found : c.validity with
    | none => exact ⟨Bitmap.newValid_whole _, rfl, Bitmap.newValid_bits _⟩
    | some old => exact ⟨(sound.whole old found).1, (sound.whole old found).2, rfl⟩
  have nulls : c.nullCount = c.len - (c.validity.getD (.newValid c.len)).countValid := by
    rw [sound.nulls]
    cases found : c.validity with
    | none =>
      rw [Option.getD_none, Bitmap.countValid_eq (Bitmap.newValid_whole _), Bitmap.newValid_bits, List.count_replicate_self, Nat.sub_self]
      rfl
    | some old => rfl
  have few := Bitmap.countValid_le whole
  have sound' : (Nulled.mk c.ty data (some ((c.validity.getD (.newValid c.len)).push false)) (c.nullCount + 1)).Sound := by
    refine ⟨own, ?_, ?_⟩
    · intro pushed made
      cases made
      exact ⟨Bitmap.push_whole whole, by rw [Bitmap.push_len, length]; exact rows.symm⟩
    · rw [Bitmap.countValid_eq whole] at nulls few
      rw [countNulls, Option.elim_some, Bitmap.countValid_eq (Bitmap.push_whole whole), Bitmap.push_bits whole, List.count_append]
      change c.nullCount + 1 = Layout.rows data - (_ + 0)
      omega
  refine ⟨sound', ?_⟩
  have bits' : (Nulled.mk c.ty data (some ((c.validity.getD (.newValid c.len)).push false)) (c.nullCount + 1)).valid = c.valid ++ [false] := by
    rw [valid, Option.elim_some, Bitmap.push_bits whole, bits]
  rw [sound'.cells_eq, bits', sound.cells_eq, same, List.zipWith_append (by rw [sound.length_valid, values_length]; rfl)]
  rfl

end Nulled

namespace BuilderOf

section Whole

variable {β δ : Type} [Building β δ] [LawfulLayout δ] {b : BuilderOf β} {d : β} {x : Option Value}

/-- What is built so far is a column of as many rows as were counted. -/
structure Whole (b : BuilderOf β) : Prop where
  sound : b.finish.Sound
  len : b.len = b.finish.len

/-- A row's data is in. -/
def stored (b : BuilderOf β) (d : β) : BuilderOf β := { b with data := d, validity := b.validity.map (·.push true), len := b.len + 1 }

theorem Whole.stored (whole : b.Whole) (own : LawfulLayout.Sound b.ty (Building.finish d))
    (same : values b.ty (Building.finish d) = values b.ty (Building.finish b.data) ++ [x]) :
    (b.stored d).Whole ∧ (b.stored d).finish.cells = b.finish.cells ++ [x] := by
  obtain ⟨sound, cells⟩ := Nulled.push_valid whole.sound own same
  refine ⟨⟨sound, ?_⟩, cells⟩
  have count := @Nulled.rows_push _ _ b.finish _ _ same
  change b.len + 1 = Layout.rows (Building.finish d)
  rw [count, whole.len]

theorem Whole.pushNull (whole : b.Whole) (own : LawfulLayout.Sound b.ty (Building.finish (Building.pushDefault b.data)))
    (same : values b.ty (Building.finish (Building.pushDefault b.data)) = values b.ty (Building.finish b.data) ++ [x]) :
    b.pushNull.Whole ∧ b.pushNull.finish.cells = b.finish.cells ++ [some .null] := by
  obtain ⟨sound, cells⟩ := Nulled.push_null whole.sound own same
  rw [← whole.len] at sound cells
  refine ⟨⟨sound, ?_⟩, cells⟩
  have count := @Nulled.rows_push _ _ b.finish _ _ same
  change b.len + 1 = Layout.rows (Building.finish (Building.pushDefault b.data))
  rw [count, whole.len]

theorem Whole.length_cells (whole : b.Whole) : b.finish.cells.length = b.len := by rw [Nulled.length_cells, whole.len]

omit [LawfulLayout δ] in
theorem pushCoerced_ok {v : Value} (done : Building.pushCoerced b.data v = some (d, .ok ())) : b.pushCoerced v = some (b.stored d, .ok ()) := by
  rw [pushCoerced, done]
  rfl

omit [LawfulLayout δ] in
theorem pushCoerced_refused {v : Value} {e : ColumnError} (done : Building.pushCoerced b.data v = some (d, .error e)) :
    b.pushCoerced v = some ({ b with data := d }, .error e) := by
  rw [pushCoerced, done]
  rfl

end Whole

section Items

variable {b : BuilderOf Buffer} {t : ScalarType} {item : Value} {items : List Value}

theorem Whole.size_lt (whole : b.Whole) : b.data.size < 2 ^ 32 := by
  have own : Buffer.Sound b.ty b.data := whole.sound.data
  cases found : b.data with
  | var k offsets data =>
    rw [found] at own
    generalize b.ty = ty at own
    cases own with
    | var length small _ =>
      rw [Buffer.size, length]
      exact small
  | _ => exact Nat.two_pow_pos 32

/-- One element: its row, or nothing moved. -/
theorem Whole.pushItem (whole : b.Whole) (ty : b.ty = .scalar t) (typed : item.HasScalarType t) :
    (b.data.size + width item < 2 ^ 32 → ∃ b' : BuilderOf Buffer,
      (if item.isNull then some (b.pushNull, .ok ()) else b.pushCoerced item) = some (b', .ok ()) ∧ b'.Whole ∧ b'.ty = b.ty ∧
        b'.finish.cells = b.finish.cells ++ [some item] ∧ b'.data.size = b.data.size + width item) ∧
    (2 ^ 32 ≤ b.data.size + width item →
      (if item.isNull then some (b.pushNull, .ok ()) else b.pushCoerced item) = some (b, .error .tooLarge)) := by
  have own : Buffer.Sound (.scalar t) b.data := ty ▸ whole.sound.data
  cases null : item.isNull with
  | true =>
    obtain rfl : item = .null := by
      cases item <;> first
        | rfl
        | cases null
    constructor
    · intro _
      obtain ⟨sound, ⟨x, same⟩, size⟩ := Buffer.pushDefault_ok own
      rw [← ty] at sound same
      obtain ⟨whole', cells⟩ := whole.pushNull sound same
      exact ⟨_, if_pos rfl, whole', rfl, cells, size⟩
    · intro past
      have := whole.size_lt
      simp only [width] at past
      omega
  | false =>
    obtain ⟨fits, full⟩ := Buffer.pushCoerced_ok own typed null
    constructor
    · intro room
      obtain ⟨d, done, sound, same, size⟩ := fits room
      rw [← ty] at sound same
      obtain ⟨whole', cells⟩ := whole.stored sound same
      exact ⟨_, by rw [if_neg (by decide)]; exact pushCoerced_ok done, whole', rfl, cells, size⟩
    · intro past
      rw [if_neg (by decide)]
      exact pushCoerced_refused (full past)

/-- Where the first element does not fit, none moved. -/
theorem Whole.pushItems_first (whole : b.Whole) (ty : b.ty = .scalar t) (typed : item.HasScalarType t)
    (past : 2 ^ 32 ≤ b.data.size + width item) : b.pushItems (item :: items) = some (b, .error .tooLarge) := by
  rw [pushItems, (whole.pushItem ty typed).2 past]
  rfl

theorem Whole.pushItems_ok (whole : b.Whole) (ty : b.ty = .scalar t) (typed : ∀ item ∈ items, item.HasScalarType t)
    (room : b.data.size + (items.map width).sum < 2 ^ 32) : ∃ b', b.pushItems items = some (b', .ok ()) ∧ b'.Whole ∧ b'.ty = b.ty ∧
      b'.finish.cells = b.finish.cells ++ items.map some ∧ b'.data.size = b.data.size + (items.map width).sum := by
  induction items generalizing b with
  | nil => exact ⟨b, rfl, whole, rfl, by rw [List.map_nil, List.append_nil], rfl⟩
  | cons item items ih =>
    have total : ((item :: items).map width).sum = width item + (items.map width).sum := by rw [List.map_cons, List.sum_cons]
    rw [total] at room ⊢
    obtain ⟨b', first, whole', ty', cells, size⟩ := (whole.pushItem ty (typed item (.head _))).1 (by omega)
    obtain ⟨b'', rest, whole'', ty'', cells', size'⟩ := ih whole' (ty'.trans ty) (fun item member => typed item (.tail _ member))
      (by rw [size]; omega)
    refine ⟨b'', ?_, whole'', ty''.trans ty', ?_, by omega⟩
    · rw [pushItems, first]
      exact rest
    · rw [cells', cells, List.append_assoc]
      rfl

/-- Where the bytes of all are too many, those before the first that overflows are in. -/
theorem Whole.pushItems_full (whole : b.Whole) (ty : b.ty = .scalar t) (typed : ∀ item ∈ items, item.HasScalarType t)
    (past : 2 ^ 32 ≤ b.data.size + (items.map width).sum) : ∃ b' k, b.pushItems items = some (b', .error .tooLarge) ∧ b'.Whole ∧
      b'.ty = b.ty ∧ b'.finish.cells = b.finish.cells ++ (items.take k).map some := by
  induction items generalizing b with
  | nil =>
    have := whole.size_lt
    simp at past
    omega
  | cons item items ih =>
    rw [List.map_cons, List.sum_cons] at past
    by_cases fits : b.data.size + width item < 2 ^ 32
    · obtain ⟨b', first, whole', ty', cells, size⟩ := (whole.pushItem ty (typed item (.head _))).1 fits
      obtain ⟨b'', k, rest, whole'', ty'', cells'⟩ := ih whole' (ty'.trans ty) (fun item member => typed item (.tail _ member))
        (by rw [size]; omega)
      refine ⟨b'', k + 1, ?_, whole'', ty''.trans ty', ?_⟩
      · rw [pushItems, first]
        exact rest
      · rw [cells', cells, List.append_assoc]
        rfl
    · exact ⟨b, 0, whole.pushItems_first ty (typed item (.head _)) (Nat.le_of_not_lt fits), whole, rfl, (List.append_nil _).symm⟩

end Items

end BuilderOf

section Lists

/-- Bytes in the STRING or BYTES buffer, a LIST's child's. -/
def BuilderData.size : BuilderData → Nat
  | .flat buffer => buffer.size
  | .list _ child => child.data.size

/-- Elements in a LIST's child. -/
def BuilderData.elements : BuilderData → Nat
  | .flat _ => 0
  | .list _ child => child.len

def bytesOf : Value → Nat
  | .list items => (items.map width).sum
  | v => width v

def elementsOf : Value → Nat
  | .list items => items.length
  | _ => 0

/-- Every offset the value needs is a `u32`. -/
def BuilderData.Room (d : BuilderData) (v : Value) : Prop := d.elements + elementsOf v < 2 ^ 32 ∧ d.size + bytesOf v < 2 ^ 32

/-- A LIST is refused for its bytes once elements of it are in. -/
inductive BuilderData.Midway : BuilderData → Value → Prop
  | list {offsets : List Nat} {child : BuilderOf Buffer} {item : Value} {items : List Value} (room : child.len + (items.length + 1) < 2 ^ 32)
      (first : child.data.size + width item < 2 ^ 32) (past : 2 ^ 32 ≤ child.data.size + ((item :: items).map width).sum) :
      Midway (.list offsets child) (.list (item :: items))

/-- A LIST's child is a column too. -/
def BuilderData.ChildWhole : BuilderData → Prop
  | .flat _ => True
  | .list _ child => child.Whole

variable {ty : DataType} {d : BuilderData} {v : Value}

theorem BuilderData.pushDefault_ok (sound : ColumnData.Sound ty (Building.finish d)) (child : d.ChildWhole) :
    ColumnData.Sound ty (Building.finish (Building.pushDefault d)) ∧ (Building.pushDefault d).ChildWhole ∧
      ∃ x, values ty (Building.finish (Building.pushDefault d)) = values ty (Building.finish d) ++ [x] := by
  cases d with
  | flat buffer =>
    cases sound with
    | flat own =>
      obtain ⟨sound, same, _⟩ := Buffer.pushDefault_ok own
      exact ⟨.flat sound, True.intro, same⟩
  | list offsets values_ =>
    change ColumnData.Sound ty (.list offsets values_.finish) at sound
    generalize same : ColumnData.list offsets values_.finish = data at sound
    cases sound with
    | flat own => cases same
    | @list t lengths built own typed count small =>
      cases same
      have again : Building.pushDefault (BuilderData.list (sums lengths) values_) = .list (sums (lengths ++ [0])) values_ := by
        rw [sums_push]
        simp [Building.pushDefault, getLast?_sums]
      have total : values_.finish.len = (lengths ++ [0]).sum := by simpa using count
      have rows := @rowsAt_push _ lengths values_.finish.cells [] (by rw [Nulled.length_cells, count])
      rw [List.append_nil, List.length_nil] at rows
      rw [again]
      refine ⟨.list own typed total (by simpa using small), child, ColumnData.listOf [], ?_⟩
      change values (.list t) (ColumnData.list (sums (lengths ++ [0])) values_.finish) = values (.list t) (ColumnData.list (sums lengths) values_.finish) ++ _
      rw [ColumnData.values_list total.ge, ColumnData.values_list count.ge, rows, List.map_append, List.map_singleton]

theorem listOf_some (items : List Value) : ColumnData.listOf (items.map some) = some (.list items) := by
  have all : (items.map some).mapM id = some items := by
    induction items with
    | nil => rfl
    | cons item items ih =>
      rw [List.map_cons, List.mapM_cons, ih]
      rfl
  rw [ColumnData.listOf, all]
  rfl

theorem bytesOf_scalar {t : ScalarType} (typed : v.HasScalarType t) : bytesOf v = width v ∧ elementsOf v = 0 := by
  cases v with
  | list items => cases t <;> exact typed.elim
  | _ => exact ⟨rfl, rfl⟩

theorem BuilderData.elements_lt (sound : ColumnData.Sound ty (Building.finish d)) (child : d.ChildWhole) : d.elements < 2 ^ 32 := by
  cases d with
  | flat buffer => exact Nat.two_pow_pos 32
  | list offsets values_ =>
    change ColumnData.Sound ty (.list offsets values_.finish) at sound
    generalize same : ColumnData.list offsets values_.finish = data at sound
    cases sound with
    | flat own => cases same
    | list own typed count small =>
      cases same
      change values_.len < 2 ^ 32
      rw [child.len, count]
      exact small

/-- A value of the type is one more row while its offsets are `u32`. Past that nothing moves, a LIST's child apart. -/
theorem BuilderData.pushCoerced_ok (sound : ColumnData.Sound ty (Building.finish d)) (child : d.ChildWhole) (typed : v.HasType ty)
    (some_ : v.isNull = false) :
    (d.Room v → ∃ d', Building.pushCoerced d v = some (d', .ok ()) ∧ ColumnData.Sound ty (Building.finish d') ∧ d'.ChildWhole ∧
      values ty (Building.finish d') = values ty (Building.finish d) ++ [some v] ∧ d'.size = d.size + bytesOf v ∧
      d'.elements = d.elements + elementsOf v) ∧
    (¬d.Room v → ∃ d', Building.pushCoerced d v = some (d', .error .tooLarge) ∧ (¬d.Midway v → d' = d) ∧
      values ty (Building.finish d') = values ty (Building.finish d)) := by
  cases d with
  | flat buffer =>
    change ColumnData.Sound ty (.flat buffer) at sound
    cases ty with
    | list t =>
      obtain ⟨_, _, same, _⟩ := sound.inv_list
      cases same
    | scalar t =>
      obtain ⟨_, same, own⟩ := sound.inv_flat
      cases same
      obtain ⟨fits, full⟩ := Buffer.pushCoerced_ok own typed some_
      obtain ⟨bytes, none_⟩ := bytesOf_scalar typed
      constructor
      · rintro ⟨_, room⟩
        rw [bytes] at room
        obtain ⟨d', done, sound, same, size⟩ := fits room
        refine ⟨.flat d', ?_, .flat sound, True.intro, same, by rw [bytes]; exact size, by rw [none_]; rfl⟩
        change (buffer.pushCoerced v).map _ = _
        rw [done]
        rfl
      · intro over_
        refine ⟨.flat buffer, ?_, fun _ => rfl, rfl⟩
        have past : 2 ^ 32 ≤ buffer.size + width v := by
          apply Nat.le_of_not_lt
          intro room
          apply over_
          refine ⟨?_, by rw [bytes]; exact room⟩
          rw [none_]
          exact Nat.two_pow_pos 32
        change (buffer.pushCoerced v).map _ = _
        rw [full past]
        rfl
  | list offsets values_ =>
    change ColumnData.Sound ty (.list offsets values_.finish) at sound
    change values_.Whole at child
    generalize same : ColumnData.list offsets values_.finish = data at sound
    cases sound with
    | flat own => cases same
    | @list t lengths built own childTy count small =>
    cases same
    obtain ⟨items, rfl⟩ : ∃ items, v = .list items := by
      cases v <;> first
        | exact ⟨_, rfl⟩
        | exact typed.elim
        | cases some_
    have whole : values_.finish.cells.length = lengths.sum := by rw [Nulled.length_cells, count]
    have length : values_.len = lengths.sum := by rw [child.len, count]
    constructor
    · rintro ⟨few, room⟩
      change values_.len + items.length < 2 ^ 32 at few
      obtain ⟨child', done, child_ok, ty', cells, size⟩ := child.pushItems_ok childTy typed room
      have grown : child'.len = values_.len + items.length := by
        rw [← child_ok.length_cells, cells, List.length_append, child.length_cells, List.length_map]
      have total : child'.finish.len = (lengths ++ [items.length]).sum := by
        rw [← child_ok.len, grown, length, List.sum_append, List.sum_singleton]
      have checked : checkedOffset (values_.len + items.length) = .ok (values_.len + items.length) := if_pos few
      have pushed : sums lengths ++ [values_.len + items.length] = sums (lengths ++ [items.length]) := by rw [sums_push, length]
      have rows := @rowsAt_push _ lengths values_.finish.cells (items.map some) whole
      rw [List.length_map] at rows
      refine ⟨.list (sums (lengths ++ [items.length])) child', ?_, .list child_ok.sound (ty'.trans childTy) total ?_, child_ok, ?_, size, grown⟩
      · change BuilderData.pushList (sums lengths) values_ items = _
        rw [BuilderData.pushList, checked]
        simp only [done, Option.map_some, grown, checked]
        rw [pushed]
      · rw [← total, ← child_ok.len, grown]
        exact few
      · change values (.list t) (ColumnData.list (sums (lengths ++ [items.length])) child'.finish) =
          values (.list t) (ColumnData.list (sums lengths) values_.finish) ++ _
        rw [ColumnData.values_list total.ge, ColumnData.values_list count.ge, cells, rows, List.map_append, List.map_singleton,
          listOf_some]
    · intro over_
      by_cases few : values_.len + items.length < 2 ^ 32
      · have past : 2 ^ 32 ≤ values_.data.size + (items.map width).sum := by
          apply Nat.le_of_not_lt
          intro room
          exact over_ ⟨few, room⟩
        have checked : checkedOffset (values_.len + items.length) = .ok (values_.len + items.length) := if_pos few
        obtain ⟨child', k, done, child_ok, ty', cells⟩ := child.pushItems_full childTy typed past
        refine ⟨.list (sums lengths) child', ?_, ?_, ?_⟩
        · change BuilderData.pushList (sums lengths) values_ items = _
          rw [BuilderData.pushList, checked]
          simp only [done, Option.map_some]
        · intro start
          cases items with
          | nil =>
            have := child.size_lt
            simp at past
            omega
          | cons item items =>
            have first : 2 ^ 32 ≤ values_.data.size + width item := by
              apply Nat.le_of_not_lt
              intro room
              exact start (.list few room past)
            rw [child.pushItems_first childTy (typed item (.head _)) first] at done
            cases done
            rfl
        · have rows := @rowsAt_append _ lengths [] values_.finish.cells ((items.take k).map some) whole
          have empty : rowsAt (sums []) ((items.take k).map some) = [] := rfl
          rw [List.append_nil, empty, List.append_nil] at rows
          have reach : lengths.sum ≤ child'.finish.len := by
            rw [← Nulled.length_cells, cells, List.length_append, whole]
            exact Nat.le_add_right _ _
          change values (.list t) (ColumnData.list (sums lengths) child'.finish) = values (.list t) (ColumnData.list (sums lengths) values_.finish)
          rw [ColumnData.values_list reach, ColumnData.values_list count.ge, cells, rows]
      · have checked : checkedOffset (values_.len + items.length) = .error .tooLarge := if_neg few
        refine ⟨.list (sums lengths) values_, ?_, fun _ => rfl, rfl⟩
        change BuilderData.pushList (sums lengths) values_ items = _
        rw [BuilderData.pushList, checked]

end Lists

section Present

variable {v w : Value}

theorem coerceScalar_present {t : ScalarType} (fits : coerceScalar v t = some w) (present : v.isNull = false) : w.isNull = false := by
  cases w with
  | null =>
    cases v <;> cases t <;>
      simp only [coerceScalar, intToDecimal, dateToTimestamp, Option.map_eq_some_iff, reduceCtorEq, and_false, exists_false, Option.some.injEq] at fits <;>
      first
        | (split at fits
           · split at fits
             · cases fits
             · obtain ⟨_, _, same⟩ := Option.map_eq_some_iff.mp fits
               cases same
           · cases fits)
        | (split at fits <;> cases fits)
        | cases present
  | _ => rfl

/-- Only a null is stored as null. -/
theorem coerce_present {ty : DataType} (fits : coerce v ty = some w) (present : v.isNull = false) : w.isNull = false := by
  cases ty with
  | scalar t => exact coerceScalar_present fits present
  | list t =>
    cases v with
    | null => cases present
    | list items =>
      obtain ⟨_, _, rfl⟩ := Option.map_eq_some_iff.mp fits
      rfl
    | _ => cases fits

end Present

section Runs

variable {ty : DataType} {rows : List Value} {b b' : ColumnBuilder} {v : Value} {e : ColumnError}

theorem Buffer.new_ok (t : ScalarType) : Buffer.Sound (.scalar t) (.new t) ∧ (Buffer.new t).rows = 0 := by
  rcases scalar_cases t with rfl | ⟨k, kind⟩ | ⟨k, rfl⟩
  · exact ⟨.bool (Bitmap.newValid_whole 0), rfl⟩
  · have empty : Buffer.new t = .fixed k [] := by cases t <;> cases kind <;> rfl
    rw [empty]
    exact ⟨.fixed kind (by simp), rfl⟩
  · have empty : Buffer.new k.type = .var k (sums []) [] := by cases k <;> rfl
    rw [empty]
    exact ⟨.var rfl (Nat.two_pow_pos 32) (by simp [rowsAt]), rfl⟩

theorem new_whole {β δ : Type} [Building β δ] [LawfulLayout δ] (sound : LawfulLayout.Sound ty (Building.finish (Building.new ty : β)))
    (empty : Layout.rows (Building.finish (Building.new ty : β)) = 0) : (BuilderOf.new ty : BuilderOf β).Whole := by
  refine ⟨⟨sound, ?_, rfl⟩, empty.symm⟩
  intro bits found
  cases found

namespace ColumnBuilder

/-- The rows a builder has, and that its child, if any, is a column too. -/
structure Tracks (b : ColumnBuilder) (rows : List Value) : Prop where
  whole : b.Whole
  child : b.data.ChildWhole
  cells : b.finish.cells = rows.map some

/-- A LIST is refused with elements of it already in the child. -/
def Midway (b : ColumnBuilder) (v : Value) : Prop := ∃ coerced, coerce v b.ty = some coerced ∧ b.data.Midway coerced

theorem new_tracks (ty : DataType) : Tracks (.new ty) [] := by
  obtain ⟨whole, child⟩ : (BuilderOf.new ty : ColumnBuilder).Whole ∧ (BuilderOf.new ty : ColumnBuilder).data.ChildWhole := by
    cases ty with
    | scalar t =>
      obtain ⟨sound, empty⟩ := Buffer.new_ok t
      exact ⟨new_whole (.flat sound) empty, True.intro⟩
    | list t =>
      obtain ⟨sound, empty⟩ := Buffer.new_ok t
      have child : (BuilderOf.new (.scalar t) : BuilderOf Buffer).Whole := new_whole sound empty
      exact ⟨new_whole (@ColumnData.Sound.list t [] _ child.sound rfl empty (Nat.two_pow_pos 32)) rfl, child⟩
  refine ⟨whole, child, ?_⟩
  have none_ := whole.length_cells
  exact List.eq_nil_of_length_eq_zero none_

theorem Tracks.pushNull (tracks : Tracks b rows) : Tracks b.pushNull (rows ++ [.null]) := by
  obtain ⟨sound, child, x, same⟩ := BuilderData.pushDefault_ok tracks.whole.sound.data tracks.child
  obtain ⟨whole, cells⟩ := tracks.whole.pushNull sound same
  exact ⟨whole, child, by rw [cells, tracks.cells, List.map_append, List.map_singleton]⟩

theorem Tracks.length (tracks : Tracks b rows) : b.len = rows.length := by
  rw [← tracks.whole.length_cells, tracks.cells, List.length_map]

/-- Other data of the same rows reads the same. -/
theorem cells_congr {data : BuilderData} (same : values b.ty (Building.finish data) = values b.ty (Building.finish b.data)) :
    ({ b with data } : ColumnBuilder).finish.cells = b.finish.cells := by
  have rows : Layout.rows (Building.finish data) = Layout.rows (Building.finish b.data) := by
    rw [← @values_length _ _ b.ty, same, values_length]
  unfold Nulled.cells
  change (List.range (Layout.rows (Building.finish data))).map _ = _
  rw [rows]
  apply List.map_congr_left
  intro i inside
  have below : i < Layout.rows (Building.finish b.data) := List.mem_range.mp inside
  have value : Layout.value b.ty (Building.finish data) i = Layout.value b.ty (Building.finish b.data) i := by
    have each := congrArg (·[i]?) same
    simpa [values, rows, below] using each
  change (if Layout.rows (Building.finish data) ≤ i then none else _) = if Layout.rows (Building.finish b.data) ≤ i then none else _
  rw [rows]
  change (if _ then none else if _ then some Value.null else Layout.value b.ty (Building.finish data) i) = _
  rw [value]
  rfl

/-- A push stores its coerced value behind the rows there are, or is refused and leaves all as it was, the child of a LIST refused
    midway apart. -/
theorem Tracks.push (tracks : Tracks b rows) (v : Value) : ∃ b' r, b.push v = some (b', r) ∧
    (r = .ok () → ∃ coerced, coerce v b.ty = some coerced ∧ b'.ty = b.ty ∧ Tracks b' (rows ++ [coerced])) ∧
    (∀ e, r = .error e → (¬Midway b v → b' = b) ∧ b'.len = b.len ∧ b'.finish.cells = b.finish.cells) := by
  unfold BuilderOf.push
  cases null : v.isNull with
  | true =>
    obtain rfl : v = .null := by
      cases v <;> first
        | rfl
        | cases null
    refine ⟨_, _, if_pos rfl, fun _ => ⟨.null, ?_, rfl, tracks.pushNull⟩, fun e refused => by cases refused⟩
    cases b.ty <;> rfl
  | false =>
    rw [if_neg (by decide)]
    cases fits : coerce v b.ty with
    | none =>
      refine ⟨b, _, rfl, fun done => (by cases done), ?_⟩
      intro e refused
      exact ⟨fun _ => rfl, rfl, rfl⟩
    | some coerced =>
      have typed := coerce_type fits
      have present : coerced.isNull = false := coerce_present fits null
      obtain ⟨stored, full⟩ := BuilderData.pushCoerced_ok tracks.whole.sound.data tracks.child typed present
      by_cases room : b.data.Room coerced
      · obtain ⟨d', done, sound, child, same, _⟩ := stored room
        obtain ⟨whole, cells⟩ := tracks.whole.stored sound same
        refine ⟨_, _, BuilderOf.pushCoerced_ok done, fun _ => ⟨coerced, rfl, rfl, whole, child, ?_⟩, fun e refused => by cases refused⟩
        rw [cells, tracks.cells, List.map_append, List.map_singleton]
      · obtain ⟨d', done, kept, same⟩ := full room
        refine ⟨_, _, BuilderOf.pushCoerced_refused done, fun done => (by cases done), ?_⟩
        intro e _
        refine ⟨?_, rfl, cells_congr same⟩
        intro whole
        have unmoved : d' = b.data := kept fun midway => whole ⟨coerced, fits, midway⟩
        rw [unmoved]

/-- A builder after calls of which none was refused midway, and the rows of those that succeeded. -/
inductive Built (ty : DataType) : List Value → ColumnBuilder → Prop
  | new : Built ty [] (.new ty)
  | pushNull {rows : List Value} {b : ColumnBuilder} (built : Built ty rows b) : Built ty (rows ++ [.null]) b.pushNull
  | push {rows : List Value} {b b' : ColumnBuilder} {v coerced : Value} (built : Built ty rows b) (fits : coerce v ty = some coerced) (done : b.push v = some (b', .ok ())) :
      Built ty (rows ++ [coerced]) b'
  | refused {rows : List Value} {b b' : ColumnBuilder} {v : Value} {e : ColumnError} (built : Built ty rows b) (done : b.push v = some (b', .error e)) (whole : ¬Midway b v) :
      Built ty rows b'

theorem Built.tracks (built : Built ty rows b) : b.ty = ty ∧ Tracks b rows := by
  induction built with
  | new => exact ⟨rfl, new_tracks ty⟩
  | pushNull _ ih => exact ⟨ih.1, ih.2.pushNull⟩
  | @push rows b b' v coerced _ fits done ih =>
    obtain ⟨_, _, made, stored, _⟩ := ih.2.push v
    rw [done] at made
    cases made
    obtain ⟨coerced', fits', same, tracks⟩ := stored rfl
    rw [ih.1, fits] at fits'
    cases fits'
    exact ⟨same.trans ih.1, tracks⟩
  | @refused rows b b' v e _ done whole ih =>
    obtain ⟨_, _, made, _, kept⟩ := ih.2.push v
    rw [done] at made
    cases made
    rw [(kept e rfl).1 whole]
    exact ih

/-- Every push stores the coerced value as the next row or is refused and leaves the builder as it was; one refused midway keeps the
    rows there are. What is built is a column of one row a call that succeeded. -/
theorem push_atomic (built : Built ty rows b) :
    (b.finish.Sound ∧ b.finish.len = rows.length ∧ b.len = rows.length ∧ b.finish.cells = rows.map some) ∧
    b.pushNull.finish.cells = b.finish.cells ++ [some .null] ∧
    ∀ v, ∃ b' r, b.push v = some (b', r) ∧
      (r = .ok () → ∃ coerced, coerce v ty = some coerced ∧ b'.finish.cells = b.finish.cells ++ [some coerced]) ∧
      (∀ e, r = .error e → (¬Midway b v → b' = b) ∧ b'.len = b.len ∧ b'.finish.cells = b.finish.cells) := by
  obtain ⟨same, tracks⟩ := built.tracks
  refine ⟨⟨tracks.whole.sound, ?_, tracks.length, tracks.cells⟩, ?_, ?_⟩
  · rw [← tracks.whole.len, tracks.length]
  · rw [tracks.pushNull.cells, tracks.cells, List.map_append, List.map_singleton]
  · intro v
    obtain ⟨b', r, done, stored, refused⟩ := tracks.push v
    refine ⟨b', r, done, ?_, refused⟩
    intro ok
    obtain ⟨coerced, fits, _, tracks'⟩ := stored ok
    exact ⟨coerced, same ▸ fits, by rw [tracks'.cells, tracks.cells, List.map_append, List.map_singleton]⟩

theorem push_atomic_null : (BuilderOf.new (.list .string) : ColumnBuilder).pushNull.finish.cells = [some .null] :=
  (push_atomic (.pushNull .new)).1.2.2.2

/-- A BYTES list whose second element is too long leaves the first behind. -/
theorem push_midway {n : Nat} (many : 2 ^ 32 ≤ n) : ∃ b' b'' : ColumnBuilder,
    (BuilderOf.new (.list .bytes) : ColumnBuilder).push (.list [.bytes [], .bytes (List.replicate n 0)]) = some (b', .error .tooLarge) ∧
      b' ≠ .new (.list .bytes) ∧ b'.push (.list []) = some (b'', .ok ()) ∧ b''.finish.get 0 = some (.list [.bytes []]) := by
  have full : checkedOffset (0 + (List.replicate n (0 : UInt8)).length) = .error .tooLarge := by
    rw [List.length_replicate]
    exact if_neg (by omega)
  generalize List.replicate n (0 : UInt8) = row at full
  let child : BuilderOf Buffer := ⟨.scalar .bytes, .var .bytes [0, 0] [], none, 0, 1⟩
  let b' : ColumnBuilder := ⟨.list .bytes, .list [0] child, none, 0, 0⟩
  let b'' : ColumnBuilder := ⟨.list .bytes, .list [0, 1] child, none, 0, 1⟩
  have second : child.pushItems [.bytes row] = some (child, .error .tooLarge) := by
    apply Eq.trans (b := Called.andThen (child.pushCoerced (.bytes row)) fun b => b.pushItems []) rfl
    rw [@BuilderOf.pushCoerced_refused _ _ _ child child.data _ .tooLarge]
    · rfl
    · change (some _).map _ = _
      rw [Option.map_some]
      simp only [child, List.length_nil, full]
  refine ⟨b', b'', ?_, ?_, rfl, rfl⟩
  · have items : (BuilderOf.new (.scalar .bytes) : BuilderOf Buffer).pushItems [.bytes [], .bytes row] = some (child, .error .tooLarge) :=
      Eq.trans (b := child.pushItems [.bytes row]) rfl second
    have room : checkedOffset ((BuilderOf.new (.scalar .bytes) : BuilderOf Buffer).len + [Value.bytes [], .bytes row].length) = .ok 2 :=
      if_pos (show 0 + 2 < 2 ^ 32 by decide)
    have data : Building.pushCoerced (Building.new (.list .bytes) : BuilderData) (.list [.bytes [], .bytes row]) =
        some (.list [0] child, .error .tooLarge) := by
      change BuilderData.pushList [0] (BuilderOf.new (.scalar .bytes)) [.bytes [], .bytes row] = _
      rw [BuilderData.pushList, room]
      simp only [items, Option.map_some]
    exact BuilderOf.pushCoerced_refused data
  · intro same
    have length := congrArg (fun b : ColumnBuilder => b.data.elements) same
    cases length

theorem refused_push_moves : ∃ b' b'' : ColumnBuilder,
    (BuilderOf.new (.list .bytes) : ColumnBuilder).push (.list [.bytes [], .bytes (List.replicate (2 ^ 32) 0)]) = some (b', .error .tooLarge) ∧
      b' ≠ .new (.list .bytes) ∧ b'.push (.list []) = some (b'', .ok ()) ∧ b''.finish.get 0 = some (.list [.bytes []]) :=
  push_midway (Nat.le_refl _)

end ColumnBuilder

end Runs

end Physical

end Adelie
