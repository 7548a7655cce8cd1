import Adelie.Exec.Physical

namespace Adelie

namespace Physical

section Offsets

variable {lengths more : List Nat} {offsets : List Nat}

theorem rebaseOffsets_sums {start len : Nat} (inside : start + len ≤ lengths.length) :
    rebaseOffsets (sums lengths) start len = sums ((lengths.drop start).take len) := by
  rw [rebaseOffsets, getD_sums (by omega)]
  exact sums_slice inside

theorem mapM_checkedOffset {base : Nat} {l out : List Nat} :
    l.mapM (fun off => checkedOffset (base + off)) = .ok out ↔ out = l.map (base + ·) ∧ ∀ off ∈ l, base + off < 2 ^ 32 := by
  induction l generalizing out with
  | nil =>
    rw [List.mapM_nil]
    constructor
    · intro made
      cases made
      exact ⟨rfl, by simp⟩
    · rintro ⟨rfl, _⟩
      rfl
  | cons off l ih =>
    rw [List.mapM_cons]
    by_cases fits : base + off < 2 ^ 32
    · have first : checkedOffset (base + off) = .ok (base + off) := if_pos fits
      rw [first]
      constructor
      · intro made
        obtain ⟨_, head, made⟩ := Except.bind_eq_ok.mp made
        obtain ⟨rest, others, made⟩ := Except.bind_eq_ok.mp made
        cases head
        cases made
        obtain ⟨rfl, small⟩ := ih.mp others
        exact ⟨rfl, by simpa using ⟨fits, small⟩⟩
      · rintro ⟨rfl, small⟩
        have others := ih.mpr ⟨rfl, fun o inside => small o (.tail _ inside)⟩
        exact Except.bind_eq_ok.mpr ⟨_, rfl, Except.bind_eq_ok.mpr ⟨_, others, rfl⟩⟩
    · have first : checkedOffset (base + off) = .error .tooLarge := if_neg fits
      rw [first]
      constructor
      · rintro ⟨⟩
      · rintro ⟨_, small⟩
        exact absurd (small off (.head _)) fits

/-- Appending keeps the offsets those of the rows, as long as the last of them is a `u32`. -/
theorem appendOffsets_sums {out : List Nat} : appendOffsets (sums lengths) (sums more) = .ok out ↔
    out = sums (lengths ++ more) ∧ (more = [] ∨ (lengths ++ more).sum < 2 ^ 32) := by
  have bound : (∀ off ∈ (sums more).tail, lengths.sum + off < 2 ^ 32) ↔ more = [] ∨ (lengths ++ more).sum < 2 ^ 32 := by
    rw [List.sum_append]
    constructor
    · intro small
      by_cases none_ : more = []
      · exact .inl none_
      · right
        apply small
        have positive : more.length ≠ 0 := by simpa using none_
        rw [List.mem_iff_getElem]
        refine ⟨more.length - 1, by simp; omega, ?_⟩
        rw [List.getElem_tail]
        simp only [sums, List.getElem_map, List.getElem_range]
        rw [Nat.sub_add_cancel (by omega), List.take_length]
    · rintro (rfl | fits) off inside
      · cases inside
      · have found := List.mem_of_mem_tail inside
        simp only [sums, List.mem_map] at found
        obtain ⟨i, _, rfl⟩ := found
        have := sum_take_le more i
        omega
  rw [appendOffsets, getLast?_sums, Option.getD_some, sums_append, ← bound]
  constructor
  · intro made
    obtain ⟨rest, others, made⟩ := Except.bind_eq_ok.mp made
    cases made
    obtain ⟨rfl, small⟩ := mapM_checkedOffset.mp others
    exact ⟨rfl, small⟩
  · rintro ⟨rfl, small⟩
    exact Except.bind_eq_ok.mpr ⟨_, mapM_checkedOffset.mpr ⟨rfl, small⟩, rfl⟩

end Offsets

/-- Every row of data, as its column would read it were it valid. -/
def values {δ : Type} [Layout δ] (ty : DataType) (d : δ) : List (Option Value) :=
  (List.range (Layout.rows d)).map (Layout.value ty d)

/-- Data that a column of a type may hold, and what slicing and concatenation do with it. -/
class LawfulLayout (δ : Type) extends Layout δ where
  Sound : DataType → δ → Prop
  slice_ok : ∀ {ty d start len}, Sound ty d → start + len ≤ Layout.rows d →
    ∃ d', Layout.slice d start len = some d' ∧ Sound ty d' ∧ values ty d' = ((values ty d).drop start).take len
  concat_ok : ∀ {ty parts d}, (∀ part ∈ parts, Sound ty part) → parts ≠ [] → Layout.concat ty parts = .ok d →
    Sound ty d ∧ values ty d = parts.flatMap (values ty)
  concat_slices : ∀ {ty d a b k m}, Sound ty d → k + m = Layout.rows d → Layout.slice d 0 k = some a →
    Layout.slice d k m = some b → Layout.concat ty [a, b] = .ok d

theorem values_length {δ : Type} [Layout δ] {ty : DataType} {d : δ} : (values ty d).length = Layout.rows d := by simp [values]

/-- The fixed-width kind of a type. -/
def fixedKind : ScalarType → Option Fixed
  | .int64 => some .int64
  | .uint64 => some .uint64
  | .float64 => some .float64
  | .decimal _ => some .decimal
  | .timestamp => some .timestamp
  | .date => some .date
  | .uuid => some .uuid
  | .ip => some .ip
  | .bool | .string | .bytes => none

def Varwidth.type : Varwidth → ScalarType
  | .string => .string
  | .bytes => .bytes

/-- A slot holds what its type admits: a decimal within its precision. -/
def Fixed.Fits (t : ScalarType) : (k : Fixed) → k.Carrier → Prop
  | .decimal, n => ∀ d, t = .decimal d → Int.natAbs n < 10 ^ d.precision
  | _, _ => True

/-- What `from_parts` checks. -/
inductive Buffer.Sound : DataType → Buffer → Prop
  | bool {bits : Bitmap} (whole : bits.Whole) : Sound .bool (.bool bits)
  | fixed {t : ScalarType} {k : Fixed} {v : List k.Carrier} (kind : fixedKind t = some k) (fits : ∀ x ∈ v, k.Fits t x) :
      Sound (.scalar t) (.fixed k v)
  | var {k : Varwidth} {lengths : List Nat} {data : List UInt8} (whole : data.length = lengths.sum) (small : lengths.sum < 2 ^ 32)
      (reads : ∀ row ∈ rowsAt (sums lengths) data, (k.value row).isSome) : Sound (.scalar k.type) (.var k (sums lengths) data)

namespace Buffer

section Values

variable {ty : DataType}

theorem values_bool (bits : Bitmap) : values ty (Buffer.bool bits) = bits.bits.map fun valid => some (.bool valid) := by
  simp [values, Layout.rows, Layout.value, Buffer.rows, Buffer.value, Bitmap.bits]

theorem values_fixed (k : Fixed) (v : List k.Carrier) : values ty (Buffer.fixed k v) = v.map (k.value ty) := by
  apply List.ext_getElem
  · simp [values, Layout.rows, Buffer.rows]
  · intro i left right
    have inside : i < v.length := by simpa using right
    simp [values, Layout.value, Buffer.value, inside]

theorem values_var (k : Varwidth) (offsets : List Nat) (data : List UInt8) :
    values ty (Buffer.var k offsets data) = (rowsAt offsets data).map k.value := by
  simp [values, Layout.rows, Layout.value, Buffer.rows, Buffer.value, rowsAt]

end Values

theorem concat_of_fixed {t : ScalarType} {k : Fixed} (kind : fixedKind t = some k) : Buffer.concat t = concatFixed k := by
  cases t <;> cases kind <;> rfl

theorem concat_of_var (k : Varwidth) : Buffer.concat k.type = concatVar k := by
  cases k <;> rfl

namespace Sound

variable {t : ScalarType} {part : Buffer}

theorem inv_bool (sound : Sound .bool part) : ∃ bits, part = .bool bits ∧ bits.Whole := by
  generalize same : DataType.bool = ty at sound
  cases sound with
  | bool whole => exact ⟨_, rfl, whole⟩
  | fixed kind fits =>
    cases same
    cases kind
  | @var k => cases k <;> cases same

theorem inv_fixed {k : Fixed} (kind : fixedKind t = some k) (sound : Sound (.scalar t) part) :
    ∃ v, part = .fixed k v ∧ ∀ x ∈ v, k.Fits t x := by
  generalize same : DataType.scalar t = ty at sound
  cases sound with
  | bool whole =>
    cases same
    cases kind
  | fixed kind' fits =>
    cases same
    rw [kind] at kind'
    cases kind'
    exact ⟨_, rfl, fits⟩
  | @var k => cases k <;> cases same <;> cases kind

theorem inv_var {k : Varwidth} (sound : Sound (.scalar k.type) part) : ∃ lengths data, part = .var k (sums lengths) data ∧
    data.length = lengths.sum ∧ lengths.sum < 2 ^ 32 ∧ ∀ row ∈ rowsAt (sums lengths) data, (k.value row).isSome := by
  generalize same : DataType.scalar k.type = ty at sound
  cases sound with
  | bool whole => cases k <;> cases same
  | fixed kind fits => cases k <;> cases same <;> cases kind
  | @var k' lengths data whole small reads =>
    cases k <;> cases k' <;> cases same
    · exact ⟨_, _, rfl, whole, small, reads⟩
    · exact ⟨_, _, rfl, whole, small, reads⟩

theorem slice_ok {ty : DataType} {d : Buffer} {start len : Nat} (sound : Sound ty d) (inside : start + len ≤ d.rows) :
    Sound ty (d.slice start len) ∧ values ty (d.slice start len) = ((values ty d).drop start).take len := by
  cases sound with
  | @bool bits whole =>
    refine ⟨.bool (Bitmap.ofBits_whole _), ?_⟩
    rw [Buffer.slice, values_bool, values_bool, Bitmap.slice_eq inside, Bitmap.bits_ofBits, List.map_take, List.map_drop]
  | @fixed t k v kind fits =>
    refine ⟨.fixed kind fun x member => fits x (List.mem_of_mem_drop (List.mem_of_mem_take member)), ?_⟩
    rw [Buffer.slice, values_fixed, values_fixed, between, Nat.add_sub_cancel_left, List.map_take, List.map_drop]
  | @var k lengths data whole small reads =>
    have count : start + len ≤ lengths.length := by simpa [Buffer.rows] using inside
    have total := sum_take_le lengths (start + len)
    have rows := @rowsAt_slice _ lengths data _ _ count
    have parts := sum_take_add_sum_take_drop lengths start len
    rw [Buffer.slice, rebaseOffsets_sums count, getD_sums (by omega), getD_sums (by omega)]
    refine ⟨.var ?_ ?_ ?_, ?_⟩
    · rw [length_between (by omega)]
      omega
    · omega
    · intro row member
      rw [rows] at member
      exact reads row (List.mem_of_mem_drop (List.mem_of_mem_take member))
    · rw [values_var, values_var, rows, List.map_take, List.map_drop]

end Sound

section Concat

variable {ty : DataType} {t : ScalarType} {parts : List Buffer}

theorem foldlM_addBool (sound : ∀ part ∈ parts, Sound .bool part) (l : List Bool) : ∃ m : List Bool,
    parts.foldlM addBool (Bitmap.ofBits l) = .ok (Bitmap.ofBits (l ++ m)) ∧
      m.map (fun valid => some (.bool valid)) = parts.flatMap (values .bool) := by
  induction parts generalizing l with
  | nil => exact ⟨[], by rw [List.append_nil]; rfl, rfl⟩
  | cons part parts ih =>
    obtain ⟨bits, rfl, _⟩ := (sound part (.head _)).inv_bool
    obtain ⟨m, rest, same⟩ := ih (fun p member => sound p (.tail _ member)) (l ++ bits.bits)
    refine ⟨bits.bits ++ m, ?_, ?_⟩
    · have step : addBool (Bitmap.ofBits l) (.bool bits) = .ok (Bitmap.ofBits (l ++ bits.bits)) :=
        congrArg Except.ok (Bitmap.pushAll_ofBits l bits.bits)
      rw [List.foldlM_cons, step, ← List.append_assoc]
      exact rest
    · rw [List.map_append, List.flatMap_cons, same, values_bool]

theorem fixed?_fixed (k : Fixed) (v : List k.Carrier) : (Buffer.fixed k v).fixed? k = .ok v := dif_pos rfl

theorem var?_var (k : Varwidth) (offsets : List Nat) (data : List UInt8) : (Buffer.var k offsets data).var? k = .ok (offsets, data) :=
  if_pos rfl

theorem foldlM_addFixed {k : Fixed} (kind : fixedKind t = some k) (sound : ∀ part ∈ parts, Sound (.scalar t) part)
    (out : List k.Carrier) : ∃ m : List k.Carrier, parts.foldlM (addFixed k) out = .ok (out ++ m) ∧ (∀ x ∈ m, k.Fits t x) ∧
      m.map (k.value (.scalar t)) = parts.flatMap (values (.scalar t)) := by
  induction parts generalizing out with
  | nil => exact ⟨[], by rw [List.append_nil]; rfl, by simp, rfl⟩
  | cons part parts ih =>
    obtain ⟨v, rfl, fits⟩ := (sound part (.head _)).inv_fixed kind
    obtain ⟨m, rest, others, same⟩ := ih (fun p member => sound p (.tail _ member)) (out ++ v)
    refine ⟨v ++ m, ?_, ?_, ?_⟩
    · have step : addFixed k out (.fixed k v) = .ok (out ++ v) := by
        rw [addFixed, fixed?_fixed]
        rfl
      rw [List.foldlM_cons, step, ← List.append_assoc]
      exact rest
    · intro x member
      rcases List.mem_append.mp member with member | member
      · exact fits x member
      · exact others x member
    · rw [List.map_append, List.flatMap_cons, same, values_fixed]

theorem addVar_sums {k : Varwidth} {lengths more : List Nat} {data rest : List UInt8} {out : List Nat × List UInt8} :
    addVar k (sums lengths, data) (.var k (sums more) rest) = .ok out ↔
      out = (sums (lengths ++ more), data ++ rest) ∧ (more = [] ∨ (lengths ++ more).sum < 2 ^ 32) := by
  rw [addVar, var?_var]
  constructor
  · intro made
    obtain ⟨_, head, made⟩ := Except.bind_eq_ok.mp made
    cases head
    obtain ⟨offsets, appended, made⟩ := Except.bind_eq_ok.mp made
    cases made
    obtain ⟨rfl, small⟩ := appendOffsets_sums.mp appended
    exact ⟨rfl, small⟩
  · rintro ⟨rfl, small⟩
    exact Except.bind_eq_ok.mpr ⟨_, rfl, Except.bind_eq_ok.mpr ⟨_, appendOffsets_sums.mpr ⟨rfl, small⟩, rfl⟩⟩

theorem foldlM_addVar {k : Varwidth} (sound : ∀ part ∈ parts, Sound (.scalar k.type) part) {lengths : List Nat} {data : List UInt8}
    {out : List Nat × List UInt8} (small : lengths.sum < 2 ^ 32) (made : parts.foldlM (addVar k) (sums lengths, data) = .ok out) :
    ∃ more rest, out = (sums (lengths ++ more), data ++ rest) ∧ rest.length = more.sum ∧ (lengths ++ more).sum < 2 ^ 32 ∧
      (∀ row ∈ rowsAt (sums more) rest, (k.value row).isSome) ∧
      (rowsAt (sums more) rest).map k.value = parts.flatMap (values (.scalar k.type)) := by
  induction parts generalizing lengths data with
  | nil =>
    cases made
    exact ⟨[], [], by rw [List.append_nil, List.append_nil], rfl, by rwa [List.append_nil], by simp [rowsAt], rfl⟩
  | cons part parts ih =>
    obtain ⟨own, bytes, rfl, whole, _, reads⟩ := (sound part (.head _)).inv_var
    rw [List.foldlM_cons] at made
    obtain ⟨_, step, made⟩ := Except.bind_eq_ok.mp made
    obtain ⟨rfl, fits⟩ := addVar_sums.mp step
    have below : (lengths ++ own).sum < 2 ^ 32 := by
      rcases fits with rfl | fits
      · rwa [List.append_nil]
      · exact fits
    obtain ⟨more, rest, rfl, length, total, others, same⟩ := ih (fun p member => sound p (.tail _ member)) below made
    have rows : rowsAt (sums (own ++ more)) (bytes ++ rest) = rowsAt (sums own) bytes ++ rowsAt (sums more) rest := rowsAt_append whole
    refine ⟨own ++ more, bytes ++ rest, ?_, ?_, ?_, ?_, ?_⟩
    · rw [List.append_assoc, List.append_assoc]
    · rw [List.length_append, List.sum_append, whole, length]
    · rwa [List.append_assoc] at total
    · intro row member
      rw [rows] at member
      rcases List.mem_append.mp member with member | member
      · exact reads row member
      · exact others row member
    · rw [rows, List.map_append, List.flatMap_cons, same, values_var]

/-- A scalar type has a bitmap, a fixed width or runs of bytes. -/
theorem scalar_cases (t : ScalarType) : t = .bool ∨ (∃ k, fixedKind t = some k) ∨ ∃ k : Varwidth, t = k.type := by
  cases t <;> simp [fixedKind]
  · exact ⟨.string, rfl⟩
  · exact ⟨.bytes, rfl⟩

theorem concat_ok {d : Buffer} (sound : ∀ part ∈ parts, Sound (.scalar t) part) (made : Buffer.concat t parts = .ok d) :
    Sound (.scalar t) d ∧ values (.scalar t) d = parts.flatMap (values (.scalar t)) := by
  rcases scalar_cases t with rfl | ⟨k, kind⟩ | ⟨k, rfl⟩
  · obtain ⟨m, folded, same⟩ := foldlM_addBool sound []
    have bits : Buffer.concat .bool parts = .ok (.bool (Bitmap.ofBits m)) := by
      rw [Buffer.concat, concatBool]
      change (parts.foldlM addBool (Bitmap.ofBits [])).map _ = _
      rw [folded]
      rfl
    rw [bits] at made
    cases made
    exact ⟨.bool (Bitmap.ofBits_whole m), by rw [values_bool, Bitmap.bits_ofBits, same]⟩
  · obtain ⟨m, folded, fits, same⟩ := foldlM_addFixed kind sound []
    rw [concat_of_fixed kind, concatFixed, folded] at made
    cases made
    exact ⟨.fixed kind fits, by rw [values_fixed, List.nil_append, same]⟩
  · rw [concat_of_var, concatVar] at made
    cases folded : parts.foldlM (addVar k) (sums [], []) with
    | error e =>
      rw [← sums_nil, folded] at made
      cases made
    | ok out =>
    rw [← sums_nil, folded] at made
    cases made
    obtain ⟨more, rest, rfl, length, total, reads, same⟩ := foldlM_addVar sound (by decide) folded
    exact ⟨.var length total reads, by rw [values_var, ← same]; rfl⟩

/-- What is cut in two and joined is whole again. -/
theorem concat_slices {d : Buffer} {k m : Nat} (sound : Sound (.scalar t) d) (whole : k + m = d.rows) :
    Buffer.concat t [d.slice 0 k, d.slice k m] = .ok d := by
  rcases scalar_cases t with rfl | ⟨kind, fixed⟩ | ⟨kind, rfl⟩
  · obtain ⟨bits, rfl, own⟩ := sound.inv_bool
    have count : k + m = bits.bits.length := by simpa [Buffer.rows] using whole
    have joined : (Bitmap.ofBits (bits.bits.take k)).pushAll (bits.bits.drop k) = bits := by
      rw [Bitmap.pushAll_ofBits, List.take_append_drop]
      exact own.eq_ofBits.symm
    rw [Bitmap.length_bits] at count
    have parts : concatBool [.bool (bits.slice 0 k), .bool (bits.slice k m)] =
        .ok (.bool ((Bitmap.ofBits (bits.slice 0 k).bits).pushAll (bits.slice k m).bits)) := rfl
    rw [Buffer.concat, Buffer.slice, Buffer.slice, parts, Bitmap.slice_eq (by omega), Bitmap.slice_eq (by omega),
      Bitmap.bits_ofBits, Bitmap.bits_ofBits, List.drop_zero, List.take_of_length_le (by simp; omega : (bits.bits.drop k).length ≤ m),
      joined]
  · obtain ⟨v, rfl, fits⟩ := sound.inv_fixed fixed
    have count : k + m = v.length := whole
    have joined : between v 0 k ++ between v k v.length = v := by
      rw [between_append_between (by omega) (by omega), between_zero_length]
    have parts : concatFixed kind [.fixed kind (between v 0 (0 + k)), .fixed kind (between v k (k + m))] =
        .ok (.fixed kind (between v 0 (0 + k) ++ between v k (k + m))) := by
      simp only [concatFixed, List.foldlM_cons, List.foldlM_nil, addFixed, fixed?_fixed]
      rfl
    rw [concat_of_fixed fixed, Buffer.slice, Buffer.slice, parts, Nat.zero_add, count, joined]
  · obtain ⟨lengths, data, rfl, own, small, reads⟩ := sound.inv_var
    have count : k + m = lengths.length := by simpa [Buffer.rows] using whole
    have lengths_joined : lengths.take k ++ (lengths.drop k).take m = lengths := by
      rw [List.take_of_length_le (by simp; omega : (lengths.drop k).length ≤ m), List.take_append_drop]
    have total := sum_take_le lengths k
    have data_joined : between data 0 (lengths.take k).sum ++ between data (lengths.take k).sum lengths.sum = data := by
      rw [between_append_between (Nat.zero_le _) total, ← own, between_zero_length]
    have first : rebaseOffsets (sums lengths) 0 k = sums (lengths.take k) := rebaseOffsets_sums (by omega)
    have second : rebaseOffsets (sums lengths) k m = sums ((lengths.drop k).take m) := rebaseOffsets_sums (by omega)
    have step : addVar kind (sums [], []) (.var kind (sums (lengths.take k)) (between data 0 (lengths.take k).sum)) =
        .ok (sums (lengths.take k), between data 0 (lengths.take k).sum) :=
      addVar_sums.mpr ⟨rfl, .inr (by rw [List.nil_append]; omega)⟩
    have step' : addVar kind (sums (lengths.take k), between data 0 (lengths.take k).sum)
        (.var kind (sums ((lengths.drop k).take m)) (between data (lengths.take k).sum lengths.sum)) = .ok (sums lengths, data) :=
      addVar_sums.mpr ⟨by rw [lengths_joined, data_joined], .inr (by rw [lengths_joined]; exact small)⟩
    rw [concat_of_var, concatVar, Buffer.slice, Buffer.slice, first, second, ← sums_nil]
    rw [getD_sums (Nat.zero_le _), getD_sums (by omega), getD_sums (by omega), getD_sums (by omega), count, List.take_length,
      Nat.zero_add]
    rw [List.foldlM_cons]
    change (Except.bind (addVar kind (sums [], []) (.var kind (sums (lengths.take k)) (between data 0 (lengths.take k).sum))) _).map _ = _
    rw [step, Except.bind, List.foldlM_cons]
    change ((Except.bind (addVar kind _ _) _)).map _ = _
    rw [step']
    rfl

end Concat

instance : LawfulLayout Buffer where
  Sound := Sound
  slice_ok sound inside := ⟨_, rfl, sound.slice_ok inside⟩
  concat_ok := by
    intro ty parts d sound some_ made
    cases ty with
    | scalar t => exact concat_ok sound made
    | list t => cases made
  concat_slices := by
    intro ty d a b k m sound whole first second
    cases first
    cases second
    cases ty with
    | scalar t => exact concat_slices sound whole
    | list t => cases sound

end Buffer

namespace Nulled

variable {δ : Type}

section Cells

variable [Layout δ]

/-- Every row as `get` reads it. -/
def cells (c : Nulled δ) : List (Option Value) := (List.range c.len).map c.get

/-- Every row's validity. -/
def valid (c : Nulled δ) : List Bool := c.validity.elim (List.replicate c.len true) Bitmap.bits

def read (valid : Bool) (v : Option Value) : Option Value := if valid then v else some .null

@[simp] theorem length_cells (c : Nulled δ) : c.cells.length = c.len := by simp [cells]

theorem getElem?_cells (c : Nulled δ) (i : Nat) : c.cells[i]?.join = c.get i := by
  by_cases inside : i < c.len
  · simp [cells, inside]
  · simp [cells, get, inside]

end Cells

variable [LawfulLayout δ]

/-- The data is of the type, and the bitmap has a bit a row. -/
structure Sound (c : Nulled δ) : Prop where
  data : LawfulLayout.Sound c.ty c.data
  whole : ∀ bits, c.validity = some bits → bits.Whole ∧ bits.len = c.len
  nulls : c.nullCount = countNulls c.validity c.len

variable {c : Nulled δ} {parts : List (Nulled δ)} {ty : DataType} {start len k m : Nat}

theorem Sound.length_valid (sound : c.Sound) : c.valid.length = c.len := by
  unfold valid
  cases found : c.validity with
  | none => simp
  | some bits => simpa using (sound.whole bits found).2

theorem getElem_valid {i : Nat} (inside : i < c.valid.length) : c.valid[i] = !c.isNull i := by
  obtain ⟨ty, data, validity, nullCount⟩ := c
  cases validity with
  | none => simp [valid, isNull]
  | some bits =>
    simp only [valid, Option.elim_some, isNull, Option.any_some, Bool.not_not]
    exact Bitmap.getElem_bits inside

theorem Sound.cells_eq (sound : c.Sound) : c.cells = List.zipWith read c.valid (values c.ty c.data) := by
  apply List.ext_getElem
  · rw [List.length_zipWith, sound.length_valid, values_length, length_cells]
    exact (Nat.min_self _).symm
  · intro i left right
    have inside : i < c.len := by simpa using left
    rw [List.getElem_zipWith, getElem_valid]
    simp only [cells, List.getElem_map, List.getElem_range, values, get, if_neg (Nat.not_le.mpr inside), read]
    cases c.isNull i <;> rfl

/-- A slice is the rows it names. -/
theorem slice_ok (sound : c.Sound) (inside : start + len ≤ c.len) : ∃ c', c.slice start len = some c' ∧ c'.Sound ∧ c'.ty = c.ty ∧
    c'.len = len ∧ c'.valid = (c.valid.drop start).take len ∧ c'.cells = (c.cells.drop start).take len := by
  obtain ⟨data, made, own, same⟩ := LawfulLayout.slice_ok sound.data inside
  have rows : Layout.rows data = len := by
    rw [← @values_length _ _ c.ty, same, List.length_take, List.length_drop, values_length]
    exact Nat.min_eq_left (by rw [Nulled.len] at inside; omega)
  have whole : ∀ bits, c.validity = some bits → bits.slice start len = Bitmap.ofBits ((bits.bits.drop start).take len) := by
    intro bits found
    have := (sound.whole bits found).2
    exact Bitmap.slice_eq (by omega)
  have taken : ∀ l : List Bool, l.length = c.len → ((l.drop start).take len).length = len := by
    intro l length
    simp
    omega
  have sound' : (Nulled.mk c.ty data (c.validity.map (·.slice start len)) (countNulls (c.validity.map (·.slice start len)) len)).Sound := by
    refine ⟨own, ?_, ?_⟩
    · intro bits cut
      obtain ⟨old, found, rfl⟩ := Option.map_eq_some_iff.mp cut
      rw [whole old found]
      refine ⟨Bitmap.ofBits_whole _, ?_⟩
      rw [Bitmap.len_ofBits, taken _ (by rw [Bitmap.length_bits]; exact (sound.whole old found).2)]
      exact rows.symm
    · exact congrArg (countNulls _) rows.symm
  have bits : (Nulled.mk c.ty data (c.validity.map (·.slice start len)) (countNulls (c.validity.map (·.slice start len)) len)).valid =
      (c.valid.drop start).take len := by
    unfold valid
    cases found : c.validity with
    | none =>
      simp only [Option.map_none, Option.elim_none]
      rw [List.drop_replicate, List.take_replicate, Nulled.len, rows, Nat.min_eq_left (by omega)]
    | some bits =>
      simp only [Option.map_some, Option.elim_some]
      rw [whole bits found, Bitmap.bits_ofBits]
  refine ⟨_, ?_, sound', rfl, rows, bits, ?_⟩
  · unfold slice
    rw [if_pos inside, made]
    rfl
  · rw [sound'.cells_eq, bits, sound.cells_eq, List.drop_zipWith, List.take_zipWith, same]

theorem foldl_valid (sound : ∀ part ∈ parts, part.Sound) (l : List Bool) : parts.foldl (fun bits part =>
      bits.pushAll (part.validity.elim (List.replicate part.len true) fun own => (List.range part.len).map own.get))
      (Bitmap.ofBits l) = Bitmap.ofBits (l ++ parts.flatMap valid) := by
  induction parts generalizing l with
  | nil => simp
  | cons part parts ih =>
    have own : (part.validity.elim (List.replicate part.len true) fun own => (List.range part.len).map own.get) = part.valid := by
      unfold valid
      cases found : part.validity with
      | none => rfl
      | some bits =>
        have length := ((sound part (.head _)).whole bits found).2
        simp only [Option.elim_some, Bitmap.bits, length]
    rw [List.foldl_cons, own, Bitmap.pushAll_ofBits, ih (fun p member => sound p (.tail _ member)), List.flatMap_cons, List.append_assoc]

theorem concatValidity_eq (sound : ∀ part ∈ parts, part.Sound) : concatValidity parts =
    if parts.any (·.validity.isSome) then some (Bitmap.ofBits (parts.flatMap valid)) else none := by
  unfold concatValidity
  split
  · exact congrArg some (foldl_valid sound [])
  · rfl

theorem flatMap_valid_of_none (none_ : parts.any (·.validity.isSome) = false) :
    parts.flatMap valid = List.replicate (parts.map Nulled.len).sum true := by
  induction parts with
  | nil => rfl
  | cons part parts ih =>
    simp only [List.any_cons, Bool.or_eq_false_iff, Option.isSome_eq_false_iff, Option.isNone_iff_eq_none] at none_
    have own : part.valid = List.replicate part.len true := by rw [valid, none_.1, Option.elim_none]
    rw [List.flatMap_cons, own, ih none_.2, List.map_cons, List.sum_cons, List.replicate_append_replicate]

theorem zipWith_flatMap (sound : ∀ part ∈ parts, part.Sound) :
    List.zipWith read (parts.flatMap valid) (parts.flatMap fun part => values part.ty part.data) = parts.flatMap cells := by
  induction parts with
  | nil => rfl
  | cons part parts ih =>
    have own := sound part (.head _)
    rw [List.flatMap_cons, List.flatMap_cons, List.flatMap_cons, List.zipWith_append, ih (fun p member => sound p (.tail _ member)),
      own.cells_eq]
    rw [own.length_valid, values_length]
    rfl

/-- What concatenation makes, it makes of the parts' rows in order. -/
theorem concat_ok {d : Nulled δ} (sound : ∀ part ∈ parts, part.Sound ∧ part.ty = ty) (some_ : parts ≠ [])
    (made : concat ty parts = .ok d) : d.Sound ∧ d.ty = ty ∧ d.cells = parts.flatMap cells := by
  have sounds : ∀ part ∈ parts, part.Sound := fun part member => (sound part member).1
  unfold concat at made
  rw [if_neg (by simpa using some_)] at made
  obtain ⟨data, joined, made⟩ := Except.bind_eq_ok.mp made
  cases made
  have own : ∀ e ∈ parts.map Nulled.data, LawfulLayout.Sound ty e := by
    intro e member
    obtain ⟨part, inside, rfl⟩ := List.mem_map.mp member
    obtain ⟨whole, rfl⟩ := sound part inside
    exact whole.data
  obtain ⟨lawful, same⟩ := LawfulLayout.concat_ok own (by simpa using some_) joined
  have rows : Layout.rows data = (parts.map Nulled.len).sum := by
    rw [← @values_length _ _ ty, same, List.flatMap_map, List.length_flatMap]
    congr 1
    apply List.map_congr_left
    intro part _
    exact values_length
  have lengths : (parts.flatMap valid).length = (parts.map Nulled.len).sum := by
    rw [List.length_flatMap]
    congr 1
    apply List.map_congr_left
    intro part member
    exact (sounds part member).length_valid
  have sound' : (Nulled.mk ty data (concatValidity parts) (countNulls (concatValidity parts) (parts.map Nulled.len).sum)).Sound := by
    refine ⟨lawful, ?_, congrArg (countNulls _) rows.symm⟩
    intro bits found
    rw [concatValidity_eq sounds] at found
    split at found
    · cases found
      refine ⟨Bitmap.ofBits_whole _, ?_⟩
      rw [Bitmap.len_ofBits, lengths]
      exact rows.symm
    · cases found
  refine ⟨sound', rfl, ?_⟩
  have bits : (Nulled.mk ty data (concatValidity parts) (countNulls (concatValidity parts) (parts.map Nulled.len).sum)).valid =
      parts.flatMap valid := by
    rw [valid, concatValidity_eq sounds]
    split
    · rw [Option.elim_some, Bitmap.bits_ofBits]
    · rename_i none_
      rw [Option.elim_none, flatMap_valid_of_none (Bool.not_eq_true _ ▸ none_)]
      exact congrArg (List.replicate · true) rows
  have typed : (parts.flatMap fun part => values part.ty part.data) = (parts.map Nulled.data).flatMap (values ty) := by
    rw [List.flatMap_map]
    apply List.flatMap_congr
    intro part member
    rw [(sound part member).2]
  rw [sound'.cells_eq, bits, ← zipWith_flatMap sounds, typed, ← same]

theorem slice_parts {c' : Nulled δ} (made : c.slice start len = some c') :
    Layout.slice c.data start len = some c'.data ∧ c'.validity = c.validity.map (·.slice start len) := by
  unfold slice at made
  split at made
  · obtain ⟨data, cut, made⟩ := Option.bind_eq_some_iff.mp made
    cases made
    exact ⟨cut, rfl⟩
  · cases made

/-- What is cut in two and joined is whole again. -/
theorem concat_slices {a b : Nulled δ} (sound : c.Sound) (whole : k + m = c.len) (first : c.slice 0 k = some a)
    (second : c.slice k m = some b) : concat c.ty [a, b] = .ok c := by
  obtain ⟨a', made, own, typed, short, bits, _⟩ := @slice_ok _ _ c 0 k sound (by omega)
  obtain ⟨b', made', own', typed', short', bits', _⟩ := @slice_ok _ _ c k m sound (by omega)
  rw [first] at made
  rw [second] at made'
  cases made
  cases made'
  obtain ⟨cut, validity⟩ := slice_parts first
  obtain ⟨cut', validity'⟩ := slice_parts second
  have data := LawfulLayout.concat_slices sound.data whole cut cut'
  have sounds : ∀ part ∈ [a, b], part.Sound := by simpa using ⟨own, own'⟩
  have valid_joined : [a, b].flatMap valid = c.valid := by
    have length := sound.length_valid
    simp only [List.flatMap_cons, List.flatMap_nil, List.append_nil, bits, bits', List.drop_zero]
    rw [List.take_of_length_le (by simp; omega : (c.valid.drop k).length ≤ m), List.take_append_drop]
  have joined : concatValidity [a, b] = c.validity := by
    rw [concatValidity_eq sounds, valid_joined]
    cases found : c.validity with
    | none => simp [validity, validity', found]
    | some old =>
      rw [if_pos (by simp [validity, found]), valid, found, Option.elim_some, ← (sound.whole old found).1.eq_ofBits]
  have rows : ([a, b].map Nulled.len).sum = c.len := by
    simp [short, short', whole]
  unfold concat
  rw [if_neg (by simp)]
  dsimp only
  rw [joined, rows]
  change (Except.bind (Layout.concat c.ty [a.data, b.data]) _ : Except ColumnError (Nulled δ)) = _
  rw [data, Except.bind, ← sound.nulls]
  rfl

end Nulled

/-- LIST offsets are those of the rows, and the child has what they mark. -/
inductive ColumnData.Sound : DataType → ColumnData → Prop
  | flat {ty : DataType} {buffer : Buffer} (own : Buffer.Sound ty buffer) : Sound ty (.flat buffer)
  | list {t : ScalarType} {lengths : List Nat} {child : Nulled Buffer} (own : child.Sound) (typed : child.ty = .scalar t)
      (count : child.len = lengths.sum) (small : lengths.sum < 2 ^ 32) : Sound (.list t) (.list (sums lengths) child)

namespace ColumnData

variable {ty : DataType} {t : ScalarType} {parts : List ColumnData}

theorem values_flat (buffer : Buffer) : values ty (ColumnData.flat buffer) = values ty buffer := rfl

/-- A list of what its row of the child holds. -/
def listOf (row : List (Option Value)) : Option Value := (row.mapM id).map .list

theorem values_list {lengths : List Nat} {child : Nulled Buffer} (count : lengths.sum ≤ child.len) :
    values ty (ColumnData.list (sums lengths) child) = (rowsAt (sums lengths) child.cells).map listOf := by
  apply List.ext_getElem
  · simp [values, Layout.rows]
  · intro i left right
    have inside : i < lengths.length := by simpa using right
    have start := @sum_take_mono lengths i (i + 1) (by omega)
    have total := sum_take_le lengths (i + 1)
    have row : between child.cells (lengths.take i).sum (lengths.take (i + 1)).sum =
        (List.range' (lengths.take i).sum ((lengths.take (i + 1)).sum - (lengths.take i).sum)).map child.get := by
      apply List.ext_getElem
      · rw [length_between (by rw [Nulled.length_cells]; omega)]
        simp
      · intro j left right
        simp [between, Nulled.cells]
    simp only [values, List.getElem_map, List.getElem_range, Layout.value]
    rw [getElem_rowsAt_sums, getD_sums (by omega), getD_sums (by omega), listOf, row, List.mapM_map]
    rfl

theorem Sound.inv_flat {d : ColumnData} (sound : Sound (.scalar t) d) : ∃ buffer, d = .flat buffer ∧ Buffer.Sound (.scalar t) buffer := by
  cases sound with
  | flat own => exact ⟨_, rfl, own⟩

theorem Sound.inv_list {d : ColumnData} (sound : Sound (.list t) d) : ∃ lengths child, d = .list (sums lengths) child ∧ child.Sound ∧
    child.ty = .scalar t ∧ child.len = lengths.sum ∧ lengths.sum < 2 ^ 32 := by
  cases sound with
  | flat own => cases own
  | list own typed count small => exact ⟨_, _, rfl, own, typed, count, small⟩

theorem slice_ok {d : ColumnData} {start len : Nat} (sound : Sound ty d) (inside : start + len ≤ Layout.rows d) :
    ∃ d', Layout.slice d start len = some d' ∧ Sound ty d' ∧ values ty d' = ((values ty d).drop start).take len := by
  cases sound with
  | flat own =>
    obtain ⟨whole, same⟩ := own.slice_ok inside
    exact ⟨_, rfl, .flat whole, same⟩
  | @list t lengths child own typed count small =>
    have rows : start + len ≤ lengths.length := by simpa [Layout.rows] using inside
    have parts := sum_take_add_sum_take_drop lengths start len
    have total := sum_take_le lengths (start + len)
    obtain ⟨child', made, own', typed', count', _, same⟩ :=
      @Nulled.slice_ok _ _ child (lengths.take start).sum ((lengths.drop start).take len).sum own (by omega)
    have cut : Layout.slice (ColumnData.list (sums lengths) child) start len =
        some (.list (sums ((lengths.drop start).take len)) child') := by
      simp only [Layout.slice]
      rw [getD_sums (by omega), getD_sums (by omega), rebaseOffsets_sums rows, ← parts, Nat.add_sub_cancel_left, made]
      rfl
    have marked := @rowsAt_slice _ lengths child.cells _ _ rows
    refine ⟨_, cut, .list own' (typed'.trans typed) count' (by omega), ?_⟩
    rw [values_list count'.ge, values_list count.ge, ← List.map_drop, ← List.map_take, ← marked, same, between, ← parts,
      Nat.add_sub_cancel_left]

theorem addList_sums {lengths more : List Nat} {children : List (Nulled Buffer)} {child : Nulled Buffer}
    {out : List Nat × List (Nulled Buffer)} : addList (sums lengths, children) (.list (sums more) child) = .ok out ↔
      out = (sums (lengths ++ more), children ++ [child]) ∧ (more = [] ∨ (lengths ++ more).sum < 2 ^ 32) := by
  rw [addList]
  constructor
  · intro made
    obtain ⟨_, head, made⟩ := Except.bind_eq_ok.mp made
    cases head
    obtain ⟨offsets, appended, made⟩ := Except.bind_eq_ok.mp made
    cases made
    obtain ⟨rfl, small⟩ := appendOffsets_sums.mp appended
    exact ⟨rfl, small⟩
  · rintro ⟨rfl, small⟩
    exact Except.bind_eq_ok.mpr ⟨_, rfl, Except.bind_eq_ok.mpr ⟨_, appendOffsets_sums.mpr ⟨rfl, small⟩, rfl⟩⟩

/-- The lists of several columns are those of the offsets joined, over the children joined. -/
theorem foldlM_addList (sound : ∀ part ∈ parts, Sound (.list t) part) {lengths : List Nat} {children : List (Nulled Buffer)}
    {out : List Nat × List (Nulled Buffer)} (small : lengths.sum < 2 ^ 32)
    (made : parts.foldlM addList (sums lengths, children) = .ok out) : ∃ more added, out = (sums (lengths ++ more), children ++ added) ∧
      (∀ child ∈ added, child.Sound ∧ child.ty = .scalar t) ∧ (added.map Nulled.len).sum = more.sum ∧ (lengths ++ more).sum < 2 ^ 32 ∧
      added.length = parts.length ∧
      (rowsAt (sums more) (added.flatMap Nulled.cells)).map listOf = parts.flatMap (values (.list t)) := by
  induction parts generalizing lengths children with
  | nil =>
    cases made
    exact ⟨[], [], by rw [List.append_nil, List.append_nil], by simp, rfl, by rwa [List.append_nil], rfl, by simp [rowsAt]⟩
  | cons part parts ih =>
    obtain ⟨own, child, rfl, whole, typed, count, _⟩ := (sound part (.head _)).inv_list
    rw [List.foldlM_cons] at made
    obtain ⟨_, step, made⟩ := Except.bind_eq_ok.mp made
    obtain ⟨rfl, fits⟩ := addList_sums.mp step
    have below : (lengths ++ own).sum < 2 ^ 32 := by
      rcases fits with rfl | fits
      · rwa [List.append_nil]
      · exact fits
    obtain ⟨more, added, rfl, each, sum, total, many, same⟩ := ih (fun p member => sound p (.tail _ member)) below made
    refine ⟨own ++ more, child :: added, ?_, ?_, ?_, ?_, ?_, ?_⟩
    · rw [List.append_assoc, List.append_assoc]
      rfl
    · simpa using ⟨⟨whole, typed⟩, each⟩
    · rw [List.map_cons, List.sum_cons, List.sum_append, sum, count]
    · rwa [List.append_assoc] at total
    · simp [many]
    · have length : child.cells.length = own.sum := by rw [Nulled.length_cells, count]
      rw [List.flatMap_cons, rowsAt_append length, List.map_append, List.flatMap_cons, same, values_list count.ge]

theorem concat_ok {d : ColumnData} (sound : ∀ part ∈ parts, Sound ty part) (some_ : parts ≠ []) (made : Layout.concat ty parts = .ok d) :
    Sound ty d ∧ values ty d = parts.flatMap (values ty) := by
  cases ty with
  | scalar t =>
    obtain ⟨buffers, flat, made⟩ := Except.bind_eq_ok.mp made
    obtain ⟨joined, concat, made⟩ := Except.bind_eq_ok.mp made
    cases made
    have listed : buffers.map .flat = parts.map id :=
      map_of_mapM flat fun part buffer _ read => by
        cases part with
        | flat own =>
          cases read
          rfl
        | list => cases read
    rw [List.map_id] at listed
    subst listed
    have own : ∀ buffer ∈ buffers, Buffer.Sound (.scalar t) buffer := by
      intro buffer member
      obtain ⟨_, same, whole⟩ := (sound _ (List.mem_map_of_mem member)).inv_flat
      cases same
      exact whole
    obtain ⟨whole, same⟩ := Buffer.concat_ok own concat
    refine ⟨.flat whole, ?_⟩
    rw [values_flat, same, List.flatMap_map]
    rfl
  | list t =>
    obtain ⟨out, folded, made⟩ := Except.bind_eq_ok.mp made
    obtain ⟨child, joined, made⟩ := Except.bind_eq_ok.mp made
    cases made
    obtain ⟨more, added, rfl, each, sum, total, many, same⟩ := @foldlM_addList t parts sound [] [] out (by decide) folded
    have some' : added ≠ [] := by
      rintro rfl
      exact some_ (List.length_eq_zero_iff.mp many.symm)
    obtain ⟨own, typed, cells⟩ := Nulled.concat_ok each some' joined
    have count : child.len = more.sum := by
      rw [← Nulled.length_cells, cells, List.length_flatMap, ← sum]
      simp
    refine ⟨.list own typed count total, ?_⟩
    rw [← same, ← cells]
    exact values_list count.ge

theorem concat_slices {d a b : ColumnData} {k m : Nat} (sound : Sound ty d) (whole : k + m = Layout.rows d)
    (first : Layout.slice d 0 k = some a) (second : Layout.slice d k m = some b) : Layout.concat ty [a, b] = .ok d := by
  cases sound with
  | @flat ty buffer own =>
    cases first
    cases second
    cases ty with
    | scalar t =>
      have joined := Buffer.concat_slices own whole
      change (Except.bind (Buffer.concat t [buffer.slice 0 k, buffer.slice k m]) _ : Except ColumnError ColumnData) = _
      rw [joined]
      rfl
    | list t => cases own
  | @list t lengths child own typed count small =>
    have rows : k + m = lengths.length := by simpa [Layout.rows] using whole
    have total := sum_take_le lengths k
    obtain ⟨front, cut, first⟩ := Option.bind_eq_some_iff.mp first
    obtain ⟨back, cut', second⟩ := Option.bind_eq_some_iff.mp second
    cases first
    cases second
    rw [getD_sums (Nat.zero_le _), getD_sums (by omega), Nat.zero_add] at cut
    rw [getD_sums (by omega), getD_sums (by omega), rows, List.take_length] at cut'
    have joined := @Nulled.concat_slices _ _ child (lengths.take k).sum (lengths.sum - (lengths.take k).sum) front back own (by omega)
      (by simpa using cut) cut'
    have lengths_joined : lengths.take k ++ (lengths.drop k).take m = lengths := by
      rw [List.take_of_length_le (by simp; omega : (lengths.drop k).length ≤ m), List.take_append_drop]
    have offsets : rebaseOffsets (sums lengths) 0 k = sums (lengths.take k) := rebaseOffsets_sums (by omega)
    have offsets' : rebaseOffsets (sums lengths) k m = sums ((lengths.drop k).take m) := rebaseOffsets_sums (by omega)
    have step : addList (sums [], []) (.list (sums (lengths.take k)) front) = .ok (sums (lengths.take k), [front]) :=
      addList_sums.mpr ⟨rfl, .inr (by rw [List.nil_append]; omega)⟩
    have step' : addList (sums (lengths.take k), [front]) (.list (sums ((lengths.drop k).take m)) back) = .ok (sums lengths, [front, back]) :=
      addList_sums.mpr ⟨by rw [lengths_joined]; rfl, .inr (by rw [lengths_joined]; exact small)⟩
    have folded : [ColumnData.list (sums (lengths.take k)) front, .list (sums ((lengths.drop k).take m)) back].foldlM addList (sums [], []) =
        .ok (sums lengths, [front, back]) := by
      rw [List.foldlM_cons, step]
      change List.foldlM addList (sums (lengths.take k), [front]) [.list (sums ((lengths.drop k).take m)) back] = _
      rw [List.foldlM_cons, step']
      rfl
    rw [typed] at joined
    rw [offsets, offsets']
    change concatList t _ = _
    rw [concatList, ← sums_nil, folded]
    change (Except.bind (Nulled.concat (.scalar t) [front, back]) _ : Except ColumnError ColumnData) = _
    rw [joined]
    rfl

instance : LawfulLayout ColumnData where
  Sound := Sound
  slice_ok := slice_ok
  concat_ok := concat_ok
  concat_slices := concat_slices

end ColumnData

end Physical

end Adelie
