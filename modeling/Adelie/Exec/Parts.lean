import Adelie.Exec.Layout
import Adelie.Exec.Select

namespace Adelie

section Offsets

variable {lengths : List Nat} {offsets : List Nat} {a endLen rows : Nat}

theorem sums_cons (n : Nat) (lengths : List Nat) : sums (n :: lengths) = 0 :: (sums lengths).map (n + ·) := by
  have whole := sums_append [n] lengths
  have first : sums lengths = 0 :: (sums lengths).tail := by
    have head := head?_sums lengths
    cases found : sums lengths with
    | nil => simp [found] at head
    | cons b rest => simpa [found] using head
  rw [List.singleton_append, List.sum_singleton] at whole
  rw [whole]
  nth_rewrite 2 [first]
  simp [sums, List.range_succ]

/-- Offsets that never fall are those of rows, counted from the first of them. -/
theorem ascending_sums (rest : List Nat) (up : (((a :: rest).zip rest).all fun p => p.1 ≤ p.2) = true) :
    ∃ lengths, a :: rest = (sums lengths).map (a + ·) := by
  induction rest generalizing a with
  | nil => exact ⟨[], rfl⟩
  | cons b rest ih =>
    rw [List.zip_cons_cons, List.all_cons, Bool.and_eq_true, decide_eq_true_eq] at up
    obtain ⟨lengths, same⟩ := ih up.2
    refine ⟨(b - a) :: lengths, ?_⟩
    rw [sums_cons, List.map_cons, List.map_map, same]
    congr 1
    apply List.map_congr_left
    intro n _
    have := up.1
    simp only [Function.comp_apply]
    omega

theorem sums_ascending (lengths : List Nat) : (((sums lengths).zip (sums lengths).tail).all fun p => p.1 ≤ p.2) = true := by
  induction lengths with
  | nil => rfl
  | cons n rest ih =>
    rw [sums_cons, List.tail_cons]
    cases found : sums rest with
    | nil => rfl
    | cons b others =>
      rw [found, List.tail_cons] at ih
      rw [List.map_cons, List.zip_cons_cons, List.all_cons, Bool.and_eq_true]
      refine ⟨by simp, ?_⟩
      rw [← List.map_cons, List.zip_map, List.all_map]
      rw [List.all_eq_true] at ih ⊢
      intro p member
      simpa using ih p member

/-- Offsets are let through when they are those of rows that end with the data. -/
theorem validateOffsets_eq_ok : validateOffsets offsets endLen = .ok rows ↔
    ∃ lengths, offsets = sums lengths ∧ lengths.sum = endLen ∧ lengths.length = rows := by
  constructor
  · intro made
    unfold validateOffsets at made
    cases offsets with
    | nil => cases made
    | cons first rest =>
      rw [List.head?_cons] at made
      dsimp only at made
      obtain ⟨_, zero, made⟩ := Except.bind_eq_ok.mp made
      obtain ⟨_, up, made⟩ := Except.bind_eq_ok.mp made
      obtain ⟨_, last, made⟩ := Except.bind_eq_ok.mp made
      cases made
      have zero := of_decide_eq_true (ensure_eq_ok.mp zero)
      subst zero
      obtain ⟨lengths, same⟩ := ascending_sums rest (ensure_eq_ok.mp up)
      simp only [Nat.zero_add, List.map_id'] at same
      have last := of_decide_eq_true (ensure_eq_ok.mp last)
      rw [same, getLast?_sums, Option.some.injEq] at last
      exact ⟨lengths, same, last, by rw [same, length_sums, Nat.add_sub_cancel]⟩
  · rintro ⟨lengths, rfl, rfl, rfl⟩
    unfold validateOffsets
    rw [head?_sums]
    dsimp only
    apply Except.bind_eq_ok.mpr
    refine ⟨(), ensure_eq_ok.mpr (by simp), Except.bind_eq_ok.mpr ⟨(), ensure_eq_ok.mpr (sums_ascending lengths), ?_⟩⟩
    apply Except.bind_eq_ok.mpr
    exact ⟨(), ensure_eq_ok.mpr (by simp [getLast?_sums]), by rw [length_sums, Nat.add_sub_cancel]; rfl⟩

end Offsets

namespace Physical

def offsetRows (offsets : List Nat) (endLen : Nat) : Except ColumnError Nat :=
  (validateOffsets offsets endLen).mapError .malformed

/-- The number of rows, where the data is of the type and `get` can read every one. -/
class Parts (δ : Type) extends Layout δ where
  buildData : DataType → δ → Except ColumnError Nat

def strayVariant : ColumnError := .malformed "value variant does not match column type"

/-- The kind the type takes, and for a decimal its precision. -/
def buildFixed (t : ScalarType) (k : Fixed) (v : List k.Carrier) : Except ColumnError Nat :=
  if fixedKind t ≠ some k then .error strayVariant
  else
    match k, t, v with
    | .decimal, .decimal d, v =>
      if v.any fun u => decide (10 ^ d.precision ≤ Int.natAbs u) then .error (.malformed "decimal value exceeds precision")
      else .ok v.length
    | _, _, v => .ok v.length

def buildVar (t : ScalarType) (k : Varwidth) (offsets : List Nat) (data : List UInt8) : Except ColumnError Nat :=
  if t ≠ k.type then .error strayVariant
  else do
    let rows ← offsetRows offsets data.length
    if k = .string ∧ (rowsAt offsets data).any fun row => (fromUtf8 row).isNone then
      .error (.malformed "string row is not valid utf-8")
    else return rows

instance : Parts Buffer where
  buildData
    | .scalar .bool, .bool bits => .ok bits.len
    | .scalar t, .fixed k v => buildFixed t k v
    | .scalar t, .var k offsets data => buildVar t k offsets data
    | _, _ => .error strayVariant

instance : Parts ColumnData where
  buildData
    | .scalar t, .flat buffer => Parts.buildData (.scalar t) buffer
    | .list t, .list offsets child =>
      if child.ty ≠ .scalar t then .error (.malformed "list child type does not match element type")
      else offsetRows offsets child.len
    | _, _ => .error strayVariant

/-- `Column::from_parts`. -/
def Nulled.fromParts {δ : Type} [Parts δ] (ty : DataType) (data : δ) (validity : Option Bitmap) : Except ColumnError (Nulled δ) := do
  let rows ← Parts.buildData ty data
  if validity.any fun v => decide (v.len ≠ rows) then .error (.malformed "validity length does not match row count")
  else return ⟨ty, data, validity, countNulls validity rows⟩

/-- What the types of the parts promise: a whole bitmap, and offsets that are `u32`. -/
def Buffer.Stored : Buffer → Prop
  | .bool bits => bits.Whole
  | .fixed _ _ => True
  | .var _ offsets _ => ∀ o ∈ offsets, o < 2 ^ 32

def ColumnData.Stored : ColumnData → Prop
  | .flat buffer => buffer.Stored
  | .list offsets child => (∀ o ∈ offsets, o < 2 ^ 32) ∧ child.Sound

/-- The check lets through just the data that is of the type. -/
class LawfulParts (δ : Type) extends Parts δ, LawfulLayout δ where
  Stored : δ → Prop
  build_ok : ∀ {ty d}, Sound ty d → buildData ty d = .ok (Layout.rows d)
  build_sound : ∀ {ty d n}, Stored d → buildData ty d = .ok n → Sound ty d ∧ n = Layout.rows d

section Building

variable {t : ScalarType} {ty : DataType} {n : Nat}

theorem offsetRows_eq_ok {offsets : List Nat} {endLen : Nat} : offsetRows offsets endLen = .ok n ↔
    ∃ lengths, offsets = sums lengths ∧ lengths.sum = endLen ∧ lengths.length = n := by
  rw [← validateOffsets_eq_ok, offsetRows]
  cases validateOffsets offsets endLen <;> simp [Except.mapError]

theorem sum_mem_sums (lengths : List Nat) : lengths.sum ∈ sums lengths := List.mem_of_getLast? (getLast?_sums lengths)

theorem buildFixed_eq_ok {k : Fixed} {v : List k.Carrier} : buildFixed t k v = .ok n ↔
    fixedKind t = some k ∧ (∀ x ∈ v, k.Fits t x) ∧ n = v.length := by
  unfold buildFixed
  by_cases kind : fixedKind t = some k
  · rw [if_neg (by simpa using kind)]
    cases t with
    | decimal d =>
      cases kind
      dsimp only
      by_cases past : (v.any fun u => decide (10 ^ d.precision ≤ Int.natAbs u)) = true
      · rw [if_pos past]
        constructor
        · intro made
          cases made
        · rintro ⟨_, fits, _⟩
          rw [List.any_eq_true] at past
          obtain ⟨u, member, large⟩ := past
          have small := fits u member d rfl
          exact absurd (of_decide_eq_true large) (Nat.not_le.mpr small)
      · rw [if_neg past]
        constructor
        · rintro ⟨⟩
          refine ⟨rfl, ?_, rfl⟩
          rintro u member _ ⟨⟩
          rw [Bool.not_eq_true, List.any_eq_false] at past
          simpa using past u member
        · rintro ⟨_, _, rfl⟩
          rfl
    | _ =>
      cases kind <;>
      · constructor
        · rintro ⟨⟩
          exact ⟨rfl, fun _ _ => trivial, rfl⟩
        · rintro ⟨_, _, rfl⟩
          rfl
  · rw [if_pos kind]
    constructor
    · rintro ⟨⟩
    · rintro ⟨same, _⟩
      exact absurd same kind

theorem buildVar_eq_ok {k : Varwidth} {offsets : List Nat} {data : List UInt8} : buildVar t k offsets data = .ok n ↔
    t = k.type ∧ ∃ lengths, offsets = sums lengths ∧ lengths.sum = data.length ∧ lengths.length = n ∧
      ∀ row ∈ rowsAt offsets data, (k.value row).isSome := by
  unfold buildVar
  by_cases kind : t = k.type
  · rw [if_neg (by simpa using kind)]
    have reads : (∀ row ∈ rowsAt offsets data, (k.value row).isSome) ↔
        ¬ (k = .string ∧ ((rowsAt offsets data).any fun row => (fromUtf8 row).isNone) = true) := by
      cases k with
      | string => simp [Varwidth.value, List.any_eq_true, Option.isSome_iff_ne_none]
      | bytes => simp [Varwidth.value]
    constructor
    · intro made
      obtain ⟨rows, laid, made⟩ := Except.bind_eq_ok.mp made
      obtain ⟨lengths, same, total, count⟩ := offsetRows_eq_ok.mp laid
      split at made
      · cases made
      · rename_i valid
        cases made
        exact ⟨kind, lengths, same, total, count, reads.mpr valid⟩
    · rintro ⟨_, lengths, same, total, count, valid⟩
      apply Except.bind_eq_ok.mpr
      refine ⟨n, offsetRows_eq_ok.mpr ⟨lengths, same, total, count⟩, ?_⟩
      rw [if_neg (reads.mp valid)]
      rfl
  · rw [if_pos kind]
    constructor
    · rintro ⟨⟩
    · rintro ⟨same, _⟩
      exact absurd same kind

namespace Buffer

theorem build_ok {d : Buffer} (sound : Sound ty d) : Parts.buildData ty d = .ok d.rows := by
  cases sound with
  | bool whole => rfl
  | @fixed t k v kind fits =>
    have made : buildFixed t k v = .ok v.length := buildFixed_eq_ok.mpr ⟨kind, fits, rfl⟩
    cases t <;> cases kind <;> exact made
  | @var k lengths data whole small reads =>
    have made : buildVar k.type k (sums lengths) data = .ok lengths.length :=
      buildVar_eq_ok.mpr ⟨rfl, lengths, rfl, whole.symm, rfl, reads⟩
    have rows : (Buffer.var k (sums lengths) data).rows = lengths.length := by simp [Buffer.rows]
    rw [rows]
    cases k <;> exact made

theorem build_sound {d : Buffer} (stored : d.Stored) (made : Parts.buildData ty d = .ok n) : Sound ty d ∧ n = d.rows := by
  cases ty with
  | list t => cases d <;> cases made
  | scalar t =>
    cases d with
    | bool bits =>
      cases t <;> cases made
      exact ⟨.bool stored, rfl⟩
    | fixed k v =>
      have made : buildFixed t k v = .ok n := by cases t <;> exact made
      obtain ⟨kind, fits, rfl⟩ := buildFixed_eq_ok.mp made
      exact ⟨.fixed kind fits, rfl⟩
    | var k offsets data =>
      have made : buildVar t k offsets data = .ok n := by cases t <;> exact made
      obtain ⟨rfl, lengths, rfl, total, rfl, reads⟩ := buildVar_eq_ok.mp made
      refine ⟨.var total.symm (stored _ (sum_mem_sums lengths)) reads, ?_⟩
      simp [Buffer.rows]

end Buffer

namespace ColumnData

theorem build_ok {d : ColumnData} (sound : Sound ty d) : Parts.buildData ty d = .ok (Layout.rows d) := by
  cases sound with
  | @flat ty buffer own =>
    have made := Buffer.build_ok own
    cases ty with
    | scalar t => exact made
    | list t => cases own
  | @list t lengths child own typed count small =>
    change (if child.ty ≠ .scalar t then _ else offsetRows (sums lengths) child.len) = _
    rw [if_neg (by simpa using typed), offsetRows_eq_ok]
    exact ⟨lengths, rfl, count.symm, by simp [Layout.rows]⟩

theorem build_sound {d : ColumnData} (stored : d.Stored) (made : Parts.buildData ty d = .ok n) : Sound ty d ∧ n = Layout.rows d := by
  cases ty with
  | scalar t =>
    cases d with
    | flat buffer =>
      obtain ⟨own, rfl⟩ := Buffer.build_sound stored made
      exact ⟨.flat own, rfl⟩
    | list offsets child => cases made
  | list t =>
    cases d with
    | flat buffer => cases made
    | list offsets child =>
      change (if child.ty ≠ .scalar t then _ else offsetRows offsets child.len) = _ at made
      by_cases typed : child.ty = .scalar t
      · rw [if_neg (by simpa using typed)] at made
        obtain ⟨lengths, rfl, total, rfl⟩ := offsetRows_eq_ok.mp made
        exact ⟨.list stored.2 typed total.symm (stored.1 _ (sum_mem_sums lengths)), by simp [Layout.rows]⟩
      · rw [if_pos typed] at made
        cases made

end ColumnData

end Building

instance : LawfulParts Buffer where
  Stored := Buffer.Stored
  build_ok := Buffer.build_ok
  build_sound := Buffer.build_sound

instance : LawfulParts ColumnData where
  Stored := ColumnData.Stored
  build_ok := ColumnData.build_ok
  build_sound := ColumnData.build_sound

namespace Nulled

variable {δ : Type} [LawfulParts δ] {c : Nulled δ} {ty : DataType} {data : δ} {validity : Option Bitmap}

/-- The parts of a sound column make it again. -/
theorem fromParts_ok (sound : c.Sound) : fromParts c.ty c.data c.validity = .ok c := by
  unfold fromParts
  rw [LawfulParts.build_ok sound.data]
  have lens : ¬ (c.validity.any fun v => decide (v.len ≠ Layout.rows c.data)) = true := by
    cases found : c.validity with
    | none => simp
    | some bits =>
      have len : bits.len = Layout.rows c.data := (sound.whole bits found).2
      simpa using len
  have nulls : c.nullCount = countNulls c.validity (Layout.rows c.data) := sound.nulls
  change (if _ then _ else _) = _
  rw [if_neg lens, ← nulls]
  rfl

/-- Whatever parts are let through, every row of the column can be read. -/
theorem fromParts_sound (stored : LawfulParts.Stored data) (whole : ∀ bm, validity = some bm → bm.Whole)
    (made : fromParts ty data validity = .ok c) :
    c.Sound ∧ c.ty = ty ∧ c.data = data ∧ c.validity = validity := by
  unfold fromParts at made
  obtain ⟨rows, built, made⟩ := Except.bind_eq_ok.mp made
  obtain ⟨own, rfl⟩ := LawfulParts.build_sound stored built
  split at made
  · cases made
  · rename_i lens
    cases made
    refine ⟨⟨own, ?_, rfl⟩, rfl, rfl, rfl⟩
    intro bits found
    dsimp only at found
    subst found
    have len : bits.len = Layout.rows data := by simpa using lens
    exact ⟨whole bits rfl, len⟩

end Nulled

section Typed

/-- A cell that can be read, a null or a value of the type. -/
def Typed (ty : DataType) (cell : Option Value) : Prop := ∃ v, cell = some v ∧ v.HasType ty

variable {t : ScalarType} {ty : DataType}

theorem Buffer.Sound.typed {d : Buffer} (sound : Buffer.Sound ty d) : ∀ cell ∈ values ty d, Typed ty cell := by
  cases sound with
  | @bool bits whole =>
    rw [values_bool]
    intro cell member
    obtain ⟨bit, _, rfl⟩ := List.mem_map.mp member
    exact ⟨.bool bit, rfl, trivial⟩
  | @fixed t k v kind fits =>
    rw [values_fixed]
    intro cell member
    obtain ⟨x, inside, rfl⟩ := List.mem_map.mp member
    cases t with
    | decimal d =>
      cases kind
      have small : Int.natAbs x < 10 ^ d.precision := fits x inside d rfl
      have most : 10 ^ d.precision ≤ 10 ^ 38 := Nat.pow_le_pow_right (by decide) d.precision_le
      have scale : d.scale ≤ 38 := d.scale_le.trans d.precision_le
      refine ⟨.decimal ⟨x, d.scale, scale, by omega⟩, ?_, rfl, small⟩
      rw [Fixed.value, Decimal.new, dif_pos scale, dif_pos (by omega)]
      rfl
    | _ => cases kind <;> exact ⟨_, rfl, trivial⟩
  | @var k lengths data whole small reads =>
    rw [values_var]
    intro cell member
    obtain ⟨row, inside, rfl⟩ := List.mem_map.mp member
    obtain ⟨v, read⟩ := Option.isSome_iff_exists.mp (reads row inside)
    refine ⟨v, read, ?_⟩
    cases k with
    | string =>
      obtain ⟨text, _, rfl⟩ := Option.map_eq_some_iff.mp read
      trivial
    | bytes =>
      cases read
      trivial

variable {δ : Type} [LawfulLayout δ]

theorem Nulled.typed_cells {c : Nulled δ} (each : ∀ cell ∈ values c.ty c.data, Typed c.ty cell) : ∀ cell ∈ c.cells, Typed c.ty cell := by
  intro cell member
  obtain ⟨i, inside, rfl⟩ := List.mem_map.mp member
  have inside := List.mem_range.mp inside
  rw [Nulled.get, if_neg (Nat.not_le.mpr inside)]
  split
  · refine ⟨.null, rfl, ?_⟩
    cases c.ty <;> trivial
  · exact each _ (List.mem_map.mpr ⟨i, List.mem_range.mpr inside, rfl⟩)

theorem ColumnData.Sound.typed {d : ColumnData} (sound : ColumnData.Sound ty d) : ∀ cell ∈ values ty d, Typed ty cell := by
  cases sound with
  | flat own => exact own.typed
  | @list t lengths child own kind count small =>
    rw [values_list count.ge]
    intro cell member
    obtain ⟨row, inside, rfl⟩ := List.mem_map.mp member
    have elements : ∀ cell ∈ row, Typed (.scalar t) cell := by
      intro cell member
      obtain ⟨i, _, rfl⟩ := List.mem_map.mp inside
      rw [← kind]
      exact Nulled.typed_cells own.data.typed cell (List.mem_of_mem_drop (List.mem_of_mem_take member))
    clear member inside
    suffices all : ∃ items : List Value, row.mapM id = some items ∧ ∀ v ∈ items, v.HasScalarType t by
      obtain ⟨items, made, typed⟩ := all
      exact ⟨.list items, by rw [listOf, made]; rfl, typed⟩
    induction row with
    | nil => exact ⟨[], rfl, by simp⟩
    | cons cell row ih =>
      rw [List.forall_mem_cons] at elements
      obtain ⟨v, rfl, typed⟩ := elements.1
      obtain ⟨items, made, others⟩ := ih elements.2
      refine ⟨v :: items, ?_, List.forall_mem_cons.mpr ⟨typed, others⟩⟩
      rw [List.mapM_cons, made]
      rfl

end Typed

end Physical

end Adelie
