import Adelie.Exec.Building
import Adelie.Segment.Encode

namespace Adelie

namespace Physical

section Fixed

variable {t : ScalarType} {k : Fixed}

theorem Fixed.length_write (k : Fixed) (x : k.Carrier) : (k.write x).length = k.width := by
  cases k with
  | uuid => exact x.property
  | ip => exact x.property
  | _ => exact leBytes_length _ _

/-- A slot reads back. -/
theorem Fixed.decodes_one (kind : fixedKind t = some k) {x : k.Carrier} (fits : k.Fits t x) : Decodes k.readOne (k.write x) x := by
  cases k with
  | int64 =>
    have read := (decodes_i64 x.property.1 x.property.2).map (f := wrapI64)
    rwa [wrapI64_val] at read
  | timestamp =>
    have read := (decodes_i64 x.property.1 x.property.2).map (f := wrapI64)
    rwa [wrapI64_val] at read
  | uint64 =>
    have read := (decodes_u64 x.property).map (f := word64)
    rwa [word64_val] at read
  | float64 =>
    have read := (decodes_u64 x.bits.property).map (f := fun n => Float64.mk (word64 n))
    rwa [word64_val] at read
  | decimal =>
    have wide : (10 : Nat) ^ 38 < 2 ^ 127 := by decide
    obtain ⟨d, rfl⟩ : ∃ d, t = .decimal d := by
      cases t <;> cases kind
      exact ⟨_, rfl⟩
    have small : Int.natAbs x < 10 ^ d.precision := fits d rfl
    have most : 10 ^ d.precision ≤ 10 ^ 38 := Nat.pow_le_pow_right (by decide) d.precision_le
    have bound : Int.natAbs x < 2 ^ 127 := by omega
    exact decodes_i128 (by omega) (by omega)
  | date =>
    have read := (decodes_i32 x.property.1 x.property.2).map (f := wrapI32)
    rwa [wrapI32_val] at read
  | uuid => exact decodes_octets16 x
  | ip => exact decodes_octets16 x

theorem Fixed.width_lt (k : Fixed) : k.width < 2 ^ 32 := by
  cases k <;> decide

theorem Fixed.length_writes (k : Fixed) (v : List k.Carrier) : (v.flatMap k.write).length = v.length * k.width := by
  rw [List.length_flatMap]
  calc (v.map fun x => (k.write x).length).sum = (v.map fun _ => k.width).sum := by
        congr 1
        exact List.map_congr_left fun x _ => k.length_write x
    _ = v.length * k.width := by simp

end Fixed

namespace Plain

variable {t : ScalarType}

theorem decodes_fixed {k : Fixed} (kind : fixedKind t = some k) {v : List k.Carrier} (fits : ∀ x ∈ v, k.Fits t x)
    (few : v.length ≤ maxDecodeRows) : Decodes (decode t v.length) (encode (.fixed k v)) (.fixed k v) := by
  have all : Decodes (repeatDecode k.readOne v.length) (v.flatMap k.write) v :=
    Decodes.repeat fun x member => Fixed.decodes_one kind (fits x member)
  have read : Decodes (readFixed k v.length) (encode (.fixed k v)) (.fixed k v) := by
    apply decodes_guardLen few k.width_lt
    · rw [encode, k.length_writes]
    · exact all.map
  cases t <;> cases kind <;> exact read

theorem sums_le {lengths : List Nat} {o : Nat} (member : o ∈ sums lengths) : o ≤ lengths.sum := by
  obtain ⟨i, _, rfl⟩ := List.mem_map.mp member
  exact sum_take_le lengths i

theorem decodes_offsets {lengths : List Nat} (few : lengths.length < maxDecodeRows) (small : lengths.sum < 2 ^ 32) :
    Decodes (readOffsets lengths.length) ((sums lengths).flatMap Sink.u32) (sums lengths) := by
  have all : Decodes (repeatDecode Cursor.u32 (sums lengths).length) ((sums lengths).flatMap Sink.u32) (sums lengths) := by
    apply Decodes.repeat
    intro o member
    exact decodes_u32 (lt_of_le_of_lt (sums_le member) small)
  rw [length_sums] at all
  apply decodes_guardLen few (by decide) _ all
  rw [List.length_flatMap]
  calc (lengths.length + 1) * 4 = ((sums lengths).map fun _ => 4).sum := by simp
    _ ≤ ((sums lengths).map fun o => (Sink.u32 o).length).sum := by
      apply le_of_eq
      congr 1

theorem decodes_var {k : Varwidth} {lengths : List Nat} {data : List UInt8} (few : lengths.length < maxDecodeRows)
    (whole : data.length = lengths.sum) (small : lengths.sum < 2 ^ 32) :
    Decodes (decode k.type lengths.length) (encode (.var k (sums lengths) data)) (.var k (sums lengths) data) := by
  have both : Decodes (readOffsetsAndData lengths.length) ((sums lengths).flatMap Sink.u32 ++ data) (sums lengths, data) := by
    apply (decodes_offsets few small).bind
    rw [getLast?_sums, ← List.append_nil data]
    apply (decodes_take whole).bind
    rw [List.append_nil]
    exact Decodes.pure _
  have read : Decodes (readVar k lengths.length) (encode (.var k (sums lengths) data) ++ []) (.var k (sums lengths) data) :=
    both.bind (Decodes.pure _)
  rw [List.append_nil] at read
  cases k <;> exact read

theorem decodes_bool {bits : Bitmap} (whole : bits.Whole) (few : bits.len ≤ maxDecodeRows) :
    Decodes (decode .bool bits.len) (encode (.bool bits)) (.bool bits) := by
  rw [encode, ← List.append_nil (writeWords bits)]
  apply (decodes_words few whole).bind
  rw [fromWords_eq_some.mpr ⟨whole, rfl, rfl⟩]
  exact Decodes.pure _

end Plain

section IntLike

/-- The types that hold one integer a row. -/
def intLike : ScalarType → Bool
  | .int64 | .uint64 | .timestamp | .date => true
  | _ => false

/-- A codec of signed values and one of unsigned ones that read back what they wrote. -/
structure IntCodec (signed : List Int → List UInt8) (unsigned : List Nat → List UInt8) (signedOf : Nat → Cursor (List Int))
    (unsignedOf : Nat → Cursor (List Nat)) : Prop where
  signed : ∀ v : List Int, (∀ x ∈ v, -2 ^ 63 ≤ x ∧ x < 2 ^ 63) → v.length ≤ maxDecodeRows → Decodes (signedOf v.length) (signed v) v
  unsigned : ∀ v : List Nat, (∀ x ∈ v, x < 2 ^ 64) → v.length ≤ maxDecodeRows → Decodes (unsignedOf v.length) (unsigned v) v

variable {signed : List Int → List UInt8} {unsigned : List Nat → List UInt8} {signedOf : Nat → Cursor (List Int)}
  {unsignedOf : Nat → Cursor (List Nat)} {t : ScalarType} {d : Buffer}

theorem map_back {α β : Type} {f : α → β} {g : β → α} (back : ∀ x, g (f x) = x) (v : List α) : (v.map f).map g = v := by
  rw [List.map_map]
  calc v.map (g ∘ f) = v.map id := List.map_congr_left fun x _ => back x
    _ = v := List.map_id v

theorem reads_intLike (codec : IntCodec signed unsigned signedOf unsignedOf) (kind : intLike t = true)
    (sound : Buffer.Sound (.scalar t) d) (few : d.rows ≤ maxDecodeRows) :
    ∃ bytes, encodeIntLike signed unsigned d = some bytes ∧ Decodes (decodeIntLike (signedOf d.rows) (unsignedOf d.rows) t) bytes d := by
  cases t with
  | int64 =>
    obtain ⟨v, rfl, _⟩ := sound.inv_fixed (k := .int64) rfl
    have read := codec.signed (v.map fun n : I64 => n.val) (List.forall_mem_map.mpr fun n _ => n.property) (by rwa [List.length_map])
    rw [List.length_map] at read
    have mapped := read.map (f := fun u => Buffer.fixed .int64 (u.map wrapI64))
    rw [map_back wrapI64_val] at mapped
    exact ⟨_, rfl, mapped⟩
  | timestamp =>
    obtain ⟨v, rfl, _⟩ := sound.inv_fixed (k := .timestamp) rfl
    have read := codec.signed (v.map fun n : I64 => n.val) (List.forall_mem_map.mpr fun n _ => n.property) (by rwa [List.length_map])
    rw [List.length_map] at read
    have mapped := read.map (f := fun u => Buffer.fixed .timestamp (u.map wrapI64))
    rw [map_back wrapI64_val] at mapped
    exact ⟨_, rfl, mapped⟩
  | uint64 =>
    obtain ⟨v, rfl, _⟩ := sound.inv_fixed (k := .uint64) rfl
    have read := codec.unsigned (v.map fun n : U64 => n.val) (List.forall_mem_map.mpr fun n _ => n.property) (by rwa [List.length_map])
    rw [List.length_map] at read
    have mapped := read.map (f := fun u => Buffer.fixed .uint64 (u.map word64))
    rw [map_back word64_val] at mapped
    exact ⟨_, rfl, mapped⟩
  | date =>
    obtain ⟨v, rfl, _⟩ := sound.inv_fixed (k := .date) rfl
    have narrow : ∀ x ∈ v.map fun n : I32 => n.val, -2 ^ 31 ≤ x ∧ x < 2 ^ 31 := by
      rw [List.forall_mem_map]
      exact fun n _ => n.property
    have read := codec.signed (v.map fun n : I32 => n.val) (fun x member => by have := narrow x member; omega) (by rwa [List.length_map])
    rw [List.length_map] at read
    refine ⟨_, rfl, ?_⟩
    rw [← List.append_nil (signed _)]
    apply read.bind
    have all : (v.map fun n : I32 => n.val).all (fun x => decide (-2 ^ 31 ≤ x ∧ x < 2 ^ 31)) = true := by
      rw [List.all_eq_true]
      exact fun x member => decide_eq_true (narrow x member)
    rw [if_pos all, map_back wrapI32_val]
    exact Decodes.pure _
  | _ => cases kind

theorem rle_codec : IntCodec Rle.encodeI64 Rle.encodeU64 Rle.decodeI64 Rle.decodeU64 where
  signed _ bounds few := Rle.decodes_rle (fun x member => decodes_svarint (bounds x member).1 (bounds x member).2) svarint_pos few
  unsigned _ small few := Rle.decodes_rle (fun x member => decodes_uvarint (small x member)) uvarint_pos few

theorem mapped_codec {encode : List Nat → List UInt8} {decode : Nat → Cursor (List Nat)}
    (reads : ∀ v : List Nat, (∀ x ∈ v, x < 2 ^ 64) → v.length ≤ maxDecodeRows → Decodes (decode v.length) (encode v) v) :
    IntCodec (fun v => encode (mapI64 v)) encode (fun rows => unmapI64 <$> decode rows) decode := by
  refine ⟨fun v bounds few => ?_, reads⟩
  have read := (reads (mapI64 v) (mapI64_lt v) (by simpa using few)).map (f := unmapI64)
  rwa [length_mapI64, unmapI64_mapI64 bounds] at read

theorem for_codec : IntCodec FrameOfRef.encodeI64 FrameOfRef.encodeU64 FrameOfRef.decodeI64 FrameOfRef.decodeU64 :=
  mapped_codec fun _ small few => decodes_for small few

theorem delta_codec : IntCodec Delta.encodeDeltaI64 Delta.encodeDeltaU64 Delta.decodeDeltaI64 Delta.decodeDeltaU64 :=
  mapped_codec fun _ small few => Delta.decodes_delta small few

theorem dod_codec : IntCodec Delta.encodeDodI64 Delta.encodeDodU64 Delta.decodeDodI64 Delta.decodeDodU64 :=
  mapped_codec fun _ small few => Delta.decodes_dod small few

end IntLike

namespace Buffer

variable {t : ScalarType} {enc : Encoding} {c : Nulled Buffer}

/-- What decoding the values makes of them: a dictionary empties the slots of null rows. -/
def reread (validity : Option Bitmap) (enc : Encoding) : Buffer → Buffer
  | .var k offsets data =>
    if enc = .dict then
      .var k (sums ((Dict.keptRows validity offsets data).map List.length)) (Dict.keptRows validity offsets data).flatten
    else .var k offsets data
  | d => d

/-- What the reader's limits leave of a chunk: an offset more than rows, and a dictionary's bytes. -/
def Readable (validity : Option Bitmap) (enc : Encoding) : Buffer → Prop
  | .var _ offsets data =>
    if enc = .dict then Dict.keptBytes validity offsets data ≤ maxDecodeBytes else offsets.length - 1 < maxDecodeRows
  | _ => True

theorem reread_of_ne (validity : Option Bitmap) (other : enc ≠ .dict) (d : Buffer) : d.reread validity enc = d := by
  cases d with
  | var => exact if_neg other
  | _ => rfl

section Applies

theorem applies_dict (applies : Encoding.dict.appliesTo (.scalar t) = true) : ∃ k : Varwidth, t = k.type := by
  cases t <;> cases applies
  · exact ⟨.string, rfl⟩
  · exact ⟨.bytes, rfl⟩

theorem applies_xor (applies : Encoding.xor.appliesTo (.scalar t) = true) : t = .float64 := by
  cases t <;> cases applies
  rfl

theorem applies_rle (applies : Encoding.rle.appliesTo (.scalar t) = true) : t = .bool ∨ t ≠ .bool ∧ intLike t = true := by
  cases t <;> cases applies <;> simp [intLike]

theorem applies_int (applies : enc.appliesTo (.scalar t) = true) (int : enc = .frameOfRef ∨ enc = .delta ∨ enc = .deltaOfDelta) :
    intLike t = true := by
  rcases int with rfl | rfl | rfl
  · cases t <;> cases applies <;> rfl
  · cases t <;> cases applies <;> rfl
  · cases t <;> cases applies <;> rfl

end Applies

theorem intLike_some {signed : List Int → List UInt8} {unsigned : List Nat → List UInt8} {d : Buffer} (kind : intLike t = true)
    (sound : Sound (.scalar t) d) : ∃ bytes, encodeIntLike signed unsigned d = some bytes := by
  cases t with
  | int64 =>
    obtain ⟨v, rfl, _⟩ := sound.inv_fixed (k := .int64) rfl
    exact ⟨_, rfl⟩
  | timestamp =>
    obtain ⟨v, rfl, _⟩ := sound.inv_fixed (k := .timestamp) rfl
    exact ⟨_, rfl⟩
  | uint64 =>
    obtain ⟨v, rfl, _⟩ := sound.inv_fixed (k := .uint64) rfl
    exact ⟨_, rfl⟩
  | date =>
    obtain ⟨v, rfl, _⟩ := sound.inv_fixed (k := .date) rfl
    exact ⟨_, rfl⟩
  | _ => cases kind

/-- An encoding that applies to the type has bytes for its values. -/
theorem encode_ok (sound : Sound c.ty c.data) (ty : c.ty = .scalar t) (applies : enc.appliesTo (.scalar t) = true) :
    ∃ bytes, encodeValues c enc = some bytes := by
  rw [ty] at sound
  cases enc with
  | plain => exact ⟨_, rfl⟩
  | dict =>
    obtain ⟨k, rfl⟩ := applies_dict applies
    obtain ⟨lengths, data, same, _⟩ := sound.inv_var
    rw [encodeValues, same]
    exact ⟨_, rfl⟩
  | rle =>
    rw [encodeValues, ty]
    rcases applies_rle applies with rfl | ⟨other, int⟩
    · obtain ⟨bits, same, _⟩ := sound.inv_bool
      rw [if_pos rfl, same]
      exact ⟨_, rfl⟩
    · rw [if_neg (fun same => other (DataType.scalar.inj same))]
      exact intLike_some int sound
  | frameOfRef => exact intLike_some (applies_int applies (by simp)) sound
  | delta => exact intLike_some (applies_int applies (by simp)) sound
  | deltaOfDelta => exact intLike_some (applies_int applies (by simp)) sound
  | xor =>
    obtain ⟨v, same, _⟩ := (applies_xor applies ▸ sound).inv_fixed (k := .float64) rfl
    rw [encodeValues, same]
    exact ⟨_, rfl⟩

section Reads

variable {validity : Option Bitmap} {d : Buffer}

/-- What the chunk's limits make of its values: the values, or the reason they are refused for. -/
def Outcome (validity : Option Bitmap) (enc : Encoding) (d : Buffer) (read : Except DecodeError (Buffer × List UInt8)) : Prop :=
  (d.Readable validity enc ∧ read = .ok (d.reread validity enc, [])) ∨ (¬ d.Readable validity enc ∧ ∃ e, read = .error e)

theorem Outcome.ok (plain : d.Readable validity enc) (same : d.reread validity enc = d) {read : Cursor Buffer} {bytes : List UInt8}
    (reads : Decodes read bytes d) : Outcome validity enc d (read bytes) := by
  refine .inl ⟨plain, ?_⟩
  rw [same]
  exact reads.whole

theorem Outcome.flat (sound : Sound (.scalar t) d) (fixed : ∀ k : Varwidth, t ≠ k.type) :
    d.Readable validity enc ∧ d.reread validity enc = d := by
  generalize scalar : DataType.scalar t = ty at sound
  cases sound with
  | bool => exact ⟨trivial, rfl⟩
  | fixed => exact ⟨trivial, rfl⟩
  | @var k => exact absurd (DataType.scalar.inj scalar) (fixed k)

theorem plain_outcome (sound : Sound (.scalar t) d) (few : d.rows ≤ maxDecodeRows) :
    Outcome validity .plain d (Plain.decode t d.rows (Plain.encode d)) := by
  rcases scalar_cases t with rfl | ⟨k, kind⟩ | ⟨k, rfl⟩
  · obtain ⟨bits, rfl, whole⟩ := sound.inv_bool
    exact .ok (by exact trivial) rfl (Plain.decodes_bool whole few)
  · obtain ⟨v, rfl, fits⟩ := sound.inv_fixed kind
    exact .ok (by exact trivial) rfl (Plain.decodes_fixed kind fits few)
  · obtain ⟨lengths, data, rfl, whole, small, reads⟩ := sound.inv_var
    have rows : (Buffer.var k (sums lengths) data).rows = lengths.length := by simp [Buffer.rows]
    rw [rows] at few ⊢
    have readable : (Buffer.var k (sums lengths) data).Readable validity .plain ↔ lengths.length < maxDecodeRows := by
      simp [Readable]
    by_cases inside : lengths.length < maxDecodeRows
    · exact .ok (readable.mpr inside) rfl (Plain.decodes_var inside whole small)
    · refine .inr ⟨fun able => inside (readable.mp able), ?_⟩
      have refused : ∀ b, Plain.readVar k lengths.length b = .error (.malformed "row count exceeds MAX_DECODE_ROWS") := by
        intro b
        rw [Plain.readVar, bind_apply, Plain.readOffsetsAndData, bind_apply, Plain.readOffsets, bind_apply, Cursor.guardLen,
          if_pos (by omega)]
        rfl
      cases k <;> exact ⟨_, refused _⟩

theorem dict_outcome {k : Varwidth} (sound : Sound (.scalar k.type) d) (few : d.rows ≤ maxDecodeRows)
    (bits : ∀ bm, validity = some bm → bm.Whole ∧ bm.len = d.rows) {bytes : List UInt8} (made : encodeDict validity d = some bytes) :
    Outcome validity .dict d (decodeDict d.rows validity k.type bytes) := by
  obtain ⟨lengths, data, rfl, whole, small, reads⟩ := sound.inv_var
  have rows : (Buffer.var k (sums lengths) data).rows = lengths.length := by simp [Buffer.rows]
  rw [rows] at few bits ⊢
  cases made
  have read := Dict.decode_encode whole small few bits []
  rw [List.append_nil] at read
  rw [decodeDict, bind_apply, read]
  by_cases over_ : maxDecodeBytes < Dict.keptBytes validity (sums lengths) data
  · rw [if_pos over_]
    refine .inr ⟨?_, _, rfl⟩
    simpa [Readable] using over_
  · rw [if_neg over_]
    refine .inl ⟨by simpa [Readable] using over_, ?_⟩
    cases k <;> rfl

theorem int_outcome {signed : List Int → List UInt8} {unsigned : List Nat → List UInt8} {signedOf : Nat → Cursor (List Int)}
    {unsignedOf : Nat → Cursor (List Nat)} (codec : IntCodec signed unsigned signedOf unsignedOf) (kind : intLike t = true)
    (sound : Sound (.scalar t) d) (few : d.rows ≤ maxDecodeRows) {bytes : List UInt8}
    (made : encodeIntLike signed unsigned d = some bytes) :
    Outcome validity enc d (decodeIntLike (signedOf d.rows) (unsignedOf d.rows) t bytes) := by
  obtain ⟨bytes', made', reads⟩ := reads_intLike codec kind sound few
  rw [made] at made'
  cases made'
  have flat := @Outcome.flat t enc validity d sound (by rintro k rfl; cases k <;> cases kind)
  exact .ok flat.1 flat.2 reads

/-- What is written of a flat column's values reads back as them, exactly when the limits leave it readable. -/
theorem values_outcome (sound : Sound c.ty c.data) (bits : ∀ bm, c.validity = some bm → bm.Whole ∧ bm.len = c.data.rows)
    (ty : c.ty = .scalar t) (applies : enc.appliesTo (.scalar t) = true) (few : c.data.rows ≤ maxDecodeRows) {bytes : List UInt8}
    (made : encodeValues c enc = some bytes) :
    Outcome c.validity enc c.data (decodeValues t c.data.rows enc c.validity bytes) := by
  rw [ty] at sound
  cases enc with
  | plain =>
    cases made
    exact plain_outcome sound few
  | dict =>
    obtain ⟨k, rfl⟩ := applies_dict applies
    exact dict_outcome sound few bits made
  | rle =>
    rw [encodeValues, ty] at made
    rw [decodeValues]
    rcases applies_rle applies with rfl | ⟨other, int⟩
    · rw [if_pos rfl]
      obtain ⟨bm, same, whole⟩ := sound.inv_bool
      rw [if_pos rfl, same] at made
      cases made
      rw [same] at few ⊢
      have len : bm.bits.length ≤ maxDecodeRows := by rwa [Bitmap.length_bits]
      have read := (Rle.decodes_rle (fun b _ => Rle.decodes_boolValue b) (fun b => Nat.one_pos) len).map (f := fun l => Buffer.bool (Bitmap.ofBits l))
      rw [Bitmap.length_bits, ← whole.eq_ofBits] at read
      exact .ok (by exact trivial) rfl read
    · rw [if_neg (fun same => other (DataType.scalar.inj same))] at made
      rw [if_neg other]
      exact int_outcome rle_codec int sound few made
  | frameOfRef => exact int_outcome for_codec (applies_int applies (by simp)) sound few made
  | delta => exact int_outcome delta_codec (applies_int applies (by simp)) sound few made
  | deltaOfDelta => exact int_outcome dod_codec (applies_int applies (by simp)) sound few made
  | xor =>
    obtain rfl := applies_xor applies
    obtain ⟨v, same, _⟩ := sound.inv_fixed (k := .float64) rfl
    rw [encodeValues, same] at made
    cases made
    rw [same] at few ⊢
    have read := @Xor.decode_encode (v.map fun f : Float64 => f.bits.val) (List.forall_mem_map.mpr fun f _ => f.bits.property)
      (by rwa [List.length_map])
    rw [List.length_map] at read
    refine .inl ⟨trivial, ?_⟩
    change (Xor.decode v.length >>= _) (Xor.encode (v.map fun f : Float64 => f.bits.val)) = _
    rw [bind_apply, read]
    change Except.ok (Buffer.fixed .float64 ((v.map fun f : Float64 => f.bits.val).map fun bits => ⟨word64 bits⟩), []) = _
    rw [map_back (g := fun bits => Float64.mk (word64 bits)) fun f => by rw [word64_val]]
    rfl

end Reads

section Yields

variable {rows : Nat}

/-- Whatever the values are read from, there is one a row, and `get` can rely on their layout. -/
def Filled (rows : Nat) (d : Buffer) : Prop := d.Stored ∧ d.rows = rows

theorem yields_fixed (k : Fixed) (rows : Nat) : Yields (Plain.readFixed k rows) (Filled rows) := by
  have each : Yields k.readOne fun _ => True := by
    cases k with
    | decimal => exact fun b v rest made => ⟨trivial, (yields_i128 b v rest made).2⟩
    | int64 => exact yields_i64.map fun _ _ => trivial
    | timestamp => exact yields_i64.map fun _ _ => trivial
    | uint64 => exact (yields_nat 8).map fun _ _ => trivial
    | float64 => exact (yields_nat 8).map fun _ _ => trivial
    | date => exact yields_i32.map fun _ _ => trivial
    | uuid => exact yields_octets16
    | ip => exact yields_octets16
  apply (yields_guardLen rows k.width).bind
  rintro n ⟨rfl, _⟩
  apply (yields_repeat each n).map
  rintro v ⟨length, _⟩
  exact ⟨trivial, length⟩

theorem yields_offsets (rows : Nat) :
    Yields (Plain.readOffsets rows) fun offsets => offsets.length = rows + 1 ∧ ∀ o ∈ offsets, o < 2 ^ 32 := by
  apply (yields_guardLen (rows + 1) 4).bind
  rintro n ⟨rfl, _⟩
  exact yields_repeat (yields_nat 4) (rows + 1)

theorem yields_var (k : Varwidth) (rows : Nat) : Yields (Plain.readVar k rows) (Filled rows) := by
  apply @Yields.bind _ _ _ _ (fun out : List Nat × List UInt8 => out.1.length = rows + 1 ∧ ∀ o ∈ out.1, o < 2 ^ 32)
  · apply (yields_offsets rows).bind
    intro offsets laid
    split
    · exact Yields.fail _
    · apply (yields_take _).bind
      intro data _
      exact Yields.pure laid
  · rintro ⟨offsets, data⟩ ⟨length, small⟩
    apply Yields.pure
    refine ⟨small, ?_⟩
    dsimp only at length
    simp only [Buffer.rows]
    omega

theorem yields_plain (t : ScalarType) (rows : Nat) : Yields (Plain.decode t rows) (Filled rows) := by
  cases t with
  | bool =>
    apply (yields_words rows).bind
    intro words _
    split
    · rename_i bits made
      obtain ⟨whole, _, len⟩ := fromWords_eq_some.mp made
      exact Yields.pure ⟨whole, len⟩
    · exact Yields.fail _
  | string => exact yields_var .string rows
  | bytes => exact yields_var .bytes rows
  | _ => exact yields_fixed _ rows

theorem yields_dict (validity : Option Bitmap) (t : ScalarType) (rows : Nat) : Yields (decodeDict rows validity t) (Filled rows) := by
  apply (Dict.yields_dict rows validity).bind
  rintro ⟨offsets, data⟩ ⟨lengths, same, count, whole, small⟩
  dsimp only at same
  subst same
  have filled : ∀ k : Varwidth, Filled rows (.var k (sums lengths) data) := by
    intro k
    refine ⟨fun o member => lt_of_le_of_lt (Plain.sums_le member) small, ?_⟩
    simp [Buffer.rows, count]
  cases t with
  | string => exact Yields.pure (filled .string)
  | bytes => exact Yields.pure (filled .bytes)
  | _ => exact Yields.fail _

theorem yields_int {signed : Cursor (List Int)} {unsigned : Cursor (List Nat)} (first : Yields signed fun v => v.length = rows)
    (second : Yields unsigned fun v => v.length = rows) (t : ScalarType) : Yields (decodeIntLike signed unsigned t) (Filled rows) := by
  have filled : ∀ (k : Fixed) (v : List k.Carrier), v.length = rows → Filled rows (.fixed k v) := fun _ _ length => ⟨trivial, length⟩
  cases t with
  | int64 => exact first.map fun v length => filled .int64 _ (by rw [List.length_map, length])
  | timestamp => exact first.map fun v length => filled .timestamp _ (by rw [List.length_map, length])
  | uint64 => exact second.map fun v length => filled .uint64 _ (by rw [List.length_map, length])
  | date =>
    apply first.bind
    intro v length
    split
    · exact Yields.pure (filled .date _ (by rw [List.length_map, length]))
    · exact Yields.fail _
  | _ => exact Yields.fail _

theorem yields_mapped {decode : Cursor (List Nat)} (yields : Yields decode fun v => v.length = rows ∧ ∀ x ∈ v, x < 2 ^ 64)
    (t : ScalarType) : Yields (decodeIntLike (unmapI64 <$> decode) decode t) (Filled rows) :=
  yields_int (yields.map fun v laid => by rw [unmapI64, List.length_map, laid.1]) (yields.weaken fun _ laid => laid.1) t

theorem yields_values (t : ScalarType) (rows : Nat) (enc : Encoding) (validity : Option Bitmap) :
    Yields (decodeValues t rows enc validity) (Filled rows) := by
  cases enc with
  | plain => exact yields_plain t rows
  | dict => exact yields_dict validity t rows
  | rle =>
    rw [decodeValues]
    split
    · have value : Yields Rle.boolValue fun _ => True := by
        apply (yields_nat 1).bind
        intro v _
        split
        · exact Yields.fail _
        · exact Yields.pure trivial
      apply (Rle.yields_rle value rows).bind
      rintro l ⟨length, _⟩
      exact Yields.pure ⟨Bitmap.ofBits_whole l, by simp [Buffer.rows, length]⟩
    · exact yields_int ((Rle.yields_rle yields_svarint rows).weaken fun _ laid => laid.1)
        ((Rle.yields_rle yields_uvarint rows).weaken fun _ laid => laid.1) t
  | frameOfRef => exact yields_mapped (yields_for rows) t
  | delta => exact yields_mapped (Delta.yields_delta rows) t
  | deltaOfDelta => exact yields_mapped (Delta.yields_dod rows) t
  | xor =>
    apply (Xor.yields_decode rows).bind
    rintro v ⟨length, _⟩
    exact Yields.pure ⟨trivial, by simp [Buffer.rows, length]⟩

end Yields

section Reread

variable {validity : Option Bitmap} {d : Buffer} {i : Nat}

theorem length_keptRows (validity : Option Bitmap) (lengths : List Nat) (data : List UInt8) :
    (Dict.keptRows validity (sums lengths) data).length = lengths.length := by simp [Dict.keptRows]

/-- What is read back is of the type still, and holds what the valid rows held. -/
theorem reread_ok (sound : Sound (.scalar t) d) : Sound (.scalar t) (d.reread validity enc) ∧ (d.reread validity enc).rows = d.rows ∧
    ∀ i < d.rows, Dict.isValid validity i = true → (d.reread validity enc).value (.scalar t) i = d.value (.scalar t) i := by
  by_cases other : enc = .dict
  · subst other
    generalize scalar : DataType.scalar t = ty at sound
    cases sound with
    | bool whole => exact ⟨.bool whole, rfl, fun _ _ _ => rfl⟩
    | fixed kind fits => exact ⟨.fixed kind fits, rfl, fun _ _ _ => rfl⟩
    | @var k lengths data whole small reads =>
      have count := length_keptRows validity lengths data
      have rows := rowsAt_flatten (Dict.keptRows validity (sums lengths) data)
      have bytes := @Dict.sum_kept_le validity lengths data whole
      have total : ((Dict.keptRows validity (sums lengths) data).map List.length).sum ≤ data.length := by
        simp only [Dict.keptRows, length_sums, Nat.add_sub_cancel, List.map_map]
        exact bytes
      have same : ∀ i < lengths.length, Dict.kept validity (sums lengths) data i = (Dict.keptRows validity (sums lengths) data).getD i [] := by
        intro i inside
        simp [Dict.keptRows, inside]
      have reread : (Buffer.var k (sums lengths) data).reread validity .dict =
          .var k (sums ((Dict.keptRows validity (sums lengths) data).map List.length)) (Dict.keptRows validity (sums lengths) data).flatten := by
        rw [Buffer.reread, if_pos rfl]
      rw [reread]
      refine ⟨?_, by simp [Buffer.rows, count], ?_⟩
      · refine .var (by rw [List.length_flatten]) (by omega) ?_
        rw [rows]
        intro row member
        obtain ⟨i, inside, rfl⟩ := List.mem_map.mp member
        rw [length_sums, Nat.add_sub_cancel, List.mem_range] at inside
        unfold Dict.kept
        split
        · apply reads
          exact List.mem_map.mpr ⟨i, by simpa using inside, rfl⟩
        · exact value_empty k
      · intro i inside valid
        have inside : i < lengths.length := by simpa [Buffer.rows] using inside
        have left : (rowsAt (sums ((Dict.keptRows validity (sums lengths) data).map List.length))
            (Dict.keptRows validity (sums lengths) data).flatten).getD i [] = Dict.sliceAt (sums lengths) data i := by
          rw [rows, ← same i inside, Dict.kept, if_pos valid]
        have within : i < (Dict.keptRows validity (sums lengths) data).length := by omega
        rw [rowsAt, List.getD_eq_getElem _ _ (by simpa using within)] at left
        simp only [List.getElem_map, List.getElem_range] at left
        simp only [Buffer.value, left]
        rfl
  · rw [reread_of_ne validity other]
    exact ⟨sound, rfl, fun _ _ _ => rfl⟩

end Reread

end Buffer

end Physical

end Adelie
