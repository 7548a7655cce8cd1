import Adelie.Segment.IntLike
import Adelie.Segment.Writer

namespace Adelie

namespace Crc

def poly : Nat := 0x82F63B78

def turn (c : Nat) : Nat := if c &&& 1 ≠ 0 then poly ^^^ c >>> 1 else c >>> 1

def table : List Nat := (List.range 256).map (turn^[8])

def push (crc : Nat) (b : UInt8) : Nat := table.getD ((crc ^^^ b.toNat) &&& 0xFF) 0 ^^^ crc >>> 8

end Crc

/-- Every bit of a word flipped at the start and at the end. -/
def crc32c (bytes : List UInt8) : Nat := bytes.foldl Crc.push 0xFFFFFFFF ^^^ 0xFFFFFFFF

section Crc

theorem turn_lt {c : Nat} (small : c < 2 ^ 32) : Crc.turn c < 2 ^ 32 := by
  have half : c >>> 1 < 2 ^ 32 := lt_of_le_of_lt (Nat.shiftRight_le c 1) small
  unfold Crc.turn
  split
  · exact Nat.xor_lt_two_pow (by decide) half
  · exact half

theorem turns_lt (n : Nat) {c : Nat} (small : c < 2 ^ 32) : Crc.turn^[n] c < 2 ^ 32 := by
  induction n generalizing c with
  | zero => exact small
  | succ n ih => exact ih (turn_lt small)

theorem push_lt {crc : Nat} (small : crc < 2 ^ 32) (b : UInt8) : Crc.push crc b < 2 ^ 32 := by
  apply Nat.xor_lt_two_pow
  · rw [Crc.table, List.getD_eq_getElem?_getD, List.getElem?_map]
    cases found : (List.range 256)[(crc ^^^ b.toNat) &&& 0xFF]? with
    | none => decide
    | some i =>
      have inside := List.mem_range.mp (List.mem_of_getElem? found)
      exact turns_lt 8 (by omega)
  · exact lt_of_le_of_lt (Nat.shiftRight_le crc 8) small

/-- A checksum is a `u32`. -/
theorem crc32c_lt (bytes : List UInt8) : crc32c bytes < 2 ^ 32 := by
  apply Nat.xor_lt_two_pow _ (by decide)
  have start : 0xFFFFFFFF < 2 ^ 32 := by decide
  induction bytes using List.reverseRecOn with
  | nil => exact start
  | append_singleton bytes b ih =>
    rw [List.foldl_append]
    exact push_lt ih b

example : crc32c [0x31, 0x32, 0x33, 0x34, 0x35, 0x36, 0x37, 0x38, 0x39] = 0xE3069283 := by decide +kernel

end Crc

/-- A failed decode, and the column it was in where that is known. -/
structure Segment.Located where
  err : DecodeError
  column : Option String

abbrev FooterCursor := Decoder Segment.Located

namespace FooterCursor

def loc {α : Type} (column : Option String) (d : Cursor α) : FooterCursor α := fun b => (d b).mapError (⟨·, column⟩)

/-- A body read on its own, as a cursor's. -/
def record {α : Type} (d : FooterCursor α) : FooterCursor α := do
  let body ← loc none Cursor.bytes
  fun rest => (d body).map fun p => (p.1, rest)

end FooterCursor

section Encode

/-- A tag and the value. `none` is a panic, on a value of another type. -/
def encodeOpt : Option Value → DataType → Option (List UInt8)
  | none, _ => some (Sink.u8 0)
  | some v, .scalar t => (encodeValue v t).map (Sink.u8 1 ++ ·)
  | some _, .list _ => none

def encodeChunkMeta (chunk : RawChunk) (ty : DataType) : Option (List UInt8) := do
  let min ← encodeOpt chunk.min ty
  let max ← encodeOpt chunk.max ty
  return Sink.uvarint chunk.offset ++ (Sink.uvarint chunk.len ++ (Sink.u32 chunk.crc ++ (Sink.uvarint chunk.encoding ++
    (Sink.uvarint chunk.nullCount ++ (min ++ max)))))

def encodeField (field : Field) : List UInt8 := Sink.str field.name ++ encodeType field.ty

def encodeSchema (fields : List Field) : List UInt8 :=
  Sink.uvarint fields.length ++ fields.flatMap fun f => Sink.record (encodeField f)

def encodeRowGroup (fields : List Field) (rg : RawRowGroup) : Option (List UInt8) := do
  let chunks ← (rg.chunks.zip fields).mapM fun p => encodeChunkMeta p.1 p.2.ty
  return Sink.uvarint rg.rows ++ chunks.flatMap Sink.record

def encodeRowGroups (f : SegmentFooter) : Option (List UInt8) := do
  let groups ← f.rowGroups.mapM (encodeRowGroup f.fields)
  return Sink.uvarint f.rowGroups.length ++ groups.flatMap Sink.record

/-- No row group is 0, any other one more than its number. -/
def encodeEntry (e : RawIndexEntry) : List UInt8 :=
  Sink.uvarint e.kind ++ (Sink.uvarint ((e.rowGroup.map (· + 1)).getD 0) ++ (Sink.uvarint e.columns.length ++
    (e.columns.flatMap Sink.uvarint ++ (Sink.uvarint e.offset ++ (Sink.uvarint e.len ++ (Sink.u32 e.crc ++ Sink.bytes e.params))))))

def encodeDirectory (entries : List RawIndexEntry) : List UInt8 :=
  Sink.uvarint entries.length ++ entries.flatMap fun e => Sink.record (encodeEntry e)

/-- Schema, row groups and directory, each a record. -/
def encodeFooter (f : SegmentFooter) : Option (List UInt8) := do
  let groups ← encodeRowGroups f
  return Sink.record (encodeSchema f.fields) ++ (Sink.record groups ++ Sink.record (encodeDirectory f.indexes))

end Encode

section Decode

open Cursor FooterCursor

def decodeOpt (ty : DataType) : Cursor (Option Value) := do
  match ← u8 with
  | 0 => return none
  | 1 => return some (← decodeValue ty)
  | _ => fail (.malformed "opt_value tag not 0 or 1")

def readChunk (ty : DataType) (rows : Nat) : Cursor RawChunk := do
  let offset ← uvarint
  let len ← uvarint
  let crc ← u32
  let encoding ← uvarint
  let nullCount ← uvarint
  if rows < nullCount then fail (.malformed "null_count exceeds row group rows")
  else
    let min ← decodeOpt ty
    let max ← decodeOpt ty
    return { offset, len, crc, encoding, nullCount, min, max }

def decodeChunkMeta (rows : Nat) (field : Field) : FooterCursor RawChunk :=
  loc (some field.name) (Cursor.record (readChunk field.ty rows))

def decodeField : FooterCursor Field := do
  let name ← loc none str
  let ty ← loc (some name) decodeType
  return ⟨name, ty⟩

def decodeSchema : FooterCursor (List Field) := FooterCursor.record do
  let ncols ← loc none uvarint
  let ncols ← loc none (guardLen ncols 1)
  repeatDecode (FooterCursor.record decodeField) ncols

def decodeRowGroup (fields : List Field) : FooterCursor RawRowGroup := do
  let rows ← loc none uvarint
  return ⟨rows, ← fields.mapM (decodeChunkMeta rows)⟩

def decodeRowGroups (fields : List Field) : FooterCursor (List RawRowGroup) := FooterCursor.record do
  let nrg ← loc none uvarint
  let nrg ← loc none (guardLen nrg 1)
  repeatDecode (FooterCursor.record (decodeRowGroup fields)) nrg

def decodeEntry : Cursor RawIndexEntry := do
  let kind ← uvarint
  let rgPlus1 ← uvarint
  let rowGroup := if rgPlus1 = 0 then none else some (rgPlus1 - 1)
  let ncols ← uvarint
  let ncols ← guardLen ncols 1
  let columns ← repeatDecode uvarint ncols
  let offset ← uvarint
  let len ← uvarint
  let crc ← u32
  let params ← bytes
  return { kind, rowGroup, columns, offset, len, crc, params }

def decodeDirectory : Cursor (List RawIndexEntry) := do
  let n ← uvarint
  let n ← guardLen n 1
  repeatDecode (Cursor.record decodeEntry) n

def decodeFooterFrom : FooterCursor SegmentFooter := do
  let fields ← decodeSchema
  let rowGroups ← decodeRowGroups fields
  let indexes ← loc none (Cursor.record decodeDirectory)
  return ⟨fields, rowGroups, indexes⟩

/-- What follows the directory is passed over. -/
def decodeFooter (bytes : List UInt8) : Except Segment.Located SegmentFooter := (decodeFooterFrom bytes).map Prod.fst

end Decode

section Reads

open Cursor FooterCursor

variable {α : Type} {d : Cursor α} {bytes body rest : List UInt8} {v : α} {c : Option String}

theorem loc_ok (read : d bytes = .ok (v, rest)) : loc c d bytes = .ok (v, rest) := by
  rw [loc, read]
  rfl

theorem Decodes.loc (reads : Decodes d bytes v) : Decodes (loc c d) bytes v := fun rest => loc_ok (reads rest)

theorem decodes_located {d : FooterCursor α} (small : body.length < 2 ^ 64) (reads : Decodes d body v) :
    Decodes (FooterCursor.record d) (Sink.record body) v := by
  intro after
  have read := Decodes.loc (c := none) (decodes_bytes small) after
  rw [FooterCursor.record, bind_apply, Sink.record, read]
  change (d body).map _ = _
  rw [reads.whole]
  rfl

/-- A count that what follows has room for is let through. -/
theorem decodes_locGuard {n : Nat} {f : Nat → FooterCursor α} (count : n ≤ maxDecodeRows) (room : n ≤ bytes.length)
    (reads : Decodes (f n) bytes v) : Decodes (loc c (guardLen n 1) >>= f) bytes v := by
  intro rest
  have read : guardLen n 1 (bytes ++ rest) = .ok (n, bytes ++ rest) := by
    apply guardLen_eq_ok count (by decide)
    rw [List.length_append]
    omega
  rw [bind_apply, loc_ok read]
  exact reads rest

theorem length_le_flatMap {β : Type} {f : β → List UInt8} {l : List β} {x : β} (member : x ∈ l) :
    (f x).length ≤ (l.flatMap f).length := by
  rw [List.length_flatMap]
  exact List.single_le_sum (by simp) _ (List.mem_map_of_mem member)

theorem length_record (body : List UInt8) : body.length < (Sink.record body).length := by
  have := uvarint_pos body.length
  rw [Sink.record, Sink.bytes, List.length_append]
  omega

/-- Items of a byte each at least. -/
theorem count_le_flatMap {β : Type} {f : β → List UInt8} (some_ : ∀ x, 0 < (f x).length) (l : List β) :
    l.length ≤ (l.flatMap f).length := by
  induction l with
  | nil => simp
  | cons x l ih =>
    have := some_ x
    rw [List.flatMap_cons, List.length_append, List.length_cons]
    omega

theorem record_pos (body : List UInt8) : 0 < (Sink.record body).length := Nat.zero_lt_of_lt (length_record body)

end Reads

/-- A statistic that the value codec can write. -/
def Storable (ty : DataType) (v : Value) : Prop := ∃ t, ty = .scalar t ∧ v.HasScalarType t ∧ v.isNull = false

structure RawChunk.Sound (chunk : RawChunk) (rows : Nat) (ty : DataType) : Prop where
  offset : chunk.offset < 2 ^ 64
  len : chunk.len < 2 ^ 64
  crc : chunk.crc < 2 ^ 32
  encoding : chunk.encoding < 2 ^ 64
  nulls : chunk.nullCount ≤ rows
  min : ∀ m, chunk.min = some m → Storable ty m
  max : ∀ m, chunk.max = some m → Storable ty m

structure RawRowGroup.Sound (fields : List Field) (rg : RawRowGroup) : Prop where
  rows : rg.rows < 2 ^ 64
  chunks : List.Forall₂ (fun (chunk : RawChunk) (f : Field) => chunk.Sound rg.rows f.ty) rg.chunks fields

structure RawIndexEntry.Sound (e : RawIndexEntry) : Prop where
  kind : e.kind < 2 ^ 64
  rowGroup : ∀ g, e.rowGroup = some g → g + 1 < 2 ^ 64
  count : e.columns.length ≤ maxDecodeRows
  columns : ∀ c ∈ e.columns, c < 2 ^ 64
  offset : e.offset < 2 ^ 64
  len : e.len < 2 ^ 64
  crc : e.crc < 2 ^ 32

/-- What the widths of a footer's numbers and the reader's cap on counts leave room for. -/
structure SegmentFooter.Sound (f : SegmentFooter) : Prop where
  columns : f.fields.length ≤ maxDecodeRows
  groups : f.rowGroups.length ≤ maxDecodeRows
  entries : f.indexes.length ≤ maxDecodeRows
  rowGroups : ∀ rg ∈ f.rowGroups, rg.Sound f.fields
  indexes : ∀ e ∈ f.indexes, e.Sound

section Footer

open Cursor FooterCursor

variable {ty : DataType} {rows : Nat} {bytes : List UInt8} {fields : List Field}

theorem sized_of_encoded {t : ScalarType} {v : Value} (made : encodeValue v t = some bytes) (small : bytes.length < 2 ^ 64) : v.Sized := by
  cases v with
  | string s =>
    cases t <;> cases made
    simp only [Sink.str, Sink.bytes, List.length_append] at small
    change (utf8 s).length < 2 ^ 64
    omega
  | bytes b =>
    cases t <;> cases made
    simp only [Sink.bytes, List.length_append] at small
    change b.length < 2 ^ 64
    omega
  | _ => trivial

theorem decodes_opt {v : Option Value} (typed : ∀ m, v = some m → Storable ty m) (made : encodeOpt v ty = some bytes)
    (small : bytes.length < 2 ^ 64) : Decodes (decodeOpt ty) bytes v := by
  cases v with
  | none =>
    cases made
    rw [← List.append_nil (Sink.u8 0)]
    exact (decodes_u8 (by decide)).bind (Decodes.pure _)
  | some m =>
    obtain ⟨t, rfl, own, value⟩ := typed m rfl
    obtain ⟨more, encoded, rfl⟩ := Option.map_eq_some_iff.mp made
    rw [List.length_append] at small
    obtain ⟨more', encoded', reads⟩ := decodes_value own value (sized_of_encoded encoded (by omega))
    rw [encoded] at encoded'
    cases encoded'
    exact (decodes_u8 (by decide)).bind reads.map

theorem decodes_chunk {chunk : RawChunk} (sound : chunk.Sound rows ty) (few : rows < 2 ^ 64) (made : encodeChunkMeta chunk ty = some bytes)
    (small : bytes.length < 2 ^ 64) : Decodes (readChunk ty rows) bytes chunk := by
  obtain ⟨min, first, made⟩ := Option.bind_eq_some_iff.mp made
  obtain ⟨max, second, made⟩ := Option.bind_eq_some_iff.mp made
  cases made
  simp only [List.length_append] at small
  have nulls := sound.nulls
  apply (decodes_uvarint sound.offset).bind
  apply (decodes_uvarint sound.len).bind
  apply (decodes_u32 sound.crc).bind
  apply (decodes_uvarint sound.encoding).bind
  apply (decodes_uvarint (by omega)).bind
  rw [if_neg (by omega)]
  apply (decodes_opt sound.min first (by omega)).bind
  rw [← List.append_nil max]
  exact (decodes_opt sound.max second (by omega)).bind (Decodes.pure _)

theorem decodes_field {field : Field} (small : (encodeField field).length < 2 ^ 64) : Decodes decodeField (encodeField field) field := by
  rw [encodeField, List.length_append] at small
  have named : (utf8 field.name).length < 2 ^ 64 := by
    have length : (Sink.str field.name).length = (Sink.uvarint (utf8 field.name).length).length + (utf8 field.name).length := by
      rw [Sink.str, Sink.bytes, List.length_append]
    omega
  rw [encodeField, ← List.append_nil (encodeType field.ty)]
  apply (Decodes.loc (decodes_str named)).bind
  exact (Decodes.loc (decodes_type field.ty)).bind (Decodes.pure _)

/-- Records read one by one, each from the body that was written for it. -/
theorem decodes_records {β : Type} {d : FooterCursor β} {encode : β → List UInt8} {l : List β}
    (small : (l.flatMap fun x => Sink.record (encode x)).length < 2 ^ 64)
    (each : ∀ x ∈ l, (encode x).length < 2 ^ 64 → Decodes d (encode x) x) :
    Decodes (repeatDecode (FooterCursor.record d) l.length) (l.flatMap fun x => Sink.record (encode x)) l := by
  apply Decodes.repeat
  intro x member
  have room := length_le_flatMap (f := fun x => Sink.record (encode x)) member
  have body := length_record (encode x)
  have fits : (encode x).length < 2 ^ 64 := by omega
  exact decodes_located fits (each x member fits)

theorem decodes_schema (count : fields.length ≤ maxDecodeRows) (small : (encodeSchema fields).length < 2 ^ 64) :
    Decodes decodeSchema (Sink.record (encodeSchema fields)) fields := by
  apply decodes_located small
  rw [encodeSchema, List.length_append] at small
  have few : fields.length < 2 ^ 64 := lt_of_le_of_lt count (by decide)
  apply (Decodes.loc (decodes_uvarint few)).bind
  apply decodes_locGuard count (count_le_flatMap (fun f => record_pos _) fields)
  exact decodes_records (by omega) fun f _ => decodes_field

theorem decodes_chunks {chunks : List RawChunk} {metas : List (List UInt8)} (few : rows < 2 ^ 64)
    (sound : List.Forall₂ (fun (chunk : RawChunk) (f : Field) => chunk.Sound rows f.ty) chunks fields)
    (made : (chunks.zip fields).mapM (fun p => encodeChunkMeta p.1 p.2.ty) = some metas)
    (small : (metas.flatMap Sink.record).length < 2 ^ 64) :
    Decodes (fields.mapM (decodeChunkMeta rows)) (metas.flatMap Sink.record) chunks := by
  induction sound generalizing metas with
  | nil =>
    cases made
    exact Decodes.pure []
  | @cons chunk f chunks fields head _ ih =>
    rw [List.zip_cons_cons, List.mapM_cons] at made
    obtain ⟨first, encoded, made⟩ := Option.bind_eq_some_iff.mp made
    obtain ⟨others, rest, made⟩ := Option.bind_eq_some_iff.mp made
    cases made
    rw [List.flatMap_cons, List.length_append] at small
    have body := length_record first
    have own : Decodes (decodeChunkMeta rows f) (Sink.record first) chunk :=
      Decodes.loc (decodes_record (by omega) (decodes_chunk head few encoded (by omega)).whole)
    rw [List.mapM_cons, List.flatMap_cons]
    apply own.bind
    rw [← List.append_nil (others.flatMap Sink.record)]
    exact (ih rest (by omega)).bind (Decodes.pure _)

theorem decodes_rowGroup {rg : RawRowGroup} (sound : rg.Sound fields) (made : encodeRowGroup fields rg = some bytes)
    (small : bytes.length < 2 ^ 64) : Decodes (decodeRowGroup fields) bytes rg := by
  obtain ⟨metas, encoded, made⟩ := Option.bind_eq_some_iff.mp made
  cases made
  rw [List.length_append] at small
  apply (Decodes.loc (decodes_uvarint sound.rows)).bind
  exact (decodes_chunks sound.rows sound.chunks encoded (by omega)).map

theorem map_of_mapM_some {β γ : Type} {f : β → Option γ} {l : List β} {r : List γ} (made : l.mapM f = some r) (d : γ) :
    r = l.map fun x => (f x).getD d := by
  have each := forall₂_of_mapM_option made
  clear made
  induction each with
  | nil => rfl
  | cons head _ ih =>
    rw [List.map_cons, head, ← ih]
    rfl

theorem decodes_rowGroups {f : SegmentFooter} (sound : f.Sound) (made : encodeRowGroups f = some bytes) (small : bytes.length < 2 ^ 64) :
    Decodes (decodeRowGroups f.fields) (Sink.record bytes) f.rowGroups := by
  apply decodes_located small
  obtain ⟨groups, encoded, made⟩ := Option.bind_eq_some_iff.mp made
  cases made
  have each := forall₂_of_mapM_option encoded
  have bodies := map_of_mapM_some encoded []
  rw [List.length_append] at small
  have few : f.rowGroups.length < 2 ^ 64 := lt_of_le_of_lt sound.groups (by decide)
  have laid : groups.flatMap Sink.record = f.rowGroups.flatMap fun rg => Sink.record ((encodeRowGroup f.fields rg).getD []) := by
    rw [bodies, List.flatMap_map]
  rw [laid] at small ⊢
  apply (Decodes.loc (decodes_uvarint few)).bind
  apply decodes_locGuard sound.groups (count_le_flatMap (fun rg => record_pos _) f.rowGroups)
  apply decodes_records (by omega)
  intro rg member room
  obtain ⟨body, own⟩ : ∃ body, encodeRowGroup f.fields rg = some body := by
    obtain ⟨i, inside, rfl⟩ := List.mem_iff_getElem.mp member
    exact ⟨_, each.get inside (by rwa [← each.length_eq])⟩
  rw [own] at room ⊢
  exact decodes_rowGroup (sound.rowGroups rg member) own room

theorem decodes_entry {e : RawIndexEntry} (sound : e.Sound) (small : (encodeEntry e).length < 2 ^ 64) :
    Decodes decodeEntry (encodeEntry e) e := by
  simp only [encodeEntry, List.length_append, Sink.bytes] at small
  have few : e.columns.length < 2 ^ 64 := lt_of_le_of_lt sound.count (by decide)
  have number : (e.rowGroup.map (· + 1)).getD 0 < 2 ^ 64 := by
    cases found : e.rowGroup with
    | none => exact (by decide : 0 < 2 ^ 64)
    | some g => exact sound.rowGroup g found
  have back : (if (e.rowGroup.map (· + 1)).getD 0 = 0 then none else some ((e.rowGroup.map (· + 1)).getD 0 - 1)) = e.rowGroup := by
    cases e.rowGroup <;> simp
  apply (decodes_uvarint sound.kind).bind
  apply (decodes_uvarint number).bind
  apply (decodes_uvarint few).bind
  apply decodes_guardLen sound.count (by decide)
  · have least := count_le_flatMap uvarint_pos e.columns
    simp only [List.length_append]
    omega
  apply (Decodes.repeat fun c member => decodes_uvarint (sound.columns c member)).bind
  apply (decodes_uvarint sound.offset).bind
  apply (decodes_uvarint sound.len).bind
  apply (decodes_u32 sound.crc).bind
  rw [← List.append_nil (Sink.bytes e.params), back]
  exact (decodes_bytes (by omega)).bind (Decodes.pure _)

theorem decodes_directory {entries : List RawIndexEntry} (count : entries.length ≤ maxDecodeRows) (sound : ∀ e ∈ entries, e.Sound)
    (small : (encodeDirectory entries).length < 2 ^ 64) : Decodes decodeDirectory (encodeDirectory entries) entries := by
  rw [encodeDirectory, List.length_append] at small
  have few : entries.length < 2 ^ 64 := lt_of_le_of_lt count (by decide)
  apply (decodes_uvarint few).bind
  apply decodes_guardLen count (by decide)
  · rw [Nat.mul_one]
    exact count_le_flatMap (fun e => record_pos _) entries
  apply Decodes.repeat
  intro e member
  have room := length_le_flatMap (f := fun e => Sink.record (encodeEntry e)) member
  have body := length_record (encodeEntry e)
  have fits : (encodeEntry e).length < 2 ^ 64 := by omega
  exact decodes_record fits (decodes_entry (sound e member) fits).whole

theorem encodeOpt_ok {v : Option Value} (typed : ∀ m, v = some m → Storable ty m) : ∃ bytes, encodeOpt v ty = some bytes := by
  cases v with
  | none => exact ⟨_, rfl⟩
  | some m =>
    obtain ⟨t, rfl, own, value⟩ := typed m rfl
    cases m with
    | null => cases value
    | list items => cases t <;> cases own
    | _ => cases t <;> first | exact own.elim | exact ⟨_, rfl⟩

theorem encodeChunkMeta_ok {chunk : RawChunk} (sound : chunk.Sound rows ty) : ∃ bytes, encodeChunkMeta chunk ty = some bytes := by
  obtain ⟨min, first⟩ := encodeOpt_ok sound.min
  obtain ⟨max, second⟩ := encodeOpt_ok sound.max
  exact ⟨_, by rw [encodeChunkMeta, first, second]; rfl⟩

theorem mapM_some {β γ : Type} {f : β → Option γ} {l : List β} (each : ∀ x ∈ l, ∃ y, f x = some y) : ∃ r, l.mapM f = some r := by
  induction l with
  | nil => exact ⟨[], rfl⟩
  | cons x l ih =>
    rw [List.forall_mem_cons] at each
    obtain ⟨y, own⟩ := each.1
    obtain ⟨r, rest⟩ := ih each.2
    exact ⟨y :: r, by rw [List.mapM_cons, own, rest]; rfl⟩

/-- A footer is written without a panic, and reads back as it was, whatever follows it. -/
theorem decodes_footer {f : SegmentFooter} (sound : f.Sound) : ∃ bytes, encodeFooter f = some bytes ∧
    (bytes.length < 2 ^ 64 → Decodes decodeFooterFrom bytes f) := by
  have each : ∀ rg ∈ f.rowGroups, ∃ body, encodeRowGroup f.fields rg = some body := by
    intro rg member
    have chunks : ∀ p ∈ rg.chunks.zip f.fields, ∃ body, encodeChunkMeta p.1 p.2.ty = some body := by
      intro p inside
      have own := (sound.rowGroups rg member).chunks
      rw [List.forall₂_iff_zip] at own
      exact encodeChunkMeta_ok (own.2 inside)
    obtain ⟨metas, made⟩ := mapM_some chunks
    exact ⟨_, by rw [encodeRowGroup, made]; rfl⟩
  obtain ⟨groups, made⟩ := mapM_some each
  have encoded : encodeRowGroups f = some (Sink.uvarint f.rowGroups.length ++ groups.flatMap Sink.record) := by
    rw [encodeRowGroups, made]
    rfl
  refine ⟨_, by rw [encodeFooter, encoded]; rfl, ?_⟩
  intro small
  simp only [List.length_append] at small
  have schema := length_record (encodeSchema f.fields)
  have rowGroups := length_record (Sink.uvarint f.rowGroups.length ++ groups.flatMap Sink.record)
  have directory := length_record (encodeDirectory f.indexes)
  apply (decodes_schema sound.columns (by omega)).bind
  apply (decodes_rowGroups sound encoded (by omega)).bind
  rw [← List.append_nil (Sink.record (encodeDirectory f.indexes))]
  have entries := decodes_directory sound.entries sound.indexes (by omega)
  exact (Decodes.loc (decodes_record (by omega) entries.whole)).bind (Decodes.pure _)

end Footer

end Adelie
