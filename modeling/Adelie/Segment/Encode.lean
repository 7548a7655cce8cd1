import Adelie.Exec.Parts
import Adelie.Segment.Dict
import Adelie.Segment.Nulls
import Adelie.Segment.Writer
import Adelie.Segment.Xor

namespace Adelie

/-- What a chunk is refused for: its bytes, or an encoding that its type does not take. -/
inductive ChunkError where
  | decode (e : DecodeError)
  | unknownEncoding (id : Nat)

abbrev ChunkCursor := Decoder ChunkError

namespace ChunkCursor

def lift {α : Type} (d : Cursor α) : ChunkCursor α := fun b => (d b).mapError .decode

def refuse {α : Type} (e : ChunkError) : ChunkCursor α := fun _ => .error e

end ChunkCursor

def Encoding.fromId : Nat → Option Encoding
  | 0 => some .plain
  | 1 => some .dict
  | 2 => some .rle
  | 3 => some .frameOfRef
  | 4 => some .delta
  | 5 => some .deltaOfDelta
  | 6 => some .xor
  | _ => none

def sampleRows : Nat := 4096

namespace Physical

namespace Fixed

def write : (k : Fixed) → k.Carrier → List UInt8
  | .int64, n | .timestamp, n => Sink.i64 n.val
  | .uint64, n => Sink.u64 n.val
  | .float64, f => Sink.u64 f.bits.val
  | .decimal, n => Sink.i128 n
  | .date, days => Sink.i32 days.val
  | .uuid, bytes | .ip, bytes => bytes.val

def width : Fixed → Nat
  | .int64 | .timestamp | .uint64 | .float64 => 8
  | .decimal | .uuid | .ip => 16
  | .date => 4

def readOne : (k : Fixed) → Cursor k.Carrier
  | .int64 | .timestamp => wrapI64 <$> Cursor.i64
  | .uint64 => word64 <$> Cursor.u64
  | .float64 => (fun n => ⟨word64 n⟩) <$> Cursor.u64
  | .decimal => Cursor.i128
  | .date => wrapI32 <$> Cursor.i32
  | .uuid | .ip => octets16

end Fixed

namespace Plain

/-- One more offset than rows. -/
def readOffsets (rows : Nat) : Cursor (List Nat) := do
  let n ← Cursor.guardLen (rows + 1) 4
  repeatDecode Cursor.u32 n

def readOffsetsAndData (rows : Nat) : Cursor (List Nat × List UInt8) := do
  let offsets ← readOffsets rows
  match offsets.getLast? with
  | none => Cursor.fail (.malformed "missing offsets")
  | some last => return (offsets, ← Cursor.raw last)

def readFixed (k : Fixed) (rows : Nat) : Cursor Buffer := do
  let n ← Cursor.guardLen rows k.width
  return .fixed k (← repeatDecode k.readOne n)

def readVar (k : Varwidth) (rows : Nat) : Cursor Buffer := do
  let (offsets, data) ← readOffsetsAndData rows
  return .var k offsets data

def encode : Buffer → List UInt8
  | .bool bits => writeWords bits
  | .fixed k v => v.flatMap k.write
  | .var _ offsets data => offsets.flatMap Sink.u32 ++ data

def decode : ScalarType → Nat → Cursor Buffer
  | .bool, rows => do
    match Bitmap.fromWords (← readWords rows) rows with
    | some bits => return .bool bits
    | none => Cursor.fail (.malformed "bad bool value bitmap")
  | .int64, rows => readFixed .int64 rows
  | .timestamp, rows => readFixed .timestamp rows
  | .uint64, rows => readFixed .uint64 rows
  | .float64, rows => readFixed .float64 rows
  | .decimal _, rows => readFixed .decimal rows
  | .date, rows => readFixed .date rows
  | .uuid, rows => readFixed .uuid rows
  | .ip, rows => readFixed .ip rows
  | .string, rows => readVar .string rows
  | .bytes, rows => readVar .bytes rows

end Plain

/-- The signed kinds, DATE widened. -/
def asI64 : Buffer → Option (List Int)
  | .fixed .int64 v => some (v.map fun n => n.val)
  | .fixed .timestamp v => some (v.map fun n => n.val)
  | .fixed .date v => some (v.map fun n => n.val)
  | _ => none

def asU64 : Buffer → Option (List Nat)
  | .fixed .uint64 v => some (v.map fun n => n.val)
  | _ => none

/-- `none` is a panic, on data that the encoding does not apply to. -/
def encodeIntLike (signed : List Int → List UInt8) (unsigned : List Nat → List UInt8) (d : Buffer) : Option (List UInt8) :=
  match asI64 d with
  | some v => some (signed v)
  | none => (asU64 d).map unsigned

def decodeIntLike (signed : Cursor (List Int)) (unsigned : Cursor (List Nat)) : ScalarType → Cursor Buffer
  | .int64 => do return .fixed .int64 ((← signed).map wrapI64)
  | .timestamp => do return .fixed .timestamp ((← signed).map wrapI64)
  | .uint64 => do return .fixed .uint64 ((← unsigned).map word64)
  | .date => do
    let v ← signed
    if v.all fun x => decide (-2 ^ 31 ≤ x ∧ x < 2 ^ 31) then return .fixed .date (v.map wrapI32)
    else Cursor.fail (.malformed "date value out of i32 range")
  | _ => Cursor.fail (.malformed "encoding does not apply to this type")

/-- How a column's values are written and read. `none` is a panic. -/
class Chunked (δ : Type) extends Parts δ where
  encodeValues : Nulled δ → Encoding → Option (List UInt8)
  decodeValues : DataType → Nat → Encoding → Option Bitmap → ChunkCursor δ

namespace Buffer

def encodeDict (validity : Option Bitmap) : Buffer → Option (List UInt8)
  | .var _ offsets data => some (Dict.encode offsets data validity)
  | _ => none

def encodeBoolRle : Buffer → Option (List UInt8)
  | .bool bits => some (Rle.encodeBool bits.bits)
  | _ => none

def encodeXor : Buffer → Option (List UInt8)
  | .fixed .float64 v => some (Xor.encode (v.map fun f => f.bits.val))
  | _ => none

def encodeValues (c : Nulled Buffer) : Encoding → Option (List UInt8)
  | .plain => some (Plain.encode c.data)
  | .dict => encodeDict c.validity c.data
  | .rle =>
    if c.ty = .bool then encodeBoolRle c.data else encodeIntLike Rle.encodeI64 Rle.encodeU64 c.data
  | .frameOfRef => encodeIntLike FrameOfRef.encodeI64 FrameOfRef.encodeU64 c.data
  | .delta => encodeIntLike Delta.encodeDeltaI64 Delta.encodeDeltaU64 c.data
  | .deltaOfDelta => encodeIntLike Delta.encodeDodI64 Delta.encodeDodU64 c.data
  | .xor => encodeXor c.data

def decodeDict (rows : Nat) (validity : Option Bitmap) (t : ScalarType) : Cursor Buffer := do
  let (offsets, data) ← Dict.decode rows validity
  match t with
  | .string => return .var .string offsets data
  | .bytes => return .var .bytes offsets data
  | _ => Cursor.fail (.malformed "dict encoding used on a non-string/bytes type")

def decodeValues (t : ScalarType) (rows : Nat) : Encoding → Option Bitmap → Cursor Buffer
  | .plain, _ => Plain.decode t rows
  | .dict, validity => decodeDict rows validity t
  | .rle, _ =>
    if t = .bool then do return .bool (Bitmap.ofBits (← Rle.decodeBool rows))
    else decodeIntLike (Rle.decodeI64 rows) (Rle.decodeU64 rows) t
  | .frameOfRef, _ => decodeIntLike (FrameOfRef.decodeI64 rows) (FrameOfRef.decodeU64 rows) t
  | .delta, _ => decodeIntLike (Delta.decodeDeltaI64 rows) (Delta.decodeDeltaU64 rows) t
  | .deltaOfDelta, _ => decodeIntLike (Delta.decodeDodI64 rows) (Delta.decodeDodU64 rows) t
  | .xor, _ => do return .fixed .float64 ((← Xor.decode rows).map fun bits => ⟨word64 bits⟩)

end Buffer

/-- A type that no encoding takes is refused before its values are read. -/
def inapplicable : ChunkError := .decode (.malformed "encoding does not apply to this type")

instance : Chunked Buffer where
  encodeValues := Buffer.encodeValues
  decodeValues
    | .scalar t, rows, enc, validity => ChunkCursor.lift (Buffer.decodeValues t rows enc validity)
    | .list _, _, _, _ => ChunkCursor.refuse inapplicable

namespace Nulled

variable {δ : Type} [Chunked δ]

/-- The validity section, then the values. -/
def encodeWith (c : Nulled δ) (enc : Encoding) : Option (List UInt8) :=
  (Chunked.encodeValues c enc).map (Nulls.encodeValidity c.validity ++ ·)

/-- Every encoding of the type, in the order of their ids. -/
def candidates (ty : DataType) : List Encoding :=
  ((List.range 7).filterMap Encoding.fromId).filter fun e => e.appliesTo ty

/-- Four windows of a long column, where there are rows for them. -/
def windows (rows : Nat) : List (Nat × Nat) :=
  [0, rows / 4, rows / 2, 3 * rows / 4].filterMap fun s =>
    if 0 < min 1024 (rows - s) then some (s, min 1024 (rows - s)) else none

/-- The whole of a short column, else its windows joined. -/
def buildSample (c : Nulled δ) : Option (Nulled δ) :=
  if c.len ≤ sampleRows then c.slice 0 c.len
  else do
    let pieces ← (windows c.len).mapM fun w => c.slice w.1 w.2
    (concat c.ty pieces).toOption

/-- The encoding is the best so far when it takes fewer bytes than every one before. -/
def consider (sample : Nulled δ) (best : Option (Encoding × Nat)) (enc : Encoding) : Option (Option (Encoding × Nat)) := do
  let size := (← sample.encodeWith enc).length
  return if best.all fun b => decide (size < b.2) then some (enc, size) else best

def choose (c : Nulled δ) : Option Encoding := do
  let sample ← c.buildSample
  let best ← (candidates c.ty).foldlM (consider sample) none
  return (best.map Prod.fst).getD .plain

/-- The pinned encoding, which has to apply, or the one that the sample picks. -/
def encodeColumn (c : Nulled δ) (pin : Option Encoding) : Option (Encoding × List UInt8) := do
  let enc ← match pin with
    | some e => if e.appliesTo c.ty then some e else none
    | none => c.choose
  return (enc, ← c.encodeWith enc)

def decodeParts (ty : DataType) (rows : Nat) (enc : Encoding) : ChunkCursor (Option Bitmap × δ) := do
  let validity ← ChunkCursor.lift (Nulls.decodeValidity rows)
  let values ← Chunked.decodeValues ty rows enc validity
  return (validity, values)

def decodeColumn (ty : DataType) (rows id : Nat) (bytes : List UInt8) : Except ChunkError (Nulled δ) :=
  if maxDecodeRows < rows then .error (.decode (.malformed "row count exceeds MAX_DECODE_ROWS"))
  else
    match (Encoding.fromId id).filter (·.appliesTo ty) with
    | none => .error (.unknownEncoding id)
    | some enc => do
      let ((validity, values), rest) ← decodeParts ty rows enc bytes
      if rest ≠ [] then .error (.decode (.malformed "trailing bytes after chunk values"))
      else (fromParts ty values validity).mapError fun _ => .decode (.malformed "column parts")

end Nulled

namespace ColumnData

def encodeValues (c : Nulled ColumnData) (enc : Encoding) : Option (List UInt8) :=
  match c.data with
  | .flat buffer => Buffer.encodeValues ⟨c.ty, buffer, c.validity, c.nullCount⟩ enc
  | .list offsets child =>
    if enc = .plain then do
      let (childEnc, chunk) ← child.encodeColumn none
      return offsets.flatMap Sink.u32 ++ (Sink.uvarint childEnc.id ++ Sink.bytes chunk)
    else none

/-- The offsets, and the child as a chunk of its own. -/
def decodeList (t : ScalarType) (rows : Nat) : ChunkCursor ColumnData := do
  let offsets ← ChunkCursor.lift (Plain.readOffsets rows)
  let childId ← ChunkCursor.lift Cursor.uvarint
  let childBytes ← ChunkCursor.lift Cursor.bytes
  match offsets.getLast? with
  | none => ChunkCursor.refuse (.decode (.malformed "missing list offsets"))
  | some last =>
    match Nulled.decodeColumn (.scalar t) last childId childBytes with
    | .ok child => return .list offsets child
    | .error e => ChunkCursor.refuse e

def decodeValues : DataType → Nat → Encoding → Option Bitmap → ChunkCursor ColumnData
  | .scalar t, rows, enc, validity => ColumnData.flat <$> ChunkCursor.lift (Buffer.decodeValues t rows enc validity)
  | .list t, rows, .plain, _ => decodeList t rows
  | .list _, _, _, _ => ChunkCursor.refuse inapplicable

end ColumnData

instance : Chunked ColumnData where
  encodeValues := ColumnData.encodeValues
  decodeValues := ColumnData.decodeValues

end Physical

end Adelie
