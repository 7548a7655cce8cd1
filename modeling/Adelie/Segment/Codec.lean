import Adelie.Segment.Index
import Adelie.Types.Platform

namespace Adelie

section TypeIds

def typeDecimal : Nat := 5

def typeList : Nat := 12

def typeId : ScalarType → Nat
  | .bool => 1
  | .int64 => 2
  | .uint64 => 3
  | .float64 => 4
  | .decimal _ => typeDecimal
  | .string => 6
  | .bytes => 7
  | .timestamp => 8
  | .date => 9
  | .uuid => 10
  | .ip => 11

def encodeRawType (id : Nat) (params : List UInt8) : List UInt8 := Sink.uvarint id ++ Sink.bytes params

def typeParams : ScalarType → List UInt8
  | .decimal t => Sink.u8 t.precision ++ Sink.u8 t.scale
  | _ => []

def encodeType : DataType → List UInt8
  | .scalar t => encodeRawType (typeId t) (typeParams t)
  | .list t => encodeRawType typeList (encodeRawType (typeId t) (typeParams t))

def DataType.listOf : DataType → Except TypeError DataType
  | .scalar t => .ok (.list t)
  | .list _ => .error .nestedList

open Cursor

/-- A DECIMAL's parameters. -/
def decodeDecimalType : Cursor DataType := do
  let precision ← u8
  let scale ← u8
  match DecimalType.new precision scale with
  | .ok t => return .decimal t
  | .error _ => fail (.malformed "bad decimal params")

/-- A type's parameters on their own: what is left of them is passed over. -/
def readParams (d : Cursor DataType) (params : List UInt8) : Except DecodeError DataType := (d params).map Prod.fst

def decodeElement (element : Cursor DataType) : Cursor DataType := do
  let elem ← element
  match elem.listOf with
  | .ok ty => return ty
  | .error _ => fail (.malformed "nested list")

def parseType (element : Option (Cursor DataType)) (id : Nat) (params : List UInt8) : Except DecodeError DataType :=
  match id with
  | 1 => .ok .bool
  | 2 => .ok .int64
  | 3 => .ok .uint64
  | 4 => .ok .float64
  | 5 => readParams decodeDecimalType params
  | 6 => .ok .string
  | 7 => .ok .bytes
  | 8 => .ok .timestamp
  | 9 => .ok .date
  | 10 => .ok .uuid
  | 11 => .ok .ip
  | 12 => readParams (decodeElement (element.getD (fail .truncated))) params
  | other => .error (.unknownTypeId other)

/-- The element of a LIST is read by `element`, and there is none inside a LIST. -/
def decodeTypeAt (element : Option (Cursor DataType)) : Cursor DataType := do
  let id ← uvarint
  if id = typeList ∧ element.isNone = true then fail (.malformed "nested list")
  else
    let params ← bytes
    match parseType element id params with
    | .ok ty => return ty
    | .error e => fail e

def decodeType : Cursor DataType := decodeTypeAt (some (decodeTypeAt none))

end TypeIds

section Values

open Cursor

theorem word64_lt (n : Nat) : n % 2 ^ 64 < 2 ^ 64 := Nat.mod_lt _ (by decide)

def word64 (n : Nat) : U64 := ⟨n % 2 ^ 64, word64_lt n⟩

def wrapI32 (n : Int) : I32 := ⟨(n + 2 ^ 31) % 2 ^ 32 - 2 ^ 31, by omega, by omega⟩

/-- Sixteen bytes, which `take` gives or refuses. -/
def octets16 : Cursor Octets16 := do
  let b ← raw 16
  if size : b.length = 16 then return ⟨b, size⟩ else fail .truncated

def decodeDecimal (t : DecimalType) : Cursor Value := do
  let unscaled ← i128
  if 10 ^ t.precision ≤ unscaled.natAbs then fail (.malformed "decimal magnitude exceeds precision")
  else
    match Decimal.new unscaled t.scale with
    | .ok d => return .decimal d
    | .error _ => fail (.malformed "bad decimal value")

def decodeBool : Cursor Value := do
  let byte ← u8
  if byte = 0 then return .bool false
  else if byte = 1 then return .bool true
  else fail (.malformed "bool byte not 0 or 1")

def decodeValue : DataType → Cursor Value
  | .bool => decodeBool
  | .int64 => do return .int64 (wrapI64 (← i64))
  | .uint64 => do return .uint64 (word64 (← u64))
  | .float64 => do return .float64 ⟨word64 (← u64)⟩
  | .decimal t => decodeDecimal t
  | .string => do return .string (← str)
  | .bytes => do return .bytes (← bytes)
  | .timestamp => do return .timestamp (wrapI64 (← i64))
  | .date => do return .date (wrapI32 (← i32))
  | .uuid => do return .uuid (← octets16)
  | .ip => do return .ip (← octets16)
  | .list _ => fail (.malformed "list has no value codec")

/-- A length that a `usize` counts. -/
def Value.Sized : Value → Prop
  | .string s => (utf8 s).length < 2 ^ 64
  | .bytes b => b.length < 2 ^ 64
  | _ => True

theorem wrapI64_val (n : I64) : wrapI64 n.val = n := by
  obtain ⟨low, high⟩ := n.property
  apply Subtype.ext
  change (n.val + 2 ^ 63) % 2 ^ 64 - 2 ^ 63 = n.val
  omega

theorem wrapI32_val (n : I32) : wrapI32 n.val = n := by
  obtain ⟨low, high⟩ := n.property
  apply Subtype.ext
  change (n.val + 2 ^ 31) % 2 ^ 32 - 2 ^ 31 = n.val
  omega

theorem word64_val (n : U64) : word64 n.val = n := Subtype.ext (Nat.mod_eq_of_lt n.property)

theorem decodes_octets16 (u : Octets16) : Decodes octets16 u.val u := by
  have read : Decodes octets16 (u.val ++ []) u := by
    refine (decodes_take u.property).bind ?_
    rw [dif_pos u.property]
    exact Decodes.pure u
  rwa [List.append_nil] at read

theorem decodes_bool (b : Bool) : Decodes decodeBool (Sink.u8 b.toNat) (.bool b) := by
  have small : b.toNat < 256 := by cases b <;> decide
  have read : Decodes decodeBool (Sink.u8 b.toNat ++ []) (.bool b) := by
    refine (decodes_u8 small).bind ?_
    cases b
    · exact Decodes.pure _
    · exact Decodes.pure _
  rwa [List.append_nil] at read

theorem decodes_decimal {t : DecimalType} {d : Decimal} (scale : d.scale = t.scale) (small : d.unscaled.natAbs < 10 ^ t.precision) :
    Decodes (decodeDecimal t) (Sink.i128 d.unscaled) (.decimal d) := by
  have bound := d.small
  have wide : (10 : Nat) ^ 38 < 2 ^ 127 := by decide
  have read : Decodes (decodeDecimal t) (Sink.i128 d.unscaled ++ []) (.decimal d) := by
    refine (decodes_i128 (by omega) (by omega)).bind ?_
    have made : Decimal.new d.unscaled t.scale = .ok d := by
      unfold Decimal.new
      rw [← scale, dif_pos d.scale_le, dif_pos d.small]
    rw [if_neg (by omega), made]
    exact Decodes.pure _
  rwa [List.append_nil] at read

/-- A value of its type is read back as it was written. -/
theorem decodes_value {t : ScalarType} {v : Value} (typed : v.HasScalarType t) (some_ : v.isNull = false) (sized : v.Sized) :
    ∃ bytes, encodeValue v t = some bytes ∧ Decodes (decodeValue (.scalar t)) bytes v := by
  cases v with
  | null => cases some_
  | list items => cases t <;> cases typed
  | bool b =>
    cases t <;> first | exact typed.elim | exact ⟨_, rfl, decodes_bool b⟩
  | int64 n =>
    cases t <;> first | exact typed.elim | skip
    have read := (decodes_i64 n.property.1 n.property.2).map (f := fun n => Value.int64 (wrapI64 n))
    rw [wrapI64_val] at read
    exact ⟨_, rfl, read⟩
  | uint64 n =>
    cases t <;> first | exact typed.elim | skip
    have read := (decodes_u64 n.property).map (f := fun n => Value.uint64 (word64 n))
    rw [word64_val] at read
    exact ⟨_, rfl, read⟩
  | float64 x =>
    cases t <;> first | exact typed.elim | skip
    have read := (decodes_u64 x.bits.property).map (f := fun n => Value.float64 ⟨word64 n⟩)
    rw [word64_val] at read
    exact ⟨_, rfl, read⟩
  | decimal d =>
    cases t <;> first | exact typed.elim | exact ⟨_, rfl, decodes_decimal typed.1 typed.2⟩
  | string s =>
    cases t <;> first | exact typed.elim | exact ⟨_, rfl, (decodes_str sized).map⟩
  | bytes b =>
    cases t <;> first | exact typed.elim | exact ⟨_, rfl, (decodes_bytes sized).map⟩
  | timestamp n =>
    cases t <;> first | exact typed.elim | skip
    have read := (decodes_i64 n.property.1 n.property.2).map (f := fun n => Value.timestamp (wrapI64 n))
    rw [wrapI64_val] at read
    exact ⟨_, rfl, read⟩
  | date n =>
    cases t <;> first | exact typed.elim | skip
    have read := (decodes_i32 n.property.1 n.property.2).map (f := fun n => Value.date (wrapI32 n))
    rw [wrapI32_val] at read
    exact ⟨_, rfl, read⟩
  | uuid u =>
    cases t <;> first | exact typed.elim | exact ⟨_, rfl, (decodes_octets16 u).map⟩
  | ip u =>
    cases t <;> first | exact typed.elim | exact ⟨_, rfl, (decodes_octets16 u).map⟩

end Values

section Types

open Cursor

theorem decodes_rawType {id : Nat} {params : List UInt8} {element : Option (Cursor DataType)} {ty : DataType} (small : id < 2 ^ 64)
    (short : params.length < 2 ^ 64) (outer : ¬ (id = typeList ∧ element.isNone = true)) (parsed : parseType element id params = .ok ty) :
    Decodes (decodeTypeAt element) (encodeRawType id params) ty := by
  have read : Decodes (decodeTypeAt element) (Sink.uvarint id ++ (Sink.bytes params ++ [])) ty := by
    refine (decodes_uvarint small).bind ?_
    rw [if_neg outer]
    refine (decodes_bytes short).bind ?_
    rw [parsed]
    exact Decodes.pure ty
  rwa [List.append_nil] at read

theorem decodes_decimalType (t : DecimalType) : Decodes decodeDecimalType (typeParams (.decimal t)) (.decimal t) := by
  have precision := t.precision_le
  have scale := t.scale_le
  have read : Decodes decodeDecimalType (Sink.u8 t.precision ++ (Sink.u8 t.scale ++ [])) (.decimal t) := by
    refine (decodes_u8 (by omega)).bind ?_
    refine (decodes_u8 (by omega)).bind ?_
    have made : DecimalType.new t.precision t.scale = .ok t := by
      unfold DecimalType.new
      rw [dif_pos ⟨t.precision_pos, t.precision_le⟩, dif_pos t.scale_le]
    rw [made]
    exact Decodes.pure _
  rwa [List.append_nil] at read

theorem readParams_whole {d : Cursor DataType} {params : List UInt8} {ty : DataType} (reads : Decodes d params ty) :
    readParams d params = .ok ty := by
  unfold readParams
  rw [reads.whole]
  rfl

theorem parse_scalarType (element : Option (Cursor DataType)) (t : ScalarType) :
    parseType element (typeId t) (typeParams t) = .ok (.scalar t) := by
  cases t with
  | decimal t => exact readParams_whole (decodes_decimalType t)
  | _ => rfl

theorem length_typeParams (t : ScalarType) : (typeParams t).length ≤ 2 := by
  cases t with
  | decimal t => simp [typeParams, Sink.u8]
  | _ => simp [typeParams]

theorem decodes_scalarType (element : Option (Cursor DataType)) (t : ScalarType) :
    Decodes (decodeTypeAt element) (encodeRawType (typeId t) (typeParams t)) (.scalar t) := by
  have short := length_typeParams t
  have id : typeId t < 12 := by cases t <;> simp [typeId, typeDecimal]
  have outer : ¬ (typeId t = typeList ∧ element.isNone = true) := by
    rintro ⟨same, _⟩
    rw [same] at id
    exact absurd id (by decide)
  exact decodes_rawType (by omega) (by omega) outer (parse_scalarType element t)

theorem length_uvarintIn (n v : Nat) : (Sink.uvarintIn n v).length ≤ n := by
  induction n generalizing v with
  | zero => simp [Sink.uvarintIn]
  | succ n ih =>
    have rest := ih (v / 128)
    unfold Sink.uvarintIn
    split
    · simp
    · rw [List.length_cons]
      omega

theorem length_rawType (id : Nat) (params : List UInt8) : (encodeRawType id params).length ≤ 20 + params.length := by
  have first := length_uvarintIn 10 id
  have second := length_uvarintIn 10 params.length
  unfold encodeRawType Sink.bytes Sink.uvarint
  rw [List.length_append, List.length_append]
  omega

/-- Every type is read back from its id and parameters. -/
theorem decodes_type (ty : DataType) : Decodes decodeType (encodeType ty) ty := by
  cases ty with
  | scalar t => exact decodes_scalarType _ t
  | list t =>
    have short := length_rawType (typeId t) (typeParams t)
    have small := length_typeParams t
    have element : Decodes (decodeElement (decodeTypeAt none)) (encodeRawType (typeId t) (typeParams t) ++ []) (.list t) :=
      (decodes_scalarType none t).bind (Decodes.pure _)
    rw [List.append_nil] at element
    exact decodes_rawType (by decide) (by omega) (by simp) (readParams_whole element)

end Types

section Varints

/-- Seven bits a byte, the lowest first. -/
def varintValue : List UInt8 → Nat
  | [] => 0
  | byte :: rest => byte.toNat % 128 + 128 * varintValue rest

/-- The high bit is set on every byte but the last. -/
def Terminated : List UInt8 → Prop
  | [] => False
  | [byte] => byte.toNat < 128
  | byte :: rest => 128 ≤ byte.toNat ∧ Terminated rest

theorem terminated_cons {byte : UInt8} {w : List UInt8} :
    Terminated (byte :: w) ↔ byte.toNat < 128 ∧ w = [] ∨ 128 ≤ byte.toNat ∧ Terminated w := by
  cases w with
  | nil => simp [Terminated]
  | cons next w => simp [Terminated]

open Cursor

theorem u8_nil : u8 [] = .error .truncated := rfl

theorem u8_cons (byte : UInt8) (b : List UInt8) : u8 (byte :: b) = .ok (byte.toNat, b) := by
  change Except.ok (leNat [byte], b) = _
  simp [leNat]

theorem uvarintFrom_cons (n shift result : Nat) (byte : UInt8) (b : List UInt8) : uvarintFrom (n + 1) shift result (byte :: b) =
    if n = 0 ∧ 1 < byte.toNat then .error (.malformed "varint overflow")
    else if byte.toNat < 128 then .ok (result + byte.toNat % 128 * 2 ^ shift, b)
    else uvarintFrom n (shift + 7) (result + byte.toNat % 128 * 2 ^ shift) b := by
  rw [uvarintFrom, bind_apply, u8_cons]
  simp only [bind, Except.bind]
  split
  · rfl
  · split
    · rfl
    · rfl

theorem uvarintFrom_nil (n shift result : Nat) : uvarintFrom (n + 1) shift result [] = .error .truncated := rfl

theorem not_terminated_of_nil {w rest : List UInt8} (whole : [] = w ++ rest) : ¬ Terminated w := by
  rw [(List.append_eq_nil_iff.mp whole.symm).1]
  exact id

/-- The bytes accepted are the terminated ones of at most so many bytes whose number fits, and the number is theirs. -/
theorem uvarintFrom_eq_ok (n shift result : Nat) (b rest : List UInt8) (v : Nat) :
    uvarintFrom (n + 1) shift result b = .ok (v, rest) ↔ ∃ w, b = w ++ rest ∧ Terminated w ∧ w.length ≤ n + 1 ∧
      varintValue w < 2 * 128 ^ n ∧ v = result + varintValue w * 2 ^ shift := by
  induction n generalizing shift result b with
  | zero =>
    cases b with
    | nil =>
      rw [uvarintFrom_nil]
      exact ⟨fun made => (by cases made), fun ⟨w, whole, terminated, _⟩ => absurd terminated (not_terminated_of_nil whole)⟩
    | cons byte b =>
      rw [uvarintFrom_cons]
      constructor
      · intro made
        split at made
        · cases made
        · rename_i small
          rw [if_pos (by omega)] at made
          cases made
          refine ⟨[byte], rfl, ?_, by simp, ?_, by simp [varintValue]⟩
          · change byte.toNat < 128
            omega
          · simp only [varintValue]
            omega
      · rintro ⟨w, whole, terminated, short, small, rfl⟩
        cases w with
        | nil => exact terminated.elim
        | cons first w =>
          have empty : w = [] := List.length_eq_zero_iff.mp (by simpa using short)
          subst empty
          have last : first.toNat < 128 := terminated
          cases whole
          simp only [varintValue] at small ⊢
          rw [if_neg (by omega), if_pos last]
          simp
  | succ n ih =>
    cases b with
    | nil =>
      rw [uvarintFrom_nil]
      exact ⟨fun made => (by cases made), fun ⟨w, whole, terminated, _⟩ => absurd terminated (not_terminated_of_nil whole)⟩
    | cons byte b =>
      rw [uvarintFrom_cons, if_neg (by omega)]
      by_cases last : byte.toNat < 128
      · rw [if_pos last]
        constructor
        · intro made
          cases made
          refine ⟨[byte], rfl, last, by simp, ?_, by simp [varintValue]⟩
          have := Nat.one_le_pow n 128 (by decide)
          simp only [varintValue, Nat.pow_succ]
          omega
        · rintro ⟨w, whole, terminated, _, _, rfl⟩
          cases w with
          | nil => exact terminated.elim
          | cons first w =>
            cases whole
            rcases terminated_cons.mp terminated with ⟨_, rfl⟩ | ⟨more, _⟩
            · simp [varintValue]
            · omega
      · rw [if_neg last, ih]
        constructor
        · rintro ⟨w, rfl, terminated, short, small, rfl⟩
          refine ⟨byte :: w, rfl, terminated_cons.mpr (.inr ⟨by omega, terminated⟩), by simpa using short, ?_, ?_⟩
          · rw [varintValue, Nat.pow_succ]
            omega
          · rw [varintValue, pow_add]
            ring
        · rintro ⟨w, whole, terminated, short, small, rfl⟩
          cases w with
          | nil => exact terminated.elim
          | cons first w =>
            cases whole
            rcases terminated_cons.mp terminated with ⟨few, _⟩ | ⟨_, terminated⟩
            · omega
            · rw [varintValue, Nat.pow_succ] at small
              refine ⟨w, rfl, terminated, by simpa using short, by omega, ?_⟩
              rw [varintValue, pow_add]
              ring

/-- No number past 64 bits is read, and none is cut down to them. -/
theorem uvarint_eq_ok (b rest : List UInt8) (v : Nat) : uvarint b = .ok (v, rest) ↔
    ∃ w, b = w ++ rest ∧ Terminated w ∧ w.length ≤ 10 ∧ varintValue w < 2 ^ 64 ∧ v = varintValue w := by
  have read := uvarintFrom_eq_ok 9 0 0 b rest v
  have size : 2 * 128 ^ 9 = 2 ^ 64 := by decide
  simp only [Nat.zero_add, Nat.pow_zero, Nat.mul_one, size] at read
  exact read

end Varints

section Readers

open Cursor

variable {α β : Type}

/-- Whatever the bytes, what is read is of the kind, and a first part of them. -/
def Yields (d : Cursor α) (good : α → Prop) : Prop := ∀ b v rest, d b = .ok (v, rest) → good v ∧ ∃ w, b = w ++ rest

theorem Yields.pure {good : α → Prop} {v : α} (holds : good v) : Yields (Pure.pure v) good := by
  intro b w rest made
  cases made
  exact ⟨holds, [], rfl⟩

theorem Yields.fail {good : α → Prop} (e : DecodeError) : Yields (Cursor.fail e) good := by
  intro b v rest made
  cases made

theorem Yields.bind {d : Cursor α} {f : α → Cursor β} {good : α → Prop} {good' : β → Prop} (first : Yields d good)
    (second : ∀ v, good v → Yields (f v) good') : Yields (d >>= f) good' := by
  intro b v rest made
  obtain ⟨u, mid, read, next⟩ := bind_eq_ok made
  obtain ⟨holds, w, rfl⟩ := first b u mid read
  obtain ⟨holds', w', rfl⟩ := second u holds mid v rest next
  exact ⟨holds', w ++ w', by rw [List.append_assoc]⟩

theorem Yields.map {d : Cursor α} {f : α → β} {good : α → Prop} {good' : β → Prop} (first : Yields d good)
    (image : ∀ v, good v → good' (f v)) : Yields (f <$> d) good' := by
  intro b v rest made
  have made : (d >>= fun u => Pure.pure (f u)) b = .ok (v, rest) := made
  exact first.bind (fun u holds => Yields.pure (image u holds)) b v rest made

theorem Yields.weaken {d : Cursor α} {good good' : α → Prop} (yields : Yields d good) (image : ∀ v, good v → good' v) :
    Yields d good' := by
  intro b v rest made
  obtain ⟨holds, whole⟩ := yields b v rest made
  exact ⟨image v holds, whole⟩

theorem yields_take (n : Nat) : Yields (take n) fun b => b.length = n := by
  intro b v rest made
  unfold take at made
  split at made
  · cases made
  · cases made
    exact ⟨List.length_take_of_le (by omega), b.take n, (List.take_append_drop n b).symm⟩

theorem yields_nat (n : Nat) : Yields (nat n) (· < 256 ^ n) :=
  (yields_take n).map fun b length => length ▸ leNat_lt b

theorem ofWord_bounds {w n : Nat} (wide : 0 < w) (small : n < 2 ^ w) : -2 ^ (w - 1) ≤ ofWord w n ∧ ofWord w n < 2 ^ (w - 1) := by
  obtain ⟨k, rfl⟩ : ∃ k, w = k + 1 := ⟨w - 1, by omega⟩
  have double : (2 : Int) ^ (k + 1) = 2 * 2 ^ k := by rw [pow_succ]; ring
  have below : (n : Int) < 2 ^ (k + 1) := by exact_mod_cast small
  unfold ofWord
  simp only [Nat.add_sub_cancel]
  split
  · rename_i low
    have low : (n : Int) < 2 ^ k := by exact_mod_cast low
    omega
  · rename_i high
    have high : (2 : Int) ^ k ≤ n := by exact_mod_cast not_lt.mp high
    omega

theorem yields_uvarint : Yields uvarint (· < 2 ^ 64) := by
  intro b v rest made
  obtain ⟨w, whole, _, _, small, rfl⟩ := (uvarint_eq_ok b rest v).mp made
  exact ⟨small, w, whole⟩

theorem yields_word (n w : Nat) (wide : 0 < w) (bytes : 256 ^ n = 2 ^ w) :
    Yields (ofWord w <$> nat n) fun v => -2 ^ (w - 1) ≤ v ∧ v < 2 ^ (w - 1) :=
  (yields_nat n).map fun _ small => ofWord_bounds wide (bytes ▸ small)

theorem yields_i32 : Yields i32 fun v => -2 ^ 31 ≤ v ∧ v < 2 ^ 31 := yields_word 4 32 (by decide) (by decide)

theorem yields_i64 : Yields i64 fun v => -2 ^ 63 ≤ v ∧ v < 2 ^ 63 := yields_word 8 64 (by decide) (by decide)

theorem yields_i128 : Yields i128 fun v => -2 ^ 127 ≤ v ∧ v < 2 ^ 127 := yields_word 16 128 (by decide) (by decide)

theorem yields_svarint : Yields svarint fun v => -2 ^ 63 ≤ v ∧ v < 2 ^ 63 := by
  apply yields_uvarint.map
  intro n small
  unfold unzigzag
  split <;> omega

theorem yields_bytes : Yields bytes fun b => b.length < 2 ^ 64 :=
  yields_uvarint.bind fun n small => fun b v rest made => by
    obtain ⟨length, w⟩ := yields_take n b v rest made
    exact ⟨length ▸ small, w⟩

theorem fromUtf8_eq_some {b : List UInt8} {s : String} (read : fromUtf8 b = some s) : utf8 s = b := by
  unfold fromUtf8 String.fromUTF8? at read
  split at read
  · cases read
    rfl
  · cases read

theorem yields_str : Yields str fun s => (utf8 s).length < 2 ^ 64 := by
  apply yields_bytes.bind
  intro b small
  cases text : fromUtf8 b with
  | none => exact Yields.fail _
  | some s =>
    apply Yields.pure
    rw [fromUtf8_eq_some text]
    exact small

theorem yields_record {d : Cursor α} {good : α → Prop} (yields : Yields d good) : Yields (record d) good := by
  apply yields_bytes.bind
  intro body _ b v rest made
  cases read : d body with
  | error e =>
    rw [read] at made
    cases made
  | ok p =>
    rw [read] at made
    cases made
    exact ⟨(yields body p.1 p.2 read).1, [], rfl⟩

theorem yields_guardLen (n each : Nat) : Yields (guardLen n each) fun k => k = n ∧ n ≤ maxDecodeRows := by
  intro b v rest made
  unfold guardLen at made
  split at made
  · cases made
  · rename_i few
    split at made
    · cases made
    · change (if b.length < n * each then Cursor.fail _ else Pure.pure n : Cursor Nat) b = _ at made
      split at made
      · cases made
      · cases made
        exact ⟨⟨rfl, by omega⟩, [], rfl⟩

theorem yields_repeat {d : Cursor α} {good : α → Prop} (yields : Yields d good) (n : Nat) :
    Yields (repeatDecode d n) fun vs => vs.length = n ∧ ∀ v ∈ vs, good v := by
  induction n with
  | zero => exact Yields.pure ⟨rfl, by simp⟩
  | succ n ih =>
    apply yields.bind
    intro v holds
    apply ih.bind
    rintro vs ⟨length, each⟩
    exact Yields.pure ⟨congrArg (· + 1) length, List.forall_mem_cons.mpr ⟨holds, each⟩⟩

theorem yields_octets16 : Yields octets16 fun _ => True := by
  apply (yields_take 16).bind
  intro b size
  rw [dif_pos size]
  exact Yields.pure trivial

theorem yields_bool : Yields decodeBool fun v => v.HasScalarType .bool ∧ v.isNull = false := by
  apply (yields_nat 1).bind
  intro byte _
  by_cases zero : byte = 0
  · rw [if_pos zero]
    exact Yields.pure ⟨trivial, rfl⟩
  · rw [if_neg zero]
    by_cases one : byte = 1
    · rw [if_pos one]
      exact Yields.pure ⟨trivial, rfl⟩
    · rw [if_neg one]
      exact Yields.fail _

theorem yields_decimal (t : DecimalType) : Yields (decodeDecimal t) fun v => v.HasScalarType (.decimal t) ∧ v.isNull = false := by
  apply yields_i128.bind
  intro n _
  by_cases large : 10 ^ t.precision ≤ n.natAbs
  · rw [if_pos large]
    exact Yields.fail _
  · rw [if_neg large]
    unfold Decimal.new
    split
    · rename_i d made
      split at made
      · split at made
        · cases made
          exact Yields.pure ⟨⟨rfl, Nat.lt_of_not_le large⟩, rfl⟩
        · cases made
      · cases made
    · exact Yields.fail _

/-- What is read as a type's value is one. -/
theorem yields_value (ty : DataType) : Yields (decodeValue ty) fun v => v.HasType ty ∧ v.isNull = false := by
  cases ty with
  | list t => exact Yields.fail _
  | scalar t =>
    cases t with
    | bool => exact yields_bool
    | decimal t => exact yields_decimal t
    | int64 => exact yields_i64.bind fun _ _ => Yields.pure ⟨trivial, rfl⟩
    | uint64 => exact (yields_nat 8).bind fun _ _ => Yields.pure ⟨trivial, rfl⟩
    | float64 => exact (yields_nat 8).bind fun _ _ => Yields.pure ⟨trivial, rfl⟩
    | string => exact yields_str.bind fun _ _ => Yields.pure ⟨trivial, rfl⟩
    | bytes => exact yields_bytes.bind fun _ _ => Yields.pure ⟨trivial, rfl⟩
    | timestamp => exact yields_i64.bind fun _ _ => Yields.pure ⟨trivial, rfl⟩
    | date => exact yields_i32.bind fun _ _ => Yields.pure ⟨trivial, rfl⟩
    | uuid => exact yields_octets16.bind fun _ _ => Yields.pure ⟨trivial, rfl⟩
    | ip => exact yields_octets16.bind fun _ _ => Yields.pure ⟨trivial, rfl⟩

theorem yields_type : Yields decodeType fun _ => True := by
  apply yields_uvarint.bind
  intro id _
  split
  · exact Yields.fail _
  · apply yields_bytes.bind
    intro params _
    split
    · exact Yields.pure trivial
    · exact Yields.fail _

/-- What is written is read back whole and no further; and of any bytes a reader takes a first part, whose number or value is in
    its type's range, or refuses them. -/
theorem wire_exact :
    (∀ n : U64, Decodes uvarint (Sink.uvarint n.val) n.val ∧ Decodes u64 (Sink.u64 n.val) n.val) ∧
    (∀ n : I64, Decodes svarint (Sink.svarint n.val) n.val ∧ Decodes i64 (Sink.i64 n.val) n.val) ∧
    (∀ b, b.length < 2 ^ 64 → Decodes bytes (Sink.bytes b) b) ∧
    (∀ s, (utf8 s).length < 2 ^ 64 → Decodes str (Sink.str s) s) ∧
    (∀ t v, v.HasScalarType t → v.isNull = false → v.Sized →
      ∃ b, encodeValue v t = some b ∧ Decodes (decodeValue (.scalar t)) b v) ∧
    (∀ ty, Decodes decodeType (encodeType ty) ty) ∧
    (∀ b rest v, uvarint b = .ok (v, rest) ↔
      ∃ w, b = w ++ rest ∧ Terminated w ∧ w.length ≤ 10 ∧ varintValue w < 2 ^ 64 ∧ v = varintValue w) ∧
    Yields svarint (fun v => -2 ^ 63 ≤ v ∧ v < 2 ^ 63) ∧ Yields u8 (· < 256) ∧ Yields u32 (· < 2 ^ 32) ∧ Yields u64 (· < 2 ^ 64) ∧
    Yields i32 (fun v => -2 ^ 31 ≤ v ∧ v < 2 ^ 31) ∧ Yields i64 (fun v => -2 ^ 63 ≤ v ∧ v < 2 ^ 63) ∧
    Yields i128 (fun v => -2 ^ 127 ≤ v ∧ v < 2 ^ 127) ∧ Yields bytes (fun b => b.length < 2 ^ 64) ∧
    (∀ n, Yields (raw n) fun b => b.length = n) ∧ Yields str (fun s => (utf8 s).length < 2 ^ 64) ∧
    (∀ n each, Yields (guardLen n each) fun k => k = n ∧ n ≤ maxDecodeRows) ∧
    (∀ (α : Type) (d : Cursor α) (good : α → Prop), Yields d good → Yields (record d) good) ∧
    (∀ ty, Yields (decodeValue ty) fun v => v.HasType ty ∧ v.isNull = false) ∧ Yields decodeType fun _ => True := by
  refine ⟨fun n => ⟨decodes_uvarint n.property, decodes_u64 n.property⟩, ?_, fun b => decodes_bytes, fun s => decodes_str, ?_,
    decodes_type, uvarint_eq_ok, yields_svarint, yields_nat 1, yields_nat 4, yields_nat 8, yields_i32, yields_i64, yields_i128, yields_bytes,
    yields_take, yields_str, yields_guardLen, fun _ _ _ => yields_record, yields_value, yields_type⟩
  · exact fun n => ⟨decodes_svarint n.property.1 n.property.2, decodes_i64 n.property.1 n.property.2⟩
  · exact fun t v typed some_ sized => decodes_value typed some_ sized

end Readers

end Adelie
