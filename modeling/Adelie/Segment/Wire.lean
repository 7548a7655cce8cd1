import Adelie.Lib.Decode
import Adelie.Lib.Traverse

namespace Adelie

inductive DecodeError where
  | truncated
  | malformed (message : String)
  | unknownTypeId (id : Nat)
deriving DecidableEq, Repr

def maxDecodeRows : Nat := 2 ^ 22
def maxDecodeBytes : Nat := 2 ^ 30

/-- A number so that small magnitudes of either sign stay small. -/
def zigzag (v : Int) : Nat := if 0 ≤ v then 2 * v.toNat else 2 * (-v - 1).toNat + 1

def unzigzag (n : Nat) : Int := if n % 2 = 0 then (n / 2 : Nat) else -(n / 2 : Nat) - 1

namespace Sink

def u8 (v : Nat) : List UInt8 := leBytes 1 v
def u32 (v : Nat) : List UInt8 := leBytes 4 v
def u64 (v : Nat) : List UInt8 := leBytes 8 v
def i32 (v : Int) : List UInt8 := leBytes 4 (toWord 32 v)
def i64 (v : Int) : List UInt8 := leBytes 8 (toWord 64 v)
def i128 (v : Int) : List UInt8 := leBytes 16 (toWord 128 v)

/-- LEB128: seven bits a byte, the high bit set while more follow. A u64 takes ten bytes at most. -/
def uvarintIn : Nat → Nat → List UInt8
  | 0, _ => []
  | n + 1, v => if v / 128 = 0 then [.ofNat (v % 128)] else .ofNat (v % 128 + 128) :: uvarintIn n (v / 128)

def uvarint (v : Nat) : List UInt8 := uvarintIn 10 v
def svarint (v : Int) : List UInt8 := uvarint (zigzag v)
def bytes (b : List UInt8) : List UInt8 := uvarint b.length ++ b

end Sink

/-- The UTF-8 of a string. -/
def utf8 (s : String) : List UInt8 := s.toByteArray.data.toList

def fromUtf8 (b : List UInt8) : Option String := String.fromUTF8? ⟨b.toArray⟩

namespace Sink

def str (s : String) : List UInt8 := bytes (utf8 s)

/-- A length and a body, so that a reader can pass over what it does not know. -/
def record (body : List UInt8) : List UInt8 := bytes body

end Sink

abbrev Cursor := Decoder DecodeError

namespace Cursor

def fail {α : Type} (e : DecodeError) : Cursor α := fun _ => .error e

def take (n : Nat) : Cursor (List UInt8) := fun b =>
  if b.length < n then .error .truncated else .ok (b.take n, b.drop n)

def nat (n : Nat) : Cursor Nat := do return leNat (← take n)

def u8 : Cursor Nat := nat 1
def u32 : Cursor Nat := nat 4
def u64 : Cursor Nat := nat 8
def i32 : Cursor Int := do return ofWord 32 (← nat 4)
def i64 : Cursor Int := do return ofWord 64 (← nat 8)
def i128 : Cursor Int := do return ofWord 128 (← nat 16)

/-- At most ten bytes, of which the last holds one bit. -/
def uvarintFrom : Nat → Nat → Nat → Cursor Nat
  | 0, _, _ => fail (.malformed "varint overflow")
  | left + 1, shift, result => do
    let byte ← u8
    if left = 0 ∧ 1 < byte then fail (.malformed "varint overflow")
    else
      let result := result + byte % 128 * 2 ^ shift
      if byte < 128 then return result else uvarintFrom left (shift + 7) result

def uvarint : Cursor Nat := uvarintFrom 10 0 0
def svarint : Cursor Int := do return unzigzag (← uvarint)
def bytes : Cursor (List UInt8) := do take (← uvarint)
def raw (n : Nat) : Cursor (List UInt8) := take n

def str : Cursor String := do
  match fromUtf8 (← bytes) with
  | some s => return s
  | none => fail (.malformed "invalid utf-8")

/-- A body read on its own: what `d` leaves of it is passed over. -/
def record {α : Type} (d : Cursor α) : Cursor α := do
  let body ← bytes
  fun rest => (d body).map fun p => (p.1, rest)

def remaining : Cursor Nat := fun b => .ok (b.length, b)
def isEmpty : Cursor Bool := fun b => .ok (b.isEmpty, b)

/-- Refuses a count before anything is allocated for it. -/
def guardLen (n minBytesEach : Nat) : Cursor Nat := do
  if maxDecodeRows < n then fail (.malformed "row count exceeds MAX_DECODE_ROWS")
  else if 2 ^ 64 ≤ n * minBytesEach then fail .truncated
  else if (← remaining) < n * minBytesEach then fail .truncated
  else return n

end Cursor

section Zigzag

theorem unzigzag_zigzag (v : Int) : unzigzag (zigzag v) = v := by
  unfold zigzag unzigzag
  split
  · rw [if_pos (by omega)]
    omega
  · rw [if_neg (by omega)]
    omega

theorem zigzag_lt {v : Int} (low : -2 ^ 63 ≤ v) (high : v < 2 ^ 63) : zigzag v < 2 ^ 64 := by
  unfold zigzag
  split <;> omega

end Zigzag

section Reads

open Cursor

theorem decodes_take {b : List UInt8} {n : Nat} (length : b.length = n) : Decodes (take n) b b := by
  intro rest
  unfold take
  rw [if_neg (by simp [length]), ← length]
  simp

theorem decodes_nat {n v : Nat} (small : v < 256 ^ n) : Decodes (nat n) (leBytes n v) v := by
  have read := (decodes_take (leBytes_length n v)).map (f := leNat)
  rw [leNat_leBytes small] at read
  exact read

theorem decodes_u8 {v : Nat} (small : v < 256) : Decodes u8 (Sink.u8 v) v := decodes_nat small
theorem decodes_u32 {v : Nat} (small : v < 2 ^ 32) : Decodes u32 (Sink.u32 v) v := decodes_nat small
theorem decodes_u64 {v : Nat} (small : v < 2 ^ 64) : Decodes u64 (Sink.u64 v) v := decodes_nat small

theorem decodes_i32 {v : Int} (low : -2 ^ 31 ≤ v) (high : v < 2 ^ 31) : Decodes i32 (Sink.i32 v) v := by
  have read := (decodes_nat (n := 4) (toWord_lt 32 v)).map (f := ofWord 32)
  rw [ofWord_toWord (by decide) low high] at read
  exact read

theorem decodes_i64 {v : Int} (low : -2 ^ 63 ≤ v) (high : v < 2 ^ 63) : Decodes i64 (Sink.i64 v) v := by
  have read := (decodes_nat (n := 8) (toWord_lt 64 v)).map (f := ofWord 64)
  rw [ofWord_toWord (by decide) low high] at read
  exact read

theorem decodes_i128 {v : Int} (low : -2 ^ 127 ≤ v) (high : v < 2 ^ 127) : Decodes i128 (Sink.i128 v) v := by
  have read := (decodes_nat (n := 16) (toWord_lt 128 v)).map (f := ofWord 128)
  rw [ofWord_toWord (by decide) low high] at read
  exact read

theorem decodes_uvarintFrom {n v : Nat} (shift result : Nat) (small : v < 2 * 128 ^ n) :
    Decodes (uvarintFrom (n + 1) shift result) (Sink.uvarintIn (n + 1) v) (result + v * 2 ^ shift) := by
  induction n generalizing v shift result with
  | zero =>
    have bit : v < 2 := by omega
    have one : Sink.uvarintIn 1 v = Sink.u8 v ++ [] := by
      rw [Sink.uvarintIn, if_pos (by omega), Nat.mod_eq_of_lt (by omega : v < 128)]
      simp [Sink.u8, leBytes, Nat.mod_eq_of_lt (by omega : v < 256)]
    rw [one]
    refine (decodes_u8 (by omega)).bind ?_
    rw [if_neg (by omega)]
    dsimp only
    rw [if_pos (by omega), Nat.mod_eq_of_lt (by omega : v < 128)]
    exact Decodes.pure _
  | succ n ih =>
    rw [Sink.uvarintIn]
    by_cases last : v / 128 = 0
    · have short : v < 128 := by omega
      have one : [UInt8.ofNat (v % 128)] = Sink.u8 v ++ [] := by
        rw [Nat.mod_eq_of_lt short]
        simp [Sink.u8, leBytes, Nat.mod_eq_of_lt (by omega : v < 256)]
      rw [if_pos last, one]
      refine (decodes_u8 (by omega)).bind ?_
      rw [if_neg (by omega)]
      dsimp only
      rw [if_pos short, Nat.mod_eq_of_lt short]
      exact Decodes.pure _
    · have fits : v % 128 + 128 < 256 := by omega
      have first : UInt8.ofNat (v % 128 + 128) :: Sink.uvarintIn (n + 1) (v / 128) =
          Sink.u8 (v % 128 + 128) ++ Sink.uvarintIn (n + 1) (v / 128) := by
        simp [Sink.u8, leBytes, Nat.mod_eq_of_lt fits]
      rw [if_neg last, first]
      refine (decodes_u8 fits).bind ?_
      rw [if_neg (by omega)]
      dsimp only
      rw [if_neg (by omega), Nat.add_mod_right, Nat.mod_mod]
      have rest : v / 128 < 2 * 128 ^ n := by
        rw [Nat.div_lt_iff_lt_mul (by decide), Nat.mul_assoc, ← Nat.pow_succ]
        exact small
      have read := ih (shift + 7) (result + v % 128 * 2 ^ shift) rest
      have value : result + v % 128 * 2 ^ shift + v / 128 * 2 ^ (shift + 7) = result + v * 2 ^ shift := by
        have split := Nat.mod_add_div v 128
        calc result + v % 128 * 2 ^ shift + v / 128 * 2 ^ (shift + 7)
            = result + (v % 128 + 128 * (v / 128)) * 2 ^ shift := by rw [pow_add]; ring
          _ = result + v * 2 ^ shift := by rw [split]
      rw [value] at read
      exact read

theorem decodes_uvarint {v : Nat} (small : v < 2 ^ 64) : Decodes uvarint (Sink.uvarint v) v := by
  have read := decodes_uvarintFrom (n := 9) 0 0 (by omega : v < 2 * 128 ^ 9)
  rw [Nat.zero_add, Nat.pow_zero, Nat.mul_one] at read
  exact read

theorem decodes_svarint {v : Int} (low : -2 ^ 63 ≤ v) (high : v < 2 ^ 63) : Decodes svarint (Sink.svarint v) v := by
  have read := (decodes_uvarint (zigzag_lt low high)).map (f := unzigzag)
  rw [unzigzag_zigzag] at read
  exact read

theorem decodes_bytes {b : List UInt8} (small : b.length < 2 ^ 64) : Decodes bytes (Sink.bytes b) b :=
  (decodes_uvarint small).bind (decodes_take rfl)

theorem fromUtf8_utf8 (s : String) : fromUtf8 (utf8 s) = some s := by
  unfold fromUtf8 utf8 String.fromUTF8?
  simp only [Array.toArray_toList]
  rw [dif_pos s.isValidUTF8]
  rfl

theorem decodes_str {s : String} (small : (utf8 s).length < 2 ^ 64) : Decodes str (Sink.str s) s := by
  have read : Decodes str (Sink.str s ++ []) s := by
    refine (decodes_bytes small).bind ?_
    rw [fromUtf8_utf8]
    exact Decodes.pure s
  rwa [List.append_nil] at read

/-- A record is read by its length, whatever its body holds after what the reader knows. -/
theorem decodes_record {α : Type} {d : Cursor α} {body rest : List UInt8} {v : α} (small : body.length < 2 ^ 64)
    (reads : d body = .ok (v, rest)) : Decodes (record d) (Sink.record body) v := by
  intro after
  have read := decodes_bytes small after
  change (bytes (Sink.bytes body ++ after) >>= fun p => (d p.1).map fun q => (q.1, p.2)) = _
  rw [read]
  change (d body).map _ = _
  rw [reads]
  rfl

theorem guardLen_eq_ok {n each : Nat} {b : List UInt8} (count : n ≤ maxDecodeRows) (each_small : each < 2 ^ 32)
    (room : n * each ≤ b.length) : guardLen n each b = .ok (n, b) := by
  have product : n * each < 2 ^ 64 := by
    have : n ≤ 2 ^ 22 := count
    calc n * each ≤ 2 ^ 22 * 2 ^ 32 := Nat.mul_le_mul this each_small.le
      _ < 2 ^ 64 := by decide
  unfold guardLen
  rw [if_neg (by omega), if_neg (by omega)]
  change (if b.length < n * each then fail _ else Pure.pure n : Cursor Nat) b = _
  rw [if_neg (by omega)]
  rfl

theorem guardLen_bind_eq {α : Type} {n each : Nat} {b : List UInt8} (count : n ≤ maxDecodeRows) (each_small : each < 2 ^ 32)
    (room : n * each ≤ b.length) (f : Nat → Cursor α) : (guardLen n each >>= f) b = f n b := by
  rw [bind_apply, guardLen_eq_ok count each_small room]
  rfl

/-- A count that what follows has room for is let through. -/
theorem decodes_guardLen {α : Type} {n each : Nat} {f : Nat → Cursor α} {bytes : List UInt8} {v : α} (count : n ≤ maxDecodeRows)
    (each_small : each < 2 ^ 32) (room : n * each ≤ bytes.length) (reads : Decodes (f n) bytes v) :
    Decodes (guardLen n each >>= f) bytes v := by
  intro rest
  rw [guardLen_bind_eq count each_small (by rw [List.length_append]; omega)]
  exact reads rest

end Reads

end Adelie
