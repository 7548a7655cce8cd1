import Adelie.Lib.Bits
import Adelie.Segment.Codec

namespace Adelie

/-- `bits` in `0..=64`. -/
def mask (bits : Nat) : Nat := if 64 ≤ bits then 2 ^ 64 - 1 else 1 <<< bits - 1

/-- Fixed-width fields, the lowest bit first, over byte boundaries. -/
structure BitWriter where
  buf : List UInt8
  bits : Nat

namespace BitWriter

def new : BitWriter := ⟨[], 0⟩

/-- One turn of the loop: as many bits as the last byte takes. -/
def put (bw : BitWriter) (value take : Nat) : BitWriter :=
  let off := bw.bits % 8
  let buf := if off = 0 then bw.buf ++ [0] else bw.buf
  let chunk := value &&& mask take
  ⟨buf.modify (buf.length - 1) (· ||| UInt8.ofNat (chunk <<< off)), bw.bits + take⟩

def writeLoop (bw : BitWriter) (value remaining : Nat) : BitWriter :=
  if remaining = 0 then bw
  else
    let take := min remaining (8 - bw.bits % 8)
    (bw.put value take).writeLoop (value >>> take) (remaining - take)
termination_by remaining
decreasing_by omega

/-- The low `bits` bits of a value. -/
def write (bw : BitWriter) (value bits : Nat) : BitWriter := bw.writeLoop (value &&& mask bits) bits

def finish (bw : BitWriter) : List UInt8 := bw.buf

end BitWriter

structure BitReader where
  buf : List UInt8
  bits : Nat

namespace BitReader

def new (bytes : List UInt8) : BitReader := ⟨bytes, 0⟩

def readLoop (buf : List UInt8) (pos got bits result : Nat) : Nat :=
  if got < bits then
    let off := pos % 8
    let take := min (bits - got) (8 - off)
    let here := ((buf.getD (pos / 8) 0).toNat >>> off) &&& mask take
    readLoop buf (pos + take) (got + take) bits (result ||| (here <<< got))
  else result
termination_by bits - got
decreasing_by omega

/-- `bits` bits, `Truncated` where fewer remain. -/
def read (bits : Nat) : StateT BitReader (Except DecodeError) Nat := fun r =>
  if r.buf.length * 8 < r.bits + bits then .error .truncated
  else .ok (readLoop r.buf r.bits 0 bits 0, ⟨r.buf, r.bits + bits⟩)

/-- A reader of bits run over bytes that are already taken. -/
def within {α : Type} (d : StateT BitReader (Except DecodeError) α) (bytes : List UInt8) : Cursor α :=
  match d (BitReader.new bytes) with
  | .ok (v, _) => return v
  | .error e => Cursor.fail e

end BitReader

/-- How many of 64 bits are above the highest set one. -/
def leadingZeros (x : Nat) : Nat := 64 - x.size

def minOf (values : List Nat) : Nat := values.min?.getD 0

def maxOf (values : List Nat) : Nat := values.max?.getD 0

/-- The width that the largest difference from the least value takes. -/
def forWidth (values : List Nat) : Nat := 64 - leadingZeros (maxOf values - minOf values)

/-- A frame of reference: the least value, a width and the packed differences. -/
def writeFor (values : List Nat) : List UInt8 :=
  let min := minOf values
  let width := forWidth values
  let bw := values.foldl (fun bw v => bw.write ((v + (2 ^ 64 - min)) % 2 ^ 64) width) BitWriter.new
  Sink.u64 min ++ Sink.u8 width ++ Sink.bytes bw.finish

def readFor (rows : Nat) : Cursor (List Nat) := do
  let min ← Cursor.u64
  let width ← Cursor.u8
  if 64 < width then Cursor.fail (.malformed "for width exceeds 64")
  else
    let n ← Cursor.guardLen rows 0
    let bytes ← Cursor.bytes
    if bytes.length ≠ (n * width + 7) / 8 then Cursor.fail (.malformed "for packed length mismatch")
    else
      let diffs ← BitReader.within (repeatRead (BitReader.read width) n) bytes
      return diffs.map fun d => (min + d) % 2 ^ 64

section Masks

variable {value bits : Nat}

theorem modify_concat {α : Type} (init : List α) (x : α) (f : α → α) :
    (init ++ [x]).modify init.length f = init ++ [f x] := by
  induction init with
  | nil => rfl
  | cons y init ih => exact congrArg (y :: ·) ih

theorem and_mask (small : bits ≤ 64) : value &&& mask bits = value % 2 ^ bits := by
  have power : mask bits = 2 ^ bits - 1 := by
    unfold mask
    split
    · have full : bits = 64 := by omega
      rw [full]
    · rw [Nat.one_shiftLeft]
  rw [power, Nat.and_two_pow_sub_one_eq_mod]

end Masks

namespace BitWriter

variable {bw : BitWriter} {fields : List (Nat × Nat)} {value w : Nat}

/-- The bytes hold these fields and, above them in the last byte, nothing. -/
structure Wrote (bw : BitWriter) (fields : List (Nat × Nat)) : Prop where
  bits : bw.bits = widths fields
  whole : bw.buf.length = (bw.bits + 7) / 8
  number : leNat bw.buf = packed fields

theorem new_wrote : new.Wrote [] := ⟨rfl, rfl, rfl⟩

/-- The byte being filled: the last one, and how much of it is written. -/
theorem Wrote.last (wrote : bw.Wrote fields) : ∃ init byte, (if bw.bits % 8 = 0 then bw.buf ++ [0] else bw.buf) = init ++ [byte] ∧
    8 * init.length + bw.bits % 8 = bw.bits ∧ byte.toNat < 2 ^ (bw.bits % 8) ∧ leNat (init ++ [byte]) = packed fields := by
  have whole := wrote.whole
  by_cases start : bw.bits % 8 = 0
  · refine ⟨bw.buf, 0, if_pos start, by omega, by rw [start]; decide, ?_⟩
    rw [leNat_append, wrote.number]
    simp [leNat]
  · obtain ⟨init, byte, split⟩ : ∃ init byte, bw.buf = init ++ [byte] := by
      have some_ : bw.buf ≠ [] := List.ne_nil_of_length_pos (by omega)
      exact ⟨_, _, (List.dropLast_append_getLast some_).symm⟩
    have length := congrArg List.length split
    rw [List.length_append, List.length_singleton] at length
    have number := wrote.number
    rw [split] at number
    refine ⟨init, byte, by rw [if_neg start, split], by omega, ?_, number⟩
    -- what is above the written bits would be above all the fields
    have below := packed_lt fields
    rw [← wrote.bits, ← number, leNat_append] at below
    have base : 2 ^ bw.bits = 256 ^ init.length * 2 ^ (bw.bits % 8) := by
      have power : (256 : Nat) = 2 ^ 8 := by decide
      rw [power, ← pow_mul, ← pow_add]
      congr 1
      omega
    rw [base] at below
    have top : 256 ^ init.length * byte.toNat < 256 ^ init.length * 2 ^ (bw.bits % 8) := by
      simp only [leNat, Nat.mul_zero, Nat.add_zero] at below
      omega
    exact Nat.lt_of_mul_lt_mul_left top

/-- One turn adds its chunk above what is there. -/
theorem Wrote.put (wrote : bw.Wrote fields) {take : Nat} (some_ : 0 < take) (fits : take ≤ 8 - bw.bits % 8) :
    (bw.put value take).Wrote (fields ++ [(value, take)]) := by
  obtain ⟨init, byte, buf, reach, low, number⟩ := wrote.last
  have off : bw.bits % 8 < 8 := Nat.mod_lt _ (by decide)
  have chunk : value &&& mask take = value % 2 ^ take := and_mask (by omega)
  have chunk_lt : value % 2 ^ take < 2 ^ take := Nat.mod_lt _ (by positivity)
  -- the chunk ends inside the byte
  have inside : value % 2 ^ take * 2 ^ (bw.bits % 8) + 2 ^ (bw.bits % 8) ≤ 256 := by
    have scaled : (value % 2 ^ take + 1) * 2 ^ (bw.bits % 8) ≤ 2 ^ take * 2 ^ (bw.bits % 8) :=
      Nat.mul_le_mul_right _ chunk_lt
    have total : 2 ^ take * 2 ^ (bw.bits % 8) ≤ 2 ^ 8 := by
      rw [← pow_add]
      exact Nat.pow_le_pow_right (by decide) (by omega)
    rw [Nat.add_mul, Nat.one_mul] at scaled
    omega
  have byte' : (byte ||| UInt8.ofNat ((value % 2 ^ take) <<< (bw.bits % 8))).toNat =
      byte.toNat + value % 2 ^ take * 2 ^ (bw.bits % 8) := by
    have positive : 0 < 2 ^ (bw.bits % 8) := by positivity
    rw [UInt8.toNat_or, UInt8.toNat_ofNat', Nat.mod_eq_of_lt, or_shift low]
    rw [Nat.shiftLeft_eq]
    omega
  have made : bw.put value take =
      ⟨init ++ [byte ||| UInt8.ofNat ((value % 2 ^ take) <<< (bw.bits % 8))], bw.bits + take⟩ := by
    unfold BitWriter.put
    dsimp only
    rw [buf, chunk, List.length_append, List.length_singleton, Nat.add_sub_cancel, modify_concat]
  rw [made]
  refine ⟨?_, ?_, ?_⟩
  · rw [widths_append, wrote.bits]
    simp
  · rw [List.length_append, List.length_singleton]
    dsimp only
    omega
  · have base : 2 ^ widths fields = 256 ^ init.length * 2 ^ (bw.bits % 8) := by
      have power : (256 : Nat) = 2 ^ 8 := by decide
      rw [← wrote.bits, power, ← pow_mul, ← pow_add]
      congr 1
      omega
    rw [leNat_append] at number
    simp only [leNat, Nat.mul_zero, Nat.add_zero] at number
    rw [packed_append, packed_one, leNat_append, leNat, leNat, Nat.mul_zero, Nat.add_zero, byte', base, ← number]
    ring

theorem Wrote.congr {fields' : List (Nat × Nat)} (wrote : bw.Wrote fields) (number : packed fields = packed fields')
    (bits : widths fields = widths fields') : bw.Wrote fields' :=
  ⟨wrote.bits.trans bits, wrote.whole, wrote.number.trans number⟩

theorem Wrote.writeLoop (wrote : bw.Wrote fields) : (bw.writeLoop value w).Wrote (fields ++ [(value, w)]) := by
  induction w using Nat.strong_induction_on generalizing bw fields value with
  | _ w ih =>
    unfold BitWriter.writeLoop
    by_cases done : w = 0
    · subst done
      rw [if_pos rfl]
      apply wrote.congr
      · simp [packed_append, packed_one, Nat.mod_one]
      · simp
    · rw [if_neg done]
      have off : bw.bits % 8 < 8 := Nat.mod_lt _ (by decide)
      obtain ⟨take, chosen⟩ : ∃ take, take = min w (8 - bw.bits % 8) := ⟨_, rfl⟩
      obtain ⟨rest, split⟩ : ∃ rest, w = take + rest := ⟨w - take, by omega⟩
      have turn : (bw.put value take).Wrote (fields ++ [(value, take)]) := wrote.put (by omega) (by omega)
      have last : ((bw.put value take).writeLoop (value >>> take) rest).Wrote (fields ++ [(value, take)] ++ [(value >>> take, rest)]) :=
        ih rest (by omega) turn
      dsimp only
      rw [← chosen, split, Nat.add_sub_cancel_left]
      apply last.congr
      · rw [packed_append fields [(value, take + rest)], packed_split, List.append_assoc, packed_append, Nat.shiftRight_eq_div_pow]
        rfl
      · simp

/-- The low bits of a value go above all that is there. -/
theorem Wrote.write (wrote : bw.Wrote fields) (small : w ≤ 64) : (bw.write value w).Wrote (fields ++ [(value, w)]) := by
  apply wrote.writeLoop.congr
  · rw [packed_append, packed_append, packed_one, packed_one, and_mask small, Nat.mod_mod]
  · simp

theorem Wrote.writes {more : List (Nat × Nat)} (wrote : bw.Wrote fields) (small : ∀ f ∈ more, f.2 ≤ 64) :
    (more.foldl (fun bw f => bw.write f.1 f.2) bw).Wrote (fields ++ more) := by
  induction more generalizing bw fields with
  | nil => rwa [List.append_nil]
  | cons f more ih =>
    rw [List.forall_mem_cons] at small
    have own : (bw.write f.1 f.2).Wrote (fields ++ [(f.1, f.2)]) := wrote.write small.1
    have next := ih own small.2
    rwa [List.append_assoc] at next

end BitWriter

namespace BitReader

variable {fields : List (Nat × Nat)} {value w : Nat}

/-- What is left to read starts with these fields. -/
def Holds (r : BitReader) (fields : List (Nat × Nat)) : Prop :=
  leNat r.buf / 2 ^ r.bits % 2 ^ widths fields = packed fields ∧ r.bits + widths fields ≤ r.buf.length * 8

theorem here_eq {buf : List UInt8} {pos take : Nat} (fits : take ≤ 8 - pos % 8) :
    ((buf.getD (pos / 8) 0).toNat >>> (pos % 8)) &&& mask take = leNat buf / 2 ^ pos % 2 ^ take := by
  have off : pos % 8 < 8 := Nat.mod_lt _ (by decide)
  have byte : 256 = 2 ^ (pos % 8) * 2 ^ (8 - pos % 8) := by
    rw [← pow_add, Nat.add_sub_cancel' (by omega)]
    decide
  have reach : 256 ^ (pos / 8) * 2 ^ (pos % 8) = 2 ^ pos := by
    have power : (256 : Nat) = 2 ^ 8 := by decide
    rw [power, ← pow_mul, ← pow_add, Nat.div_add_mod]
  rw [and_mask (by omega), Nat.shiftRight_eq_div_pow, getD_leNat, byte, Nat.mod_mul_right_div_self,
    Nat.mod_mod_of_dvd _ (Nat.pow_dvd_pow 2 fits), ← byte, Nat.div_div_eq_div_mul, reach]

theorem readLoop_eq (buf : List UInt8) (pos got bits result : Nat) (below : result < 2 ^ got) (least : got ≤ bits) :
    readLoop buf pos got bits result = result + leNat buf / 2 ^ pos % 2 ^ (bits - got) * 2 ^ got := by
  fun_induction readLoop buf pos got bits result with
  | case1 pos got result more off take here ih =>
    have fits : take ≤ 8 - pos % 8 := Nat.min_le_right _ _
    have fits' : take ≤ bits - got := Nat.min_le_left _ _
    have bits_here : here = leNat buf / 2 ^ pos % 2 ^ take := here_eq fits
    have here_lt : here < 2 ^ take := by
      rw [bits_here]
      exact Nat.mod_lt _ (by positivity)
    have next : result ||| (here <<< got) = result + here * 2 ^ got := or_shift below
    have below' : result + here * 2 ^ got < 2 ^ (got + take) := by
      have room : (here + 1) * 2 ^ got ≤ 2 ^ take * 2 ^ got := Nat.mul_le_mul_right _ here_lt
      rw [Nat.add_mul, Nat.one_mul] at room
      rw [pow_add, Nat.mul_comm (2 ^ got)]
      omega
    rw [next] at ih ⊢
    rw [ih below' (by omega)]
    obtain ⟨rest, split⟩ : ∃ rest, bits - got = take + rest := ⟨bits - got - take, by omega⟩
    have left : bits - (got + take) = rest := by omega
    rw [left, split, pow_add 2 take rest, Nat.mod_mul, ← bits_here, Nat.div_div_eq_div_mul, ← pow_add 2 pos take,
      pow_add 2 got take]
    ring
  | case2 pos got result full =>
    have none_ : bits - got = 0 := by omega
    rw [none_, pow_zero, Nat.mod_one, Nat.zero_mul, Nat.add_zero]

theorem Holds.read {r : BitReader} (held : r.Holds ((value, w) :: fields)) :
    read w r = .ok (value % 2 ^ w, ⟨r.buf, r.bits + w⟩) ∧ (BitReader.mk r.buf (r.bits + w)).Holds fields := by
  obtain ⟨number, room⟩ := held
  rw [widths_cons] at room
  obtain ⟨first, others⟩ := packed_cons_mod number
  refine ⟨?_, ?_, ?_⟩
  · rw [BitReader.read, if_neg (by omega), readLoop_eq _ _ _ _ _ (by decide) (Nat.zero_le _), Nat.sub_zero, first, Nat.pow_zero,
      Nat.mul_one, Nat.zero_add]
  · rw [pow_add, ← Nat.div_div_eq_div_mul]
    exact others
  · dsimp only
    omega

theorem consumes_read (small : value < 2 ^ w) : Consumes Holds (read w) [(value, w)] value := by
  intro r rest held
  rw [List.singleton_append] at held
  obtain ⟨made, next⟩ := held.read
  rw [Nat.mod_eq_of_lt small] at made
  exact ⟨_, made, next⟩

/-- What a writer wrote, a reader holds. -/
theorem new_holds {bw : BitWriter} (wrote : bw.Wrote fields) : (new bw.finish).Holds fields := by
  refine ⟨?_, ?_⟩
  · rw [new, BitWriter.finish]
    dsimp only
    rw [pow_zero, Nat.div_one, wrote.number, Nat.mod_eq_of_lt (packed_lt fields)]
  · have whole := wrote.whole
    have bits := wrote.bits
    rw [new, BitWriter.finish]
    dsimp only
    omega

theorem mapM_read {r : BitReader} (held : r.Holds fields) :
    (fields.mapM fun f => read f.2) r = .ok (fields.map fun f => f.1 % 2 ^ f.2, ⟨r.buf, r.bits + widths fields⟩) := by
  induction fields generalizing r with
  | nil => rfl
  | cons f rest ih =>
    obtain ⟨made, next⟩ := held.read
    have others := ih next
    rw [List.mapM_cons]
    change (read f.2 r >>= fun p => (rest.mapM (fun f => read f.2) >>= fun vs => Pure.pure (p.1 :: vs)) p.2) = _
    rw [made]
    change ((rest.mapM fun f => read f.2) (BitReader.mk r.buf (r.bits + f.2)) >>= _) = _
    rw [others]
    change Except.ok (_, BitReader.mk r.buf (r.bits + f.2 + widths rest)) = _
    rw [Nat.add_assoc]
    rfl

/-- Fields of any widths come back in their order, with nothing left but the padding of the last byte. -/
theorem read_written {fields : List (Nat × Nat)} (small : ∀ f ∈ fields, f.2 ≤ 64) :
    ((fields.foldl (fun bw f => bw.write f.1 f.2) BitWriter.new).finish).length = (widths fields + 7) / 8 ∧
      ∃ r, (fields.mapM fun f => read f.2) (new (fields.foldl (fun bw f => bw.write f.1 f.2) BitWriter.new).finish) =
          .ok (fields.map fun f => f.1 % 2 ^ f.2, r) ∧
        ∀ n, 8 ≤ n → read n r = .error .truncated := by
  have wrote := BitWriter.Wrote.writes BitWriter.new_wrote small
  rw [List.nil_append] at wrote
  have whole := wrote.whole
  have bits := wrote.bits
  refine ⟨by rw [BitWriter.finish]; omega, _, mapM_read (new_holds wrote), ?_⟩
  intro n more
  rw [read, if_pos]
  rw [new, BitWriter.finish]
  dsimp only
  omega

/-- Three fields across the bytes, the second one masked. -/
theorem read_written_three :
    ([(5, 3), (1023, 9), (2 ^ 63, 64)].foldl (fun bw f => bw.write f.1 f.2) BitWriter.new).finish.length = 10 ∧
      ∃ r, ([(5, 3), (1023, 9), (2 ^ 63, 64)].mapM fun f : Nat × Nat => read f.2)
          (new ([(5, 3), (1023, 9), (2 ^ 63, 64)].foldl (fun bw f => bw.write f.1 f.2) BitWriter.new).finish) =
          .ok ([5, 511, 2 ^ 63], r) ∧
        ∀ n, 8 ≤ n → read n r = .error .truncated :=
  read_written (by decide)

theorem within_eq {α : Type} {d : StateT BitReader (Except DecodeError) α} {bytes : List UInt8} {v : α} {r : BitReader}
    (made : d (new bytes) = .ok (v, r)) : within d bytes = Pure.pure v := by
  unfold within
  rw [made]

theorem gives_read (bits : Nat) : Gives (read bits) (· < 2 ^ bits) := by
  intro r v r' made
  unfold read at made
  split at made
  · cases made
  · cases made
    rw [readLoop_eq _ _ _ _ _ (by decide) (Nat.zero_le _), Nat.zero_add, pow_zero, Nat.mul_one]
    exact Nat.mod_lt _ (by positivity)

theorem yields_within {α : Type} {d : StateT BitReader (Except DecodeError) α} {good : α → Prop} (gives : Gives d good)
    (bytes : List UInt8) : Yields (within d bytes) good := by
  unfold within
  split
  · rename_i v r made
    exact Yields.pure (gives _ v r made)
  · exact Yields.fail _

end BitReader

section Frame

variable {values : List Nat}

theorem minOf_le {v : Nat} (member : v ∈ values) : minOf values ≤ v := by
  unfold minOf
  cases least : values.min? with
  | none =>
    rw [List.min?_eq_none_iff] at least
    subst least
    cases member
  | some m => exact (List.min?_eq_some_iff.mp least).2 v member

theorem le_maxOf {v : Nat} (member : v ∈ values) : v ≤ maxOf values := by
  unfold maxOf
  cases most : values.max? with
  | none =>
    rw [List.max?_eq_none_iff] at most
    subst most
    cases member
  | some m => exact (List.max?_eq_some_iff.mp most).2 v member

theorem maxOf_lt (small : ∀ v ∈ values, v < 2 ^ 64) : maxOf values < 2 ^ 64 := by
  unfold maxOf
  cases most : values.max? with
  | none => decide
  | some m => exact small m (List.max?_eq_some_iff.mp most).1

theorem size_le_64 {x : Nat} (small : x < 2 ^ 64) : x.size ≤ 64 := Nat.size_le.mpr small

theorem forWidth_le (values : List Nat) : forWidth values ≤ 64 := Nat.sub_le _ _

/-- A difference from the least value fits the width. -/
theorem diff_lt (small : ∀ v ∈ values, v < 2 ^ 64) {v : Nat} (member : v ∈ values) :
    v - minOf values < 2 ^ forWidth values := by
  have most := le_maxOf member
  have size : forWidth values = (maxOf values - minOf values).size := by
    have below : maxOf values - minOf values < 2 ^ 64 := by
      have := maxOf_lt small
      omega
    have := size_le_64 below
    unfold forWidth leadingZeros
    omega
  rw [size]
  calc v - minOf values ≤ maxOf values - minOf values := by omega
    _ < 2 ^ (maxOf values - minOf values).size := Nat.lt_size_self _

theorem writes_wrote (w : Nat) (small : w ≤ 64) (vs : List Nat) {bw : BitWriter} {fields : List (Nat × Nat)}
    (wrote : bw.Wrote fields) : (vs.foldl (fun bw v => bw.write v w) bw).Wrote (fields ++ vs.map (·, w)) := by
  have narrow : ∀ f ∈ vs.map (·, w), f.2 ≤ 64 := List.forall_mem_map.mpr fun _ _ => small
  have written := wrote.writes narrow
  rwa [List.foldl_map] at written

theorem widths_map (w : Nat) (vs : List Nat) : widths (vs.map (·, w)) = vs.length * w := by
  induction vs with
  | nil => simp
  | cons v rest ih =>
    rw [List.map_cons, widths_cons, ih, List.length_cons]
    ring

/-- A frame of reference reads back as its values. -/
theorem decodes_for (small : ∀ v ∈ values, v < 2 ^ 64) (few : values.length ≤ maxDecodeRows) :
    Decodes (readFor values.length) (writeFor values) values := by
  have width := forWidth_le values
  obtain ⟨diffs, made⟩ : ∃ diffs, diffs = values.map (· - minOf values) := ⟨_, rfl⟩
  have count : diffs.length = values.length := by rw [made, List.length_map]
  have fits : ∀ d ∈ diffs, d < 2 ^ forWidth values := by
    intro d member
    rw [made] at member
    obtain ⟨v, inside, rfl⟩ := List.mem_map.mp member
    exact diff_lt small inside
  -- wrapping takes nothing from a difference that is not negative
  have exact_ : ∀ v ∈ values, (v + (2 ^ 64 - minOf values)) % 2 ^ 64 = v - minOf values := by
    intro v member
    have least := minOf_le member
    have below := small v member
    omega
  obtain ⟨bw, written⟩ : ∃ bw, bw = values.foldl (fun bw v => bw.write ((v + (2 ^ 64 - minOf values)) % 2 ^ 64) (forWidth values))
      BitWriter.new := ⟨_, rfl⟩
  have wrote : bw.Wrote (diffs.map (·, forWidth values)) := by
    have folded : bw = diffs.foldl (fun bw v => bw.write v (forWidth values)) BitWriter.new := by
      rw [written, made, List.foldl_map]
      apply List.foldl_ext
      intro bw v member
      rw [exact_ v member]
    rw [folded]
    simpa using writes_wrote _ width diffs BitWriter.new_wrote
  have length : bw.finish.length = (values.length * forWidth values + 7) / 8 := by
    rw [BitWriter.finish, wrote.whole, wrote.bits, widths_map, count]
  have bytes_small : bw.finish.length < 2 ^ 64 := by
    have area : values.length * forWidth values ≤ 2 ^ 22 * 64 := Nat.mul_le_mul few width
    omega
  obtain ⟨r, read⟩ : ∃ r, repeatRead (BitReader.read (forWidth values)) values.length (BitReader.new bw.finish) = .ok (diffs, r) := by
    rw [← count]
    apply Consumes.run _ (BitReader.new_holds wrote)
    exact @Consumes.repeat _ _ _ _ _ _ _ (·, forWidth values) fun d member => BitReader.consumes_read (fits d member)
  have back : diffs.map (fun d => (minOf values + d) % 2 ^ 64) = values := by
    rw [made, List.map_map]
    calc values.map _ = values.map id := by
          apply List.map_congr_left
          intro v member
          have least := minOf_le member
          have below := small v member
          simp only [Function.comp_apply, id]
          omega
      _ = values := List.map_id values
  have least : minOf values < 2 ^ 64 := by
    cases values with
    | nil => decide
    | cons v rest => exact lt_of_le_of_lt (minOf_le (.head _)) (small v (.head _))
  rw [writeFor, ← written, List.append_assoc]
  apply (decodes_u64 least).bind
  apply (decodes_u8 (by omega)).bind
  rw [if_neg (by omega), ← List.append_nil (Sink.bytes bw.finish)]
  apply decodes_guardLen few (by decide) (Nat.zero_le _)
  apply (decodes_bytes bytes_small).bind
  rw [if_neg (by simpa using length), BitReader.within_eq read, pure_bind, back]
  exact Decodes.pure _

theorem yields_for (rows : Nat) : Yields (readFor rows) fun vs => vs.length = rows ∧ ∀ v ∈ vs, v < 2 ^ 64 := by
  apply (yields_nat 8).bind
  intro min _
  apply (yields_nat 1).bind
  intro width _
  split
  · exact Yields.fail _
  · apply (yields_guardLen rows 0).bind
    rintro n ⟨rfl, _⟩
    apply yields_bytes.bind
    intro bytes _
    split
    · exact Yields.fail _
    · apply (BitReader.yields_within ((BitReader.gives_read width).repeat n) bytes).bind
      rintro diffs ⟨length, _⟩
      apply Yields.pure
      refine ⟨by rw [List.length_map, length], ?_⟩
      rw [List.forall_mem_map]
      exact fun d _ => Nat.mod_lt _ (by decide)

end Frame

end Adelie
