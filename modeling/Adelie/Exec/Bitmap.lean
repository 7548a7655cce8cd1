import Mathlib

namespace Adelie

/-- One bit a row, the lowest bit of a word first. -/
structure Bitmap where
  words : List (BitVec 64)
  len : Nat
deriving DecidableEq

def wordCount (len : Nat) : Nat := (len + 63) / 64

/-- Clears bits at or past `len` in the last word. -/
def maskTrailing (words : List (BitVec 64)) (len : Nat) : List (BitVec 64) :=
  if len % 64 = 0 then words
  else words.modify (words.length - 1) fun last => last &&& ((1#64 <<< (len % 64)) - 1#64)

namespace Bitmap

def newValid (len : Nat) : Bitmap := ⟨maskTrailing (List.replicate (wordCount len) (BitVec.allOnes 64)) len, len⟩

/-- The bit of a row; past `len` the code panics, and callers stay below it. -/
def get (b : Bitmap) (i : Nat) : Bool := (b.words.getD (i / 64) 0#64 >>> (i % 64)) &&& 1#64 == 1#64

def set (b : Bitmap) (i : Nat) (valid : Bool) : Bitmap :=
  { b with words := b.words.modify (i / 64) fun word =>
      if valid then word ||| (1#64 <<< (i % 64)) else word &&& ~~~(1#64 <<< (i % 64)) }

def push (b : Bitmap) (valid : Bool) : Bitmap :=
  let words := if b.len % 64 = 0 then b.words ++ [0#64] else b.words
  (⟨words, b.len + 1⟩ : Bitmap).set b.len valid

/-- Ones of a word. -/
def countOnes (word : BitVec 64) : Nat := (List.range 64).countP word.getLsbD

def countValid (b : Bitmap) : Nat := (b.words.map countOnes).sum

/-- As many words as the length takes, and no bit past it. -/
structure Whole (b : Bitmap) : Prop where
  words : b.words.length = wordCount b.len
  clear : ∀ i, b.len ≤ i → b.get i = false

/-- Every row's bit. -/
def bits (b : Bitmap) : List Bool := (List.range b.len).map b.get

def pushAll (b : Bitmap) (bits : List Bool) : Bitmap := bits.foldl push b

/-- Bits pushed one by one onto an empty bitmap. -/
def ofBits (bits : List Bool) : Bitmap := pushAll (newValid 0) bits

theorem get_eq (b : Bitmap) (i : Nat) : b.get i = (b.words.getD (i / 64) 0#64).getLsbD (i % 64) := by
  unfold get
  apply Bool.eq_iff_iff.mpr
  rw [beq_iff_eq]
  constructor
  · intro one
    have lowest := congrArg (fun w => BitVec.getLsbD w 0) one
    simpa using lowest
  · intro found
    apply BitVec.eq_of_getLsbD_eq
    intro j below
    by_cases zero : j = 0
    · subst zero
      simpa using found
    · simp [BitVec.getLsbD_one, zero]

theorem getLsbD_bit {k m : Nat} (low : m < 64) : (1#64 <<< k).getLsbD m = decide (m = k) := by
  rw [BitVec.getLsbD_shiftLeft, BitVec.getLsbD_one]
  apply Bool.eq_iff_iff.mpr
  simp only [Bool.and_eq_true, Bool.not_eq_true', decide_eq_true_eq, decide_eq_false_iff_not]
  omega

section Push

variable {b b' : Bitmap} {i j : Nat} {valid : Bool}

theorem get_set (inside : i / 64 < b.words.length) : (b.set i valid).get j = if j = i then valid else b.get j := by
  rw [get_eq, get_eq, set]
  by_cases word : j / 64 = i / 64
  · have low : j % 64 < 64 := Nat.mod_lt _ (by decide)
    have same : (j % 64 = i % 64) = (j = i) := by
      apply propext
      omega
    rw [word, List.getD_eq_getElem?_getD, List.getD_eq_getElem?_getD, List.getElem?_modify_eq, List.getElem?_eq_getElem inside]
    simp only [Option.map_eq_map, Option.map_some, Option.getD_some]
    cases valid with
    | true =>
      rw [if_pos rfl, BitVec.getLsbD_or, getLsbD_bit low]
      simp only [same]
      split <;> simp [*]
    | false =>
      rw [if_neg (by decide), BitVec.getLsbD_and, BitVec.getLsbD_not, getLsbD_bit low]
      simp only [same]
      split <;> simp [*]
  · have other : j ≠ i := by
      rintro rfl
      exact word rfl
    rw [if_neg other, List.getD_eq_getElem?_getD, List.getD_eq_getElem?_getD, List.getElem?_modify_ne _ _ (Ne.symm word)]

theorem get_append_zero (words : List (BitVec 64)) (len i : Nat) : (Bitmap.mk (words ++ [0#64]) len).get i = (Bitmap.mk words len).get i := by
  rw [get_eq, get_eq]
  congr 1
  dsimp only
  rw [List.getD_eq_getElem?_getD, List.getD_eq_getElem?_getD, List.getElem?_append]
  split
  · rfl
  · rename_i past
    rw [List.getElem?_eq_none (by omega : words.length ≤ i / 64)]
    cases first : i / 64 - words.length with
    | zero => rfl
    | succ k => rfl

theorem push_len (b : Bitmap) (valid : Bool) : (b.push valid).len = b.len + 1 := rfl

theorem get_push (whole : b.Whole) : (b.push valid).get j = if j = b.len then valid else b.get j := by
  have words := whole.words
  unfold wordCount at words
  unfold push
  by_cases full : b.len % 64 = 0
  · rw [if_pos full, get_set (by simp; omega), get_append_zero]
    rfl
  · rw [if_neg full, get_set (by simp; omega)]
    rfl

theorem push_whole (whole : b.Whole) : (b.push valid).Whole := by
  refine ⟨?_, ?_⟩
  · have words := whole.words
    unfold wordCount at words ⊢
    by_cases full : b.len % 64 = 0
    · simp only [push, set, full, if_true, List.length_modify, List.length_append, List.length_singleton]
      omega
    · simp only [push, set, full, if_false, List.length_modify]
      omega
  · intro i past
    rw [push_len] at past
    rw [get_push whole, if_neg (by omega)]
    exact whole.clear i (by omega)

theorem push_bits (whole : b.Whole) : (b.push valid).bits = b.bits ++ [valid] := by
  unfold bits
  rw [push_len, List.range_succ, List.map_append, List.map_singleton, get_push whole, if_pos rfl]
  congr 1
  apply List.map_congr_left
  intro i inside
  rw [get_push whole, if_neg (Nat.ne_of_lt (List.mem_range.mp inside))]

/-- Two whole bitmaps of the same bits are one. -/
theorem Whole.ext (whole : b.Whole) (whole' : b'.Whole) (same : b.bits = b'.bits) : b = b' := by
  have length := congrArg List.length same
  simp only [bits, List.length_map, List.length_range] at length
  have each : ∀ i, b.get i = b'.get i := by
    intro i
    by_cases inside : i < b.len
    · have row := congrArg (fun l => l[i]?) same
      simpa [bits, inside, length ▸ inside] using row
    · rw [whole.clear i (by omega), whole'.clear i (by omega)]
  have words : b.words = b'.words := by
    apply List.ext_getElem
    · rw [whole.words, whole'.words, length]
    · intro w left right
      apply BitVec.eq_of_getLsbD_eq
      intro k low
      have bit := each (64 * w + k)
      have word : (64 * w + k) / 64 = w := by omega
      have offset : (64 * w + k) % 64 = k := by omega
      rw [get_eq, get_eq, word, offset, List.getD_eq_getElem _ _ left, List.getD_eq_getElem _ _ right] at bit
      exact bit
  cases b
  cases b'
  simp_all

end Push

section Fill

theorem getLsbD_mask {k m : Nat} (few : k < 64) : ((1#64 <<< k) - 1#64).getLsbD m = decide (m < k) := by
  have power : 2 ^ k < 2 ^ 64 := Nat.pow_lt_pow_right (by decide) few
  have positive : 0 < 2 ^ k := by positivity
  have value : ((1#64 <<< k) - 1#64).toNat = 2 ^ k - 1 := by
    rw [BitVec.toNat_sub, BitVec.toNat_shiftLeft, Nat.shiftLeft_eq]
    simp only [BitVec.toNat_ofNat, Nat.one_mod_two_pow_eq_one.mpr (by decide : 0 < 64), Nat.one_mul, Nat.mod_eq_of_lt power]
    omega
  rw [BitVec.getLsbD, value, Nat.testBit_two_pow_sub_one]

theorem newValid_zero : newValid 0 = ⟨[], 0⟩ := rfl

theorem empty_whole : (newValid 0).Whole := by
  refine ⟨rfl, ?_⟩
  intro i _
  rw [get_eq, newValid_zero]
  simp

theorem get_newValid (len i : Nat) : (newValid len).get i = decide (i < len) := by
  have low : i % 64 < 64 := Nat.mod_lt _ (by decide)
  have ones : ∀ w, (List.replicate (wordCount len) (BitVec.allOnes 64)).getD w 0#64 =
      if w < wordCount len then BitVec.allOnes 64 else 0#64 := by
    intro w
    rw [List.getD_eq_getElem?_getD, List.getElem?_replicate]
    split <;> rfl
  have row : decide (i < len) = (decide (i / 64 < wordCount len) && (decide (len % 64 = 0) ||
      decide (i / 64 ≠ wordCount len - 1) || decide (i % 64 < len % 64))) := by
    unfold wordCount
    apply Bool.eq_iff_iff.mpr
    simp only [Bool.and_eq_true, Bool.or_eq_true, decide_eq_true_eq]
    omega
  rw [get_eq, newValid, maskTrailing, row]
  by_cases even : len % 64 = 0
  · rw [if_pos even]
    dsimp only
    rw [ones]
    by_cases inside : i / 64 < wordCount len
    · rw [if_pos inside, BitVec.getLsbD_allOnes]
      simp [low, inside, even]
    · rw [if_neg inside]
      simp [inside]
  · rw [if_neg even, List.length_replicate]
    dsimp only
    by_cases last : i / 64 = wordCount len - 1
    · have inside : wordCount len - 1 < wordCount len := by
        unfold wordCount
        omega
      have mask := @getLsbD_mask (len % 64) (i % 64) (Nat.mod_lt _ (by decide))
      rw [last, List.getD_eq_getElem?_getD, List.getElem?_modify_eq, List.getElem?_replicate, if_pos inside]
      simp only [Option.map_eq_map, Option.map_some, Option.getD_some, BitVec.getLsbD_and, BitVec.getLsbD_allOnes, mask]
      simp [low, inside, even]
    · rw [List.getD_eq_getElem?_getD, List.getElem?_modify_ne _ _ (Ne.symm last), ← List.getD_eq_getElem?_getD, ones]
      by_cases inside : i / 64 < wordCount len
      · rw [if_pos inside, BitVec.getLsbD_allOnes]
        simp [low, inside, last]
      · rw [if_neg inside]
        simp [inside]

theorem newValid_whole (len : Nat) : (newValid len).Whole := by
  refine ⟨?_, ?_⟩
  · unfold newValid maskTrailing
    dsimp only
    split
    · simp
    · simp
  · intro i past
    rw [get_newValid]
    simpa [newValid] using past

theorem newValid_bits (len : Nat) : (newValid len).bits = List.replicate len true := by
  apply List.ext_getElem
  · simp [bits, newValid]
  · intro i left right
    simp only [bits, List.getElem_map, List.getElem_range, get_newValid, List.getElem_replicate, decide_eq_true_eq]
    simpa using right

end Fill

section Bits

variable {b : Bitmap} {l : List Bool} {i : Nat}

@[simp] theorem length_bits (b : Bitmap) : b.bits.length = b.len := by simp [bits]

theorem getElem_bits (inside : i < b.bits.length) : b.bits[i] = b.get i := by simp [bits]

theorem pushAll_whole (whole : b.Whole) : (b.pushAll l).Whole := by
  induction l generalizing b with
  | nil => exact whole
  | cons v l ih => exact ih (push_whole whole)

theorem pushAll_bits (whole : b.Whole) : (b.pushAll l).bits = b.bits ++ l := by
  induction l generalizing b with
  | nil => exact (List.append_nil _).symm
  | cons v l ih =>
    have next : ((b.push v).pushAll l).bits = (b.push v).bits ++ l := ih (push_whole whole)
    rw [push_bits whole, List.append_assoc] at next
    exact next

theorem ofBits_whole (l : List Bool) : (ofBits l).Whole := pushAll_whole empty_whole

@[simp] theorem bits_ofBits (l : List Bool) : (ofBits l).bits = l := pushAll_bits empty_whole

@[simp] theorem len_ofBits (l : List Bool) : (ofBits l).len = l.length := by rw [← length_bits, bits_ofBits]

theorem get_ofBits (inside : i < l.length) : (ofBits l).get i = l[i] := by
  rw [← getElem_bits (by simpa using inside)]
  simp only [bits_ofBits]

theorem Whole.eq_ofBits (whole : b.Whole) : b = ofBits b.bits :=
  whole.ext (ofBits_whole _) (bits_ofBits _).symm

theorem newValid_eq (len : Nat) : newValid len = ofBits (List.replicate len true) := by
  rw [(newValid_whole len).eq_ofBits, newValid_bits]

theorem pushAll_ofBits (l m : List Bool) : (ofBits l).pushAll m = ofBits (l ++ m) := List.foldl_append.symm

theorem push_ofBits (l : List Bool) (valid : Bool) : (ofBits l).push valid = ofBits (l ++ [valid]) := pushAll_ofBits l [valid]

end Bits

section Count

/-- Over whole words, counting bits is counting rows. -/
theorem sum_countOnes (words : List (BitVec 64)) : (words.map countOnes).sum =
    (List.range (64 * words.length)).countP fun i => (words.getD (i / 64) 0#64).getLsbD (i % 64) := by
  induction words with
  | nil => rfl
  | cons word words ih =>
    have reach : 64 * (word :: words).length = 64 + 64 * words.length := by
      rw [List.length_cons]
      omega
    have own : countOnes word = (List.range 64).countP fun i => ((word :: words).getD (i / 64) 0#64).getLsbD (i % 64) := by
      apply List.countP_congr
      intro i inside
      have low := List.mem_range.mp inside
      rw [Nat.div_eq_of_lt low, Nat.mod_eq_of_lt low, List.getD_cons_zero]
    rw [List.map_cons, List.sum_cons, ih, own, reach, List.range_add, List.countP_append, List.countP_map]
    apply congrArg
    apply List.countP_congr
    intro i _
    have word' : (64 + i) / 64 = i / 64 + 1 := by omega
    have offset : (64 + i) % 64 = i % 64 := by omega
    simp only [Function.comp_apply, word', offset, List.getD_cons_succ]

theorem countValid_eq {b : Bitmap} (whole : b.Whole) : b.countValid = b.bits.count true := by
  have words := whole.words
  unfold wordCount at words
  obtain ⟨past, reach⟩ : ∃ past, 64 * b.words.length = b.len + past := ⟨64 * b.words.length - b.len, by omega⟩
  have none_ : ((List.range past).map (b.len + ·)).countP (fun i => (b.words.getD (i / 64) 0#64).getLsbD (i % 64)) = 0 := by
    rw [List.countP_eq_zero]
    intro i inside
    obtain ⟨j, _, rfl⟩ := List.mem_map.mp inside
    rw [← get_eq, whole.clear _ (by omega)]
    decide
  rw [countValid, sum_countOnes, reach, List.range_add, List.countP_append, none_, Nat.add_zero, bits, List.count, List.countP_map]
  apply List.countP_congr
  intro i _
  rw [← get_eq]
  simp

theorem countValid_le {b : Bitmap} (whole : b.Whole) : b.countValid ≤ b.len := by
  rw [countValid_eq whole, ← length_bits b]
  exact List.count_le_length

end Count

/-- `slice_bitmap`. -/
def slice (b : Bitmap) (start len : Nat) : Bitmap := ofBits ((List.range' start len).map b.get)

theorem slice_eq {b : Bitmap} {start len : Nat} (inside : start + len ≤ b.len) :
    b.slice start len = ofBits ((b.bits.drop start).take len) := by
  apply congrArg ofBits
  apply List.ext_getElem
  · simp
    omega
  · intro i left right
    rw [List.getElem_map, List.getElem_take, List.getElem_drop, getElem_bits]
    simp

end Bitmap

end Adelie
