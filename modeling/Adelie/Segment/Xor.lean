import Adelie.Segment.Bitpack

namespace Adelie

/-- How many of 64 bits are below the lowest set one. -/
def trailingZeros (x : Nat) : Nat := ((List.range 64).find? (x.testBit ·)).getD 64

namespace Xor

/-- The bits kept of a difference: how many lead them, and how many they are. -/
abbrev Window := Option (Nat × Nat)

/-- The window last set, where the difference fits it. -/
def fitting (window : Window) (leading trailing : Nat) : Window :=
  window.filter fun w => w.1 ≤ leading && 64 - w.1 - w.2 ≤ trailing

/-- The fields of one value against the one before, and the window after it. -/
def encodeStep (prev : Nat) (window : Window) (bits : Nat) : List (Nat × Nat) × Window :=
  let xor := bits ^^^ prev
  if xor = 0 then ([(0, 1)], window)
  else
    let leading := min (leadingZeros xor) 63
    let trailing := trailingZeros xor
    let length := 64 - leading - trailing
    match fitting window leading trailing with
    | some (lead, len) => ([(1, 1), (0, 1), ((xor >>> (64 - lead - len)) &&& mask len, len)], window)
    | none => ([(1, 1), (1, 1), (leading, 6), (length, 7), (xor >>> trailing, length)], some (leading, length))

def writeAll (bw : BitWriter) (fields : List (Nat × Nat)) : BitWriter := fields.foldl (fun bw f => bw.write f.1 f.2) bw

def encodeLoop : Nat → Window → BitWriter → List Nat → BitWriter
  | _, _, bw, [] => bw
  | prev, window, bw, bits :: rest =>
    let (fields, window) := encodeStep prev window bits
    encodeLoop bits window (writeAll bw fields) rest

/-- Gorilla: each value's bits against those of the value before. -/
def encode : List Nat → List UInt8
  | [] => []
  | first :: rest => (encodeLoop first none (BitWriter.new.write first 64) rest).finish

abbrev BitCursor := StateT BitReader (Except DecodeError)

def decodeStep (window : Window) : BitCursor (Nat × Window) := do
  if (← BitReader.read 1) = 0 then return (0, window)
  else if (← BitReader.read 1) = 0 then
    match window with
    | none => throw (.malformed "xor: no window yet")
    | some (lead, len) => do
      let field ← BitReader.read len
      return ((field <<< (64 - lead - len)) % 2 ^ 64, window)
  else
    let leading ← BitReader.read 6
    let length ← BitReader.read 7
    if length = 0 ∨ 64 < length ∨ 64 < leading + length then throw (.malformed "xor: bad window")
    else
      let field ← BitReader.read length
      return ((field <<< (64 - leading - length)) % 2 ^ 64, some (leading, length))

def decodeLoop : Nat → Nat → Window → BitCursor (List Nat)
  | 0, _, _ => return []
  | rows + 1, prev, window => do
    let (xor, window) ← decodeStep window
    let rest ← decodeLoop rows (xor ^^^ prev) window
    return (xor ^^^ prev) :: rest

def decodeBits : Nat → BitCursor (List Nat)
  | 0 => return []
  | rows + 1 => do
    let first ← BitReader.read 64
    let rest ← decodeLoop rows first none
    return first :: rest

/-- The bits are all that is left of the chunk. -/
def decode (rows : Nat) : Cursor (List Nat) := do
  if rows = 0 then return []
  else
    let rows ← Cursor.guardLen rows 0
    let bytes ← Cursor.raw (← Cursor.remaining)
    BitReader.within (decodeBits rows) bytes

section Zeros

variable {x : Nat}

theorem trailingZeros_spec (some_ : x ≠ 0) (small : x < 2 ^ 64) :
    trailingZeros x < 64 ∧ x.testBit (trailingZeros x) = true ∧ ∀ i < trailingZeros x, x.testBit i = false := by
  obtain ⟨i, set⟩ := Nat.exists_testBit_of_ne_zero some_
  have inside : i < 64 := by
    by_contra past
    rw [Nat.testBit_lt_two_pow (lt_of_lt_of_le small (Nat.pow_le_pow_right (by decide) (by omega)))] at set
    cases set
  unfold trailingZeros
  cases found : (List.range 64).find? (x.testBit ·) with
  | none =>
    rw [List.find?_eq_none] at found
    exact absurd set (found i (List.mem_range.mpr inside))
  | some t =>
    rw [List.find?_range_eq_some] at found
    obtain ⟨one_, low, first⟩ := found
    refine ⟨List.mem_range.mp low, one_, ?_⟩
    intro j below
    simpa using first j below

theorem trailingZeros_dvd (some_ : x ≠ 0) (small : x < 2 ^ 64) : 2 ^ trailingZeros x ∣ x := by
  rw [Nat.dvd_iff_mod_eq_zero]
  apply Nat.eq_of_testBit_eq
  intro i
  rw [Nat.testBit_mod_two_pow, Nat.zero_testBit]
  by_cases below : i < trailingZeros x
  · simp [(trailingZeros_spec some_ small).2.2 i below]
  · simp [below]

theorem zeros_lt (some_ : x ≠ 0) (small : x < 2 ^ 64) : leadingZeros x + trailingZeros x < 64 := by
  obtain ⟨low, set, _⟩ := trailingZeros_spec some_ small
  have reach : 2 ^ trailingZeros x ≤ x := Nat.ge_two_pow_of_testBit set
  have size := Nat.lt_size.mpr reach
  have := Nat.size_le.mpr small
  unfold leadingZeros
  omega

theorem lt_leadingZeros (small : x < 2 ^ 64) : x < 2 ^ (64 - leadingZeros x) := by
  have := Nat.size_le.mpr small
  have size : 64 - leadingZeros x = x.size := by
    unfold leadingZeros
    omega
  rw [size]
  exact Nat.lt_size_self x

end Zeros

section Steps

open BitReader

variable {prev bits : Nat} {window : Window} {xs : List Nat}

/-- A window is some of the 64 bits. -/
def Framed (window : Window) : Prop := ∀ w, window = some w → 0 < w.2 ∧ w.1 + w.2 ≤ 64

theorem fitting_eq_some {leading trailing : Nat} {w : Nat × Nat} (fit : fitting window leading trailing = some w) :
    window = some w ∧ w.1 ≤ leading ∧ 64 - w.1 - w.2 ≤ trailing := by
  obtain ⟨same, close⟩ := Option.filter_eq_some_iff.mp fit
  rw [Bool.and_eq_true, decide_eq_true_eq, decide_eq_true_eq] at close
  exact ⟨same, close⟩

/-- A difference is its bits above a shift that drops only zeros. -/
theorem shift_back {x k : Nat} (small : x < 2 ^ 64) (divides : 2 ^ k ∣ x) : ((x >>> k) <<< k) % 2 ^ 64 = x := by
  rw [Nat.shiftRight_eq_div_pow, Nat.shiftLeft_eq, Nat.div_mul_cancel divides, Nat.mod_eq_of_lt small]

theorem shift_lt {x k n : Nat} (small : x < 2 ^ (n + k)) : x >>> k < 2 ^ n := by
  rw [Nat.shiftRight_eq_div_pow, Nat.div_lt_iff_lt_mul (by positivity), ← pow_add]
  exact small

theorem framed_step (framed : Framed window) (bits_lt : bits < 2 ^ 64) (prev_lt : prev < 2 ^ 64) :
    Framed (encodeStep prev window bits).2 := by
  have small : bits ^^^ prev < 2 ^ 64 := Nat.xor_lt_two_pow bits_lt prev_lt
  unfold encodeStep
  dsimp only
  split
  · exact framed
  · rename_i some_
    have zeros := zeros_lt some_ small
    split
    · exact framed
    · rintro _ ⟨⟩
      dsimp only
      omega

theorem widths_step (framed : Framed window) : ∀ f ∈ (encodeStep prev window bits).1, f.2 ≤ 64 := by
  unfold encodeStep
  dsimp only
  split
  · simp
  · split
    · rename_i lead len fit
      have := (framed _ (fitting_eq_some fit).1).2
      simp
      omega
    · simp
      omega

/-- A step reads the difference it was written from, and the window after it. -/
theorem consumes_step (framed : Framed window) (bits_lt : bits < 2 ^ 64) (prev_lt : prev < 2 ^ 64) :
    Consumes BitReader.Holds (decodeStep window) (encodeStep prev window bits).1 (bits ^^^ prev, (encodeStep prev window bits).2) := by
  have small : bits ^^^ prev < 2 ^ 64 := Nat.xor_lt_two_pow bits_lt prev_lt
  obtain ⟨x, diff⟩ : ∃ x, bits ^^^ prev = x := ⟨_, rfl⟩
  unfold encodeStep decodeStep
  dsimp only
  rw [diff] at small ⊢
  by_cases same : x = 0
  · rw [if_pos same]
    have read : Consumes BitReader.Holds (BitReader.read 1) [(0, 1)] 0 := consumes_read (by decide)
    apply Consumes.bind_last read
    rw [if_pos rfl, same]
    exact Consumes.pure _
  · rw [if_neg same]
    have zeros := zeros_lt same small
    have leading : min (leadingZeros x) 63 = leadingZeros x := by omega
    have above := lt_leadingZeros small
    have divides := trailingZeros_dvd same small
    have read_one : Consumes BitReader.Holds (BitReader.read 1) [(1, 1)] 1 := consumes_read (by decide)
    have read_zero : Consumes BitReader.Holds (BitReader.read 1) [(0, 1)] 0 := consumes_read (by decide)
    rw [leading]
    cases fit : fitting window (leadingZeros x) (trailingZeros x) with
    | some w =>
      obtain ⟨lead, len⟩ := w
      obtain ⟨rfl, low, high⟩ := fitting_eq_some fit
      have inside := (framed _ rfl).2
      dsimp only at low high inside ⊢
      apply Consumes.bind read_one
      rw [if_neg (by decide)]
      apply Consumes.bind read_zero
      rw [if_pos rfl]
      have field : x >>> (64 - lead - len) < 2 ^ len := by
        apply shift_lt
        exact lt_of_lt_of_le above (Nat.pow_le_pow_right (by decide) (by omega))
      rw [and_mask (by omega), Nat.mod_eq_of_lt field]
      apply Consumes.bind_last (consumes_read field)
      rw [shift_back small ((Nat.pow_dvd_pow 2 high).trans divides)]
      exact Consumes.pure _
    | none =>
      obtain ⟨lead, lead_eq⟩ : ∃ lead, leadingZeros x = lead := ⟨_, rfl⟩
      obtain ⟨trail, trail_eq⟩ : ∃ trail, trailingZeros x = trail := ⟨_, rfl⟩
      rw [lead_eq] at zeros above
      rw [trail_eq] at zeros divides
      rw [lead_eq, trail_eq]
      dsimp only
      have reach : 64 - lead - (64 - lead - trail) = trail := by omega
      apply Consumes.bind read_one
      rw [if_neg (by decide)]
      apply Consumes.bind read_one
      rw [if_neg (by decide)]
      apply Consumes.bind (consumes_read (by omega : lead < 2 ^ 6))
      apply Consumes.bind (consumes_read (by omega : 64 - lead - trail < 2 ^ 7))
      rw [if_neg (by omega)]
      have field : x >>> trail < 2 ^ (64 - lead - trail) := by
        apply shift_lt
        exact lt_of_lt_of_le above (Nat.pow_le_pow_right (by decide) (by omega))
      apply Consumes.bind_last (consumes_read field)
      rw [reach, shift_back small divides]
      exact Consumes.pure _

/-- The fields of values one after another. -/
def loopFields : Nat → Window → List Nat → List (Nat × Nat)
  | _, _, [] => []
  | prev, window, bits :: rest => (encodeStep prev window bits).1 ++ loopFields bits (encodeStep prev window bits).2 rest

theorem writeAll_wrote {bw : BitWriter} {fields more : List (Nat × Nat)} (wrote : bw.Wrote fields) (narrow : ∀ f ∈ more, f.2 ≤ 64) :
    (writeAll bw more).Wrote (fields ++ more) := by
  induction more generalizing bw fields with
  | nil => simpa [writeAll] using wrote
  | cons f rest ih =>
    rw [List.forall_mem_cons] at narrow
    have own : (bw.write f.1 f.2).Wrote (fields ++ [(f.1, f.2)]) := wrote.write narrow.1
    have next := ih own narrow.2
    rwa [List.append_assoc] at next

theorem encodeLoop_wrote {bw : BitWriter} {fields : List (Nat × Nat)} (wrote : bw.Wrote fields) (framed : Framed window)
    (prev_lt : prev < 2 ^ 64) (small : ∀ x ∈ xs, x < 2 ^ 64) :
    (encodeLoop prev window bw xs).Wrote (fields ++ loopFields prev window xs) := by
  induction xs generalizing prev window bw fields with
  | nil => simpa [encodeLoop, loopFields] using wrote
  | cons x rest ih =>
    rw [List.forall_mem_cons] at small
    have turn := writeAll_wrote wrote (@widths_step prev x _ framed)
    have next := ih turn (framed_step framed small.1 prev_lt) small.1 small.2
    rwa [List.append_assoc] at next

theorem consumes_loop (framed : Framed window) (prev_lt : prev < 2 ^ 64) (small : ∀ x ∈ xs, x < 2 ^ 64) :
    Consumes BitReader.Holds (decodeLoop xs.length prev window) (loopFields prev window xs) xs := by
  induction xs generalizing prev window with
  | nil => exact Consumes.pure _
  | cons x rest ih =>
    rw [List.forall_mem_cons] at small
    apply (consumes_step framed small.1 prev_lt).bind
    dsimp only
    rw [Nat.xor_xor_cancel_right, ← List.append_nil (loopFields _ _ _)]
    apply (ih (framed_step framed small.1 prev_lt) small.1 small.2).bind
    exact Consumes.pure _

/-- All the chunk holds reads back as the values' bits. -/
theorem decode_encode (small : ∀ x ∈ xs, x < 2 ^ 64) (few : xs.length ≤ maxDecodeRows) :
    decode xs.length (encode xs) = .ok (xs, []) := by
  cases xs with
  | nil => rfl
  | cons first rest =>
    rw [List.forall_mem_cons] at small
    have none_ : Framed none := by
      rintro _ ⟨⟩
    obtain ⟨bw, written⟩ : ∃ bw, encodeLoop first none (BitWriter.new.write first 64) rest = bw := ⟨_, rfl⟩
    have wrote : bw.Wrote ([] ++ [(first, 64)] ++ loopFields first none rest) :=
      written ▸ encodeLoop_wrote (BitWriter.new_wrote.write (Nat.le_refl 64)) none_ small.1 small.2
    have reads : Consumes BitReader.Holds (decodeBits (rest.length + 1)) ([(first, 64)] ++ (loopFields first none rest ++ [])) (first :: rest) := by
      apply (consumes_read small.1).bind
      apply (consumes_loop none_ small.1 small.2).bind
      exact Consumes.pure _
    rw [List.append_nil] at reads
    obtain ⟨r, made⟩ := reads.run (BitReader.new_holds wrote)
    have all : Decodes (Cursor.raw bw.finish.length >>= BitReader.within (decodeBits (rest.length + 1))) (bw.finish ++ [])
        (first :: rest) := by
      apply (decodes_take rfl).bind
      rw [within_eq made]
      exact Decodes.pure _
    rw [List.append_nil] at all
    rw [encode, written, List.length_cons, decode, if_neg (Nat.succ_ne_zero _), bind_apply,
      guardLen_eq_ok (by simpa using few) (by decide) (by omega)]
    exact all.whole

theorem gives_step (window : Window) : Gives (decodeStep window) fun p => p.1 < 2 ^ 64 := by
  refine (gives_read 1).bind ?_
  intro first _
  split
  · exact Gives.pure (Nat.two_pow_pos 64)
  · refine (gives_read 1).bind ?_
    intro second _
    split
    · split
      · exact Gives.throw _
      · refine (gives_read _).bind ?_
        intro field _
        exact Gives.pure (Nat.mod_lt _ (by decide))
    · refine (gives_read 6).bind ?_
      intro leading _
      refine (gives_read 7).bind ?_
      intro length _
      split
      · exact Gives.throw _
      · refine (gives_read length).bind ?_
        intro field _
        exact Gives.pure (Nat.mod_lt _ (by decide))

theorem gives_loop (rows : Nat) (prev_lt : prev < 2 ^ 64) (window : Window) :
    Gives (decodeLoop rows prev window) fun v => v.length = rows ∧ ∀ x ∈ v, x < 2 ^ 64 := by
  induction rows generalizing prev window with
  | zero => exact Gives.pure ⟨rfl, by simp⟩
  | succ rows ih =>
    refine (gives_step window).bind ?_
    rintro ⟨xor, window⟩ small
    have next := Nat.xor_lt_two_pow small prev_lt
    refine (ih next window).bind ?_
    rintro rest ⟨length, others⟩
    exact Gives.pure ⟨congrArg (· + 1) length, List.forall_mem_cons.mpr ⟨next, others⟩⟩

theorem gives_bits (rows : Nat) : Gives (decodeBits rows) fun v => v.length = rows ∧ ∀ x ∈ v, x < 2 ^ 64 := by
  cases rows with
  | zero => exact Gives.pure ⟨rfl, by simp⟩
  | succ rows =>
    refine (gives_read 64).bind ?_
    intro first small
    refine (gives_loop rows small none).bind ?_
    rintro rest ⟨length, others⟩
    exact Gives.pure ⟨congrArg (· + 1) length, List.forall_mem_cons.mpr ⟨small, others⟩⟩

theorem yields_decode (rows : Nat) : Yields (decode rows) fun v => v.length = rows ∧ ∀ x ∈ v, x < 2 ^ 64 := by
  unfold decode
  split
  · rename_i none_
    exact Yields.pure ⟨none_.symm, by simp⟩
  · apply (yields_guardLen rows 0).bind
    rintro n ⟨rfl, _⟩
    apply @Yields.bind _ _ _ _ (fun _ => True)
    · intro b k rest made
      cases made
      exact ⟨trivial, [], rfl⟩
    · intro left _
      apply (yields_take left).bind
      intro bytes _
      exact yields_within (gives_bits n) bytes

end Steps

end Xor

end Adelie
