import Adelie.Lib.Runs
import Adelie.Segment.Bitpack
import Adelie.Types.Platform

namespace Adelie

namespace Rle

/-- No more runs than rows, nor than the bytes left could hold. -/
def readNruns (rows : Nat) : Cursor Nat := do
  let nruns ← Cursor.uvarint
  if rows < nruns then Cursor.fail (.malformed "rle: run count exceeds rows") else Cursor.guardLen nruns 2

/-- At least one row, and none past the last. -/
def readRunLen (rows pos : Nat) : Cursor Nat := do
  let len ← Cursor.uvarint
  if len = 0 then Cursor.fail (.malformed "rle: zero-length run")
  else if 2 ^ 64 ≤ pos + len then Cursor.fail (.malformed "rle: run too long")
  else if rows < pos + len then Cursor.fail (.malformed "rle: run sum exceeds rows")
  else return len

section Runs

variable {α : Type} [DecidableEq α]

/-- Each run's value and its length. -/
def encode (value : α → List UInt8) (v : List α) : List UInt8 :=
  Sink.uvarint (runLengths v).length ++ (runLengths v).flatMap fun r => value r.1 ++ Sink.uvarint r.2

def decodeLoop {α : Type} (value : Cursor α) (rows : Nat) : Nat → List α → Cursor (List α)
  | 0, out =>
    if out.length = rows then return out else Cursor.fail (.malformed "rle: run sum does not match rows")
  | n + 1, out => do
    let v ← value
    let len ← readRunLen rows out.length
    decodeLoop value rows n (out ++ List.replicate len v)

def decode {α : Type} (value : Cursor α) (rows : Nat) : Cursor (List α) := do
  let nruns ← readNruns rows
  decodeLoop value rows nruns []

end Runs

def boolValue : Cursor Bool := do
  let v ← Cursor.u8
  if 1 < v then Cursor.fail (.malformed "rle: bool value not 0 or 1") else return v = 1

def encodeBool (bits : List Bool) : List UInt8 := encode (fun b => Sink.u8 b.toNat) bits

def decodeBool (rows : Nat) : Cursor (List Bool) := decode boolValue rows

def encodeI64 (v : List Int) : List UInt8 := encode Sink.svarint v

def decodeI64 (rows : Nat) : Cursor (List Int) := decode Cursor.svarint rows

def encodeU64 (v : List Nat) : List UInt8 := encode Sink.uvarint v

def decodeU64 (rows : Nat) : Cursor (List Nat) := decode Cursor.uvarint rows

end Rle

/-- An order-preserving `u64` of an `i64`: its sign bit flipped. -/
def mapI64 (v : List Int) : List Nat := v.map fun x => toWord 64 x ^^^ 2 ^ 63

def unmapI64 (v : List Nat) : List Int := v.map fun u => ofWord 64 (u ^^^ 2 ^ 63)

namespace FrameOfRef

def encodeI64 (v : List Int) : List UInt8 := writeFor (mapI64 v)

def decodeI64 (rows : Nat) : Cursor (List Int) := unmapI64 <$> readFor rows

def encodeU64 (v : List Nat) : List UInt8 := writeFor v

def decodeU64 (rows : Nat) : Cursor (List Nat) := readFor rows

end FrameOfRef

namespace Delta

/-- `wrapping_sub(a, b) as i64`. -/
def signedDiff (a b : Nat) : Int := ofWord 64 ((a + (2 ^ 64 - b)) % 2 ^ 64)

/-- `wrapping_add(a, d as u64)`. -/
def advance (a : Nat) (d : Int) : Nat := (a + toWord 64 d) % 2 ^ 64

/-- The differences from each value to the next. -/
def deltas : Nat → List Nat → List Nat
  | _, [] => []
  | prev, x :: rest => zigzag (signedDiff x prev) :: deltas x rest

def undelta : Nat → List Nat → List Nat
  | _, [] => []
  | prev, dz :: rest => advance prev (unzigzag dz) :: undelta (advance prev (unzigzag dz)) rest

def encodeDeltaMapped : List Nat → List UInt8
  | [] => []
  | [first] => Sink.u64 first
  | first :: rest => Sink.u64 first ++ writeFor (deltas first rest)

def decodeDeltaMapped : Nat → Cursor (List Nat)
  | 0 => return []
  | 1 => do return [← Cursor.u64]
  | rows + 2 => do
    let first ← Cursor.u64
    let diffs ← readFor (rows + 1)
    return first :: undelta first diffs

/-- The differences from each difference to the next. -/
def seconds : Nat → Int → List Nat → List Nat
  | _, _, [] => []
  | prev, prevDelta, x :: rest =>
    zigzag (wrapI64 (signedDiff x prev - prevDelta)).val :: seconds x (signedDiff x prev) rest

def unseconds : Nat → Int → List Nat → List Nat
  | _, _, [] => []
  | prev, prevDelta, dz :: rest =>
    let delta := (wrapI64 (prevDelta + unzigzag dz)).val
    advance prev delta :: unseconds (advance prev delta) delta rest

/-- From two values on the block is there, if only an empty one. -/
def encodeDodMapped : List Nat → List UInt8
  | [] => []
  | [first] => Sink.u64 first
  | first :: second :: rest =>
    Sink.u64 first ++ (Sink.svarint (signedDiff second first) ++ writeFor (seconds second (signedDiff second first) rest))

def decodeDodMapped : Nat → Cursor (List Nat)
  | 0 => return []
  | 1 => do return [← Cursor.u64]
  | rows + 2 => do
    let first ← Cursor.u64
    let firstDelta ← Cursor.svarint
    let diffs ← readFor rows
    return first :: advance first firstDelta :: unseconds (advance first firstDelta) firstDelta diffs

def encodeDeltaI64 (v : List Int) : List UInt8 := encodeDeltaMapped (mapI64 v)

def decodeDeltaI64 (rows : Nat) : Cursor (List Int) := unmapI64 <$> decodeDeltaMapped rows

def encodeDeltaU64 (v : List Nat) : List UInt8 := encodeDeltaMapped v

def decodeDeltaU64 (rows : Nat) : Cursor (List Nat) := decodeDeltaMapped rows

def encodeDodI64 (v : List Int) : List UInt8 := encodeDodMapped (mapI64 v)

def decodeDodI64 (rows : Nat) : Cursor (List Int) := unmapI64 <$> decodeDodMapped rows

def encodeDodU64 (v : List Nat) : List UInt8 := encodeDodMapped v

def decodeDodU64 (rows : Nat) : Cursor (List Nat) := decodeDodMapped rows

end Delta

theorem uvarint_pos (v : Nat) : 0 < (Sink.uvarint v).length := by
  rw [Sink.uvarint, Sink.uvarintIn]
  split
  · exact Nat.one_pos
  · exact Nat.succ_pos _

theorem svarint_pos (v : Int) : 0 < (Sink.svarint v).length := uvarint_pos _

namespace Rle

section Runs

variable {α : Type} {enc : α → List UInt8} {value : Cursor α} {good : α → Prop} {rows : Nat}

theorem decodes_runLen {pos len : Nat} (some_ : 0 < len) (inside : pos + len ≤ rows) (small : rows < 2 ^ 64) :
    Decodes (readRunLen rows pos) (Sink.uvarint len) len := by
  rw [← List.append_nil (Sink.uvarint len)]
  apply (decodes_uvarint (by omega)).bind
  rw [if_neg (by omega), if_neg (by omega), if_neg (by omega)]
  exact Decodes.pure _

theorem decodes_loop (small : rows < 2 ^ 64) (runs : List (α × Nat)) (out : List α)
    (each : ∀ r ∈ runs, Decodes value (enc r.1) r.1 ∧ 0 < r.2) (total : out.length + (expand runs).length = rows) :
    Decodes (decodeLoop value rows runs.length out) (runs.flatMap fun r => enc r.1 ++ Sink.uvarint r.2) (out ++ expand runs) := by
  induction runs generalizing out with
  | nil =>
    rw [List.length_nil, decodeLoop, if_pos (by simpa [expand] using total)]
    have none_ : out ++ expand ([] : List (α × Nat)) = out := List.append_nil out
    rw [none_]
    exact Decodes.pure _
  | cons r rest ih =>
    obtain ⟨v, len⟩ := r
    obtain ⟨reads, some_⟩ := each (v, len) (.head _)
    have split : expand ((v, len) :: rest) = List.replicate len v ++ expand rest := rfl
    rw [split, List.length_append, List.length_replicate] at total
    rw [List.length_cons, decodeLoop, List.flatMap_cons, List.append_assoc, split, ← List.append_assoc out]
    apply reads.bind
    apply (decodes_runLen some_ (by omega) small).bind
    apply ih _ (fun r member => each r (.tail _ member))
    rw [List.length_append, List.length_replicate]
    omega

/-- Runs read back as the values they stand for. -/
theorem decodes_rle [DecidableEq α] {v : List α} (each : ∀ x ∈ v, Decodes value (enc x) x) (bytes : ∀ x, 0 < (enc x).length)
    (few : v.length ≤ maxDecodeRows) : Decodes (decode value v.length) (encode enc v) v := by
  have limit : maxDecodeRows < 2 ^ 63 := by decide
  have whole := expand_runLengths v
  have count := length_le_expand (@runLengths_pos _ _ v)
  rw [whole] at count
  have room : (runLengths v).length * 2 ≤ ((runLengths v).flatMap fun r => enc r.1 ++ Sink.uvarint r.2).length := by
    rw [List.length_flatMap, Nat.mul_comm]
    have two : ∀ n ∈ (runLengths v).map fun r => (enc r.1 ++ Sink.uvarint r.2).length, 2 ≤ n := by
      rw [List.forall_mem_map]
      intro r _
      have := bytes r.1
      have := uvarint_pos r.2
      rw [List.length_append]
      omega
    have sum := List.card_nsmul_le_sum _ 2 two
    rw [List.length_map, smul_eq_mul] at sum
    rwa [Nat.mul_comm]
  have loop : Decodes (decodeLoop value v.length (runLengths v).length [])
      ((runLengths v).flatMap fun r => enc r.1 ++ Sink.uvarint r.2) v := by
    have read := @decodes_loop _ _ _ v.length (by omega) (runLengths v) []
      (fun r member => ⟨each r.1 (runLengths_mem member), runLengths_pos r member⟩) (by rw [whole]; simp)
    rwa [whole] at read
  rw [decode, encode, readNruns, bind_assoc]
  apply (decodes_uvarint (by omega)).bind
  rw [if_neg (by omega)]
  exact decodes_guardLen (by omega) (by decide) room loop

theorem yields_loop (yields : Yields value good) (n : Nat) (out : List α) (held : ∀ x ∈ out, good x) :
    Yields (decodeLoop value rows n out) fun v => v.length = rows ∧ ∀ x ∈ v, good x := by
  induction n generalizing out with
  | zero =>
    rw [decodeLoop]
    split
    · rename_i all
      exact Yields.pure ⟨all, held⟩
    · exact Yields.fail _
  | succ n ih =>
    apply yields.bind
    intro v holds
    apply @Yields.bind _ _ _ _ (fun _ => True)
    · apply yields_uvarint.bind
      intro len _
      split
      · exact Yields.fail _
      · split
        · exact Yields.fail _
        · split
          · exact Yields.fail _
          · exact Yields.pure trivial
    · intro len _
      apply ih
      intro x member
      rcases List.mem_append.mp member with member | member
      · exact held x member
      · rw [List.eq_of_mem_replicate member]
        exact holds

theorem yields_rle (yields : Yields value good) (rows : Nat) :
    Yields (decode value rows) fun v => v.length = rows ∧ ∀ x ∈ v, good x := by
  apply @Yields.bind _ _ _ _ (fun _ => True)
  · apply yields_uvarint.bind
    intro n _
    split
    · exact Yields.fail _
    · intro b k rest made
      exact ⟨trivial, (yields_guardLen n 2 b k rest made).2⟩
  · intro n _
    exact yields_loop yields n [] (by simp)

end Runs

theorem decodes_boolValue (b : Bool) : Decodes boolValue (Sink.u8 b.toNat) b := by
  rw [← List.append_nil (Sink.u8 b.toNat)]
  cases b with
  | false => exact (decodes_u8 (by decide)).bind (Decodes.pure _)
  | true => exact (decodes_u8 (by decide)).bind (Decodes.pure _)

end Rle

section Words

theorem toWord_ofWord {n : Nat} (small : n < 2 ^ 64) : toWord 64 (ofWord 64 n) = n := by
  unfold toWord ofWord
  split <;> omega

theorem xor_sign_lt {n : Nat} (small : n < 2 ^ 64) : n ^^^ 2 ^ 63 < 2 ^ 64 := Nat.xor_lt_two_pow small (by decide)

variable {v : List Int}

theorem mapI64_lt (v : List Int) : ∀ u ∈ mapI64 v, u < 2 ^ 64 := by
  rw [mapI64, List.forall_mem_map]
  exact fun x _ => xor_sign_lt (toWord_lt 64 x)

@[simp] theorem length_mapI64 (v : List Int) : (mapI64 v).length = v.length := List.length_map _

theorem unmapI64_mapI64 (bounds : ∀ x ∈ v, -2 ^ 63 ≤ x ∧ x < 2 ^ 63) : unmapI64 (mapI64 v) = v := by
  rw [unmapI64, mapI64, List.map_map]
  calc v.map _ = v.map id := by
        apply List.map_congr_left
        intro x member
        obtain ⟨low, high⟩ := bounds x member
        simp only [Function.comp_apply, Nat.xor_xor_cancel_right, id]
        exact ofWord_toWord (by decide) low high
    _ = v := List.map_id v

theorem unmapI64_bounds {u : List Nat} (small : ∀ n ∈ u, n < 2 ^ 64) : ∀ x ∈ unmapI64 u, -2 ^ 63 ≤ x ∧ x < 2 ^ 63 := by
  rw [unmapI64, List.forall_mem_map]
  exact fun n member => ofWord_bounds (by decide) (xor_sign_lt (small n member))

end Words

namespace Delta

variable {prev x rows : Nat} {xs : List Nat} {prevDelta : Int}

theorem signedDiff_bounds (a b : Nat) : -2 ^ 63 ≤ signedDiff a b ∧ signedDiff a b < 2 ^ 63 :=
  ofWord_bounds (by decide) (Nat.mod_lt _ (by decide))

theorem zigzag_diff_lt (a b : Nat) : zigzag (signedDiff a b) < 2 ^ 64 :=
  zigzag_lt (signedDiff_bounds a b).1 (signedDiff_bounds a b).2

theorem advance_lt (a : Nat) (d : Int) : advance a d < 2 ^ 64 := Nat.mod_lt _ (by decide)

theorem advance_diff (prev_lt : prev < 2 ^ 64) (x_lt : x < 2 ^ 64) : advance prev (signedDiff x prev) = x := by
  rw [advance, signedDiff, toWord_ofWord (Nat.mod_lt _ (by decide))]
  omega

theorem undelta_deltas (prev_lt : prev < 2 ^ 64) (small : ∀ x ∈ xs, x < 2 ^ 64) : undelta prev (deltas prev xs) = xs := by
  induction xs generalizing prev with
  | nil => rfl
  | cons x rest ih =>
    rw [List.forall_mem_cons] at small
    rw [deltas, undelta, unzigzag_zigzag, advance_diff prev_lt small.1, ih small.1 small.2]

theorem deltas_lt (prev : Nat) (xs : List Nat) : ∀ d ∈ deltas prev xs, d < 2 ^ 64 := by
  induction xs generalizing prev with
  | nil => simp [deltas]
  | cons x rest ih => exact List.forall_mem_cons.mpr ⟨zigzag_diff_lt x prev, ih x⟩

@[simp] theorem length_deltas (prev : Nat) (xs : List Nat) : (deltas prev xs).length = xs.length := by
  induction xs generalizing prev with
  | nil => rfl
  | cons x rest ih => exact congrArg (· + 1) (ih x)

/-- The next difference comes back from the one before and what it changed by. -/
theorem wrap_second {delta : Int} (low : -2 ^ 63 ≤ delta) (high : delta < 2 ^ 63) :
    (wrapI64 (prevDelta + (wrapI64 (delta - prevDelta)).val)).val = delta := by
  unfold wrapI64
  dsimp only
  omega

theorem unseconds_seconds (prev_lt : prev < 2 ^ 64) (small : ∀ x ∈ xs, x < 2 ^ 64) :
    unseconds prev prevDelta (seconds prev prevDelta xs) = xs := by
  induction xs generalizing prev prevDelta with
  | nil => rfl
  | cons x rest ih =>
    rw [List.forall_mem_cons] at small
    have delta := @wrap_second prevDelta _ (signedDiff_bounds x prev).1 (signedDiff_bounds x prev).2
    rw [seconds, unseconds, unzigzag_zigzag, delta, advance_diff prev_lt small.1, ih small.1 small.2]

theorem seconds_lt (prev : Nat) (prevDelta : Int) (xs : List Nat) : ∀ d ∈ seconds prev prevDelta xs, d < 2 ^ 64 := by
  induction xs generalizing prev prevDelta with
  | nil => simp [seconds]
  | cons x rest ih =>
    rw [seconds, List.forall_mem_cons]
    refine ⟨?_, ih x _⟩
    have bounds := (wrapI64 (signedDiff x prev - prevDelta)).property
    exact zigzag_lt bounds.1 bounds.2

@[simp] theorem length_seconds (prev : Nat) (prevDelta : Int) (xs : List Nat) : (seconds prev prevDelta xs).length = xs.length := by
  induction xs generalizing prev prevDelta with
  | nil => rfl
  | cons x rest ih => exact congrArg (· + 1) (ih x _)

@[simp] theorem length_undelta (prev : Nat) (ds : List Nat) : (undelta prev ds).length = ds.length := by
  induction ds generalizing prev with
  | nil => rfl
  | cons d rest ih => exact congrArg (· + 1) (ih _)

theorem undelta_lt (prev : Nat) (ds : List Nat) : ∀ x ∈ undelta prev ds, x < 2 ^ 64 := by
  induction ds generalizing prev with
  | nil => simp [undelta]
  | cons d rest ih => exact List.forall_mem_cons.mpr ⟨advance_lt _ _, ih _⟩

@[simp] theorem length_unseconds (prev : Nat) (prevDelta : Int) (ds : List Nat) : (unseconds prev prevDelta ds).length = ds.length := by
  induction ds generalizing prev prevDelta with
  | nil => rfl
  | cons d rest ih => exact congrArg (· + 1) (ih _ _)

theorem unseconds_lt (prev : Nat) (prevDelta : Int) (ds : List Nat) : ∀ x ∈ unseconds prev prevDelta ds, x < 2 ^ 64 := by
  induction ds generalizing prev prevDelta with
  | nil => simp [unseconds]
  | cons d rest ih => exact List.forall_mem_cons.mpr ⟨advance_lt _ _, ih _ _⟩

theorem decodes_one (x_lt : x < 2 ^ 64) :
    Decodes (do return [← Cursor.u64] : Cursor (List Nat)) (Sink.u64 x) [x] := by
  have read : Decodes (Cursor.u64 >>= fun x => Pure.pure [x] : Cursor (List Nat)) (Sink.u64 x ++ []) [x] :=
    (decodes_u64 x_lt).bind (Decodes.pure _)
  rwa [List.append_nil] at read

/-- Differences read back as the values. -/
theorem decodes_delta (small : ∀ x ∈ xs, x < 2 ^ 64) (few : xs.length ≤ maxDecodeRows) :
    Decodes (decodeDeltaMapped xs.length) (encodeDeltaMapped xs) xs := by
  match xs with
  | [] => exact Decodes.pure _
  | [first] => exact decodes_one (small first (.head _))
  | first :: next :: rest =>
    obtain ⟨first_lt, others⟩ := List.forall_mem_cons.mp small
    have block := @decodes_for (deltas first (next :: rest)) (deltas_lt _ _)
      (by rw [length_deltas]; exact Nat.le_of_succ_le few)
    rw [length_deltas] at block
    rw [encodeDeltaMapped, ← List.append_nil (writeFor _)]
    · apply (decodes_u64 first_lt).bind
      apply block.bind
      rw [undelta_deltas first_lt others]
      exact Decodes.pure _
    · simp

/-- Second differences read back as the values. -/
theorem decodes_dod (small : ∀ x ∈ xs, x < 2 ^ 64) (few : xs.length ≤ maxDecodeRows) :
    Decodes (decodeDodMapped xs.length) (encodeDodMapped xs) xs := by
  match xs with
  | [] => exact Decodes.pure _
  | [first] => exact decodes_one (small first (.head _))
  | first :: second :: rest =>
    obtain ⟨first_lt, others⟩ := List.forall_mem_cons.mp small
    obtain ⟨second_lt, others⟩ := List.forall_mem_cons.mp others
    have bounds := signedDiff_bounds second first
    have block := @decodes_for (seconds second (signedDiff second first) rest) (seconds_lt _ _ _)
      (by rw [length_seconds]; exact Nat.le_of_succ_le (Nat.le_of_succ_le few))
    rw [length_seconds] at block
    rw [encodeDodMapped, ← List.append_nil (writeFor _)]
    apply (decodes_u64 first_lt).bind
    apply (decodes_svarint bounds.1 bounds.2).bind
    apply block.bind
    rw [advance_diff first_lt second_lt, unseconds_seconds second_lt others]
    exact Decodes.pure _

theorem yields_delta (rows : Nat) : Yields (decodeDeltaMapped rows) fun v => v.length = rows ∧ ∀ x ∈ v, x < 2 ^ 64 := by
  match rows with
  | 0 => exact Yields.pure ⟨rfl, by simp⟩
  | 1 =>
    apply (yields_nat 8).bind
    intro x x_lt
    exact Yields.pure ⟨rfl, by simpa using x_lt⟩
  | rows + 2 =>
    apply (yields_nat 8).bind
    intro x x_lt
    apply (yields_for (rows + 1)).bind
    rintro ds ⟨length, _⟩
    exact Yields.pure ⟨by simp [length], List.forall_mem_cons.mpr ⟨by simpa using x_lt, undelta_lt _ _⟩⟩

theorem yields_dod (rows : Nat) : Yields (decodeDodMapped rows) fun v => v.length = rows ∧ ∀ x ∈ v, x < 2 ^ 64 := by
  match rows with
  | 0 => exact Yields.pure ⟨rfl, by simp⟩
  | 1 =>
    apply (yields_nat 8).bind
    intro x x_lt
    exact Yields.pure ⟨rfl, by simpa using x_lt⟩
  | rows + 2 =>
    apply (yields_nat 8).bind
    intro x x_lt
    apply yields_svarint.bind
    intro d _
    apply (yields_for rows).bind
    rintro ds ⟨length, _⟩
    apply Yields.pure
    refine ⟨by simp [length], List.forall_mem_cons.mpr ⟨by simpa using x_lt, ?_⟩⟩
    exact List.forall_mem_cons.mpr ⟨advance_lt _ _, unseconds_lt _ _ _⟩

end Delta

end Adelie
