import Adelie.Exec.Physical
import Adelie.Lib.Runs
import Adelie.Segment.Codec

namespace Adelie

/-- Words as stored, refused unless they are as many as the length takes and clear past it. -/
def Bitmap.fromWords (words : List (BitVec 64)) (len : Nat) : Option Bitmap :=
  if words.length ≠ wordCount len then none
  else if maskTrailing words len = words then some ⟨words, len⟩
  else none

/-- The words of a bitmap of so many rows. -/
def readWords (rows : Nat) : Cursor (List (BitVec 64)) := do
  let n ← Cursor.guardLen (wordCount rows) 8
  return (← repeatDecode Cursor.u64 n).map (BitVec.ofNat 64)

def writeWords (bm : Bitmap) : List UInt8 := bm.words.flatMap fun w => Sink.u64 w.toNat

namespace Nulls

def computeRuns (bm : Bitmap) : List Nat := toggleRuns bm.bits

/-- Runs alternate, the first of valid rows. -/
def runsPayload (bm : Bitmap) : List UInt8 := Sink.uvarint (computeRuns bm).length ++ (computeRuns bm).flatMap Sink.uvarint

/-- No bitmap, its words or its runs: of the two the smaller, and the words at a tie. -/
def encodeValidity : Option Bitmap → List UInt8
  | none => Sink.u8 0
  | some bm =>
    if (writeWords bm).length ≤ (runsPayload bm).length then Sink.u8 1 ++ writeWords bm else Sink.u8 2 ++ runsPayload bm

def decodeRunsLoop (rows : Nat) : Nat → Bool → Nat → Bitmap → Cursor Bitmap
  | 0, _, pos, bm =>
    if pos = rows then return bm else Cursor.fail (.malformed "validity runs do not sum to rows")
  | n + 1, state, pos, bm => do
    let run ← Cursor.uvarint
    if 2 ^ 64 ≤ pos + run ∨ rows < pos + run then Cursor.fail (.malformed "validity runs exceed row count")
    else decodeRunsLoop rows n (!state) (pos + run) (bm.pushAll (List.replicate run state))

def decodeRuns (rows : Nat) : Cursor Bitmap := do
  let nruns ← Cursor.uvarint
  decodeRunsLoop rows nruns true 0 (Bitmap.newValid 0)

def decodeValidity (rows : Nat) : Cursor (Option Bitmap) := do
  match ← Cursor.u8 with
  | 0 => return none
  | 1 =>
    match Bitmap.fromWords (← readWords rows) rows with
    | some bm => return some bm
    | none => Cursor.fail (.malformed "bad validity bitmap")
  | 2 => some <$> decodeRuns rows
  | _ => Cursor.fail (.malformed "unknown validity tag")

end Nulls

section Words

variable {bm : Bitmap} {words : List (BitVec 64)} {len : Nat}

/-- The masked words have the bits of the rows and no others. -/
theorem get_maskTrailing (count : words.length = wordCount len) (i : Nat) :
    (Bitmap.mk (maskTrailing words len) len).get i = ((Bitmap.mk words len).get i && decide (i < len)) := by
  rw [Bitmap.get_eq, Bitmap.get_eq]
  dsimp only
  unfold wordCount at count
  unfold maskTrailing
  have low : i % 64 < 64 := Nat.mod_lt _ (by decide)
  by_cases even : len % 64 = 0
  · rw [if_pos even]
    by_cases inside : i < len
    · simp [inside]
    · rw [List.getD_eq_default _ _ (by omega)]
      simp
  · rw [if_neg even]
    by_cases last : i / 64 = words.length - 1
    · have within : words.length - 1 < words.length := by omega
      have row : decide (i < len) = decide (i % 64 < len % 64) := by
        apply decide_eq_decide.mpr
        omega
      rw [last, List.getD_eq_getElem?_getD, List.getElem?_modify_eq, List.getElem?_eq_getElem within, row]
      simp only [Option.map_eq_map, Option.map_some, Option.getD_some, BitVec.getLsbD_and,
        Bitmap.getLsbD_mask (Nat.mod_lt len (by decide))]
      rw [List.getD_eq_getElem _ _ within]
    · rw [List.getD_eq_getElem?_getD, List.getElem?_modify_ne _ _ (Ne.symm last), ← List.getD_eq_getElem?_getD]
      by_cases inside : i < len
      · simp [inside]
      · rw [List.getD_eq_default _ _ (by omega)]
        simp

theorem fromWords_eq_some : Bitmap.fromWords words len = some bm ↔ bm.Whole ∧ bm.words = words ∧ bm.len = len := by
  unfold Bitmap.fromWords
  constructor
  · intro made
    split at made
    · cases made
    · rename_i count
      split at made
      · rename_i masked
        cases made
        refine ⟨⟨not_not.mp count, ?_⟩, rfl, rfl⟩
        intro i past
        have bit := get_maskTrailing (not_not.mp count) i
        rw [masked] at bit
        rw [bit]
        simpa using fun _ => past
      · cases made
  · rintro ⟨whole, rfl, rfl⟩
    rw [if_neg (by simpa using whole.words), if_pos]
    have count := whole.words
    -- the same bits everywhere, and as many words
    have length : (maskTrailing bm.words bm.len).length = bm.words.length := by
      unfold maskTrailing
      split
      · rfl
      · rw [List.length_modify]
    have same : (Bitmap.mk (maskTrailing bm.words bm.len) bm.len) = bm := by
      apply Bitmap.Whole.ext
      · refine ⟨length.trans count, fun i past => ?_⟩
        rw [get_maskTrailing count]
        simpa using fun _ => past
      · exact whole
      · unfold Bitmap.bits
        apply List.map_congr_left
        intro i inside
        rw [get_maskTrailing count]
        simp [List.mem_range.mp inside]
    exact congrArg Bitmap.words same

theorem decodes_words (few : bm.len ≤ maxDecodeRows) (whole : bm.Whole) :
    Decodes (readWords bm.len) (writeWords bm) bm.words := by
  have count := whole.words
  have read : Decodes (repeatDecode Cursor.u64 (wordCount bm.len)) (writeWords bm) (bm.words.map BitVec.toNat) := by
    have each : ∀ n ∈ bm.words.map BitVec.toNat, Decodes Cursor.u64 (Sink.u64 n) n := by
      rw [List.forall_mem_map]
      intro w _
      exact decodes_u64 w.isLt
    have all := Decodes.repeat each
    rwa [List.length_map, count, List.flatMap_map] at all
  have back : (bm.words.map BitVec.toNat).map (BitVec.ofNat 64) = bm.words := by
    rw [List.map_map]
    calc bm.words.map _ = bm.words.map id := List.map_congr_left fun w _ => by simp
      _ = bm.words := List.map_id _
  have length : (writeWords bm).length = wordCount bm.len * 8 := by
    rw [← count, writeWords, List.length_flatMap]
    simp [Sink.u64, leBytes_length]
  apply decodes_guardLen (by unfold wordCount maxDecodeRows at *; omega) (by decide) (by omega)
  have mapped := read.map (f := fun ws => ws.map (BitVec.ofNat 64))
  rwa [back] at mapped

theorem yields_words (rows : Nat) : Yields (readWords rows) fun _ => True :=
  (yields_guardLen _ _).bind fun n _ => (yields_repeat (yields_nat 8) n).map fun _ _ => trivial

end Words

namespace Nulls

variable {rows : Nat}

theorem decodes_runsLoop (small : rows < 2 ^ 64) (runs : List Nat) (state : Bool) (l : List Bool)
    (total : l.length + runs.sum = rows) :
    Decodes (decodeRunsLoop rows runs.length state l.length (Bitmap.ofBits l)) (runs.flatMap Sink.uvarint)
      (Bitmap.ofBits (l ++ toggled state runs)) := by
  induction runs generalizing state l with
  | nil =>
    rw [List.sum_nil, Nat.add_zero] at total
    rw [List.length_nil, decodeRunsLoop, if_pos total, toggled, List.append_nil]
    exact Decodes.pure _
  | cons run rest ih =>
    rw [List.sum_cons] at total
    rw [List.length_cons, decodeRunsLoop, List.flatMap_cons]
    apply (decodes_uvarint (by omega : run < 2 ^ 64)).bind
    rw [if_neg (by omega), Bitmap.pushAll_ofBits, toggled, ← List.append_assoc]
    have next := ih (!state) (l ++ List.replicate run state) (by simp; omega)
    rwa [List.length_append, List.length_replicate] at next

theorem decodes_runs {bm : Bitmap} (small : bm.len < 2 ^ 63) (whole : bm.Whole) :
    Decodes (decodeRuns bm.len) (runsPayload bm) bm := by
  have few := length_toggleRuns bm.bits
  rw [Bitmap.length_bits] at few
  have bits := toggled_toggleRuns bm.bits
  have total : (toggleRuns bm.bits).sum = bm.len := by
    rw [← length_toggled true, bits, Bitmap.length_bits]
  have loop := @decodes_runsLoop bm.len (by omega) (toggleRuns bm.bits) true [] (by simpa using total)
  rw [List.nil_append, bits, ← whole.eq_ofBits] at loop
  apply (decodes_uvarint _).bind loop
  unfold computeRuns
  omega

/-- A column's validity reads back, a bitmap without nulls as a bitmap. -/
theorem decodes_validity {v : Option Bitmap} (few : rows ≤ maxDecodeRows) (each : ∀ bm, v = some bm → bm.Whole ∧ bm.len = rows) :
    Decodes (decodeValidity rows) (encodeValidity v) v := by
  have limit : maxDecodeRows < 2 ^ 63 := by decide
  cases v with
  | none =>
    rw [encodeValidity, ← List.append_nil (Sink.u8 0)]
    exact (decodes_u8 (by decide)).bind (Decodes.pure _)
  | some bm =>
    obtain ⟨whole, rfl⟩ := each bm rfl
    unfold encodeValidity
    dsimp only
    split
    · rw [← List.append_nil (writeWords bm)]
      apply (decodes_u8 (by decide)).bind
      apply (decodes_words few whole).bind
      rw [fromWords_eq_some.mpr ⟨whole, rfl, rfl⟩]
      exact Decodes.pure _
    · apply (decodes_u8 (by decide)).bind
      exact (decodes_runs (by omega) whole).map

theorem yields_runsLoop (n : Nat) (state : Bool) (l : List Bool) :
    Yields (decodeRunsLoop rows n state l.length (Bitmap.ofBits l)) fun bm => bm.Whole ∧ bm.len = rows := by
  induction n generalizing state l with
  | zero =>
    rw [decodeRunsLoop]
    split
    · rename_i all
      exact Yields.pure ⟨Bitmap.ofBits_whole l, by rw [Bitmap.len_ofBits, all]⟩
    · exact Yields.fail _
  | succ n ih =>
    rw [decodeRunsLoop]
    apply yields_uvarint.bind
    intro run _
    split
    · exact Yields.fail _
    · have next := ih (!state) (l ++ List.replicate run state)
      rwa [List.length_append, List.length_replicate, ← Bitmap.pushAll_ofBits] at next

theorem yields_validity (rows : Nat) : Yields (decodeValidity rows) fun v => ∀ bm, v = some bm → bm.Whole ∧ bm.len = rows := by
  apply (yields_nat 1).bind
  intro tag _
  split
  · exact Yields.pure (by simp)
  · apply (yields_words rows).bind
    intro words _
    split
    · rename_i bm made
      obtain ⟨whole, _, len⟩ := fromWords_eq_some.mp made
      exact Yields.pure (by rintro _ ⟨⟩; exact ⟨whole, len⟩)
    · exact Yields.fail _
  · apply @Yields.map _ _ _ _ (fun bm : Bitmap => bm.Whole ∧ bm.len = rows)
    · apply yields_uvarint.bind
      intro n _
      exact yields_runsLoop n true []
    · rintro bm kept _ ⟨⟩
      exact kept
  · exact Yields.fail _

end Nulls

end Adelie
