import Adelie.Exec.Physical
import Adelie.Segment.IntLike

namespace Adelie

namespace Dict

def isValid (validity : Option Bitmap) (i : Nat) : Bool := validity.all fun v => v.get i

/-- The entries so far in order of first occurrence, and the codes so far. -/
abbrev Coded := List (List UInt8) × List Nat

/-- A null row has code 0; a slice its entry's place, a new one's the next. -/
def codeRow (validity : Option Bitmap) (offsets : List Nat) (data : List UInt8) (acc : Coded) (i : Nat) : Coded :=
  if isValid validity i then
    let slice := between data (offsets.getD i 0) (offsets.getD (i + 1) 0)
    match acc.1.idxOf? slice with
    | some code => (acc.1, acc.2 ++ [code])
    | none => (acc.1 ++ [slice], acc.2 ++ [acc.1.length])
  else (acc.1, acc.2 ++ [0])

def encode (offsets : List Nat) (data : List UInt8) (validity : Option Bitmap) : List UInt8 :=
  let coded := (List.range (offsets.length - 1)).foldl (codeRow validity offsets data) ([], [])
  Sink.uvarint coded.1.length ++ (coded.1.flatMap Sink.bytes ++ writeFor coded.2)

/-- The bytes of the valid rows' entries, none where a code has no entry. -/
def total (validity : Option Bitmap) (entries : List (List UInt8)) : List (Nat × Nat) → Option Nat
  | [] => some 0
  | (code, i) :: rest =>
    if isValid validity i then do
      let entry ← entries[code]?
      let others ← total validity entries rest
      return entry.length + others
    else total validity entries rest

/-- One more row: its entry's bytes, or nothing for a null. -/
def appendRow (validity : Option Bitmap) (entries : List (List UInt8)) (codes : List Nat) (out : List Nat × List UInt8) (i : Nat) :
    Except DecodeError (List Nat × List UInt8) :=
  let data := if isValid validity i then out.2 ++ entries.getD (codes.getD i 0) [] else out.2
  if data.length < 2 ^ 32 then .ok (out.1 ++ [data.length], data) else .error (.malformed "dict: too much data")

def decode (rows : Nat) (validity : Option Bitmap) : Cursor (List Nat × List UInt8) := do
  let ndict ← Cursor.uvarint
  if rows < ndict then Cursor.fail (.malformed "dict: ndict exceeds rows")
  else
    let ndict ← Cursor.guardLen ndict 1
    let validCount := validity.elim rows Bitmap.countValid
    if validCount = 0 ∧ 0 < ndict then Cursor.fail (.malformed "dict: entries with no valid rows")
    else
      let entries ← repeatDecode Cursor.bytes ndict
      let codes ← readFor rows
      match total validity entries codes.zipIdx with
      | none => Cursor.fail (.malformed "dict: code out of range")
      | some bytes =>
        -- sized before anything is laid out: a few bytes can stand for many
        if maxDecodeBytes < bytes then Cursor.fail (.malformed "dict: decoded data exceeds MAX_DECODE_BYTES")
        else
          match (List.range rows).foldlM (appendRow validity entries codes) ([0], []) with
          | .ok out => return out
          | .error e => Cursor.fail e

section Coding

variable {validity : Option Bitmap} {offsets : List Nat} {data : List UInt8} {acc : Coded} {k : Nat}

/-- A row's bytes as they lie in the data. -/
def sliceAt (offsets : List Nat) (data : List UInt8) (i : Nat) : List UInt8 :=
  between data (offsets.getD i 0) (offsets.getD (i + 1) 0)

/-- What a row decodes to: its bytes where it is valid. -/
def kept (validity : Option Bitmap) (offsets : List Nat) (data : List UInt8) (i : Nat) : List UInt8 :=
  if isValid validity i then sliceAt offsets data i else []

/-- After `k` rows each valid one's code names its bytes. -/
structure Codes (validity : Option Bitmap) (offsets : List Nat) (data : List UInt8) (k : Nat) (acc : Coded) : Prop where
  count : acc.2.length = k
  few : acc.1.length ≤ k
  small : ∀ code ∈ acc.2, code ≤ k
  named : ∀ i < k, isValid validity i = true → acc.1[acc.2.getD i 0]? = some (sliceAt offsets data i)
  used : acc.1 = [] ∨ ∃ i < k, isValid validity i = true
  slices : ∀ e ∈ acc.1, e.length ≤ data.length

theorem Codes.row (codes : Codes validity offsets data k acc) :
    Codes validity offsets data (k + 1) (codeRow validity offsets data acc k) := by
  obtain ⟨entries, cs⟩ := acc
  obtain ⟨count, few, small, named, used, slices⟩ := codes
  dsimp only at count few small named used slices
  have old : ∀ (code i : Nat), i < k → (cs ++ [code]).getD i 0 = cs.getD i 0 := by
    intro code i below
    exact List.getD_append _ _ _ _ (by omega)
  have new : ∀ code : Nat, (cs ++ [code]).getD k 0 = code := by
    intro code
    rw [← count, List.getD_append_right _ _ _ _ (Nat.le_refl _), Nat.sub_self]
    rfl
  unfold codeRow
  cases valid : isValid validity k with
  | false =>
    rw [if_neg Bool.false_ne_true]
    refine ⟨by simp [count], Nat.le_succ_of_le few, ?_, ?_, ?_, slices⟩
    · intro code member
      rcases List.mem_append.mp member with member | member
      · exact Nat.le_succ_of_le (small code member)
      · rw [List.mem_singleton.mp member]
        exact Nat.zero_le _
    · intro i below row
      have before : i < k := by
        apply Nat.lt_of_le_of_ne (Nat.le_of_lt_succ below)
        rintro rfl
        rw [valid] at row
        cases row
      dsimp only
      rw [old _ i before]
      exact named i before row
    · rcases used with none_ | ⟨i, below, row⟩
      · exact .inl none_
      · exact .inr ⟨i, Nat.lt_succ_of_lt below, row⟩
  | true =>
    rw [if_pos rfl]
    have first : ∃ i < k + 1, isValid validity i = true := ⟨k, Nat.lt_succ_self k, valid⟩
    cases place : entries.idxOf? (between data (offsets.getD k 0) (offsets.getD (k + 1) 0)) with
    | some code =>
      obtain ⟨inside, found, _⟩ := List.idxOf?_eq_some_iff.mp place
      dsimp only
      rw [place]
      refine ⟨by simp [count], Nat.le_succ_of_le few, ?_, ?_, .inr first, slices⟩
      · intro c member
        rcases List.mem_append.mp member with member | member
        · exact Nat.le_succ_of_le (small c member)
        · rw [List.mem_singleton.mp member]
          omega
      · intro i below row
        dsimp only
        rcases Nat.lt_or_eq_of_le (Nat.le_of_lt_succ below) with before | rfl
        · rw [old _ i before]
          exact named i before row
        · rw [new, List.getElem?_eq_getElem inside, found]
          rfl
    | none =>
      dsimp only
      rw [place]
      refine ⟨by simp [count], by simp; exact few, ?_, ?_, .inr first, ?_⟩
      · intro c member
        rcases List.mem_append.mp member with member | member
        · exact Nat.le_succ_of_le (small c member)
        · rw [List.mem_singleton.mp member]
          omega
      · intro i below row
        dsimp only
        rcases Nat.lt_or_eq_of_le (Nat.le_of_lt_succ below) with before | rfl
        · have there := named i before row
          rw [old _ i before, List.getElem?_append_left (List.getElem?_eq_some_iff.mp there).1]
          exact there
        · rw [new, List.getElem?_concat_length]
          rfl
      · intro e member
        rcases List.mem_append.mp member with member | member
        · exact slices e member
        · rw [List.mem_singleton.mp member, between, List.length_take, List.length_drop]
          omega

theorem codes_range (validity : Option Bitmap) (offsets : List Nat) (data : List UInt8) (k : Nat) :
    Codes validity offsets data k ((List.range k).foldl (codeRow validity offsets data) ([], [])) := by
  induction k with
  | zero => exact ⟨rfl, Nat.le_refl _, by simp, by simp, .inl rfl, by simp⟩
  | succ k ih =>
    rw [List.range_succ, List.foldl_concat]
    exact ih.row

/-- The bytes the codes stand for are those of the valid rows. -/
theorem total_eq {entries : List (List UInt8)} (cs : List Nat)
    (named : ∀ j < cs.length, isValid validity (k + j) = true → entries[cs.getD j 0]? = some (sliceAt offsets data (k + j))) :
    total validity entries (cs.zipIdx k) =
      some ((List.range' k cs.length).map fun i => (kept validity offsets data i).length).sum := by
  induction cs generalizing k with
  | nil => rfl
  | cons c rest ih =>
    have others := @ih (k + 1) fun j below row => by
      have next := named (j + 1) (Nat.succ_lt_succ below) (by rwa [Nat.add_comm j, ← Nat.add_assoc])
      rwa [Nat.add_comm j, ← Nat.add_assoc, Nat.add_comm 1 j, List.getD_cons_succ] at next
    rw [List.zipIdx_cons, total, others, List.length_cons, List.range'_succ, List.map_cons, List.sum_cons, kept]
    cases valid : isValid validity k with
    | false => simp
    | true =>
      have own := named 0 (Nat.succ_pos _) valid
      rw [List.getD_cons_zero, Nat.add_zero] at own
      rw [if_pos rfl, if_pos rfl, own]
      rfl

/-- The rows laid out one after another, each as far as it is kept. -/
theorem foldlM_appendRow {entries : List (List UInt8)} {codes : List Nat} {n : Nat}
    (named : ∀ i < n, isValid validity i = true → entries[codes.getD i 0]? = some (sliceAt offsets data i))
    (small : ((List.range n).map fun i => (kept validity offsets data i).length).sum < 2 ^ 32) :
    (List.range n).foldlM (appendRow validity entries codes) ([0], []) =
      .ok (sums ((List.range n).map fun i => (kept validity offsets data i).length), ((List.range n).map (kept validity offsets data)).flatten) := by
  induction n with
  | zero => rfl
  | succ n ih =>
    rw [List.range_succ, List.map_append, List.sum_append, List.map_singleton, List.sum_singleton] at small
    rw [List.range_succ, List.foldlM_append, ih (fun i below => named i (Nat.lt_succ_of_lt below)) (by omega)]
    have row : (if isValid validity n then ((List.range n).map (kept validity offsets data)).flatten ++ entries.getD (codes.getD n 0) []
        else ((List.range n).map (kept validity offsets data)).flatten) =
        ((List.range n).map (kept validity offsets data)).flatten ++ kept validity offsets data n := by
      unfold kept
      cases valid : isValid validity n with
      | false => simp
      | true =>
        rw [if_pos rfl, if_pos rfl, List.getD_eq_getElem?_getD, named n (Nat.lt_succ_self n) valid]
        rfl
    have length : (((List.range n).map (kept validity offsets data)).flatten ++ kept validity offsets data n).length =
        ((List.range n).map fun i => (kept validity offsets data i).length).sum + (kept validity offsets data n).length := by
      rw [List.length_append, List.length_flatten, List.map_map]
      rfl
    change (List.foldlM (appendRow validity entries codes) _ [n]) = _
    rw [List.foldlM_cons, appendRow]
    dsimp only
    rw [row, length, if_pos small, List.map_append, List.map_append, List.map_singleton, List.map_singleton, sums_push,
      List.flatten_append]
    simp

end Coding

section RoundTrip

variable {validity : Option Bitmap} {lengths : List Nat} {data : List UInt8}

theorem length_sliceAt (whole : data.length = lengths.sum) {i : Nat} (inside : i < lengths.length) :
    (sliceAt (sums lengths) data i).length = lengths.getD i 0 := by
  have total := sum_take_le lengths (i + 1)
  rw [sliceAt, getD_sums (by omega), getD_sums (by omega), length_between (by omega), List.sum_take_succ _ _ inside,
    List.getD_eq_getElem _ _ inside]
  omega

/-- Nulls only take bytes away. -/
theorem sum_kept_le (whole : data.length = lengths.sum) :
    ((List.range lengths.length).map fun i => (kept validity (sums lengths) data i).length).sum ≤ data.length := by
  have own : (List.range lengths.length).map (lengths.getD · 0) = lengths := by
    apply List.ext_getElem
    · simp
    · intro i left right
      simp [right]
  rw [whole]
  nth_rewrite 3 [← own]
  apply List.sum_le_sum
  intro i inside
  have below := List.mem_range.mp inside
  unfold kept
  split
  · exact (length_sliceAt whole below).le
  · exact Nat.zero_le _

theorem no_valid {rows : Nat} (bits : ∀ bm, validity = some bm → bm.Whole ∧ bm.len = rows)
    (none_ : validity.elim rows Bitmap.countValid = 0) : ∀ i < rows, isValid validity i = false := by
  intro i inside
  cases validity with
  | none =>
    simp only [Option.elim_none] at none_
    omega
  | some bm =>
    obtain ⟨whole, len⟩ := bits bm rfl
    simp only [Option.elim_some] at none_
    rw [Bitmap.countValid_eq whole, List.count_eq_zero] at none_
    have within : i < bm.bits.length := by simpa [len] using inside
    have row : bm.bits[i] = bm.get i := Bitmap.getElem_bits _
    unfold isValid
    by_contra set
    apply none_
    rw [Bool.not_eq_false] at set
    rw [Option.all_some] at set
    rw [← set, ← row]
    exact List.getElem_mem _

/-- The bytes that decoding lays out: those of the valid rows. -/
def keptBytes (validity : Option Bitmap) (offsets : List Nat) (data : List UInt8) : Nat :=
  ((List.range (offsets.length - 1)).map fun i => (kept validity offsets data i).length).sum

def keptRows (validity : Option Bitmap) (offsets : List Nat) (data : List UInt8) : List (List UInt8) :=
  (List.range (offsets.length - 1)).map (kept validity offsets data)

/-- A dictionary reads back as its rows, a null row's slot emptied, unless they pass the cap. -/
theorem decode_encode (whole : data.length = lengths.sum) (small : lengths.sum < 2 ^ 32) (few : lengths.length ≤ maxDecodeRows)
    (bits : ∀ bm, validity = some bm → bm.Whole ∧ bm.len = lengths.length) (rest : List UInt8) :
    decode lengths.length validity (encode (sums lengths) data validity ++ rest) =
      if maxDecodeBytes < keptBytes validity (sums lengths) data then
        .error (.malformed "dict: decoded data exceeds MAX_DECODE_BYTES")
      else .ok ((sums ((keptRows validity (sums lengths) data).map List.length), (keptRows validity (sums lengths) data).flatten), rest) := by
  have limit : maxDecodeRows < 2 ^ 63 := by decide
  have bytes := @sum_kept_le validity lengths data whole
  have codes := codes_range validity (sums lengths) data lengths.length
  obtain ⟨coded, made⟩ : ∃ coded, (List.range lengths.length).foldl (codeRow validity (sums lengths) data) ([], []) = coded := ⟨_, rfl⟩
  rw [made] at codes
  obtain ⟨entries, cs⟩ := coded
  have count : cs.length = lengths.length := codes.count
  have ndict : entries.length ≤ lengths.length := codes.few
  have written : encode (sums lengths) data validity =
      Sink.uvarint entries.length ++ (entries.flatMap Sink.bytes ++ writeFor cs) := by
    rw [encode, length_sums, Nat.add_sub_cancel, made]
  have entries_read : Decodes (repeatDecode Cursor.bytes entries.length) (entries.flatMap Sink.bytes) entries := by
    apply Decodes.repeat
    intro e member
    have := codes.slices e member
    exact decodes_bytes (by omega)
  have codes_read : Decodes (readFor lengths.length) (writeFor cs) cs := by
    rw [← count]
    apply decodes_for
    · intro code member
      have := codes.small code member
      omega
    · omega
  have sum : total validity entries cs.zipIdx = some (keptBytes validity (sums lengths) data) := by
    have all := @total_eq validity (sums lengths) data 0 entries cs (by
      intro j below row
      rw [Nat.zero_add] at row ⊢
      exact codes.named j (by omega) row)
    rwa [count, ← List.range_eq_range', ← Nat.add_sub_cancel (n := lengths.length) (m := 1), ← length_sums] at all
  have laid := foldlM_appendRow (fun i below row => codes.named i below row) (by omega :
    ((List.range lengths.length).map fun i => (kept validity (sums lengths) data i).length).sum < 2 ^ 32)
  have room : entries.length * 1 ≤ (entries.flatMap Sink.bytes ++ (writeFor cs ++ rest)).length := by
    have each : ∀ n ∈ entries.map fun e => (Sink.bytes e).length, 1 ≤ n := by
      rw [List.forall_mem_map]
      intro e _
      have := uvarint_pos e.length
      rw [Sink.bytes, List.length_append]
      omega
    have most := List.length_le_sum_of_one_le _ each
    rw [List.length_map] at most
    rw [List.length_append, List.length_flatMap]
    omega
  have rows : ¬ (validity.elim lengths.length Bitmap.countValid = 0 ∧ 0 < entries.length) := by
    rintro ⟨none_, some_⟩
    rcases codes.used with empty | ⟨i, below, row⟩
    · dsimp only at empty
      rw [empty] at some_
      cases some_
    · rw [no_valid bits none_ i below] at row
      cases row
  have lens : (List.range lengths.length).map (fun i => (kept validity (sums lengths) data i).length) =
      (keptRows validity (sums lengths) data).map List.length := by
    rw [keptRows, length_sums, Nat.add_sub_cancel, List.map_map]
    rfl
  have flat : (List.range lengths.length).map (kept validity (sums lengths) data) = keptRows validity (sums lengths) data := by
    rw [keptRows, length_sums, Nat.add_sub_cancel]
  rw [written, decode, List.append_assoc, (decodes_uvarint (by omega)).bind_eq, if_neg (by omega), List.append_assoc,
    guardLen_bind_eq (by omega) (by decide) room, if_neg rows, entries_read.bind_eq, codes_read.bind_eq, sum]
  dsimp only
  split
  · rfl
  · rw [laid, lens, flat]
    rfl

/-- Offsets of rows, as many as there are, that end where the data does. -/
def Rows (rows : Nat) (out : List Nat × List UInt8) : Prop :=
  ∃ lengths : List Nat, out.1 = sums lengths ∧ lengths.length = rows ∧ out.2.length = lengths.sum ∧ lengths.sum < 2 ^ 32

theorem Rows.appendRow {entries : List (List UInt8)} {codes : List Nat} {out out' : List Nat × List UInt8} {rows i : Nat}
    (laid : Rows rows out) (made : Dict.appendRow validity entries codes out i = .ok out') : Rows (rows + 1) out' := by
  obtain ⟨lengths, offsets, count, whole, _⟩ := laid
  obtain ⟨row, data⟩ : ∃ row, (if isValid validity i then out.2 ++ entries.getD (codes.getD i 0) [] else out.2) = out.2 ++ row := by
    split
    · exact ⟨_, rfl⟩
    · exact ⟨[], (List.append_nil _).symm⟩
  unfold Dict.appendRow at made
  dsimp only at made
  rw [data] at made
  split at made
  · rename_i small
    cases made
    refine ⟨lengths ++ [row.length], ?_, by simp [count], ?_, ?_⟩
    · rw [sums_push, offsets, List.length_append, whole]
    · rw [List.length_append, List.sum_append, whole]
      simp
    · rw [List.length_append] at small
      rw [List.sum_append, ← whole]
      simpa using small
  · cases made

theorem Rows.foldlM {entries : List (List UInt8)} {codes : List Nat} (l : List Nat) {out out' : List Nat × List UInt8} {rows : Nat}
    (laid : Rows rows out) (made : l.foldlM (Dict.appendRow validity entries codes) out = .ok out') : Rows (rows + l.length) out' := by
  induction l generalizing out rows with
  | nil =>
    cases made
    exact laid
  | cons i rest ih =>
    rw [List.foldlM_cons] at made
    obtain ⟨mid, first, made⟩ := Except.bind_eq_ok.mp made
    have all := ih (laid.appendRow first) made
    rwa [Nat.add_right_comm] at all

theorem yields_dict (rows : Nat) (validity : Option Bitmap) : Yields (decode rows validity) (Rows rows) := by
  apply yields_uvarint.bind
  intro n _
  split
  · exact Yields.fail _
  · apply (yields_guardLen n 1).bind
    rintro n ⟨rfl, _⟩
    dsimp only
    split
    · exact Yields.fail _
    · apply (yields_repeat yields_bytes n).bind
      intro entries _
      apply (yields_for rows).bind
      intro codes _
      split
      · exact Yields.fail _
      · split
        · exact Yields.fail _
        · split
          · rename_i out made
            apply Yields.pure
            have empty : Rows 0 ([0], []) := ⟨[], rfl, rfl, rfl, by decide⟩
            have laid := empty.foldlM (List.range rows) made
            rwa [List.length_range, Nat.zero_add] at laid
          · exact Yields.fail _

end RoundTrip

end Dict

end Adelie
