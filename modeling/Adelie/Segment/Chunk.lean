import Adelie.Exec.Sampled
import Adelie.Segment.Encoded

namespace Adelie

namespace Physical

/-- How the values of sound data are written, and what a reader makes of them: the values of the valid rows, unless its limits
    leave the chunk unreadable. -/
class LawfulChunks (δ : Type) extends Chunked δ, LawfulParts δ where
  Readable : Nulled δ → Encoding → Prop
  joins : Joins δ
  whole : SlicesWhole δ
  encode_ok : ∀ {c : Nulled δ} {enc : Encoding}, c.Sound → enc.appliesTo c.ty = true → ∃ bytes, encodeValues c enc = some bytes
  outcome : ∀ {c : Nulled δ} {enc : Encoding} {bytes : List UInt8}, c.Sound → enc.appliesTo c.ty = true → c.len ≤ maxDecodeRows →
    bytes.length < 2 ^ 63 → encodeValues c enc = some bytes →
    (Readable c enc ∧ ∃ d', decodeValues c.ty c.len enc c.validity bytes = .ok (d', []) ∧ Sound c.ty d' ∧ Layout.rows d' = c.len ∧
        ∀ i < c.len, c.isNull i = false → Layout.value c.ty d' i = Layout.value c.ty c.data i) ∨
      (¬ Readable c enc ∧ ∃ e, decodeValues c.ty c.len enc c.validity bytes = .error e)
  filled : ∀ {ty : DataType} {rows : Nat} {enc : Encoding} {validity : Option Bitmap} {b rest : List UInt8} {d : δ},
    decodeValues ty rows enc validity b = .ok (d, rest) → Stored d ∧ Layout.rows d = rows

theorem fromId_id (enc : Encoding) : Encoding.fromId enc.id = some enc := by
  cases enc <;> rfl

/-- A column read back: the same type, rows, nulls and values, and `get` can rely on it. -/
structure Rereads {δ : Type} [LawfulLayout δ] (c c' : Nulled δ) : Prop where
  sound : c'.Sound
  ty : c'.ty = c.ty
  len : c'.len = c.len
  validity : c'.validity = c.validity
  nulls : c'.nullCount = c.nullCount
  cells : c'.cells = c.cells

section Lift

variable {α : Type} {d : Cursor α} {bytes rest : List UInt8} {v : α}

theorem lift_ok (read : d bytes = .ok (v, rest)) : ChunkCursor.lift d bytes = .ok (v, rest) := by
  rw [ChunkCursor.lift, read]
  rfl

theorem lift_error {e : DecodeError} (read : d bytes = .error e) : ChunkCursor.lift d bytes = .error (.decode e) := by
  rw [ChunkCursor.lift, read]
  rfl

theorem of_lift_ok (read : ChunkCursor.lift d bytes = .ok (v, rest)) : d bytes = .ok (v, rest) := mapError_eq_ok read

theorem Decodes.lift (reads : Decodes d bytes v) : Decodes (ChunkCursor.lift d) bytes v := fun rest => lift_ok (reads rest)

end Lift

namespace Nulled

section Sampling

variable {δ : Type} [LawfulChunks δ] {c : Nulled δ}

theorem apart_windows {rows : Nat} (long : sampleRows < rows) : Apart 0 (windows rows) rows ∧ windows rows ≠ [] := by
  have long : 4096 < rows := long
  have all : windows rows = [(0, 1024), (rows / 4, 1024), (rows / 2, 1024), (3 * rows / 4, min 1024 (rows - 3 * rows / 4))] := by
    have last : 0 < min 1024 (rows - 3 * rows / 4) := by omega
    have third : min 1024 (rows - rows / 2) = 1024 := by omega
    have second : min 1024 (rows - rows / 4) = 1024 := by omega
    have first : min 1024 (rows - 0) = 1024 := by omega
    simp only [windows, List.filterMap_cons, List.filterMap_nil, first, second, third]
    rw [if_pos (by decide), if_pos (by decide), if_pos (by decide), if_pos last]
  rw [all]
  refine ⟨⟨Nat.le_refl _, ?_, ?_, ?_, ?_⟩, by simp⟩
  · omega
  · omega
  · omega
  · change 3 * rows / 4 + min 1024 (rows - 3 * rows / 4) ≤ rows
    omega

/-- A sample is always there, and it is a column of the type. -/
theorem buildSample_ok (sound : c.Sound) : ∃ sample, c.buildSample = some sample ∧ sample.Sound ∧ sample.ty = c.ty := by
  unfold buildSample
  split
  · obtain ⟨sample, made, own, typed, _⟩ := @slice_ok _ _ c 0 c.len sound (by omega)
    exact ⟨sample, made, own, typed⟩
  · rename_i long
    obtain ⟨apart, some_⟩ := apart_windows (Nat.not_le.mp long)
    obtain ⟨parts, sample, cut, joined, own, typed⟩ := joins LawfulChunks.joins sound apart some_
    refine ⟨sample, ?_, own, typed⟩
    rw [cut]
    change (concat c.ty parts).toOption = _
    rw [joined]
    rfl

theorem encodeWith_ok {enc : Encoding} (sound : c.Sound) (applies : enc.appliesTo c.ty = true) : ∃ bytes, c.encodeWith enc = some bytes := by
  obtain ⟨bytes, made⟩ := LawfulChunks.encode_ok sound applies
  exact ⟨_, by rw [encodeWith, made]; rfl⟩

theorem mem_candidates {ty : DataType} {enc : Encoding} : enc ∈ candidates ty ↔ enc.appliesTo ty = true := by
  rw [candidates, List.mem_filter, List.mem_filterMap]
  constructor
  · exact fun member => member.2
  · intro applies
    refine ⟨⟨enc.id, ?_, fromId_id enc⟩, applies⟩
    cases enc <;> decide

/-- The bytes a sample takes in an encoding. -/
def sampleSize (sample : Nulled δ) (enc : Encoding) : Nat := ((sample.encodeWith enc).map List.length).getD 0

/-- The first of the least among those considered. -/
def Least (sample : Nulled δ) (seen : List Encoding) (best : Option (Encoding × Nat)) : Prop :=
  match best with
  | none => seen = []
  | some (enc, size) => size = sample.sampleSize enc ∧ ∃ before after, seen = before ++ enc :: after ∧
      (∀ e ∈ before, size < sample.sampleSize e) ∧ ∀ e ∈ after, size ≤ sample.sampleSize e

theorem Least.consider {sample : Nulled δ} {seen : List Encoding} {best : Option (Encoding × Nat)} {enc : Encoding} {bytes : List UInt8}
    (least : Least sample seen best) (made : sample.encodeWith enc = some bytes) :
    ∃ best', consider sample best enc = some best' ∧ Least sample (seen ++ [enc]) best' := by
  have size : sample.sampleSize enc = bytes.length := by rw [sampleSize, made]; rfl
  have step : Nulled.consider sample best enc =
      some (if best.all fun b => decide (bytes.length < b.2) then some (enc, bytes.length) else best) := by
    rw [Nulled.consider, made]
    rfl
  refine ⟨_, step, ?_⟩
  cases best with
  | none =>
    have none_ : seen = [] := least
    subst none_
    exact ⟨size.symm, [], [], rfl, by simp, by simp⟩
  | some b =>
    obtain ⟨old, n⟩ := b
    obtain ⟨own, before, after, rfl, first, later⟩ := least
    by_cases smaller : bytes.length < n
    · rw [if_pos (by simpa using smaller)]
      refine ⟨size.symm, before ++ old :: after, [], rfl, ?_, by simp⟩
      intro e member
      rcases List.mem_append.mp member with member | member
      · have := first e member
        omega
      · rcases List.mem_cons.mp member with rfl | member
        · omega
        · have := later e member
          omega
    · rw [if_neg (by simpa using smaller)]
      refine ⟨own, before, after ++ [enc], by simp, first, ?_⟩
      intro e member
      rcases List.mem_append.mp member with member | member
      · exact later e member
      · rw [List.mem_singleton.mp member]
        omega

theorem Least.foldlM {sample : Nulled δ} (encs : List Encoding) {seen : List Encoding} {best : Option (Encoding × Nat)}
    (least : Least sample seen best) (made : ∀ e ∈ encs, ∃ bytes, sample.encodeWith e = some bytes) :
    ∃ best', encs.foldlM (Nulled.consider sample) best = some best' ∧ Least sample (seen ++ encs) best' := by
  induction encs generalizing seen best with
  | nil => exact ⟨best, rfl, by rwa [List.append_nil]⟩
  | cons e rest ih =>
    rw [List.forall_mem_cons] at made
    obtain ⟨bytes, own⟩ := made.1
    obtain ⟨next, step, least⟩ := least.consider own
    obtain ⟨last, all, least⟩ := ih least made.2
    refine ⟨last, ?_, by rwa [List.append_assoc] at least⟩
    rw [List.foldlM_cons, step]
    exact all

/-- The encoding chosen applies, and on the sample takes the fewest bytes, fewer than any of a lower id. -/
structure Chosen (c : Nulled δ) (enc : Encoding) : Prop where
  applies : enc.appliesTo c.ty = true
  least : ∃ sample, c.buildSample = some sample ∧ ∀ e, e.appliesTo c.ty = true →
    sample.sampleSize enc ≤ sample.sampleSize e ∧ (e.id < enc.id → sample.sampleSize enc < sample.sampleSize e)

theorem candidates_sorted (ty : DataType) : (candidates ty).Pairwise fun a b => a.id < b.id := by
  apply List.Pairwise.filter
  decide

theorem choose_ok (sound : c.Sound) : ∃ enc, c.choose = some enc ∧ c.Chosen enc := by
  obtain ⟨sample, built, own, typed⟩ := buildSample_ok sound
  have each : ∀ e ∈ candidates c.ty, ∃ bytes, sample.encodeWith e = some bytes := by
    intro e member
    apply encodeWith_ok own
    rw [typed]
    exact mem_candidates.mp member
  obtain ⟨best, folded, least⟩ := @Least.foldlM _ _ sample (candidates c.ty) [] none rfl each
  have made : c.choose = some ((best.map Prod.fst).getD .plain) := by
    rw [choose, built]
    change ((candidates c.ty).foldlM (consider sample) none >>= _) = _
    rw [folded]
    rfl
  have plain : Encoding.plain ∈ candidates c.ty := mem_candidates.mpr rfl
  rw [List.nil_append] at least
  cases best with
  | none =>
    have none_ : candidates c.ty = [] := least
    rw [none_] at plain
    cases plain
  | some b =>
    obtain ⟨enc, size⟩ := b
    obtain ⟨rfl, before, after, split, first, later⟩ := least
    have member : enc ∈ candidates c.ty := by simp [split]
    refine ⟨enc, made, mem_candidates.mp member, sample, built, ?_⟩
    intro e applies
    have inside := mem_candidates.mpr applies
    have sorted := candidates_sorted c.ty
    rw [split] at inside sorted
    rcases List.mem_append.mp inside with inside | inside
    · have less := first e inside
      exact ⟨less.le, fun _ => less⟩
    · rcases List.mem_cons.mp inside with rfl | inside
      · exact ⟨Nat.le_refl _, fun below => absurd below (Nat.lt_irrefl _)⟩
      · have above := (List.pairwise_cons.mp (List.pairwise_append.mp sorted).2.1).1 e inside
        exact ⟨later e inside, fun below => absurd below (Nat.lt_asymm above)⟩

/-- The sample of a short column is the column. -/
theorem buildSample_short (sound : c.Sound) (short : c.len ≤ sampleRows) : c.buildSample = some c := by
  rw [buildSample, if_pos short]
  exact slice_whole LawfulChunks.whole sound

/-- Unless a pin does not apply, a column is encoded. -/
theorem encodeColumn_ok {pin : Option Encoding} (sound : c.Sound) (pinned : ∀ e, pin = some e → e.appliesTo c.ty = true) :
    ∃ enc bytes, c.encodeColumn pin = some (enc, bytes) ∧ enc.appliesTo c.ty = true ∧ c.encodeWith enc = some bytes ∧
      (∀ e, pin = some e → enc = e) ∧ (pin = none → c.Chosen enc) := by
  cases pin with
  | some e =>
    have applies := pinned e rfl
    obtain ⟨bytes, made⟩ := encodeWith_ok sound applies
    refine ⟨e, bytes, ?_, applies, made, by rintro _ ⟨⟩; rfl, nofun⟩
    rw [encodeColumn]
    dsimp only
    rw [if_pos applies]
    change (c.encodeWith e >>= _) = _
    rw [made]
    rfl
  | none =>
    obtain ⟨enc, chosen, least⟩ := choose_ok sound
    obtain ⟨bytes, made⟩ := encodeWith_ok sound least.applies
    refine ⟨enc, bytes, ?_, least.applies, made, nofun, fun _ => least⟩
    rw [encodeColumn]
    dsimp only
    rw [chosen]
    change (c.encodeWith enc >>= _) = _
    rw [made]
    rfl

end Sampling

section Chunks

variable {δ : Type} [LawfulChunks δ] {c : Nulled δ} {enc : Encoding} {ty : DataType} {rows id : Nat} {bytes : List UInt8}

/-- The encoding of an id, where it is one of the type's. -/
theorem applied_id (applies : enc.appliesTo ty = true) : (Encoding.fromId enc.id).filter (·.appliesTo ty) = some enc := by
  rw [fromId_id, Option.filter_some, if_pos applies]

theorem decodeParts_eq (sound : c.Sound) (few : c.len ≤ maxDecodeRows) (more : List UInt8) :
    decodeParts c.ty c.len enc (Nulls.encodeValidity c.validity ++ more) =
      (Chunked.decodeValues (δ := δ) c.ty c.len enc c.validity more).map fun out => ((c.validity, out.1), out.2) := by
  have validity := (Decodes.lift (Nulls.decodes_validity few sound.whole)) more
  rw [decodeParts, bind_apply, validity]
  change (Chunked.decodeValues (δ := δ) c.ty c.len enc c.validity >>= fun values => (pure (c.validity, values) : ChunkCursor _)) more = _
  rw [bind_apply]
  cases Chunked.decodeValues (δ := δ) c.ty c.len enc c.validity more <;> rfl

theorem cells_congr {c' : Nulled δ} (ty : c'.ty = c.ty) (len : c'.len = c.len) (validity : c'.validity = c.validity)
    (same : ∀ i < c.len, c.isNull i = false → Layout.value c.ty c'.data i = Layout.value c.ty c.data i) : c'.cells = c.cells := by
  unfold cells
  rw [len]
  apply List.map_congr_left
  intro i member
  have inside : i < c.len := List.mem_range.mp member
  have null : c'.isNull i = c.isNull i := by rw [isNull, validity, isNull]
  rw [get, get, len, if_neg (Nat.not_le.mpr inside), if_neg (Nat.not_le.mpr inside), null, ty]
  cases found : c.isNull i with
  | true => rfl
  | false => exact same i inside found

/-- A chunk reads back as the column it was made of, unless the reader's limits refuse it. -/
theorem decode_outcome (sound : c.Sound) (applies : enc.appliesTo c.ty = true) (few : c.len ≤ maxDecodeRows)
    (room : bytes.length < 2 ^ 63) (made : c.encodeWith enc = some bytes) :
    (LawfulChunks.Readable c enc ∧ ∃ c', decodeColumn c.ty c.len enc.id bytes = .ok c' ∧ Rereads c c') ∨
      (¬ LawfulChunks.Readable c enc ∧ ∃ e, (decodeColumn c.ty c.len enc.id bytes : Except ChunkError (Nulled δ)) = .error e) := by
  obtain ⟨more, encoded, rfl⟩ := Option.map_eq_some_iff.mp made
  have opened : (decodeColumn c.ty c.len enc.id (Nulls.encodeValidity c.validity ++ more) : Except ChunkError (Nulled δ)) =
      (decodeParts c.ty c.len enc (Nulls.encodeValidity c.validity ++ more)).bind fun out =>
        if out.2 ≠ [] then .error (.decode (.malformed "trailing bytes after chunk values"))
        else (fromParts c.ty out.1.2 out.1.1).mapError fun _ => .decode (.malformed "column parts") := by
    rw [decodeColumn, if_neg (Nat.not_lt.mpr few), applied_id applies]
    rfl
  rw [opened, decodeParts_eq sound few]
  have room : more.length < 2 ^ 63 := by
    rw [List.length_append] at room
    omega
  rcases LawfulChunks.outcome sound applies few room encoded with ⟨able, d', read, own, rows, same⟩ | ⟨unable, e, refused⟩
  · refine .inl ⟨able, ?_⟩
    have len : (Nulled.mk c.ty d' c.validity c.nullCount).len = c.len := rows
    have sound' : (Nulled.mk c.ty d' c.validity c.nullCount).Sound := by
      refine ⟨own, ?_, ?_⟩
      · intro bits found
        rw [len]
        exact sound.whole bits found
      · rw [len]
        exact sound.nulls
    refine ⟨_, ?_, sound', rfl, len, rfl, rfl, cells_congr rfl len rfl same⟩
    rw [read]
    change (fromParts c.ty d' c.validity).mapError _ = _
    rw [fromParts_ok sound']
    rfl
  · refine .inr ⟨unable, e, ?_⟩
    rw [refused]
    rfl

/-- Whatever bytes are taken for a chunk, they are all of it, its encoding is one of the type's, and every row can be read. -/
theorem decodeColumn_sound (read : decodeColumn ty rows id bytes = .ok c) :
    c.Sound ∧ c.ty = ty ∧ c.len = rows ∧ rows ≤ maxDecodeRows ∧ ∃ enc, Encoding.fromId id = some enc ∧ enc.appliesTo ty = true := by
  unfold decodeColumn at read
  split at read
  · cases read
  · rename_i few
    split at read
    · cases read
    · rename_i enc found
      obtain ⟨named, applies⟩ := Option.filter_eq_some_iff.mp found
      obtain ⟨⟨⟨validity, values⟩, rest⟩, parts, read⟩ := Except.bind_eq_ok.mp read
      dsimp only at read
      split at read
      · cases read
      · have built := mapError_eq_ok read
        unfold decodeParts at parts
        rw [bind_apply] at parts
        obtain ⟨⟨v, more⟩, first, parts⟩ := Except.bind_eq_ok.mp parts
        dsimp only at parts
        rw [bind_apply] at parts
        obtain ⟨⟨d, last⟩, second, parts⟩ := Except.bind_eq_ok.mp parts
        cases parts
        have whole := (Nulls.yields_validity rows _ _ _ (of_lift_ok first)).1
        obtain ⟨stored, count⟩ := LawfulChunks.filled second
        obtain ⟨own, typed, same, _⟩ := fromParts_sound stored (fun bm found => (whole bm found).1) built
        refine ⟨own, typed, ?_, Nat.not_lt.mp few, enc, named, applies⟩
        rw [len, same, count]

end Chunks

end Nulled

namespace Buffer

theorem Sound.scalar {ty : DataType} {d : Buffer} (sound : Sound ty d) : ∃ t, ty = .scalar t := by
  cases sound with
  | bool => exact ⟨.bool, rfl⟩
  | @fixed t => exact ⟨t, rfl⟩
  | @var k => exact ⟨k.type, rfl⟩

theorem isValid_eq {δ : Type} (c : Nulled δ) (i : Nat) : Dict.isValid c.validity i = !c.isNull i := by
  unfold Dict.isValid Nulled.isNull
  cases c.validity <;> simp

variable {c : Nulled Buffer} {enc : Encoding} {bytes : List UInt8}

theorem outcome (sound : c.Sound) (applies : enc.appliesTo c.ty = true) (few : c.len ≤ maxDecodeRows)
    (made : Buffer.encodeValues c enc = some bytes) :
    (c.data.Readable c.validity enc ∧ ∃ d' : Buffer, Chunked.decodeValues c.ty c.len enc c.validity bytes = .ok (d', []) ∧
        LawfulLayout.Sound c.ty d' ∧ d'.rows = c.len ∧
        ∀ i < c.len, c.isNull i = false → Layout.value c.ty d' i = Layout.value c.ty c.data i) ∨
      (¬ c.data.Readable c.validity enc ∧
        ∃ e, (Chunked.decodeValues c.ty c.len enc c.validity bytes : Except ChunkError (Buffer × List UInt8)) = .error e) := by
  obtain ⟨t, typed⟩ := Sound.scalar sound.data
  have own : Sound (.scalar t) c.data := typed ▸ sound.data
  rcases values_outcome sound.data sound.whole typed (typed ▸ applies) few made with ⟨able, read⟩ | ⟨unable, e, refused⟩
  · obtain ⟨whole, rows, same⟩ := @reread_ok t enc c.validity c.data own
    refine .inl ⟨able, _, ?_, ?_, rows, ?_⟩
    · rw [typed]
      exact lift_ok read
    · rw [typed]
      exact whole
    · intro i inside valid
      rw [typed]
      exact same i inside (by rw [isValid_eq, valid]; rfl)
  · refine .inr ⟨unable, .decode e, ?_⟩
    rw [typed]
    exact lift_error refused

instance : LawfulChunks Buffer where
  Readable c enc := c.data.Readable c.validity enc
  joins := Buffer.joins
  whole := Buffer.slice_whole
  encode_ok := by
    intro c enc sound applies
    obtain ⟨t, typed⟩ := Sound.scalar sound.data
    exact Buffer.encode_ok sound.data typed (typed ▸ applies)
  outcome sound applies few _ made := outcome sound applies few made
  filled := by
    intro ty rows enc validity b rest d read
    cases ty with
    | scalar t => exact (yields_values t rows enc validity _ _ _ (of_lift_ok read)).1
    | list t => cases read

end Buffer

namespace ColumnData

variable {c : Nulled ColumnData} {enc : Encoding} {bytes : List UInt8} {t : ScalarType}

/-- A LIST has an offset more than rows, and its child is a chunk under the limits of its own. -/
def Readable (c : Nulled ColumnData) (enc : Encoding) : Prop :=
  match c.data with
  | .flat buffer => buffer.Readable c.validity enc
  | .list _ child => c.len < maxDecodeRows ∧ child.len ≤ maxDecodeRows ∧
      ∀ e, child.choose = some e → child.data.Readable child.validity e

theorem applies_list (applies : enc.appliesTo (.list t) = true) : enc = .plain := by
  cases enc <;> cases applies
  rfl

theorem decodeList_eq {lengths : List Nat} {id : Nat} {chunk : List UInt8} (few : lengths.length < maxDecodeRows)
    (small : lengths.sum < 2 ^ 32) (named : id < 2 ^ 64) (room : chunk.length < 2 ^ 64) :
    decodeList t lengths.length ((sums lengths).flatMap Sink.u32 ++ (Sink.uvarint id ++ Sink.bytes chunk)) =
      (Nulled.decodeColumn (.scalar t) lengths.sum id chunk).map fun child => (.list (sums lengths) child, []) := by
  have chunked := Decodes.lift (decodes_bytes room) []
  rw [List.append_nil] at chunked
  unfold decodeList
  rw [(Decodes.lift (Plain.decodes_offsets few small)).bind_eq, (Decodes.lift (decodes_uvarint named)).bind_eq, bind_apply, chunked]
  dsimp only [bind, Except.bind]
  rw [getLast?_sums]
  dsimp only
  cases (Nulled.decodeColumn (.scalar t) lengths.sum id chunk : Except ChunkError (Nulled Buffer)) <;> rfl

theorem decodeList_refused {lengths : List Nat} (many : ¬ lengths.length < maxDecodeRows) :
    decodeList t lengths.length bytes = .error (.decode (.malformed "row count exceeds MAX_DECODE_ROWS")) := by
  have refused : Plain.readOffsets lengths.length bytes = .error (.malformed "row count exceeds MAX_DECODE_ROWS") := by
    rw [Plain.readOffsets, bind_apply, Cursor.guardLen, if_pos (by omega)]
    rfl
  rw [decodeList, bind_apply, lift_error refused]
  rfl

theorem encode_ok (sound : c.Sound) (applies : enc.appliesTo c.ty = true) : ∃ bytes, encodeValues c enc = some bytes := by
  obtain ⟨ty, data, validity, nulls⟩ := c
  cases sound.data with
  | flat own =>
    obtain ⟨t, rfl⟩ := own.scalar
    exact Buffer.encode_ok (c := ⟨.scalar t, _, validity, nulls⟩) own rfl applies
  | @list t lengths child own typed count small =>
    obtain rfl := applies_list applies
    obtain ⟨e, chunk, made, _⟩ := @Nulled.encodeColumn_ok _ _ _ none own (by simp)
    refine ⟨(sums lengths).flatMap Sink.u32 ++ (Sink.uvarint e.id ++ Sink.bytes chunk), ?_⟩
    rw [encodeValues]
    dsimp only
    rw [if_pos rfl, made]
    rfl

theorem outcome (sound : c.Sound) (applies : enc.appliesTo c.ty = true) (few : c.len ≤ maxDecodeRows) (room : bytes.length < 2 ^ 63)
    (made : encodeValues c enc = some bytes) :
    (Readable c enc ∧ ∃ d' : ColumnData, Chunked.decodeValues c.ty c.len enc c.validity bytes = .ok (d', []) ∧
        LawfulLayout.Sound c.ty d' ∧ Layout.rows d' = c.len ∧
        ∀ i < c.len, c.isNull i = false → Layout.value c.ty d' i = Layout.value c.ty c.data i) ∨
      (¬ Readable c enc ∧
        ∃ e, (Chunked.decodeValues c.ty c.len enc c.validity bytes : Except ChunkError (ColumnData × List UInt8)) = .error e) := by
  obtain ⟨ty, data, validity, nulls⟩ := c
  cases sound.data with
  | @flat ty buffer own =>
    obtain ⟨t, rfl⟩ := own.scalar
    have flat : (Nulled.mk (.scalar t) buffer validity nulls).Sound := ⟨own, sound.whole, sound.nulls⟩
    rcases Buffer.outcome flat applies few made with ⟨able, d', read, whole, rows, same⟩ | ⟨unable, e, refused⟩
    · refine .inl ⟨able, .flat d', ?_, .flat whole, rows, same⟩
      change (ColumnData.flat <$> ChunkCursor.lift (Buffer.decodeValues t _ enc validity)) bytes = _
      rw [map_apply]
      exact congrArg (Except.map _) read
    · refine .inr ⟨unable, e, ?_⟩
      change (ColumnData.flat <$> ChunkCursor.lift (Buffer.decodeValues t _ enc validity)) bytes = _
      rw [map_apply]
      exact congrArg (Except.map _) refused
  | @list t lengths child own typed count small =>
    obtain rfl := applies_list applies
    obtain ⟨e, chunk, encoded, suits, written, _, chosen⟩ := @Nulled.encodeColumn_ok _ _ _ none own (by simp)
    obtain rfl : bytes = (sums lengths).flatMap Sink.u32 ++ (Sink.uvarint e.id ++ Sink.bytes chunk) := by
      rw [encodeValues] at made
      dsimp only at made
      rw [if_pos rfl, encoded] at made
      cases made
      rfl
    have picked : child.choose = some e := by
      rw [Nulled.encodeColumn] at encoded
      dsimp only at encoded
      obtain ⟨e', choice, encoded⟩ := Option.bind_eq_some_iff.mp encoded
      obtain ⟨_, _, encoded⟩ := Option.bind_eq_some_iff.mp encoded
      cases encoded
      exact choice
    have rows : (Nulled.mk (.list t) (ColumnData.list (sums lengths) child) validity nulls).len = lengths.length := by
      simp [Nulled.len, Layout.rows]
    have shorter : chunk.length < 2 ^ 63 := by
      simp only [List.length_append, Sink.bytes] at room
      omega
    have named : e.id < 2 ^ 64 := by cases e <;> decide
    rw [rows] at few ⊢
    have readable : Readable ⟨.list t, .list (sums lengths) child, validity, nulls⟩ .plain ↔
        lengths.length < maxDecodeRows ∧ child.len ≤ maxDecodeRows ∧ child.data.Readable child.validity e := by
      rw [Readable, rows]
      dsimp only
      simp [picked]
    rw [readable]
    by_cases inside : lengths.length < maxDecodeRows
    · have opened := @decodeList_eq t lengths e.id chunk inside small named (by omega)
      change (_ ∧ ∃ d', decodeList t lengths.length _ = _ ∧ _) ∨ (_ ∧ ∃ e, decodeList t lengths.length _ = _)
      rw [opened, ← count, ← typed]
      by_cases held : child.len ≤ maxDecodeRows
      · rcases Nulled.decode_outcome own suits held shorter written with ⟨able, child', read, same⟩ | ⟨unable, e', refused⟩
        · have count' : child'.len = lengths.sum := same.len.trans count
          refine .inl ⟨⟨inside, held, able⟩, .list (sums lengths) child', ?_, ?_, by simp [Layout.rows], ?_⟩
          · rw [read]
            rfl
          · exact .list same.sound (same.ty.trans typed) count' small
          · intro i within _
            have left := @values_list (.list t) lengths child' count'.ge
            have right := @values_list (.list t) lengths child count.ge
            rw [same.cells, ← right] at left
            have each := congrArg (·[i]?) left
            simpa [values, Layout.rows, within] using each
        · refine .inr ⟨fun able => unable able.2.2, e', ?_⟩
          rw [refused]
          rfl
      · refine .inr ⟨fun able => held able.2.1, .decode (.malformed "row count exceeds MAX_DECODE_ROWS"), ?_⟩
        rw [Nulled.decodeColumn, if_pos (Nat.not_le.mp held)]
        rfl
    · exact .inr ⟨fun able => inside able.1, _, decodeList_refused inside⟩

theorem filled {ty : DataType} {rows : Nat} {validity : Option Bitmap} {b rest : List UInt8} {d : ColumnData}
    (read : decodeValues ty rows enc validity b = .ok (d, rest)) : d.Stored ∧ Layout.rows d = rows := by
  cases ty with
  | scalar t =>
    change (ColumnData.flat <$> ChunkCursor.lift (Buffer.decodeValues t rows enc validity)) b = _ at read
    rw [map_apply] at read
    cases own : ChunkCursor.lift (Buffer.decodeValues t rows enc validity) b with
    | error e =>
      rw [own] at read
      cases read
    | ok out =>
      rw [own] at read
      cases read
      exact (Buffer.yields_values t rows enc validity _ _ _ (of_lift_ok own)).1
  | list t =>
    cases enc with
    | plain =>
      obtain ⟨offsets, mid, first, read⟩ := bind_eq_ok (show decodeList t rows b = _ from read)
      obtain ⟨id, mid', _, read⟩ := bind_eq_ok read
      obtain ⟨chunk, mid'', _, read⟩ := bind_eq_ok read
      obtain ⟨length, small⟩ := (Buffer.yields_offsets rows _ _ _ (of_lift_ok first)).1
      cases last : offsets.getLast? with
      | none =>
        rw [last] at read
        cases read
      | some most =>
        rw [last] at read
        dsimp only at read
        cases decoded : (Nulled.decodeColumn (.scalar t) most id chunk : Except ChunkError (Nulled Buffer)) with
        | error e =>
          rw [decoded] at read
          cases read
        | ok child =>
          rw [decoded] at read
          cases read
          refine ⟨⟨small, (Nulled.decodeColumn_sound decoded).1⟩, ?_⟩
          simp only [Layout.rows]
          omega
    | _ => cases read

instance : LawfulChunks ColumnData where
  Readable := Readable
  joins := ColumnData.joins
  whole := ColumnData.slice_whole
  encode_ok := encode_ok
  outcome := outcome
  filled := filled

end ColumnData

namespace Column

variable {c : Column} {enc : Encoding}

/-- Three dates, the middle one null. -/
def dates : Column :=
  ⟨.date, .flat (.fixed .date [wrapI32 19000, wrapI32 0, wrapI32 (-3)]), some (Bitmap.ofBits [true, false, true]), 1⟩

theorem dates_sound : dates.Sound := by
  refine ⟨.flat (.fixed rfl fun _ _ => trivial), ?_, rfl⟩
  rintro bits ⟨⟩
  exact ⟨Bitmap.ofBits_whole _, rfl⟩

/-- Bytes that are taken for a chunk of a column hold a value of its type, or a null, for every row. -/
theorem decodeColumn_typed {ty : DataType} {rows id : Nat} {bytes : List UInt8} (read : Nulled.decodeColumn ty rows id bytes = .ok c) :
    c.ty = ty ∧ c.cells.length = rows ∧ rows ≤ maxDecodeRows ∧ (∀ cell ∈ c.cells, Typed ty cell) ∧
      ∃ enc, Encoding.fromId id = some enc ∧ enc.appliesTo ty = true := by
  obtain ⟨sound, rfl, rfl, few, known⟩ := Nulled.decodeColumn_sound read
  exact ⟨rfl, Nulled.length_cells c, few, Nulled.typed_cells sound.data.typed, known⟩

/-- One signed integer of eight bytes. -/
def minusOne : Column := ⟨.int64, .flat (.fixed .int64 [wrapI64 (-1)]), none, 0⟩

theorem decodeColumn_typed_int64 : minusOne.ty = .int64 ∧ minusOne.cells.length = 1 ∧ 1 ≤ maxDecodeRows ∧
    (∀ cell ∈ minusOne.cells, Typed .int64 cell) ∧ ∃ enc, Encoding.fromId 0 = some enc ∧ enc.appliesTo .int64 = true := by
  have read : Nulled.decodeColumn .int64 1 0 (0 :: List.replicate 8 255) = .ok minusOne := rfl
  exact decodeColumn_typed read

/-- A column is encoded without a panic, by the encoding that takes the fewest bytes on the sample, which for a short column is all of
    it; the one of the lowest id where several do. -/
theorem encodeColumn_least (sound : c.Sound) :
    ∃ enc bytes, c.encodeColumn none = some (enc, bytes) ∧ c.encodeWith enc = some bytes ∧ c.Chosen enc ∧
      (c.len ≤ sampleRows → ∀ e other, e.appliesTo c.ty = true → c.encodeWith e = some other →
        bytes.length ≤ other.length ∧ (e.id < enc.id → bytes.length < other.length)) := by
  obtain ⟨enc, bytes, encoded, _, made, _, chosen⟩ := @Nulled.encodeColumn_ok _ _ _ none sound (by simp)
  have chosen := chosen rfl
  refine ⟨enc, bytes, encoded, made, chosen, ?_⟩
  intro short e other applies written
  obtain ⟨sample, built, least⟩ := chosen.least
  rw [Nulled.buildSample_short sound short] at built
  cases built
  have bounds := least e applies
  rw [Nulled.sampleSize, Nulled.sampleSize, made, written] at bounds
  exact bounds

theorem encodeColumn_least_dates :
    ∃ enc bytes, dates.encodeColumn none = some (enc, bytes) ∧ dates.encodeWith enc = some bytes ∧ dates.Chosen enc ∧
      (3 ≤ 4096 → ∀ e other, e.appliesTo .date = true → dates.encodeWith e = some other →
        bytes.length ≤ other.length ∧ (e.id < enc.id → bytes.length < other.length)) :=
  encodeColumn_least (c := dates) dates_sound

end Column

end Physical

end Adelie
