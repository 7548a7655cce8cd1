import Adelie.Exec.Pushed
import Adelie.Segment.Laid

namespace Adelie

/-- A codec that makes what this model makes: its checksum, footers and index blobs, and of a column's cells the chunk of a column that
    reads as them. -/
structure SegmentCodec.Real (K : SegmentCodec) : Prop where
  crc : K.crc32c = Adelie.crc32c
  footer : ∀ f bytes, Adelie.encodeFooter f = some bytes → K.encodeFooter f = bytes
  index : ∀ kind col, K.buildIndex kind col = (Adelie.buildIndex kind col).bind SkipIndex.encode
  column : ∀ (col : Column) (pin : Option Encoding), col.Sound → (∀ e, pin = some e → e.appliesTo col.ty = true) →
    ∃ c : Physical.Column, c.Sound ∧ c.ty = col.ty ∧ c.cells = col.cells.map some ∧ c.encodeColumn pin = some (K.encodeColumn col pin)

/-- The chunk of a column that is built value by value. -/
def builtChunk (col : Column) (pin : Option Encoding) : Encoding × List UInt8 :=
  match Physical.Column.fromValues col.ty col.cells with
  | some (.ok c) => (c.encodeColumn pin).getD (.plain, [])
  | _ => (.plain, [])

/-- A sink that takes all. -/
def builtCodec : SegmentCodec where
  refuses _ _ := none
  encodeColumn := builtChunk
  buildIndex kind col := (buildIndex kind col).bind SkipIndex.encode
  encodeFooter f := (encodeFooter f).getD []
  crc32c := crc32c
  byteSize col := dataLen col.cells

theorem builtCodec_real : builtCodec.Real := by
  refine ⟨rfl, ?_, fun _ _ => rfl, ?_⟩
  · intro f bytes made
    change (encodeFooter f).getD [] = bytes
    rw [made, Option.getD_some]
  · intro col pin sound pinned
    obtain ⟨c, built, own, ty, cells⟩ := Physical.Column.fromValues_typed sound.typed sound.fits
    obtain ⟨enc, bytes, made, _⟩ := @Physical.Nulled.encodeColumn_ok _ _ _ pin own (by rwa [ty])
    refine ⟨c, own, ty, cells, ?_⟩
    change _ = some (builtChunk col pin)
    rw [builtChunk, built]
    dsimp only
    rw [made, Option.getD_some]

theorem SegmentCodec.Real.chunk {K : SegmentCodec} (real : K.Real) {col : Column} {pin : Option Encoding} (sound : col.Sound)
    (pinned : ∀ e, pin = some e → e.appliesTo col.ty = true) :
    ∃ c : Physical.Column, c.Sound ∧ c.ty = col.ty ∧ c.cells = col.cells.map some ∧ (K.encodeColumn col pin).1.appliesTo col.ty = true ∧
      c.encodeWith (K.encodeColumn col pin).1 = some (K.encodeColumn col pin).2 := by
  obtain ⟨c, own, ty, cells, made⟩ := real.column col pin sound pinned
  obtain ⟨enc, bytes, encoded, applies, written, _⟩ := @Physical.Nulled.encodeColumn_ok _ _ c pin own (by rwa [ty])
  rw [made] at encoded
  have same : K.encodeColumn col pin = (enc, bytes) := Option.some.inj encoded
  rw [same]
  exact ⟨c, own, ty, cells, ty ▸ applies, written⟩

theorem forall₂_at {α β : Type} {R : α → β → Prop} {l : List α} {r : List β} (each : List.Forall₂ R l r) {i : Nat} {a : α} {b : β}
    (left : l[i]? = some a) (right : r[i]? = some b) : R a b := by
  obtain ⟨inside, rfl⟩ := List.getElem?_eq_some_iff.mp left
  obtain ⟨within, rfl⟩ := List.getElem?_eq_some_iff.mp right
  exact each.get inside within

theorem mapM_ok {ε α β : Type} {f : α → Except ε β} {l : List α} (each : ∀ a ∈ l, ∃ b, f a = .ok b) : ∃ r, l.mapM f = .ok r := by
  induction l with
  | nil => exact ⟨[], rfl⟩
  | cons a l ih =>
    rw [List.forall_mem_cons] at each
    obtain ⟨b, own⟩ := each.1
    obtain ⟨r, rest⟩ := ih each.2
    exact ⟨b :: r, by rw [List.mapM_cons, own, rest]; rfl⟩

/-- What the reader's caps on counts and rows let through. -/
structure SegmentFooter.Counted (f : SegmentFooter) : Prop where
  columns : f.fields.length ≤ maxDecodeRows
  groups : f.rowGroups.length ≤ maxDecodeRows
  entries : f.indexes.length ≤ maxDecodeRows
  rows : ∀ rg ∈ f.rowGroups, rg.rows ≤ maxDecodeRows

section Opens

variable {K : SegmentCodec} {fields : List Field} {batches : List ColumnBatch} {bytes : List UInt8} {footer : SegmentFooter}
  {body : List UInt8} {groups : List (List ColumnBatch)} {pins : Nat → Option Encoding} {reqs : List (Nat × IndexKind)} {name : String}

theorem written_fields {opts : WriterOptions} {summary : SegmentMeta} (sound : ∀ b ∈ batches, b.Sound)
    (made : SegmentWriter.write K fields opts batches = .ok (bytes, summary)) : ∀ b ∈ batches, b.fields = fields := by
  unfold SegmentWriter.write at made
  obtain ⟨w₀, opened, made⟩ := Except.bind_eq_ok.mp made
  obtain ⟨w₁, pushed, _⟩ := Except.bind_eq_ok.mp made
  exact pushes_fields sound (.new opened) pushed

/-- The cells of a chunk's column, and what the footer says of them. -/
structure RawChunk.Slot (K : SegmentCodec) (body : List UInt8) (pin : Option Encoding) (rows : Nat) (col : Column) (chunk : RawChunk) : Prop where
  laid : chunk.Laid K body pin col
  sound : col.Sound
  pinned : ∀ e, pin = some e → e.appliesTo col.ty = true
  rows : col.cells.length = rows
  nulls : chunk.nullCount = col.zoneMap.nullCount
  min : chunk.min = col.zoneMap.min
  max : chunk.max = col.zoneMap.max

theorem SegmentLaid.group_sound (laid : SegmentLaid K fields batches bytes footer body groups pins reqs)
    (whole : ∀ b ∈ batches, b.fields = fields ∧ b.Sound) {i : Nat} {g : List ColumnBatch} (g_at : groups[i]? = some g) :
    ∀ b ∈ g, b.fields = fields ∧ b.Sound := by
  intro b inside
  have listed : b ∈ groups.flatten := List.mem_flatten.mpr ⟨g, List.mem_of_getElem? g_at, inside⟩
  rw [laid.batches] at listed
  exact whole b (List.mem_filter.mp listed).1

theorem SegmentLaid.slot (laid : SegmentLaid K fields batches bytes footer body groups pins reqs)
    (whole : ∀ b ∈ batches, b.fields = fields ∧ b.Sound) {i j : Nat} {rg : RawRowGroup} {g : List ColumnBatch} {f : Field}
    {chunk : RawChunk} (rg_at : footer.rowGroups[i]? = some rg) (g_at : groups[i]? = some g) (f_at : fields[j]? = some f)
    (chunk_at : rg.chunks[j]? = some chunk) : chunk.Slot K body (pins j) rg.rows ⟨f.ty, stacked g j⟩ := by
  have sound := laid.group_sound whole g_at
  have slot_at : fields.zipIdx[j]? = some (f, j) := by
    rw [List.getElem?_zipIdx, f_at, Option.map_some, Nat.zero_add]
  have of := forall₂_at laid.zones rg_at g_at
  have own : chunk.Laid K body (pins j) ⟨f.ty, stacked g j⟩ := forall₂_at (forall₂_at laid.chunks rg_at g_at) chunk_at slot_at
  obtain ⟨nulls, min, max⟩ := forall₂_at of.2 chunk_at slot_at
  have shaped : ∀ b ∈ g, b.Shaped fields := fun b member => (sound b member).2.shaped (sound b member).1
  obtain ⟨inside, _⟩ := List.getElem?_eq_some_iff.mp f_at
  refine ⟨own, ⟨stacked_typed sound f_at, own.fits⟩, ?_, ?_, nulls, min, max⟩
  · intro e found
    obtain ⟨f', at_, applies⟩ := laid.resolved.pins j e found
    rw [f_at] at at_
    cases at_
    exact applies
  · rw [of.1]
    exact (stacked_rows shaped).2 j inside

theorem zoneMap_storable {c : Column} (typed : ∀ v ∈ c.cells, v.HasType c.ty) :
    (∀ m, c.zoneMap.min = some m → Storable c.ty m) ∧ ∀ m, c.zoneMap.max = some m → Storable c.ty m := by
  obtain ⟨ty, cells⟩ := c
  cases ty with
  | list t => exact ⟨(fun m made => by cases made), (fun m made => by cases made)⟩
  | scalar t =>
    have scalars : ∀ v ∈ cells, v.HasScalarType t := fun v member => typed v member
    refine ⟨fun m made => ?_, fun m made => ?_⟩
    · have present := (boundStats_min scalars made).1
      exact ⟨t, rfl, present.2, present.1⟩
    · have present := (boundStats_max scalars made).1
      exact ⟨t, rfl, present.2, present.1⟩

theorem RawChunk.Slot.stored (real : K.Real) (room : body.length < 2 ^ 63) {pin : Option Encoding} {rows : Nat} {col : Column}
    {chunk : RawChunk} (slot : chunk.Slot K body pin rows col) : chunk.Sound rows col.ty := by
  obtain ⟨start, stop, _⟩ := slot.laid.holds
  obtain ⟨min, max⟩ := zoneMap_storable slot.sound.typed
  have len := slot.laid.len
  have few : col.zoneMap.nullCount ≤ col.cells.length := List.countP_le_length
  refine ⟨by omega, by omega, ?_, ?_, ?_, ?_, ?_⟩
  · rw [slot.laid.crc, real.crc]
    exact crc32c_lt _
  · rw [slot.laid.encoding]
    cases (K.encodeColumn col pin).1 <;> decide
  · rw [slot.nulls, ← slot.rows]
    exact few
  · rw [slot.min]
    exact min
  · rw [slot.max]
    exact max

theorem RawChunk.Slot.opens (real : K.Real) (room : body.length < 2 ^ 63) {pin : Option Encoding} {rows : Nat} {f : Field}
    {cells : List Value} {chunk : RawChunk} (slot : chunk.Slot K body pin rows ⟨f.ty, cells⟩) :
    openChunk name body.length chunk f = .ok (⟨(K.encodeColumn ⟨f.ty, cells⟩ pin).1, chunk.len, chunk.nullCount, chunk.min, chunk.max⟩,
      ⟨chunk.offset, chunk.len, chunk.crc⟩) := by
  obtain ⟨c, _, _, _, applies, _⟩ := real.chunk slot.sound slot.pinned
  obtain ⟨start, stop, _⟩ := slot.laid.holds
  have len := slot.laid.len
  have inside : inBody headerLen body.length chunk.offset chunk.len = true := by
    have low : headerLen ≤ chunk.offset := start
    simp only [inBody, Bool.and_eq_true, decide_eq_true_eq]
    omega
  unfold openChunk
  rw [slot.laid.encoding, Physical.fromId_id]
  dsimp only
  rw [(ensure_eq_ok (u := ())).mpr applies, (ensure_eq_ok (u := ())).mpr inside]
  rfl

theorem mem_segmentIndexes {x : GroupIndex} (member : x ∈ segmentIndexes K reqs fields groups) : ∃ g f, groups[x.rowGroup]? = some g ∧
    fields[x.ordinal]? = some f ∧ (x.ordinal, x.kind) ∈ reqs ∧ K.buildIndex x.kind ⟨f.ty, stacked g x.ordinal⟩ = some x.blob := by
  obtain ⟨⟨g, i⟩, listed, inside⟩ := List.mem_flatMap.mp member
  obtain ⟨⟨ordinal, kind⟩, asked, made⟩ := List.mem_filterMap.mp inside
  obtain ⟨blob, built, same⟩ := Option.map_eq_some_iff.mp made
  obtain ⟨col, found, built⟩ := Option.bind_eq_some_iff.mp built
  subst same
  rw [groupColumns, List.getElem?_map, List.getElem?_zipIdx, Option.map_map] at found
  obtain ⟨f, f_at, same⟩ := Option.map_eq_some_iff.mp found
  subst same
  rw [List.mem_zipIdx_iff_getElem?] at listed
  refine ⟨g, f, listed, f_at, asked, ?_⟩
  simpa using built

theorem SegmentLaid.footer_sound (laid : SegmentLaid K fields batches bytes footer body groups pins reqs) (real : K.Real)
    (whole : ∀ b ∈ batches, b.fields = fields ∧ b.Sound) (counted : footer.Counted) (room : body.length < 2 ^ 63) : footer.Sound := by
  have cap : maxDecodeRows = 2 ^ 22 := rfl
  have columns := counted.columns
  have counts := counted.groups
  refine ⟨counted.columns, counted.groups, counted.entries, ?_, ?_⟩
  · intro rg member
    obtain ⟨i, inside, rfl⟩ := List.mem_iff_getElem.mp member
    have few := counted.rows _ member
    have within : i < groups.length := by
      rw [← laid.zones.length_eq]
      exact inside
    refine ⟨by omega, ?_⟩
    rw [laid.schema, List.forall₂_iff_get]
    have width := (laid.zones.get inside within).2.length_eq
    rw [List.length_zipIdx] at width
    refine ⟨width, ?_⟩
    intro j left right
    exact (laid.slot whole (List.getElem?_eq_getElem inside) (List.getElem?_eq_getElem within) (List.getElem?_eq_getElem right)
      (List.getElem?_eq_getElem left)).stored real room
  · intro e member
    obtain ⟨i, inside, rfl⟩ := List.mem_iff_getElem.mp member
    have within : i < (segmentIndexes K reqs fields groups).length := by
      rw [← laid.indexes.length_eq]
      exact inside
    have own := laid.indexes.get inside within
    rw [List.get_eq_getElem, List.get_eq_getElem] at own
    obtain ⟨g, f, g_at, f_at, _, _⟩ := mem_segmentIndexes (List.getElem_mem within)
    generalize footer.indexes[i] = e at own
    generalize (segmentIndexes K reqs fields groups)[i] = x at own g_at f_at
    obtain ⟨start, stop, _⟩ := own.holds
    obtain ⟨low, _⟩ := List.getElem?_eq_some_iff.mp g_at
    obtain ⟨short, _⟩ := List.getElem?_eq_some_iff.mp f_at
    rw [laid.zones.length_eq] at counts
    rw [laid.schema] at columns
    have id : x.kind.id < 2 ^ 64 := by
      cases x.kind <;> decide
    have offset : e.offset < 2 ^ 64 := by omega
    have len : x.blob.length < 2 ^ 64 := by omega
    have crc : K.crc32c x.blob < 2 ^ 32 := by
      rw [real.crc]
      exact crc32c_lt _
    have one_ : [x.ordinal].length ≤ maxDecodeRows := by
      rw [List.length_singleton]
      decide
    rw [own.entry]
    refine ⟨id, ?_, one_, ?_, offset, len, crc⟩
    · intro k found
      have same : x.rowGroup = k := Option.some.inj found
      omega
    · intro k listed
      have same : k = x.ordinal := List.mem_singleton.mp listed
      omega

/-- A segment read back: the fields, each row group's rows, for each column the cells that were written (or, where the reader's limits
    leave its chunk unreadable, an error), and each index as it was built. -/
structure Reopened (K : SegmentCodec) (pins : Nat → Option Encoding) (reqs : List (Nat × IndexKind)) (fields : List Field)
    (groups : List (List ColumnBatch)) (r : SegmentReader) : Prop where
  schema : r.fields = fields
  rows : r.rowGroups.map RowGroupMeta.rows = groups.map fun g => (g.map ColumnBatch.rows).sum
  columns : ∀ (i j : Nat) (g : List ColumnBatch) (f : Field), groups[i]? = some g → fields[j]? = some f → ∃ c : Physical.Column,
    c.Sound ∧ c.ty = f.ty ∧ c.cells = (stacked g j).map some ∧
      ((Physical.ColumnData.Readable c (K.encodeColumn ⟨f.ty, stacked g j⟩ (pins j)).1 ∧
          ∃ c', r.readColumn i j = some (.ok c') ∧ Physical.Rereads c c') ∨
        (¬ Physical.ColumnData.Readable c (K.encodeColumn ⟨f.ty, stacked g j⟩ (pins j)).1 ∧ ∃ e, r.readColumn i j = some (.error e)))
  indexes : List.Forall₂ (fun (e : IndexEntry) (x : GroupIndex) => e.kind = x.kind ∧ e.rowGroup = some x.rowGroup ∧ e.columns = [x.ordinal] ∧
    ∃ g f index, groups[x.rowGroup]? = some g ∧ fields[x.ordinal]? = some f ∧
      buildIndex x.kind ⟨f.ty, stacked g x.ordinal⟩ = some index ∧ r.loadIndex e = some (.ok index))
    r.indexes (segmentIndexes K reqs fields groups)

theorem openRowGroup_at {stop j : Nat} {rg : RawRowGroup} {out : RowGroupMeta × List ChunkRange} {f : Field} {chunk : RawChunk}
    {known : ChunkMeta × ChunkRange} (made : openRowGroup name stop fields rg = .ok out) (f_at : fields[j]? = some f)
    (chunk_at : rg.chunks[j]? = some chunk) (one_ : openChunk name stop chunk f = .ok known) :
    out.1.rows = rg.rows ∧ out.1.chunks[j]? = some known.1 ∧ out.2[j]? = some known.2 := by
  unfold openRowGroup at made
  obtain ⟨_, _, made⟩ := Except.bind_eq_ok.mp made
  obtain ⟨chunks, each, made⟩ := Except.bind_eq_ok.mp made
  have whole := Except.ok.inj made
  subst whole
  have each := forall₂_of_mapM_except each
  have zipped : (rg.chunks.zip fields)[j]? = some (chunk, f) := List.getElem?_zip_eq_some.mpr ⟨chunk_at, f_at⟩
  obtain ⟨inside, _⟩ := List.getElem?_eq_some_iff.mp zipped
  have within : j < chunks.length := by
    rw [← each.length_eq]
    exact inside
  have there : chunks[j]? = some chunks[j] := List.getElem?_eq_getElem within
  have own : openChunk name stop chunk f = .ok chunks[j] := forall₂_at each zipped there
  rw [one_] at own
  have same : known = chunks[j] := Except.ok.inj own
  refine ⟨rfl, ?_, ?_⟩
  · rw [List.getElem?_map, there, same]
    rfl
  · rw [List.getElem?_map, there, same]
    rfl

theorem HeldAt.slice {out more bytes : List UInt8} {offset : Nat} (holds : HeldAt out offset bytes) :
    SegmentReader.slice? (out ++ more) offset (offset + bytes.length) = some bytes := by
  have stop := holds.stop
  have inside : offset ≤ offset + bytes.length ∧ offset + bytes.length ≤ (out ++ more).length := by
    rw [List.length_append]
    omega
  rw [SegmentReader.slice?, if_pos inside, between_append_left stop, holds.bytes]

theorem resolves {n : Nat} {raw : List RawIndexEntry} {xs : List GroupIndex} (room : body.length < 2 ^ 63)
    (each : List.Forall₂ (RawIndexEntry.Laid K body) raw xs)
    (known : ∀ x ∈ xs, x.rowGroup < n ∧ ∃ f, fields[x.ordinal]? = some f ∧ x.kind.appliesTo f.ty = true) :
    ∃ es, resolveEntries name fields n headerLen body.length raw = .ok es ∧ List.Forall₂ (fun (e : IndexEntry) (x : GroupIndex) =>
      e.kind = x.kind ∧ e.rowGroup = some x.rowGroup ∧ e.columns = [x.ordinal] ∧ e.len = x.blob.length ∧ e.crc = K.crc32c x.blob ∧
        HeldAt body e.offset x.blob) es xs := by
  have all : ∃ es : List IndexEntry, raw.mapM (resolveEntry name fields n headerLen body.length) = .ok (es.map some) ∧
      List.Forall₂ (fun (e : IndexEntry) (x : GroupIndex) => e.kind = x.kind ∧ e.rowGroup = some x.rowGroup ∧ e.columns = [x.ordinal] ∧
        e.len = x.blob.length ∧ e.crc = K.crc32c x.blob ∧ HeldAt body e.offset x.blob) es xs := by
    induction each with
    | nil => exact ⟨[], rfl, .nil⟩
    | @cons e x raw xs own _ ih =>
      rw [List.forall_mem_cons] at known
      obtain ⟨es, rest, kept⟩ := ih known.2
      obtain ⟨group, f, f_at, applies⟩ := known.1
      have stop := own.holds.stop
      have start : headerLen ≤ e.offset := own.holds.start
      have inside : inBody headerLen body.length e.offset x.blob.length = true := by
        simp only [inBody, Bool.and_eq_true, decide_eq_true_eq]
        omega
      have column : resolveColumn name fields x.kind x.ordinal = .ok () := by
        rw [resolveColumn, f_at]
        exact (ensure_eq_ok (u := ())).mpr applies
      have one_ : resolveEntry name fields n headerLen body.length e =
          .ok (some ⟨x.kind, some x.rowGroup, [x.ordinal], e.offset, x.blob.length, K.crc32c x.blob⟩) := by
        rw [own.entry]
        have id : IndexKind.fromId x.kind.id = some x.kind := by
          cases x.kind <;> rfl
        unfold resolveEntry
        dsimp only
        rw [id]
        dsimp only
        rw [(ensure_eq_ok (u := ())).mpr (by simpa using group)]
        change ([x.ordinal].forM (resolveColumn name fields x.kind) >>= _) = _
        rw [(forM_eq_ok (u := ())).mpr (by simpa using column)]
        change (ensure (inBody headerLen body.length e.offset x.blob.length) _ >>= _) = _
        rw [(ensure_eq_ok (u := ())).mpr inside]
        rfl
      refine ⟨⟨x.kind, some x.rowGroup, [x.ordinal], e.offset, x.blob.length, K.crc32c x.blob⟩ :: es, ?_, .cons ⟨rfl, rfl, rfl, rfl, rfl, own.holds⟩ kept⟩
      rw [List.mapM_cons, one_, rest]
      rfl
  obtain ⟨es, made, kept⟩ := all
  refine ⟨es, ?_, kept⟩
  rw [resolveEntries, made]
  change Except.ok ((es.map some).filterMap id) = _
  rw [List.filterMap_map]
  simp

/-- The reader of a file, from what its footer was opened to. -/
def readerOf (name : String) (bytes : List UInt8) (fields : List Field) (opened : List (RowGroupMeta × List ChunkRange))
    (indexes : List IndexEntry) (footerCrc : Nat) : SegmentReader :=
  { name, bytes, fields, rowGroups := opened.map Prod.fst, chunkRanges := opened.map Prod.snd, indexes, footerCrc }

/-- A chunk in bounds whose checksum holds is decoded. -/
theorem readColumn_decodes {r : SegmentReader} {i j : Nat} {group : RowGroupMeta} {ranges : List ChunkRange} {range : ChunkRange}
    {chunk : ChunkMeta} {f : Field} {part : List UInt8} (group_at : r.rowGroups[i]? = some group) (ranges_at : r.chunkRanges[i]? = some ranges)
    (range_at : ranges[j]? = some range) (f_at : r.fields[j]? = some f) (chunk_at : group.chunks[j]? = some chunk)
    (cut : SegmentReader.slice? r.bytes range.offset (range.offset + range.len) = some part) (sum : crc32c part = range.crc) :
    (∀ c : Physical.Column, Physical.Nulled.decodeColumn f.ty group.rows chunk.encoding.id part = .ok c → c.len = group.rows →
      r.readColumn i j = some (.ok c)) ∧
    ∀ e, (Physical.Nulled.decodeColumn f.ty group.rows chunk.encoding.id part : Except ChunkError Physical.Column) = .error e →
      r.readColumn i j = some (.error (e.at_ r.name (some f.name))) := by
  unfold SegmentReader.readColumn
  rw [group_at, ranges_at, Option.bind_some, range_at]
  dsimp only
  unfold SegmentReader.readChunk
  rw [cut, f_at, chunk_at]
  refine ⟨?_, ?_⟩
  · intro c read len
    change (if _ then _ else _) = _
    rw [if_neg (by simp [sum])]
    change some ((Physical.Nulled.decodeColumn f.ty group.rows chunk.encoding.id part).mapError _ >>= _) = _
    rw [read]
    change some (if _ then _ else _) = _
    rw [if_neg (by simp [len])]
  · intro e refused
    change (if _ then _ else _) = _
    rw [if_neg (by simp [sum])]
    change some ((Physical.Nulled.decodeColumn f.ty group.rows chunk.encoding.id part).mapError _ >>= _) = _
    rw [refused]
    rfl

section Reading

variable {opened : List (RowGroupMeta × List ChunkRange)} {indexes : List IndexEntry} {footerCrc : Nat}

theorem SegmentLaid.groups_open (laid : SegmentLaid K fields batches bytes footer body groups pins reqs) (real : K.Real)
    (whole : ∀ b ∈ batches, b.fields = fields ∧ b.Sound) (counted : footer.Counted) (room : body.length < 2 ^ 63) :
    ∃ opened, footer.rowGroups.mapM (openRowGroup name body.length footer.fields) = .ok opened := by
  apply mapM_ok
  intro rg member
  obtain ⟨i, inside, rfl⟩ := List.mem_iff_getElem.mp member
  have within : i < groups.length := by
    rw [← laid.zones.length_eq]
    exact inside
  have chunks : ∃ chunks, (footer.rowGroups[i].chunks.zip footer.fields).mapM (fun p => openChunk name body.length p.1 p.2) = .ok chunks := by
    apply mapM_ok
    intro p listed
    obtain ⟨j, at_⟩ := List.mem_iff_getElem?.mp listed
    obtain ⟨chunk_at, f_at⟩ := List.getElem?_zip_eq_some.mp at_
    rw [laid.schema] at f_at
    exact ⟨_, (laid.slot whole (List.getElem?_eq_getElem inside) (List.getElem?_eq_getElem within) f_at chunk_at).opens real room⟩
  obtain ⟨chunks, made⟩ := chunks
  refine ⟨(⟨footer.rowGroups[i].rows, chunks.map Prod.fst⟩, chunks.map Prod.snd), ?_⟩
  rw [openRowGroup, (ensure_eq_ok (u := ())).mpr (decide_eq_true (counted.rows _ member))]
  change ((footer.rowGroups[i].chunks.zip footer.fields).mapM (fun p => openChunk name body.length p.1 p.2) >>= _) = _
  rw [made]
  rfl

theorem SegmentLaid.rows_opened (laid : SegmentLaid K fields batches bytes footer body groups pins reqs)
    (outs : List.Forall₂ (fun rg out => openRowGroup name body.length footer.fields rg = .ok out) footer.rowGroups opened) :
    (opened.map Prod.fst).map RowGroupMeta.rows = groups.map fun g => (g.map ColumnBatch.rows).sum := by
  rw [← List.forall₂_eq_eq_eq, List.map_map, List.forall₂_map_left_iff, List.forall₂_map_right_iff, List.forall₂_iff_get]
  refine ⟨by rw [← outs.length_eq, laid.zones.length_eq], ?_⟩
  intro i left right
  have inside : i < footer.rowGroups.length := by
    rw [outs.length_eq]
    exact left
  have one_ := outs.get inside left
  have zone := (laid.zones.get inside right).1
  unfold openRowGroup at one_
  obtain ⟨_, _, one_⟩ := Except.bind_eq_ok.mp one_
  obtain ⟨chunks, _, one_⟩ := Except.bind_eq_ok.mp one_
  have out := Except.ok.inj one_
  rw [Function.comp_apply, ← out]
  exact zone

/-- A column of a row group reads back as its cells, unless its chunk is past the reader's limits. -/
theorem SegmentLaid.column_reads (laid : SegmentLaid K fields batches bytes footer body groups pins reqs) (real : K.Real)
    (whole : ∀ b ∈ batches, b.fields = fields ∧ b.Sound) (counted : footer.Counted) (room : body.length < 2 ^ 63)
    (outs : List.Forall₂ (fun rg out => openRowGroup name body.length footer.fields rg = .ok out) footer.rowGroups opened)
    {i j : Nat} {g : List ColumnBatch} {f : Field} (g_at : groups[i]? = some g) (f_at : fields[j]? = some f) : ∃ c : Physical.Column,
    c.Sound ∧ c.ty = f.ty ∧ c.cells = (stacked g j).map some ∧
      ((Physical.ColumnData.Readable c (K.encodeColumn ⟨f.ty, stacked g j⟩ (pins j)).1 ∧
          ∃ c', (readerOf name bytes footer.fields opened indexes footerCrc).readColumn i j = some (.ok c') ∧ Physical.Rereads c c') ∨
        (¬ Physical.ColumnData.Readable c (K.encodeColumn ⟨f.ty, stacked g j⟩ (pins j)).1 ∧
          ∃ e, (readerOf name bytes footer.fields opened indexes footerCrc).readColumn i j = some (.error e))) := by
  obtain ⟨within, _⟩ := List.getElem?_eq_some_iff.mp g_at
  have inside : i < footer.rowGroups.length := by
    rw [laid.zones.length_eq]
    exact within
  have there : i < opened.length := by
    rw [← outs.length_eq]
    exact inside
  have rg_at : footer.rowGroups[i]? = some footer.rowGroups[i] := List.getElem?_eq_getElem inside
  have out_at : opened[i]? = some opened[i] := List.getElem?_eq_getElem there
  have width := (forall₂_at laid.zones rg_at g_at).2.length_eq
  rw [List.length_zipIdx] at width
  obtain ⟨short, _⟩ := List.getElem?_eq_some_iff.mp f_at
  have chunk_at : footer.rowGroups[i].chunks[j]? = some (footer.rowGroups[i].chunks[j]) :=
    List.getElem?_eq_getElem (by omega)
  have slot := laid.slot whole rg_at g_at f_at chunk_at
  have few := counted.rows _ (List.getElem_mem inside)
  generalize footer.rowGroups[i].chunks[j] = chunk at slot chunk_at
  obtain ⟨c, own, ty, cells, applies, written⟩ := real.chunk slot.sound slot.pinned
  have f_at' : footer.fields[j]? = some f := by
    rw [laid.schema]
    exact f_at
  obtain ⟨rows, meta_at, range_at⟩ := openRowGroup_at (forall₂_at outs rg_at out_at) f_at' chunk_at (slot.opens real room)
  have count : c.len = opened[i].1.rows := by
    rw [rows, ← slot.rows, ← Physical.Nulled.length_cells, cells, List.length_map]
  have cut : SegmentReader.slice? bytes chunk.offset (chunk.offset + chunk.len) = some (K.encodeColumn ⟨f.ty, stacked g j⟩ (pins j)).2 := by
    rw [laid.bytes, slot.laid.len]
    exact slot.laid.holds.slice
  have sum : crc32c (K.encodeColumn ⟨f.ty, stacked g j⟩ (pins j)).2 = chunk.crc := by
    rw [slot.laid.crc, real.crc]
  have short' : (K.encodeColumn ⟨f.ty, stacked g j⟩ (pins j)).2.length < 2 ^ 63 := by
    have stop := slot.laid.holds.stop
    omega
  have group_at : (readerOf name bytes footer.fields opened indexes footerCrc).rowGroups[i]? = some opened[i].1 := by
    rw [readerOf, List.getElem?_map, out_at]
    rfl
  have ranges_at : (readerOf name bytes footer.fields opened indexes footerCrc).chunkRanges[i]? = some opened[i].2 := by
    rw [readerOf, List.getElem?_map, out_at]
    rfl
  obtain ⟨reads, fails⟩ := readColumn_decodes group_at ranges_at range_at f_at' meta_at cut sum
  have outcome := Physical.Nulled.decode_outcome own (ty ▸ applies) (by rw [count, rows]; exact few) short' written
  rw [ty, count] at outcome
  refine ⟨c, own, ty, cells, ?_⟩
  rcases outcome with ⟨able, c', read, again⟩ | ⟨unable, e, refused⟩
  · exact .inl ⟨able, c', reads c' read (again.len.trans count), again⟩
  · exact .inr ⟨unable, _, fails e refused⟩

/-- An index entry loads as the index that was built. -/
theorem SegmentLaid.index_loads (laid : SegmentLaid K fields batches bytes footer body groups pins reqs) (real : K.Real)
    (whole : ∀ b ∈ batches, b.fields = fields ∧ b.Sound) (room : body.length < 2 ^ 63) {e : IndexEntry} {x : GroupIndex}
    (member : x ∈ segmentIndexes K reqs fields groups) (kind : e.kind = x.kind) (columns : e.columns = [x.ordinal])
    (len : e.len = x.blob.length) (crc : e.crc = K.crc32c x.blob) (holds : HeldAt body e.offset x.blob) :
    ∃ g f index, groups[x.rowGroup]? = some g ∧ fields[x.ordinal]? = some f ∧
      buildIndex x.kind ⟨f.ty, stacked g x.ordinal⟩ = some index ∧
        (readerOf name bytes footer.fields opened indexes footerCrc).loadIndex e = some (.ok index) := by
  obtain ⟨g, f, g_at, f_at, _, built⟩ := mem_segmentIndexes member
  rw [real.index] at built
  obtain ⟨index, made, encoded⟩ := Option.bind_eq_some_iff.mp built
  refine ⟨g, f, index, g_at, f_at, made, ?_⟩
  obtain ⟨blob, again, loads⟩ := built_loads (stacked_typed (laid.group_sound whole g_at) f_at) made
  rw [encoded] at again
  have same : x.blob = blob := Option.some.inj again
  subst same
  have cut : SegmentReader.slice? bytes e.offset (e.offset + e.len) = some x.blob := by
    rw [laid.bytes, len]
    exact holds.slice
  have few : x.blob.length < 2 ^ 64 := by
    have stop := holds.stop
    omega
  unfold SegmentReader.loadIndex
  dsimp only [readerOf]
  rw [columns, cut, crc, real.crc, laid.schema, kind]
  change ((fields[_]?) >>= _) = _
  rw [f_at]
  change (if _ then _ else _) = _
  rw [if_neg (by simp), loads few]
  rfl

end Reading

/-- Whatever a writer with the source's codec has finished opens again and reads as it was written. -/
theorem SegmentLaid.opens (laid : SegmentLaid K fields batches bytes footer body groups pins reqs) (real : K.Real)
    (whole : ∀ b ∈ batches, b.fields = fields ∧ b.Sound) (counted : footer.Counted) (room : bytes.length < 2 ^ 63)
    (small : (K.encodeFooter footer).length < 2 ^ 32) :
    ∃ r, SegmentReader.open_ name bytes = .ok r ∧ Reopened K pins reqs fields groups r := by
  have size : body.length ≤ bytes.length := by
    rw [laid.bytes, List.length_append]
    omega
  have room' : body.length < 2 ^ 63 := by omega
  -- the footer is found and read
  obtain ⟨F, made, decodes⟩ := decodes_footer (laid.footer_sound real whole counted room')
  have same : K.encodeFooter footer = F := real.footer _ _ made
  rw [same] at small
  have file : bytes = writeTrailer body segmentMagic F := by
    rw [laid.bytes, same, SegmentCodec.trailer, real.crc, writeTrailer]
    simp only [List.append_assoc]
  have framed : readTrailer bytes segmentMagic headerLen = .ok (body.length, body.length + F.length) := by
    rw [file]
    exact readTrailer_ok rfl laid.header.length_le small
  have headed : checkHeader bytes segmentMagic name = .ok () := by
    obtain ⟨more, again⟩ := laid.header
    rw [laid.bytes, ← again]
    rfl
  have here : between bytes body.length (body.length + F.length) = F := by
    rw [file, writeTrailer, between_append_left (by rw [List.length_append]), between_append_self]
  have decoded : decodeFooter (between bytes body.length (body.length + F.length)) = .ok footer := by
    have read := decodes (by omega) []
    rw [List.append_nil] at read
    rw [here, decodeFooter, read]
    rfl
  -- everything it tells of is let through
  obtain ⟨opened, opened_ok⟩ := @SegmentLaid.groups_open _ _ _ _ _ _ _ _ _ name laid real whole counted room'
  have outs := forall₂_of_mapM_except opened_ok
  have known : ∀ x ∈ segmentIndexes K reqs fields groups, x.rowGroup < opened.length ∧
      ∃ f, fields[x.ordinal]? = some f ∧ x.kind.appliesTo f.ty = true := by
    intro x member
    obtain ⟨g, f, g_at, _, asked, _⟩ := mem_segmentIndexes member
    obtain ⟨low, _⟩ := List.getElem?_eq_some_iff.mp g_at
    rw [← outs.length_eq, laid.zones.length_eq]
    exact ⟨low, laid.resolved.reqs _ asked⟩
  obtain ⟨es, resolved, entries⟩ := resolves room' laid.indexes known
  rw [← laid.schema] at resolved
  refine ⟨readerOf name bytes footer.fields opened es (crc32c F), ?_, laid.schema, laid.rows_opened outs, ?_, ?_⟩
  · unfold SegmentReader.open_
    rw [framed]
    change (checkHeader bytes segmentMagic name >>= _) = _
    rw [headed]
    change ((decodeFooter (between bytes body.length (body.length + F.length))).mapError _ >>= _) = _
    rw [decoded]
    change (footer.rowGroups.mapM (openRowGroup name body.length footer.fields) >>= _) = _
    rw [opened_ok]
    change (resolveEntries name footer.fields opened.length headerLen body.length footer.indexes >>= _) = _
    rw [resolved, here]
    rfl
  · intro i j g f g_at f_at
    exact laid.column_reads real whole counted room' outs g_at f_at
  · rw [List.forall₂_iff_get]
    refine ⟨entries.length_eq, ?_⟩
    intro i left right
    obtain ⟨kind, group, columns, len, crc, holds⟩ := entries.get left right
    exact ⟨kind, group, columns, laid.index_loads real whole room' (List.getElem_mem right) kind columns len crc holds⟩

end Opens

end Adelie
