import Adelie.Segment.Blob
import Adelie.Segment.Chunk

namespace Adelie

def headerLen : Nat := 8
def trailerLen : Nat := 16
def currentVersion : Nat := 1

/-- A segment file gone wrong. Every error but a misuse names the segment. -/
inductive SegmentError where
  | badMagic (segment : String)
  | unsupportedVersion (segment : String) (version : Nat)
  | truncated (segment : String)
  | corruptFooter (segment : String)
  | corruptChunk (segment column : String) (rowGroup : Nat)
  | corruptIndex (segment column : String) (kind : IndexKind)
  | unknownTypeId (segment column : String) (id : Nat)
  | unknownEncoding (segment column : String) (id : Nat)
  | malformed (segment : String) (column : Option String) (detail : String)
  | usage (message : String)

/-- What is cut short inside bytes that a checksum covers is malformed. -/
def DecodeError.at_ (segment : String) (column : Option String) : DecodeError → SegmentError
  | .truncated => .malformed segment column "truncated"
  | .malformed detail => .malformed segment column detail
  | .unknownTypeId id => .unknownTypeId segment (column.getD "?") id

def ChunkError.at_ (segment : String) (column : Option String) : ChunkError → SegmentError
  | .decode e => e.at_ segment column
  | .unknownEncoding id => .unknownEncoding segment (column.getD "?") id

def IndexKind.fromId : Nat → Option IndexKind
  | 1 => some .bloom
  | 2 => some .valueSet
  | 3 => some .ngram
  | _ => none

inductive TrailerError where
  | badMagic
  | unsupportedVersion (version : Nat)
  | truncated
  | corruptFooter

def TrailerError.at_ (segment : String) : TrailerError → SegmentError
  | .badMagic => .badMagic segment
  | .unsupportedVersion version => .unsupportedVersion segment version
  | .truncated => .truncated segment
  | .corruptFooter => .corruptFooter segment

/-- The footer's range, once magic, version, its bounds and its checksum are what they have to be. -/
def readTrailer (bytes magic : List UInt8) (headerLen : Nat) : Except TrailerError (Nat × Nat) :=
  if bytes.length < headerLen + trailerLen then .error .truncated
  else
    let trailerStart := bytes.length - trailerLen
    let trailer := bytes.drop trailerStart
    let footerLen := leNat (between trailer 0 4)
    let footerCrc := leNat (between trailer 4 8)
    let version := leNat (between trailer 14 16)
    if between trailer 8 14 ≠ magic then .error .badMagic
    else if currentVersion < version then .error (.unsupportedVersion version)
    else if trailerStart < footerLen ∨ trailerStart - footerLen < headerLen then .error .truncated
    else if crc32c (between bytes (trailerStart - footerLen) trailerStart) ≠ footerCrc then .error .corruptFooter
    else .ok (trailerStart - footerLen, trailerStart)

/-- Of bytes that are no shorter than a header, which `readTrailer` sees to. -/
def checkHeader (buf magic : List UInt8) (name : String) : Except SegmentError Unit :=
  if between buf 0 6 ≠ magic then .error (.badMagic name)
  else if currentVersion < leNat (between buf 6 8) then .error (.unsupportedVersion name (leNat (between buf 6 8)))
  else .ok ()

structure ChunkMeta where
  encoding : Encoding
  len : Nat
  nullCount : Nat
  min : Option Value
  max : Option Value

structure RowGroupMeta where
  rows : Nat
  chunks : List ChunkMeta

structure IndexEntry where
  kind : IndexKind
  rowGroup : Option Nat
  columns : List Nat
  offset : Nat
  len : Nat
  crc : Nat

/-- Where a chunk is, and its checksum. -/
structure ChunkRange where
  offset : Nat
  len : Nat
  crc : Nat

/-- An open segment. -/
structure SegmentReader where
  name : String
  bytes : List UInt8
  fields : List Field
  rowGroups : List RowGroupMeta
  chunkRanges : List (List ChunkRange)
  indexes : List IndexEntry
  footerCrc : Nat

/-- A range of a `u64` offset and length that lies in the body. -/
def inBody (lo hi offset len : Nat) : Bool := offset + len < 2 ^ 64 && (lo ≤ offset && offset + len ≤ hi)

def openChunk (name : String) (footerStart : Nat) (chunk : RawChunk) (field : Field) : Except SegmentError (ChunkMeta × ChunkRange) :=
  match Encoding.fromId chunk.encoding with
  | none => .error (.unknownEncoding name field.name chunk.encoding)
  | some encoding => do
    ensure (encoding.appliesTo field.ty) (.malformed name (some field.name) "encoding does not apply to column type")
    ensure (inBody headerLen footerStart chunk.offset chunk.len) (.malformed name (some field.name) "chunk range out of bounds")
    return (⟨encoding, chunk.len, chunk.nullCount, chunk.min, chunk.max⟩, ⟨chunk.offset, chunk.len, chunk.crc⟩)

def openRowGroup (name : String) (footerStart : Nat) (fields : List Field) (rg : RawRowGroup) :
    Except SegmentError (RowGroupMeta × List ChunkRange) := do
  ensure (rg.rows ≤ maxDecodeRows) (.malformed name none "row group rows exceeds MAX_DECODE_ROWS")
  let chunks ← (rg.chunks.zip fields).mapM fun p => openChunk name footerStart p.1 p.2
  return (⟨rg.rows, chunks.map Prod.fst⟩, chunks.map Prod.snd)

def resolveColumn (segment : String) (fields : List Field) (kind : IndexKind) (c : Nat) : Except SegmentError Unit :=
  match fields[c]? with
  | none => .error (.malformed segment none "index entry column out of range")
  | some field => ensure (kind.appliesTo field.ty) (.malformed segment none "index kind does not apply to column type")

/-- An entry of a kind from the future is dropped before anything else of it is looked at. -/
def resolveEntry (segment : String) (fields : List Field) (rowGroups lo hi : Nat) (e : RawIndexEntry) :
    Except SegmentError (Option IndexEntry) :=
  match IndexKind.fromId e.kind with
  | none => .ok none
  | some kind => do
    ensure (e.rowGroup.all fun rg => decide (rg < rowGroups)) (.malformed segment none "index entry row group out of range")
    ensure (!e.columns.isEmpty) (.malformed segment none "index entry has no columns")
    e.columns.forM (resolveColumn segment fields kind)
    ensure (inBody lo hi e.offset e.len) (.malformed segment none "index entry range out of bounds")
    return some ⟨kind, e.rowGroup, e.columns, e.offset, e.len, e.crc⟩

def resolveEntries (segment : String) (fields : List Field) (rowGroups lo hi : Nat) (raw : List RawIndexEntry) :
    Except SegmentError (List IndexEntry) := do
  return (← raw.mapM (resolveEntry segment fields rowGroups lo hi)).filterMap id

namespace SegmentReader

/-- Trailer, header, footer, chunks and index entries, in that order. -/
def open_ (name : String) (bytes : List UInt8) : Except SegmentError SegmentReader := do
  let (start, stop) ← (readTrailer bytes segmentMagic headerLen).mapError (·.at_ name)
  checkHeader bytes segmentMagic name
  let footer ← (decodeFooter (between bytes start stop)).mapError fun e => e.err.at_ name e.column
  let groups ← footer.rowGroups.mapM (openRowGroup name start footer.fields)
  let indexes ← resolveEntries name footer.fields groups.length headerLen start footer.indexes
  return { name, bytes, fields := footer.fields, rowGroups := groups.map Prod.fst, chunkRanges := groups.map Prod.snd, indexes,
           footerCrc := crc32c (between bytes start stop) }

def rows (r : SegmentReader) : Nat := (r.rowGroups.map RowGroupMeta.rows).sum

/-- `none` is a panic, on a range out of bounds. -/
def slice? (bytes : List UInt8) (start stop : Nat) : Option (List UInt8) :=
  if start ≤ stop ∧ stop ≤ bytes.length then some (between bytes start stop) else none

/-- One chunk, once its checksum holds. `none` is a panic. -/
def readChunk (r : SegmentReader) (rowGroup : Nat) (group : RowGroupMeta) (column : Nat) (range : ChunkRange) :
    Option (Except SegmentError Physical.Column) := do
  let bytes ← slice? r.bytes range.offset (range.offset + range.len)
  let field ← r.fields[column]?
  if crc32c bytes ≠ range.crc then return .error (.corruptChunk r.name field.name rowGroup)
  let chunk ← group.chunks[column]?
  return do
    let col ← (Physical.Nulled.decodeColumn field.ty group.rows chunk.encoding.id bytes).mapError (·.at_ r.name (some field.name))
    if col.len ≠ group.rows then .error (.malformed r.name (some field.name) "decoded length does not match row group rows")
    else .ok col

def readColumn (r : SegmentReader) (rowGroup column : Nat) : Option (Except SegmentError Physical.Column) :=
  match r.rowGroups[rowGroup]? with
  | none => some (.error (.usage s!"row group {rowGroup} out of range"))
  | some group =>
    match r.chunkRanges[rowGroup]?.bind (·[column]?) with
    | none => some (.error (.usage s!"column {column} out of range"))
    | some range => r.readChunk rowGroup group column range

/-- An index of an entry of `r`, once its checksum holds. `none` is a panic. -/
def loadIndex (r : SegmentReader) (e : IndexEntry) : Option (Except SegmentError SkipIndex) := do
  let field ← e.columns.head?.bind (r.fields[·]?)
  let blob ← slice? r.bytes e.offset (e.offset + e.len)
  if crc32c blob ≠ e.crc then return .error (.corruptIndex r.name field.name e.kind)
  return (Adelie.loadIndex e.kind field.ty blob).mapError (·.at_ r.name (some field.name))

end SegmentReader

section Gives

open Cursor FooterCursor

variable {α β : Type} {good : α → Prop} {c : Option String}

theorem gives_loc {d : Cursor α} (yields : Yields d good) : Gives (loc c d) good := by
  intro b v rest made
  exact (yields b v rest (mapError_eq_ok made)).1

theorem gives_record {d : FooterCursor α} (gives : Gives d good) : Gives (FooterCursor.record d) good := by
  intro b v rest made
  obtain ⟨body, mid, _, made⟩ := bind_eq_ok made
  cases read : d body with
  | error e =>
    change (d body).map _ = _ at made
    rw [read] at made
    cases made
  | ok out =>
    change (d body).map _ = _ at made
    rw [read] at made
    cases made
    exact gives body _ _ read

theorem gives_repeatDecode {d : FooterCursor α} (gives : Gives d good) (n : Nat) :
    Gives (repeatDecode d n) fun vs => ∀ v ∈ vs, good v := by
  induction n with
  | zero => exact Gives.pure (by simp)
  | succ n ih =>
    refine gives.bind ?_
    intro v own
    refine ih.bind ?_
    intro vs others
    exact Gives.pure (List.forall_mem_cons.mpr ⟨own, others⟩)

theorem gives_mapM {f : α → FooterCursor β} {good : α → β → Prop} (each : ∀ a, Gives (f a) (good a)) (l : List α) :
    Gives (l.mapM f) fun vs => List.Forall₂ (fun v a => good a v) vs l := by
  induction l with
  | nil =>
    rw [List.mapM_nil]
    exact Gives.pure .nil
  | cons a l ih =>
    rw [List.mapM_cons]
    refine (each a).bind ?_
    intro v own
    refine ih.bind ?_
    intro vs others
    exact Gives.pure (.cons own others)

end Gives

/-- What a footer's reader vouches for of a chunk. -/
structure RawChunk.Read (rows : Nat) (ty : DataType) (chunk : RawChunk) : Prop where
  nulls : chunk.nullCount ≤ rows
  min : ∀ m, chunk.min = some m → m.HasType ty ∧ m.isNull = false
  max : ∀ m, chunk.max = some m → m.HasType ty ∧ m.isNull = false

section Footer

open Cursor FooterCursor

theorem yields_opt (ty : DataType) : Yields (decodeOpt ty) fun v => ∀ m, v = some m → m.HasType ty ∧ m.isNull = false := by
  apply (yields_nat 1).bind
  intro tag _
  split
  · exact Yields.pure (by simp)
  · apply (yields_value ty).bind
    intro v typed
    exact Yields.pure (by rintro _ ⟨⟩; exact typed)
  · exact Yields.fail _

theorem yields_chunk (ty : DataType) (rows : Nat) : Yields (readChunk ty rows) (RawChunk.Read rows ty) := by
  apply yields_uvarint.bind
  intro offset _
  apply yields_uvarint.bind
  intro len _
  apply (yields_nat 4).bind
  intro crc _
  apply yields_uvarint.bind
  intro encoding _
  apply yields_uvarint.bind
  intro nulls _
  split
  · exact Yields.fail _
  · rename_i few
    apply (yields_opt ty).bind
    intro min least
    apply (yields_opt ty).bind
    intro max most
    exact Yields.pure ⟨Nat.not_lt.mp few, least, most⟩

/-- A row group has a chunk for each field. -/
theorem gives_rowGroup (fields : List Field) : Gives (decodeRowGroup fields) fun rg =>
    List.Forall₂ (fun chunk (f : Field) => RawChunk.Read rg.rows f.ty chunk) rg.chunks fields := by
  unfold decodeRowGroup
  refine (gives_loc (c := none) yields_uvarint).bind ?_
  intro rows _
  have each : ∀ f : Field, Gives (decodeChunkMeta rows f) (RawChunk.Read rows f.ty) :=
    fun f => gives_loc (yields_record (yields_chunk f.ty rows))
  refine (gives_mapM each fields).bind ?_
  intro chunks read
  exact Gives.pure read

theorem gives_footer : Gives decodeFooterFrom fun f => ∀ rg ∈ f.rowGroups,
    List.Forall₂ (fun chunk (f : Field) => RawChunk.Read rg.rows f.ty chunk) rg.chunks f.fields := by
  have any : Gives decodeSchema fun _ => True := fun _ _ _ _ => trivial
  refine any.bind ?_
  intro fields _
  have groups : Gives (decodeRowGroups fields) fun groups => ∀ rg ∈ groups,
      List.Forall₂ (fun chunk (f : Field) => RawChunk.Read rg.rows f.ty chunk) rg.chunks fields := by
    apply gives_record
    refine (gives_loc (c := none) yields_uvarint).bind ?_
    intro n _
    refine (gives_loc (c := none) (yields_guardLen n 1)).bind ?_
    intro n _
    exact gives_repeatDecode (gives_record (gives_rowGroup fields)) n
  refine groups.bind ?_
  intro groups each
  have entries : Gives (loc none (Cursor.record decodeDirectory)) fun _ => True := fun _ _ _ _ => trivial
  refine entries.bind ?_
  intro entries _
  exact Gives.pure each

end Footer

/-- What `open_` vouches for of one chunk: its encoding is one of its type's, it lies in the body, its statistics are of the type. -/
structure ChunkMeta.Sound (rows stop : Nat) (f : Field) (chunk : ChunkMeta) (range : ChunkRange) : Prop where
  applies : chunk.encoding.appliesTo f.ty = true
  start : headerLen ≤ range.offset
  stop : range.offset + range.len ≤ stop
  nulls : chunk.nullCount ≤ rows
  min : ∀ m, chunk.min = some m → m.HasType f.ty ∧ m.isNull = false
  max : ∀ m, chunk.max = some m → m.HasType f.ty ∧ m.isNull = false

/-- A row group with a chunk, and a range, for each field. -/
structure RowGroupMeta.Sound (stop : Nat) (fields : List Field) (group : RowGroupMeta) (ranges : List ChunkRange) : Prop where
  rows : group.rows ≤ maxDecodeRows
  width : group.chunks.length = fields.length
  width' : ranges.length = fields.length
  chunks : ∀ (i : Nat) (f : Field) (chunk : ChunkMeta) (range : ChunkRange), fields[i]? = some f → group.chunks[i]? = some chunk → ranges[i]? = some range →
    chunk.Sound group.rows stop f range

structure IndexEntry.Sound (fields : List Field) (rowGroups stop : Nat) (e : IndexEntry) : Prop where
  rowGroup : ∀ g, e.rowGroup = some g → g < rowGroups
  some_ : e.columns ≠ []
  columns : ∀ c ∈ e.columns, ∃ f, fields[c]? = some f ∧ e.kind.appliesTo f.ty = true
  start : headerLen ≤ e.offset
  stop : e.offset + e.len ≤ stop

/-- What holds of every segment that was opened. -/
structure SegmentReader.Sound (r : SegmentReader) : Prop where
  count : r.rowGroups.length = r.chunkRanges.length
  body : ∃ stop, stop + trailerLen ≤ r.bytes.length ∧
    (∀ (g : Nat) (group : RowGroupMeta) (ranges : List ChunkRange), r.rowGroups[g]? = some group → r.chunkRanges[g]? = some ranges → group.Sound stop r.fields ranges) ∧
    ∀ e ∈ r.indexes, e.Sound r.fields r.rowGroups.length stop

section Open

variable {name : String} {stop : Nat} {fields : List Field} {bytes : List UInt8} {r : SegmentReader}

theorem inBody_iff {lo hi offset len : Nat} (inside : inBody lo hi offset len = true) : lo ≤ offset ∧ offset + len ≤ hi := by
  simp only [inBody, Bool.and_eq_true, decide_eq_true_eq] at inside
  exact inside.2

theorem openChunk_sound {rows : Nat} {chunk : RawChunk} {f : Field} {out : ChunkMeta × ChunkRange} (read : chunk.Read rows f.ty)
    (made : openChunk name stop chunk f = .ok out) : out.1.Sound rows stop f out.2 := by
  unfold openChunk at made
  split at made
  · cases made
  · obtain ⟨_, applies, made⟩ := Except.bind_eq_ok.mp made
    obtain ⟨_, inside, made⟩ := Except.bind_eq_ok.mp made
    cases made
    obtain ⟨low, high⟩ := inBody_iff (ensure_eq_ok.mp inside)
    exact ⟨ensure_eq_ok.mp applies, low, high, read.nulls, read.min, read.max⟩

theorem openRowGroup_sound {rg : RawRowGroup} {out : RowGroupMeta × List ChunkRange}
    (read : List.Forall₂ (fun chunk (f : Field) => RawChunk.Read rg.rows f.ty chunk) rg.chunks fields)
    (made : openRowGroup name stop fields rg = .ok out) : out.1.Sound stop fields out.2 := by
  unfold openRowGroup at made
  obtain ⟨_, few, made⟩ := Except.bind_eq_ok.mp made
  obtain ⟨chunks, each, made⟩ := Except.bind_eq_ok.mp made
  cases made
  have each := forall₂_of_mapM_except each
  have width := each.length_eq
  rw [List.length_zip, read.length_eq, Nat.min_self] at width
  refine ⟨of_decide_eq_true (ensure_eq_ok.mp few), by simp [width], by simp [width], ?_⟩
  intro i f chunk range at_ chunk_at range_at
  obtain ⟨inside, rfl⟩ := List.getElem?_eq_some_iff.mp at_
  have inside' : i < chunks.length := by omega
  have within : i < rg.chunks.length := by rw [read.length_eq]; exact inside
  rw [List.getElem?_map, List.getElem?_eq_getElem inside', Option.map_some, Option.some.injEq] at chunk_at range_at
  subst chunk_at
  subst range_at
  have made := each.get (by simp; omega) inside'
  simp only [List.get_eq_getElem, List.getElem_zip] at made
  exact openChunk_sound (read.get within inside) made

theorem resolveEntry_sound {rowGroups : Nat} {raw : RawIndexEntry} {e : IndexEntry}
    (made : resolveEntry name fields rowGroups headerLen stop raw = .ok (some e)) : e.Sound fields rowGroups stop := by
  unfold resolveEntry at made
  split at made
  · cases made
  · obtain ⟨_, group, made⟩ := Except.bind_eq_ok.mp made
    obtain ⟨_, some_, made⟩ := Except.bind_eq_ok.mp made
    obtain ⟨_, each, made⟩ := Except.bind_eq_ok.mp made
    obtain ⟨_, inside, made⟩ := Except.bind_eq_ok.mp made
    cases made
    obtain ⟨low, high⟩ := inBody_iff (ensure_eq_ok.mp inside)
    have group := ensure_eq_ok.mp group
    have some_ := ensure_eq_ok.mp some_
    refine ⟨?_, by simpa using some_, ?_, low, high⟩
    · intro g found
      dsimp only at found
      rw [found] at group
      simpa using group
    · intro c member
      have own := forM_eq_ok.mp each c member
      unfold resolveColumn at own
      split at own
      · cases own
      · rename_i f found
        exact ⟨f, found, ensure_eq_ok.mp own⟩

theorem readTrailer_bounds {magic : List UInt8} {headerLen start : Nat} (read : readTrailer bytes magic headerLen = .ok (start, stop)) :
    headerLen ≤ start ∧ start ≤ stop ∧ stop + trailerLen = bytes.length := by
  unfold readTrailer at read
  split at read
  · cases read
  · dsimp only at read
    split at read
    · cases read
    · split at read
      · cases read
      · split at read
        · cases read
        · split at read
          · cases read
          · cases read
            omega

/-- Everything that `open_` lets through is in bounds and of its type. -/
theorem open_sound (made : SegmentReader.open_ name bytes = .ok r) : r.Sound := by
  unfold SegmentReader.open_ at made
  obtain ⟨⟨start, stop⟩, framed, made⟩ := Except.bind_eq_ok.mp made
  obtain ⟨_, _, made⟩ := Except.bind_eq_ok.mp made
  obtain ⟨footer, decoded, made⟩ := Except.bind_eq_ok.mp made
  obtain ⟨groups, opened, made⟩ := Except.bind_eq_ok.mp made
  obtain ⟨indexes, resolved, made⟩ := Except.bind_eq_ok.mp made
  cases made
  obtain ⟨low, high, whole⟩ := readTrailer_bounds (mapError_eq_ok framed)
  have read : ∀ rg ∈ footer.rowGroups,
      List.Forall₂ (fun chunk (f : Field) => RawChunk.Read rg.rows f.ty chunk) rg.chunks footer.fields := by
    have decoded := mapError_eq_ok decoded
    unfold decodeFooter at decoded
    cases from_ : decodeFooterFrom (between bytes start stop) with
    | error e =>
      rw [from_] at decoded
      cases decoded
    | ok out =>
      rw [from_] at decoded
      cases decoded
      exact gives_footer _ _ _ from_
  have opened := forall₂_of_mapM_except opened
  have room : start + trailerLen ≤ bytes.length := by omega
  refine ⟨by simp, start, room, ?_, ?_⟩
  · intro g group ranges group_at ranges_at
    dsimp only at group_at ranges_at
    rw [List.getElem?_map] at group_at ranges_at
    obtain ⟨out, found, rfl⟩ := Option.map_eq_some_iff.mp group_at
    rw [found, Option.map_some, Option.some.injEq] at ranges_at
    subst ranges_at
    obtain ⟨inside, rfl⟩ := List.getElem?_eq_some_iff.mp found
    have within : g < footer.rowGroups.length := by rw [opened.length_eq]; exact inside
    exact openRowGroup_sound (read _ (List.getElem_mem within)) (opened.get within inside)
  · intro e member
    dsimp only at member ⊢
    rw [List.length_map]
    unfold resolveEntries at resolved
    obtain ⟨entries, each, resolved⟩ := Except.bind_eq_ok.mp resolved
    cases resolved
    obtain ⟨e', listed, same⟩ := List.mem_filterMap.mp member
    subst same
    have each := forall₂_of_mapM_except each
    obtain ⟨i, inside, found⟩ := List.mem_iff_getElem.mp listed
    have within : i < footer.indexes.length := by rw [each.length_eq]; exact inside
    have own := each.get within inside
    rw [List.get_eq_getElem, List.get_eq_getElem, found] at own
    exact resolveEntry_sound own

/-- Where a chunk is in bounds it is read without a panic, and what is read of it is of its type. -/
theorem SegmentReader.Sound.readColumn (sound : r.Sound) (g i : Nat) : ∃ out, r.readColumn g i = some out ∧
    (r.rowGroups.length ≤ g ∨ r.fields.length ≤ i → ∃ message, out = .error (.usage message)) ∧
    ∀ col, out = .ok col → ∃ group f, r.rowGroups[g]? = some group ∧ r.fields[i]? = some f ∧ col.ty = f.ty ∧
      col.cells.length = group.rows ∧ ∀ cell ∈ col.cells, Physical.Typed f.ty cell := by
  obtain ⟨stop, room, groups, _⟩ := sound.body
  unfold SegmentReader.readColumn
  cases group_at : r.rowGroups[g]? with
  | none =>
    refine ⟨_, rfl, fun _ => ⟨_, rfl⟩, ?_⟩
    rintro col ⟨⟩
  | some group =>
    obtain ⟨inside, _⟩ := List.getElem?_eq_some_iff.mp group_at
    obtain ⟨ranges, ranges_at⟩ : ∃ ranges, r.chunkRanges[g]? = some ranges :=
      ⟨_, List.getElem?_eq_getElem (by rw [← sound.count]; exact inside)⟩
    have own := groups g group ranges group_at ranges_at
    have width := own.width
    have width' := own.width'
    dsimp only
    rw [ranges_at, Option.bind_some]
    cases range_at : ranges[i]? with
    | none =>
      refine ⟨_, rfl, fun _ => ⟨_, rfl⟩, ?_⟩
      rintro col ⟨⟩
    | some range =>
      obtain ⟨within, _⟩ := List.getElem?_eq_some_iff.mp range_at
      obtain ⟨f, field_at⟩ : ∃ f, r.fields[i]? = some f := ⟨_, List.getElem?_eq_getElem (by omega)⟩
      obtain ⟨chunk, chunk_at⟩ : ∃ chunk, group.chunks[i]? = some chunk := ⟨_, List.getElem?_eq_getElem (by omega)⟩
      have bounds := own.chunks i f chunk range field_at chunk_at range_at
      have stop_ := bounds.stop
      have cut : SegmentReader.slice? r.bytes range.offset (range.offset + range.len) =
          some (between r.bytes range.offset (range.offset + range.len)) := if_pos (by omega)
      have past : ¬ (r.rowGroups.length ≤ g ∨ r.fields.length ≤ i) := by omega
      dsimp only
      unfold SegmentReader.readChunk
      rw [cut, field_at, chunk_at]
      by_cases crc : crc32c (between r.bytes range.offset (range.offset + range.len)) = range.crc
      · refine ⟨_, if_neg (by simpa using crc), fun out => absurd out past, ?_⟩
        intro col read
        obtain ⟨col', decoded, read⟩ := Except.bind_eq_ok.mp read
        split at read
        · cases read
        · cases read
          obtain ⟨own, typed, count, _⟩ := Physical.Nulled.decodeColumn_sound (mapError_eq_ok decoded)
          refine ⟨group, f, rfl, rfl, typed, ?_, ?_⟩
          · rw [Physical.Nulled.length_cells, count]
          · rw [← typed]
            exact Physical.Nulled.typed_cells own.data.typed
      · refine ⟨_, if_pos (by simpa using crc), fun out => absurd out past, ?_⟩
        rintro col ⟨⟩

/-- A segment of one row. -/
def oneSeven : List UInt8 :=
  let chunk := 0 :: leBytes 8 7
  let footer := (encodeFooter ⟨[⟨"n", .int64⟩], [⟨1, [⟨8, 9, crc32c chunk, 0, 0, none, none⟩]⟩], []⟩).getD []
  segmentMagic ++ formatVersion ++ chunk ++ footer ++ Sink.u32 footer.length ++ Sink.u32 (crc32c footer) ++ segmentMagic ++ formatVersion

end Open

end Adelie
