import Adelie.Exec.Joined
import Adelie.Segment.Index

namespace Adelie

def defaultRowGroupRows : Nat := 65536

inductive Encoding where
  | plain | dict | rle | frameOfRef | delta | deltaOfDelta | xor
deriving DecidableEq, Repr

namespace Encoding

def id : Encoding → Nat
  | .plain => 0
  | .dict => 1
  | .rle => 2
  | .frameOfRef => 3
  | .delta => 4
  | .deltaOfDelta => 5
  | .xor => 6

def debug : Encoding → String
  | .plain => "Plain"
  | .dict => "Dict"
  | .rle => "Rle"
  | .frameOfRef => "For"
  | .delta => "Delta"
  | .deltaOfDelta => "DeltaOfDelta"
  | .xor => "Xor"

/-- PLAIN applies to everything, the others to no LIST. -/
def appliesTo : Encoding → DataType → Bool
  | .plain, _ => true
  | .dict, .string | .dict, .bytes => true
  | .rle, .bool => true
  | .rle, .int64 | .rle, .uint64 | .rle, .timestamp | .rle, .date => true
  | .frameOfRef, .int64 | .frameOfRef, .uint64 | .frameOfRef, .timestamp | .frameOfRef, .date => true
  | .delta, .int64 | .delta, .uint64 | .delta, .timestamp | .delta, .date => true
  | .deltaOfDelta, .int64 | .deltaOfDelta, .uint64 | .deltaOfDelta, .timestamp | .deltaOfDelta, .date => true
  | .xor, .float64 => true
  | _, _ => false

end Encoding

namespace IndexKind

def id : IndexKind → Nat
  | .bloom => 1
  | .valueSet => 2
  | .ngram => 3

def debug : IndexKind → String
  | .bloom => "Bloom"
  | .valueSet => "ValueSet"
  | .ngram => "Ngram"

def appliesTo : IndexKind → DataType → Bool
  | .ngram, t => t = .string
  | _, .list _ => false
  | _, .scalar _ => true

end IndexKind

structure RawChunk where
  offset : Nat
  len : Nat
  crc : Nat
  encoding : Nat
  nullCount : Nat
  min : Option Value
  max : Option Value

structure RawRowGroup where
  rows : Nat
  chunks : List RawChunk

structure RawIndexEntry where
  kind : Nat
  rowGroup : Option Nat
  columns : List Nat
  offset : Nat
  len : Nat
  crc : Nat
  params : List UInt8

structure SegmentFooter where
  fields : List Field
  rowGroups : List RawRowGroup
  indexes : List RawIndexEntry

structure WriterOptions where
  rowGroupRows : Nat
  pins : List (String × Encoding)
  indexes : List (String × IndexKind)

/-- A finished segment's summary, with each column's statistics over the whole segment. -/
structure SegmentMeta where
  rows : Nat
  rowGroups : Nat
  bytes : Nat
  footerCrc : Nat
  columns : List ColumnStats

inductive WriterError where
  | io (message : String)
  | usage (message : String)
  /-- Misuse whose text prints both lists for a programmer. -/
  | fieldMismatch (batch writer : List Field)
deriving DecidableEq, Repr

/-- Where the bytes go and how they are made: the sink, the chunk and footer codecs, the checksum and a column's size in
    memory. -/
structure SegmentCodec where
  refuses : List UInt8 → List UInt8 → Option String
  encodeColumn : Column → Option Encoding → Encoding × List UInt8
  buildIndex : IndexKind → Column → Option (List UInt8)
  encodeFooter : SegmentFooter → List UInt8
  crc32c : List UInt8 → Nat
  byteSize : Column → Nat

def segmentMagic : List UInt8 := [0x41, 0x44, 0x4C, 0x53, 0x45, 0x47]

def formatVersion : List UInt8 := leBytes 2 1

/-- The footer's length and checksum, then magic and version once more. -/
def SegmentCodec.trailer (K : SegmentCodec) (footer : List UInt8) : List UInt8 :=
  footer ++ Sink.u32 (footer.length % 2 ^ 32) ++ Sink.u32 (K.crc32c footer) ++ segmentMagic ++ formatVersion

/-- The bytes a sink has taken, and the writer's own count of them. -/
structure SegmentOut where
  out : List UInt8
  pos : Nat

def SegmentOut.writeAll (K : SegmentCodec) (o : SegmentOut) (bytes : List UInt8) : Except WriterError SegmentOut :=
  match K.refuses o.out bytes with
  | some message => .error (.io message)
  | none => .ok ⟨o.out ++ bytes, o.pos + bytes.length⟩

/-- One entry of the writer's `fields`, `pins`, `pending` and `stats`, which run side by side. -/
structure WriterColumn where
  field : Field
  pin : Option Encoding
  pending : List Column
  stats : StatsAcc

structure SegmentWriter where
  file : SegmentOut
  columns : List WriterColumn
  opts : WriterOptions
  pendingRows : Nat
  rowGroups : List RawRowGroup
  indexes : List RawIndexEntry
  indexReqs : List (Nat × IndexKind)

/-- What a flush has made of one column. -/
structure FlushedColumn where
  column : WriterColumn
  chunk : RawChunk
  col : Column

/-- `ColumnError` as it prints. -/
def concatMessage : ExecError → String
  | .plan message => message
  | _ => ""

section Write

variable (K : SegmentCodec)

/-- The chunk of one column, and its statistics folded into the segment's. -/
def WriterColumn.flush (o : SegmentOut) (c : WriterColumn) : Except WriterError (SegmentOut × FlushedColumn) := do
  let col ← (Column.concat c.field.ty c.pending).mapError fun e =>
    .usage s!"column {c.field.name}: {concatMessage e}"
  ensure (K.byteSize col ≤ maxDecodeBytes) (.usage s!"column {c.field.name}: row group holds {K.byteSize col} bytes, over the {maxDecodeBytes}-byte chunk cap; lower row_group_rows")
  let (enc, bytes) := K.encodeColumn col c.pin
  let o' ← o.writeAll K bytes
  let (min, max) := boundStats col.stats
  let chunk : RawChunk :=
    { offset := o.pos
      len := bytes.length
      crc := K.crc32c bytes
      encoding := enc.id
      nullCount := col.stats.nullCount
      min := min
      max := max }
  return (o', ⟨{ c with pending := [], stats := c.stats.merge col.stats min max }, chunk, col⟩)

def flushColumns : SegmentOut → List WriterColumn → Except WriterError (SegmentOut × List FlushedColumn)
  | o, [] => .ok (o, [])
  | o, c :: rest => do
    let (o, first) ← c.flush K o
    let (o, others) ← flushColumns o rest
    return (o, first :: others)

/-- One blob for each index asked for that its column can have. -/
def flushIndexes (rowGroup : Nat) (cols : List Column) :
    SegmentOut → List (Nat × IndexKind) → Except WriterError (SegmentOut × List RawIndexEntry)
  | o, [] => .ok (o, [])
  | o, (ordinal, kind) :: rest =>
    match (cols[ordinal]?).bind (K.buildIndex kind) with
    | none => flushIndexes rowGroup cols o rest
    | some blob => do
      let o' ← o.writeAll K blob
      let (last, entries) ← flushIndexes rowGroup cols o' rest
      return (last, ⟨kind.id, some rowGroup, [ordinal], o.pos, blob.length, K.crc32c blob, []⟩ :: entries)

namespace SegmentWriter

def fields (w : SegmentWriter) : List Field := w.columns.map WriterColumn.field

/-- Every column's chunk in schema order, then the row group's indexes. An error leaves a writer its callers drop. -/
def flush (w : SegmentWriter) : Except WriterError SegmentWriter := do
  if w.pendingRows = 0 then return w
  let (o, done) ← flushColumns K w.file w.columns
  let (o, entries) ← flushIndexes K w.rowGroups.length (done.map FlushedColumn.col) o w.indexReqs
  return { w with
    file := o
    columns := done.map FlushedColumn.column
    pendingRows := 0
    rowGroups := w.rowGroups ++ [⟨w.pendingRows, done.map FlushedColumn.chunk⟩]
    indexes := w.indexes ++ entries }

def buffer (w : SegmentWriter) (b : ColumnBatch) : SegmentWriter :=
  { w with
    columns := List.zipWith (fun c col => { c with pending := c.pending ++ [col] }) w.columns b.columns
    pendingRows := w.pendingRows + b.rows }

/-- Batches are never split: a row group is flushed once enough rows are there. -/
def push (w : SegmentWriter) (b : ColumnBatch) : Except WriterError SegmentWriter := do
  ensure (b.fields = w.fields) (.fieldMismatch b.fields w.fields)
  if b.rows = 0 then return w
  if w.opts.rowGroupRows ≤ w.pendingRows + b.rows then (w.buffer b).flush K else return w.buffer b

def footer (w : SegmentWriter) : SegmentFooter := ⟨w.fields, w.rowGroups, w.indexes⟩

def finish (w : SegmentWriter) : Except WriterError (List UInt8 × SegmentMeta) := do
  let w ← w.flush K
  let footer := K.encodeFooter w.footer
  let o ← w.file.writeAll K (K.trailer footer)
  return (o.out, ⟨(w.rowGroups.map RawRowGroup.rows).sum, w.rowGroups.length, o.pos, K.crc32c footer,
    w.columns.map fun c => c.stats.finish⟩)

end SegmentWriter

def resolvePin (fields : List Field) (resolved : List (Option Encoding)) (pin : String × Encoding) :
    Except WriterError (List (Option Encoding)) :=
  match fields.findIdx? (·.name = pin.1) with
  | none => .error (.usage s!"pin names unknown column {pin.1}")
  | some i => do
    ensure ((fields[i]?.map fun f => pin.2.appliesTo f.ty).getD false)
      (.usage s!"pin encoding {pin.2.debug} does not apply to column {pin.1}")
    return resolved.set i (some pin.2)

/-- The last pin of a column counts. -/
def resolvePins (fields : List Field) (pins : List (String × Encoding)) : Except WriterError (List (Option Encoding)) :=
  pins.foldlM (resolvePin fields) (fields.map fun _ => none)

def resolveIndexes (fields : List Field) (indexes : List (String × IndexKind)) :
    Except WriterError (List (Nat × IndexKind)) :=
  indexes.mapM fun (name, kind) =>
    match fields.findIdx? (·.name = name) with
    | none => .error (.usage s!"index names unknown column {name}")
    | some i => do
      ensure ((fields[i]?.map fun f => kind.appliesTo f.ty).getD false)
        (.usage s!"index kind {kind.debug} does not apply to column {name}")
      return (i, kind)

namespace SegmentWriter

/-- Checks the options and the names, then writes the header. -/
def new (fields : List Field) (opts : WriterOptions) : Except WriterError SegmentWriter := do
  ensure (0 < opts.rowGroupRows ∧ opts.rowGroupRows ≤ maxDecodeRows)
    (.usage s!"row_group_rows must be in 1..={maxDecodeRows}, got {opts.rowGroupRows}")
  match repeatedName fields with
  | some name => .error (.usage s!"duplicate field name {name}")
  | none =>
    let pins ← resolvePins fields opts.pins
    let indexReqs ← resolveIndexes fields opts.indexes
    let file ← SegmentOut.writeAll K ⟨[], 0⟩ (segmentMagic ++ formatVersion)
    return ⟨file, List.zipWith (fun f pin => ⟨f, pin, [], .new⟩) fields pins, opts, 0, [], [], indexReqs⟩

/-- A segment written from first to last, every step of it a success. -/
def write (fields : List Field) (opts : WriterOptions) (batches : List ColumnBatch) :
    Except WriterError (List UInt8 × SegmentMeta) := do
  let w ← new K fields opts
  let w ← batches.foldlM (push K) w
  w.finish K

end SegmentWriter

end Write

section Holds

variable {K : SegmentCodec} {fields : List Field}

/-- What a column's entry holds: the row groups behind it and the batches it waits for. -/
structure WriterColumn.Holds (c : WriterColumn) (f : Field) (i : Nat) (groups : List (List ColumnBatch))
    (held : List ColumnBatch) : Prop where
  field : c.field = f
  pending : c.pending.flatMap Column.cells = stacked held i
  stats : c.stats = (groups.map fun g => (⟨f.ty, stacked g i⟩ : Column)).foldl StatsAcc.push .new

/-- A chunk whose footer entry is the zone map of its cells. -/
def RawChunk.Of (chunk : RawChunk) (f : Field) (i : Nat) (g : List ColumnBatch) : Prop :=
  chunk.nullCount = (Column.zoneMap ⟨f.ty, stacked g i⟩).nullCount ∧
    chunk.min = (Column.zoneMap ⟨f.ty, stacked g i⟩).min ∧ chunk.max = (Column.zoneMap ⟨f.ty, stacked g i⟩).max

def RawRowGroup.Of (fields : List Field) (rg : RawRowGroup) (g : List ColumnBatch) : Prop :=
  rg.rows = (g.map ColumnBatch.rows).sum ∧
    List.Forall₂ (fun (chunk : RawChunk) (f : Field × Nat) => chunk.Of f.1 f.2 g) rg.chunks fields.zipIdx

theorem WriterColumn.Holds.flush {c : WriterColumn} {f : Field} {i : Nat} {groups : List (List ColumnBatch)}
    {held : List ColumnBatch} (holds : c.Holds f i groups held) {o o' : SegmentOut} {done : FlushedColumn}
    (made : c.flush K o = .ok (o', done)) :
    done.column.Holds f i (groups ++ [held]) [] ∧ done.chunk.Of f i held := by
  unfold WriterColumn.flush at made
  obtain ⟨col, concat, made⟩ := Except.bind_eq_ok.mp made
  obtain ⟨_, _, made⟩ := Except.bind_eq_ok.mp made
  obtain ⟨o₁, _, made⟩ := Except.bind_eq_ok.mp made
  cases made
  obtain ⟨rfl, -⟩ := Column.concat_ok (mapError_eq_ok concat)
  have cells : (⟨c.field.ty, c.pending.flatMap Column.cells⟩ : Column) = ⟨f.ty, stacked held i⟩ := by
    rw [holds.field, holds.pending]
  refine ⟨⟨holds.field, rfl, ?_⟩, ?_⟩
  · rw [List.map_append, List.foldl_append, ← holds.stats, cells]
    rfl
  · rw [cells]
    exact ⟨rfl, rfl, rfl⟩

theorem flushColumns_holds {columns : List WriterColumn} {slots : List (Field × Nat)} {groups : List (List ColumnBatch)}
    {held : List ColumnBatch} (holds : List.Forall₂ (fun c f => c.Holds f.1 f.2 groups held) columns slots)
    {o o' : SegmentOut} {done : List FlushedColumn} (made : flushColumns K o columns = .ok (o', done)) :
    List.Forall₂ (fun c f => c.Holds f.1 f.2 (groups ++ [held]) []) (done.map FlushedColumn.column) slots ∧
      List.Forall₂ (fun chunk f => chunk.Of f.1 f.2 held) (done.map FlushedColumn.chunk) slots := by
  induction holds generalizing o done with
  | nil =>
    cases made
    exact ⟨.nil, .nil⟩
  | cons head _ ih =>
    unfold flushColumns at made
    obtain ⟨⟨o₁, first⟩, one_, made⟩ := Except.bind_eq_ok.mp made
    obtain ⟨⟨o₂, others⟩, rest, made⟩ := Except.bind_eq_ok.mp made
    cases made
    obtain ⟨column, chunk⟩ := head.flush one_
    obtain ⟨columns, chunks⟩ := ih rest
    exact ⟨.cons column columns, .cons chunk chunks⟩

theorem resolvePins_length {pins : List (String × Encoding)} {start resolved : List (Option Encoding)}
    (made : pins.foldlM (resolvePin fields) start = .ok resolved) : resolved.length = start.length := by
  induction pins generalizing start with
  | nil =>
    cases made
    rfl
  | cons p rest ih =>
    rw [List.foldlM_cons] at made
    obtain ⟨next, first, made⟩ := Except.bind_eq_ok.mp made
    rw [ih made]
    unfold resolvePin at first
    split at first
    · cases first
    · obtain ⟨_, _, first⟩ := Except.bind_eq_ok.mp first
      cases first
      exact List.length_set

/-- What a writer holds: whole batches in each row group, and those it waits for. -/
structure SegmentWriter.Holds (w : SegmentWriter) (fields : List Field) (groups : List (List ColumnBatch))
    (held : List ColumnBatch) : Prop where
  columns : List.Forall₂ (fun c f => c.Holds f.1 f.2 groups held) w.columns fields.zipIdx
  rowGroups : List.Forall₂ (RawRowGroup.Of fields) w.rowGroups groups
  pendingRows : w.pendingRows = (held.map ColumnBatch.rows).sum

namespace SegmentWriter.Holds

variable {w w' : SegmentWriter} {groups : List (List ColumnBatch)} {held : List ColumnBatch}

theorem fields_eq (holds : w.Holds fields groups held) : w.fields = fields := by
  have names : List.Forall₂ (· = ·) w.fields (fields.zipIdx.map Prod.fst) := by
    rw [SegmentWriter.fields, List.forall₂_map_left_iff, List.forall₂_map_right_iff]
    exact holds.columns.imp fun c f entry => entry.field
  rw [List.forall₂_eq_eq_eq, List.zipIdx_map_fst] at names
  exact names

/-- Either nothing was waiting, or what was is a row group now. -/
theorem flush (holds : w.Holds fields groups held) (made : w.flush K = .ok w') :
    w'.opts = w.opts ∧ ((held.map ColumnBatch.rows).sum = 0 ∧ w' = w ∨ w'.Holds fields (groups ++ [held]) []) := by
  unfold SegmentWriter.flush at made
  split at made
  · rename_i none_
    cases made
    exact ⟨rfl, .inl ⟨by rw [← holds.pendingRows, none_], rfl⟩⟩
  · obtain ⟨⟨o, done⟩, chunks, made⟩ := Except.bind_eq_ok.mp made
    obtain ⟨⟨o', entries⟩, _, made⟩ := Except.bind_eq_ok.mp made
    cases made
    obtain ⟨columns, laid⟩ := flushColumns_holds holds.columns chunks
    refine ⟨rfl, .inr ⟨columns, ?_, rfl⟩⟩
    exact List.rel_append holds.rowGroups (.cons ⟨holds.pendingRows, laid⟩ .nil)

theorem buffer (holds : w.Holds fields groups held) {b : ColumnBatch} (shaped : b.Shaped fields) :
    (w.buffer b).Holds fields groups (held ++ [b]) := by
  refine ⟨?_, holds.rowGroups, ?_⟩
  · have width := shaped.typed.length_eq
    have slots := holds.columns.length_eq
    rw [List.length_zipIdx] at slots
    rw [List.forall₂_iff_get]
    refine ⟨by simp [SegmentWriter.buffer, width, slots], ?_⟩
    intro i left right
    have inside : i < fields.length := by simpa using right
    have entry := holds.columns.get (by omega) right
    simp only [List.get_eq_getElem, List.getElem_zipIdx, Nat.zero_add] at entry ⊢
    simp only [SegmentWriter.buffer, List.getElem_zipWith]
    refine ⟨entry.field, ?_, entry.stats⟩
    have within : i < b.columns.length := by omega
    have at_ : b.columns[i]? = some b.columns[i] := List.getElem?_eq_getElem within
    rw [List.flatMap_append, entry.pending]
    simp [stacked, at_]
  · simp [SegmentWriter.buffer, holds.pendingRows]

/-- A batch without rows is left out, any other waits or closes a row group. -/
theorem push (holds : w.Holds fields groups held) {b : ColumnBatch} (sound : b.Sound)
    (made : w.push K b = .ok w') :
    ∃ groups' held', w'.Holds fields groups' held' ∧
      groups'.flatten ++ held' = groups.flatten ++ held ++ if b.rows = 0 then [] else [b] := by
  unfold SegmentWriter.push at made
  obtain ⟨_, named, made⟩ := Except.bind_eq_ok.mp made
  have shaped := sound.shaped ((of_decide_eq_true (ensure_eq_ok.mp named)).trans holds.fields_eq)
  split at made
  · rename_i empty
    cases made
    exact ⟨groups, held, holds, by simp [empty]⟩
  · rename_i some_
    split at made
    · obtain ⟨_, ⟨none_, _⟩ | flushed⟩ := (holds.buffer shaped).flush made
      · simp only [List.map_append, List.sum_append, List.map_singleton, List.sum_singleton] at none_
        omega
      · exact ⟨_, _, flushed, by simp [some_]⟩
    · cases made
      exact ⟨groups, held ++ [b], holds.buffer shaped, by simp [some_]⟩

/-- Batches pushed one after another. -/
theorem pushes {batches : List ColumnBatch} (sound : ∀ b ∈ batches, b.Sound) (holds : w.Holds fields groups held)
    (made : batches.foldlM (SegmentWriter.push K) w = .ok w') :
    ∃ groups' held', w'.Holds fields groups' held' ∧
      groups'.flatten ++ held' = groups.flatten ++ held ++ batches.filter (·.rows ≠ 0) := by
  induction batches generalizing w groups held with
  | nil =>
    cases made
    exact ⟨groups, held, holds, by simp⟩
  | cons b rest ih =>
    rw [List.forall_mem_cons] at sound
    rw [List.foldlM_cons] at made
    obtain ⟨w₁, first, made⟩ := Except.bind_eq_ok.mp made
    obtain ⟨groups₁, held₁, holds₁, kept⟩ := holds.push sound.1 first
    obtain ⟨groups₂, held₂, holds₂, all⟩ := ih sound.2 holds₁ made
    refine ⟨groups₂, held₂, holds₂, ?_⟩
    rw [all, kept, List.append_assoc]
    by_cases empty : b.rows = 0 <;> simp [empty]

theorem new {opts : WriterOptions} (made : SegmentWriter.new K fields opts = .ok w) : w.Holds fields [] [] := by
  unfold SegmentWriter.new at made
  obtain ⟨_, _, made⟩ := Except.bind_eq_ok.mp made
  split at made
  · cases made
  · obtain ⟨pins, resolved, made⟩ := Except.bind_eq_ok.mp made
    obtain ⟨requests, _, made⟩ := Except.bind_eq_ok.mp made
    obtain ⟨file, _, made⟩ := Except.bind_eq_ok.mp made
    cases made
    have width := resolvePins_length resolved
    rw [List.length_map] at width
    refine ⟨?_, .nil, rfl⟩
    rw [List.forall₂_iff_get]
    refine ⟨by simp [width], ?_⟩
    intro i left right
    simp only [List.get_eq_getElem, List.getElem_zipIdx, Nat.zero_add, List.getElem_zipWith]
    exact ⟨rfl, rfl, rfl⟩

end SegmentWriter.Holds

end Holds

/-- Statistics that are true of these cells under the total order. -/
structure Recorded (stats : ColumnStats) (cells : List Value) : Prop where
  rows : stats.rows = cells.length
  nulls : stats.nullCount = cells.countP (·.isNull)
  min : ∀ m, stats.min = some m → ∀ v ∈ cells, v.isNull = false → ∃ o, totalCmp m v = some o ∧ o.isLE
  max : ∀ m, stats.max = some m → ∀ v ∈ cells, v.isNull = false → ∃ o, totalCmp v m = some o ∧ o.isLE

theorem AtMost.totalCmp {a b : Value} (le : AtMost a b) : ∃ o, Adelie.totalCmp a b = some o ∧ o.isLE := by
  obtain ⟨o, made, below⟩ := le
  refine ⟨o, ?_, below⟩
  cases a with
  | list items => cases b <;> cases made
  | _ => rw [Adelie.totalCmp, made]; simp

theorem Bounds.recorded {stats : ColumnStats} {cells : List Value} (bounds : Bounds stats cells) : Recorded stats cells :=
  ⟨bounds.rows, bounds.nulls, fun m made v member value => (bounds.min m made v member value).totalCmp,
    fun m made v member value => (bounds.max m made v member value).totalCmp⟩

section Recording

variable {K : SegmentCodec} {fields : List Field}

theorem stacked_typed {batches : List ColumnBatch} (sound : ∀ b ∈ batches, b.fields = fields ∧ b.Sound) {i : Nat}
    {f : Field} (at_ : fields[i]? = some f) : ∀ v ∈ stacked batches i, v.HasType f.ty := by
  intro v member
  obtain ⟨b, of, inside⟩ := List.mem_flatMap.mp member
  obtain ⟨rfl, whole⟩ := sound b of
  obtain ⟨within, rfl⟩ := List.getElem?_eq_some_iff.mp at_
  have within' : i < b.columns.length := by rw [whole.typed.length_eq]; exact within
  rw [List.getElem?_eq_getElem within', Option.map_some, Option.getD_some] at inside
  have ty : b.columns[i].ty = b.fields[i].ty := whole.typed.get within' within
  rw [← ty]
  exact (whole.columns _ (List.getElem_mem within')).typed v inside

/-- A row group's entries are true of its batches. -/
theorem RawRowGroup.Of.recorded {rg : RawRowGroup} {g : List ColumnBatch} (of : rg.Of fields g)
    (sound : ∀ b ∈ g, b.fields = fields ∧ b.Sound) :
    rg.rows = (g.flatMap ColumnBatch.toRows).length ∧
      List.Forall₂ (fun (chunk : RawChunk) (f : Field × Nat) =>
        Recorded ⟨rg.rows, chunk.nullCount, chunk.min, chunk.max⟩ (stacked g f.2)) rg.chunks fields.zipIdx := by
  have shaped : ∀ b ∈ g, b.Shaped fields := fun b member => (sound b member).2.shaped (sound b member).1
  have rows : rg.rows = (g.map ColumnBatch.rows).sum := of.1
  refine ⟨by simp [rows, List.length_flatMap, ColumnBatch.toRows], ?_⟩
  rw [List.forall₂_iff_get]
  refine ⟨of.2.length_eq, ?_⟩
  intro i left right
  obtain ⟨nulls, min, max⟩ := of.2.get left right
  have inside : i < fields.length := by simpa using right
  have lengths := (stacked_rows shaped).2 i inside
  simp only [List.get_eq_getElem, List.getElem_zipIdx, Nat.zero_add] at nulls min max ⊢
  have bounds := zoneMap_bounds (c := ⟨fields[i].ty, stacked g i⟩) (stacked_typed sound (List.getElem?_eq_getElem inside))
  have same : (⟨rg.rows, rg.chunks[i].nullCount, rg.chunks[i].min, rg.chunks[i].max⟩ : ColumnStats) =
      Column.zoneMap ⟨fields[i].ty, stacked g i⟩ := by
    rw [nulls, min, max, rows, ← lengths]
    rfl
  rw [same]
  exact bounds.recorded

theorem stacked_filter {batches : List ColumnBatch} (sound : ∀ b ∈ batches, b.Sound) (i : Nat) :
    stacked (batches.filter (·.rows ≠ 0)) i = stacked batches i := by
  induction batches with
  | nil => rfl
  | cons b rest ih =>
    rw [List.forall_mem_cons] at sound
    have rest_eq := ih sound.2
    by_cases empty : b.rows = 0
    · have none_ : (b.columns[i]?.map Column.cells).getD [] = [] := by
        cases at_ : b.columns[i]? with
        | none => rfl
        | some c =>
          have length := sound.1.even c (List.mem_of_getElem? at_)
          rw [empty] at length
          exact List.eq_nil_of_length_eq_zero length
      rw [List.filter_cons_of_neg (by simpa using empty), rest_eq]
      simp [stacked, none_]
    · rw [List.filter_cons_of_pos (by simpa using empty)]
      simp only [stacked, List.flatMap_cons] at rest_eq ⊢
      rw [rest_eq]

theorem toRows_filter (batches : List ColumnBatch) :
    (batches.filter (·.rows ≠ 0)).flatMap ColumnBatch.toRows = batches.flatMap ColumnBatch.toRows := by
  induction batches with
  | nil => rfl
  | cons b rest ih =>
    by_cases empty : b.rows = 0
    · have none_ : b.toRows = [] := by simp [ColumnBatch.toRows, empty]
      rw [List.filter_cons_of_neg (by simpa using empty), ih, List.flatMap_cons, none_, List.nil_append]
    · rw [List.filter_cons_of_pos (by simpa using empty), List.flatMap_cons, List.flatMap_cons, ih]

/-- A finished segment's batches have the fields it was opened with. -/
theorem push_fields {w w' : SegmentWriter} {b : ColumnBatch} {groups : List (List ColumnBatch)} {held : List ColumnBatch}
    (holds : w.Holds fields groups held) (made : w.push K b = .ok w') : b.fields = fields := by
  obtain ⟨_, named, _⟩ := Except.bind_eq_ok.mp made
  exact (of_decide_eq_true (ensure_eq_ok.mp named)).trans holds.fields_eq

theorem pushes_fields {w w' : SegmentWriter} {batches : List ColumnBatch} {groups : List (List ColumnBatch)}
    {held : List ColumnBatch} (sound : ∀ b ∈ batches, b.Sound) (holds : w.Holds fields groups held)
    (made : batches.foldlM (SegmentWriter.push K) w = .ok w') : ∀ b ∈ batches, b.fields = fields := by
  induction batches generalizing w groups held with
  | nil => simp
  | cons b rest ih =>
    rw [List.forall_mem_cons] at sound ⊢
    rw [List.foldlM_cons] at made
    obtain ⟨w₁, first, made⟩ := Except.bind_eq_ok.mp made
    obtain ⟨groups₁, held₁, holds₁, _⟩ := holds.push sound.1 first
    exact ⟨push_fields holds first, ih sound.2 holds₁ made⟩

/-- Once nothing waits, every batch is in a row group and each column's statistics are those of its row groups. -/
theorem SegmentWriter.Holds.flushed {w w' : SegmentWriter} {groups : List (List ColumnBatch)} {held : List ColumnBatch}
    (holds : w.Holds fields groups held) (some_ : ∀ b ∈ held, b.rows ≠ 0) (made : w.flush K = .ok w') :
    ∃ groups', w'.Holds fields groups' [] ∧ groups'.flatten = groups.flatten ++ held := by
  obtain ⟨_, ⟨none_, rfl⟩ | flushed⟩ := holds.flush made
  · have empty : held = [] := by
      apply List.eq_nil_iff_forall_not_mem.mpr
      intro b member
      have := List.single_le_sum (by simp) b.rows (List.mem_map_of_mem (f := ColumnBatch.rows) member)
      have := some_ b member
      omega
    subst empty
    exact ⟨groups, holds, by simp⟩
  · exact ⟨_, flushed, by simp⟩

theorem SegmentWriter.Holds.stats {w : SegmentWriter} {groups : List (List ColumnBatch)} (holds : w.Holds fields groups [])
    (sound : ∀ b ∈ groups.flatten, b.fields = fields ∧ b.Sound) :
    List.Forall₂ (fun stats (f : Field × Nat) => Recorded stats (stacked groups.flatten f.2))
      (w.columns.map fun c => c.stats.finish) fields.zipIdx := by
  rw [List.forall₂_map_left_iff, List.forall₂_iff_get]
  refine ⟨holds.columns.length_eq, ?_⟩
  intro i left right
  have inside : i < fields.length := by simpa using right
  have entry := holds.columns.get left right
  simp only [List.get_eq_getElem, List.getElem_zipIdx, Nat.zero_add] at entry ⊢
  have typed : ∀ cells ∈ groups.map (stacked · i), ∀ v ∈ cells, v.HasType fields[i].ty := by
    rw [List.forall_mem_map]
    intro g member
    exact stacked_typed (fun b inside => sound b (List.mem_flatten.mpr ⟨g, member, inside⟩)) (List.getElem?_eq_getElem inside)
  have bounds := segmentStats_bounds typed
  rw [entry.stats]
  simp only [segmentStats, List.map_map] at bounds
  have cells : (groups.map (stacked · i)).flatten = stacked groups.flatten i := by
    rw [← List.flatMap_def, stacked, List.flatten_eq_flatMap, List.flatMap_assoc]
    rfl
  rw [← cells]
  exact bounds.recorded

end Recording

/-- What a segment records of its batches is true: the footer that ends its bytes of every row group and column, the
    summary of every column over the whole segment. -/
structure SegmentRecords (K : SegmentCodec) (fields : List Field) (batches : List ColumnBatch) (out : List UInt8)
    (summary : SegmentMeta) : Prop where
  footer : ∃ footer body, ∃ groups : List (List ColumnBatch), out = body ++ K.trailer (K.encodeFooter footer) ∧
    footer.fields = fields ∧ groups.flatten = batches.filter (·.rows ≠ 0) ∧
    List.Forall₂ (fun (rg : RawRowGroup) (g : List ColumnBatch) => rg.rows = (g.flatMap ColumnBatch.toRows).length ∧
      List.Forall₂ (fun (chunk : RawChunk) (f : Field × Nat) =>
        Recorded ⟨rg.rows, chunk.nullCount, chunk.min, chunk.max⟩ (stacked g f.2)) rg.chunks fields.zipIdx)
      footer.rowGroups groups
  rows : summary.rows = (batches.flatMap ColumnBatch.toRows).length
  columns : List.Forall₂ (fun stats (f : Field × Nat) => Recorded stats (stacked batches f.2)) summary.columns
    fields.zipIdx

theorem writer_records (K : SegmentCodec) (fields : List Field) (opts : WriterOptions) (batches : List ColumnBatch)
    (sound : ∀ b ∈ batches, b.Sound) {out : List UInt8} {summary : SegmentMeta}
    (made : SegmentWriter.write K fields opts batches = .ok (out, summary)) :
    SegmentRecords K fields batches out summary := by
  unfold SegmentWriter.write at made
  obtain ⟨w₀, opened, made⟩ := Except.bind_eq_ok.mp made
  obtain ⟨w₁, pushed, made⟩ := Except.bind_eq_ok.mp made
  have start : w₀.Holds fields [] [] := .new opened
  obtain ⟨groups, held, holds, kept⟩ := start.pushes sound pushed
  rw [List.flatten_nil, List.nil_append, List.nil_append] at kept
  have named := pushes_fields sound start pushed
  have member : ∀ b ∈ groups.flatten ++ held, b ∈ batches ∧ b.rows ≠ 0 := by
    intro b inside
    rw [kept, List.mem_filter] at inside
    exact ⟨inside.1, by simpa using inside.2⟩
  unfold SegmentWriter.finish at made
  obtain ⟨w₂, last, made⟩ := Except.bind_eq_ok.mp made
  obtain ⟨o, written, made⟩ := Except.bind_eq_ok.mp made
  cases made
  obtain ⟨groups', holds', all⟩ := holds.flushed (fun b inside => (member b (by simp [inside])).2) last
  rw [← all] at kept member
  have whole : ∀ b ∈ groups'.flatten, b.fields = fields ∧ b.Sound := fun b inside =>
    ⟨named b (member b inside).1, sound b (member b inside).1⟩
  have groupWhole : ∀ g ∈ groups', ∀ b ∈ g, b.fields = fields ∧ b.Sound := fun g of b inside =>
    whole b (List.mem_flatten.mpr ⟨g, of, inside⟩)
  have recorded : List.Forall₂ (fun (rg : RawRowGroup) (g : List ColumnBatch) =>
      rg.rows = (g.flatMap ColumnBatch.toRows).length ∧
        List.Forall₂ (fun (chunk : RawChunk) (f : Field × Nat) =>
          Recorded ⟨rg.rows, chunk.nullCount, chunk.min, chunk.max⟩ (stacked g f.2)) rg.chunks fields.zipIdx)
      w₂.rowGroups groups' := by
    rw [List.forall₂_iff_get]
    refine ⟨holds'.rowGroups.length_eq, ?_⟩
    intro i left right
    exact (holds'.rowGroups.get left right).recorded (groupWhole _ (List.getElem_mem right))
  refine ⟨⟨w₂.footer, w₂.file.out, groups', ?_, holds'.fields_eq, kept, recorded⟩, ?_, ?_⟩
  · unfold SegmentOut.writeAll at written
    split at written
    · cases written
    · cases written
      rfl
  · have rows : w₂.rowGroups.map RawRowGroup.rows = groups'.map fun g => (g.flatMap ColumnBatch.toRows).length := by
      rw [← List.forall₂_eq_eq_eq, List.forall₂_map_left_iff, List.forall₂_map_right_iff]
      exact recorded.imp fun rg g entry => entry.1
    rw [← toRows_filter, ← kept, List.flatten_eq_flatMap, List.flatMap_assoc, List.length_flatMap]
    exact congrArg List.sum rows
  · have stats := holds'.stats whole
    rw [kept] at stats
    exact stats.imp fun stats f entry => stacked_filter sound f.2 ▸ entry

/-- Codecs that keep nothing but the summary. -/
def blankCodec : SegmentCodec where
  refuses _ _ := none
  encodeColumn _ pin := (pin.getD .plain, [])
  buildIndex _ _ := none
  encodeFooter _ := []
  crc32c _ := 0
  byteSize c := c.cells.length

/-- One row with a value, one without. -/
def halfNull : ColumnBatch := ⟨[⟨"n", .int64⟩], [⟨.int64, [.int64 ⟨7, by decide⟩, .null]⟩]⟩

theorem writer_records_halfNull :
    ∃ out summary, SegmentRecords blankCodec halfNull.fields [halfNull, halfNull] out summary := by
  have sound : ∀ b ∈ [halfNull, halfNull], b.Sound := by
    have one_ : halfNull.Sound := by
      refine ⟨.cons rfl .nil, by simp [halfNull, ColumnBatch.rows], by decide, ?_⟩
      intro c member
      simp only [halfNull, List.mem_singleton] at member
      subst member
      exact ⟨by simp [Value.HasType, Value.HasScalarType], by decide, by decide, by decide⟩
    simpa using one_
  exact ⟨_, _, writer_records blankCodec halfNull.fields ⟨3, [], []⟩ [halfNull, halfNull] sound rfl⟩

end Adelie
