import Adelie.Segment.Reader

namespace Adelie

section Grows

variable {out out' : List UInt8} {a b : Nat}

/-- Bytes that are written stay where they are. -/
theorem between_of_isPrefix (grows : out <+: out') (inside : b ≤ out.length) : between out' a b = between out a b := by
  obtain ⟨more, rfl⟩ := grows
  exact between_append_left inside

theorem between_append_self (out bytes : List UInt8) : between (out ++ bytes) out.length (out.length + bytes.length) = bytes := by
  rw [between, Nat.add_sub_cancel_left, List.drop_left, List.take_length]

end Grows

/-- Bytes that a file holds at an offset, behind its header. -/
structure HeldAt (out : List UInt8) (offset : Nat) (bytes : List UInt8) : Prop where
  start : 8 ≤ offset
  stop : offset + bytes.length ≤ out.length
  bytes : between out offset (offset + bytes.length) = bytes

theorem HeldAt.mono {out out' bytes : List UInt8} {offset : Nat} (holds : HeldAt out offset bytes) (grows : out <+: out') :
    HeldAt out' offset bytes :=
  ⟨holds.start, holds.stop.trans grows.length_le, (between_of_isPrefix grows holds.stop).trans holds.bytes⟩

/-- A chunk of a column: what it was encoded to is where the footer says. -/
structure RawChunk.Laid (K : SegmentCodec) (out : List UInt8) (pin : Option Encoding) (col : Column) (chunk : RawChunk) : Prop where
  fits : FitsOffsets col.cells
  encoding : chunk.encoding = (K.encodeColumn col pin).1.id
  len : chunk.len = (K.encodeColumn col pin).2.length
  crc : chunk.crc = K.crc32c (K.encodeColumn col pin).2
  holds : HeldAt out chunk.offset (K.encodeColumn col pin).2

theorem RawChunk.Laid.mono {K : SegmentCodec} {out out' : List UInt8} {pin : Option Encoding} {col : Column} {chunk : RawChunk}
    (laid : chunk.Laid K out pin col) (grows : out <+: out') : chunk.Laid K out' pin col :=
  { laid with holds := laid.holds.mono grows }

/-- An index that a row group of a segment has, and its blob. -/
structure GroupIndex where
  kind : IndexKind
  rowGroup : Nat
  ordinal : Nat
  blob : List UInt8

/-- The indexes asked for that the columns of a row group can have. -/
def groupIndexes (K : SegmentCodec) (reqs : List (Nat × IndexKind)) (cols : List Column) (rowGroup : Nat) : List GroupIndex :=
  reqs.filterMap fun q => ((cols[q.1]?).bind (K.buildIndex q.2)).map fun blob => ⟨q.2, rowGroup, q.1, blob⟩

/-- The blob of an index is where its entry says. -/
structure RawIndexEntry.Laid (K : SegmentCodec) (out : List UInt8) (e : RawIndexEntry) (i : GroupIndex) : Prop where
  entry : e = ⟨i.kind.id, some i.rowGroup, [i.ordinal], e.offset, i.blob.length, K.crc32c i.blob, []⟩
  holds : HeldAt out e.offset i.blob

theorem RawIndexEntry.Laid.mono {K : SegmentCodec} {out out' : List UInt8} {e : RawIndexEntry} {i : GroupIndex} (laid : e.Laid K out i)
    (grows : out <+: out') : e.Laid K out' i :=
  ⟨laid.entry, laid.holds.mono grows⟩

/-- A sink that counts right. -/
structure SegmentOut.Counts (o : SegmentOut) : Prop where
  pos : o.pos = o.out.length
  header : segmentMagic ++ formatVersion <+: o.out

section Write

variable {K : SegmentCodec} {o o' : SegmentOut}

theorem SegmentOut.Counts.start (counts : o.Counts) : 8 ≤ o.pos := by
  rw [counts.pos]
  exact counts.header.length_le

theorem SegmentOut.Counts.writeAll (counts : o.Counts) {bytes : List UInt8} (made : o.writeAll K bytes = .ok o') :
    o'.Counts ∧ o.out <+: o'.out ∧ HeldAt o'.out o.pos bytes := by
  have start := counts.start
  have pos := counts.pos
  unfold SegmentOut.writeAll at made
  split at made
  · cases made
  · cases made
    refine ⟨⟨?_, counts.header.trans (List.prefix_append _ _)⟩, List.prefix_append _ _, start, ?_, ?_⟩
    · rw [List.length_append, pos]
    · rw [List.length_append, pos]
    · dsimp only
      rw [pos]
      exact between_append_self _ _

variable {fields : List Field} {pins : Nat → Option Encoding} {groups : List (List ColumnBatch)} {held : List ColumnBatch}

theorem WriterColumn.Holds.laid {c : WriterColumn} {f : Field} {i : Nat} {done : FlushedColumn} (holds : c.Holds f i groups held)
    (counts : o.Counts) (made : c.flush K o = .ok (o', done)) :
    o'.Counts ∧ o.out <+: o'.out ∧ done.chunk.Laid K o'.out c.pin ⟨f.ty, stacked held i⟩ ∧ done.col = ⟨f.ty, stacked held i⟩ ∧
      done.column.pin = c.pin := by
  unfold WriterColumn.flush at made
  obtain ⟨col, concat, made⟩ := Except.bind_eq_ok.mp made
  obtain ⟨_, _, made⟩ := Except.bind_eq_ok.mp made
  obtain ⟨o₁, written, made⟩ := Except.bind_eq_ok.mp made
  cases made
  obtain ⟨rfl, fits⟩ := Column.concat_ok (mapError_eq_ok concat)
  have cells : (⟨c.field.ty, c.pending.flatMap Column.cells⟩ : Column) = ⟨f.ty, stacked held i⟩ := by
    rw [holds.field, holds.pending]
  obtain ⟨counts', grows, at_⟩ := counts.writeAll written
  rw [cells] at at_
  rw [holds.pending] at fits
  rw [cells]
  exact ⟨counts', grows, ⟨fits, rfl, rfl, rfl, at_⟩, rfl, rfl⟩

theorem flushColumns_laid {columns : List WriterColumn} {slots : List (Field × Nat)}
    (holds : List.Forall₂ (fun c f => c.Holds f.1 f.2 groups held ∧ c.pin = pins f.2) columns slots)
    (counts : o.Counts) {done : List FlushedColumn} (made : flushColumns K o columns = .ok (o', done)) :
    o'.Counts ∧ o.out <+: o'.out ∧
      List.Forall₂ (fun chunk f => chunk.Laid K o'.out (pins f.2) ⟨f.1.ty, stacked held f.2⟩) (done.map FlushedColumn.chunk) slots ∧
      done.map FlushedColumn.col = slots.map (fun f => ⟨f.1.ty, stacked held f.2⟩) ∧
      List.Forall₂ (fun c f => c.pin = pins f.2) (done.map FlushedColumn.column) slots := by
  induction holds generalizing o done with
  | nil =>
    cases made
    exact ⟨counts, List.prefix_rfl, .nil, rfl, .nil⟩
  | @cons c f columns slots head _ ih =>
    unfold flushColumns at made
    obtain ⟨⟨o₁, first⟩, one_, made⟩ := Except.bind_eq_ok.mp made
    obtain ⟨⟨o₂, others⟩, rest, made⟩ := Except.bind_eq_ok.mp made
    cases made
    obtain ⟨counts₁, grows₁, laid, col, pin⟩ := head.1.laid counts one_
    obtain ⟨counts₂, grows₂, laids, cols, pinned⟩ := ih counts₁ rest
    rw [head.2] at laid pin
    refine ⟨counts₂, grows₁.trans grows₂, .cons (laid.mono grows₂) laids, ?_, .cons pin pinned⟩
    rw [List.map_cons, List.map_cons, col, cols]

theorem flushIndexes_laid {rowGroup : Nat} {cols : List Column} {reqs : List (Nat × IndexKind)} (counts : o.Counts)
    {entries : List RawIndexEntry} (made : flushIndexes K rowGroup cols o reqs = .ok (o', entries)) :
    o'.Counts ∧ o.out <+: o'.out ∧ List.Forall₂ (RawIndexEntry.Laid K o'.out) entries (groupIndexes K reqs cols rowGroup) := by
  induction reqs generalizing o entries with
  | nil =>
    cases made
    exact ⟨counts, List.prefix_rfl, .nil⟩
  | cons q rest ih =>
    obtain ⟨ordinal, kind⟩ := q
    unfold flushIndexes at made
    split at made
    · rename_i none_
      rw [groupIndexes, List.filterMap_cons, none_]
      exact ih counts made
    · rename_i blob built
      obtain ⟨o₁, written, made⟩ := Except.bind_eq_ok.mp made
      obtain ⟨⟨o₂, others⟩, last, made⟩ := Except.bind_eq_ok.mp made
      cases made
      obtain ⟨counts₁, grows₁, at_⟩ := counts.writeAll written
      obtain ⟨counts₂, grows₂, each⟩ := ih counts₁ last
      rw [groupIndexes, List.filterMap_cons, built]
      exact ⟨counts₂, grows₁.trans grows₂, .cons ⟨rfl, at_.mono grows₂⟩ each⟩

end Write

/-- The columns of a row group. -/
def groupColumns (fields : List Field) (g : List ColumnBatch) : List Column := fields.zipIdx.map fun f => ⟨f.1.ty, stacked g f.2⟩

/-- Every index of a segment, row group after row group. -/
def segmentIndexes (K : SegmentCodec) (reqs : List (Nat × IndexKind)) (fields : List Field) (groups : List (List ColumnBatch)) :
    List GroupIndex :=
  groups.zipIdx.flatMap fun g => groupIndexes K reqs (groupColumns fields g.1) g.2

theorem segmentIndexes_push {K : SegmentCodec} {reqs : List (Nat × IndexKind)} {fields : List Field} (groups : List (List ColumnBatch))
    (g : List ColumnBatch) : segmentIndexes K reqs fields (groups ++ [g]) =
      segmentIndexes K reqs fields groups ++ groupIndexes K reqs (groupColumns fields g) groups.length := by
  rw [segmentIndexes, List.zipIdx_append, List.flatMap_append]
  simp [segmentIndexes]

/-- A row group's chunks, each where the footer says. -/
def RawRowGroup.Laid (K : SegmentCodec) (out : List UInt8) (pins : Nat → Option Encoding) (fields : List Field) (rg : RawRowGroup)
    (g : List ColumnBatch) : Prop :=
  List.Forall₂ (fun chunk f => RawChunk.Laid K out (pins f.2) ⟨f.1.ty, stacked g f.2⟩ chunk) rg.chunks fields.zipIdx

theorem RawRowGroup.Laid.mono {K : SegmentCodec} {out out' : List UInt8} {pins : Nat → Option Encoding} {fields : List Field}
    {rg : RawRowGroup} {g : List ColumnBatch} (laid : rg.Laid K out pins fields g) (grows : out <+: out') :
    rg.Laid K out' pins fields g :=
  laid.imp fun _ _ own => own.mono grows

/-- Where a writer has put what its footer will tell of. -/
structure SegmentWriter.Laid (K : SegmentCodec) (pins : Nat → Option Encoding) (reqs : List (Nat × IndexKind)) (fields : List Field)
    (w : SegmentWriter) (groups : List (List ColumnBatch)) : Prop where
  counts : w.file.Counts
  pinned : List.Forall₂ (fun c f => c.pin = pins f.2) w.columns fields.zipIdx
  asked : w.indexReqs = reqs
  chunks : List.Forall₂ (RawRowGroup.Laid K w.file.out pins fields) w.rowGroups groups
  indexes : List.Forall₂ (RawIndexEntry.Laid K w.file.out) w.indexes (segmentIndexes K reqs fields groups)

namespace SegmentWriter.Laid

variable {K : SegmentCodec} {pins : Nat → Option Encoding} {reqs : List (Nat × IndexKind)} {fields : List Field} {w w' : SegmentWriter}
  {groups : List (List ColumnBatch)} {held : List ColumnBatch}

/-- A flush lays its chunks and then its indexes behind what is there. -/
theorem flush (laid : w.Laid K pins reqs fields groups) (holds : w.Holds fields groups held) (made : w.flush K = .ok w') :
    (held.map ColumnBatch.rows).sum = 0 ∧ w' = w ∨ w'.Laid K pins reqs fields (groups ++ [held]) := by
  unfold SegmentWriter.flush at made
  split at made
  · rename_i none_
    cases made
    exact .inl ⟨by rw [← holds.pendingRows, none_], rfl⟩
  · right
    obtain ⟨⟨o, done⟩, chunks, made⟩ := Except.bind_eq_ok.mp made
    obtain ⟨⟨o', entries⟩, listed, made⟩ := Except.bind_eq_ok.mp made
    cases made
    have slots : List.Forall₂ (fun c f => c.Holds f.1 f.2 groups held ∧ c.pin = pins f.2) w.columns fields.zipIdx := by
      rw [List.forall₂_iff_get]
      exact ⟨holds.columns.length_eq, fun i left right => ⟨holds.columns.get left right, laid.pinned.get left right⟩⟩
    obtain ⟨counts, grows, at_, cols, pinned⟩ := flushColumns_laid slots laid.counts chunks
    obtain ⟨counts', grows', each⟩ := flushIndexes_laid counts listed
    rw [cols, holds.rowGroups.length_eq, laid.asked] at each
    have both := grows.trans grows'
    refine ⟨counts', pinned, laid.asked, ?_, ?_⟩
    · apply List.rel_append
      · exact laid.chunks.imp fun _ _ own => own.mono both
      · exact .cons (at_.imp fun _ _ own => own.mono grows') .nil
    · rw [segmentIndexes_push]
      exact List.rel_append (laid.indexes.imp fun _ _ own => own.mono both) each

theorem buffer (laid : w.Laid K pins reqs fields groups) {b : ColumnBatch} (wide : b.columns.length = fields.length) :
    (w.buffer b).Laid K pins reqs fields groups := by
  refine ⟨laid.counts, ?_, laid.asked, laid.chunks, laid.indexes⟩
  have width := laid.pinned.length_eq
  rw [List.length_zipIdx] at width
  rw [List.forall₂_iff_get]
  refine ⟨by simp [SegmentWriter.buffer, width, wide], ?_⟩
  intro i left right
  have within : i < w.columns.length := by rw [width]; simpa using right
  have own := laid.pinned.get within right
  simp only [SegmentWriter.buffer, List.get_eq_getElem, List.getElem_zipWith]
  exact own

/-- A writer with what it has pushed so far: each batch in a row group that is laid, or waiting. -/
theorem pushes {batches : List ColumnBatch} (sound : ∀ b ∈ batches, b.Sound) (laid : w.Laid K pins reqs fields groups)
    (holds : w.Holds fields groups held) (made : batches.foldlM (SegmentWriter.push K) w = .ok w') :
    ∃ groups' held', w'.Holds fields groups' held' ∧ w'.Laid K pins reqs fields groups' ∧
      groups'.flatten ++ held' = groups.flatten ++ held ++ batches.filter (·.rows ≠ 0) := by
  induction batches generalizing w groups held with
  | nil =>
    cases made
    exact ⟨groups, held, holds, laid, by simp⟩
  | cons b rest ih =>
    rw [List.forall_mem_cons] at sound
    rw [List.foldlM_cons] at made
    obtain ⟨w₁, first, made⟩ := Except.bind_eq_ok.mp made
    have step : ∃ groups₁ held₁, w₁.Holds fields groups₁ held₁ ∧ w₁.Laid K pins reqs fields groups₁ ∧
        groups₁.flatten ++ held₁ = groups.flatten ++ held ++ [b].filter (·.rows ≠ 0) := by
      unfold SegmentWriter.push at first
      obtain ⟨_, named, first⟩ := Except.bind_eq_ok.mp first
      have shaped := sound.1.shaped ((of_decide_eq_true (ensure_eq_ok.mp named)).trans holds.fields_eq)
      split at first
      · rename_i empty
        cases first
        exact ⟨groups, held, holds, laid, by simp [empty]⟩
      · rename_i some_
        have waiting := holds.buffer shaped
        have there := laid.buffer shaped.typed.length_eq
        split at first
        · have none_ : ((held ++ [b]).map ColumnBatch.rows).sum ≠ 0 := by
            simp only [List.map_append, List.sum_append, List.map_singleton, List.sum_singleton]
            omega
          obtain ⟨_, ⟨empty, _⟩ | flushed⟩ := waiting.flush first
          · exact absurd empty none_
          · obtain ⟨empty, _⟩ | kept := there.flush waiting first
            · exact absurd empty none_
            · exact ⟨_, _, flushed, kept, by simp [some_]⟩
        · cases first
          exact ⟨groups, held ++ [b], waiting, there, by simp [some_]⟩
    obtain ⟨groups₁, held₁, holds₁, laid₁, kept⟩ := step
    obtain ⟨groups₂, held₂, holds₂, laid₂, all⟩ := ih sound.2 laid₁ holds₁ made
    refine ⟨groups₂, held₂, holds₂, laid₂, ?_⟩
    rw [all, kept, List.append_assoc, ← List.filter_append]
    rfl

end SegmentWriter.Laid

section Options

variable {fields : List Field}

/-- The pins of columns, each of an encoding that the column's type can have. -/
def PinsApply (fields : List Field) (pins : List (Option Encoding)) : Prop :=
  ∀ (i : Nat) (e : Encoding), pins[i]? = some (some e) → ∃ f, fields[i]? = some f ∧ e.appliesTo f.ty = true

theorem applies_field {i : Nat} {applies : Field → Bool} (held : ((fields[i]?.map applies).getD false) = true) :
    ∃ f, fields[i]? = some f ∧ applies f = true := by
  cases field : fields[i]? with
  | none =>
    rw [field] at held
    exact absurd held (by simp)
  | some f =>
    rw [field] at held
    exact ⟨f, rfl, by simpa using held⟩

theorem resolvePin_applies {pin : String × Encoding} {start next : List (Option Encoding)} (before : PinsApply fields start)
    (made : resolvePin fields start pin = .ok next) : PinsApply fields next := by
  unfold resolvePin at made
  split at made
  · cases made
  · rename_i j found
    obtain ⟨_, applies, last⟩ := Except.bind_eq_ok.mp made
    clear made
    have same : start.set j (some pin.2) = next := Except.ok.inj last
    subst same
    intro i e at_
    rw [List.getElem?_set] at at_
    split at at_
    · rename_i here
      subst here
      split at at_
      · have own : pin.2 = e := Option.some.inj (Option.some.inj at_)
        subst own
        exact applies_field (ensure_eq_ok.mp applies)
      · exact absurd at_ (by simp)
    · exact before i e at_

theorem resolvePins_applies {pins : List (String × Encoding)} {start resolved : List (Option Encoding)} (before : PinsApply fields start)
    (made : pins.foldlM (resolvePin fields) start = .ok resolved) : PinsApply fields resolved := by
  induction pins generalizing start with
  | nil =>
    have same : start = resolved := Except.ok.inj made
    rwa [same] at before
  | cons p rest ih =>
    rw [List.foldlM_cons] at made
    obtain ⟨next, first, made⟩ := Except.bind_eq_ok.mp made
    exact ih (resolvePin_applies before first) made

theorem resolveIndexes_applies {indexes : List (String × IndexKind)} {reqs : List (Nat × IndexKind)}
    (made : resolveIndexes fields indexes = .ok reqs) : ∀ q ∈ reqs, ∃ f, fields[q.1]? = some f ∧ q.2.appliesTo f.ty = true := by
  intro q member
  have each := forall₂_of_mapM_except made
  obtain ⟨i, inside, rfl⟩ := List.mem_iff_getElem.mp member
  have own := each.get (by rw [each.length_eq]; exact inside) inside
  generalize indexes.get ⟨i, _⟩ = request at own
  rw [List.get_eq_getElem] at own
  generalize reqs[i] = q at own
  obtain ⟨name, kind⟩ := request
  dsimp only at own
  split at own
  · cases own
  · obtain ⟨_, applies, last⟩ := Except.bind_eq_ok.mp own
    have same : _ = q := Except.ok.inj last
    subst same
    exact applies_field (ensure_eq_ok.mp applies)

end Options

/-- A writer's pins and indexes, resolved to columns of types they are for. -/
structure Resolved (fields : List Field) (pins : Nat → Option Encoding) (reqs : List (Nat × IndexKind)) : Prop where
  pins : ∀ (i : Nat) (e : Encoding), pins i = some e → ∃ f, fields[i]? = some f ∧ e.appliesTo f.ty = true
  reqs : ∀ q ∈ reqs, ∃ f, fields[q.1]? = some f ∧ q.2.appliesTo f.ty = true

section File

variable {K : SegmentCodec} {fields : List Field} {opts : WriterOptions} {w : SegmentWriter}

theorem SegmentWriter.Laid.new (made : SegmentWriter.new K fields opts = .ok w) :
    ∃ pins reqs, Resolved fields pins reqs ∧ w.Laid K pins reqs fields [] := by
  unfold SegmentWriter.new at made
  obtain ⟨_, _, made⟩ := Except.bind_eq_ok.mp made
  split at made
  · cases made
  · obtain ⟨pins, resolved, made⟩ := Except.bind_eq_ok.mp made
    obtain ⟨reqs, asked, made⟩ := Except.bind_eq_ok.mp made
    obtain ⟨file, written, made⟩ := Except.bind_eq_ok.mp made
    cases made
    have width := resolvePins_length resolved
    rw [List.length_map] at width
    have none_ : PinsApply fields (fields.map fun _ => none) := by
      intro i e at_
      rw [List.getElem?_map] at at_
      obtain ⟨f, _, same⟩ := Option.map_eq_some_iff.mp at_
      cases same
    have applies := resolvePins_applies none_ resolved
    have header : file = ⟨segmentMagic ++ formatVersion, 8⟩ := by
      unfold SegmentOut.writeAll at written
      split at written
      · cases written
      · exact (Except.ok.inj written).symm
    refine ⟨fun i => (pins[i]?).join, reqs, ⟨?_, resolveIndexes_applies asked⟩, ?_⟩
    · intro i e found
      exact applies i e (Option.join_eq_some_iff.mp found)
    · refine ⟨?_, ?_, rfl, .nil, .nil⟩
      · rw [header]
        exact ⟨rfl, List.prefix_rfl⟩
      · rw [List.forall₂_iff_get]
        refine ⟨by simp [width], ?_⟩
        intro i left right
        have inside : i < pins.length := by
          rw [width]
          simpa using right
        simp only [List.get_eq_getElem, List.getElem_zipIdx, Nat.zero_add, List.getElem_zipWith]
        rw [List.getElem?_eq_getElem inside]
        rfl

/-- What is waiting is laid too once the writer is flushed. -/
theorem SegmentWriter.Laid.flushed {pins : Nat → Option Encoding} {reqs : List (Nat × IndexKind)} {w' : SegmentWriter}
    {groups : List (List ColumnBatch)} {held : List ColumnBatch} (laid : w.Laid K pins reqs fields groups)
    (holds : w.Holds fields groups held) (some_ : ∀ b ∈ held, b.rows ≠ 0) (made : w.flush K = .ok w') :
    ∃ groups', w'.Laid K pins reqs fields groups' ∧ w'.Holds fields groups' [] ∧ groups'.flatten = groups.flatten ++ held := by
  by_cases none_ : (held.map ColumnBatch.rows).sum = 0
  · have empty : held = [] := by
      apply List.eq_nil_iff_forall_not_mem.mpr
      intro b member
      have := List.single_le_sum (by simp) b.rows (List.mem_map_of_mem (f := ColumnBatch.rows) member)
      have := some_ b member
      omega
    subst empty
    have still : w' = w := by
      have zero : w.pendingRows = 0 := holds.pendingRows.trans none_
      unfold SegmentWriter.flush at made
      rw [if_pos zero] at made
      exact (Except.ok.inj made).symm
    rw [still]
    exact ⟨groups, laid, holds, by simp⟩
  · obtain ⟨_, ⟨zero, _⟩ | flushed⟩ := holds.flush made
    · exact absurd zero none_
    · obtain ⟨zero, _⟩ | kept := laid.flush holds made
      · exact absurd zero none_
      · exact ⟨_, kept, flushed, by simp⟩

/-- Where a finished segment has what its footer tells of: the body, the footer, and the row groups and indexes in the body. -/
structure SegmentLaid (K : SegmentCodec) (fields : List Field) (batches : List ColumnBatch) (bytes : List UInt8) (footer : SegmentFooter)
    (body : List UInt8) (groups : List (List ColumnBatch)) (pins : Nat → Option Encoding) (reqs : List (Nat × IndexKind)) : Prop where
  bytes : bytes = body ++ K.trailer (K.encodeFooter footer)
  header : segmentMagic ++ formatVersion <+: body
  resolved : Resolved fields pins reqs
  schema : footer.fields = fields
  batches : groups.flatten = batches.filter (·.rows ≠ 0)
  zones : List.Forall₂ (RawRowGroup.Of fields) footer.rowGroups groups
  chunks : List.Forall₂ (RawRowGroup.Laid K body pins fields) footer.rowGroups groups
  indexes : List.Forall₂ (RawIndexEntry.Laid K body) footer.indexes (segmentIndexes K reqs fields groups)

theorem laid_of_write {batches : List ColumnBatch} (sound : ∀ b ∈ batches, b.Sound) {bytes : List UInt8} {summary : SegmentMeta}
    (made : SegmentWriter.write K fields opts batches = .ok (bytes, summary)) :
    ∃ footer body groups pins reqs, SegmentLaid K fields batches bytes footer body groups pins reqs := by
  unfold SegmentWriter.write at made
  obtain ⟨w₀, opened, made⟩ := Except.bind_eq_ok.mp made
  obtain ⟨w₁, pushed, made⟩ := Except.bind_eq_ok.mp made
  obtain ⟨pins, reqs, resolved, start⟩ := SegmentWriter.Laid.new opened
  obtain ⟨groups, held, holds, laid, kept⟩ := start.pushes sound (.new opened) pushed
  rw [List.flatten_nil, List.nil_append, List.nil_append] at kept
  have some_ : ∀ b ∈ held, b.rows ≠ 0 := by
    intro b member
    have inside : b ∈ batches.filter (·.rows ≠ 0) := by
      rw [← kept]
      exact List.mem_append_right _ member
    simpa using (List.mem_filter.mp inside).2
  unfold SegmentWriter.finish at made
  obtain ⟨w₂, last, made⟩ := Except.bind_eq_ok.mp made
  obtain ⟨o, written, made⟩ := Except.bind_eq_ok.mp made
  obtain ⟨groups', laid', holds', all⟩ := laid.flushed holds some_ last
  have out : bytes = w₂.file.out ++ K.trailer (K.encodeFooter w₂.footer) := by
    unfold SegmentOut.writeAll at written
    split at written
    · cases written
    · have whole := Except.ok.inj written
      obtain ⟨same, _⟩ := Prod.mk.inj (Except.ok.inj made)
      rw [← same, ← whole]
  refine ⟨w₂.footer, w₂.file.out, groups', pins, reqs, out, laid'.counts.header, resolved, holds'.fields_eq, all.trans kept, holds'.rowGroups,
    laid'.chunks, laid'.indexes⟩

theorem halfNull_sound : ∀ b ∈ [halfNull, halfNull], b.Sound := by
  have one_ : halfNull.Sound := by
    refine ⟨.cons rfl .nil, by simp [halfNull, ColumnBatch.rows], by decide, ?_⟩
    intro c member
    simp only [halfNull, List.mem_singleton] at member
    subst member
    exact ⟨by simp [Value.HasType, Value.HasScalarType], by decide, by decide, by decide⟩
  simpa using one_

end File

/-- The footer, its length and checksum, then magic and version. -/
def writeTrailer (out magic footer : List UInt8) : List UInt8 :=
  out ++ footer ++ (Sink.u32 (footer.length % 2 ^ 32) ++ (Sink.u32 (crc32c footer) ++ (magic ++ formatVersion)))

section Trailer

variable {body magic footer : List UInt8} {header : Nat}

theorem six_bytes (six : magic.length = 6) : ∃ a b c d e f, magic = [a, b, c, d, e, f] :=
  match magic, six with
  | [a, b, c, d, e, f], _ => ⟨a, b, c, d, e, f, rfl⟩

/-- A footer behind a body is found by its trailer. -/
theorem readTrailer_ok (six : magic.length = 6) (long : header ≤ body.length) (small : footer.length < 2 ^ 32) :
    readTrailer (writeTrailer body magic footer) magic header = .ok (body.length, body.length + footer.length) := by
  obtain ⟨a, b, c, d, e, f, rfl⟩ := six_bytes six
  rw [writeTrailer, Nat.mod_eq_of_lt small]
  obtain ⟨tail, made⟩ : ∃ tail, Sink.u32 footer.length ++ (Sink.u32 (crc32c footer) ++ ([a, b, c, d, e, f] ++ formatVersion)) = tail :=
    ⟨_, rfl⟩
  have size : tail.length = trailerLen := by
    rw [← made]
    rfl
  have length : leNat (between tail 0 4) = footer.length := by
    have own : between tail 0 4 = leBytes 4 footer.length := by
      rw [← made]
      rfl
    rw [own, leNat_leBytes small]
  have crc : leNat (between tail 4 8) = crc32c footer := by
    have own : between tail 4 8 = leBytes 4 (crc32c footer) := by
      rw [← made]
      rfl
    rw [own, leNat_leBytes (crc32c_lt footer)]
  have named : between tail 8 14 = [a, b, c, d, e, f] := by
    rw [← made]
    rfl
  have version : leNat (between tail 14 16) = 1 := by
    rw [← made]
    rfl
  have whole : (body ++ footer ++ tail).length = body.length + footer.length + trailerLen := by
    rw [List.length_append, List.length_append, size]
  have start : body.length + footer.length + trailerLen - trailerLen = body.length + footer.length := Nat.add_sub_cancel _ _
  have behind : (body ++ footer ++ tail).drop (body.length + footer.length) = tail := by
    rw [← List.length_append]
    exact List.drop_left
  have back : body.length + footer.length - footer.length = body.length := Nat.add_sub_cancel _ _
  have here : between (body ++ footer ++ tail) body.length (body.length + footer.length) = footer := by
    rw [between_append_left (by rw [List.length_append]), between_append_self]
  rw [made]
  unfold readTrailer
  rw [whole, if_neg (by omega)]
  dsimp only
  rw [start, behind, length, crc, named, version, back, here]
  rw [if_neg (by simp), if_neg (by decide), if_neg (by omega), if_neg (by simp)]

/-- One column of one row, and a Bloom filter that was never written. -/
def oneFooter : SegmentFooter := ⟨[⟨"n", .int64⟩], [⟨1, [⟨8, 9, 7, 0, 0, none, none⟩]⟩], [⟨1, some 0, [0], 17, 5, 3, []⟩]⟩

theorem oneFooter_sound : oneFooter.Sound := by
  have chunk : RawChunk.Sound ⟨8, 9, 7, 0, 0, none, none⟩ 1 .int64 := by
    refine ⟨by decide, by decide, by decide, by decide, by decide, nofun, nofun⟩
  refine ⟨by decide, by decide, by decide, ?_, ?_⟩
  · intro rg member
    obtain rfl := List.mem_singleton.mp member
    exact ⟨by decide, .cons chunk .nil⟩
  · intro e member
    obtain rfl := List.mem_singleton.mp member
    refine ⟨by decide, ?_, by decide, by decide, by decide, by decide, by decide⟩
    rintro _ ⟨⟩
    decide

end Trailer

end Adelie
