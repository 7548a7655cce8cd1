import Adelie.Storage.Merged
import Adelie.Storage.Project

namespace Adelie

section

variable (handed : Nat → Nat) (encode : SegmentFile → Except StorageError Footer)

/-- One source segment on the target's schema and ORDER BY, under its own seq, so that tombstones
    keep applying as before. -/
def rewriteSegment (maxRows : Nat) (source target : TableEntry) (st : MergeState) (id : Nat) :
    Except StorageError MergeState :=
  match source.segments.find? (·.id == id) with
  | none => .error (.usage s!"migration: source segment {id} is not live")
  | some s => do
    let batches ← readSegmentAs st.files s target.schema
    (merge target [batches] maxRows).foldlM (writeOutput handed encode target s.partition s.seq)
      (st.logged [.createDir target.dir s.partition])

def rewriteSegments (maxRows : Nat) (files : Files) (ids : List Nat) (source target : TableEntry) :
    Except StorageError MergeState := do
  ensure (engineByName target.engine) (.manifest (.unknownEngine target.name.display target.engine))
  let st ← ids.foldlM (rewriteSegment handed encode maxRows source target) (.start files)
  return st.logged (st.dirs.map fun d => .syncDir d.1 d.2)

end

/-- Segments that hold exactly the rows of one source segment, projected by field id, at its seq. -/
structure RewrittenAs (files : Files) (schema : List SchemaField) (s : SegmentEntry) (part : List SegmentEntry) :
    Prop where
  seq : ∀ o ∈ part, o.seq = s.seq
  opens : ∀ o ∈ part, Opens files schema o
  rows : (part.flatMap (rowsOf files schema)).Perm (rowsOf files schema s)

/-- The new segments are those of the source segments named, one after another. -/
def Rewritten (files : Files) (source target : TableEntry) (ids : List Nat) (segments : List SegmentEntry) : Prop :=
  ∃ parts, segments = parts.flatten ∧ List.Forall₂ (fun id part =>
    ∃ s ∈ source.segments, s.id = id ∧ RewrittenAs files target.schema s part) ids parts

section

variable {handed : Nat → Nat} {encode : SegmentFile → Except StorageError Footer} {maxRows : Nat}
  {source target : TableEntry} {files files' : Files} {st st' : MergeState}

theorem RewrittenAs.mono {schema : List SchemaField} {s : SegmentEntry} {part : List SegmentEntry}
    (rewritten : RewrittenAs files schema s part) (opens : Opens files schema s) (grown : Extends files files') :
    RewrittenAs files' schema s part := by
  refine ⟨rewritten.seq, fun o member => (rewritten.opens o member).mono grown, ?_⟩
  have same : part.flatMap (rowsOf files' schema) = part.flatMap (rowsOf files schema) :=
    List.flatMap_congr fun o member => rowsOf_mono (rewritten.opens o member) grown
  rw [same, rowsOf_mono opens grown]
  exact rewritten.rows

theorem rewriteSegment_eq_ok {id : Nat} (ok : target.SchemaOk) (nonempty : target.schema ≠ [])
    (distinct : handed.Injective) (unwritten : Unwritten handed st)
    (ran : rewriteSegment handed encode maxRows source target st id = .ok st') :
    ∃ part, st'.adds = st.adds ++ part ∧ Extends st.files st'.files ∧ Unwritten handed st' ∧
      ∃ s ∈ source.segments, s.id = id ∧ Opens st'.files target.schema s ∧
        RewrittenAs st'.files target.schema s part := by
  unfold rewriteSegment at ran
  split at ran
  · cases ran
  · rename_i s found
    obtain ⟨batches, read, wrote⟩ := Except.bind_eq_ok.mp ran
    obtain ⟨file, has, readable, flat⟩ := readSegmentAs_eq_ok nonempty read
    obtain ⟨part, adds, _, grown, unwritten', written⟩ := writeOutputs_eq_ok distinct (unwritten.logged _) wrote
    have opens : Opens st.files target.schema s := ⟨file, has, readable⟩
    refine ⟨part, adds, grown, unwritten', s, List.mem_of_find?_eq_some found, ?_, opens.mono grown, ?_, ?_, ?_⟩
    · simpa using List.find?_some found
    · intro o member
      obtain ⟨_, _, one⟩ := List.Forall₂.source written member
      exact one.seq
    · intro o member
      obtain ⟨_, _, one⟩ := List.Forall₂.source written member
      exact one.opens ok
    · rw [wrote_rows ok written, rowsOf_mono opens grown, rowsOf_of_file has, ← flat]
      simpa using merge_perm target [batches] maxRows

/-- What the migration writes for the segments it rewrites holds their rows. -/
theorem rewriteSegments_eq_ok {ids : List Nat} (ok : target.SchemaOk) (nonempty : target.schema ≠ [])
    (distinct : handed.Injective) (unwritten : Unwritten handed (.start files))
    (ran : rewriteSegments handed encode maxRows files ids source target = .ok st') :
    Rewritten st'.files source target ids st'.adds := by
  obtain ⟨_, _, walk⟩ := Except.bind_eq_ok.mp ran
  obtain ⟨last, folded, made⟩ := Except.bind_eq_ok.mp walk
  cases made
  suffices walked : ∀ {st : MergeState}, Unwritten handed st →
      ids.foldlM (rewriteSegment handed encode maxRows source target) st = .ok last →
      Extends st.files last.files ∧ ∃ parts, last.adds = st.adds ++ parts.flatten ∧ List.Forall₂ (fun id part =>
        ∃ s ∈ source.segments, s.id = id ∧ RewrittenAs last.files target.schema s part) ids parts by
    obtain ⟨_, parts, adds, each⟩ := walked unwritten folded
    exact ⟨parts, by simpa using adds, each⟩
  clear unwritten ran walk folded
  induction ids with
  | nil =>
    intro st _ ran
    cases ran
    exact ⟨.refl _, [], by simp, .nil⟩
  | cons id rest ih =>
    intro st unwritten ran
    rw [List.foldlM_cons] at ran
    obtain ⟨mid, head, tail⟩ := Except.bind_eq_ok.mp ran
    obtain ⟨part, adds, grown, unwritten', s, live, named, opens, one⟩ :=
      rewriteSegment_eq_ok ok nonempty distinct unwritten head
    obtain ⟨grown', parts, adds', each⟩ := ih unwritten' tail
    refine ⟨grown.trans grown', part :: parts, by simp [adds', adds], .cons ?_ each⟩
    exact ⟨s, live, named, one.mono opens grown'⟩

end

end Adelie
