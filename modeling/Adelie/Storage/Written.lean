import Adelie.Storage.Planned

namespace Adelie

section Own

variable {schema : List SchemaField} {next : Nat}

/-- In a file written on the schema itself, each column stands where the schema has it. -/
theorem fileColumn_own (ids : SchemaIds schema next) {i : Nat} (within : i < schema.length) :
    fileColumn (schema.map (·.id)) schema[i].id = some i := by
  unfold fileColumn
  rw [List.findIdx?_eq_some_iff_getElem]
  refine ⟨by simpa using within, ?_, ?_⟩
  · have positive := ids.positive _ (List.getElem_mem within)
    simp [Nat.pos_iff_ne_zero.mp positive]
  · intro j before
    have apart := List.pairwise_iff_getElem.mp ids.nodup j i (by simp; omega) (by simpa using within) before
    simp only [List.getElem_map] at apart ⊢
    simp [apart]

theorem rowAs_own (ids : SchemaIds schema next) {row : Row} (wide : row.length = schema.length) :
    rowAs (schema.map (·.id)) schema row = row := by
  apply List.ext_getElem
  · simp [rowAs, wide]
  · intro i within inside
    have short : i < schema.length := by simpa [rowAs] using within
    simp [rowAs, cellOf, fileColumn_own ids short, inside]

end Own

/-- A segment as its writer left it: these rows, on the table's own schema. -/
structure Wrote (files : Files) (t : TableEntry) (seq : Nat) (rows : List Row) (s : SegmentEntry) : Prop where
  seq : s.seq = seq
  ids : s.fileIds = t.schemaIds
  file : ∃ file, files s.path = some file ∧ file.fields = t.fields ∧ file.rows = rows

namespace Wrote

variable {files files' : Files} {t : TableEntry} {seq : Nat} {rows : List Row} {s : SegmentEntry}

theorem mono (wrote : Wrote files t seq rows s) (grown : Extends files files') : Wrote files' t seq rows s := by
  obtain ⟨file, found, rest⟩ := wrote.file
  exact ⟨wrote.seq, wrote.ids, file, grown _ _ found, rest⟩

theorem opens (wrote : Wrote files t seq rows s) (ok : t.SchemaOk) : Opens files t.schema s := by
  obtain ⟨file, found, fields, _⟩ := wrote.file
  refine ⟨file, found, by simp [wrote.ids, fields, TableEntry.schemaIds, TableEntry.fields], ?_⟩
  intro f member i at_
  obtain ⟨j, within, rfl⟩ := List.getElem_of_mem member
  rw [wrote.ids, TableEntry.schemaIds, fileColumn_own ok.ids within] at at_
  cases at_
  exact ⟨t.schema[i].field, by simp [fields, TableEntry.fields, within], rfl⟩

theorem rowsOf (wrote : Wrote files t seq rows s) (ok : t.SchemaOk) : Adelie.rowsOf files t.schema s = rows := by
  obtain ⟨file, found, fields, rfl⟩ := wrote.file
  rw [rowsOf_of_file found]
  conv_rhs => rw [← List.map_id file.rows]
  refine List.map_congr_left fun row member => ?_
  obtain ⟨g, group, inside⟩ := List.mem_flatten.mp member
  rw [wrote.ids]
  exact rowAs_own ok.ids (by simpa [fields, TableEntry.fields] using file.wide g group row inside)

end Wrote

theorem writeNew_extends {files : Files} {path : SegmentPath} {file : SegmentFile} (free : files path = none) :
    Extends files (writeNew files path file) := by
  intro p old found
  unfold writeNew
  split
  · rename_i same
    rw [same, free] at found
    cases found
  · exact found

section Outputs

variable {handed : Nat → Nat} {encode : SegmentFile → Except StorageError Footer} {t : TableEntry}
  {partition : String} {seq : Nat} {st st' : MergeState}

/-- No file bears an id that the counter has still to hand out. -/
def Unwritten (handed : Nat → Nat) (st : MergeState) : Prop :=
  ∀ k, st.drawn ≤ k → ∀ path, path.id = handed k → st.files path = none

theorem Unwritten.logged (unwritten : Unwritten handed st) (ops : List FileOp) : Unwritten handed (st.logged ops) :=
  unwritten

theorem writeOutput_eq_ok {output : List Batch} (distinct : handed.Injective) (unwritten : Unwritten handed st)
    (wrote : writeOutput handed encode t partition seq st output = .ok st') :
    ∃ s, st'.adds = st.adds ++ [s] ∧ st'.removes = st.removes ∧ Extends st.files st'.files ∧
      Unwritten handed st' ∧ Wrote st'.files t seq output.flatten s := by
  unfold writeOutput at wrote
  split at wrote
  · rename_i wide
    obtain ⟨footer, _, made⟩ := Except.bind_eq_ok.mp wrote
    cases made
    refine ⟨_, rfl, rfl, ?_, ?_, rfl, rfl, _, if_pos rfl, rfl, ?_⟩
    · exact writeNew_extends (unwritten st.drawn (Nat.le_refl _) _ rfl)
    · intro k later path same
      refine (if_neg ?_).trans (unwritten k (Nat.le_of_succ_le later) path same)
      rintro rfl
      have := distinct same
      dsimp only at later
      omega
    · exact groupRows_flatten _ _
  · cases wrote

/-- Every output is written, in order, under the seq it is given. -/
theorem writeOutputs_eq_ok {outputs : List (List Batch)} (distinct : handed.Injective)
    (unwritten : Unwritten handed st)
    (wrote : outputs.foldlM (writeOutput handed encode t partition seq) st = .ok st') :
    ∃ made, st'.adds = st.adds ++ made ∧ st'.removes = st.removes ∧ Extends st.files st'.files ∧
      Unwritten handed st' ∧
      List.Forall₂ (fun (output : List Batch) s => Wrote st'.files t seq output.flatten s) outputs made := by
  induction outputs generalizing st with
  | nil =>
    cases wrote
    exact ⟨[], by simp, rfl, .refl _, unwritten, .nil⟩
  | cons output rest ih =>
    rw [List.foldlM_cons] at wrote
    obtain ⟨mid, head, tail⟩ := Except.bind_eq_ok.mp wrote
    obtain ⟨s, adds, removes, grown, unwritten', first⟩ := writeOutput_eq_ok distinct unwritten head
    obtain ⟨made, adds', removes', grown', unwritten'', others⟩ := ih unwritten' tail
    refine ⟨s :: made, by simp [adds', adds], removes'.trans removes, grown.trans grown', unwritten'', ?_⟩
    exact .cons (first.mono grown') others

end Outputs

end Adelie
