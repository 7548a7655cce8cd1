import Adelie.Manifest.Descent
import Adelie.Manifest.Sourced
import Adelie.Storage.Migration

namespace Adelie

open Manifest

/-- The cell a row written on a schema has under a field id; NULL when the schema lacks it. -/
def cellAt (schema : List SchemaField) (row : Row) (id : Nat) : Value :=
  (((schema.zip row).find? (·.1.id == id)).map Prod.snd).getD .null

/-- A segment file as a table's writer left it: on the table's own columns, each with its NULLs
    counted. Without columns there are no rows. -/
structure Laid (files : Files) (t : TableEntry) (g : SegmentEntry) : Prop where
  ids : g.fileIds = t.schemaIds
  file : ∃ file, files g.path = some file ∧ file.fields = t.fields ∧ file.rows.length = g.rows ∧
    (t.schema = [] → file.rows = []) ∧
    ∀ p ∈ t.schema.zip g.columns, p.2.rows = file.rows.length ∧
      p.2.nullCount = file.rows.countP fun row => (cellAt t.schema row p.1.id).isNull

/-- What a definition sees of a segment is what the segment was written with: each column of the
    definition that the file has, and no other, is read from the file, and is the very column that was
    written. -/
structure Faithful (files : Files) (a : Ancestry) (t : TableEntry) (g : SegmentEntry) : Prop where
  columns : a.written g.id ≠ [] → ∀ f ∈ t.schema,
    fileColumn g.fileIds f.id = fileColumn ((a.written g.id).map (·.id)) f.id
  count : a.written g.id ≠ [] → g.fileIds.length = (a.written g.id).length
  positive : ∀ f ∈ a.written g.id, 0 < f.id
  below : ∀ f ∈ a.written g.id, f.id < t.nextFieldId
  types : TypesAgree t.schema (a.written g.id)
  born : ∀ f ∈ t.schema, f.id ∈ (a.written g.id).map (·.id) → a.born t.id f.id = a.stamp g.id f.id
  file : ∃ file, files g.path = some file ∧ file.fields = (a.written g.id).map (·.field) ∧
    file.rows.length = g.rows ∧ (a.written g.id = [] → file.rows = []) ∧
    ∀ f ∈ t.schema, (g.statsOf f.id).rows = file.rows.length ∧
      (g.statsOf f.id).nullCount = file.rows.countP fun row => (cellAt (a.written g.id) row f.id).isNull

/-- `u` was made out of `t`: their common columns are the same columns. -/
structure Derives (a : Ancestry) (t u : TableEntry) : Prop where
  origin : ∀ f ∈ u.schema, f.id ∈ t.schemaIds ∨ t.nextFieldId ≤ f.id
  types : TypesAgree u.schema t.schema
  next : t.nextFieldId ≤ u.nextFieldId
  born : ∀ f ∈ u.schema, f.id ∈ t.schemaIds → a.born u.id f.id = a.born t.id f.id

/-- What came into `t` since the swap `r` records has columns of `t`, or newer than the swap. -/
def SinceSwap (a : Ancestry) (r : Retired) (t : TableEntry) : Prop :=
  ∀ g ∈ t.segments, g.id ∉ r.successorSegments → ∀ f ∈ a.written g.id,
    f.id ∈ t.schemaIds ∨ r.entry.nextFieldId ≤ f.id

/-- Swapped definitions, the last first, each with what was made out of it. -/
def Chained (a : Ancestry) (t : TableEntry) : List Retired → Prop
  | [] => True
  | r :: rest => Derives a r.entry t ∧ SinceSwap a r t ∧ Chained a r.entry rest

theorem cellOf_written {w : List SchemaField} (positive : ∀ f ∈ w, 0 < f.id) (row : Row) (id : Nat) :
    cellOf (w.map (·.id)) row id = cellAt w row id := by
  unfold cellOf fileColumn cellAt
  induction w generalizing row with
  | nil => rfl
  | cons f rest ih =>
    have first := positive f (.head _)
    have tail := ih (fun g member => positive g (.tail _ member))
    cases row with
    | nil => cases rest.map (·.id) <;> simp [List.findIdx?_cons]
    | cons v row =>
      by_cases same : f.id = id
      · simp [List.findIdx?_cons, same, (same ▸ first : 0 < id).ne']
      · have head : (f.id != 0 && f.id == id) = false := by simp [same]
        rw [List.map_cons, List.findIdx?_cons, head, List.zip_cons_cons, List.find?_cons_of_neg (by simpa using same)]
        rw [← tail row]
        simp [Option.bind_map, Function.comp_def]

theorem cellAt_eq_null {w : List SchemaField} {id : Nat} (absent : id ∉ w.map (·.id)) (row : Row) :
    cellAt w row id = .null := by
  unfold cellAt
  rw [List.find?_eq_none.mpr]
  · rfl
  · intro p member
    have listed : p.1 ∈ w := (List.of_mem_zip member).1
    simp only [beq_iff_eq]
    exact fun same => absent (same ▸ List.mem_map_of_mem listed)

section Segment

variable {files : Files} {a a' : Ancestry} {t u : TableEntry} {g : SegmentEntry}

/-- The statistics of a column that a segment lists. -/
theorem statsOf_zip {schema : List SchemaField} (aligned : Aligned schema g) (nodup : (schema.map (·.id)).Nodup)
    {p : SchemaField × ColumnStats} (member : p ∈ schema.zip g.columns) : g.statsOf p.1.id = p.2 := by
  have listed : (p.1.id, p.2) ∈ g.fieldIds.zip g.columns := by
    rw [aligned.1, List.zip_map_left]
    exact List.mem_map.mpr ⟨p, member, rfl⟩
  have keys : (g.fieldIds.zip g.columns).map Prod.fst = schema.map (·.id) := by
    rw [List.map_fst_zip (by simp [aligned.1, aligned.2]), aligned.1]
  have distinct : ((g.fieldIds.zip g.columns).map Prod.fst).Nodup := keys ▸ nodup
  have found := find?_key distinct listed
  unfold SegmentEntry.statsOf
  rw [found]

theorem exists_zip {schema : List SchemaField} (aligned : Aligned schema g) {f : SchemaField} (member : f ∈ schema) :
    ∃ stats, (f, stats) ∈ schema.zip g.columns := by
  obtain ⟨i, within, rfl⟩ := List.getElem_of_mem member
  have inside : i < g.columns.length := by rw [aligned.2]; exact within
  refine ⟨g.columns[i], ?_⟩
  rw [List.mem_iff_getElem]
  exact ⟨i, by simp [within, inside], by simp⟩

theorem statsOf_absent {id : Nat} (absent : id ∉ g.fieldIds) : g.statsOf id = ⟨g.rows, g.rows, none, none⟩ := by
  unfold SegmentEntry.statsOf
  rw [List.find?_eq_none.mpr]
  intro p member
  have listed := (List.of_mem_zip member).1
  simp only [beq_iff_eq]
  exact fun same => absent (same ▸ listed)

/-- A projection keeps the statistics of every column it keeps. -/
theorem statsOf_projectOnto {schema : List SchemaField} {f : SchemaField} (member : f ∈ schema) :
    (g.projectOnto schema).statsOf f.id = g.statsOf f.id := by
  have zipped : (g.projectOnto schema).fieldIds.zip (g.projectOnto schema).columns =
      schema.map fun f => (f.id, g.statsOf f.id) := List.zip_map'
  cases found : schema.find? (·.id == f.id) with
  | none => simpa using List.find?_eq_none.mp found f member
  | some k =>
    have same : k.id = f.id := by simpa using List.find?_some found
    conv_lhs => unfold SegmentEntry.statsOf
    rw [zipped, List.find?_map]
    have : schema.find? ((fun x : Nat × ColumnStats => x.1 == f.id) ∘ fun f => (f.id, g.statsOf f.id)) = some k := found
    rw [this, Option.map_some, same]

theorem Laid.faithful (laid : Laid files t g) (aligned : Aligned t.schema g) (ok : t.SchemaOk)
    (written : a.written g.id = t.schema) (stamp : a.stamp g.id = a.born t.id) : Faithful files a t g := by
  obtain ⟨file, found, fields, rows, hollow, counts⟩ := laid.file
  refine ⟨?_, ?_, ?_, ?_, ?_, ?_, file, found, ?_, rows, ?_, ?_⟩ <;> rw [written]
  · intro _ f _
    rw [laid.ids]
    rfl
  · intro _
    rw [laid.ids, TableEntry.schemaIds, List.length_map]
  · exact ok.ids.positive
  · exact ok.ids.below
  · intro f member h inside same
    rw [List.inj_on_of_nodup_map ok.ids.nodup member inside same]
  · intro f _ _
    rw [stamp]
  · exact fields
  · exact hollow
  · intro f member
    obtain ⟨stats, listed⟩ := exists_zip aligned member
    rw [statsOf_zip aligned ok.ids.nodup listed]
    exact counts _ listed

/-- A later state of a definition sees a segment as before. -/
theorem Faithful.later (faithful : Faithful files a t g) (schema : u.schema = t.schema) (id : u.id = t.id)
    (next : t.nextFieldId ≤ u.nextFieldId) : Faithful files a u g := by
  constructor
  · rw [schema]
    exact faithful.columns
  · exact faithful.count
  · exact faithful.positive
  · exact fun f member => (faithful.below f member).trans_le next
  · rw [schema]
    exact faithful.types
  · rw [schema, id]
    exact faithful.born
  · rw [schema]
    exact faithful.file

/-- A segment carried over to a schema that has of the segment's columns only those of the old one. -/
theorem Faithful.projectOnto (faithful : Faithful files a t g) (aligned : Aligned t.schema g)
    (overlaps : ∀ f ∈ u.schema, f.id ∈ t.schemaIds ∨ f.id ∉ (a.written g.id).map (·.id))
    (types : TypesAgree u.schema t.schema) (next : t.nextFieldId ≤ u.nextFieldId)
    (born : ∀ f ∈ u.schema, f.id ∈ t.schemaIds → a.born u.id f.id = a.born t.id f.id) :
    Faithful files a u (g.projectOnto u.schema) := by
  obtain ⟨file, found, fields, rows, hollow, counts⟩ := faithful.file
  have some_ (wide : a.written g.id ≠ []) : g.fileIds ≠ [] := by
    intro none_
    have := faithful.count wide
    rw [none_] at this
    exact wide (List.length_eq_zero_iff.mp this.symm)
  refine ⟨?_, ?_, faithful.positive, ?_, ?_, ?_, file, found, fields, rows, hollow, ?_⟩
  · intro wide f member
    rw [SegmentEntry.projectOnto_id] at wide ⊢
    rw [SegmentEntry.fileIds_projectOnto (some_ wide), fileColumn_masked, aligned.1]
    split
    · rename_i listed
      obtain ⟨h, inside, same⟩ := List.mem_map.mp listed
      rw [← same]
      exact faithful.columns wide h inside
    · rename_i hidden
      exact (fileColumn_eq_none ((overlaps f member).resolve_left hidden)).symm
  · intro wide
    rw [SegmentEntry.projectOnto_id] at wide ⊢
    rw [SegmentEntry.fileIds_projectOnto (some_ wide), List.length_map]
    exact faithful.count wide
  · exact fun f member => (faithful.below f member).trans_le next
  · intro f member h inside same
    rcases overlaps f member with listed | absent
    · obtain ⟨k, column, same'⟩ := List.mem_map.mp listed
      rw [types f member k column same'.symm]
      exact faithful.types k column h inside (same'.trans same)
    · exact absurd (List.mem_map.mpr ⟨h, inside, same.symm⟩) absent
  · intro f member written
    have listed := (overlaps f member).resolve_right (fun absent => absent written)
    obtain ⟨h, inside, same⟩ := List.mem_map.mp listed
    rw [born f member listed, ← same]
    rw [← same] at written
    exact faithful.born h inside written
  · intro f member
    rw [statsOf_projectOnto member, SegmentEntry.projectOnto_id]
    by_cases listed : f.id ∈ t.schemaIds
    · obtain ⟨h, inside, same⟩ := List.mem_map.mp listed
      rw [← same]
      exact counts h inside
    · -- a column the old schema lacks: no statistics, and nothing of it in the file
      have absent := (overlaps f member).resolve_left listed
      rw [statsOf_absent (by rw [aligned.1]; exact listed)]
      refine ⟨rows.symm, ?_⟩
      dsimp only
      rw [← rows, eq_comm, List.countP_eq_length]
      intro row _
      rw [cellAt_eq_null absent]
      rfl

end Segment

/-- Every segment of a definition is faithful to it. -/
def Upright (files : Files) (a : Ancestry) (t : TableEntry) : Prop := ∀ g ∈ t.segments, Faithful files a t g

/-- Later marks that leave alone what is known of a manifest's definitions and segments. -/
structure Agrees (m : Manifest) (a a' : Ancestry) : Prop where
  born : ∀ x < m.nextTableId, a'.born x = a.born x
  written : ∀ id, m.References id → a'.written id = a.written id
  stamp : ∀ id, m.References id → a'.stamp id = a.stamp id

section Agrees

variable {files : Files} {m : Manifest} {a a' : Ancestry} {t u : TableEntry}

theorem Upright.mono (upright : Upright files a t) (agrees : Agrees m a a') (c : Coherent m) (inside : t ∈ m.entries) :
    Upright files a' t := by
  intro g member
  have held : m.References g.id := references_of_entry inside (List.mem_map_of_mem member)
  obtain ⟨columns, count, positive, below, types, born, file⟩ := upright g member
  constructor <;> rw [agrees.written g.id held]
  · exact columns
  · exact count
  · exact positive
  · exact below
  · exact types
  · rw [agrees.born _ (c.ids_below t inside), agrees.stamp g.id held]
    exact born
  · exact file

theorem Derives.mono (derives : Derives a t u) (agrees : Agrees m a a') (c : Coherent m) (inside : t ∈ m.entries)
    (inside' : u ∈ m.entries) : Derives a' t u := by
  refine ⟨derives.origin, derives.types, derives.next, ?_⟩
  rw [agrees.born _ (c.ids_below t inside), agrees.born _ (c.ids_below u inside')]
  exact derives.born

theorem SinceSwap.mono {r : Retired} (since : SinceSwap a r t) (agrees : Agrees m a a') (inside : t ∈ m.entries) :
    SinceSwap a' r t := by
  intro g member new
  rw [agrees.written g.id (references_of_entry inside (List.mem_map_of_mem member))]
  exact since g member new

theorem Chained.mono {line : List Retired} (chained : Chained a t line) (agrees : Agrees m a a') (c : Coherent m)
    (inside : t ∈ m.entries) (kept : ∀ r ∈ line, r ∈ m.retired) : Chained a' t line := by
  induction line generalizing t with
  | nil => exact True.intro
  | cons r rest ih =>
    have old := entries_of_retired (kept r (.head _))
    obtain ⟨derives, since, chained⟩ := chained
    exact ⟨derives.mono agrees c old inside, since.mono agrees inside,
      ih chained old fun r' member => kept r' (.tail _ member)⟩

theorem Chained.initial {l l' : List Retired} (chained : Chained a t (l ++ l')) : Chained a t l := by
  induction l generalizing t with
  | nil => exact True.intro
  | cons r rest ih => exact ⟨chained.1, chained.2.1, ih chained.2.2⟩

/-- A table whose segments were there before, or were written on its own columns, follows on what its
    predecessor followed on. -/
theorem Chained.update {line : List Retired} (chained : Chained a t line) (schema : u.schema = t.schema)
    (next : t.nextFieldId ≤ u.nextFieldId) (id : u.id = t.id)
    (segments : ∀ g ∈ u.segments, g ∈ t.segments ∨ a.written g.id = t.schema) : Chained a u line := by
  cases line with
  | nil => exact True.intro
  | cons r rest =>
    obtain ⟨derives, since, chained⟩ := chained
    have ids : u.schemaIds = t.schemaIds := by rw [TableEntry.schemaIds, schema, TableEntry.schemaIds]
    refine ⟨⟨?_, ?_, derives.next.trans next, ?_⟩, ?_, chained⟩
    · rw [schema]
      exact derives.origin
    · rw [schema]
      exact derives.types
    · rw [schema, id]
      exact derives.born
    · intro g member new f inside
      rw [ids]
      rcases segments g member with old | own
      · exact since g old new f inside
      · rw [own] at inside
        exact .inl (List.mem_map_of_mem inside)

theorem Ancestry.settle_written (a : Ancestry) (t : TableEntry) {segments : List SegmentEntry} {g : SegmentEntry}
    (member : g ∈ segments) :
    (a.settle t segments).written g.id = t.schema ∧ (a.settle t segments).stamp g.id = a.born t.id :=
  ⟨if_pos (List.mem_map_of_mem member), if_pos (List.mem_map_of_mem member)⟩

/-- An edit marks new tables and new segments only. -/
theorem agrees_mark (m : Manifest) (e : Edit) (fresh : m.Fresh e) : Agrees m a (a.mark m e) := by
  have settled : ∀ (t : TableEntry) (segments : List SegmentEntry),
      (∀ id ∈ segments.map (·.id), ¬m.References id) → Agrees m a (a.settle t segments) := by
    intro t segments new
    refine ⟨fun _ _ => rfl, ?_, ?_⟩
    · exact fun id held => if_neg fun brought => new id brought held
    · exact fun id held => if_neg fun brought => new id brought held
  have same : Agrees m a a := ⟨fun _ _ => rfl, fun _ _ => rfl, fun _ _ => rfl⟩
  have new : ∀ id ∈ e.newIds, ¬m.References id := fun id brought => not_references_iff.mp (fresh id brought).1
  cases e with
  | createTable spec => exact ⟨fun x small => Function.update_of_ne small.ne _ _, fun _ _ => rfl, fun _ _ => rfl⟩
  | createJob table ops =>
    simp only [Ancestry.mark]
    split
    · exact ⟨fun x small => Function.update_of_ne small.ne _ _, fun _ _ => rfl, fun _ _ => rfl⟩
    · exact same
  | addSegments table segments =>
    simp only [Ancestry.mark]
    split
    · exact settled _ _ new
    · exact same
  | advanceJob job reused rewritten segments =>
    simp only [Ancestry.mark]
    split
    · exact settled _ _ new
    · exact same
  | swapJob job =>
    simp only [Ancestry.mark]
    split
    · exact ⟨fun _ _ => rfl, fun _ _ => rfl, fun _ _ => rfl⟩
    · exact same
  | _ => exact same

end Agrees

end Adelie
