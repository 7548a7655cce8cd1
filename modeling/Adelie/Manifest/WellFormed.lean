import Adelie.Manifest.Lineage
import Adelie.Manifest.Remade

namespace Adelie

open Manifest

/-- A tombstone predicate on a column of the schema, with a value of the column's exact type. -/
def Predicate.Fits (schema : List SchemaField) (p : Predicate) : Prop :=
  ∃ f ∈ schema, f.field.name = p.column ∧ p.value.isNull = false ∧ p.value.HasType f.field.ty

/-- How the segments of a definition lie on its schema. -/
structure TableEntry.Arranged (e : TableEntry) : Prop where
  sorted : e.segments.Pairwise (·.order ≤ ·.order)
  nodup : e.segmentIds.Nodup
  aligned : ∀ s ∈ e.segments, Aligned e.schema s
  fields_below : ∀ f ∈ e.schema, f.id < e.nextFieldId
  files_below : ∀ s ∈ e.segments, ∀ id ∈ s.fileIds, id < e.nextFieldId

/-- What holds inside one definition. -/
structure TableEntry.WellFormed (e : TableEntry) : Prop extends e.Arranged where
  tombstones : ∀ t ∈ e.tombstones, ∀ p ∈ t.predicates, p.Fits e.schema

/-- The claim of the manifest on itself. -/
structure Manifest.WellFormed (m : Manifest) : Prop where
  sorted : m.tables.Pairwise (·.name < ·.name)
  table_ids_nodup : (m.entries.map (·.id)).Nodup
  table_ids_below : ∀ e ∈ m.entries, e.id < m.nextTableId
  job_sources : ∀ j ∈ m.jobs, ∃ t ∈ m.tables, t.id = j.source
  one_job : (m.jobs.map (·.source)).Nodup
  segments_below : ∀ id, m.referencesSegment id = true → id < m.nextSegmentId
  entries : ∀ e ∈ m.entries, e.WellFormed

/-- The ids of new segments are fresh, distinct and below the last u64. -/
structure Manifest.NewSegments (m : Manifest) (segments : List SegmentEntry) : Prop where
  fresh : ∀ s ∈ segments, m.referencesSegment s.id = false ∧ s.id ∉ m.garbageIds
  nodup : (segments.map (·.id)).Nodup
  small : ∀ s ∈ segments, s.id + 1 < 2 ^ 64

/-- A file's own field ids, where it lists them, were handed out by the table. -/
def FilesBelow (t : TableEntry) (segments : List SegmentEntry) : Prop :=
  ∀ s ∈ segments, ∀ id ∈ s.fileFieldIds, id < t.nextFieldId

/-- What the callers of a commit answer for, edit by edit. A REVERT brings back a definition that
    agrees with the current one on the type of each column they share. -/
def Manifest.Accounted (m : Manifest) : Edit → Prop
  | .addSegments table segments =>
    m.NewSegments segments ∧ ∀ t ∈ m.tables, t.name = table → FilesBelow t segments
  | .advanceJob job reused rewritten segments =>
    m.NewSegments segments ∧ reused.Nodup ∧ rewritten.Nodup ∧
      ∀ j ∈ m.jobs, j.id = job → FilesBelow j.target segments
  | .revertTable table =>
    ∀ r ∈ rposition (fun r => r.reason == .swapped && r.entry.name == table) m.retired,
      ∀ t ∈ m.tables, t.name = table → TypesAgree t.schema r.found.entry.schema
  | _ => True

/-- The part of it that is about new segments. -/
def Manifest.Provided (m : Manifest) : Edit → Prop
  | .addSegments table segments =>
    m.NewSegments segments ∧ ∀ t ∈ m.tables, t.name = table → FilesBelow t segments
  | .advanceJob job reused rewritten segments =>
    m.NewSegments segments ∧ reused.Nodup ∧ rewritten.Nodup ∧
      ∀ j ∈ m.jobs, j.id = job → FilesBelow j.target segments
  | _ => True

variable {m m' : Manifest} {version nowMs : Nat}

theorem Manifest.Accounted.provided {e : Edit} (accounted : m.Accounted e) : m.Provided e := by
  cases e <;> first | exact accounted | exact True.intro

theorem Manifest.Provided.newIds {e : Edit} (provided : m.Provided e) :
    ∀ id ∈ e.newIds, (m.referencesSegment id = false ∧ id ∉ m.garbageIds) ∧ id + 1 < 2 ^ 64 := by
  cases e with
  | addSegments table segments =>
    intro id member
    obtain ⟨s, inside, rfl⟩ := List.mem_map.mp member
    exact ⟨provided.1.fresh s inside, provided.1.small s inside⟩
  | advanceJob job reused rewritten segments =>
    intro id member
    obtain ⟨s, inside, rfl⟩ := List.mem_map.mp member
    exact ⟨provided.1.fresh s inside, provided.1.small s inside⟩
  | _ => exact nofun

theorem Manifest.Provided.fresh {e : Edit} (provided : m.Provided e) : m.Fresh e :=
  fun id member => (provided.newIds id member).1

theorem Manifest.Provided.small {e : Edit} (provided : m.Provided e) : ∀ id ∈ e.newIds, id + 1 < 2 ^ 64 :=
  fun id member => (provided.newIds id member).2

namespace TableEntry.Arranged

theorem of_fewer {e : TableEntry} (ok : e.Arranged) {segments : List SegmentEntry} {tombstones : List Tombstone}
    (fewer : segments.Sublist e.segments) : { e with segments := segments, tombstones := tombstones }.Arranged :=
  ⟨ok.sorted.sublist fewer, ok.nodup.sublist (fewer.map _), fun s member => ok.aligned s (fewer.subset member),
    ok.fields_below, fun s member => ok.files_below s (fewer.subset member)⟩

/-- Segments brought into a definition, none of them already there. -/
theorem of_more {e : TableEntry} (ok : e.Arranged) {segments : List SegmentEntry}
    (nodup : (segments.map (·.id)).Nodup) (apart : ∀ s ∈ segments, s.id ∉ e.segmentIds)
    (aligned : ∀ s ∈ segments, Aligned e.schema s) (files : ∀ s ∈ segments, ∀ id ∈ s.fileIds, id < e.nextFieldId) :
    { e with segments := sortByKey SegmentEntry.order (e.segments ++ segments) }.Arranged := by
  refine ⟨sortByKey_sorted _ _, ?_, ?_, ok.fields_below, ?_⟩
  · have perm := (sortByKey_perm SegmentEntry.order (e.segments ++ segments)).map (·.id)
    refine perm.nodup_iff.mpr ?_
    rw [List.map_append]
    refine List.nodup_append.mpr ⟨ok.nodup, nodup, ?_⟩
    rintro id old id' brought rfl
    obtain ⟨s, inside, rfl⟩ := List.mem_map.mp brought
    exact apart s inside old
  · intro s member
    rcases List.mem_append.mp (mem_sortByKey.mp member) with member | member
    · exact ok.aligned s member
    · exact aligned s member
  · intro s member
    rcases List.mem_append.mp (mem_sortByKey.mp member) with member | member
    · exact ok.files_below s member
    · exact files s member

end TableEntry.Arranged

theorem Manifest.Aligned.fileIds_below {t : TableEntry} {s : SegmentEntry} (aligned : Aligned t.schema s)
    (fields : ∀ f ∈ t.schema, f.id < t.nextFieldId) (files : ∀ id ∈ s.fileFieldIds, id < t.nextFieldId) :
    ∀ id ∈ s.fileIds, id < t.nextFieldId := by
  intro id member
  unfold SegmentEntry.fileIds at member
  split at member
  · rw [aligned.1] at member
    obtain ⟨f, inside, rfl⟩ := List.mem_map.mp member
    exact fields f inside
  · exact files id member

theorem projectOnto_aligned (s : SegmentEntry) (schema : List SchemaField) :
    Aligned schema (s.projectOnto schema) := ⟨rfl, by simp [SegmentEntry.projectOnto]⟩

/-- A projected entry reads no file column that the entry itself did not. -/
theorem projectOnto_fileFieldIds {s : SegmentEntry} {schema : List SchemaField} {id : Nat}
    (member : id ∈ (s.projectOnto schema).fileFieldIds) : id = 0 ∨ id ∈ s.fileIds := by
  simp only [SegmentEntry.projectOnto] at member
  split at member
  · cases member
  · obtain ⟨id', inside, same⟩ := List.mem_map.mp member
    split at same
    · exact .inr (same ▸ inside)
    · exact .inl same.symm

theorem storedPredicate_fits {schema : List SchemaField} {p q : Predicate}
    (stored : storedPredicate schema p = .ok q) : q.Fits schema := by
  unfold storedPredicate at stored
  split at stored
  · cases stored
  · split at stored
    · cases stored
    · rename_i f known
      split at stored
      · cases stored
      · rename_i value fits
        cases stored
        obtain ⟨coerced, matches_⟩ := Option.filter_eq_some_iff.mp fits
        refine ⟨f, List.mem_of_find?_eq_some known, by simpa using List.find?_some known, ?_, coerce_type coerced⟩
        cases value with
        | null => simp [valueMatchesType] at matches_
        | _ => rfl

/-- A renamed tombstone fits the new schema when the two schemas agree on the column's type. -/
theorem Manifest.RenamedTombstone.fits {old new : List SchemaField} {t u : Tombstone} (renamed : RenamedTombstone old new t u)
    (names : (old.map (·.field.name)).Nodup) (types : TypesAgree new old)
    (fits : ∀ p ∈ t.predicates, p.Fits old) : ∀ q ∈ u.predicates, q.Fits new := by
  intro q member
  obtain ⟨p, inside, f, g, known, present, rfl⟩ := List.Forall₂.source renamed.2 member
  obtain ⟨h, column, named, value, typed⟩ := fits p inside
  have same : f = h := by
    refine List.inj_on_of_nodup_map names (List.mem_of_find?_eq_some known) column ?_
    simpa [named] using List.find?_some known
  have sameId : g.id = f.id := by simpa using List.find?_some present
  refine ⟨g, List.mem_of_find?_eq_some present, rfl, value, ?_⟩
  rw [types g (List.mem_of_find?_eq_some present) h column (sameId.trans (same ▸ rfl))]
  exact typed

end Adelie
