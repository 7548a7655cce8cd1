import Adelie.Lib.Select
import Adelie.Storage.Rows

namespace Adelie

open Manifest

/-- A row of one schema on another, by field id; NULL in a column the first lacks. -/
def projectRow (old new : List SchemaField) (row : Row) : Row :=
  new.map fun f => ((old.findIdx? (·.id == f.id)).bind (row[·]?)).getD .null

/-- A new schema reads from the files of an old one nothing that the old one hides. -/
def Overlaps (old new : List SchemaField) (fileIds : List Nat) : Prop :=
  ∀ f ∈ new, f.id ∈ old.map (·.id) ∨ f.id ∉ fileIds

section Files

variable {old new : List SchemaField} {fileIds : List Nat}

theorem fileColumn_eq_none {id : Nat} (absent : id ∉ fileIds) : fileColumn fileIds id = none := by
  unfold fileColumn
  rw [List.findIdx?_eq_none_iff]
  intro fileId member
  have : fileId ≠ id := fun same => absent (same ▸ member)
  simp [this]

/-- Projecting rows read on the old schema is reading them on the new one. -/
theorem projectRow_rowAs (overlaps : Overlaps old new fileIds) (row : Row) :
    projectRow old new (rowAs fileIds old row) = rowAs fileIds new row := by
  unfold projectRow
  apply List.map_congr_left
  intro f member
  cases at_ : old.findIdx? (·.id == f.id) with
  | none =>
    have missing : f.id ∉ old.map (·.id) := by
      intro listed
      obtain ⟨g, inside, same⟩ := List.mem_map.mp listed
      simpa [same] using List.findIdx?_eq_none_iff.mp at_ g inside
    have absent := (overlaps f member).resolve_left missing
    simp [cellOf, fileColumn_eq_none absent]
  | some i =>
    obtain ⟨within, same, _⟩ := List.findIdx?_eq_some_iff_getElem.mp at_
    simp only [beq_iff_eq] at same
    simp [rowAs, within, same]

/-- A column hidden by a projection is one the entry does not list. -/
theorem fileColumn_masked (fieldIds : List Nat) (id : Nat) :
    fileColumn (fileIds.map fun x => if x ≠ 0 ∧ x ∈ fieldIds then x else 0) id =
      if id ∈ fieldIds then fileColumn fileIds id else none := by
  unfold fileColumn
  rw [List.findIdx?_map]
  split
  · rename_i listed
    congr 1
    funext x
    simp only [Function.comp_apply]
    by_cases kept : x ≠ 0 ∧ x ∈ fieldIds
    · rw [if_pos kept]
    · rw [if_neg kept]
      by_cases zero : x = 0
      · simp [zero]
      · have : x ≠ id := fun same => kept ⟨zero, same ▸ listed⟩
        simp [this]
  · rename_i hidden
    rw [List.findIdx?_eq_none_iff]
    intro x _
    simp only [Function.comp_apply]
    by_cases kept : x ≠ 0 ∧ x ∈ fieldIds
    · have : x ≠ id := fun same => hidden (same ▸ kept.2)
      simp [kept, this]
    · simp [kept]

theorem SegmentEntry.fileIds_projectOnto {s : SegmentEntry} (some_ : s.fileIds ≠ []) (schema : List SchemaField) :
    (s.projectOnto schema).fileIds = s.fileIds.map fun x => if x ≠ 0 ∧ x ∈ s.fieldIds then x else 0 := by
  unfold SegmentEntry.projectOnto
  generalize masked : (s.fileIds.map fun x => if x ≠ 0 ∧ x ∈ s.fieldIds then x else 0) = ids
  have nonempty : ids ≠ [] := by
    rw [← masked]
    simpa using some_
  by_cases same : ids = schema.map (·.id)
  · simp [SegmentEntry.fileIds, same]
  · simp [SegmentEntry.fileIds, same, nonempty]

end Files

section Segment

variable {files : Files} {old new : List SchemaField} {s : SegmentEntry}

/-- A reused segment holds the rows it held. -/
theorem rowsOf_projectOnto (some_ : s.fileIds ≠ []) (lists : s.fieldIds = old.map (·.id))
    (overlaps : Overlaps old new s.fileIds) : rowsOf files new (s.projectOnto new) = rowsOf files new s := by
  have path : (s.projectOnto new).path = s.path := rfl
  unfold rowsOf
  rw [path]
  cases files s.path with
  | none => rfl
  | some file =>
    apply List.map_congr_left
    intro row _
    apply List.map_congr_left
    intro f member
    unfold cellOf
    rw [SegmentEntry.fileIds_projectOnto some_, fileColumn_masked]
    split
    · rfl
    · rename_i hidden
      rw [lists] at hidden
      rw [fileColumn_eq_none ((overlaps f member).resolve_left hidden)]

theorem opens_projectOnto (some_ : s.fileIds ≠ []) (lists : s.fieldIds = old.map (·.id))
    (types : TypesAgree new old) (opens : Opens files old s) : Opens files new (s.projectOnto new) := by
  obtain ⟨file, found, readable⟩ := opens
  refine ⟨file, found, ?_, ?_⟩
  · rw [SegmentEntry.fileIds_projectOnto some_, List.length_map]
    exact readable.count
  · intro f member i at_
    rw [SegmentEntry.fileIds_projectOnto some_, fileColumn_masked] at at_
    split at at_
    · rename_i listed
      rw [lists] at listed
      obtain ⟨g, inside, same⟩ := List.mem_map.mp listed
      rw [← same] at at_
      obtain ⟨column, has, typed⟩ := readable.types g inside i at_
      exact ⟨column, has, typed.trans (types f member g inside same.symm).symm⟩
    · cases at_

end Segment

section Tombstones

variable {old new : List SchemaField} {fileIds : List Nat} {row : Row}

/-- A renamed predicate reads the same cell. -/
theorem RenamedPredicate.test (names : (new.map (·.field.name)).Nodup) {p q : Predicate}
    (renamed : RenamedPredicate old new p q) :
    q.test new (rowAs fileIds new row) = p.test old (rowAs fileIds old row) := by
  obtain ⟨f, g, known, present, rfl⟩ := renamed
  have sameId : g.id = f.id := by simpa using List.find?_some present
  rw [rowAs, rowAs, Predicate.test_map, Predicate.test_map, known,
    find?_key names (List.mem_of_find?_eq_some present)]
  simp [sameId]

theorem RenamedTombstone.test (names : (new.map (·.field.name)).Nodup) {t u : Tombstone}
    (renamed : RenamedTombstone old new t u) :
    u.test new (rowAs fileIds new row) = t.test old (rowAs fileIds old row) := by
  have each := renamed.2
  unfold Tombstone.test
  generalize t.predicates = ps at each
  generalize u.predicates = qs at each
  congr 1
  induction each with
  | nil => rfl
  | cons head _ tail => rw [List.map_cons, List.map_cons, RenamedPredicate.test names head, tail]

/-- Renamed tombstones, cut at one seq, delete the same rows. -/
theorem deleted_renamed (names : (new.map (·.field.name)).Nodup) {ts us : List Tombstone}
    (renamed : List.Forall₂ (RenamedTombstone old new) ts us) (seq : Nat) :
    deleted new (us.filter fun x => seq < x.seq) (rowAs fileIds new row) =
      deleted old (ts.filter fun x => seq < x.seq) (rowAs fileIds old row) := by
  unfold deleted
  have same : (us.filter fun x => seq < x.seq).map (·.test new (rowAs fileIds new row)) =
      (ts.filter fun x => seq < x.seq).map (·.test old (rowAs fileIds old row)) := by
    induction renamed with
    | nil => rfl
    | cons head _ tail =>
      simp only [List.filter_cons, head.1]
      split
      · rw [List.map_cons, List.map_cons, RenamedTombstone.test names head, tail]
      · exact tail
  rw [same]

theorem checkTombstones_renamed (names : (new.map (·.field.name)).Nodup) (types : TypesAgree new old)
    {ts us : List Tombstone} (renamed : List.Forall₂ (RenamedTombstone old new) ts us) {seq : Nat}
    (checked : checkTombstones old (ts.filter fun x => seq < x.seq) = .ok ()) :
    checkTombstones new (us.filter fun x => seq < x.seq) = .ok () := by
  refine forM_eq_ok.mpr fun u member => forM_eq_ok.mpr fun q inside => ?_
  obtain ⟨listed, later⟩ := List.mem_filter.mp member
  obtain ⟨t, listed', same, each⟩ := List.Forall₂.source renamed listed
  obtain ⟨p, inside', f, g, known, present, rfl⟩ := List.Forall₂.source each inside
  have later' : t ∈ ts.filter fun x => seq < x.seq := List.mem_filter.mpr ⟨listed', by rw [← same]; exact later⟩
  have passed := forM_eq_ok.mp (forM_eq_ok.mp checked t later') p inside'
  unfold checkPredicate at passed ⊢
  rw [known] at passed
  rw [find?_key names (List.mem_of_find?_eq_some present)]
  have sameId : g.id = f.id := by simpa using List.find?_some present
  have typed := types g (List.mem_of_find?_eq_some present) f (List.mem_of_find?_eq_some known) sameId
  dsimp only at passed ⊢
  rw [typed]
  exact ensure_eq_ok.mpr (ensure_eq_ok.mp passed)

end Tombstones

end Adelie
