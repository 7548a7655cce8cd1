import Adelie.Lib.Fresh
import Adelie.Manifest.Entry
import Adelie.Types.Platform

namespace Adelie

/-- One pass over the ids, in order: a missing one is drawn from `next`. -/
def assignIds {α : Type} (P : Platform) (id : α → Nat) (set : α → Nat → α) : Nat → List α → Except String (Nat × List α)
  | next, [] => .ok (next, [])
  | next, x :: items =>
    if id x = 0 then do
      let after ← P.increment next
      let (last, rest) ← assignIds P id set after items
      return (last, set x next :: rest)
    else do
      let (last, rest) ← assignIds P id set next items
      return (last, x :: rest)

/-- The counter starts past every id assigned, later in the list or not. -/
def missingIds {α : Type} (P : Platform) (id : α → Nat) (set : α → Nat → α) (counter : Nat) (items : List α) :
    Except String (Nat × List α) := do
  let maxAssigned := (items.map id).max?.getD 0
  let above ← P.increment maxAssigned
  assignIds P id set (max (max counter above) 1) items

def setTableId (t : TableEntry) (id : Nat) : TableEntry := { t with id }

def setFieldId (f : SchemaField) (id : Nat) : SchemaField := { f with id }

def assignFieldIds (P : Platform) (t : TableEntry) : Except String TableEntry := do
  let (next, schema) ← missingIds P SchemaField.id setFieldId t.nextFieldId t.schema
  return { t with schema, nextFieldId := next }

/-- Where segments were written before tables had ids. -/
def TableName.legacyDir (name : TableName) : String := name.db ++ "/" ++ name.name

def SegmentEntry.inDir (s : SegmentEntry) (name : TableName) : SegmentEntry :=
  { s with dir := if s.dir.isEmpty then name.legacyDir else s.dir }

/-- Statistics without field ids are positional against the schema. -/
def SegmentEntry.identified (s : SegmentEntry) (schemaIds : List Nat) : SegmentEntry :=
  { s with fieldIds := if s.fieldIds.isEmpty && !s.columns.isEmpty then schemaIds else s.fieldIds }

def assignSegmentDirs (t : TableEntry) : TableEntry :=
  { t with segments := t.segments.map fun s => (s.inDir t.name).identified t.schemaIds }

/-- The ids and directories of one table. -/
def backfill (P : Platform) (t : TableEntry) : Except String TableEntry := do
  return assignSegmentDirs (← assignFieldIds P t)

def Garbage.inDir (g : Garbage) : Garbage := { g with segment := g.segment.inDir g.table }

def assignMissing (P : Platform) (m : Manifest) : Except String Manifest := do
  let (next, tables) ← missingIds P TableEntry.id setTableId m.nextTableId m.tables
  let tables ← tables.mapM (backfill P)
  return { m with nextTableId := next, tables, garbage := m.garbage.map Garbage.inDir }

section Missing

variable {α : Type} {P : Platform} {id : α → Nat} {set : α → Nat → α} {items : List α} {next counter : Nat}

theorem increment_ok {n : Nat} (small : n + 1 < 2 ^ 64) : P.increment n = .ok (n + 1) := if_pos small

theorem assignIds_ok (lens : IdLens id set) (room : next + (items.map id).count 0 < 2 ^ 64) :
    assignIds P id set next items =
      .ok (next + (items.map id).count 0, List.zipWith set items (fillMissing next (items.map id))) := by
  induction items generalizing next with
  | nil => rfl
  | cons x items ih =>
    rw [List.map_cons] at room ⊢
    by_cases missing : id x = 0
    · rw [missing, List.count_cons_self] at room ⊢
      rw [assignIds, if_pos missing, increment_ok (by omega)]
      have rest := ih (show next + 1 + (items.map id).count 0 < 2 ^ 64 by omega)
      simp only [bind, Except.bind, rest, pure, Except.pure, fillMissing, List.zipWith_cons_cons]
      rw [Nat.add_right_comm, Nat.add_assoc]
    · rw [List.count_cons_of_ne missing] at room ⊢
      obtain ⟨n, given⟩ := Nat.exists_eq_succ_of_ne_zero missing
      have same : set x (n + 1) = x := by
        have kept := lens.set_get x
        rwa [given] at kept
      rw [assignIds, if_neg missing, given]
      simp only [bind, Except.bind, ih room, pure, Except.pure, fillMissing, List.zipWith_cons_cons, same]

/-- The ids fit: none is the last of its type, and what is missing can be drawn. -/
def Room (counter : Nat) (ids : List Nat) : Prop := firstFresh counter ids + ids.count 0 < 2 ^ 64

/-- What a pass over the ids leaves. -/
structure Assigned (id : α → Nat) (set : α → Nat → α) (counter : Nat) (items : List α) (next : Nat) (after : List α) : Prop where
  keeps : List.Forall₂ (fun x y => y = set x (id y) ∧ (id x ≠ 0 → id y = id x)) items after
  given : ∀ y ∈ after, id y ≠ 0
  below : ∀ y ∈ after, id y < next
  counter_le : counter ≤ next
  next_pos : 0 < next
  next_lt : next < 2 ^ 64
  nodup : ((items.map id).filter (· ≠ 0)).Nodup → (after.map id).Nodup

theorem missingIds_ok (lens : IdLens id set) (room : Room counter (items.map id)) :
    ∃ next after, (∀ P, missingIds P id set counter items = .ok (next, after)) ∧ Assigned id set counter items next after := by
  let ids := items.map id
  let first := firstFresh counter ids
  have below : ∀ n ∈ ids, n < first := fun n member => lt_firstFresh member
  have pos : 0 < first := firstFresh_pos
  have lengths : items.length = (fillMissing first ids).length := by
    rw [← fillMissing_keeps.length_eq]
    exact (List.length_map id).symm
  have filled : (List.zipWith set items (fillMissing first ids)).map id = fillMissing first ids := map_zipWith_set lens lengths
  have drawn : ∀ y ∈ List.zipWith set items (fillMissing first ids), id y ∈ fillMissing first ids := by
    intro y member
    rw [← filled]
    exact List.mem_map_of_mem member
  have small : (ids.max?.getD 0) + 1 < 2 ^ 64 := by
    have : (ids.max?.getD 0) + 1 ≤ first := by
      unfold first firstFresh
      omega
    have : first + ids.count 0 < 2 ^ 64 := room
    omega
  refine ⟨first + ids.count 0, List.zipWith set items (fillMissing first ids), fun P => ?_, ?_⟩
  · rw [missingIds, increment_ok small]
    exact assignIds_ok lens room
  · exact {
      keeps := zipWith_set_keeps lens fillMissing_keeps
      given := fun y member => fillMissing_ne_zero pos (drawn y member)
      below := fun y member => fillMissing_lt below (drawn y member)
      counter_le := Nat.le_add_right_of_le le_firstFresh
      next_pos := Nat.add_pos_left pos _
      next_lt := room
      nodup := fun apart => filled.symm ▸ fillMissing_nodup below apart }

/-- With every id in place below the counter, nothing is drawn. -/
theorem missingIds_same (lens : IdLens id set) (given : ∀ x ∈ items, id x ≠ 0) (below : ∀ x ∈ items, id x < counter)
    (pos : 0 < counter) (small : counter < 2 ^ 64) : missingIds P id set counter items = .ok (counter, items) := by
  have given : ∀ n ∈ items.map id, n ≠ 0 := List.forall_mem_map.mpr given
  have below : ∀ n ∈ items.map id, n < counter := List.forall_mem_map.mpr below
  have first : firstFresh counter (items.map id) = counter := firstFresh_eq pos below
  have none_ : (items.map id).count 0 = 0 := List.count_eq_zero.mpr fun member => given 0 member rfl
  have least : ((items.map id).max?.getD 0) + 1 ≤ counter := by
    rw [← first]
    unfold firstFresh
    omega
  have same : List.zipWith set items (items.map id) = items := by
    rw [List.zipWith_map_right, List.zipWith_self]
    simp only [lens.set_get, List.map_id']
  have start : max (max counter ((items.map id).max?.getD 0 + 1)) 1 = counter := first
  rw [missingIds, increment_ok (by omega)]
  change assignIds P id set (max (max counter ((items.map id).max?.getD 0 + 1)) 1) items = _
  rw [start, assignIds_ok lens (by omega), none_, fillMissing_eq given, same]
  rfl

end Missing

theorem idLens_table : IdLens TableEntry.id setTableId := ⟨fun _ _ => rfl, fun _ => rfl⟩

theorem idLens_field : IdLens SchemaField.id setFieldId := ⟨fun _ _ => rfl, fun _ => rfl⟩

/-- A manifest whose ids and counters leave room for the ids it lacks. -/
structure Manifest.Room (m : Manifest) : Prop where
  tables : Adelie.Room m.nextTableId (m.tables.map (·.id))
  fields : ∀ t ∈ m.tables, Adelie.Room t.nextFieldId t.schemaIds

/-- What a segment of a table comes to. -/
structure SegmentEntry.Backfilled (name : TableName) (schemaIds : List Nat) (s s' : SegmentEntry) : Prop where
  dir_kept : s.dir ≠ "" → s'.dir = s.dir
  dir_given : s.dir = "" → s'.dir = name.db ++ "/" ++ name.name
  ids_kept : s.fieldIds ≠ [] → s'.fieldIds = s.fieldIds
  ids_given : s.fieldIds = [] → s.columns ≠ [] → s'.fieldIds = schemaIds
  ids_none : s.fieldIds = [] → s.columns = [] → s'.fieldIds = []
  rest : s' = { s with dir := s'.dir, fieldIds := s'.fieldIds }

/-- What a table comes to. -/
structure TableEntry.Backfilled (t t' : TableEntry) : Prop where
  id_kept : t.id ≠ 0 → t'.id = t.id
  id_given : t'.id ≠ 0
  schema : Assigned SchemaField.id setFieldId t.nextFieldId t.schema t'.nextFieldId t'.schema
  segments : List.Forall₂ (SegmentEntry.Backfilled t.name t'.schemaIds) t.segments t'.segments
  rest : t' = { t with id := t'.id, schema := t'.schema, nextFieldId := t'.nextFieldId, segments := t'.segments }

/-- What garbage comes to: a directory. -/
structure Garbage.Backfilled (g g' : Garbage) : Prop where
  dir_kept : g.segment.dir ≠ "" → g'.segment.dir = g.segment.dir
  dir_given : g.segment.dir = "" → g'.segment.dir = g.table.db ++ "/" ++ g.table.name
  rest : g' = { g with segment := { g.segment with dir := g'.segment.dir } }

/-- What a manifest comes to. -/
structure Manifest.Backfilled (m m' : Manifest) : Prop where
  tables : List.Forall₂ TableEntry.Backfilled m.tables m'.tables
  ids_below : ∀ t ∈ m'.tables, t.id < m'.nextTableId
  counter_le : m.nextTableId ≤ m'.nextTableId
  ids_nodup : ((m.tables.map (·.id)).filter (· ≠ 0)).Nodup → (m'.tables.map (·.id)).Nodup
  garbage : List.Forall₂ Garbage.Backfilled m.garbage m'.garbage
  rest : m' = { m with nextTableId := m'.nextTableId, tables := m'.tables, garbage := m'.garbage }

theorem legacyDir_ne_empty (name : TableName) : name.legacyDir ≠ "" := by
  intro empty
  have letters := congrArg String.toList empty
  rw [TableName.legacyDir, String.toList_append, String.toList_append] at letters
  simp at letters

theorem SegmentEntry.backfilled (s : SegmentEntry) (name : TableName) (schemaIds : List Nat) :
    s.Backfilled name schemaIds ((s.inDir name).identified schemaIds) where
  dir_kept := by
    intro named
    exact if_neg fun empty => named (String.isEmpty_iff.mp empty)
  dir_given := by
    intro empty
    exact if_pos (String.isEmpty_iff.mpr empty)
  ids_kept := by
    intro given
    apply if_neg
    simp [SegmentEntry.inDir, given]
  ids_given := by
    intro missing columns
    apply if_pos
    simp [SegmentEntry.inDir, missing, columns]
  ids_none := by
    intro missing columns
    simp [SegmentEntry.identified, SegmentEntry.inDir, missing, columns]
  rest := rfl

theorem Garbage.backfilled (g : Garbage) : g.Backfilled g.inDir where
  dir_kept := by
    intro named
    exact if_neg fun empty => named (String.isEmpty_iff.mp empty)
  dir_given := by
    intro empty
    exact if_pos (String.isEmpty_iff.mpr empty)
  rest := rfl

theorem forall₂_map {α β : Type} {R : α → β → Prop} {f : α → β} (each : ∀ x, R x (f x)) (l : List α) :
    List.Forall₂ R l (l.map f) := by
  rw [List.forall₂_map_right_iff]
  exact List.forall₂_same.mpr fun x _ => each x

/-- A table whose own id is settled. -/
theorem TableEntry.backfilled {t u : TableEntry} (room : Room t.nextFieldId t.schemaIds) (same : u = setTableId t u.id)
    (kept : t.id ≠ 0 → u.id = t.id) (given : u.id ≠ 0) :
    ∃ t', (∀ P, backfill P u = .ok t') ∧
      t'.id = u.id ∧ t.Backfilled t' := by
  obtain ⟨next, schema, runs, assigned⟩ := missingIds_ok idLens_field room
  refine ⟨assignSegmentDirs { u with schema, nextFieldId := next }, fun P => ?_, rfl, ?_⟩
  · have fields : u.nextFieldId = t.nextFieldId ∧ u.schema = t.schema := by
      rw [same]
      exact ⟨rfl, rfl⟩
    rw [backfill, assignFieldIds, fields.1, fields.2, runs P]
    rfl
  · rw [same]
    exact {
      id_kept := kept
      id_given := given
      schema := assigned
      segments := forall₂_map (fun s => s.backfilled t.name _) t.segments
      rest := rfl }

/-- A segment settled once stays. -/
theorem SegmentEntry.Backfilled.again {name : TableName} {schemaIds : List Nat} {s s' : SegmentEntry}
    (filled : s.Backfilled name schemaIds s') : (s'.inDir name).identified schemaIds = s' := by
  have placed : s'.dir ≠ "" := by
    by_cases empty : s.dir = ""
    · rw [filled.dir_given empty]
      exact legacyDir_ne_empty name
    · rw [filled.dir_kept empty]
      exact empty
  have columns : s'.columns = s.columns := by rw [filled.rest]
  have dir : s'.inDir name = s' := by
    rw [inDir, if_neg fun empty => placed (String.isEmpty_iff.mp empty)]
  rw [dir, identified]
  by_cases open_ : s'.fieldIds = [] ∧ s'.columns ≠ []
  · have missing : s.fieldIds = [] := by
      by_contra given
      exact given ((filled.ids_kept given).symm.trans open_.1)
    have ids := filled.ids_given missing (columns ▸ open_.2)
    rw [if_pos (by simp [open_.1, open_.2]), ← ids]
  · rw [if_neg]
    simpa using open_

/-- A table settled once stays. -/
theorem TableEntry.Backfilled.again {t t' : TableEntry} (filled : t.Backfilled t') (P : Platform) : backfill P t' = .ok t' := by
  have ids := filled.schema
  have name : t'.name = t.name := by rw [filled.rest]
  have same := missingIds_same (P := P) idLens_field ids.given ids.below ids.next_pos ids.next_lt
  have segments : t'.segments.map (fun s => (s.inDir t'.name).identified t'.schemaIds) = t'.segments := by
    rw [List.map_congr_left fun s' member => ?_, List.map_id]
    obtain ⟨s, _, settled⟩ := List.Forall₂.source filled.segments member
    rw [name]
    exact settled.again
  rw [backfill, assignFieldIds, same]
  change Except.ok { t' with segments := t'.segments.map fun s : SegmentEntry => (s.inDir t'.name).identified t'.schemaIds } = _
  rw [segments]

theorem Garbage.Backfilled.again {g g' : Garbage} (filled : g.Backfilled g') : g'.inDir = g' := by
  have table : g'.table = g.table := by rw [filled.rest]
  have placed : g'.segment.dir ≠ "" := by
    by_cases empty : g.segment.dir = ""
    · rw [filled.dir_given empty]
      exact legacyDir_ne_empty g.table
    · rw [filled.dir_kept empty]
      exact empty
  rw [inDir, SegmentEntry.inDir, if_neg fun empty => placed (String.isEmpty_iff.mp empty)]

/-- Every table settled in its turn. -/
theorem tables_backfilled {tables given : List TableEntry} (room : ∀ t ∈ tables, Room t.nextFieldId t.schemaIds)
    (keeps : List.Forall₂ (fun t u => u = setTableId t u.id ∧ (t.id ≠ 0 → u.id = t.id)) tables given)
    (nonzero : ∀ u ∈ given, u.id ≠ 0) :
    ∃ after, (∀ P, given.mapM (backfill P) = .ok after) ∧
      after.map (·.id) = given.map (·.id) ∧ List.Forall₂ TableEntry.Backfilled tables after := by
  induction keeps with
  | nil => exact ⟨[], fun _ => rfl, rfl, .nil⟩
  | @cons t u tables given kept keeps ih =>
    obtain ⟨rest, ran, ids, filled⟩ :=
      ih (fun t member => room t (List.mem_cons_of_mem _ member)) (fun u member => nonzero u (List.mem_cons_of_mem _ member))
    obtain ⟨t', made, id, one⟩ :=
      TableEntry.backfilled (room t List.mem_cons_self) kept.1 kept.2 (nonzero u List.mem_cons_self)
    refine ⟨t' :: rest, fun P => ?_, ?_, .cons one filled⟩
    · rw [List.mapM_cons, made P]
      simp only [bind, Except.bind, ran P]
      rfl
    · rw [List.map_cons, List.map_cons, id, ids]

/-- What an old manifest lacks is given to it, once and for all. -/
theorem assignMissing_ok (m : Manifest) (room : m.Room) :
    ∃ m', (∀ P, assignMissing P m = .ok m') ∧ m.Backfilled m' ∧ ∀ P, assignMissing P m' = .ok m' := by
  obtain ⟨next, given, runs, assigned⟩ := missingIds_ok idLens_table room.tables
  obtain ⟨tables, ran, ids, filled⟩ := tables_backfilled room.fields assigned.keeps assigned.given
  have below : ∀ t ∈ tables, t.id < next := by
    intro t member
    have kept : t.id ∈ given.map (·.id) := ids ▸ List.mem_map_of_mem member
    obtain ⟨u, inside, same⟩ := List.mem_map.mp kept
    exact same ▸ assigned.below u inside
  have settled : m.Backfilled { m with nextTableId := next, tables, garbage := m.garbage.map Garbage.inDir } := {
    tables := filled
    ids_below := below
    counter_le := assigned.counter_le
    ids_nodup := fun apart => ids ▸ assigned.nodup apart
    garbage := forall₂_map Garbage.backfilled m.garbage
    rest := rfl }
  refine ⟨_, fun P => ?_, settled, fun P => ?_⟩
  · rw [assignMissing, runs P]
    simp only [bind, Except.bind, ran P]
    rfl
  · have nonzero : ∀ t ∈ tables, t.id ≠ 0 := by
      intro t member
      obtain ⟨_, _, one⟩ := List.Forall₂.source filled member
      exact one.id_given
    have same := missingIds_same (P := P) idLens_table nonzero below assigned.next_pos assigned.next_lt
    have stays : tables.mapM (backfill P) = .ok tables := by
      apply mapM_except_of_forall₂
      rw [List.forall₂_same]
      intro t member
      obtain ⟨_, _, one⟩ := List.Forall₂.source filled member
      exact one.again P
    have placed : (m.garbage.map Garbage.inDir).map Garbage.inDir = m.garbage.map Garbage.inDir := by
      rw [List.map_map]
      exact List.map_congr_left fun g _ => g.backfilled.again
    rw [assignMissing, same]
    simp only [bind, Except.bind, stays, placed]
    rfl

/-- One table of two has no id, nor has its column, and its segment has neither directory nor field ids. -/
def unidentified : Manifest :=
  let segment : SegmentEntry := ⟨1, "_", 1, 1, 1, 0, [⟨1, 0, none, none⟩], [], "", [], []⟩
  { Manifest.empty with
    nextTableId := 0
    tables := [⟨4, ⟨"d", "a"⟩, "append", [], 1, [], none, [], none, none, [], [], []⟩,
      ⟨0, ⟨"d", "b"⟩, "append", [⟨0, ⟨"z", .scalar .int64⟩⟩], 0, [], none, [], none, none, [], [segment], []⟩]
    garbage := [⟨⟨"d", "a"⟩, segment, 1, 1⟩] }

theorem unidentified_room : unidentified.Room := by
  constructor
  · show firstFresh 0 [4, 0] + [4, 0].count 0 < 2 ^ 64
    decide
  · intro t member
    rcases List.mem_pair.mp member with rfl | rfl
    · show firstFresh 1 [] + [].count 0 < 2 ^ 64
      decide
    · show firstFresh 0 [0] + [0].count 0 < 2 ^ 64
      decide

theorem assignMissing_unidentified :
    ∃ m', (∀ P, assignMissing P unidentified = .ok m') ∧ unidentified.Backfilled m' ∧ ∀ P, assignMissing P m' = .ok m' :=
  assignMissing_ok unidentified unidentified_room

end Adelie
