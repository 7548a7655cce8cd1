import Adelie.Lib.Select
import Adelie.Manifest.Move

namespace Adelie.Manifest

/-- A job and the live table it migrates. Every segment of the table that its target already
    holds has been handled. -/
structure JobFor (t : TableEntry) (j : Job) : Prop where
  source : t.id = j.source
  name : j.target.name = t.name
  types : TypesAgree j.target.schema t.schema
  fields : t.nextFieldId ≤ j.target.nextFieldId
  carried : ∀ id ∈ j.target.segmentIds, id ∈ t.segmentIds → id ∈ j.handled

/-- A definition in use shares nothing with a dropped one, and with a swapped one only what the
    swap carried over. -/
def Apart (ids : List Nat) (r : Retired) : Prop :=
  ∀ id ∈ ids, id ∈ r.entry.segmentIds →
    r.reason = .reverted ∨ r.reason = .swapped ∧ id ∈ r.successorSegments

/-- The definitions in use: live tables and job targets. -/
def current (m : Manifest) : List TableEntry := m.tables ++ m.jobs.map (·.target)

/-- How the definitions of a manifest hang together. -/
structure Coherent (m : Manifest) : Prop where
  sorted : m.tables.Pairwise (·.name < ·.name)
  ids : (m.entries.map (·.id)).Nodup
  ids_below : ∀ e ∈ m.entries, e.id < m.nextTableId
  jobs : ∀ j ∈ m.jobs, ∃ t ∈ m.tables, JobFor t j
  sources : (m.jobs.map (·.source)).Nodup
  schemas : ∀ e ∈ m.entries, e.SchemaOk
  names : ∀ e₁ ∈ m.entries, ∀ e₂ ∈ m.entries, ∀ id ∈ e₁.segmentIds, id ∈ e₂.segmentIds → e₁.name = e₂.name
  apart : ∀ e ∈ m.current, ∀ r ∈ m.retired, Apart e.segmentIds r
  past : m.retired.Pairwise fun a b => b.reason ≠ .reverted → Apart b.entry.segmentIds a

variable {m m' : Manifest} {new : List Nat}

theorem mem_current {e : TableEntry} : e ∈ m.current ↔ e ∈ m.tables ∨ ∃ j ∈ m.jobs, j.target = e := by
  simp [current]

theorem references_of_entry {e : TableEntry} {id : Nat} (inside : e ∈ m.entries) (held : id ∈ e.segmentIds) :
    m.References id := ⟨e, inside, held⟩

theorem table_eq_some (sorted : m.tables.Pairwise (·.name < ·.name)) {t : TableEntry}
    (live : t ∈ m.tables) : m.table t.name = some t := by
  exact find?_key (List.pairwise_map.mpr (sorted.imp fun h => h.ne)) live

theorem table_live {name : TableName} {t : TableEntry} (at_ : m.table name = some t) :
    t ∈ m.tables ∧ t.name = name :=
  ⟨List.mem_of_find?_eq_some at_, by simpa using List.find?_some at_⟩

namespace Coherent

theorem table_unique (c : Coherent m) {t u : TableEntry} (live : t ∈ m.tables) (live' : u ∈ m.tables)
    (same : t.id = u.id) : t = u := by
  have nodup : (m.tables.map (·.id)).Nodup := by
    have all := c.ids
    rw [entries, List.map_append] at all
    exact all.of_append_left
  exact List.inj_on_of_nodup_map nodup live live' same

theorem named_unique (c : Coherent m) {t u : TableEntry} (live : t ∈ m.tables) (live' : u ∈ m.tables)
    (same : t.name = u.name) : t = u := by
  have nodup : (m.tables.map (·.name)).Nodup :=
    List.pairwise_map.mpr (c.sorted.imp fun h => h.ne)
  exact List.inj_on_of_nodup_map nodup live live' same

theorem job_unique (c : Coherent m) {i j : Job} (running : i ∈ m.jobs) (running' : j ∈ m.jobs)
    (same : i.source = j.source) : i = j :=
  List.inj_on_of_nodup_map c.sources running running' same

theorem jobFor (c : Coherent m) {j : Job} (running : j ∈ m.jobs) {t : TableEntry} (live : t ∈ m.tables)
    (source : t.id = j.source) : JobFor t j := by
  obtain ⟨u, live', job⟩ := c.jobs j running
  rwa [c.table_unique live live' (source.trans job.source.symm)]

/-- A job whose target shares a segment with a live table migrates that table. -/
theorem source_of_shared (c : Coherent m) {j : Job} (running : j ∈ m.jobs) {t : TableEntry}
    (live : t ∈ m.tables) {id : Nat} (held : id ∈ j.target.segmentIds) (held' : id ∈ t.segmentIds) :
    j.source = t.id := by
  obtain ⟨u, live', job⟩ := c.jobs j running
  have same := c.names _ (entries_of_job running) _ (entries_of_table live) id held held'
  rw [c.named_unique live live' (same.symm.trans job.name), job.source]

/-- No part of it reads the version. -/
theorem versionless (c : Coherent m) (version : Nat) : Coherent { m with version := version } :=
  ⟨c.sorted, c.ids, c.ids_below, c.jobs, c.sources, c.schemas, c.names, c.apart, c.past⟩

theorem empty : Coherent Manifest.empty :=
  ⟨.nil, .nil, nofun, nofun, .nil, nofun, nofun, nofun, .nil⟩

end Coherent

namespace Move

theorem sorted (move : Move m m' new) (c : Coherent m) : m'.tables.Pairwise (·.name < ·.name) := by
  cases move with
  | quiet tables jobs retired next => exact tables ▸ c.sorted
  | create entry id segments schema absent tables jobs retired next =>
    rw [tables]
    exact insertByKey_sorted c.sorted absent
  | update spot t whole same segments tables jobs retired next =>
    rw [tables]
    exact Located.replaced_sorted (by rw [same]) (whole ▸ c.sorted)
  | plan spot job whole idle source id segments planned tables jobs retired next => exact tables ▸ c.sorted
  | carry spot source job whole live from_ same sameSource segments handled tables jobs retired next =>
    exact tables ▸ c.sorted
  | cancel spot whole tables jobs retired next => exact tables ▸ c.sorted
  | swap job source t r wholeJobs wholeTables from_ same entry reason successors tables jobs retired next =>
    have order := wholeTables ▸ c.sorted
    have running : job.found ∈ m.jobs := by simp [wholeJobs]
    have name := (c.jobFor running (by simp [wholeTables]) from_).name
    rw [tables]
    refine insertByKey_sorted (order.sublist (source.removed_sublist _)) ?_
    rw [same, name]
    exact Located.key_ne_of_sorted order
  | revert r cur t old wholeRetired wholeTables reason named idle successors id name schema fields segments
      entry oldReason tables jobs retired next =>
    have order := wholeTables ▸ c.sorted
    rw [tables]
    refine insertByKey_sorted (order.sublist (cur.removed_sublist _)) ?_
    rw [name, named]
    exact Located.key_ne_of_sorted order
  | drop spot r whole idle entry reason tables jobs retired next =>
    rw [tables]
    exact (whole ▸ c.sorted).sublist (spot.removed_sublist _)
  | undrop r whole reason absent tables jobs retired next =>
    rw [tables]
    exact insertByKey_sorted c.sorted absent

end Move

section Ids

/-- The table ids of all definitions, each as often as it occurs. -/
def idBag (m : Manifest) : Multiset Nat :=
  ↑(m.tables.map (·.id)) + ↑(m.retired.map (·.entry.id)) + ↑(m.jobs.map (·.target.id))

theorem coe_entry_ids (m : Manifest) : ((m.entries.map (·.id) : List Nat) : Multiset Nat) = m.idBag := by
  simp only [entries, idBag, List.map_append, List.map_map, Function.comp_def, ← Multiset.coe_add, add_assoc]

variable {α : Type} (f : α → Nat)

theorem bag_replaced (s : Located α) (x : α) :
    (((s.replaced x).map f : List Nat) : Multiset Nat) = {f x} + ↑(s.removed.map f) :=
  Multiset.coe_eq_coe.mpr ((s.replaced_perm x).map f)

theorem bag_insertByKey {κ : Type} [LinearOrder κ] (key : α → κ) (x : α) (l : List α) :
    (((insertByKey key x l).map f : List Nat) : Multiset Nat) = {f x} + ↑(l.map f) :=
  Multiset.coe_eq_coe.mpr ((insertByKey_perm key x l).map f)

theorem bag_concat (l : List α) (x : α) :
    (((l ++ [x]).map f : List Nat) : Multiset Nat) = ↑(l.map f) + {f x} := by
  rw [List.map_append, ← Multiset.coe_add]
  rfl

end Ids

/-- A move hands out at most one table id, the next one, and otherwise only moves ids around. -/
theorem Move.idBag_le (move : Move m m' new) :
    m'.nextTableId = m.nextTableId ∧ m'.idBag ≤ m.idBag ∨
    m'.nextTableId = m.nextTableId + 1 ∧ m'.idBag ≤ {m.nextTableId} + m.idBag := by
  cases move with
  | quiet tables jobs retired next =>
    refine .inl ⟨next, ?_⟩
    rw [idBag, idBag, tables, jobs]
    exact add_le_add_left (add_le_add_right (Multiset.coe_le.mpr (retired.map _).subperm) _) _
  | create entry id segments schema absent tables jobs retired next =>
    refine .inr ⟨next, le_of_eq ?_⟩
    rw [idBag, idBag, tables, jobs, retired, bag_insertByKey, id]
    abel
  | update spot t whole same segments tables jobs retired next =>
    refine .inl ⟨next, le_of_eq ?_⟩
    rw [idBag, idBag, tables, jobs, retired, whole, bag_replaced, bag_replaced, same]
  | plan spot job whole idle source id segments planned tables jobs retired next =>
    refine .inr ⟨next, le_of_eq ?_⟩
    rw [idBag, idBag, tables, jobs, retired, bag_concat, id]
    abel
  | carry spot source job whole live from_ same sameSource segments handled tables jobs retired next =>
    refine .inl ⟨next, le_of_eq ?_⟩
    rw [idBag, idBag, tables, jobs, retired, whole, bag_replaced, bag_replaced, same]
  | cancel spot whole tables jobs retired next =>
    refine .inl ⟨next, ?_⟩
    rw [idBag, idBag, tables, jobs, retired, whole, bag_replaced]
    exact add_le_add_right (Multiset.le_add_left _ _) _
  | swap job source t r wholeJobs wholeTables from_ same entry reason successors tables jobs retired next =>
    refine .inl ⟨next, le_of_eq ?_⟩
    rw [idBag, idBag, tables, jobs, retired, wholeJobs, wholeTables, bag_insertByKey, bag_concat, bag_replaced,
      bag_replaced, entry, same]
    abel
  | revert r cur t old wholeRetired wholeTables reason named idle successors id name schema fields segments
      entry oldReason tables jobs retired next =>
    refine .inl ⟨next, le_of_eq ?_⟩
    rw [idBag, idBag, tables, jobs, retired, wholeRetired, wholeTables, bag_insertByKey, bag_concat, bag_replaced,
      bag_replaced, entry, id]
    abel
  | drop spot r whole idle entry reason tables jobs retired next =>
    refine .inl ⟨next, le_of_eq ?_⟩
    rw [idBag, idBag, tables, jobs, retired, whole, bag_concat, bag_replaced, entry]
    abel
  | undrop r whole reason absent tables jobs retired next =>
    refine .inl ⟨next, le_of_eq ?_⟩
    rw [idBag, idBag, tables, jobs, retired, whole, bag_insertByKey, bag_replaced]
    abel

theorem Move.ids (move : Move m m' new) (c : Coherent m) :
    (m'.entries.map (·.id)).Nodup ∧ ∀ e ∈ m'.entries, e.id < m'.nextTableId := by
  have nodup : m.idBag.Nodup := coe_entry_ids m ▸ c.ids
  have below : ∀ id ∈ m.idBag, id < m.nextTableId := by
    intro id member
    rw [← coe_entry_ids, Multiset.mem_coe, List.mem_map] at member
    obtain ⟨e, inside, rfl⟩ := member
    exact c.ids_below e inside
  have mem : ∀ e ∈ m'.entries, e.id ∈ m'.idBag := fun e inside =>
    coe_entry_ids m' ▸ Multiset.mem_coe.mpr (List.mem_map_of_mem inside)
  rw [← Multiset.coe_nodup, coe_entry_ids]
  rcases move.idBag_le with ⟨next, le⟩ | ⟨next, le⟩
  · refine ⟨Multiset.nodup_of_le le nodup, fun e inside => ?_⟩
    rw [next]
    exact below _ (Multiset.mem_of_le le (mem e inside))
  · refine ⟨Multiset.nodup_of_le le (Multiset.nodup_cons.mpr ⟨fun member => ?_, nodup⟩), fun e inside => ?_⟩
    · exact (below _ member).false
    · have member := Multiset.mem_of_le le (mem e inside)
      rw [Multiset.mem_add, Multiset.mem_singleton] at member
      rcases member with same | member
      · omega
      · have := below _ member
        omega

end Adelie.Manifest
