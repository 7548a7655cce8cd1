import Adelie.Manifest.Covered
import Adelie.Manifest.Sourced
import Adelie.Storage.Migration

namespace Adelie

open Manifest

/-- A store after a swap, with an account of what was written to the swapped-in table since, each row
    with its seq, and what was deleted from it. -/
structure Site where
  manifest : Manifest
  files : Files
  rows : List (Nat × Row)
  deletes : List Tombstone

/-- The rows an edit writes to a table. -/
def flushedRows (table : TableName) (schema : List SchemaField) (files : Files) : Edit → List (Nat × Row)
  | .addSegments name segments => if name = table then segments.flatMap (tagged files schema) else []
  | _ => []

/-- The delete an edit issues on a table. -/
def issuedDeletes (table : TableName) (schema : List SchemaField) (seq : Nat) : Edit → List Tombstone
  | .addTombstone name predicates =>
    if name = table then
      match predicates.mapM (storedPredicate schema) with
      | .ok stored => [⟨seq, stored⟩]
      | .error _ => []
    else []
  | _ => []

/-- A flush whose segments are written, on their table's own columns, or a delete. A segment without
    columns has no rows. -/
def Writes (files : Files) (m : Manifest) : Edit → Prop
  | .addSegments name segments => ∀ t ∈ m.tables, t.name = name → ∀ g ∈ segments,
    ∃ rows, Wrote files t (m.version + 1) rows g ∧ (t.schema = [] → rows = [])
  | .addTombstone _ _ => True
  | _ => False

section Steps

variable (table : TableName) (schema : List SchemaField)

/-- One commit of flushes and deletes, on whatever tables. -/
structure WriteStep (s s' : Site) : Prop where
  files : Extends s.files s'.files
  commit : ∃ (c : Commit) (nowMs : Nat), c.apply s.manifest nowMs = .ok s'.manifest ∧
    Supplied (applyEdit (s.manifest.version + 1) nowMs) (fun m e => m.Given e ∧ Writes s'.files m e)
      s.manifest c.edits ∧
    s'.rows = s.rows ++ c.edits.flatMap (flushedRows table schema s'.files) ∧
    s'.deletes = s.deletes ++ c.edits.flatMap (issuedDeletes table schema (s.manifest.version + 1))

/-- A compaction of some table, with flushes and deletes between its read and its commit. -/
structure CompactStep (s s' : Site) : Prop where
  ran : ∃ (handed : Nat → Nat) (encode : SegmentFile → Except StorageError Footer) (maxRows : Nat) (t : TableEntry)
    (plans : List MergePlan) (st : MergeState) (mid : Site) (base nowMs : Nat),
    t ∈ s.manifest.tables ∧ (plans.flatMap (·.inputs)).Nodup ∧ handed.Injective ∧
    Unwritten handed (.start s.files) ∧ mergePlans handed encode maxRows t s.files plans = .ok st ∧
    Relation.ReflTransGen (WriteStep table schema) s mid ∧ Extends st.files mid.files ∧
    Supplied (applyEdit (mid.manifest.version + 1) nowMs) Given mid.manifest (st.edits t.name) ∧
    (Commit.mk base (st.edits t.name)).apply mid.manifest nowMs = .ok s'.manifest ∧
    s'.files = mid.files ∧ s'.rows = mid.rows ∧ s'.deletes = mid.deletes

/-- Flushes, deletes and compactions, in any order. -/
def Since : Site → Site → Prop :=
  Relation.ReflTransGen fun s s' => WriteStep table schema s s' ∨ CompactStep table schema s s'

end Steps

/-- The segments that came after the swap `r` records. -/
def addedSince (r : Retired) (u : TableEntry) : List SegmentEntry :=
  u.segments.filter fun s => !r.successorSegments.contains s.id

/-- The tombstones a table has, and any that come after `version`. -/
def Later (version : Nat) (u : TableEntry) (tombstones : List Tombstone) : Prop :=
  ∀ x ∈ tombstones, x ∈ u.tombstones ∨ version < x.seq

/-- The segments since the swap hold the rows written since, under every delete that may come. -/
structure Accounts (r : Retired) (files : Files) (version : Nat) (rows : List (Nat × Row)) (u : TableEntry) : Prop where
  newer : ∀ g ∈ addedSince r u, r.version < g.seq
  ids : ∀ g ∈ addedSince r u, g.fileIds = u.schemaIds
  opens : ∀ g ∈ addedSince r u, Opens files u.schema g
  hollow : u.schema = [] → ∀ g ∈ addedSince r u, rowsOf files u.schema g = []
  rows : ∀ tombstones, Later version u tombstones →
    ((addedSince r u).flatMap (visible files u.schema tombstones)).Perm
      ((rows.filter (survives u.schema tombstones)).map Prod.snd)

/-- A table on the way from its swap: its schema is the target's, its tombstones are those of the
    swap and the deletes since, and while it has every segment of the swap the others are accounted
    for. -/
structure Onward (r : Retired) (target : TableEntry) (files : Files) (version : Nat) (rows : List (Nat × Row))
    (deletes : List Tombstone) (u : TableEntry) : Prop where
  id : u.id = target.id
  name : u.name = target.name
  schema : u.schema = target.schema
  tombstones : u.tombstones = target.tombstones ++ deletes
  accounts : (∀ id ∈ r.successorSegments, id ∈ u.segmentIds) → Accounts r files version rows u

/-- A manifest on the way from the swap that retired `r` and installed `target`. -/
structure Held (r : Retired) (target : TableEntry) (files : Files) (rows : List (Nat × Row)) (deletes : List Tombstone)
    (m : Manifest) : Prop where
  sound : Sound m
  after : r.version ≤ m.version
  last : ∃ spot ∈ rposition (fun r => r.reason == .swapped && r.entry.name == target.name) m.retired, spot.found = r
  known : ∀ id ∈ r.successorSegments, m.Knows id
  idle : ∀ j ∈ m.jobs, j.source ≠ target.id
  issued : ∀ x ∈ deletes, r.version < x.seq ∧ ∀ p ∈ x.predicates, p.Fits target.schema
  live : ∃ u ∈ m.tables, Onward r target files m.version rows deletes u

section Writes

variable {r : Retired} {target : TableEntry} {files files' : Files} {rows : List (Nat × Row)} {deletes : List Tombstone}
  {m m' : Manifest}

theorem Accounts.mono {version : Nat} {u : TableEntry} (accounts : Accounts r files version rows u)
    (grown : Extends files files') : Accounts r files' version rows u := by
  refine ⟨accounts.newer, accounts.ids, fun g member => (accounts.opens g member).mono grown, ?_, ?_⟩
  · intro columnless g member
    rw [rowsOf_mono (accounts.opens g member) grown]
    exact accounts.hollow columnless g member
  · intro tombstones later
    rw [flatMap_visible_mono accounts.opens grown]
    exact accounts.rows tombstones later

theorem Accounts.later {version version' : Nat} {u u' : TableEntry} (accounts : Accounts r files version rows u)
    (segments : u'.segments = u.segments) (schema : u'.schema = u.schema)
    (narrows : ∀ tombstones, Later version' u' tombstones → Later version u tombstones) :
    Accounts r files version' rows u' := by
  have same : addedSince r u' = addedSince r u := by rw [addedSince, segments, addedSince]
  have ids : u'.schemaIds = u.schemaIds := by rw [TableEntry.schemaIds, schema, TableEntry.schemaIds]
  constructor
  · rw [same]
    exact accounts.newer
  · rw [same, ids]
    exact accounts.ids
  · rw [same, schema]
    exact accounts.opens
  · rw [same, schema]
    exact accounts.hollow
  · intro tombstones newer
    rw [same, schema]
    exact accounts.rows tombstones (narrows tombstones newer)

theorem Held.mono (held : Held r target files rows deletes m) (grown : Extends files files') :
    Held r target files' rows deletes m := by
  obtain ⟨u, live, onward⟩ := held.live
  exact ⟨held.sound, held.after, held.last, held.known, held.idle, held.issued, u, live, onward.id, onward.name,
    onward.schema, onward.tombstones, fun whole => (onward.accounts whole).mono grown⟩

/-- A flush adds its segments to the account. -/
theorem Accounts.flushed {version : Nat} {u : TableEntry} {segments : List SegmentEntry}
    (accounts : Accounts r files version rows u) (ok : u.SchemaOk) (after : r.version ≤ version)
    (new : ∀ g ∈ segments, g.id ∉ r.successorSegments)
    (wrote : ∀ g ∈ segments, ∃ rows, Wrote files u (version + 1) rows g ∧ (u.schema = [] → rows = [])) :
    Accounts r files version (rows ++ segments.flatMap (tagged files u.schema))
      { u with segments := sortByKey SegmentEntry.order (u.segments ++ segments) } := by
  have perm : (addedSince r { u with segments := sortByKey SegmentEntry.order (u.segments ++ segments) }).Perm
      (addedSince r u ++ segments) := by
    refine ((sortByKey_perm _ _).filter _).trans (.of_eq ?_)
    rw [List.filter_append]
    congr 1
    rw [List.filter_eq_self]
    intro g member
    simpa using new g member
  have each : ∀ {P : SegmentEntry → Prop}, (∀ g ∈ addedSince r u, P g) → (∀ g ∈ segments, P g) →
      ∀ g ∈ addedSince r { u with segments := sortByKey SegmentEntry.order (u.segments ++ segments) }, P g := by
    intro P old brought g member
    rcases List.mem_append.mp (perm.mem_iff.mp member) with member | member
    · exact old g member
    · exact brought g member
  constructor
  · refine each accounts.newer fun g member => ?_
    obtain ⟨_, one, _⟩ := wrote g member
    rw [one.seq]
    omega
  · refine each accounts.ids fun g member => ?_
    obtain ⟨_, one, _⟩ := wrote g member
    exact one.ids
  · refine each accounts.opens fun g member => ?_
    obtain ⟨_, one, _⟩ := wrote g member
    exact one.opens ok
  · intro columnless
    refine each (accounts.hollow columnless) fun g member => ?_
    obtain ⟨_, one, none_⟩ := wrote g member
    exact (one.rowsOf ok).trans (none_ columnless)
  · intro tombstones later
    refine (perm.flatMap_right _).trans ?_
    rw [List.flatMap_append, List.filter_append, List.map_append, ← flatMap_visible]
    exact (accounts.rows tombstones later).append_right _

/-- A fresh id is none the manifest knows of. -/
theorem fresh_of_known {ids : List Nat} (known : ∀ id ∈ ids, m.Knows id) {e : Edit} (given : m.Given e) {id : Nat}
    (brought : id ∈ e.newIds) : id ∉ ids := by
  intro listed
  obtain ⟨unreferenced, ungarbaged⟩ := given.1.fresh id brought
  rcases known id listed with referenced | garbage
  · exact not_references_iff.mp unreferenced referenced
  · exact ungarbaged garbage

theorem applyEdit_knows {version nowMs id : Nat} {e : Edit} (keeps : e.forgets = [])
    (applied : applyEdit version nowMs m e = .ok m') (known : m.Knows id) : m'.Knows id := by
  rcases applyEdit_exchange applied with ⟨ids, rfl, rfl⟩ | exchange
  · obtain rfl : ids = [] := keeps
    refine known.imp_right fun listed => ?_
    simpa [garbageIds, forgetGarbage] using listed
  · rcases known with referenced | garbage
    · exact exchange.kept id referenced
    · obtain ⟨dropped, whole, _⟩ := exchange.dropped
      rw [Knows, whole]
      exact .inr (List.mem_append_left _ garbage)

theorem Held.flush {name : TableName} {segments : List SegmentEntry} (held : Held r target files rows deletes m)
    (given : m.Given (.addSegments name segments)) (writes : Writes files m (.addSegments name segments))
    (made : m.addSegments name segments = .ok m') :
    ∃ u ∈ m'.tables, Onward r target files m'.version
      (rows ++ flushedRows target.name target.schema files (.addSegments name segments)) deletes u := by
  obtain ⟨u, live, onward⟩ := held.live
  obtain ⟨spot, whole, named, _, rfl⟩ := addSegments_eq_ok made
  have found : spot.found ∈ m.tables := by simp [whole]
  rcases Located.mem_replaced.mp (whole ▸ live) with rfl | elsewhere
  · have same : name = target.name := named.symm.trans onward.name
    refine ⟨_, Located.mem_replaced.mpr (.inl rfl), onward.id, onward.name, onward.schema, onward.tombstones, ?_⟩
    intro whole'
    have old : ∀ id ∈ r.successorSegments, id ∈ spot.found.segmentIds := by
      intro id listed
      have there := mem_sorted_ids.mp (whole' id listed)
      rw [List.map_append, List.mem_append] at there
      rcases there with old | brought
      · exact old
      · exact absurd listed (fresh_of_known held.known given brought)
    rw [flushedRows, if_pos same, ← onward.schema]
    refine (onward.accounts old).flushed (held.sound.coherent.schemas _ (entries_of_table found)) held.after ?_ ?_
    · exact fun g member => fresh_of_known held.known given (List.mem_map_of_mem member)
    · exact writes spot.found found named
  · have other : name ≠ target.name := by
      rw [← named, ← onward.name]
      exact (Located.key_ne_of_sorted (whole ▸ held.sound.coherent.sorted) u elsewhere).symm
    rw [flushedRows, if_neg other, List.append_nil]
    exact ⟨u, Located.mem_replaced.mpr (.inr elsewhere), onward⟩

theorem Held.delete {name : TableName} {predicates : List Predicate} (held : Held r target files rows deletes m)
    (made : m.addTombstone name predicates = .ok m') :
    (∃ u ∈ m'.tables, Onward r target files m'.version rows
      (deletes ++ issuedDeletes target.name target.schema (m.version + 1) (.addTombstone name predicates)) u) ∧
    ∀ x ∈ issuedDeletes target.name target.schema (m.version + 1) (.addTombstone name predicates),
      r.version < x.seq ∧ ∀ p ∈ x.predicates, p.Fits target.schema := by
  obtain ⟨u, live, onward⟩ := held.live
  have after := held.after
  obtain ⟨spot, stored, whole, named, each, rfl⟩ := addTombstone_eq_ok made
  rcases Located.mem_replaced.mp (whole ▸ live) with rfl | elsewhere
  · have same : name = target.name := named.symm.trans onward.name
    rw [onward.schema] at each
    simp only [issuedDeletes, if_pos same, mapM_except_of_forall₂ each]
    constructor
    · refine ⟨_, Located.mem_replaced.mpr (.inl rfl), onward.id, onward.name, onward.schema, ?_, ?_⟩
      · dsimp only
        rw [onward.tombstones, List.append_assoc]
      · intro present
        refine (onward.accounts present).later rfl rfl ?_
        intro tombstones later x member
        rcases later x member with listed | new
        · rcases List.mem_append.mp listed with old | new
          · exact .inl old
          · rw [List.mem_singleton.mp new]
            exact .inr (Nat.lt_succ_self _)
        · exact .inr new
    · intro x member
      rw [List.mem_singleton.mp member]
      refine ⟨Nat.lt_succ_of_le after, ?_⟩
      intro p inside
      obtain ⟨q, _, kept⟩ := List.Forall₂.source each inside
      exact storedPredicate_fits kept
  · have other : name ≠ target.name := by
      rw [← named, ← onward.name]
      exact (Located.key_ne_of_sorted (whole ▸ held.sound.coherent.sorted) u elsewhere).symm
    simp only [issuedDeletes, if_neg other, List.append_nil]
    exact ⟨⟨u, Located.mem_replaced.mpr (.inr elsewhere), onward⟩, by simp⟩

theorem applyEdit_held {version nowMs : Nat} {e : Edit} (held : Held r target files rows deletes m)
    (given : m.Given e) (writes : Writes files m e) (applied : applyEdit version nowMs m e = .ok m') :
    Held r target files (rows ++ flushedRows target.name target.schema files e)
      (deletes ++ issuedDeletes target.name target.schema (m.version + 1) e) m' := by
  have sound := applyEdit_sound given.1 held.sound applied
  have version := (applyEdit_counters applied).version
  cases e with
  | addSegments name segments =>
    have live := held.flush given writes applied
    simp only [issuedDeletes, List.append_nil]
    refine ⟨sound, version ▸ held.after, ?_, ?_, ?_, held.issued, live⟩
    · obtain ⟨_, _, _, _, rfl⟩ := addSegments_eq_ok applied
      exact held.last
    · exact fun id listed => applyEdit_knows rfl applied (held.known id listed)
    · obtain ⟨_, _, _, _, rfl⟩ := addSegments_eq_ok applied
      exact held.idle
  | addTombstone name predicates =>
    obtain ⟨live, issued⟩ := held.delete applied
    simp only [flushedRows, List.append_nil]
    refine ⟨sound, version ▸ held.after, ?_, ?_, ?_, ?_, live⟩
    · obtain ⟨_, _, _, _, _, rfl⟩ := addTombstone_eq_ok applied
      exact held.last
    · exact fun id listed => applyEdit_knows rfl applied (held.known id listed)
    · obtain ⟨_, _, _, _, _, rfl⟩ := addTombstone_eq_ok applied
      exact held.idle
    · exact List.forall_mem_append.mpr ⟨held.issued, issued⟩
  | _ => exact writes.elim

theorem foldlM_held {version nowMs : Nat} {edits : List Edit} (held : Held r target files rows deletes m)
    (supplied : Supplied (applyEdit version nowMs) (fun m e => m.Given e ∧ Writes files m e) m edits)
    (ran : edits.foldlM (applyEdit version nowMs) m = .ok m') :
    Held r target files (rows ++ edits.flatMap (flushedRows target.name target.schema files))
      (deletes ++ edits.flatMap (issuedDeletes target.name target.schema (m.version + 1))) m' := by
  induction edits generalizing m rows deletes with
  | nil =>
    cases ran
    simpa using held
  | cons e rest ih =>
    rw [List.foldlM_cons] at ran
    obtain ⟨mid, head, tail⟩ := Except.bind_eq_ok.mp ran
    have next := applyEdit_held held supplied.1.1 supplied.1.2 head
    have done := ih next (supplied.2 mid head) tail
    rw [(applyEdit_counters head).version] at done
    simpa only [List.flatMap_cons, List.append_assoc] using done

/-- The next version number leaves the account as it is. -/
theorem Held.published (held : Held r target files rows deletes m) :
    Held r target files rows deletes { m with version := m.version + 1 } := by
  obtain ⟨u, live, onward⟩ := held.live
  refine ⟨held.sound.versionless _, held.after.trans (Nat.le_succ _), held.last, held.known, held.idle, held.issued, u,
    live, onward.id, onward.name, onward.schema, onward.tombstones, ?_⟩
  intro present
  refine (onward.accounts present).later rfl rfl ?_
  exact fun tombstones later x member => (later x member).imp_right fun new => (Nat.lt_succ_self _).trans new

end Writes

section Compaction

variable {r : Retired} {target t u : TableEntry} {files : Files} {version : Nat} {rows : List (Nat × Row)}
  {removes : List Nat} {adds : List SegmentEntry}

/-- What a compaction leaves of the segments since the swap, when it spares those of the swap. -/
theorem addedSince_compacted (new : ∀ o ∈ adds, o.id ∉ r.successorSegments) :
    (addedSince r (compacted u removes adds)).Perm
      ((addedSince r u).filter (fun s => !removes.contains s.id) ++ adds) := by
  refine ((sortByKey_perm _ _).filter _).trans (.of_eq ?_)
  rw [List.filter_append, addedSince, List.filter_filter, List.filter_filter]
  congr 1
  · apply List.filter_congr
    intro s _
    exact Bool.and_comm _ _
  · rw [List.filter_eq_self]
    intro o member
    simpa using new o member

theorem mem_addedSince {s : SegmentEntry} :
    s ∈ addedSince r u ↔ s ∈ u.segments ∧ s.id ∉ r.successorSegments := by
  simp [addedSince]

/-- A compaction that spares the segments of the swap keeps the account. -/
theorem Accounts.compacted {since : Nat} (accounts : Accounts r files version rows u) (ok : t.SchemaOk)
    (grown : Grown t u since) (seqs : ∀ s ∈ t.segments, s.seq ≤ since) (later : since ≤ version)
    (nodup : u.segmentIds.Nodup) (once : removes.Nodup)
    (spared : ∀ id ∈ r.successorSegments, id ∉ removes) (new : ∀ o ∈ adds, o.id ∉ r.successorSegments)
    (outputs : ∀ o ∈ adds, Output files t removes o)
    (merged : t.schema ≠ [] → ∃ inputs, inputs.map (·.id) = removes ∧ Merged t files inputs adds) :
    Accounts r files version rows (compacted u removes adds) := by
  have perm : (addedSince r (Adelie.compacted u removes adds)).Perm
      ((addedSince r u).filter (fun s => !removes.contains s.id) ++ adds) := addedSince_compacted new
  have each : ∀ {P : SegmentEntry → Prop}, (∀ g ∈ addedSince r u, P g) → (∀ o ∈ adds, P o) →
      ∀ g ∈ addedSince r (Adelie.compacted u removes adds), P g := by
    intro P old brought g member
    rcases List.mem_append.mp (perm.mem_iff.mp member) with member | member
    · exact old g (List.mem_of_mem_filter member)
    · exact brought g member
  have hollow : u.schema = [] → ∀ g ∈ addedSince r (Adelie.compacted u removes adds), rowsOf files u.schema g = [] := by
    intro columnless
    refine each (accounts.hollow columnless) fun o member => ?_
    obtain ⟨made, wrote, none_⟩ := (outputs o member).wrote
    rw [grown.schema] at columnless ⊢
    exact (wrote.rowsOf ok).trans (none_ columnless)
  refine ⟨?_, ?_, ?_, hollow, ?_⟩
  · refine each accounts.newer fun o member => ?_
    obtain ⟨s, live, listed, seq⟩ := (outputs o member).input
    rw [seq]
    exact accounts.newer s (mem_addedSince.mpr ⟨grown.segments s live, fun successor => spared _ successor listed⟩)
  · refine each accounts.ids fun o member => ?_
    obtain ⟨_, wrote, _⟩ := (outputs o member).wrote
    rw [wrote.ids, TableEntry.schemaIds, ← grown.schema]
    rfl
  · refine each accounts.opens fun o member => ?_
    obtain ⟨_, wrote, _⟩ := (outputs o member).wrote
    rw [show (Adelie.compacted u removes adds).schema = t.schema from grown.schema]
    exact wrote.opens ok
  · intro tombstones newer
    have newer' : Later version u tombstones := newer
    have before := accounts.rows tombstones newer'
    change ((addedSince r (Adelie.compacted u removes adds)).flatMap (visible files u.schema tombstones)).Perm
      ((rows.filter (survives u.schema tombstones)).map Prod.snd)
    by_cases columnless : u.schema = []
    · -- no rows on either side
      have gone : ∀ {l : List SegmentEntry}, (∀ g ∈ l, rowsOf files u.schema g = []) →
          l.flatMap (visible files u.schema tombstones) = [] := by
        intro l none_
        rw [List.flatMap_eq_nil_iff]
        intro g member
        rw [visible, none_ g member, List.filter_nil]
      rw [gone (accounts.hollow columnless)] at before
      rw [gone (hollow columnless)]
      exact before
    · obtain ⟨inputs, ids, merged⟩ := merged (grown.schema ▸ columnless)
      have inside : ∀ s ∈ inputs, s ∈ addedSince r u := by
        intro s member
        refine mem_addedSince.mpr ⟨grown.segments s (merged.live s member), fun successor => ?_⟩
        exact spared _ successor (ids ▸ List.mem_map_of_mem member)
      have nodup' : ((addedSince r u).map (·.id)).Nodup := nodup.sublist (List.filter_sublist.map _)
      have taken := filter_keys_perm nodup' ids once inside
      have split_ := List.filter_append_perm (fun s => removes.contains s.id) (addedSince r u)
      have reaches : Newer t tombstones := by
        intro x member
        have still : ∀ s ∈ t.segments, since < x.seq → s.seq < x.seq := fun s live above => (seqs s live).trans_lt above
        rcases newer' x member with own | above
        · exact (grown.tombstones x own).imp_right fun above s live => still s live above
        · exact .inr fun s live => still s live (later.trans_lt above)
      have moved := merged.rows tombstones reaches
      rw [← grown.schema] at moved
      have after := perm.flatMap_right (visible files u.schema tombstones)
      have whole := ((taken.append_right _).symm.trans split_).flatMap_right (visible files u.schema tombstones)
      rw [List.flatMap_append] at after whole
      exact after.trans (List.perm_append_comm.trans ((moved.append_right _).trans (whole.trans before)))

end Compaction

/-- A store on the way from a swap, between commits. -/
structure Kept (r : Retired) (target : TableEntry) (s : Site) : Prop where
  held : Held r target s.files s.rows s.deletes s.manifest
  seqs : s.manifest.SeqsBelow

section Steps

variable {r : Retired} {target : TableEntry} {s s' : Site}

theorem Manifest.run_single {m m' : Manifest} {c : Commit} {nowMs : Nat} (applied : c.apply m nowMs = .ok m') :
    m.run [(c, nowMs)] = m' := by
  simp only [run, List.foldl_cons, List.foldl_nil, advance, applied]

theorem seqsBelow_of_commit {m m' : Manifest} {c : Commit} {nowMs : Nat} (below : m.SeqsBelow)
    (given : Supplied (applyEdit (m.version + 1) nowMs) Given m c.edits) (applied : c.apply m nowMs = .ok m') :
    m'.SeqsBelow := by
  have admits : Admits Stamped m [(c, nowMs)] := ⟨given.mono fun _ _ given => given.2, True.intro⟩
  have reached := seqsBelow_of_run admits below
  rwa [Manifest.run_single applied] at reached

theorem WriteStep.kept (step : WriteStep target.name target.schema s s') (kept : Kept r target s) : Kept r target s' := by
  obtain ⟨c, nowMs, applied, supplied, rows, deletes⟩ := step.commit
  refine ⟨?_, seqsBelow_of_commit kept.seqs (supplied.mono fun _ _ both => both.1) applied⟩
  obtain ⟨next, ran, made⟩ := Except.bind_eq_ok.mp applied
  have done := (foldlM_held (kept.held.mono step.files) supplied ran).published
  have version : next.version = s.manifest.version := by
    have same := batch_invariant (fun m : Manifest => m.version = s.manifest.version) ?_ supplied rfl ran
    · exact same
    · intro m e m' _ same stepped
      exact (applyEdit_counters stepped).version.trans same
  rw [version] at done
  rw [rows, deletes, ← Except.ok.inj made]
  exact done

theorem Grown.trans {t u w : TableEntry} {first second : Nat} (older : Grown t u first) (newer : Grown u w second)
    (order : first ≤ second) : Grown t w first := by
  refine ⟨newer.name.trans older.name, newer.engine.trans older.engine, newer.schema.trans older.schema, ?_, ?_⟩
  · exact fun s member => newer.segments s (older.segments s member)
  · intro x member
    rcases newer.tombstones x member with old | above
    · exact older.tombstones x old
    · exact .inr (order.trans_lt above)

theorem WriteStep.grown {table : TableName} {schema : List SchemaField} (step : WriteStep table schema s s')
    {t : TableEntry} (live : t ∈ s.manifest.tables) :
    s.manifest.version ≤ s'.manifest.version ∧ ∃ u ∈ s'.manifest.tables, Grown t u s.manifest.version := by
  obtain ⟨c, nowMs, applied, supplied, _, _⟩ := step.commit
  have writes : Admits (fun _ e => e.isWrite = true) s.manifest [(c, nowMs)] := by
    refine ⟨supplied.mono ?_, True.intro⟩
    rintro m e ⟨_, writes⟩
    cases e <;> first | rfl | exact writes.elim
  obtain ⟨u, live', grown⟩ := grown_of_run live writes
  rw [Manifest.run_single applied] at live'
  refine ⟨?_, u, live', grown⟩
  obtain ⟨next, _, made⟩ := Except.bind_eq_ok.mp applied
  rw [← Except.ok.inj made]
  exact Nat.le_succ _

/-- What flushes and deletes make of a store and of one of its tables. -/
theorem writeSteps_grown {table : TableName} {schema : List SchemaField}
    (steps : Relation.ReflTransGen (WriteStep table schema) s s') {t : TableEntry} (live : t ∈ s.manifest.tables) :
    s.manifest.version ≤ s'.manifest.version ∧ ∃ u ∈ s'.manifest.tables, Grown t u s.manifest.version := by
  induction steps with
  | refl => exact ⟨Nat.le_refl _, t, live, rfl, rfl, rfl, fun s => id, fun x => .inl⟩
  | tail _ last ih =>
    obtain ⟨order, u, live', grown⟩ := ih
    obtain ⟨order', w, live'', grown'⟩ := last.grown live'
    exact ⟨order.trans order', w, live'', grown.trans grown' order⟩

theorem writeSteps_kept (steps : Relation.ReflTransGen (WriteStep target.name target.schema) s s')
    (kept : Kept r target s) : Kept r target s' := by
  induction steps with
  | refl => exact kept
  | tail _ last ih => exact last.kept ih

/-- The commit of a compaction leaves the other tables alone. -/
theorem compaction_other {m m' : Manifest} {name : TableName} {st : MergeState} {version nowMs : Nat} {u : TableEntry}
    (live : u ∈ m.tables) (other : u.name ≠ name)
    (ran : (st.edits name).foldlM (applyEdit version nowMs) m = .ok m') : u ∈ m'.tables := by
  simp only [MergeState.edits, List.foldlM_cons, List.foldlM_nil] at ran
  obtain ⟨mid, removed, ran⟩ := Except.bind_eq_ok.mp ran
  obtain ⟨last, added, ran⟩ := Except.bind_eq_ok.mp ran
  cases ran
  have elsewhere : ∀ {spot : Located TableEntry}, spot.found.name = name → u ∈ spot.replaced spot.found →
      u ∈ spot.removed := by
    intro spot named inside
    rcases Located.mem_replaced.mp inside with rfl | inside
    · exact absurd named other
    · exact inside
  have live' : u ∈ mid.tables := by
    obtain ⟨spot, whole, named, _, _, rfl⟩ := removeSegments_eq_ok removed
    rw [release_frame]
    exact Located.mem_replaced.mpr (.inr (elsewhere named (whole ▸ live)))
  obtain ⟨spot, whole, named, _, rfl⟩ := addSegments_eq_ok added
  exact Located.mem_replaced.mpr (.inr (elsewhere named (whole ▸ live')))

/-- What the commit of a compaction does to a manifest besides its table. -/
theorem compaction_frame {m m' : Manifest} {name : TableName} {st : MergeState} {version nowMs : Nat} {ids : List Nat}
    (sound : Sound m) (known : ∀ id ∈ ids, m.Knows id)
    (given : Supplied (applyEdit version nowMs) Given m (st.edits name))
    (ran : (st.edits name).foldlM (applyEdit version nowMs) m = .ok m') :
    Sound m' ∧ m'.version = m.version ∧ m'.retired = m.retired ∧ m'.jobs = m.jobs ∧ (∀ id ∈ ids, m'.Knows id) ∧
      ∀ o ∈ st.adds, o.id ∉ ids := by
  simp only [MergeState.edits, List.foldlM_cons, List.foldlM_nil] at ran
  obtain ⟨mid, removed, ran⟩ := Except.bind_eq_ok.mp ran
  obtain ⟨last, added, ran⟩ := Except.bind_eq_ok.mp ran
  cases ran
  have sound' := applyEdit_sound given.1.1 sound removed
  have given' := (given.2 mid removed).1
  have known' : ∀ id ∈ ids, mid.Knows id := fun id listed => applyEdit_knows rfl removed (known id listed)
  refine ⟨applyEdit_sound given'.1 sound' added, ?_, ?_, ?_, ?_, ?_⟩
  · exact (applyEdit_counters added).version.trans (applyEdit_counters removed).version
  · obtain ⟨_, _, _, _, _, rfl⟩ := removeSegments_eq_ok removed
    obtain ⟨_, _, _, _, rfl⟩ := addSegments_eq_ok added
    dsimp only
    rw [release_frame]
  · obtain ⟨_, _, _, _, _, rfl⟩ := removeSegments_eq_ok removed
    obtain ⟨_, _, _, _, rfl⟩ := addSegments_eq_ok added
    dsimp only
    rw [release_frame]
  · exact fun id listed => applyEdit_knows rfl added (known' id listed)
  · exact fun o member => fresh_of_known known' given' (List.mem_map_of_mem member)

theorem CompactStep.kept (step : CompactStep target.name target.schema s s') (kept : Kept r target s) :
    Kept r target s' := by
  obtain ⟨handed, encode, maxRows, t, plans, st, mid, base, nowMs, live, disjoint, distinct, unwritten, merged, steps,
    grownFiles, given, applied, files, rows, deletes⟩ := step.ran
  obtain ⟨held, seqs⟩ := writeSteps_kept steps kept
  obtain ⟨order, w, live', grown⟩ := writeSteps_grown steps live
  refine ⟨?_, seqsBelow_of_commit seqs given applied⟩
  obtain ⟨next, ran, made⟩ := Except.bind_eq_ok.mp applied
  obtain ⟨sound, version, retired, jobs, known, new⟩ := compaction_frame held.sound held.known given ran
  rw [files, rows, deletes, ← Except.ok.inj made, ← version]
  apply Held.published
  obtain ⟨u, live'', onward⟩ := held.live
  refine ⟨sound, version ▸ held.after, retired ▸ held.last, known, jobs ▸ held.idle, held.issued, ?_⟩
  by_cases same : t.name = target.name
  · have isU : w = u := held.sound.coherent.named_unique live' live''
      (grown.name.trans (same.trans onward.name.symm))
    subst isU
    have there := compaction_apply held.sound.coherent live' (grown.name ▸ applied)
    rw [← Except.ok.inj made] at there
    refine ⟨_, (table_live there).1, onward.id, onward.name, onward.schema, onward.tombstones, ?_⟩
    intro present
    -- a segment of the swap that is still there was neither taken out nor brought in
    have stayed : ∀ id ∈ r.successorSegments, id ∈ w.segmentIds ∧ id ∉ st.removes := by
      intro id listed
      have inside := mem_sorted_ids.mp (present id listed)
      rw [List.map_append, List.mem_append] at inside
      rcases inside with kept | brought
      · obtain ⟨g, member, rfl⟩ := List.mem_map.mp kept
        obtain ⟨old, spared⟩ := List.mem_filter.mp member
        exact ⟨List.mem_map_of_mem old, by simpa using spared⟩
      · obtain ⟨o, member, rfl⟩ := List.mem_map.mp brought
        exact absurd listed (new o member)
    have ok := kept.held.sound.coherent.schemas t (entries_of_table live)
    obtain ⟨_, removes, outputs⟩ := mergePlans_outputs distinct unwritten merged
    rw [version]
    refine (onward.accounts fun id listed => (stayed id listed).1).compacted ok grown
      (fun g member => kept.seqs.segment (entries_of_table live) member) order
      (held.sound.entries w (entries_of_table live')).nodup (removes ▸ disjoint)
      (fun id listed => (stayed id listed).2) new ?_ ?_
    · exact fun o member => removes ▸ (outputs o member).mono grownFiles (List.Subset.refl _)
    · intro columns
      obtain ⟨inputs, ids, _, _, opens, one⟩ := mergePlans_eq_ok ok columns distinct unwritten merged
      exact ⟨inputs, ids.trans removes.symm, one.mono opens grownFiles⟩
  · have other : u.name ≠ t.name := by
      rw [onward.name]
      exact fun named => same named.symm
    rw [version]
    exact ⟨u, compaction_other live'' other ran, onward⟩

theorem since_kept (steps : Since target.name target.schema s s') (kept : Kept r target s) : Kept r target s' := by
  induction steps with
  | refl => exact kept
  | tail _ last ih => exact last.elim (fun step => step.kept ih) (fun step => step.kept ih)

end Steps

end Adelie
