import Adelie.Storage.Revert

namespace Adelie

open Manifest

/-- A definition, the one a swap put in its place, and the record of the swap. -/
structure SwapOf (source target : TableEntry) (r : Retired) : Prop where
  entry : r.entry = source
  reason : r.reason = .swapped
  name : source.name = target.name
  successors : ∀ id, id ∈ r.successorSegments ↔ id ∈ target.segmentIds
  arranged : source.Arranged
  ok : source.SchemaOk
  okTarget : target.SchemaOk
  made : MadeFrom target source
  types : TypesAgree target.schema source.schema
  seqs : ∀ s ∈ source.segments, s.seq ≤ r.version
  tombstones : ∀ x ∈ source.tombstones, x.seq ≤ r.version
  carried : ∀ x ∈ target.tombstones, x.seq ≤ r.version

section Rows

variable {source target : TableEntry} {r : Retired} {files : Files} {deletes renamed : List Tombstone}
  (swap : SwapOf source target r) (issued : ∀ x ∈ deletes, r.version < x.seq)
  (each : List.Forall₂ (RenamedTombstone target.schema source.schema) deletes renamed)

include each in
theorem renamed_newer (issued : ∀ x ∈ deletes, r.version < x.seq) : ∀ x ∈ renamed, r.version < x.seq := by
  intro x member
  obtain ⟨y, inside, same⟩ := List.Forall₂.source each member
  rw [same.1]
  exact issued y inside

include swap issued each

/-- A row of the old definition is gone when it was before, or when a delete since takes what the new
    definition showed of it. -/
theorem visible_source {s : SegmentEntry} (live : s ∈ source.segments) (opens : Opens files source.schema s) :
    visible files source.schema (source.tombstones ++ renamed) s =
      (visible files source.schema source.tombstones s).filter fun row =>
        !deleted target.schema deletes (projectRow source.schema target.schema row) := by
  have old := swap.seqs s live
  have reached : renamed.filter (fun x => s.seq < x.seq) = renamed := by
    rw [List.filter_eq_self]
    intro x member
    have := renamed_newer each issued x member
    simpa using by omega
  have reached' : deletes.filter (fun x => s.seq < x.seq) = deletes := by
    rw [List.filter_eq_self]
    intro x member
    have := issued x member
    simpa using by omega
  have overlaps : Overlaps source.schema target.schema s.fileIds := by
    intro f member
    refine (swap.made.origin f member).imp_right fun new listed => ?_
    have := swap.arranged.files_below s live f.id listed
    omega
  obtain ⟨file, found, _⟩ := opens
  unfold visible
  rw [rowsOf_of_file found, List.filter_append, List.filter_filter, List.filter_map, List.filter_map, reached]
  congr 1
  apply List.filter_congr
  intro row _
  simp only [Function.comp_apply]
  have same : deleted source.schema renamed (rowAs s.fileIds source.schema row) =
      deleted target.schema deletes (rowAs s.fileIds target.schema row) := by
    conv_lhs => rw [← reached]
    conv_rhs => rw [← reached']
    exact deleted_renamed swap.ok.names_nodup each s.seq
  rw [deleted_append, same, projectRow_rowAs overlaps, Bool.not_or, Bool.and_comm]

omit issued in
/-- A row written since is projected by field id, and gone when a delete after it takes it. -/
theorem visible_since {g : SegmentEntry} (columns : target.schema ≠ []) (lists : g.fieldIds = target.schemaIds)
    (ids : g.fileIds = target.schemaIds) (newer : r.version < g.seq) (opens : Opens files target.schema g) :
    visible files source.schema (source.tombstones ++ renamed) (g.projectOnto source.schema) =
      (visible files target.schema deletes g).map (projectRow target.schema source.schema) := by
  have some_ : g.fileIds ≠ [] := by simpa [ids, TableEntry.schemaIds] using columns
  have overlaps : Overlaps target.schema source.schema g.fileIds := by
    intro f _
    rw [ids]
    exact em _
  have before : source.tombstones.filter (fun x => g.seq < x.seq) = [] := by
    rw [List.filter_eq_nil_iff]
    intro x member
    have := swap.tombstones x member
    simpa using by omega
  obtain ⟨file, found, _⟩ := opens
  unfold visible
  rw [rowsOf_projectOnto some_ lists overlaps, rowsOf_of_file found, rowsOf_of_file found,
    SegmentEntry.projectOnto_seq, List.filter_append, before, List.nil_append, List.filter_map, List.filter_map,
    List.map_map]
  have same : ((fun row => !deleted source.schema (renamed.filter fun x => g.seq < x.seq) row) ∘
      rowAs g.fileIds source.schema) = (fun row => !deleted target.schema (deletes.filter fun x => g.seq < x.seq) row) ∘
      rowAs g.fileIds target.schema := by
    funext row
    simp only [Function.comp_apply, deleted_renamed swap.ok.names_nodup each]
  rw [same]
  apply List.map_congr_left
  intro row _
  exact (projectRow_rowAs overlaps row).symm

omit issued in
/-- The tombstones of the restored definition can be checked on every segment. -/
theorem check_restored (fits : ∀ x ∈ deletes, ∀ p ∈ x.predicates, p.Fits target.schema) {seq : Nat}
    (old : seq ≤ r.version → checkTombstones source.schema (source.tombstones.filter fun x => seq < x.seq) = .ok ()) :
    checkTombstones source.schema ((source.tombstones ++ renamed).filter fun x => seq < x.seq) = .ok () := by
  have types : TypesAgree source.schema target.schema :=
    fun f member g inside same => (swap.types g inside f member same.symm).symm
  have fits' : ∀ x ∈ renamed, ∀ p ∈ x.predicates, p.Fits source.schema := by
    intro x member
    obtain ⟨y, inside, one⟩ := List.Forall₂.source each member
    exact one.fits swap.okTarget.names_nodup types (fits y inside)
  rw [List.filter_append]
  refine forM_eq_ok.mpr (List.forall_mem_append.mpr ⟨?_, ?_⟩)
  · intro x member
    have above : seq < x.seq := by simpa using (List.mem_filter.mp member).2
    have below := swap.tombstones x (List.mem_of_mem_filter member)
    exact forM_eq_ok.mp (old (by omega)) x member
  · have new := checkTombstones_ok swap.ok.names_nodup fits'
    exact fun x member => forM_eq_ok.mp new x (List.mem_of_mem_filter member)

end Rows

/-- What REVERT is to show: the rows of the old definition at the swap, and those written since on its
    columns, less what was deleted after it was written. -/
def revertedRows (source target : TableEntry) (before : List Row) (s : Site) : List Row :=
  (before.filter fun row => !deleted target.schema s.deletes (projectRow source.schema target.schema row)) ++
    (s.rows.filter (survives target.schema s.deletes)).map fun row => projectRow target.schema source.schema row.2

section Scan

variable {source target u : TableEntry} {r : Retired} {s : Site} {renamed : List Tombstone}

/-- The restored definition shows what it should, if there is a column to read the new segments by. -/
theorem restored_scan (swap : SwapOf source target r)
    (onward : Onward r target s.files s.manifest.version s.rows s.deletes u) (arranged : u.Arranged)
    (issued : ∀ x ∈ s.deletes, r.version < x.seq ∧ ∀ p ∈ x.predicates, p.Fits target.schema)
    (accounts : Accounts r s.files s.manifest.version s.rows u)
    (each : List.Forall₂ (RenamedTombstone target.schema source.schema) s.deletes renamed)
    (readable : target.schema ≠ [] ∨ addedSince r u = []) {before : List Row}
    (scanned : scanAll s.files source = .ok before) :
    ∃ rows, scanAll s.files (restored r u renamed) = .ok rows ∧ rows.Perm (revertedRows source target before s) := by
  have later : ∀ x ∈ s.deletes, r.version < x.seq := fun x member => (issued x member).1
  have types : TypesAgree source.schema target.schema :=
    fun f member g inside same => (swap.types g inside f member same.symm).symm
  obtain ⟨nonempty, engine, opens, checked, rfl⟩ := scanAll_eq_ok_iff.mp scanned
  have segments : (restored r u renamed).segments = sortByKey SegmentEntry.order
      (source.segments ++ (addedSince r u).map (·.projectOnto source.schema)) := by
    rw [restored, swap.entry]
    rfl
  have schema : (restored r u renamed).schema = source.schema := by rw [restored, swap.entry]
  have tombstones : (restored r u renamed).tombstones = source.tombstones ++ renamed := by rw [restored, swap.entry]
  have columns : ∀ g ∈ addedSince r u, target.schema ≠ [] := by
    intro g member columnless
    rcases readable with columns | none_
    · exact columns columnless
    · rw [none_] at member
      cases member
  have lists : ∀ g ∈ addedSince r u, g.fieldIds = target.schemaIds ∧ g.fileIds = target.schemaIds := by
    intro g member
    have ids := accounts.ids g member
    have aligned := (arranged.aligned g (List.mem_of_mem_filter member)).1
    rw [TableEntry.schemaIds, onward.schema] at ids
    rw [onward.schema] at aligned
    exact ⟨aligned, ids⟩
  have opens' : ∀ g ∈ addedSince r u, Opens s.files target.schema g := onward.schema ▸ accounts.opens
  have member : ∀ {g : SegmentEntry}, g ∈ (restored r u renamed).segments → g ∈ source.segments ∨
      ∃ g₀ ∈ addedSince r u, g = g₀.projectOnto source.schema := by
    intro g inside
    rw [segments, mem_sortByKey, List.mem_append] at inside
    refine inside.imp_right fun since => ?_
    obtain ⟨g₀, added, rfl⟩ := List.mem_map.mp since
    exact ⟨g₀, added, rfl⟩
  refine ⟨_, scanAll_eq_ok_iff.mpr ⟨schema ▸ nonempty, ?_, ?_, ?_, rfl⟩, ?_⟩
  · rw [restored, swap.entry]
    exact engine
  · intro g inside
    rw [schema]
    rcases member inside with old | ⟨g₀, since, rfl⟩
    · exact opens g old
    · refine opens_projectOnto ?_ (lists g₀ since).1 types (opens' g₀ since)
      rw [(lists g₀ since).2]
      simpa [TableEntry.schemaIds] using columns g₀ since
  · intro g inside
    rw [schema, TableEntry.tombstonesFor, tombstones]
    refine check_restored swap each (fun x listed => (issued x listed).2) fun below => ?_
    rcases member inside with old | ⟨g₀, since, rfl⟩
    · exact checked g old
    · have := accounts.newer g₀ since
      rw [SegmentEntry.projectOnto_seq] at below
      omega
  · rw [segments, schema, tombstones]
    refine ((sortByKey_perm SegmentEntry.order _).flatMap_right _).trans ?_
    rw [List.flatMap_append, List.flatMap_map]
    refine .append (.of_eq ?_) ?_
    · rw [List.filter_flatMap]
      exact List.flatMap_congr fun g live => visible_source swap later each live (opens g live)
    · have moved : ((addedSince r u).flatMap fun g => visible s.files source.schema (source.tombstones ++ renamed)
          (g.projectOnto source.schema)) =
          ((addedSince r u).flatMap (visible s.files target.schema s.deletes)).map
            (projectRow target.schema source.schema) := by
        rw [List.map_flatMap]
        exact List.flatMap_congr fun g since => visible_since swap each (columns g since) (lists g since).1
          (lists g since).2 (accounts.newer g since) (opens' g since)
      have own : Later s.manifest.version u s.deletes := by
        intro x listed
        rw [onward.tombstones]
        exact .inl (List.mem_append_right _ listed)
      have rows := (accounts.rows s.deletes own).map (projectRow target.schema source.schema)
      rw [onward.schema, List.map_map] at rows
      rw [moved]
      exact rows

end Scan

section Swap

variable {m m' : Manifest} {version nowMs : Nat}

/-- What holds inside a commit, before its last edit. -/
structure Staged (m : Manifest) : Prop where
  sound : Sound m
  sourced : Sourced m
  seqs : ∀ x, m.Holds x → x.seq ≤ m.version + 1
  tombstones : ∀ t ∈ m.entries, ∀ x ∈ t.tombstones, x.seq ≤ m.version + 1

theorem applyEdit_staged {e : Edit} (given : m.Given e) (staged : Staged m)
    (applied : applyEdit version nowMs m e = .ok m') : Staged m' := by
  refine ⟨applyEdit_sound given.1 staged.sound applied,
    (applyEdit_move applied).sourced staged.sound.coherent staged.sourced, ?_, ?_⟩
  · intro x held
    rw [(applyEdit_counters applied).version]
    rcases applyEdit_holds applied held with held | ⟨g, brought, rfl⟩
    · exact staged.seqs x held
    · exact given.2 g brought
  · rw [(applyEdit_counters applied).version]
    intro t inside
    rcases applyEdit_remade applied t inside with old | made
    · exact staged.tombstones t old
    · exact made.tombstones staged.tombstones

theorem staged_of_history {history : List Timed} (given : Admits Given Manifest.empty history) :
    Staged (Manifest.empty.run history) ∧ (Manifest.empty.run history).SeqsBelow := by
  have sound := Sound.empty.of_given given
  have seqs := SeqsBelow.empty.of_given given
  have tombstones := tombstonesBelow_of_run given (by intro t inside; cases inside)
  have sourced := run_invariant (fun m => Sound m ∧ Sourced m) ?_ ?_ given ⟨.empty, .empty⟩
  · refine ⟨⟨sound, sourced.2, ?_, ?_⟩, seqs⟩
    · exact fun x held => (seqs x held).trans (Nat.le_succ _)
    · exact fun t inside x member => (tombstones t inside x member).trans (Nat.le_succ _)
  · rintro version nowMs m e m' given ⟨sound, sourced⟩ applied
    exact ⟨applyEdit_sound given.1 sound applied, (applyEdit_move applied).sourced sound.coherent sourced⟩
  · exact fun m version both => ⟨both.1.versionless version, both.2⟩

theorem rposition_concat {α : Type} {p : α → Bool} {l : List α} {x : α} (accepted : p x = true) :
    rposition p (l ++ [x]) = some ⟨l, x, []⟩ := by
  simp [rposition, position, accepted]

/-- What a swap sets up for a REVERT. -/
theorem swapJob_kept {job : Nat} (staged : Staged m) (made : m.swapJob job (m.version + 1) nowMs = .ok m') :
    ∃ source target r, m.table target.name = some source ∧ m'.table target.name = some target ∧
      SwapOf source target r ∧ ∀ files, Held r target files [] [] { m' with version := m.version + 1 } := by
  have applied : applyEdit (m.version + 1) nowMs m (.swapJob job) = .ok m' := made
  have sound' : Sound m' := applyEdit_sound (by exact True.intro) staged.sound applied
  obtain ⟨spot, source, tombstones, jobs, _, _, tables, from_, _, renamed, rfl⟩ := swapJob_eq_ok made
  have running : spot.found ∈ m.jobs := by simp [jobs]
  have live : source.found ∈ m.tables := by simp [tables]
  have c := staged.sound.coherent
  have job := c.jobFor running live from_
  have made := staged.sourced _ running _ live from_
  have now : { spot.found.target with tombstones := tombstones } ∈
      insertByKey (·.name) { spot.found.target with tombstones := tombstones } source.removed :=
    mem_insertByKey.mpr (.inl rfl)
  have successors : ∀ x, x ∈ sortByKey id spot.found.target.segmentIds ↔ x ∈ spot.found.target.segmentIds :=
    fun x => mem_sortByKey
  have old := staged.tombstones _ (entries_of_table live)
  refine ⟨source.found, { spot.found.target with tombstones := tombstones },
    ⟨source.found, .swapped, nowMs, m.version + 1, sortByKey id spot.found.target.segmentIds⟩, ?_, ?_, ?_, ?_⟩
  · rw [show ({ spot.found.target with tombstones := tombstones } : TableEntry).name = source.found.name from job.name]
    exact table_eq_some c.sorted live
  · exact table_eq_some sound'.coherent.sorted now
  · refine ⟨rfl, rfl, job.name.symm, successors, staged.sound.entries _ (entries_of_table live),
      c.schemas _ (entries_of_table live), ?_, ⟨made.engine, made.origin, made.next⟩, job.types, ?_, old, ?_⟩
    · have ok := c.schemas _ (entries_of_job running)
      exact ⟨ok.ids, ok.names_nodup, ok.next_pos⟩
    · exact fun g member => staged.seqs g.stem ⟨_, entries_of_table live, g, member, rfl⟩
    · exact RenamedTombstone.seqs renamed old
  · intro files
    refine ⟨sound'.versionless _, Nat.le_refl _, ?_, ?_, ?_, by simp, _, now, rfl, rfl, rfl, by simp, ?_⟩
    · refine ⟨_, rposition_concat ?_, rfl⟩
      simp [job.name]
    · intro id listed
      exact .inl ⟨_, entries_of_table now, (successors id).mp listed⟩
    · intro j running'
      have still : j ∈ m.jobs := by simp [jobs, show j ∈ spot.removed from running']
      exact (c.source_ne still (c.target_id running)).symm
    · intro _
      have none_ : addedSince ⟨source.found, .swapped, nowMs, m.version + 1, sortByKey id spot.found.target.segmentIds⟩
          { spot.found.target with tombstones := tombstones } = [] := by
        rw [addedSince, List.filter_eq_nil_iff]
        intro g member
        simpa using (successors g.id).mpr (List.mem_map_of_mem member)
      constructor <;> rw [none_] <;> simp

end Swap

section Revert

variable {source target : TableEntry} {r : Retired} {s : Site} {version nowMs : Nat} {m' : Manifest}

/-- The deletes since are the tombstones REVERT carries over. -/
theorem deletes_eq_filter {u : TableEntry} (swap : SwapOf source target r)
    (onward : Onward r target s.files s.manifest.version s.rows s.deletes u)
    (issued : ∀ x ∈ s.deletes, r.version < x.seq) : (u.tombstones.filter fun x => r.version < x.seq) = s.deletes := by
  have old : (target.tombstones.filter fun x => r.version < x.seq) = [] := by
    rw [List.filter_eq_nil_iff]
    intro x member
    simpa using swap.carried x member
  rw [onward.tombstones, List.filter_append, old, List.nil_append, List.filter_eq_self]
  simpa using issued

theorem Held.revert_eq_ok (held : Held r target s.files s.rows s.deletes s.manifest) (swap : SwapOf source target r)
    (made : s.manifest.revertTable target.name version nowMs = .ok m') :
    ∃ u ∈ s.manifest.tables, ∃ renamed, Onward r target s.files s.manifest.version s.rows s.deletes u ∧
      (∀ id ∈ r.successorSegments, id ∈ u.segmentIds) ∧
      List.Forall₂ (RenamedTombstone target.schema source.schema) s.deletes renamed ∧
      m'.table target.name = some (restored r u renamed) := by
  have sorted := (applyEdit_move (e := .revertTable target.name) made).sorted held.sound.coherent
  obtain ⟨u, live, onward⟩ := held.live
  obtain ⟨spot, cur, renamed, at_, _, _, _, tables, named, _, stale, each, rfl⟩ := revertTable_eq_ok made
  obtain ⟨spot', last, isLast⟩ := held.last
  have isR : spot.found = r := by
    cases at_.symm.trans last
    exact isLast
  have isU : cur.found = u := held.sound.coherent.named_unique (by simp [tables]) live (named.trans onward.name.symm)
  rw [isR, isU] at stale each
  rw [onward.schema, swap.entry, deletes_eq_filter swap onward fun x member => (held.issued x member).1] at each
  refine ⟨u, live, renamed, onward, stale, each, ?_⟩
  rw [isR, isU] at sorted ⊢
  have now : restored r u renamed ∈ insertByKey (·.name) (restored r u renamed) cur.removed :=
    mem_insertByKey.mpr (.inl rfl)
  have there := table_eq_some sorted now
  rwa [show (restored r u renamed).name = target.name from (congrArg TableEntry.name swap.entry).trans swap.name] at there

/-- On a table without columns nothing but a lost segment stops a REVERT. -/
theorem Held.revert_columnless (held : Held r target s.files s.rows s.deletes s.manifest) (swap : SwapOf source target r)
    (columnless : target.schema = []) {u : TableEntry} (live : u ∈ s.manifest.tables) (named : u.name = target.name)
    (present : ∀ id ∈ r.successorSegments, id ∈ u.segmentIds) (version nowMs : Nat) :
    ∃ m', s.manifest.revertTable target.name version nowMs = .ok m' := by
  obtain ⟨w, live', onward⟩ := held.live
  have same : w = u := held.sound.coherent.named_unique live' live (onward.name.trans named.symm)
  subst same
  obtain ⟨spot, last, isLast⟩ := held.last
  unfold revertTable
  rw [show rposition (fun r => r.reason == .swapped && r.entry.name == target.name) s.manifest.retired = some spot
    from last]
  cases at_ : position (·.name == target.name) s.manifest.tables with
  | none =>
    have := position_eq_none at_ w live
    simp [named] at this
  | some cur =>
    obtain ⟨whole, named', _⟩ := position_eq_some at_
    have isU : cur.found = w := held.sound.coherent.named_unique (by simp [whole]) live
      ((by simpa using named' : cur.found.name = target.name).trans named.symm)
    have idle : s.manifest.refuseJob target.name = .ok () := by
      have none_ : s.manifest.jobFor target.name = none := by
        rw [jobFor, show s.manifest.table target.name = some w from named ▸ table_eq_some held.sound.coherent.sorted live,
          Option.bind_some, List.find?_eq_none]
        intro j running
        have := held.idle j running
        rw [onward.id]
        simpa using this
      rw [refuseJob, none_]
    have there : (r.successorSegments.find? fun id => !w.segmentIds.contains id) = none := by
      rw [List.find?_eq_none]
      intro id listed
      simpa using present id listed
    have carried := deletes_eq_filter swap onward fun x member => (held.issued x member).1
    have empty : ∀ x ∈ s.deletes, x.predicates = [] := by
      intro x member
      cases shape : x.predicates with
      | nil => rfl
      | cons p rest =>
        obtain ⟨f, inside, _⟩ := (held.issued x member).2 p (shape ▸ List.mem_cons_self)
        rw [columnless] at inside
        cases inside
    have renamed : ∀ (old new : List SchemaField) (unknown lacking : Nat → String → Error),
        s.deletes.mapM (renameTombstone old new unknown lacking) = .ok s.deletes := by
      intro old new unknown lacking
      refine mapM_except_of_forall₂ (List.forall₂_same.mpr ?_)
      intro x member
      have none_ := empty x member
      obtain ⟨seq, predicates⟩ := x
      dsimp only at none_
      subst none_
      rfl
    simp only [idle, there, isLast, isU, carried, renamed]
    exact ⟨_, rfl⟩

end Revert

/-- A REVERT refused with an error, that leaves the manifest as it was, or one after which the table
    shows exactly what it should. -/
def RevertExact (source target : TableEntry) (before : List Row) (s : Site) (base nowMs : Nat) : Prop :=
  (∃ e, (Commit.mk base [.revertTable target.name]).apply s.manifest nowMs = .error e ∧
    s.manifest.advance (⟨base, [.revertTable target.name]⟩, nowMs) = s.manifest) ∨
  ∃ m' t rows, (Commit.mk base [.revertTable target.name]).apply s.manifest nowMs = .ok m' ∧
    m'.table target.name = some t ∧ t.schema = source.schema ∧ scanAll s.files t = .ok rows ∧
    rows.Perm (revertedRows source target before s)

/-- A table that has a column, or has lost a segment of its swap, or has no others. -/
def Revertible (target : TableEntry) (m : Manifest) : Prop :=
  target.schema ≠ [] ∨ ∀ u ∈ m.tables, u.name = target.name → (∀ id ∈ target.segmentIds, id ∈ u.segmentIds) →
    ∀ id ∈ u.segmentIds, id ∈ target.segmentIds

section Exact

variable {source target : TableEntry} {r : Retired} {s : Site} {before : List Row} {base nowMs : Nat}

theorem revertExact_of_revertible (kept : Kept r target s) (swap : SwapOf source target r)
    (scanned : scanAll s.files source = .ok before) (revertible : Revertible target s.manifest) :
    RevertExact source target before s base nowMs := by
  have held := kept.held
  cases applied : (Commit.mk base [.revertTable target.name]).apply s.manifest nowMs with
  | error e => exact .inl ⟨e, applied, by simp [advance, applied]⟩
  | ok m' =>
    right
    obtain ⟨next, ran, made⟩ := Except.bind_eq_ok.mp applied
    rw [List.foldlM_cons] at ran
    obtain ⟨mid, reverted, rest⟩ := Except.bind_eq_ok.mp ran
    cases rest
    obtain ⟨u, live, renamed, onward, present, each, there⟩ := held.revert_eq_ok swap reverted
    have readable : target.schema ≠ [] ∨ addedSince r u = [] := by
      refine revertible.imp_right fun alone => ?_
      rw [addedSince, List.filter_eq_nil_iff]
      intro g member
      have all : ∀ id ∈ target.segmentIds, id ∈ u.segmentIds := fun id listed => present id ((swap.successors id).mpr listed)
      simpa using (swap.successors g.id).mpr (alone u live onward.name all g.id (List.mem_map_of_mem member))
    obtain ⟨rows, scanned', perm⟩ := restored_scan swap onward (held.sound.entries u (entries_of_table live)) held.issued
      (onward.accounts present) each readable scanned
    refine ⟨m', restored r u renamed, rows, applied, ?_, ?_, scanned', perm⟩
    · rw [← Except.ok.inj made]
      exact there
    · rw [restored, swap.entry]

theorem revertible_of_revertExact (kept : Kept r target s) (swap : SwapOf source target r)
    (scanned : scanAll s.files source = .ok before) (exact_ : RevertExact source target before s base nowMs) :
    Revertible target s.manifest := by
  have held := kept.held
  by_cases columnless : target.schema = []
  · right
    intro u live named present id listed
    by_contra other
    have present' : ∀ id ∈ r.successorSegments, id ∈ u.segmentIds := fun id listed => present id ((swap.successors id).mp listed)
    obtain ⟨mid, reverted⟩ := held.revert_columnless swap columnless live named present' (s.manifest.version + 1) nowMs
    have applied : (Commit.mk base [.revertTable target.name]).apply s.manifest nowMs =
        .ok { mid with version := s.manifest.version + 1 } := by
      simp [Commit.apply, applyEdit, reverted, bind, Except.bind, pure, Except.pure]
    obtain ⟨w, live', renamed, onward, _, each, there⟩ := held.revert_eq_ok swap reverted
    have same : w = u := held.sound.coherent.named_unique live' live (onward.name.trans named.symm)
    subst same
    rcases exact_ with ⟨e, refused, _⟩ | ⟨m', t, rows, accepted, at_, _, scanned', _⟩
    · rw [applied] at refused
      cases refused
    · rw [applied] at accepted
      cases accepted
      obtain rfl : restored r w renamed = t := Option.some.inj (there.symm.trans at_)
      obtain ⟨g, member, rfl⟩ := List.mem_map.mp listed
      have since : g ∈ addedSince r w :=
        mem_addedSince.mpr ⟨member, fun successor => other ((swap.successors g.id).mp successor)⟩
      have accounts := onward.accounts present'
      -- the file has no columns, and the entry says it has the old definition's
      have projected : g.projectOnto source.schema ∈ (restored r w renamed).segments := by
        refine mem_sortByKey.mpr (List.mem_append_right _ ?_)
        rw [swap.entry]
        exact List.mem_map_of_mem since
      obtain ⟨file, found, readable⟩ := (scanAll_eq_ok_iff.mp scanned').2.2.1 _ projected
      obtain ⟨file', found', readable'⟩ := accounts.opens g since
      have ids : g.fileIds = [] := by
        rw [accounts.ids g since, TableEntry.schemaIds, onward.schema, columnless]
        rfl
      have sameFile : file = file' := Option.some.inj (found.symm.trans found')
      have count := readable.count
      have count' := readable'.count
      rw [ids] at count'
      rw [sameFile, ← count'] at count
      have nonempty := (scanAll_eq_ok_iff.mp scanned).1
      have unmasked : (g.projectOnto source.schema).fileFieldIds = [] := by
        simp only [SegmentEntry.projectOnto, ids, List.map_nil, ite_self]
      have lists : (g.projectOnto source.schema).fileIds = source.schema.map (·.id) := by
        rw [SegmentEntry.fileIds, unmasked]
        rfl
      rw [lists] at count
      simp [nonempty] at count
  · exact .inl columnless

end Exact

theorem since_files {table : TableName} {schema : List SchemaField} {s s' : Site} (steps : Since table schema s s') :
    Extends s.files s'.files := by
  have writes : ∀ {s s' : Site}, Relation.ReflTransGen (WriteStep table schema) s s' → Extends s.files s'.files := by
    intro s s' steps
    induction steps with
    | refl => exact .refl _
    | tail _ last ih => exact ih.trans last.files
  induction steps with
  | refl => exact .refl _
  | tail _ last ih =>
    refine ih.trans ?_
    rcases last with write | compact
    · exact write.files
    · obtain ⟨_, _, _, _, _, _, mid, _, _, _, _, _, _, _, between, _, _, _, files, _⟩ := compact.ran
      rw [files]
      exact writes between

theorem scanAll_mono {files files' : Files} {t : TableEntry} {rows : List Row} (grown : Extends files files')
    (scanned : scanAll files t = .ok rows) : scanAll files' t = .ok rows := by
  obtain ⟨nonempty, engine, opens, checked, rfl⟩ := scanAll_eq_ok_iff.mp scanned
  refine scanAll_eq_ok_iff.mpr ⟨nonempty, engine, fun s live => (opens s live).mono grown, checked, ?_⟩
  exact (flatMap_visible_mono opens grown).symm

/-- A table of columns `a` and `b` with one row, being migrated; its segment is carried. -/
def carriedRun (ops : List Alter) : List Timed :=
  oneFlush ++ [(⟨2, [.createJob ⟨"d", "t"⟩ ops]⟩, 2), (⟨3, [.advanceJob 1 [7] [] []]⟩, 3)]

def swappedBy (ops : List Alter) : Manifest := Manifest.empty.run (carriedRun ops ++ [(⟨4, [.swapJob 1]⟩, 4)])

/-- One flush after the swap, of a segment on these columns. -/
def flushSince (columns : List (Nat × Field)) : SegmentEntry :=
  ⟨8, "_", 6, 1, 1, 0, columns.map fun _ => ⟨1, 0, none, none⟩, [], "d/2", columns.map (·.1), []⟩

def carriedFiles : Files := fun path => if path.id = 7 then some (twoColumns true false) else none

def sinceFiles (file : SegmentFile) : Files := fun path => if path.id = 8 then some file else carriedFiles path

theorem sinceFiles_extends (file : SegmentFile) : Extends carriedFiles (sinceFiles file) := by
  intro path old found
  unfold sinceFiles
  split
  · rename_i new
    simp [carriedFiles, new] at found
  · exact found

def droppedB : List Alter := [.renameColumn "a" "c", .dropColumn "b"]

/-- A row `true` and a delete of the rows `false`, on the table with its one column renamed. -/
def writtenSince : Site :=
  ⟨(swappedBy droppedB).run [(⟨5, [.addSegments ⟨"d", "t"⟩ [flushSince [(1, ⟨"c", .bool⟩)]]]⟩, 5)],
    sinceFiles ⟨[⟨"c", .bool⟩], [[[.bool true]]], by simp⟩, [(6, [.bool true])], []⟩

def deletedSince : Site :=
  { writtenSince with
    manifest := writtenSince.manifest.run [(⟨6, [.addTombstone ⟨"d", "t"⟩ [⟨"c", .eq, .bool false⟩]]⟩, 6)]
    deletes := [⟨7, [⟨"c", .eq, .bool false⟩]⟩] }

/-- The two commits since the swap. -/
theorem deletedSince_since : Since ⟨"d", "t"⟩ [⟨1, ⟨"c", .bool⟩⟩] ⟨swappedBy droppedB, carriedFiles, [], []⟩ deletedSince := by
  have flush : WriteStep ⟨"d", "t"⟩ [⟨1, ⟨"c", .bool⟩⟩] ⟨swappedBy droppedB, carriedFiles, [], []⟩ writtenSince := by
    refine ⟨sinceFiles_extends _, ⟨5, [.addSegments ⟨"d", "t"⟩ [flushSince [(1, ⟨"c", .bool⟩)]]]⟩, 5, rfl, ?_, rfl, rfl⟩
    refine ⟨⟨by decide, ?_⟩, fun _ _ => True.intro⟩
    intro t live _ g member
    have only : (swappedBy droppedB).tables = [(swappedBy droppedB).tables.get ⟨0, by decide⟩] := rfl
    rw [only] at live
    rw [List.mem_singleton.mp live, List.mem_singleton.mp member]
    exact ⟨[[.bool true]], ⟨rfl, rfl, _, rfl, rfl, rfl⟩, fun columnless => absurd columnless (by decide)⟩
  have delete : WriteStep ⟨"d", "t"⟩ [⟨1, ⟨"c", .bool⟩⟩] writtenSince deletedSince :=
    ⟨.refl _, ⟨6, [.addTombstone ⟨"d", "t"⟩ [⟨"c", .eq, .bool false⟩]]⟩, 6, rfl,
      ⟨⟨by decide, True.intro⟩, fun _ _ => True.intro⟩, rfl, rfl⟩
  exact .tail (.single (.inl flush)) (.inl delete)

def droppedBoth : List Alter := [.dropColumn "a", .dropColumn "b"]

/-- A flush, of no rows, on the table that has lost its columns. -/
def hollowSince : Site :=
  ⟨(swappedBy droppedBoth).run [(⟨5, [.addSegments ⟨"d", "t"⟩ [flushSince []]]⟩, 5)], sinceFiles ⟨[], [], by simp⟩, [], []⟩

end Adelie
