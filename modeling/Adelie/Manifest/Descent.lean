import Adelie.Manifest.Ancestry

namespace Adelie

theorem filter_of_rposition {α : Type} {p : α → Bool} {l : List α} {s : Located α} (at_ : rposition p l = some s) :
    l.filter p = s.before.filter p ++ [s.found] ∧ s.removed.filter p = s.before.filter p := by
  obtain ⟨whole, accepted, later⟩ := rposition_eq_some at_
  have none_ : s.after.filter p = [] := List.filter_eq_nil_iff.mpr (by simpa using later)
  constructor
  · rw [whole, Located.replaced, List.filter_append, List.filter_cons_of_pos accepted, none_]
  · rw [Located.removed, List.filter_append, none_, List.append_nil]

theorem filter_concat {α : Type} {p : α → Bool} {l : List α} {x : α} (accepted : p x = true) :
    (l ++ [x]).filter p = l.filter p ++ [x] := by simp [accepted]

theorem filter_concat_of_not {α : Type} {p : α → Bool} {l : List α} {x : α} (refused : p x = false) :
    (l ++ [x]).filter p = l.filter p := by simp [refused]

/-- Where a test that holds once holds from there on, it keeps a suffix. -/
theorem filter_suffix {α : Type} {keep : α → Bool} {l : List α} (onwards : l.Pairwise fun a b => keep a → keep b) :
    ∃ gone, l = gone ++ l.filter keep := by
  induction l with
  | nil => exact ⟨[], rfl⟩
  | cons x rest ih =>
    obtain ⟨first, later⟩ := List.pairwise_cons.mp onwards
    by_cases kept : keep x
    · refine ⟨[], ?_⟩
      rw [List.nil_append, List.filter_eq_self.mpr]
      intro y member
      rcases List.mem_cons.mp member with rfl | member
      · exact kept
      · exact first y member kept
    · obtain ⟨gone, whole⟩ := ih later
      refine ⟨x :: gone, ?_⟩
      rw [List.filter_cons_of_neg kept, List.cons_append, ← whole]

def Retired.isOf (reason : RetireReason) (name : TableName) (r : Retired) : Bool :=
  r.reason == reason && r.entry.name == name

/-- `x` took the place of `r`'s table in a swap; or it is of another line, and `r` waits for segments
    of its own. -/
def Ancestry.Link (a : Ancestry) (r : Retired) (x : Nat) : Prop :=
  a.heir r.entry.id = some x ∧ a.root x = a.root r.entry.id ∨
    r.successorSegments ≠ [] ∧ a.root x ≠ a.root r.entry.id

/-- Swapped definitions, the last first, each linked to what came after it. -/
def Ancestry.Linked (a : Ancestry) (x : Nat) : List Retired → Prop
  | [] => True
  | r :: rest => a.Link r x ∧ a.Linked r.entry.id rest

theorem Ancestry.Linked.initial {a : Ancestry} {x : Nat} {l l' : List Retired} (linked : a.Linked x (l ++ l')) :
    a.Linked x l := by
  induction l generalizing x with
  | nil => exact True.intro
  | cons r rest ih => exact ⟨linked.1, ih linked.2⟩

/-- Later marks that leave roots and heirs of a line alone leave its links. -/
theorem Ancestry.Linked.kept {a a' : Ancestry} {next x : Nat} {l : List Retired}
    (roots : ∀ y < next, a'.root y = a.root y) (heirs : ∀ r ∈ l, a'.heir r.entry.id = a.heir r.entry.id)
    (below : ∀ r ∈ l, r.entry.id < next) (small : x < next) (linked : a.Linked x l) : a'.Linked x l := by
  induction l generalizing x with
  | nil => exact True.intro
  | cons r rest ih =>
    have first := below r (.head _)
    refine ⟨?_, ih (fun r' member => heirs r' (.tail _ member)) (fun r' member => below r' (.tail _ member))
      first linked.2⟩
    unfold Link
    rw [heirs r (.head _), roots x small, roots _ first]
    exact linked.1

namespace Tracked

open Manifest

/-- The table a name stands for: the live one, or else the one dropped last, which UNDROP restores. -/
def Stands (m : Manifest) (name : TableName) (x : Nat) : Prop :=
  (∃ t ∈ m.tables, t.name = name ∧ t.id = x) ∨
    (∀ t ∈ m.tables, t.name ≠ name) ∧ ∃ r ∈ (m.retired.filter (Retired.isOf .dropped name)).getLast?, r.entry.id = x

/-- The swapped definitions kept under a name lead up to the table it stands for. -/
def Leads (s : Tracked) (name : TableName) : Prop :=
  ∃ x < s.manifest.nextTableId, (∀ y, Stands s.manifest name y → y = x) ∧
    s.past.Linked x (s.manifest.retired.filter (Retired.isOf .swapped name)).reverse

/-- How a manifest lies on the ancestry of its tables. -/
structure Descended (s : Tracked) : Prop where
  coherent : Coherent s.manifest
  homes : ∀ t ∈ s.manifest.entries, ∀ id ∈ t.segmentIds, s.past.home id = some (s.past.root t.id)
  successors : ∀ r ∈ s.manifest.retired, ∀ id ∈ r.successorSegments, s.past.home id = some (s.past.root r.entry.id)
  jobs : ∀ j ∈ s.manifest.jobs, s.past.root j.target.id = s.past.root j.source
  roots : ∀ x, s.past.root x ≤ x
  leads : ∀ name, s.Leads name

/-- An edit that brings nothing of another line under a name: new segments have ids no edit has
    brought before, a table is created under a name only when every swap kept under it has segments to
    account for, and definitions under one name expire the oldest first. -/
def Tame (s : Tracked) : Edit → Prop
  | .createTable spec =>
    ∀ r ∈ s.manifest.retired, r.reason = .swapped → r.entry.name = spec.name → r.successorSegments ≠ []
  | .expireRetired beforeMs =>
    s.manifest.retired.Pairwise fun a b =>
      a.entry.name = b.entry.name → b.retiredAtMs < beforeMs → a.retiredAtMs < beforeMs
  | .addSegments _ segments | .advanceJob _ _ _ segments => ∀ g ∈ segments, s.past.home g.id = none
  | _ => True

/-- A REVERT that is accepted finds under the name the very table that took the restored one's place,
    and gives it segments of its own line only. -/
def Follows (s : Tracked) : Edit → Prop
  | .revertTable name =>
    ∀ version nowMs m', s.manifest.revertTable name version nowMs = .ok m' →
      ∃ r ∈ rposition (fun r => r.reason == .swapped && r.entry.name == name) s.manifest.retired,
      ∃ cur ∈ s.manifest.table name, ∃ t ∈ m'.table name,
        s.past.heir r.found.entry.id = some cur.id ∧ s.past.root cur.id = s.past.root r.found.entry.id ∧
        t.id = r.found.entry.id ∧ ∀ id ∈ t.segmentIds, s.past.home id = some (s.past.root t.id)
  | _ => True

variable {s s' : Tracked} {version nowMs : Nat} {e : Edit}

/-- An edit never moves a table to another line, nor a segment to another home. -/
structure Extends (s s' : Tracked) : Prop where
  next : s.manifest.nextTableId ≤ s'.manifest.nextTableId
  roots : ∀ x < s.manifest.nextTableId, s'.past.root x = s.past.root x
  homes : ∀ id root, s.past.home id = some root → s'.past.home id = some root

theorem settle_home {a : Ancestry} {t : TableEntry} {id root : Nat} {segments : List SegmentEntry}
    (new : ∀ g ∈ segments, a.home g.id = none) (known : a.home id = some root) :
    (a.settle t segments).home id = some root := by
  unfold Ancestry.settle
  dsimp only
  split
  · rename_i brought
    obtain ⟨g, member, rfl⟩ := List.mem_map.mp brought
    rw [new g member] at known
    cases known
  · exact known

theorem settle_brought {a : Ancestry} {t : TableEntry} {id : Nat} {segments : List SegmentEntry}
    (brought : id ∈ segments.map (·.id)) : (a.settle t segments).home id = some (a.root t.id) := if_pos brought

theorem update_below {root : Nat → Nat} {next value x : Nat} (small : x < next) :
    Function.update root next value x = root x := Function.update_of_ne small.ne _ _

theorem applyEdit_extends (tame : s.Tame e) (applied : s.applyEdit version nowMs e = .ok s') : Extends s s' := by
  obtain ⟨made, past⟩ := applyEdit_eq_ok applied
  refine ⟨(applyEdit_counters made).tables, ?_, ?_⟩
  · intro x small
    rw [past]
    cases e with
    | createTable spec => exact update_below small
    | createJob table ops =>
      simp only [Ancestry.mark]
      split
      · exact update_below small
      · rfl
    | addSegments table segments => simp only [Ancestry.mark]; split <;> rfl
    | advanceJob job reused rewritten segments => simp only [Ancestry.mark]; split <;> rfl
    | swapJob job => simp only [Ancestry.mark]; split <;> rfl
    | _ => rfl
  · intro id root known
    rw [past]
    cases e with
    | addSegments table segments =>
      simp only [Ancestry.mark]
      split
      · exact settle_home tame known
      · exact known
    | advanceJob job reused rewritten segments =>
      simp only [Ancestry.mark]
      split
      · exact settle_home tame known
      · exact known
    | createJob table ops => simp only [Ancestry.mark]; split <;> exact known
    | swapJob job => simp only [Ancestry.mark]; split <;> exact known
    | _ => exact known

/-- The swap REVERT undoes installed the live table: a table of another line lacks its segments. -/
theorem Descended.heir (d : Descended s) {name : TableName} {r : Located Retired} {cur : TableEntry}
    (at_ : rposition (Retired.isOf .swapped name) s.manifest.retired = some r) (live : cur ∈ s.manifest.tables)
    (named : cur.name = name) (present : ∀ id ∈ r.found.successorSegments, id ∈ cur.segmentIds) :
    s.past.heir r.found.entry.id = some cur.id ∧ s.past.root cur.id = s.past.root r.found.entry.id := by
  obtain ⟨x, _, stands, linked⟩ := d.leads name
  have same : cur.id = x := stands cur.id (.inl ⟨cur, live, named, rfl⟩)
  rw [(filter_of_rposition at_).1, List.reverse_append] at linked
  rcases linked.1 with direct | ⟨waits, other⟩
  · rw [same]
    exact direct
  · obtain ⟨id, listed⟩ := List.exists_mem_of_ne_nil _ waits
    have kept : r.found ∈ s.manifest.retired := by
      rw [(rposition_eq_some at_).1]
      exact Located.mem_replaced.mpr (.inl rfl)
    have ours := d.homes cur (entries_of_table live) id (present id listed)
    rw [d.successors r.found kept id listed, same] at ours
    exact absurd (Option.some.inj ours).symm other

variable (d : Descended s) (grows : Extends s s')

include d grows

theorem Descended.old_home {t : TableEntry} (inside : t ∈ s.manifest.entries) {id : Nat} (held : id ∈ t.segmentIds) :
    s'.past.home id = some (s'.past.root t.id) := by
  rw [grows.roots _ (d.coherent.ids_below t inside)]
  exact grows.homes id _ (d.homes t inside id held)

theorem Descended.remade_home (past : s'.past = s.past.mark s.manifest e) {t : TableEntry}
    (made : Remade s.manifest e t) {id : Nat} (held : id ∈ t.segmentIds) :
    s'.past.home id = some (s'.past.root t.id) := by
  cases made with
  | created new =>
    rw [TableEntry.segmentIds, new.segments] at held
    cases held
  | @added t segments live aligned =>
    have listed := mem_sorted_ids.mp held
    rw [List.map_append, List.mem_append] at listed
    rcases listed with old | brought
    · exact d.old_home grows (entries_of_table live) old
    · simp only [past, Ancestry.mark, table_eq_some d.coherent.sorted live]
      exact settle_brought brought
  | @thinned t ids live =>
    exact d.old_home grows (entries_of_table live) ((List.filter_sublist.map _).subset held)
  | @marked t predicates stored live each => exact d.old_home grows (entries_of_table live) held
  | planned live plan =>
    rw [TableEntry.segmentIds] at held
    dsimp only at held
    rw [(planAlter_frame plan).1] at held
    cases held
  | @advanced j j' source reused rewritten segments carried running isJob live from_ advanced =>
    rw [advanced.job] at held ⊢
    have listed := mem_sorted_ids.mp held
    rw [List.map_append, List.map_append, advanced.carried_ids, List.mem_append, List.mem_append] at listed
    rcases listed with old | reused | brought
    · exact d.old_home grows (entries_of_job running) old
    · have home := d.old_home grows (entries_of_table live) (advanced.live id (List.mem_append_left _ reused))
      have below := d.coherent.ids_below _ (entries_of_job running)
      rw [home, grows.roots _ below, d.jobs j running, ← from_,
        grows.roots _ (d.coherent.ids_below _ (entries_of_table live))]
    · simp only [past, Ancestry.mark, isJob]
      exact settle_brought brought
  | @swapped j source tombstones running isJob live from_ handled renamed =>
    exact d.old_home grows (entries_of_job running) held
  | @reverted r cur tombstones at_ kept reason named live stale renamed =>
    have same := (d.heir at_ live rfl stale).2
    rcases mem_restored_ids.mp held with old | since
    · exact d.old_home grows (entries_of_retired kept) old
    · have home := d.old_home grows (entries_of_table live) since.1
      have below := d.coherent.ids_below _ (entries_of_table live)
      rw [home, grows.roots _ below, same]
      exact congrArg some (grows.roots _ (d.coherent.ids_below _ (entries_of_retired kept))).symm
  | @emptied t live => cases held

/-- A name whose table, drops and swaps are as before, but for the swaps that expired. -/
theorem Descended.leads_kept {name : TableName} (gone : List Retired)
    (line : s.manifest.retired.filter (Retired.isOf .swapped name) =
      gone ++ s'.manifest.retired.filter (Retired.isOf .swapped name))
    (heirs : ∀ r ∈ s.manifest.retired, s'.past.heir r.entry.id = s.past.heir r.entry.id)
    (stands : ∀ y, Stands s'.manifest name y → Stands s.manifest name y) : s'.Leads name := by
  obtain ⟨x, small, known, linked⟩ := d.leads name
  refine ⟨x, small.trans_le grows.next, fun y stood => known y (stands y stood), ?_⟩
  rw [line, List.reverse_append] at linked
  have member : ∀ r ∈ (s'.manifest.retired.filter (Retired.isOf .swapped name)).reverse, r ∈ s.manifest.retired := by
    intro r listed
    have all : r ∈ s.manifest.retired.filter (Retired.isOf .swapped name) := by
      rw [line]
      exact List.mem_append_right _ (List.mem_reverse.mp listed)
    exact List.mem_of_mem_filter all
  exact linked.initial.kept grows.roots (fun r listed => heirs r (member r listed))
    (fun r listed => d.coherent.ids_below _ (entries_of_retired (member r listed))) small

omit d grows

theorem stands_kept {m m' : Manifest} {name : TableName}
    (tables : ∀ t ∈ m'.tables, t.name = name → ∃ u ∈ m.tables, u.name = name ∧ u.id = t.id)
    (lost : (∀ t ∈ m'.tables, t.name ≠ name) → ∀ u ∈ m.tables, u.name ≠ name)
    (dropped : ∀ r ∈ (m'.retired.filter (Retired.isOf .dropped name)).getLast?,
      r ∈ (m.retired.filter (Retired.isOf .dropped name)).getLast?) :
    ∀ y, Stands m' name y → Stands m name y := by
  intro y stood
  rcases stood with ⟨t, live, named, rfl⟩ | ⟨absent, r, last, rfl⟩
  · obtain ⟨u, live', named', same⟩ := tables t live named
    exact .inl ⟨u, live', named', same⟩
  · exact .inr ⟨lost absent, r, dropped r last, rfl⟩

/-- Tables that keep their names and ids. -/
theorem stands_same {m m' : Manifest} {name : TableName} (retired : m'.retired = m.retired)
    (tables : m'.tables.map (fun t => (t.name, t.id)) = m.tables.map fun t => (t.name, t.id)) :
    ∀ y, Stands m' name y → Stands m name y := by
  have back : ∀ t ∈ m'.tables, ∃ u ∈ m.tables, u.name = t.name ∧ u.id = t.id := by
    intro t live
    have listed : (t.name, t.id) ∈ m.tables.map fun t => (t.name, t.id) := by
      rw [← tables]
      exact List.mem_map_of_mem live
    obtain ⟨u, live', same⟩ := List.mem_map.mp listed
    exact ⟨u, live', congrArg Prod.fst same, congrArg Prod.snd same⟩
  have forth : ∀ u ∈ m.tables, ∃ t ∈ m'.tables, t.name = u.name := by
    intro u live
    have listed : (u.name, u.id) ∈ m'.tables.map fun t => (t.name, t.id) := by
      rw [tables]
      exact List.mem_map_of_mem live
    obtain ⟨t, live', same⟩ := List.mem_map.mp listed
    exact ⟨t, live', congrArg Prod.fst same⟩
  apply stands_kept
  · rintro t live rfl
    exact back t live
  · intro absent u live named
    obtain ⟨t, live', same⟩ := forth u live
    exact absent t live' (same.trans named)
  · rw [retired]
    exact fun r last => last

theorem map_replaced {α β : Type} {f : α → β} {spot : Located α} {x : α} (same : f x = f spot.found) :
    (spot.replaced x).map f = (spot.replaced spot.found).map f := by
  simp [Located.replaced, same]

theorem filter_removed {α : Type} {p : α → Bool} {spot : Located α} (other : p spot.found = false) :
    spot.removed.filter p = (spot.replaced spot.found).filter p := by
  simp [Located.replaced, Located.removed, other]

include d in
theorem Descended.live_ne_retired {t : TableEntry} {r : Retired} (live : t ∈ s.manifest.tables)
    (kept : r ∈ s.manifest.retired) : r.entry.id ≠ t.id := by
  have nodup := d.coherent.ids
  rw [entries, List.map_append, List.map_append] at nodup
  have apart := (List.nodup_append.mp nodup).2.2
  have listed : r.entry.id ∈ (s.manifest.retired.map (·.entry)).map (·.id) :=
    List.mem_map_of_mem (List.mem_map_of_mem kept)
  exact fun same => apart _ (List.mem_map_of_mem live) _ (List.mem_append_left _ listed) same.symm

section Lines

variable {m' : Manifest}

theorem leads_create (d : Descended s) {spec : TableSpec} (tame : s.Tame (.createTable spec))
    (made : s.manifest.createTable spec = .ok m') (grows : Extends s ⟨m', s.past.mark s.manifest (.createTable spec)⟩)
    (name : TableName) : Leads ⟨m', s.past.mark s.manifest (.createTable spec)⟩ name := by
  obtain ⟨entry, created, rfl⟩ := createTable_eq_ok made
  have absent := absent_of_table created.absent
  by_cases same : name = spec.name
  · subst same
    obtain ⟨x, _, _, linked⟩ := d.leads spec.name
    refine ⟨s.manifest.nextTableId, Nat.lt_succ_self _, ?_, ?_⟩
    · intro y stood
      rcases stood with ⟨t, live, named, rfl⟩ | ⟨none_, _⟩
      · rcases mem_insertByKey.mp live with rfl | live
        · exact created.id
        · exact absurd named (absent t live)
      · exact absurd created.name (none_ entry (mem_insertByKey.mpr (.inl rfl)))
    · dsimp only
      have listed : ∀ r ∈ (s.manifest.retired.filter (Retired.isOf .swapped spec.name)).reverse,
          r ∈ s.manifest.retired ∧ r.reason = .swapped ∧ r.entry.name = spec.name := by
        intro r member
        have := List.mem_filter.mp (List.mem_reverse.mp member)
        simpa [Retired.isOf] using this
      generalize (s.manifest.retired.filter (Retired.isOf .swapped spec.name)).reverse = line at linked listed
      cases line with
      | nil => exact True.intro
      | cons r rest =>
        obtain ⟨kept, swapped, named⟩ := listed r (.head _)
        have below := d.coherent.ids_below _ (entries_of_retired kept)
        refine ⟨.inr ⟨tame r kept swapped named, ?_⟩, linked.2.kept grows.roots (fun r _ => rfl) ?_ below⟩
        · have root := d.roots r.entry.id
          rw [grows.roots _ below]
          simp only [Ancestry.mark, Function.update_self]
          omega
        · intro r' later
          exact d.coherent.ids_below _ (entries_of_retired (listed r' (.tail _ later)).1)
  · apply d.leads_kept grows [] rfl (fun r _ => rfl)
    apply stands_kept
    · intro t live named
      rcases mem_insertByKey.mp live with rfl | live
      · exact absurd (named.symm.trans created.name) same
      · exact ⟨t, live, named, rfl⟩
    · exact fun none_ u live => none_ u (mem_insertByKey.mpr (.inr live))
    · exact fun r last => last

theorem leads_swap (d : Descended s) {job : Nat} (made : s.manifest.swapJob job version nowMs = .ok m')
    (grows : Extends s ⟨m', s.past.mark s.manifest (.swapJob job)⟩) (name : TableName) :
    Leads ⟨m', s.past.mark s.manifest (.swapJob job)⟩ name := by
  obtain ⟨spot, source, tombstones, jobs, _, isJob, tables, from_, _, _, rfl⟩ := swapJob_eq_ok made
  have running : spot.found ∈ s.manifest.jobs := by simp [jobs]
  have live : source.found ∈ s.manifest.tables := by simp [tables]
  have targetName := (d.coherent.jobFor running live from_).name
  have others := Located.key_ne_of_sorted (tables ▸ d.coherent.sorted)
  have heirs : ∀ r ∈ s.manifest.retired,
      (s.past.mark s.manifest (.swapJob job)).heir r.entry.id = s.past.heir r.entry.id := by
    intro r kept
    simp only [Ancestry.mark, isJob]
    exact Function.update_of_ne (from_ ▸ d.live_ne_retired live kept) _ _
  by_cases same : name = source.found.name
  · subst same
    obtain ⟨x, small, stands, linked⟩ := d.leads source.found.name
    have head : source.found.id = x := stands _ (.inl ⟨_, live, rfl, rfl⟩)
    refine ⟨spot.found.target.id, d.coherent.ids_below _ (entries_of_job running), ?_, ?_⟩
    · intro y stood
      rcases stood with ⟨t, live', named, rfl⟩ | ⟨none_, _⟩
      · rcases mem_insertByKey.mp live' with rfl | live'
        · rfl
        · exact absurd named (others t live')
      · exact absurd targetName (none_ { spot.found.target with tombstones := tombstones } (mem_insertByKey.mpr (.inl rfl)))
    · dsimp only
      rw [filter_concat (by simp [Retired.isOf]), List.reverse_append]
      refine ⟨.inl ⟨?_, ?_⟩, ?_⟩
      · simp only [Ancestry.mark, isJob, from_, Function.update_self]
      · simp only [Ancestry.mark, isJob]
        rw [d.jobs _ running, from_]
      · rw [← head] at linked small
        apply linked.kept grows.roots _ _ small
        · intro r listed
          exact heirs r (List.mem_of_mem_filter (List.mem_reverse.mp listed))
        · intro r listed
          exact d.coherent.ids_below _
            (entries_of_retired (List.mem_of_mem_filter (List.mem_reverse.mp listed)))
  · apply d.leads_kept grows [] _ heirs
    · apply stands_kept
      · intro t live' named
        rcases mem_insertByKey.mp live' with rfl | live'
        · exact absurd (named.symm.trans targetName) same
        · exact ⟨t, by simp [tables, live'], named, rfl⟩
      · intro none_ u live' named
        rw [tables] at live'
        rcases Located.mem_replaced.mp live' with rfl | live'
        · exact same named.symm
        · exact none_ u (mem_insertByKey.mpr (.inr live')) named
      · intro r last
        dsimp only at last
        rwa [filter_concat_of_not (by simp [Retired.isOf])] at last
    · dsimp only
      rw [filter_concat_of_not (by simp [Retired.isOf, Ne.symm same])]
      rfl

theorem leads_revert (d : Descended s) {table : TableName} (made : s.manifest.revertTable table version nowMs = .ok m')
    (grows : Extends s ⟨m', s.past⟩) (name : TableName) : Leads ⟨m', s.past⟩ name := by
  obtain ⟨r, cur, tombstones, at_, retired, reason, named, tables, rfl, _, stale, _, rfl⟩ := revertTable_eq_ok made
  have live : cur.found ∈ s.manifest.tables := by simp [tables]
  have kept : r.found ∈ s.manifest.retired := by simp [retired]
  have others := Located.key_ne_of_sorted (tables ▸ d.coherent.sorted)
  by_cases same : name = cur.found.name
  · subst same
    obtain ⟨x, small, stands, linked⟩ := d.leads cur.found.name
    refine ⟨r.found.entry.id, d.coherent.ids_below _ (entries_of_retired kept), ?_, ?_⟩
    · intro y stood
      rcases stood with ⟨t, live', at', rfl⟩ | ⟨none_, _⟩
      · rcases mem_insertByKey.mp live' with rfl | live'
        · rfl
        · exact absurd at' (others t live')
      · exact absurd named (none_ (restored r.found cur.found tombstones) (mem_insertByKey.mpr (.inl rfl)))
    · obtain ⟨whole, rest⟩ := filter_of_rposition (p := Retired.isOf .swapped cur.found.name) at_
      rw [whole, List.reverse_append] at linked
      dsimp only
      rw [filter_concat_of_not (by simp [Retired.isOf]), rest]
      exact linked.2
  · have other : ∀ reason, Retired.isOf reason name r.found = false := by
      intro reason
      simp [Retired.isOf, named, Ne.symm same]
    apply d.leads_kept grows [] _ (fun r _ => rfl)
    · apply stands_kept
      · intro t live' at'
        rcases mem_insertByKey.mp live' with rfl | live'
        · exact absurd (at'.symm.trans named) same
        · exact ⟨t, by simp [tables, live'], at', rfl⟩
      · intro none_ u live' at'
        rw [tables] at live'
        rcases Located.mem_replaced.mp live' with rfl | live'
        · exact same at'.symm
        · exact none_ u (mem_insertByKey.mpr (.inr live')) at'
      · intro r' last
        dsimp only at last
        rw [filter_concat_of_not (by simp [Retired.isOf]), filter_removed (other _), ← retired] at last
        exact last
    · dsimp only
      rw [filter_concat_of_not (by simp [Retired.isOf]), filter_removed (other _), ← retired]
      rfl

theorem leads_drop (d : Descended s) {table : TableName} (made : s.manifest.dropTable table version nowMs = .ok m')
    (grows : Extends s ⟨m', s.past⟩) (name : TableName) : Leads ⟨m', s.past⟩ name := by
  obtain ⟨spot, tables, rfl, _, rfl⟩ := dropTable_eq_ok made
  have live : spot.found ∈ s.manifest.tables := by simp [tables]
  have others := Located.key_ne_of_sorted (tables ▸ d.coherent.sorted)
  have unswapped : s.manifest.retired.filter (Retired.isOf .swapped name) =
      [] ++ (s.manifest.retired ++ [(⟨spot.found, .dropped, nowMs, version, []⟩ : Retired)]).filter
        (Retired.isOf .swapped name) := by
    rw [filter_concat_of_not (by simp [Retired.isOf])]
    rfl
  apply d.leads_kept grows [] unswapped (fun r _ => rfl)
  intro y stood
  rcases stood with ⟨t, live', at', rfl⟩ | ⟨none_, r, last, rfl⟩
  · exact .inl ⟨t, by simp [tables, show t ∈ spot.removed from live'], at', rfl⟩
  · dsimp only at last
    by_cases same : name = spot.found.name
    · rw [filter_concat (by simp [Retired.isOf, same]), List.getLast?_concat] at last
      cases last
      exact .inl ⟨spot.found, live, same.symm, rfl⟩
    · rw [filter_concat_of_not (by simp [Retired.isOf, Ne.symm same])] at last
      refine .inr ⟨?_, r, last, rfl⟩
      intro u live' at'
      rw [tables] at live'
      rcases Located.mem_replaced.mp live' with rfl | live'
      · exact same at'.symm
      · exact none_ u live' at'

theorem leads_undrop (d : Descended s) {table : TableName} (made : s.manifest.undropTable table = .ok m')
    (grows : Extends s ⟨m', s.past⟩) (name : TableName) : Leads ⟨m', s.past⟩ name := by
  obtain ⟨r, at_, retired, reason, rfl, missing, rfl⟩ := undropTable_eq_ok made
  have absent := absent_of_table missing
  obtain ⟨whole, _⟩ := filter_of_rposition (p := Retired.isOf .dropped r.found.entry.name) at_
  apply d.leads_kept grows [] _ (fun r _ => rfl)
  · intro y stood
    rcases stood with ⟨t, live, at', rfl⟩ | ⟨none_, r', last, rfl⟩
    · rcases mem_insertByKey.mp live with rfl | live
      · subst at'
        refine .inr ⟨absent, r.found, ?_, rfl⟩
        rw [whole, List.getLast?_concat]
        rfl
      · exact .inl ⟨t, live, at', rfl⟩
    · have other : name ≠ r.found.entry.name := fun same =>
        none_ r.found.entry (mem_insertByKey.mpr (.inl rfl)) same.symm
      refine .inr ⟨fun u live => none_ u (mem_insertByKey.mpr (.inr live)), r', ?_, rfl⟩
      dsimp only at last
      rw [filter_removed (by simp [Retired.isOf, Ne.symm other]), ← retired] at last
      exact last
  · dsimp only
    rw [filter_removed (by simp [Retired.isOf, reason]), ← retired]
    rfl

theorem leads_expire (d : Descended s) {beforeMs : Nat} (tame : s.Tame (.expireRetired beforeMs))
    (grows : Extends s ⟨s.manifest.expireRetired beforeMs version nowMs, s.past⟩) (name : TableName) :
    Leads ⟨s.manifest.expireRetired beforeMs version nowMs, s.past⟩ name := by
  -- What stays under one name and reason is a suffix, since the oldest go first.
  have suffix : ∀ reason, ∃ gone, s.manifest.retired.filter (Retired.isOf reason name) = gone ++
      (s.manifest.expireRetired beforeMs version nowMs).retired.filter (Retired.isOf reason name) := by
    intro reason
    rw [expireRetired_frame]
    dsimp only
    rw [List.filter_comm]
    apply filter_suffix
    have named : (s.manifest.retired.filter (Retired.isOf reason name)).Pairwise fun a b =>
        a.entry.name = b.entry.name → b.retiredAtMs < beforeMs → a.retiredAtMs < beforeMs := tame.filter _
    apply named.imp_of_mem
    intro a b inA inB ordered
    have sameA := (List.mem_filter.mp inA).2
    have sameB := (List.mem_filter.mp inB).2
    simp only [Retired.isOf, Bool.and_eq_true, beq_iff_eq] at sameA sameB
    have := ordered (sameA.2.trans sameB.2.symm)
    simp only [Bool.not_eq_true', decide_eq_false_iff_not]
    exact fun stays gone => stays (this gone)
  obtain ⟨gone, line⟩ := suffix .swapped
  apply d.leads_kept grows gone line (fun r _ => rfl)
  have tables : (s.manifest.expireRetired beforeMs version nowMs).tables = s.manifest.tables := by
    rw [expireRetired_frame]
  apply stands_kept
  · intro t live at'
    exact ⟨t, tables ▸ live, at', rfl⟩
  · exact fun none_ u live => none_ u (tables ▸ live)
  · intro r last
    obtain ⟨gone', drops⟩ := suffix .dropped
    rw [drops, List.getLast?_append]
    simp [show _ = some r from last]

end Lines

/-- An update of a table that leaves its name and id. -/
theorem leads_replace (d : Descended s) (grows : Extends s s') {spot : Located TableEntry} {t : TableEntry}
    (whole : s.manifest.tables = spot.replaced spot.found) (tables : s'.manifest.tables = spot.replaced t)
    (sameName : t.name = spot.found.name) (sameId : t.id = spot.found.id)
    (retired : s'.manifest.retired = s.manifest.retired) (heirs : s'.past.heir = s.past.heir) (name : TableName) :
    s'.Leads name := by
  apply d.leads_kept grows [] (by rw [retired]; rfl) (fun r _ => by rw [heirs])
  apply stands_same retired
  rw [tables, whole]
  exact map_replaced (by rw [sameName, sameId])

theorem leads_quiet (d : Descended s) (grows : Extends s s') (tables : s'.manifest.tables = s.manifest.tables)
    (retired : s'.manifest.retired = s.manifest.retired) (heirs : s'.past.heir = s.past.heir) (name : TableName) :
    s'.Leads name := by
  apply d.leads_kept grows [] (by rw [retired]; rfl) (fun r _ => by rw [heirs])
  exact stands_same retired (by rw [tables])

theorem settle_heir (a : Ancestry) (m : Manifest) (table : TableName) (segments : List SegmentEntry) :
    (a.mark m (.addSegments table segments)).heir = a.heir := by
  simp only [Ancestry.mark]
  split <;> rfl

theorem applyEdit_leads (d : Descended s) (tame : s.Tame e) (applied : s.applyEdit version nowMs e = .ok s') (name : TableName) :
    s'.Leads name := by
  have grows := applyEdit_extends tame applied
  obtain ⟨made, past⟩ := applyEdit_eq_ok applied
  obtain ⟨m', a'⟩ := s'
  dsimp only at made past
  subst past
  cases e with
  | createTable spec => exact leads_create d tame made grows name
  | swapJob job => exact leads_swap d made grows name
  | revertTable table => exact leads_revert d made grows name
  | dropTable table => exact leads_drop d made grows name
  | undropTable table => exact leads_undrop d made grows name
  | expireRetired beforeMs =>
    cases made
    exact leads_expire d tame grows name
  | addSegments table segments =>
    obtain ⟨spot, whole, _, _, rfl⟩ := addSegments_eq_ok made
    exact leads_replace d grows whole rfl rfl rfl rfl (settle_heir _ _ _ _) name
  | removeSegments table ids =>
    obtain ⟨spot, whole, _, _, _, rfl⟩ := removeSegments_eq_ok made
    rw [release_frame] at grows ⊢
    exact leads_replace d grows whole rfl rfl rfl rfl rfl name
  | addTombstone table predicates =>
    obtain ⟨spot, _, whole, _, _, rfl⟩ := addTombstone_eq_ok made
    exact leads_replace d grows whole rfl rfl rfl rfl rfl name
  | truncateTable table =>
    obtain ⟨spot, whole, _, _, rfl⟩ := truncateTable_eq_ok made
    rw [release_frame] at grows ⊢
    exact leads_replace d grows whole rfl rfl rfl rfl rfl name
  | forgetGarbage ids =>
    cases made
    exact leads_quiet d grows rfl rfl rfl name
  | reserveSegmentIds next =>
    cases made
    exact leads_quiet d grows rfl rfl rfl name
  | createJob table ops =>
    obtain ⟨_, _, _, _, _, _, rfl⟩ := createJob_eq_ok made
    apply leads_quiet d grows rfl rfl _ name
    simp only [Ancestry.mark]
    split <;> rfl
  | advanceJob job reused rewritten segments =>
    obtain ⟨_, _, _, _, _, _, _, _, _, _, rfl⟩ := advanceJob_eq_ok made
    apply leads_quiet d grows rfl rfl _ name
    simp only [Ancestry.mark]
    split <;> rfl
  | cancelJob job =>
    obtain ⟨_, _, _, rfl⟩ := cancelJob_eq_ok made
    rw [release_frame] at grows ⊢
    exact leads_quiet d grows rfl rfl rfl name
  | recordMigration migration checksum =>
    cases recordMigration_eq_ok made
    exact leads_quiet d grows rfl rfl rfl name

end Tracked

end Adelie
