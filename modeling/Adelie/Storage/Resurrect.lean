import Adelie.Storage.Faithful

namespace Adelie

open Manifest

/-- The definitions kept under a name by its swaps, in order. -/
def Manifest.swappedLine (m : Manifest) (name : TableName) : List Retired :=
  m.retired.filter (Retired.isOf .swapped name)

theorem mem_swappedLine {m : Manifest} {name : TableName} {r : Retired} (listed : r ∈ m.swappedLine name) :
    r ∈ m.retired ∧ r.reason = .swapped ∧ r.entry.name = name := by
  have := List.mem_filter.mp listed
  simpa [Retired.isOf] using this

/-- Schema changes, flushes and compactions of the table `name`, and whatever happens to others: each
    new segment of it is laid down by the writer, and the definitions kept under the name expire the
    oldest first. -/
def Ordinary (files : Files) (name : TableName) (m : Manifest) : Edit → Prop
  | .addSegments table segments => ∀ t ∈ m.tables, t.name = table → table = name → ∀ g ∈ segments, Laid files t g
  | .advanceJob job _ _ segments => ∀ j ∈ m.jobs, j.id = job → j.target.name = name → ∀ g ∈ segments, Laid files j.target g
  | .dropTable table | .undropTable table => table ≠ name
  | .expireRetired beforeMs => m.retired.Pairwise fun a b =>
    a.entry.name = name → b.entry.name = name → b.retiredAtMs < beforeMs → a.retiredAtMs < beforeMs
  | _ => True

def Tracked.Plain (files : Files) (name : TableName) (s : Tracked) (e : Edit) : Prop :=
  s.manifest.Provided e ∧ Ordinary files name s.manifest e

/-- The table `name`, its running job and what its swaps kept, against what their segments were
    written with. -/
structure Columned (files : Files) (name : TableName) (s : Tracked) : Prop where
  sound : Sound s.manifest
  lives : ∀ t ∈ s.manifest.tables, t.name = name →
    Upright files s.past t ∧ Chained s.past t (s.manifest.swappedLine name).reverse
  swapped : ∀ r ∈ s.manifest.swappedLine name, Upright files s.past r.entry
  jobs : ∀ j ∈ s.manifest.jobs, ∀ t ∈ s.manifest.tables, t.name = name → t.id = j.source →
    Upright files s.past j.target ∧ Derives s.past t j.target
  vacant : (∀ t ∈ s.manifest.tables, t.name ≠ name) → s.manifest.swappedLine name = []

theorem Columned.empty (files : Files) (name : TableName) : Columned files name Tracked.empty := by
  refine ⟨Sound.empty, ?_, ?_, ?_, fun _ => rfl⟩
  · intro t live
    cases live
  · intro r kept
    cases kept
  · intro j running
    cases running

namespace Columned

variable {files : Files} {name : TableName} {s s' : Tracked}
  (c : Columned files name s) (sound : Sound s'.manifest) (agrees : Agrees s.manifest s.past s'.past)

include c sound agrees

/-- The table is as it was; others may have changed, and the oldest of its swaps expired. -/
theorem frame (gone : List Retired) (line : s.manifest.swappedLine name = gone ++ s'.manifest.swappedLine name)
    (tables : ∀ t ∈ s'.manifest.tables, t.name = name → t ∈ s.manifest.tables)
    (stay : (∀ t ∈ s'.manifest.tables, t.name ≠ name) → ∀ t ∈ s.manifest.tables, t.name ≠ name)
    (jobs : ∀ j ∈ s'.manifest.jobs, ∀ t ∈ s.manifest.tables, t.name = name → t.id = j.source → j ∈ s.manifest.jobs) :
    Columned files name s' := by
  have coherent := c.sound.coherent
  have kept : ∀ r ∈ s'.manifest.swappedLine name, r ∈ s.manifest.swappedLine name := by
    intro r listed
    rw [line]
    exact List.mem_append_right _ listed
  refine ⟨sound, ?_, ?_, ?_, ?_⟩
  · intro t live named
    have old := tables t live named
    obtain ⟨upright, chained⟩ := c.lives t old named
    rw [line, List.reverse_append] at chained
    refine ⟨upright.mono agrees coherent (entries_of_table old),
      chained.initial.mono agrees coherent (entries_of_table old) ?_⟩
    exact fun r listed => (mem_swappedLine (kept r (List.mem_reverse.mp listed))).1
  · intro r listed
    have old := kept r listed
    exact (c.swapped r old).mono agrees coherent (entries_of_retired (mem_swappedLine old).1)
  · intro j running t live named from_
    have old := tables t live named
    have running' := jobs j running t old named from_
    obtain ⟨upright, derives⟩ := c.jobs j running' t old named from_
    exact ⟨upright.mono agrees coherent (entries_of_job running'),
      derives.mono agrees coherent (entries_of_table old) (entries_of_job running')⟩
  · intro absent
    have none_ := c.vacant (stay absent)
    rw [line] at none_
    exact (List.append_eq_nil_iff.mp none_).2

/-- One table gets other segments and tombstones. -/
theorem replace {spot : Located TableEntry} {t : TableEntry}
    (whole : s.manifest.tables = spot.replaced spot.found) (tables : s'.manifest.tables = spot.replaced t)
    (same : t = { spot.found with segments := t.segments, tombstones := t.tombstones })
    (upright : spot.found.name = name → Upright files s'.past t)
    (segments : spot.found.name = name → ∀ g ∈ t.segments, g ∈ spot.found.segments ∨ s'.past.written g.id = t.schema)
    (jobs : s'.manifest.jobs = s.manifest.jobs) (retired : s'.manifest.retired = s.manifest.retired) :
    Columned files name s' := by
  have coherent := c.sound.coherent
  have live : spot.found ∈ s.manifest.tables := by simp [whole]
  have sameName : t.name = spot.found.name := by rw [same]
  have line : s'.manifest.swappedLine name = s.manifest.swappedLine name := by
    rw [swappedLine, retired, swappedLine]
  have others : ∀ u ∈ s'.manifest.tables, u = t ∨ u ∈ s.manifest.tables := by
    intro u live'
    rw [tables] at live'
    rcases Located.mem_replaced.mp live' with rfl | live'
    · exact .inl rfl
    · exact .inr (by simp [whole, live'])
  by_cases ours : spot.found.name = name
  · refine ⟨sound, ?_, ?_, ?_, ?_⟩
    · intro u live' named
      rw [tables] at live'
      rcases Located.mem_replaced.mp live' with rfl | live'
      · refine ⟨upright ours, ?_⟩
        rw [line]
        have chained := (c.lives spot.found live ours).2.mono agrees coherent (entries_of_table live)
          fun r listed => (mem_swappedLine (List.mem_reverse.mp listed)).1
        refine chained.update (by rw [same]) (by rw [same]) (by rw [same]) ?_
        intro g member
        refine (segments ours g member).imp_right fun own => ?_
        rw [own, same]
      · exact absurd (named.trans ours.symm) (Located.key_ne_of_sorted (whole ▸ coherent.sorted) u live')
    · rw [line]
      exact fun r listed => (c.swapped r listed).mono agrees coherent (entries_of_retired (mem_swappedLine listed).1)
    · intro j running u live' named from_
      rw [jobs] at running
      rw [tables] at live'
      rcases Located.mem_replaced.mp live' with rfl | live'
      · rw [same] at from_
        obtain ⟨upright', derives⟩ := c.jobs j running spot.found live ours from_
        have derives' := derives.mono agrees coherent (entries_of_table live) (entries_of_job running)
        refine ⟨upright'.mono agrees coherent (entries_of_job running), ?_⟩
        rw [same]
        exact ⟨derives'.origin, derives'.types, derives'.next, derives'.born⟩
      · exact absurd (named.trans ours.symm) (Located.key_ne_of_sorted (whole ▸ coherent.sorted) u live')
    · intro absent
      refine absurd (sameName.trans ours) (absent t ?_)
      rw [tables]
      exact Located.mem_replaced.mpr (.inl rfl)
  · refine c.frame sound agrees [] line.symm ?_ ?_ ?_
    · intro u live' named
      rcases others u live' with rfl | old
      · exact absurd (sameName.symm.trans named) ours
      · exact old
    · intro absent u live'
      rw [whole] at live'
      rcases Located.mem_replaced.mp live' with rfl | live'
      · exact ours
      · refine absent u ?_
        rw [tables]
        exact Located.mem_replaced.mpr (.inr live')
    · exact fun j running _ _ _ _ => jobs ▸ running

end Columned

section Steps

variable {files : Files} {name : TableName} {s : Tracked} {m' : Manifest} {version nowMs : Nat}

theorem Columned.create (c : Columned files name s) {spec : TableSpec} (made : s.manifest.createTable spec = .ok m')
    (sound : Sound m') (agrees : Agrees s.manifest s.past (s.past.mark s.manifest (.createTable spec))) :
    Columned files name ⟨m', s.past.mark s.manifest (.createTable spec)⟩ := by
  obtain ⟨entry, created, rfl⟩ := createTable_eq_ok made
  have absent := absent_of_table created.absent
  by_cases ours : spec.name = name
  · have none_ : s.manifest.swappedLine name = [] := c.vacant (ours ▸ absent)
    have line : ∀ r, r ∉ s.manifest.swappedLine name := by
      intro r listed
      rw [none_] at listed
      cases listed
    refine ⟨sound, ?_, fun r listed => absurd listed (line r), ?_, fun _ => none_⟩
    · intro t live named
      rcases mem_insertByKey.mp live with rfl | live
      · refine ⟨?_, ?_⟩
        · intro g member
          rw [created.segments] at member
          cases member
        · change Chained _ _ (s.manifest.swappedLine name).reverse
          rw [none_]
          exact True.intro
      · exact absurd (named.trans ours.symm) (absent t live)
    · intro j running t live named from_
      rcases mem_insertByKey.mp live with rfl | live
      · obtain ⟨u, live', job⟩ := c.sound.coherent.jobs j running
        have below := c.sound.coherent.ids_below u (entries_of_table live')
        rw [job.source, ← from_, created.id] at below
        exact absurd below (Nat.lt_irrefl _)
      · exact absurd (named.trans ours.symm) (absent t live)
  · refine c.frame sound agrees [] rfl ?_ ?_ (fun j running _ _ _ _ => running)
    · intro t live named
      rcases mem_insertByKey.mp live with rfl | live
      · exact absurd (created.name.symm.trans named) ours
      · exact live
    · exact fun absent' t live => absent' t (mem_insertByKey.mpr (.inr live))

/-- A new job's target has the columns of its source, and others under new ids. -/
theorem derives_planned {a : Ancestry} {source target : TableEntry} {next : Nat} (plan : Planned source target)
    (ok : source.SchemaOk) (fresh : source.id < next) :
    Derives { a with born := Function.update a.born next fun id =>
      if id ∈ source.schemaIds then a.born source.id id else next } source { target with id := next } := by
  have from_ := Manifest.Planned.madeFrom plan next
  refine ⟨from_.origin, ?_, from_.next, ?_⟩
  · intro f member g column same
    rcases plan.descends.origin f member with new | ⟨h, inside, same', typed⟩
    · have := ok.ids.below g column
      omega
    · rw [← typed, List.inj_on_of_nodup_map ok.ids.nodup inside column (same'.trans same)]
  · intro f member listed
    simp only [Function.update_self, Function.update_of_ne fresh.ne]
    rw [if_pos listed]

theorem Columned.createJob (c : Columned files name s) {table : TableName} {ops : List Alter}
    (made : s.manifest.createJob table ops = .ok m') (sound : Sound m')
    (agrees : Agrees s.manifest s.past (s.past.mark s.manifest (.createJob table ops))) :
    Columned files name ⟨m', s.past.mark s.manifest (.createJob table ops)⟩ := by
  obtain ⟨spot, target, whole, rfl, idle, plan, rfl⟩ := createJob_eq_ok made
  have coherent := c.sound.coherent
  have live : spot.found ∈ s.manifest.tables := by simp [whole]
  have old := entries_of_table live
  have planned := planAlter_spec plan (coherent.schemas _ old)
  refine ⟨sound, ?_, ?_, ?_, c.vacant⟩
  · intro t live' named
    obtain ⟨upright, chained⟩ := c.lives t live' named
    refine ⟨upright.mono agrees coherent (entries_of_table live'),
      chained.mono agrees coherent (entries_of_table live') ?_⟩
    exact fun r listed => (mem_swappedLine (List.mem_reverse.mp listed)).1
  · exact fun r listed => (c.swapped r listed).mono agrees coherent (entries_of_retired (mem_swappedLine listed).1)
  · intro j running t live' named from_
    rcases List.mem_append.mp running with running | new
    · obtain ⟨upright, derives⟩ := c.jobs j running t live' named from_
      exact ⟨upright.mono agrees coherent (entries_of_job running),
        derives.mono agrees coherent (entries_of_table live') (entries_of_job running)⟩
    · rw [List.mem_singleton.mp new] at from_ ⊢
      refine ⟨?_, ?_⟩
      · intro g member
        dsimp only at member
        rw [planned.segments] at member
        cases member
      · have same := coherent.table_unique live' live from_
        subst same
        have marked : s.past.mark s.manifest (.createJob spot.found.name ops) =
            { s.past with
              root := Function.update s.past.root s.manifest.nextTableId (s.past.root spot.found.id)
              born := Function.update s.past.born s.manifest.nextTableId fun id =>
                if id ∈ spot.found.schemaIds then s.past.born spot.found.id id else s.manifest.nextTableId } := by
          simp only [Ancestry.mark, table_eq_some coherent.sorted live]
        rw [marked]
        have derives := derives_planned (a := s.past) planned (coherent.schemas _ old) (coherent.ids_below _ old)
        exact ⟨derives.origin, derives.types, derives.next, derives.born⟩

theorem Columned.advanceJob (c : Columned files name s) {job : Nat} {reused rewritten : List Nat}
    {segments : List SegmentEntry} (made : s.manifest.advanceJob job reused rewritten segments = .ok m')
    (laid : Ordinary files name s.manifest (.advanceJob job reused rewritten segments)) (sound : Sound m')
    (agrees : Agrees s.manifest s.past (s.past.mark s.manifest (.advanceJob job reused rewritten segments))) :
    Columned files name ⟨m', s.past.mark s.manifest (.advanceJob job reused rewritten segments)⟩ := by
  obtain ⟨spot, source, carried, job', jobs, sameJob, isJob, tables, from_, advanced, rfl⟩ := advanceJob_eq_ok made
  have coherent := c.sound.coherent
  have running : spot.found ∈ s.manifest.jobs := by simp [jobs]
  have live : source.found ∈ s.manifest.tables := by simp [tables]
  refine ⟨sound, ?_, ?_, ?_, c.vacant⟩
  · intro t live' named
    obtain ⟨upright, chained⟩ := c.lives t live' named
    refine ⟨upright.mono agrees coherent (entries_of_table live'),
      chained.mono agrees coherent (entries_of_table live') ?_⟩
    exact fun r listed => (mem_swappedLine (List.mem_reverse.mp listed)).1
  · exact fun r listed => (c.swapped r listed).mono agrees coherent (entries_of_retired (mem_swappedLine listed).1)
  · intro j running' t live' named from'
    rcases Located.mem_replaced.mp running' with rfl | running'
    · have sameSource : j.source = spot.found.source := by rw [advanced.job]
      have same := coherent.table_unique live' live ((from'.trans sameSource).trans from_.symm)
      subst same
      obtain ⟨upright, derives⟩ := c.jobs spot.found running source.found live named from_
      have targetName := (coherent.jobFor running live from_).name.trans named
      have derives' := derives.mono agrees coherent (entries_of_table live) (entries_of_job running)
      have fields := (c.sound.entries _ (entries_of_table live)).aligned
      rw [advanced.job]
      refine ⟨?_, derives'.origin, derives'.types, derives'.next, derives'.born⟩
      intro g member
      dsimp only at member
      rw [mem_sortByKey, List.mem_append, List.mem_append] at member
      rcases member with old | old | new
      · exact (upright.mono agrees coherent (entries_of_job running) g old).later rfl rfl (Nat.le_refl _)
      · obtain ⟨_, _, g₀, inside, _, rfl⟩ := List.Forall₂.source advanced.projected old
        have before := (c.lives source.found live named).1.mono agrees coherent (entries_of_table live) g₀ inside
        apply before.projectOnto (u := { spot.found.target with segments := _ }) (fields g₀ inside)
        · intro f column
          refine (derives'.origin f column).imp_right fun above written => ?_
          obtain ⟨h, member, same⟩ := List.mem_map.mp written
          have := before.below h member
          omega
        · exact derives'.types
        · exact derives'.next
        · exact derives'.born
      · have marked : s.past.mark s.manifest (.advanceJob job reused rewritten segments) =
            s.past.settle spot.found.target segments := by
          simp only [Ancestry.mark, isJob]
        obtain ⟨written, stamp⟩ := s.past.settle_written spot.found.target new
        rw [marked]
        exact ((laid spot.found running sameJob targetName g new).faithful (advanced.aligned g new)
          (coherent.schemas _ (entries_of_job running)) written stamp).later rfl rfl (Nat.le_refl _)
    · have running'' : j ∈ s.manifest.jobs := by simp [jobs, running']
      obtain ⟨upright, derives⟩ := c.jobs j running'' t live' named from'
      exact ⟨upright.mono agrees coherent (entries_of_job running''),
        derives.mono agrees coherent (entries_of_table live') (entries_of_job running'')⟩

theorem Columned.swap (c : Columned files name s) {job : Nat} (made : s.manifest.swapJob job version nowMs = .ok m')
    (sound : Sound m') (agrees : Agrees s.manifest s.past (s.past.mark s.manifest (.swapJob job))) :
    Columned files name ⟨m', s.past.mark s.manifest (.swapJob job)⟩ := by
  obtain ⟨spot, source, tombstones, jobs, _, _, tables, from_, _, _, rfl⟩ := swapJob_eq_ok made
  have coherent := c.sound.coherent
  have running : spot.found ∈ s.manifest.jobs := by simp [jobs]
  have live : source.found ∈ s.manifest.tables := by simp [tables]
  have targetName := (coherent.jobFor running live from_).name
  have others := Located.key_ne_of_sorted (tables ▸ coherent.sorted)
  by_cases ours : source.found.name = name
  · obtain ⟨upright, chained⟩ := c.lives source.found live ours
    obtain ⟨uprightTarget, derives⟩ := c.jobs spot.found running source.found live ours from_
    refine ⟨sound, ?_, ?_, ?_, ?_⟩
    · intro t live' named
      rcases mem_insertByKey.mp live' with rfl | live'
      · have now := uprightTarget.mono agrees coherent (entries_of_job running)
        refine ⟨fun g member => (now g member).later rfl rfl (Nat.le_refl _), ?_⟩
        dsimp only [swappedLine]
        rw [filter_concat (by simp [Retired.isOf, ours]), List.reverse_append]
        have derives' := derives.mono agrees coherent (entries_of_table live) (entries_of_job running)
        refine ⟨⟨derives'.origin, derives'.types, derives'.next, derives'.born⟩, ?_, ?_⟩
        · -- the swap lists every segment of its target
          intro g member new
          exact absurd (mem_sortByKey.mpr (List.mem_map_of_mem member)) new
        · apply chained.mono agrees coherent (entries_of_table live)
          exact fun r listed => (mem_swappedLine (List.mem_reverse.mp listed)).1
      · exact absurd (named.trans ours.symm) (others t live')
    · intro r listed
      dsimp only [swappedLine] at listed
      rw [filter_concat (by simp [Retired.isOf, ours])] at listed
      rcases List.mem_append.mp listed with listed | new
      · exact (c.swapped r listed).mono agrees coherent (entries_of_retired (mem_swappedLine listed).1)
      · rw [List.mem_singleton.mp new]
        exact upright.mono agrees coherent (entries_of_table live)
    · intro j running' t live' named from'
      have running'' : j ∈ s.manifest.jobs := by simp [jobs, show j ∈ spot.removed from running']
      rcases mem_insertByKey.mp live' with rfl | live'
      · exact absurd from' (coherent.source_ne running'' (coherent.target_id running))
      · exact absurd (named.trans ours.symm) (others t live')
    · intro absent
      refine absurd (targetName.trans ours) (absent { spot.found.target with tombstones := tombstones } ?_)
      exact mem_insertByKey.mpr (.inl rfl)
  · refine c.frame sound agrees [] ?_ ?_ ?_ ?_
    · dsimp only [swappedLine]
      rw [filter_concat_of_not (by simp [Retired.isOf, ours])]
      rfl
    · intro t live' named
      rcases mem_insertByKey.mp live' with rfl | live'
      · exact absurd (targetName.symm.trans named) ours
      · simp [tables, live']
    · intro absent t live'
      rw [tables] at live'
      rcases Located.mem_replaced.mp live' with rfl | live'
      · exact ours
      · exact absent t (mem_insertByKey.mpr (.inr live'))
    · intro j running' _ _ _ _
      simp [jobs, show j ∈ spot.removed from running']

/-- What REVERT restores sees every segment as it was written: its own, and those written since the
    swap, whose columns it has or never had. -/
theorem restored_upright {a : Ancestry} {r : Retired} {cur : TableEntry} {tombstones : List Tombstone}
    (kept : Upright files a r.entry) (live : Upright files a cur) (derives : Derives a r.entry cur)
    (since : SinceSwap a r cur) (ok : r.entry.SchemaOk) (aligned : ∀ g ∈ cur.segments, Aligned cur.schema g) :
    Upright files a (restored r cur tombstones) := by
  intro g member
  simp only [restored] at member
  rw [mem_sortByKey, List.mem_append, List.mem_map] at member
  rcases member with old | ⟨g₀, inside, rfl⟩
  · exact (kept g old).later rfl rfl (Nat.le_max_left _ _)
  · obtain ⟨inside, new⟩ := List.mem_filter.mp inside
    have new : g₀.id ∉ r.successorSegments := by simpa using new
    apply (live g₀ inside).projectOnto (u := restored r cur tombstones) (aligned g₀ inside)
    · intro f column
      by_cases written : f.id ∈ (a.written g₀.id).map (·.id)
      · obtain ⟨h, member, same⟩ := List.mem_map.mp written
        have below := ok.ids.below f column
        refine .inl ?_
        rcases since g₀ inside new h member with listed | above
        · rwa [same] at listed
        · omega
      · exact .inr written
    · intro f column h inside' same
      exact (derives.types h inside' f column same.symm).symm
    · exact Nat.le_max_right _ _
    · intro f column listed
      obtain ⟨h, inside', same⟩ := List.mem_map.mp listed
      have known : h.id ∈ r.entry.schemaIds := same ▸ List.mem_map_of_mem column
      rw [← same]
      exact (derives.born h inside' known).symm

/-- And it follows on what the definition it restores followed on. -/
theorem restored_chained {a : Ancestry} {r : Retired} {cur : TableEntry} {tombstones : List Tombstone}
    {line : List Retired} (chained : Chained a cur (r :: line)) : Chained a (restored r cur tombstones) line := by
  obtain ⟨derives, since, rest⟩ := chained
  cases line with
  | nil => exact True.intro
  | cons r' rest' =>
    obtain ⟨derives', since', rest⟩ := rest
    refine ⟨⟨derives'.origin, derives'.types, derives'.next.trans (Nat.le_max_left _ _), derives'.born⟩, ?_, rest⟩
    intro g member new f written
    simp only [restored] at member
    rw [mem_sortByKey, List.mem_append, List.mem_map] at member
    rcases member with old | ⟨g₀, inside, rfl⟩
    · exact since' g old new f written
    · obtain ⟨inside, later⟩ := List.mem_filter.mp inside
      have next := derives'.next
      rcases since g₀ inside (by simpa using later) f written with listed | above
      · obtain ⟨h, column, same⟩ := List.mem_map.mp listed
        rw [← same]
        rcases derives.origin h column with listed | above
        · exact .inl listed
        · exact .inr (next.trans above)
      · exact .inr (next.trans above)

theorem Columned.revert (c : Columned files name s) {table : TableName}
    (made : s.manifest.revertTable table version nowMs = .ok m') (sound : Sound m') :
    Columned files name ⟨m', s.past⟩ := by
  obtain ⟨r, cur, tombstones, at_, retired, reason, named, tables, rfl, idle, stale, _, rfl⟩ := revertTable_eq_ok made
  have coherent := c.sound.coherent
  have agrees : Agrees s.manifest s.past s.past := ⟨fun _ _ => rfl, fun _ _ => rfl, fun _ _ => rfl⟩
  have live : cur.found ∈ s.manifest.tables := by simp [tables]
  have kept : r.found ∈ s.manifest.retired := by simp [retired]
  have others := Located.key_ne_of_sorted (tables ▸ coherent.sorted)
  by_cases ours : cur.found.name = name
  · subst ours
    obtain ⟨upright, chained⟩ := c.lives cur.found live rfl
    obtain ⟨whole, rest⟩ := filter_of_rposition (p := Retired.isOf .swapped cur.found.name) at_
    have line : s.manifest.swappedLine cur.found.name =
        r.removed.filter (Retired.isOf .swapped cur.found.name) ++ [r.found] := by
      rw [rest]
      exact whole
    have now : ∀ m : Manifest, m.retired = r.removed ++ [⟨cur.found, .reverted, nowMs, version, []⟩] →
        m.swappedLine cur.found.name = r.removed.filter (Retired.isOf .swapped cur.found.name) := by
      intro m same
      rw [swappedLine, same, filter_concat_of_not (by simp [Retired.isOf])]
    rw [line, List.reverse_append] at chained
    have swapped := c.swapped r.found (by rw [line]; simp)
    refine ⟨sound, ?_, ?_, ?_, ?_⟩
    · intro t live' named'
      rcases mem_insertByKey.mp live' with rfl | live'
      · rw [now _ rfl]
        refine ⟨?_, restored_chained chained⟩
        exact restored_upright swapped upright chained.1 chained.2.1 (coherent.schemas _ (entries_of_retired kept))
          (c.sound.entries _ (entries_of_table live)).aligned
      · exact absurd named' (others t live')
    · intro r' listed
      rw [now _ rfl] at listed
      apply c.swapped r'
      rw [line]
      exact List.mem_append_left _ listed
    · intro j running t live' named' from_
      rcases mem_insertByKey.mp live' with rfl | live'
      · exact absurd from_ (coherent.source_ne running (coherent.retired_id kept))
      · exact absurd named' (others t live')
    · intro absent
      exact absurd named (absent (restored r.found cur.found tombstones) (mem_insertByKey.mpr (.inl rfl)))
  · refine c.frame sound agrees [] ?_ ?_ ?_ (fun j running _ _ _ _ => running)
    · dsimp only [swappedLine]
      rw [filter_concat_of_not (by simp [Retired.isOf]), Tracked.filter_removed (by simp [Retired.isOf, named, ours]), ← retired]
      rfl
    · intro t live' named'
      rcases mem_insertByKey.mp live' with rfl | live'
      · exact absurd (named.symm.trans named') ours
      · simp [tables, live']
    · intro absent t live'
      rw [tables] at live'
      rcases Located.mem_replaced.mp live' with rfl | live'
      · exact ours
      · exact absent t (mem_insertByKey.mpr (.inr live'))

theorem Columned.expire (c : Columned files name s) {beforeMs : Nat}
    (oldest : Ordinary files name s.manifest (.expireRetired beforeMs))
    (sound : Sound (s.manifest.expireRetired beforeMs version nowMs)) :
    Columned files name ⟨s.manifest.expireRetired beforeMs version nowMs, s.past⟩ := by
  rw [expireRetired_frame] at sound ⊢
  have suffix : ∃ gone, s.manifest.swappedLine name = gone ++ (s.manifest.swappedLine name).filter
      fun r => !(decide (r.retiredAtMs < beforeMs)) := by
    apply filter_suffix
    apply (List.Pairwise.filter _ oldest).imp_of_mem
    intro a b inA inB ordered
    have later := ordered (mem_swappedLine (m := s.manifest) inA).2.2 (mem_swappedLine (m := s.manifest) inB).2.2
    simp only [Bool.not_eq_true', decide_eq_false_iff_not]
    exact fun stays gone => stays (later gone)
  obtain ⟨gone, whole⟩ := suffix
  refine c.frame sound ⟨fun _ _ => rfl, fun _ _ => rfl, fun _ _ => rfl⟩ gone ?_ (fun t live _ => live)
    (fun absent => absent) (fun j running _ _ _ _ => running)
  rw [whole]
  unfold swappedLine
  rw [List.filter_comm]

theorem Columned.drop (c : Columned files name s) {table : TableName} (other : table ≠ name)
    (made : s.manifest.dropTable table version nowMs = .ok m') (sound : Sound m') :
    Columned files name ⟨m', s.past⟩ := by
  obtain ⟨spot, tables, rfl, _, rfl⟩ := dropTable_eq_ok made
  refine c.frame sound ⟨fun _ _ => rfl, fun _ _ => rfl, fun _ _ => rfl⟩ [] ?_ ?_ ?_
    (fun j running _ _ _ _ => running)
  · dsimp only [swappedLine]
    rw [filter_concat_of_not (by simp [Retired.isOf])]
    rfl
  · intro t live _
    simp [tables, show t ∈ spot.removed from live]
  · intro absent t live
    rw [tables] at live
    rcases Located.mem_replaced.mp live with rfl | live
    · exact other
    · exact absent t live

theorem Columned.undrop (c : Columned files name s) {table : TableName} (other : table ≠ name)
    (made : s.manifest.undropTable table = .ok m') (sound : Sound m') : Columned files name ⟨m', s.past⟩ := by
  obtain ⟨r, _, retired, reason, rfl, _, rfl⟩ := undropTable_eq_ok made
  refine c.frame sound ⟨fun _ _ => rfl, fun _ _ => rfl, fun _ _ => rfl⟩ [] ?_ ?_ ?_
    (fun j running _ _ _ _ => running)
  · dsimp only [swappedLine]
    rw [Tracked.filter_removed (by simp [Retired.isOf, reason]), ← retired]
    rfl
  · intro t live named
    rcases mem_insertByKey.mp live with rfl | live
    · exact absurd named other
    · exact live
  · exact fun absent t live => absent t (mem_insertByKey.mpr (.inr live))

theorem applyEdit_columned {s' : Tracked} {e : Edit} (plain : s.Plain files name e) (c : Columned files name s)
    (applied : s.applyEdit version nowMs e = .ok s') : Columned files name s' := by
  obtain ⟨provided, ordinary⟩ := plain
  have agrees := agrees_mark (a := s.past) s.manifest e provided.fresh
  obtain ⟨made, past⟩ := Tracked.applyEdit_eq_ok applied
  have sound := applyEdit_sound provided c.sound made
  have coherent := c.sound.coherent
  obtain ⟨m', a'⟩ := s'
  dsimp only at made past sound
  subst past
  cases e with
  | createTable spec => exact c.create made sound agrees
  | createJob table ops => exact c.createJob made sound agrees
  | advanceJob job reused rewritten segments => exact c.advanceJob made ordinary sound agrees
  | swapJob job => exact c.swap made sound agrees
  | revertTable table => exact c.revert made sound
  | dropTable table => exact c.drop ordinary made sound
  | undropTable table => exact c.undrop ordinary made sound
  | expireRetired beforeMs =>
    cases made
    exact c.expire ordinary sound
  | addSegments table segments =>
    obtain ⟨spot, whole, rfl, aligned, rfl⟩ := addSegments_eq_ok made
    have live : spot.found ∈ s.manifest.tables := by simp [whole]
    have marked : s.past.mark s.manifest (.addSegments spot.found.name segments) =
        s.past.settle spot.found segments := by
      simp only [Ancestry.mark, table_eq_some coherent.sorted live]
    rw [marked] at agrees ⊢
    refine c.replace sound agrees whole rfl rfl ?_ ?_ rfl rfl
    · intro ours g member
      rcases List.mem_append.mp (mem_sortByKey.mp member) with old | new
      · have before := (c.lives _ live ours).1.mono agrees coherent (entries_of_table live) g old
        exact before.later rfl rfl (Nat.le_refl _)
      · obtain ⟨written, stamp⟩ := s.past.settle_written spot.found new
        exact ((ordinary _ live rfl ours g new).faithful (aligned g new) (coherent.schemas _ (entries_of_table live))
          written stamp).later rfl rfl (Nat.le_refl _)
    · intro ours g member
      rcases List.mem_append.mp (mem_sortByKey.mp member) with old | new
      · exact .inl old
      · exact .inr (s.past.settle_written spot.found new).1
  | removeSegments table ids =>
    obtain ⟨spot, whole, rfl, _, _, rfl⟩ := removeSegments_eq_ok made
    have live : spot.found ∈ s.manifest.tables := by simp [whole]
    rw [release_frame] at sound ⊢
    refine c.replace sound agrees whole rfl rfl ?_ ?_ rfl rfl
    · intro ours g member
      exact ((c.lives _ live ours).1 g (List.mem_of_mem_filter member)).later rfl rfl (Nat.le_refl _)
    · exact fun _ g member => .inl (List.mem_of_mem_filter member)
  | addTombstone table predicates =>
    obtain ⟨spot, _, whole, rfl, _, rfl⟩ := addTombstone_eq_ok made
    have live : spot.found ∈ s.manifest.tables := by simp [whole]
    refine c.replace sound agrees whole rfl rfl ?_ ?_ rfl rfl
    · exact fun ours g member => ((c.lives _ live ours).1 g member).later rfl rfl (Nat.le_refl _)
    · exact fun _ g member => .inl member
  | truncateTable table =>
    obtain ⟨spot, whole, rfl, _, rfl⟩ := truncateTable_eq_ok made
    rw [release_frame] at sound ⊢
    refine c.replace sound agrees whole rfl rfl ?_ ?_ rfl rfl
    · intro _ g member
      cases member
    · intro _ g member
      cases member
  | cancelJob job =>
    obtain ⟨spot, jobs, _, rfl⟩ := cancelJob_eq_ok made
    rw [release_frame] at sound ⊢
    refine c.frame sound agrees [] rfl (fun t live _ => live) (fun absent => absent) ?_
    intro j running _ _ _ _
    simp [jobs, show j ∈ spot.removed from running]
  | forgetGarbage ids =>
    cases made
    exact c.frame sound agrees [] rfl (fun t live _ => live) (fun absent => absent)
      (fun j running _ _ _ _ => running)
  | reserveSegmentIds next =>
    cases made
    exact c.frame sound agrees [] rfl (fun t live _ => live) (fun absent => absent)
      (fun j running _ _ _ _ => running)
  | recordMigration migration checksum =>
    cases recordMigration_eq_ok made
    exact c.frame sound agrees [] rfl (fun t live _ => live) (fun absent => absent)
      (fun j running _ _ _ _ => running)

end Steps

/-- A table reads a segment as it was written: each field has the value written under its id, by the
    same column, or NULL when there was none; and a column is recorded as NULL throughout just when it
    reads so. A segment written without columns has no rows to read. -/
structure ReadsAsWritten (files : Files) (a : Ancestry) (t : TableEntry) (g : SegmentEntry) (file : SegmentFile) :
    Prop where
  opens : a.written g.id ≠ [] → ∃ batches, readSegmentAs files g t.schema = .ok batches
  hollow : a.written g.id = [] → file.rows = []
  values : ∀ batches, readSegmentAs files g t.schema = .ok batches → t.schema ≠ [] →
    batches.flatten = file.rows.map fun row => t.schema.map fun f => cellAt (a.written g.id) row f.id
  columns : ∀ f ∈ t.schema, f.id ∈ (a.written g.id).map (·.id) → a.born t.id f.id = a.stamp g.id f.id
  nulls : ∀ batches, readSegmentAs files g t.schema = .ok batches → ∀ p ∈ t.schema.zip g.columns,
    p.2.nullCount = p.2.rows ↔ ∀ row ∈ batches.flatten, cellAt t.schema row p.1.id = .null

section Reads

variable {files : Files} {a : Ancestry} {t : TableEntry} {g : SegmentEntry}

/-- A row made field by field has, under a field's id, what was made for it. -/
theorem cellAt_map {schema : List SchemaField} (nodup : (schema.map (·.id)).Nodup) (cell : SchemaField → Value)
    {f : SchemaField} (member : f ∈ schema) : cellAt schema (schema.map cell) f.id = cell f := by
  have paired : schema.zip (schema.map cell) = schema.map fun f => (f, cell f) := by
    conv_lhs => rw [← List.map_id schema, List.map_map]
    exact List.zip_map'
  unfold cellAt
  rw [paired, List.find?_map]
  have found : schema.find? ((fun x : SchemaField × Value => x.1.id == f.id) ∘ fun f => (f, cell f)) = some f :=
    find?_key nodup member
  rw [found]
  rfl

theorem Faithful.readable (faithful : Faithful files a t g) (wide : a.written g.id ≠ []) {file : SegmentFile}
    (fields : file.fields = (a.written g.id).map (·.field)) : Readable file g.fileIds t.schema := by
  refine ⟨?_, ?_⟩
  · rw [faithful.count wide, fields, List.length_map]
  · intro f member i at_
    rw [faithful.columns wide f member] at at_
    obtain ⟨within, hit, _⟩ := List.findIdx?_eq_some_iff_getElem.mp at_
    rw [List.length_map] at within
    simp only [List.getElem_map, Bool.and_eq_true, beq_iff_eq] at hit
    refine ⟨(a.written g.id)[i].field, by simp [fields, within], ?_⟩
    exact (faithful.types f member _ (List.getElem_mem within) hit.2.symm).symm

theorem Faithful.rowAs (faithful : Faithful files a t g) (wide : a.written g.id ≠ []) (row : Row) :
    rowAs g.fileIds t.schema row = t.schema.map fun f => cellAt (a.written g.id) row f.id := by
  apply List.map_congr_left
  intro f member
  rw [← cellOf_written faithful.positive, cellOf, cellOf, faithful.columns wide f member]

theorem Faithful.reads (faithful : Faithful files a t g) (aligned : Aligned t.schema g) (ok : t.SchemaOk) :
    ∃ file, files g.path = some file ∧ ReadsAsWritten files a t g file := by
  obtain ⟨file, found, fields, _, hollow, counts⟩ := faithful.file
  have values : ∀ batches, readSegmentAs files g t.schema = .ok batches → t.schema ≠ [] →
      batches.flatten = file.rows.map fun row => t.schema.map fun f => cellAt (a.written g.id) row f.id := by
    intro batches read nonempty
    obtain ⟨file', found', _, flat⟩ := readSegmentAs_eq_ok nonempty read
    rw [found] at found'
    cases found'
    by_cases wide : a.written g.id = []
    · rw [flat, hollow wide]
      rfl
    · rw [flat]
      exact List.map_congr_left fun row _ => faithful.rowAs wide row
  refine ⟨file, found, ?_, hollow, values, faithful.born, ?_⟩
  · intro wide
    by_cases nonempty : t.schema = []
    · refine ⟨file.groups.map (realign []), ?_⟩
      have count := (faithful.readable wide fields).count
      simp only [readSegmentAs, openSegment, found, count, decide_true, ensure, if_true, nonempty]
      rfl
    · obtain ⟨batches, read, _⟩ := readSegmentAs_of_readable nonempty found (faithful.readable wide fields)
      exact ⟨batches, read⟩
  · intro batches read p member
    have column : p.1 ∈ t.schema := (List.of_mem_zip member).1
    have nonempty : t.schema ≠ [] := List.ne_nil_of_mem column
    have counted := counts p.1 column
    rw [statsOf_zip aligned ok.ids.nodup member] at counted
    rw [counted.1, counted.2, List.countP_eq_length, values batches read nonempty, List.forall_mem_map]
    refine forall₂_congr fun row _ => ?_
    rw [cellAt_map ok.ids.nodup _ column]
    cases cellAt (a.written g.id) row p.1.id <;> simp [Value.isNull]

end Reads

instance (files : Files) (t : TableEntry) (g : SegmentEntry) : Decidable (Laid files t g) :=
  decidable_of_iff (g.fileIds = t.schemaIds ∧ ∃ file ∈ files g.path, file.fields = t.fields ∧
    file.rows.length = g.rows ∧ (t.schema = [] → file.rows = []) ∧
    ∀ p ∈ t.schema.zip g.columns, p.2.rows = file.rows.length ∧
      p.2.nullCount = file.rows.countP fun row => (cellAt t.schema row p.1.id).isNull)
    ⟨fun ⟨ids, file⟩ => ⟨ids, file⟩, fun laid => ⟨laid.ids, laid.file⟩⟩

instance (files : Files) (name : TableName) (m : Manifest) (e : Edit) : Decidable (Ordinary files name m e) :=
  match e with
  | .addSegments table segments => inferInstanceAs (Decidable (∀ t ∈ m.tables, t.name = table → table = name →
      ∀ g ∈ segments, Laid files t g))
  | .advanceJob job _ _ segments => inferInstanceAs (Decidable (∀ j ∈ m.jobs, j.id = job → j.target.name = name →
      ∀ g ∈ segments, Laid files j.target g))
  | .dropTable table | .undropTable table => inferInstanceAs (Decidable (table ≠ name))
  | .expireRetired beforeMs => inferInstanceAs (Decidable (m.retired.Pairwise fun a b =>
      a.entry.name = name → b.entry.name = name → b.retiredAtMs < beforeMs → a.retiredAtMs < beforeMs))
  | .createTable .. | .removeSegments .. | .addTombstone .. | .forgetGarbage .. | .reserveSegmentIds .. | .createJob ..
  | .swapJob .. | .cancelJob .. | .revertTable .. | .truncateTable .. | .recordMigration .. => isTrue True.intro

instance (files : Files) (name : TableName) (s : Tracked) (e : Edit) : Decidable (s.Plain files name e) :=
  inferInstanceAs (Decidable (s.manifest.Provided e ∧ Ordinary files name s.manifest e))

/-- A column dropped and one of its name added, with a flush before the one and after the other, then
    both changes taken back. -/
def readdedRun : List Timed :=
  let t : TableName := ⟨"d", "t"⟩
  let s (id seq : Nat) (ids : List Nat) : SegmentEntry :=
    ⟨id, "_", seq, 1, 1, 0, [⟨1, 0, none, none⟩, ⟨1, 0, none, none⟩], [], "d/1", ids, []⟩
  [(⟨0, [.createTable (.new t [⟨"a", .bool⟩, ⟨"b", .bool⟩])]⟩, 0), (⟨1, [.addSegments t [s 7 2 [1, 2]]]⟩, 1),
    (⟨2, [.createJob t [.dropColumn "b"]]⟩, 2), (⟨3, [.advanceJob 1 [7] [] [], .swapJob 1]⟩, 3),
    (⟨4, [.createJob t [.addColumn ⟨"b", .bool⟩]]⟩, 4), (⟨5, [.advanceJob 2 [7] [] [], .swapJob 2]⟩, 5),
    (⟨6, [.addSegments t [s 8 7 [1, 3]]]⟩, 6), (⟨7, [.revertTable t]⟩, 7), (⟨8, [.revertTable t]⟩, 8)]

end Adelie
