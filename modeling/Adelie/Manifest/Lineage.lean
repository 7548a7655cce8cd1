import Adelie.Manifest.Coherent

namespace Adelie.Manifest

variable {m m' : Manifest} {new : List Nat}

/-- A job goes on with the table it migrates as long as that table's definition stays. -/
theorem JobFor.of_update {t u : TableEntry} {j : Job} (job : JobFor t j)
    (same : u = { t with segments := u.segments, tombstones := u.tombstones })
    (fewer : ∀ id ∈ j.target.segmentIds, id ∈ u.segmentIds → id ∈ t.segmentIds) : JobFor u j := by
  rw [same]
  refine ⟨job.source, job.name, job.types, job.fields, ?_⟩
  intro id held held'
  refine job.carried id held (fewer id held ?_)
  rw [same]
  exact held'

/-- Where a definition comes from. -/
inductive Origin (m : Manifest) (new : List Nat) (owner : TableName) (e : TableEntry) : Prop where
  | kept (inside : e ∈ m.entries)
  | made (schema : e.SchemaOk) (segments : e.segments = [])
  | revised {old : TableEntry} (inside : old ∈ m.entries) (name : e.name = old.name)
      (schema : e.schema = old.schema) (fields : old.nextFieldId ≤ e.nextFieldId)
      (segments : ∀ id ∈ e.segmentIds,
        (∃ d ∈ m.entries, d.name = e.name ∧ id ∈ d.segmentIds) ∨ id ∈ new ∧ e.name = owner)

namespace Move

theorem jobs_kept (c : Coherent m) (jobs : ∀ j ∈ m'.jobs, j ∈ m.jobs)
    (tables : ∀ j ∈ m'.jobs, ∀ t ∈ m.tables, t.id = j.source → t ∈ m'.tables) :
    ∀ j ∈ m'.jobs, ∃ t ∈ m'.tables, JobFor t j := by
  intro j running
  obtain ⟨t, live, job⟩ := c.jobs j (jobs j running)
  exact ⟨t, tables j running t live job.source, job⟩

theorem jobFor (move : Move m m' new) (c : Coherent m) (fresh : ∀ id ∈ new, ¬m.References id) :
    ∀ j ∈ m'.jobs, ∃ t ∈ m'.tables, JobFor t j := by
  cases move with
  | quiet tables jobs retired next => exact jobs_kept c (by simp [jobs]) (by simp +contextual [tables])
  | create entry id segments schema absent tables jobs retired next =>
    exact jobs_kept c (by simp [jobs]) (by simp +contextual [tables])
  | update spot t whole same segments tables jobs retired next =>
    intro j running
    rw [jobs] at running
    obtain ⟨u, live, job⟩ := c.jobs j running
    rw [whole, Located.mem_replaced] at live
    rw [tables]
    rcases live with rfl | live
    · refine ⟨t, by simp, job.of_update same ?_⟩
      intro id held held'
      refine (segments id held').resolve_right fun brought => ?_
      exact fresh id brought (references_of_entry (entries_of_job running) held)
    · exact ⟨u, Located.mem_replaced.mpr (.inr live), job⟩
  | plan spot job whole idle source id segments planned tables jobs retired next =>
    intro j running
    rw [jobs, List.mem_append, List.mem_singleton] at running
    rw [tables]
    rcases running with running | rfl
    · exact c.jobs j running
    · obtain ⟨target, ops, accepted, made⟩ := planned
      have live : spot.found ∈ m.tables := by simp [whole]
      have ok := c.schemas _ (entries_of_table live)
      have plan := planAlter_spec accepted ok
      refine ⟨spot.found, live, source.symm, ?_, ?_, ?_, ?_⟩
      · rw [made]; exact plan.name
      · rw [made]; exact plan.descends.typesAgree ok.ids
      · rw [made]; exact plan.descends.next_le
      · simp [TableEntry.segmentIds, segments]
  | carry spot source job whole live from_ same sameSource segments handled tables jobs retired next =>
    intro j running
    rw [jobs, Located.mem_replaced] at running
    rw [tables]
    rcases running with rfl | running
    · have before := c.jobFor (by simp [whole]) live from_
      refine ⟨source, live, from_.trans sameSource.symm, ?_, ?_, ?_, ?_⟩
      · rw [same]; exact before.name
      · rw [same]; exact before.types
      · rw [same]; exact before.fields
      · intro id held held'
        rcases segments id held with old | ⟨_, done⟩ | brought
        · exact handled id (before.carried id old held')
        · exact done
        · exact absurd (references_of_entry (entries_of_table live) held') (fresh id brought)
    · exact c.jobs j (by simp [whole, running])
  | cancel spot whole tables jobs retired next =>
    exact jobs_kept c (by simp +contextual [jobs, whole]) (by simp +contextual [tables])
  | swap job source t r wholeJobs wholeTables from_ same entry reason successors tables jobs retired next =>
    refine jobs_kept c (by simp +contextual [jobs, wholeJobs]) ?_
    intro j running u live source'
    rw [jobs] at running
    have other : u ≠ source.found := by
      rintro rfl
      have nodup := wholeJobs ▸ c.sources
      have apart := (List.nodup_cons.mp (((job.replaced_perm job.found).map _).nodup_iff.mp nodup)).1
      exact apart (List.mem_map.mpr ⟨j, running, source'.symm.trans from_⟩)
    rw [wholeTables, Located.mem_replaced] at live
    rw [tables, mem_insertByKey]
    exact .inr (live.resolve_left other)
  | revert r cur t old wholeRetired wholeTables reason named idle successors id name schema fields segments
      entry oldReason tables jobs retired next =>
    refine jobs_kept c (by simp [jobs]) ?_
    intro j running u live source
    have other : u ≠ cur.found := by
      rintro rfl
      exact idle j (jobs ▸ running) source.symm
    rw [wholeTables, Located.mem_replaced] at live
    rw [tables, mem_insertByKey]
    exact .inr (live.resolve_left other)
  | drop spot r whole idle entry reason tables jobs retired next =>
    refine jobs_kept c (by simp [jobs]) ?_
    intro j running u live source
    have other : u ≠ spot.found := by
      rintro rfl
      exact idle j (jobs ▸ running) source.symm
    rw [whole, Located.mem_replaced] at live
    rw [tables]
    exact live.resolve_left other
  | undrop r whole reason absent tables jobs retired next =>
    exact jobs_kept c (by simp [jobs]) (by simp +contextual [tables])

theorem sources (move : Move m m' new) (c : Coherent m) : (m'.jobs.map (·.source)).Nodup := by
  cases move with
  | plan spot job whole idle source id segments planned tables jobs retired next =>
    rw [jobs, List.map_append, List.map_singleton]
    refine List.nodup_append.mpr ⟨c.sources, List.nodup_singleton _, ?_⟩
    rintro id member id' same rfl
    obtain ⟨j, running, rfl⟩ := List.mem_map.mp member
    exact idle j running ((List.mem_singleton.mp same).trans source)
  | carry spot source job whole live from_ same sameSource segments handled tables jobs retired next =>
    have before := whole ▸ c.sources
    rw [jobs]
    simpa [Located.replaced, sameSource] using before
  | cancel spot whole tables jobs retired next =>
    rw [jobs]
    exact (whole ▸ c.sources).sublist ((spot.removed_sublist _).map _)
  | swap job source t r wholeJobs wholeTables from_ same entry reason successors tables jobs retired next =>
    rw [jobs]
    exact (wholeJobs ▸ c.sources).sublist ((job.removed_sublist _).map _)
  | quiet tables jobs retired next => exact jobs ▸ c.sources
  | create entry id segments schema absent tables jobs retired next => exact jobs ▸ c.sources
  | update spot t whole same segments tables jobs retired next => exact jobs ▸ c.sources
  | revert r cur t old wholeRetired wholeTables reason named idle successors id name schema fields segments
      entry oldReason tables jobs retired next => exact jobs ▸ c.sources
  | drop spot r whole idle entry reason tables jobs retired next => exact jobs ▸ c.sources
  | undrop r whole reason absent tables jobs retired next => exact jobs ▸ c.sources

/-- Every definition after a move is one of before, a new one without segments, or one of before
    with other segments: those of its namesakes, and new ones under one name only. -/
theorem origin (move : Move m m' new) (c : Coherent m) :
    ∃ owner, ∀ e ∈ m'.entries, Origin m new owner e := by
  cases move with
  | quiet tables jobs retired next =>
    refine ⟨⟨"", ""⟩, fun e inside => .kept ?_⟩
    rw [mem_entries, tables, jobs] at inside
    refine mem_entries.mpr (inside.imp_right (Or.imp_left ?_))
    rintro ⟨r, kept, same⟩
    exact ⟨r, retired.subset kept, same⟩
  | create entry id segments schema absent tables jobs retired next =>
    refine ⟨entry.name, fun e inside => ?_⟩
    rw [mem_entries, tables, jobs, retired, mem_insertByKey, or_assoc] at inside
    rcases inside with rfl | inside
    · exact .made schema segments
    · exact .kept (mem_entries.mpr inside)
  | update spot t whole same segments tables jobs retired next =>
    have live : spot.found ∈ m.entries := entries_of_table (by simp [whole])
    refine ⟨spot.found.name, fun e inside => ?_⟩
    rw [mem_entries, tables, jobs, retired, Located.mem_replaced, or_assoc] at inside
    rcases inside with rfl | inside
    · refine .revised live (by rw [same]) (by rw [same]) (by rw [same]) fun id held => ?_
      refine (segments id held).imp (fun old => ⟨spot.found, live, by rw [same], old⟩) fun brought => ?_
      exact ⟨brought, by rw [same]⟩
    · exact .kept (mem_entries.mpr (inside.imp_left (by simp +contextual [whole])))
  | plan spot job whole idle source id segments planned tables jobs retired next =>
    refine ⟨spot.found.name, fun e inside => ?_⟩
    rw [mem_entries, tables, jobs, retired] at inside
    rcases inside with live | kept | ⟨j, running, rfl⟩
    · exact .kept (entries_of_table live)
    · exact .kept (mem_entries.mpr (.inr (.inl kept)))
    · rcases List.mem_append.mp running with running | running
      · exact .kept (entries_of_job running)
      · obtain ⟨target, ops, accepted, made⟩ := planned
        have ok := (planAlter_spec accepted (c.schemas _ (entries_of_table (by simp [whole])))).schema
        rw [List.mem_singleton.mp running]
        exact .made (made ▸ ⟨ok.ids, ok.names_nodup, ok.next_pos⟩) segments
  | carry spot source job whole live from_ same sameSource segments handled tables jobs retired next =>
    have running : spot.found ∈ m.jobs := by simp [whole]
    refine ⟨source.name, fun e inside => ?_⟩
    rw [mem_entries, tables, jobs, retired] at inside
    rcases inside with live' | kept | ⟨j, running', rfl⟩
    · exact .kept (entries_of_table live')
    · exact .kept (mem_entries.mpr (.inr (.inl kept)))
    · rcases Located.mem_replaced.mp running' with rfl | running'
      · have name : j.target.name = source.name := by
          rw [same]
          exact (c.jobFor running live from_).name
        refine .revised (entries_of_job running) (by rw [same]) (by rw [same]) (by rw [same]) fun id held => ?_
        rcases segments id held with old | ⟨old, _⟩ | brought
        · exact .inl ⟨_, entries_of_job running, by rw [same], old⟩
        · exact .inl ⟨_, entries_of_table live, name.symm, old⟩
        · exact .inr ⟨brought, name⟩
      · exact .kept (entries_of_job (by simp [whole, running']))
  | cancel spot whole tables jobs retired next =>
    refine ⟨spot.found.target.name, fun e inside => .kept ?_⟩
    rw [mem_entries, tables, jobs, retired] at inside
    refine mem_entries.mpr (inside.imp_right (Or.imp_right ?_))
    rintro ⟨j, running, same⟩
    exact ⟨j, by simp [whole, running], same⟩
  | swap job source t r wholeJobs wholeTables from_ same entry reason successors tables jobs retired next =>
    have running : job.found ∈ m.jobs := by simp [wholeJobs]
    refine ⟨t.name, fun e inside => ?_⟩
    rw [mem_entries, tables, jobs, retired] at inside
    rcases inside with live | ⟨r', kept, rfl⟩ | ⟨j, running', rfl⟩
    · rcases mem_insertByKey.mp live with rfl | live
      · refine .revised (entries_of_job running) (by rw [same]) (by rw [same]) (by rw [same]) fun id held => ?_
        exact .inl ⟨_, entries_of_job running, by rw [same], by rw [same] at held; exact held⟩
      · exact .kept (entries_of_table (by simp [wholeTables, live]))
    · rcases List.mem_append.mp kept with kept | kept
      · exact .kept (entries_of_retired kept)
      · rw [List.mem_singleton.mp kept, entry]
        exact .kept (entries_of_table (by simp [wholeTables]))
    · exact .kept (entries_of_job (by simp [wholeJobs, running']))
  | revert r cur t old wholeRetired wholeTables reason named idle successors id name schema fields segments
      entry oldReason tables jobs retired next =>
    have live : cur.found ∈ m.tables := by simp [wholeTables]
    have kept : r.found ∈ m.retired := by simp [wholeRetired]
    refine ⟨t.name, fun e inside => ?_⟩
    rw [mem_entries, tables, jobs, retired] at inside
    rcases inside with live' | ⟨r', kept', rfl⟩ | ⟨j, running, rfl⟩
    · rcases mem_insertByKey.mp live' with rfl | live'
      · refine .revised (entries_of_retired kept) name schema fields fun id held => .inl ?_
        rcases segments id held with old' | old'
        · exact ⟨_, entries_of_retired kept, name.symm, old'⟩
        · exact ⟨_, entries_of_table live, (name.trans named).symm, old'⟩
      · exact .kept (entries_of_table (by simp [wholeTables, live']))
    · rcases List.mem_append.mp kept' with kept' | kept'
      · exact .kept (entries_of_retired (by simp [wholeRetired, kept']))
      · rw [List.mem_singleton.mp kept', entry]
        exact .kept (entries_of_table live)
    · exact .kept (entries_of_job running)
  | drop spot r whole idle entry reason tables jobs retired next =>
    refine ⟨r.entry.name, fun e inside => .kept ?_⟩
    rw [mem_entries, tables, jobs, retired] at inside
    rcases inside with live | ⟨r', kept, rfl⟩ | ⟨j, running, rfl⟩
    · exact entries_of_table (by simp [whole, live])
    · rcases List.mem_append.mp kept with kept | kept
      · exact entries_of_retired kept
      · rw [List.mem_singleton.mp kept, entry]
        exact entries_of_table (by simp [whole])
    · exact entries_of_job running
  | undrop r whole reason absent tables jobs retired next =>
    refine ⟨r.found.entry.name, fun e inside => .kept ?_⟩
    rw [mem_entries, tables, jobs, retired] at inside
    rcases inside with live | ⟨r', kept, rfl⟩ | ⟨j, running, rfl⟩
    · rcases mem_insertByKey.mp live with rfl | live
      · exact entries_of_retired (by simp [whole])
      · exact entries_of_table live
    · exact entries_of_retired (by simp [whole, kept])
    · exact entries_of_job running

theorem schemas (move : Move m m' new) (c : Coherent m) : ∀ e ∈ m'.entries, e.SchemaOk := by
  intro e inside
  obtain ⟨_, from_⟩ := move.origin c
  cases from_ e inside with
  | kept inside => exact c.schemas e inside
  | made schema _ => exact schema
  | revised inside name schema fields segments =>
    have ok := c.schemas _ inside
    refine ⟨⟨?_, ?_, ?_⟩, ?_, ok.next_pos.trans_le fields⟩ <;> rw [schema]
    · exact ok.ids.nodup
    · exact ok.ids.positive
    · exact fun f member => (ok.ids.below f member).trans_le fields
    · exact ok.names_nodup

/-- A segment of a definition was held under the same name before, or is new. -/
theorem Origin.holder {owner : TableName} {e : TableEntry} (from_ : Origin m new owner e) {id : Nat}
    (held : id ∈ e.segmentIds) :
    (∃ d ∈ m.entries, d.name = e.name ∧ id ∈ d.segmentIds) ∨ id ∈ new ∧ e.name = owner := by
  cases from_ with
  | kept inside => exact .inl ⟨e, inside, rfl, held⟩
  | made _ segments => simp [TableEntry.segmentIds, segments] at held
  | revised _ _ _ _ segments => exact segments id held

theorem names (move : Move m m' new) (c : Coherent m) (fresh : ∀ id ∈ new, ¬m.References id) :
    ∀ e₁ ∈ m'.entries, ∀ e₂ ∈ m'.entries, ∀ id ∈ e₁.segmentIds, id ∈ e₂.segmentIds → e₁.name = e₂.name := by
  intro e₁ inside₁ e₂ inside₂ id held₁ held₂
  obtain ⟨owner, from_⟩ := move.origin c
  rcases Origin.holder (from_ e₁ inside₁) held₁ with ⟨d₁, old₁, name₁, before₁⟩ | ⟨brought₁, name₁⟩ <;>
    rcases Origin.holder (from_ e₂ inside₂) held₂ with ⟨d₂, old₂, name₂, before₂⟩ | ⟨brought₂, name₂⟩
  · rw [← name₁, ← name₂]
    exact c.names d₁ old₁ d₂ old₂ id before₁ before₂
  · exact absurd (references_of_entry old₁ before₁) (fresh id brought₂)
  · exact absurd (references_of_entry old₂ before₂) (fresh id brought₁)
  · rw [name₁, name₂]

theorem apart (move : Move m m' new) (c : Coherent m) (fresh : ∀ id ∈ new, ¬m.References id) :
    ∀ e ∈ m'.current, ∀ r ∈ m'.retired, Apart e.segmentIds r := by
  have unshared : ∀ {e : TableEntry} {r : Retired}, r ∈ m.retired →
      (∀ id ∈ e.segmentIds, (∃ d ∈ m.current, id ∈ d.segmentIds) ∨ id ∈ new) → Apart e.segmentIds r := by
    intro e r kept covered id held held'
    rcases covered id held with ⟨d, inside, old⟩ | brought
    · exact c.apart d inside r kept id old held'
    · exact absurd (references_of_entry (entries_of_retired kept) held') (fresh id brought)
  intro e inside r kept
  rw [mem_current] at inside
  cases move with
  | quiet tables jobs retired next =>
    rw [tables, jobs] at inside
    exact c.apart e (mem_current.mpr inside) r (retired.subset kept)
  | create entry id segments schema absent tables jobs retired next =>
    rw [tables, jobs, mem_insertByKey, or_assoc] at inside
    rw [retired] at kept
    rcases inside with rfl | inside
    · simp [Apart, TableEntry.segmentIds, segments]
    · exact c.apart e (mem_current.mpr inside) r kept
  | update spot t whole same segments tables jobs retired next =>
    rw [tables, jobs, Located.mem_replaced, or_assoc] at inside
    rw [retired] at kept
    rcases inside with rfl | inside
    · refine unshared kept fun id held => (segments id held).imp_left fun old => ?_
      exact ⟨spot.found, mem_current.mpr (.inl (by simp [whole])), old⟩
    · exact c.apart e (mem_current.mpr (inside.imp_left (by simp +contextual [whole]))) r kept
  | plan spot job whole idle source id segments planned tables jobs retired next =>
    rw [tables, jobs] at inside
    rw [retired] at kept
    rcases inside with live | ⟨j, running, rfl⟩
    · exact c.apart e (mem_current.mpr (.inl live)) r kept
    · rcases List.mem_append.mp running with running | running
      · exact c.apart _ (mem_current.mpr (.inr ⟨j, running, rfl⟩)) r kept
      · rw [List.mem_singleton.mp running]
        simp [Apart, TableEntry.segmentIds, segments]
  | carry spot source job whole live from_ same sameSource segments handled tables jobs retired next =>
    rw [tables, jobs] at inside
    rw [retired] at kept
    rcases inside with live' | ⟨j, running, rfl⟩
    · exact c.apart e (mem_current.mpr (.inl live')) r kept
    · rcases Located.mem_replaced.mp running with rfl | running
      · refine unshared kept fun id held => ?_
        rcases segments id held with old | ⟨old, _⟩ | brought
        · exact .inl ⟨_, mem_current.mpr (.inr ⟨spot.found, by simp [whole], rfl⟩), old⟩
        · exact .inl ⟨source, mem_current.mpr (.inl live), old⟩
        · exact .inr brought
      · exact c.apart _ (mem_current.mpr (.inr ⟨j, by simp [whole, running], rfl⟩)) r kept
  | cancel spot whole tables jobs retired next =>
    rw [tables, jobs] at inside
    rw [retired] at kept
    refine c.apart e (mem_current.mpr (inside.imp_right ?_)) r kept
    rintro ⟨j, running, same⟩
    exact ⟨j, by simp [whole, running], same⟩
  | swap job source t r' wholeJobs wholeTables from_ same entry reason successors tables jobs retired next =>
    have held_before : ∀ id ∈ t.segmentIds, id ∈ job.found.target.segmentIds := by
      intro id held
      rw [same] at held
      exact held
    have running : job.found ∈ m.jobs := by simp [wholeJobs]
    have live : source.found ∈ m.tables := by simp [wholeTables]
    rw [tables, jobs] at inside
    rw [retired, List.mem_append, List.mem_singleton] at kept
    rcases kept with kept | rfl
    · rcases inside with live' | ⟨j, running', rfl⟩
      · rcases mem_insertByKey.mp live' with rfl | live'
        · refine unshared kept fun id held => .inl ?_
          exact ⟨_, mem_current.mpr (.inr ⟨job.found, running, rfl⟩), held_before id held⟩
        · exact c.apart e (mem_current.mpr (.inl (by simp [wholeTables, live']))) r kept
      · exact c.apart _ (mem_current.mpr (.inr ⟨j, by simp [wholeJobs, running'], rfl⟩)) r kept
    · -- nothing but the target shares a segment with the table it replaces
      intro id held held'
      rw [entry] at held'
      rcases inside with live' | ⟨j, running', rfl⟩
      · rcases mem_insertByKey.mp live' with rfl | live'
        · exact .inr ⟨reason, (successors id).mpr (held_before id held)⟩
        · have other : e.name ≠ source.found.name :=
            Located.key_ne_of_sorted (wholeTables ▸ c.sorted) e live'
          have inside : e ∈ m.entries := entries_of_table (by simp [wholeTables, live'])
          exact absurd (c.names e inside _ (entries_of_table live) id held held') other
      · have running'' : j ∈ m.jobs := by simp [wholeJobs, running']
        have source' := (c.source_of_shared running'' live held held').trans from_
        have nodup := wholeJobs ▸ c.sources
        have apart := (List.nodup_cons.mp (((job.replaced_perm job.found).map _).nodup_iff.mp nodup)).1
        exact absurd (List.mem_map.mpr ⟨j, running', source'⟩) apart
  | revert r' cur t old wholeRetired wholeTables reason named idle successors id name schema fields segments
      entry oldReason tables jobs retired next =>
    have live : cur.found ∈ m.tables := by simp [wholeTables]
    rw [tables, jobs] at inside
    rw [retired, List.mem_append, List.mem_singleton] at kept
    rcases kept with kept | rfl
    · have kept' : r ∈ m.retired := by simp [wholeRetired, kept]
      rcases inside with live' | ⟨j, running, rfl⟩
      · rcases mem_insertByKey.mp live' with rfl | live'
        · intro id held held'
          have current : ∀ id ∈ cur.found.segmentIds, id ∈ r.entry.segmentIds → _ :=
            c.apart _ (mem_current.mpr (.inl live)) r kept'
          rcases segments id held with restored | since
          · have order := wholeRetired ▸ c.past
            obtain ⟨_, rest, across⟩ := List.pairwise_append.mp order
            rcases List.mem_append.mp kept with earlier | later
            · exact across r earlier r'.found (.head _) (by simp [reason]) id restored held'
            · -- a later entry in use shares only what the swap carried over, and that is live
              by_cases gone : r.reason = .reverted
              · exact .inl gone
              · have shared := (List.pairwise_cons.mp rest).1 r later gone id held' restored
                have carried : id ∈ r'.found.successorSegments := by
                  rcases shared with bad | shared
                  · rw [reason] at bad; cases bad
                  · exact shared.2
                exact current id (successors id carried) held'
          · exact current id since held'
        · exact c.apart e (mem_current.mpr (.inl (by simp [wholeTables, live']))) r kept'
      · exact c.apart _ (mem_current.mpr (.inr ⟨j, running, rfl⟩)) r kept'
    · exact fun _ _ _ => .inl oldReason
  | drop spot r' whole idle entry reason tables jobs retired next =>
    have live : spot.found ∈ m.tables := by simp [whole]
    rw [tables, jobs] at inside
    rw [retired, List.mem_append, List.mem_singleton] at kept
    rcases kept with kept | rfl
    · exact c.apart e (mem_current.mpr (inside.imp_left (by simp +contextual [whole]))) r kept
    · intro id held held'
      rw [entry] at held'
      rcases inside with live' | ⟨j, running, rfl⟩
      · have other : e.name ≠ spot.found.name := Located.key_ne_of_sorted (whole ▸ c.sorted) e live'
        have inside : e ∈ m.entries := entries_of_table (by simp [whole, live'])
        exact absurd (c.names e inside _ (entries_of_table live) id held held') other
      · exact absurd (c.source_of_shared running live held held') (idle j running)
  | undrop r' whole reason absent tables jobs retired next =>
    rw [tables, jobs, mem_insertByKey, or_assoc] at inside
    rw [retired] at kept
    have kept' : r ∈ m.retired := by simp [whole, kept]
    rcases inside with rfl | inside
    · intro id held held'
      have order := whole ▸ c.past
      obtain ⟨_, rest, across⟩ := List.pairwise_append.mp order
      rcases List.mem_append.mp kept with earlier | later
      · exact across r earlier r'.found (.head _) (by simp [reason]) id held held'
      · by_cases gone : r.reason = .reverted
        · exact .inl gone
        · have shared := (List.pairwise_cons.mp rest).1 r later gone id held' held
          simp [reason] at shared
    · exact c.apart e (mem_current.mpr inside) r kept'

theorem past (move : Move m m' new) (c : Coherent m) :
    m'.retired.Pairwise fun a b => b.reason ≠ .reverted → Apart b.entry.segmentIds a := by
  have pushed : ∀ {e : TableEntry} {r : Retired}, e ∈ m.current → r.entry = e →
      (m.retired ++ [r]).Pairwise fun a b => b.reason ≠ .reverted → Apart b.entry.segmentIds a := by
    rintro _ r inside rfl
    refine List.pairwise_append.mpr ⟨c.past, List.pairwise_singleton _ _, ?_⟩
    intro a kept b last _
    rw [List.mem_singleton.mp last]
    exact c.apart _ inside a kept
  cases move with
  | quiet tables jobs retired next => exact c.past.sublist retired
  | create entry id segments schema absent tables jobs retired next => exact retired ▸ c.past
  | update spot t whole same segments tables jobs retired next => exact retired ▸ c.past
  | plan spot job whole idle source id segments planned tables jobs retired next => exact retired ▸ c.past
  | carry spot source job whole live from_ same sameSource segments handled tables jobs retired next =>
    exact retired ▸ c.past
  | cancel spot whole tables jobs retired next => exact retired ▸ c.past
  | swap job source t r wholeJobs wholeTables from_ same entry reason successors tables jobs retired next =>
    rw [retired]
    exact pushed (mem_current.mpr (.inl (by simp [wholeTables]))) entry
  | revert r cur t old wholeRetired wholeTables reason named idle successors id name schema fields segments
      entry oldReason tables jobs retired next =>
    rw [retired]
    refine List.pairwise_append.mpr ⟨?_, List.pairwise_singleton _ _, ?_⟩
    · exact (wholeRetired ▸ c.past).sublist (r.removed_sublist _)
    · intro a _ b last kept
      rw [List.mem_singleton.mp last] at kept
      exact absurd oldReason kept
  | drop spot r whole idle entry reason tables jobs retired next =>
    rw [retired]
    exact pushed (mem_current.mpr (.inl (by simp [whole]))) entry
  | undrop r whole reason absent tables jobs retired next =>
    rw [retired]
    exact (whole ▸ c.past).sublist (r.removed_sublist _)

theorem coherent (move : Move m m' new) (fresh : ∀ id ∈ new, ¬m.References id) (c : Coherent m) : Coherent m' :=
  ⟨move.sorted c, (move.ids c).1, (move.ids c).2, move.jobFor c fresh, move.sources c, move.schemas c,
    move.names c fresh, move.apart c fresh, move.past c⟩

end Move

/-- Fresh segment ids keep a manifest coherent. -/
theorem applyEdit_coherent {version nowMs : Nat} {e : Edit} (fresh : m.Fresh e) (c : Coherent m)
    (applied : applyEdit version nowMs m e = .ok m') : Coherent m' :=
  (applyEdit_move applied).coherent (fun id brought => not_references_iff.mp (fresh id brought).1) c

end Adelie.Manifest
