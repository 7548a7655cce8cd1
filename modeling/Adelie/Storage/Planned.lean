import Adelie.Lib.Select
import Adelie.Storage.Compact

namespace Adelie

/-- A tombstone has all of the segments on one side. -/
def Unstraddled (tombstones : List Tombstone) (inputs : List SegmentEntry) : Prop :=
  ∀ x ∈ tombstones, (∀ s ∈ inputs, x.seq ≤ s.seq) ∨ ∀ s ∈ inputs, s.seq < x.seq

/-- The live segments a plan names. -/
def PlanInputs (t : TableEntry) (plan : MergePlan) (inputs : List SegmentEntry) : Prop :=
  List.Forall₂ (fun id s => t.segments.find? (·.id == id) = some s ∧ s.partition = plan.partition) plan.inputs inputs

section Validate

variable {t : TableEntry} {plan : MergePlan}

theorem mergeInput_eq_ok {id : Nat} {s : SegmentEntry} : mergeInput t plan id = .ok s ↔
    t.segments.find? (·.id == id) = some s ∧ s.partition = plan.partition := by
  unfold mergeInput
  cases t.segments.find? (·.id == id) with
  | none => simp
  | some s' =>
    simp only [Except.bind_eq_ok, ensure_eq_ok, decide_eq_true_eq, Option.some.injEq]
    constructor
    · rintro ⟨_, same, made⟩
      cases made
      exact ⟨rfl, same⟩
    · rintro ⟨rfl, same⟩
      exact ⟨(), same, rfl⟩

theorem mergeInputs_eq_ok {inputs : List SegmentEntry} :
    plan.inputs.mapM (mergeInput t plan) = .ok inputs ↔ PlanInputs t plan inputs := by
  constructor
  · exact fun mapped => (forall₂_of_mapM_except mapped).imp fun _ _ => mergeInput_eq_ok.mp
  · exact fun each => mapM_except_of_forall₂ (each.imp fun _ _ => mergeInput_eq_ok.mpr)

theorem PlanInputs.unique {inputs inputs' : List SegmentEntry} (a : PlanInputs t plan inputs)
    (b : PlanInputs t plan inputs') : inputs = inputs' := by
  have := (mergeInputs_eq_ok.mpr a).symm.trans (mergeInputs_eq_ok.mpr b)
  exact Except.ok.inj this

theorem unstraddled_iff {tombstones : List Tombstone} {inputs : List SegmentEntry} (some_ : inputs ≠ []) :
    Unstraddled tombstones inputs ↔ ∀ x ∈ tombstones,
      x.seq ≤ (inputs.map (·.seq)).min?.getD (2 ^ 64 - 1) ∨ (inputs.map (·.seq)).max?.getD 0 < x.seq := by
  have nonempty : inputs.map (·.seq) ≠ [] := by simpa using some_
  obtain ⟨least, atLeast⟩ := Option.ne_none_iff_exists'.mp (mt List.min?_eq_none_iff.mp nonempty)
  obtain ⟨most, atMost⟩ := Option.ne_none_iff_exists'.mp (mt List.max?_eq_none_iff.mp nonempty)
  obtain ⟨reached, lower⟩ := List.min?_eq_some_iff.mp atLeast
  obtain ⟨reached', upper⟩ := List.max?_eq_some_iff.mp atMost
  obtain ⟨a, insideA, rfl⟩ := List.mem_map.mp reached
  obtain ⟨b, insideB, rfl⟩ := List.mem_map.mp reached'
  rw [atLeast, atMost, Option.getD_some, Option.getD_some]
  refine forall₂_congr fun x _ => ⟨?_, ?_⟩
  · rintro (below | above)
    · exact .inl (below a insideA)
    · exact .inr (above b insideB)
  · rintro (low | high)
    · left
      intro s member
      have := lower s.seq (List.mem_map_of_mem member)
      omega
    · right
      intro s member
      have := upper s.seq (List.mem_map_of_mem member)
      omega

/-- What `validateMerge` accepts. -/
theorem validateMerge_eq_ok : validateMerge t plan = .ok () ↔
    plan.inputs ≠ [] ∧ ∃ inputs, PlanInputs t plan inputs ∧ Unstraddled t.tombstones inputs := by
  unfold validateMerge
  have nonempty {inputs : List SegmentEntry} (each : PlanInputs t plan inputs) (some_ : plan.inputs ≠ []) :
      inputs ≠ [] := by
    rintro rfl
    exact some_ (List.forall₂_nil_right_iff.mp each)
  simp only [Except.bind_eq_ok, ensure_eq_ok, mergeInputs_eq_ok, forM_eq_ok]
  constructor
  · rintro ⟨_, some_, inputs, each, outside⟩
    have some_ : plan.inputs ≠ [] := by simpa using some_
    refine ⟨some_, inputs, each, (unstraddled_iff (nonempty each some_)).mpr ?_⟩
    intro x member
    simpa using outside x member
  · rintro ⟨some_, inputs, each, outside⟩
    refine ⟨(), by simpa using some_, inputs, each, ?_⟩
    intro x member
    simpa using (unstraddled_iff (nonempty each some_)).mp outside x member

end Validate

/-- The partition has a segment, none too big at either end and no two of them in a row: no run
    is ever closed empty. -/
def Spaced (opts : StoreOptions) (segments : List SegmentEntry) : Prop :=
  (true :: segments.map (tooBig opts) ++ [true]).IsChain fun a b => (a && b) = false

instance (opts : StoreOptions) (segments : List SegmentEntry) : Decidable (Spaced opts segments) :=
  inferInstanceAs (Decidable (List.IsChain _ _))

section Walk

variable {t : TableEntry} {partition : String} {opts : StoreOptions}

/-- A run of segments of the partition, its least seq known, that no tombstone straddles. -/
structure OpenRun (t : TableEntry) (partition : String) (st : RunState) (segments : List SegmentEntry) : Prop where
  ids : st.run = segments.map (·.id)
  live : ∀ s ∈ segments, s ∈ t.segments ∧ s.partition = partition
  least : ∀ s ∈ segments, st.runMinSeq ≤ s.seq
  sides : ∀ x ∈ t.tombstones, x.seq ≤ st.runMinSeq ∨ ∀ s ∈ segments, s.seq < x.seq

theorem OpenRun.accepted {st : RunState} {segments : List SegmentEntry} (nodup : t.segmentIds.Nodup)
    (run : OpenRun t partition st segments) (some_ : st.run ≠ []) :
    validateMerge t ⟨partition, st.run⟩ = .ok () := by
  refine validateMerge_eq_ok.mpr ⟨some_, segments, ?_, ?_⟩
  · unfold PlanInputs
    rw [run.ids, List.forall₂_map_left_iff, List.forall₂_same]
    intro s member
    obtain ⟨live, same⟩ := run.live s member
    exact ⟨find?_key nodup live, same⟩
  · intro x member
    rcases run.sides x member with below | above
    · exact .inl fun s inside => below.trans (run.least s inside)
    · exact .inr above

/-- What the walk keeps: every plan and the open run name segments already passed, each once, and
    every plan that names any is accepted. -/
structure Walked (t : TableEntry) (partition : String) (done : List SegmentEntry) (st : RunState) : Prop where
  passed : (st.plans.flatMap (·.inputs) ++ st.run).Sublist (done.map (·.id))
  accepted : ∀ plan ∈ st.plans, plan.inputs ≠ [] → validateMerge t plan = .ok ()
  run : ∃ segments, OpenRun t partition st segments ∧ ∀ s ∈ segments, s ∈ done

@[simp] theorem closeRun_run (partition : String) (minInputs : Nat) (st : RunState) :
    (closeRun partition minInputs st).run = [] := by
  unfold closeRun
  split <;> rfl

theorem closeRun_walked {done : List SegmentEntry} {st : RunState} (nodup : t.segmentIds.Nodup) (minInputs : Nat)
    (walked : Walked t partition done st) : Walked t partition done (closeRun partition minInputs st) := by
  obtain ⟨segments, run, _⟩ := walked.run
  have closed (st' : RunState) (empty : st'.run = []) :
      ∃ segments, OpenRun t partition st' segments ∧ ∀ s ∈ segments, s ∈ done := by
    refine ⟨[], ⟨empty, ?_, ?_, ?_⟩, ?_⟩ <;> simp
  unfold closeRun
  split
  · refine ⟨?_, ?_, closed _ rfl⟩
    · simpa using walked.passed
    · intro plan member some_
      rcases List.mem_append.mp member with member | member
      · exact walked.accepted plan member some_
      · rw [List.mem_singleton.mp member] at some_ ⊢
        exact run.accepted nodup some_
  · refine ⟨?_, walked.accepted, closed _ rfl⟩
    rw [List.append_nil]
    exact (List.sublist_append_left _ _).trans walked.passed

/-- A segment joins a run that no tombstone separates it from. -/
theorem walked_push {done : List SegmentEntry} {st : RunState} {s : SegmentEntry}
    (live : s ∈ t.segments) (same : s.partition = partition) (order : ∀ s' ∈ done, s'.seq ≤ s.seq)
    (walked : Walked t partition done st)
    (joins : st.run ≠ [] → ∀ x ∈ t.tombstones, ¬(st.runMinSeq < x.seq ∧ x.seq ≤ s.seq)) :
    Walked t partition (done ++ [s])
      { st with runMinSeq := if st.run.isEmpty then s.seq else st.runMinSeq, run := st.run ++ [s.id] } := by
  obtain ⟨segments, run, within⟩ := walked.run
  refine ⟨?_, walked.accepted, segments ++ [s], ⟨by simp [run.ids], ?_, ?_, ?_⟩, ?_⟩
  · rw [← List.append_assoc, List.map_append]
    exact walked.passed.append_right _
  · intro s' member
    rcases List.mem_append.mp member with member | member
    · exact run.live s' member
    · rw [List.mem_singleton.mp member]
      exact ⟨live, same⟩
  all_goals
    by_cases empty : st.run = []
  · have none_ : segments = [] := by simpa [run.ids] using empty
    simp [none_, empty]
  · have some_ : segments ≠ [] := by simpa [run.ids] using empty
    obtain ⟨first, member⟩ := List.exists_mem_of_ne_nil _ some_
    have lower := (run.least first member).trans (order first (within first member))
    simp only [List.isEmpty_iff, empty, if_false, List.mem_append, List.mem_singleton]
    rintro s' (inside | rfl)
    · exact run.least s' inside
    · exact lower
  · have none_ : segments = [] := by simpa [run.ids] using empty
    simp only [none_, empty, List.isEmpty_nil, if_true, List.nil_append, List.mem_singleton, forall_eq]
    intro x _
    omega
  · simp only [List.isEmpty_iff, empty, if_false, List.mem_append, List.mem_singleton]
    intro x member
    by_cases low : x.seq ≤ st.runMinSeq
    · exact .inl low
    · have apart := joins empty x member
      refine .inr ?_
      rintro s' (inside | rfl)
      · exact (run.sides x member).resolve_left low s' inside
      · omega
  all_goals
    intro s' member
    rcases List.mem_append.mp member with member | member
    · exact List.mem_append_left _ (within s' member)
    · exact List.mem_append_right _ member

theorem planStep_walked {done : List SegmentEntry} {st : RunState} {s : SegmentEntry} (nodup : t.segmentIds.Nodup)
    (live : s ∈ t.segments) (same : s.partition = partition) (order : ∀ s' ∈ done, s'.seq ≤ s.seq)
    (walked : Walked t partition done st) : Walked t partition (done ++ [s]) (planStep t partition opts st s) := by
  have closed := closeRun_walked nodup opts.compactMinInputs walked
  have skipped {st' : RunState} (walked : Walked t partition done st') : Walked t partition (done ++ [s]) st' := by
    obtain ⟨segments, run, within⟩ := walked.run
    refine ⟨walked.passed.trans (by simp), walked.accepted, segments, run, ?_⟩
    exact fun s' member => List.mem_append_left _ (within s' member)
  unfold planStep
  dsimp only
  by_cases big : tooBig opts s = true
  · simp only [big, Bool.true_or, if_true]
    exact skipped closed
  · simp only [big, Bool.false_or, Bool.false_eq_true, if_false]
    split
    · exact walked_push live same order closed fun some_ => absurd (closeRun_run _ _ _) some_
    · rename_i stays
      refine walked_push live same order walked fun some_ x member inside => stays ?_
      simp only [Bool.or_eq_true, Bool.and_eq_true, List.any_eq_true, Bool.not_eq_true', List.isEmpty_eq_false_iff]
      exact .inl ⟨some_, x, member, by simpa using inside⟩

/-- Every plan names segments of the partition, no segment twice, and is accepted unless empty. -/
theorem planPartition_walked (arranged : t.Arranged) (partition : String) (opts : StoreOptions) :
    ((planPartition t partition opts).flatMap (·.inputs)).Sublist
      ((t.segments.filter (·.partition == partition)).map (·.id)) ∧
    ∀ plan ∈ planPartition t partition opts, plan.inputs ≠ [] → validateMerge t plan = .ok () := by
  have start : Walked t partition [] ⟨[], [], 0⟩ :=
    ⟨by simp, by simp, [], ⟨rfl, by simp, by simp, by simp⟩, by simp⟩
  have walked : Walked t partition (t.segments.filter (·.partition == partition)) _ :=
    foldl_prefix_invariant (planStep t partition opts) (Walked t partition) ?_ start
  · have closed := closeRun_walked arranged.nodup opts.compactMinInputs walked
    refine ⟨?_, closed.accepted⟩
    have passed := closed.passed
    rw [closeRun_run, List.append_nil] at passed
    exact passed
  · intro done s rest st whole walked
    have inside : s ∈ t.segments.filter (·.partition == partition) := by simp [whole]
    obtain ⟨live, same⟩ := List.mem_filter.mp inside
    refine planStep_walked arranged.nodup live (by simpa using same) ?_ walked
    have sorted := arranged.sorted.sublist (List.filter_sublist (p := (·.partition == partition)))
    rw [whole, List.pairwise_append] at sorted
    intro s' before
    exact Prod.Lex.monotone_fst _ _ (sorted.2.2 s' before s (.head _))

/-- Whether an empty run was closed, and whether the run is empty now, by the sizes passed. -/
structure Gaps (opts : StoreOptions) (done : List SegmentEntry) (st : RunState) : Prop where
  plans : (∀ plan ∈ st.plans, plan.inputs ≠ []) ↔
    1 ≤ opts.compactMinInputs ∨ (true :: done.map (tooBig opts)).IsChain fun a b => (a && b) = false
  run : st.run = [] ↔ (true :: done.map (tooBig opts)).getLast? = some true

theorem isChain_concat_true {l : List Bool} : (l ++ [true]).IsChain (fun a b => (a && b) = false) ↔
    l.IsChain (fun a b => (a && b) = false) ∧ l.getLast? ≠ some true := by
  rw [List.isChain_append]
  simp only [List.isChain_singleton, List.head?_cons, Option.mem_def, Option.some.injEq, forall_eq', Bool.and_true,
    true_and]
  cases l.getLast? <;> simp

theorem isChain_concat_false {l : List Bool} : (l ++ [false]).IsChain (fun a b => (a && b) = false) ↔
    l.IsChain (fun a b => (a && b) = false) := by
  rw [List.isChain_append]
  simp

theorem closeRun_plans {st : RunState} {done : List SegmentEntry} (gaps : Gaps opts done st) :
    (∀ plan ∈ (closeRun partition opts.compactMinInputs st).plans, plan.inputs ≠ []) ↔
      1 ≤ opts.compactMinInputs ∨
        (true :: done.map (tooBig opts) ++ [true]).IsChain fun a b => (a && b) = false := by
  rw [isChain_concat_true, and_comm, or_and_left, ← gaps.plans, ne_eq, ← gaps.run]
  unfold closeRun
  split
  · rename_i enough
    simp only [List.mem_append, List.mem_singleton, or_imp, forall_and, forall_eq]
    constructor
    · rintro ⟨old, some_⟩
      exact ⟨.inr some_, old⟩
    · rintro ⟨positive | some_, old⟩
      · exact ⟨old, List.length_pos_iff.mp (by omega)⟩
      · exact ⟨old, some_⟩
  · rename_i few
    exact ⟨fun old => ⟨.inl (by omega), old⟩, fun ⟨_, old⟩ => old⟩

theorem planStep_gaps {st : RunState} {done : List SegmentEntry} (s : SegmentEntry) (gaps : Gaps opts done st) :
    Gaps opts (done ++ [s]) (planStep t partition opts st s) := by
  have flags : true :: (done ++ [s]).map (tooBig opts) = (true :: done.map (tooBig opts)) ++ [tooBig opts s] := by
    simp
  have last : (true :: (done ++ [s]).map (tooBig opts)).getLast? = some (tooBig opts s) := by
    rw [flags, List.getLast?_concat]
  unfold planStep
  dsimp only
  by_cases big : tooBig opts s = true
  · simp only [big, Bool.true_or, if_true]
    refine ⟨?_, ?_⟩
    · rw [flags, big]
      exact closeRun_plans gaps
    · rw [last, big]
      simp
  · have small : tooBig opts s = false := by simpa using big
    simp only [small, Bool.false_or, Bool.false_eq_true, if_false]
    refine ⟨?_, ?_⟩
    · rw [flags, small, isChain_concat_false, ← gaps.plans]
      split
      · -- only a run that holds something is closed before a small segment
        rename_i closes
        have some_ : st.run ≠ [] := by
          intro empty
          simp [empty, maxInputs] at closes
        unfold closeRun
        split
        · simp only [List.mem_append, List.mem_singleton, or_imp, forall_and, forall_eq]
          exact and_iff_left some_
        · exact Iff.rfl
      · exact Iff.rfl
    · rw [last, small]
      simp

theorem planPartition_nonempty_iff (t : TableEntry) (partition : String) (opts : StoreOptions) :
    (∀ plan ∈ planPartition t partition opts, plan.inputs ≠ []) ↔
      1 ≤ opts.compactMinInputs ∨ Spaced opts (t.segments.filter (·.partition == partition)) := by
  have start : Gaps opts [] ⟨[], [], 0⟩ := ⟨by simp, by simp⟩
  have walked : Gaps opts (t.segments.filter (·.partition == partition)) _ :=
    foldl_prefix_invariant (planStep t partition opts) (Gaps opts) (fun done s _ st _ => planStep_gaps s) start
  exact closeRun_plans walked

/-- Every plan is accepted, and no two name a segment in common. -/
def ProposalsOk (t : TableEntry) (partition : String) (opts : StoreOptions) : Prop :=
  (∀ plan ∈ planPartition t partition opts, validateMerge t plan = .ok ()) ∧
  (planPartition t partition opts).Pairwise fun a b => a.inputs.Disjoint b.inputs

theorem proposalsOk_iff (arranged : t.Arranged) (partition : String) (opts : StoreOptions) :
    ProposalsOk t partition opts ↔
      1 ≤ opts.compactMinInputs ∨ Spaced opts (t.segments.filter (·.partition == partition)) := by
  obtain ⟨passed, accepted⟩ := planPartition_walked arranged partition opts
  have nodup : ((planPartition t partition opts).flatMap (·.inputs)).Nodup :=
    (arranged.nodup.sublist (List.filter_sublist.map _)).sublist passed
  rw [← planPartition_nonempty_iff t partition opts]
  constructor
  · rintro ⟨all, _⟩ plan member
    exact (validateMerge_eq_ok.mp (all plan member)).1
  · intro some_
    exact ⟨fun plan member => accepted plan member (some_ plan member), (List.nodup_flatMap.mp nodup).2⟩

theorem distinctPartitions_nodup (segments : List SegmentEntry) : (distinctPartitions segments).Nodup := by
  refine foldl_prefix_invariant _ (fun _ (seen : List String) => seen.Nodup) ?_ .nil
  intro _ s _ seen _ once
  split
  · exact once
  · rename_i new
    have absent : s.partition ∉ seen := by simpa using new
    exact List.nodup_append.mpr ⟨once, by simp, fun p old q last => by
      rw [List.mem_singleton.mp last]
      exact fun same => absent (same ▸ old)⟩

/-- Over all its partitions, a table's plans name no segment twice. -/
theorem planMerge_nodup (arranged : t.Arranged) (opts : StoreOptions) :
    ((planMerge t opts).flatMap (·.inputs)).Nodup := by
  unfold planMerge
  rw [List.flatMap_assoc, List.nodup_flatMap]
  have passed (partition : String) := (planPartition_walked arranged partition opts).1
  refine ⟨fun partition _ => (arranged.nodup.sublist (List.filter_sublist.map _)).sublist (passed partition), ?_⟩
  refine (distinctPartitions_nodup t.segments).imp fun {p q} apart id inP inQ => apart ?_
  obtain ⟨a, memberA, rfl⟩ := List.mem_map.mp ((passed p).subset inP)
  obtain ⟨b, memberB, same⟩ := List.mem_map.mp ((passed q).subset inQ)
  obtain ⟨liveA, isP⟩ := List.mem_filter.mp memberA
  obtain ⟨liveB, isQ⟩ := List.mem_filter.mp memberB
  rw [List.inj_on_of_nodup_map arranged.nodup liveB liveA same] at isQ
  exact (beq_iff_eq.mp isP).symm.trans (beq_iff_eq.mp isQ)

end Walk

end Adelie
