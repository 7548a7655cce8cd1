import Adelie.Storage.Compaction

namespace Adelie

/-- Segments that a writer drew the ids of, one after another. -/
structure Drawn (first : Nat) (partition : String) (lo hi : Nat) (made : List SegmentEntry) : Prop where
  le : lo ≤ hi
  ids : ∀ s ∈ made, first + lo ≤ s.id ∧ s.id < first + hi
  rising : made.Pairwise (·.id < ·.id)
  partition : ∀ s ∈ made, s.partition = partition

section Outputs

variable {first : Nat} {encode : SegmentFile → Except StorageError Footer} {t : TableEntry}
  {partition : String} {seq maxRows : Nat} {st st' : MergeState}

theorem add_injective (first : Nat) : (first + ·).Injective := fun _ _ same => Nat.add_left_cancel same

theorem writeOutput_drawn {output : List Batch}
    (wrote : writeOutput (first + ·) encode t partition seq st output = .ok st') :
    ∃ s, st'.adds = st.adds ++ [s] ∧ s.id = first + st.drawn ∧ s.partition = partition ∧ st'.drawn = st.drawn + 1 := by
  unfold writeOutput at wrote
  split at wrote
  · obtain ⟨footer, _, made⟩ := Except.bind_eq_ok.mp wrote
    cases made
    exact ⟨_, rfl, rfl, rfl, rfl⟩
  · cases wrote

theorem writeOutputs_drawn {outputs : List (List Batch)}
    (wrote : outputs.foldlM (writeOutput (first + ·) encode t partition seq) st = .ok st') :
    ∃ made, st'.adds = st.adds ++ made ∧ Drawn first partition st.drawn st'.drawn made := by
  induction outputs generalizing st with
  | nil =>
    cases wrote
    exact ⟨[], by simp, Nat.le_refl _, by simp, .nil, by simp⟩
  | cons output rest ih =>
    rw [List.foldlM_cons] at wrote
    obtain ⟨mid, head, tail⟩ := Except.bind_eq_ok.mp wrote
    obtain ⟨s, adds, id, own, drawn⟩ := writeOutput_drawn head
    obtain ⟨made, adds', le, ids, rising, others⟩ := ih tail
    refine ⟨s :: made, by simp [adds', adds], by omega, ?_, ?_, ?_⟩
    · intro o member
      rcases List.mem_cons.mp member with rfl | member
      · omega
      · have := ids o member
        omega
    · refine List.pairwise_cons.mpr ⟨?_, rising⟩
      intro o member
      have := ids o member
      omega
    · exact List.forall_mem_cons.mpr ⟨own, others⟩

theorem Drawn.append {lo mid hi : Nat} {made made' : List SegmentEntry} (before : Drawn first partition lo mid made)
    (after : Drawn first partition mid hi made') : Drawn first partition lo hi (made ++ made') := by
  have le := before.le
  have le' := after.le
  refine ⟨by omega, ?_, ?_, List.forall_mem_append.mpr ⟨before.partition, after.partition⟩⟩
  · intro s member
    rcases List.mem_append.mp member with member | member
    · have := before.ids s member
      omega
    · have := after.ids s member
      omega
  · refine List.pairwise_append.mpr ⟨before.rising, after.rising, ?_⟩
    intro a left b right
    have := before.ids a left
    have := after.ids b right
    omega

/-- Without an ORDER BY a merge gives the rows back in the order of its inputs. -/
theorem merge_flatten (plain : t.orderBy = []) (inputs : List (List Batch)) :
    (merge t inputs maxRows).flatten.flatten = inputs.flatten.flatten := by
  unfold merge
  rw [if_pos (by simpa using plain), splitIntoSegments_flatten]

theorem eq_of_ids {a b : List SegmentEntry} (nodup : t.segmentIds.Nodup) (live : ∀ s ∈ a, s ∈ t.segments)
    (live' : ∀ s ∈ b, s ∈ t.segments) (same : a.map (·.id) = b.map (·.id)) : a = b := by
  induction a generalizing b with
  | nil => exact (List.map_eq_nil_iff.mp same.symm).symm
  | cons s rest ih =>
    cases b with
    | nil => cases same
    | cons s' rest' =>
      rw [List.forall_mem_cons] at live live'
      obtain ⟨heads, tails⟩ := List.cons.inj same
      rw [List.inj_on_of_nodup_map nodup live.1 live'.1 heads, ih live.2 live'.2 tails]

/-- One plan over the segments it names: the outputs have their rows, in order, under their greatest seq. -/
theorem mergePlan_in_place {plan : MergePlan} {inputs : List SegmentEntry} (ok : t.SchemaOk) (nonempty : t.schema ≠ [])
    (plain : t.orderBy = []) (nodup : t.segmentIds.Nodup) (live : ∀ s ∈ inputs, s ∈ t.segments)
    (named : plan.inputs = inputs.map (·.id)) (unwritten : Unwritten (first + ·) st)
    (ran : mergePlan (first + ·) encode maxRows t st plan = .ok st') :
    ∃ outputs, st'.adds = st.adds ++ outputs ∧ st'.removes = st.removes ++ plan.inputs ∧
      Drawn first plan.partition st.drawn st'.drawn outputs ∧ (∀ s ∈ inputs, s.partition = plan.partition) ∧
      (∃ l ∈ inputs, (∀ s ∈ inputs, s.seq ≤ l.seq) ∧ ∀ o ∈ outputs, o.seq = l.seq) ∧ Extends st.files st'.files ∧
      Unwritten (first + ·) st' ∧ (∀ s ∈ inputs, Opens st.files t.schema s) ∧
      (∀ o ∈ outputs, Opens st'.files t.schema o) ∧
      outputs.flatMap (rowsOf st'.files t.schema) = inputs.flatMap (rowsOf st'.files t.schema) := by
  unfold mergePlan at ran
  obtain ⟨_, valid, ran⟩ := Except.bind_eq_ok.mp ran
  obtain ⟨found, resolved, ran⟩ := Except.bind_eq_ok.mp ran
  obtain ⟨batches, read, ran⟩ := Except.bind_eq_ok.mp ran
  obtain ⟨mid, wrote, made⟩ := Except.bind_eq_ok.mp ran
  cases made
  have each := mergeInputs_eq_ok.mp resolved
  have same : found = inputs := eq_of_ids nodup each.live live (each.ids.trans named)
  subst same
  have some_ : found ≠ [] := by
    obtain ⟨filled, _⟩ := validateMerge_eq_ok.mp valid
    intro none
    rw [named, none] at filled
    exact filled rfl
  obtain ⟨opens, rows⟩ := readAll_eq_ok nonempty read
  obtain ⟨outputs, adds, removes, grown, unwritten', written⟩ :=
    writeOutputs_eq_ok (add_injective first) (unwritten.logged _) wrote
  obtain ⟨outputs', adds', drawn⟩ := writeOutputs_drawn wrote
  have own : outputs' = outputs := List.append_cancel_left (adds'.symm.trans adds)
  subst own
  obtain ⟨most, atMost⟩ := Option.ne_none_iff_exists'.mp
    (mt List.max?_eq_none_iff.mp (by simpa using some_ : found.map (·.seq) ≠ []))
  obtain ⟨reached, above⟩ := List.max?_eq_some_iff.mp atMost
  obtain ⟨l, inside, top⟩ := List.mem_map.mp reached
  have placed : ∀ s ∈ found, s.partition = plan.partition := by
    intro s member
    obtain ⟨_, _, _, own⟩ := List.Forall₂.source each member
    exact own
  refine ⟨outputs', adds, by simp [removes], drawn, placed, ⟨l, inside, ?_, ?_⟩, grown, unwritten', opens, ?_, ?_⟩
  · intro s member
    rw [top]
    exact above _ (List.mem_map_of_mem member)
  · intro o member
    obtain ⟨_, _, one⟩ := List.Forall₂.source written member
    rw [one.seq, atMost, Option.getD_some, top]
  · intro o member
    obtain ⟨_, _, one⟩ := List.Forall₂.source written member
    exact one.opens ok
  · have kept := wrote_rows ok written
    rw [merge_flatten plain, rows] at kept
    refine kept.trans ?_
    exact List.flatMap_congr fun s member => (rowsOf_mono (opens s member) grown).symm

end Outputs

/-- Plans that each take a stretch of the segments, one stretch after another. -/
inductive Stretches : List SegmentEntry → List MergePlan → Prop
  | nil : Stretches [] []
  | pass (s : SegmentEntry) {segments plans} : Stretches segments plans → Stretches (s :: segments) plans
  | take (partition : String) (inputs : List SegmentEntry) {segments plans} : Stretches segments plans →
      Stretches (inputs ++ segments) (⟨partition, inputs.map (·.id)⟩ :: plans)

namespace Stretches

variable {segments segments' : List SegmentEntry} {plans plans' : List MergePlan}

theorem append (before : Stretches segments plans) (after : Stretches segments' plans') :
    Stretches (segments ++ segments') (plans ++ plans') := by
  induction before with
  | nil => exact after
  | pass s _ ih => exact .pass s ih
  | take partition inputs _ ih =>
    rw [List.append_assoc]
    exact .take partition inputs ih

theorem passed (segments : List SegmentEntry) : Stretches segments [] := by
  induction segments with
  | nil => exact .nil
  | cons s rest ih => exact .pass s ih

theorem one (partition : String) (inputs : List SegmentEntry) :
    Stretches inputs [⟨partition, inputs.map (·.id)⟩] := by
  have taken := Stretches.take partition inputs .nil
  rwa [List.append_nil] at taken

end Stretches

/-- The walk so far: stretches taken, and the open run behind them. -/
def Striding (done : List SegmentEntry) (st : RunState) : Prop :=
  ∃ before run, done = before ++ run ∧ Stretches before st.plans ∧ st.run = run.map (·.id)

section Walk

variable {t : TableEntry} {partition : String} {opts : StoreOptions}

theorem closeRun_striding {done : List SegmentEntry} {st : RunState} (minInputs : Nat) (striding : Striding done st) :
    Stretches done (closeRun partition minInputs st).plans := by
  obtain ⟨before, run, rfl, stretches, ids⟩ := striding
  unfold closeRun
  split
  · simp only [ids]
    exact stretches.append (.one partition run)
  · have all := stretches.append (.passed run)
    rwa [List.append_nil] at all

theorem planStep_striding {done : List SegmentEntry} {st : RunState} (s : SegmentEntry) (striding : Striding done st) :
    Striding (done ++ [s]) (planStep t partition opts st s) := by
  have closed := @closeRun_striding partition _ _ opts.compactMinInputs striding
  obtain ⟨before, run, whole, stretches, ids⟩ := striding
  unfold planStep
  dsimp only
  by_cases big : tooBig opts s = true
  · simp only [big, Bool.true_or, if_true]
    have passed := closed.append (.passed [s])
    rw [List.append_nil] at passed
    exact ⟨done ++ [s], [], by simp, passed, by simp⟩
  · simp only [big, Bool.false_or, Bool.false_eq_true, if_false]
    split
    · exact ⟨done, [s], rfl, closed, by simp⟩
    · exact ⟨before, run ++ [s], by simp [whole], stretches, by simp [ids]⟩

theorem planPartition_stretches (t : TableEntry) (partition : String) (opts : StoreOptions) :
    Stretches (t.segments.filter (·.partition == partition)) (planPartition t partition opts) := by
  have start : Striding [] ⟨[], [], 0⟩ := ⟨[], [], rfl, .nil, rfl⟩
  have walked : Striding (t.segments.filter (·.partition == partition)) _ :=
    foldl_prefix_invariant (planStep t partition opts) Striding
      (fun done s rest st _ striding => planStep_striding s striding) start
  exact closeRun_striding opts.compactMinInputs walked

/-- The plans of a table that has one partition. -/
theorem planMerge_stretches (single : ∀ s ∈ t.segments, s.partition = partition) (opts : StoreOptions) :
    Stretches t.segments (planMerge t opts) := by
  have filtered : t.segments.filter (·.partition == partition) = t.segments := by
    rw [List.filter_eq_self]
    intro s member
    simpa using single s member
  unfold planMerge
  cases whole : t.segments with
  | nil => exact .nil
  | cons s rest =>
    have seen : ∀ l : List SegmentEntry, (∀ x ∈ l, x.partition = partition) →
        l.foldl (fun seen x => if seen.contains x.partition then seen else seen ++ [x.partition]) [partition] =
          [partition] := by
      intro l
      induction l with
      | nil => exact fun _ => rfl
      | cons x rest ih =>
        intro all
        rw [List.forall_mem_cons] at all
        rw [List.foldl_cons, all.1]
        simpa using ih all.2
    have first : s.partition = partition := single s (by simp [whole])
    have partitions : distinctPartitions (s :: rest) = [partition] := by
      unfold distinctPartitions
      rw [List.foldl_cons]
      simp only [List.contains_nil, Bool.false_eq_true, if_false, List.nil_append, first]
      exact seen rest fun x member => single x (by simp [whole, member])
    rw [partitions, List.flatMap_singleton, ← whole]
    have walked := planPartition_stretches t partition opts
    rwa [filtered] at walked

end Walk

/-- A merge takes a segment and leaves a later one of the same seq. -/
def Severed (t : TableEntry) (plans : List MergePlan) : Prop :=
  ∃ l ∈ t.segments, ∃ s ∈ t.segments, l.id ∈ plans.flatMap (·.inputs) ∧ s.id ∉ plans.flatMap (·.inputs) ∧
    l.seq = s.seq ∧ l.id < s.id

instance (t : TableEntry) (plans : List MergePlan) : Decidable (Severed t plans) :=
  inferInstanceAs (Decidable (∃ l ∈ t.segments, ∃ s ∈ t.segments, _))

/-- In the strict order of the manifest. -/
abbrev InOrder (segments : List SegmentEntry) : Prop := segments.Pairwise (·.order < ·.order)

theorem order_lt_iff {a b : SegmentEntry} : a.order < b.order ↔ a.seq < b.seq ∨ a.seq = b.seq ∧ a.id < b.id :=
  Prod.Lex.toLex_lt_toLex

section Merge

variable {first maxRows : Nat} {encode : SegmentFile → Except StorageError Footer} {t : TableEntry}

theorem Stretches.inputs_mem {segments : List SegmentEntry} {plans : List MergePlan}
    (stretches : Stretches segments plans) {id : Nat} (taken : id ∈ plans.flatMap (·.inputs)) :
    id ∈ segments.map (·.id) := by
  induction stretches with
  | nil => cases taken
  | pass s _ ih => exact .tail _ (ih taken)
  | take partition inputs _ ih =>
    rw [List.flatMap_cons] at taken
    rw [List.map_append]
    rcases List.mem_append.mp taken with taken | taken
    · exact List.mem_append_left _ taken
    · exact List.mem_append_right _ (ih taken)

/-- What the merges of some stretches put in the place of the segments. -/
structure InPlace (t : TableEntry) (first lo : Nat) (files : Files) (segments : List SegmentEntry)
    (plans : List MergePlan) (outputs placed : List SegmentEntry) : Prop where
  perm : placed.Perm ((segments.filter fun s => !(plans.flatMap (·.inputs)).contains s.id) ++ outputs)
  order : InOrder placed
  each : ∀ p ∈ placed, (p ∈ segments ∧ p.id ∉ plans.flatMap (·.inputs)) ∨
    first + lo ≤ p.id ∧ ∃ s ∈ segments, s.seq = p.seq
  rows : placed.flatMap (rowsOf files t.schema) = segments.flatMap (rowsOf files t.schema)
  opens : ∀ p ∈ placed, Opens files t.schema p

variable {files : Files} {lo mid : Nat} {segments outputs placed : List SegmentEntry} {plans : List MergePlan}

theorem InPlace.nil : InPlace t first lo files [] [] [] [] := ⟨by simp, .nil, by simp, rfl, by simp⟩

/-- A segment no merge takes stays before what comes after it. -/
theorem InPlace.pass {s : SegmentEntry} (rest : InPlace t first lo files segments plans outputs placed)
    (order : InOrder (s :: segments)) (below : s.id < first) (opens : Opens files t.schema s)
    (outside : s.id ∉ plans.flatMap (·.inputs)) :
    InPlace t first lo files (s :: segments) plans outputs (s :: placed) := by
  obtain ⟨earlier, _⟩ := List.pairwise_cons.mp order
  refine ⟨?_, ?_, ?_, ?_, List.forall_mem_cons.mpr ⟨opens, rest.opens⟩⟩
  · rw [List.filter_cons_of_pos (by simpa using outside)]
    exact rest.perm.cons s
  · refine List.pairwise_cons.mpr ⟨?_, rest.order⟩
    intro p member
    rcases rest.each p member with ⟨kept, _⟩ | ⟨new, s', inside, seq⟩
    · exact earlier p kept
    · rw [order_lt_iff]
      have before := order_lt_iff.mp (earlier s' inside)
      omega
  · intro p member
    rcases List.mem_cons.mp member with rfl | member
    · exact .inl ⟨.head _, outside⟩
    · refine (rest.each p member).imp ?_ ?_
      · exact fun kept => ⟨.tail _ kept.1, kept.2⟩
      · exact fun new => ⟨new.1, new.2.imp fun s' inside => ⟨.tail _ inside.1, inside.2⟩⟩
  · rw [List.flatMap_cons, List.flatMap_cons, rest.rows]

/-- What a merge writes comes where its stretch was, unless what follows has its seq and stays. -/
theorem InPlace.take {inputs made : List SegmentEntry} {partition : String} {l : SegmentEntry}
    (rest : InPlace t first mid files segments plans outputs placed) (order : InOrder (inputs ++ segments))
    (once : ((inputs ++ segments).map (·.id)).Nodup) (drawn : Drawn first partition lo mid made)
    (inside : l ∈ inputs) (stamped : ∀ o ∈ made, o.seq = l.seq)
    (joined : ∀ s ∈ segments, s.id ∉ plans.flatMap (·.inputs) → l.seq = s.seq → ¬ l.id < s.id)
    (rows : made.flatMap (rowsOf files t.schema) = inputs.flatMap (rowsOf files t.schema))
    (opens : ∀ o ∈ made, Opens files t.schema o) :
    InPlace t first lo files (inputs ++ segments) (⟨partition, inputs.map (·.id)⟩ :: plans) (made ++ outputs)
      (made ++ placed) := by
  have apart : ∀ s ∈ segments, s.id ∉ inputs.map (·.id) := by
    intro s member taken
    rw [List.map_append] at once
    exact (List.nodup_append.mp once).2.2 _ taken _ (List.mem_map_of_mem member) rfl
  have outside : ∀ s ∈ segments, (s.id ∉ (⟨partition, inputs.map (·.id)⟩ :: plans).flatMap MergePlan.inputs ↔
      s.id ∉ plans.flatMap (·.inputs)) := by
    intro s member
    rw [List.flatMap_cons, List.mem_append, not_or]
    exact and_iff_right (apart s member)
  have after := (List.pairwise_append.mp order).2.2
  refine ⟨?_, ?_, ?_, ?_, List.forall_mem_append.mpr ⟨opens, rest.opens⟩⟩
  · have gone : inputs.filter (fun s => !((⟨partition, inputs.map (·.id)⟩ :: plans).flatMap
        MergePlan.inputs).contains s.id) = [] := by
      rw [List.filter_eq_nil_iff]
      intro s member
      have taken : s.id ∈ inputs.map (·.id) := List.mem_map_of_mem member
      simp [taken]
    have same : segments.filter (fun s => !((⟨partition, inputs.map (·.id)⟩ :: plans).flatMap
        MergePlan.inputs).contains s.id) = segments.filter fun s => !(plans.flatMap (·.inputs)).contains s.id := by
      apply List.filter_congr
      intro s member
      have iff_ := outside s member
      simp only [List.contains_eq_mem]
      by_cases taken : s.id ∈ plans.flatMap (·.inputs)
      · have both : s.id ∈ (⟨partition, inputs.map (·.id)⟩ :: plans).flatMap MergePlan.inputs := by
          rw [List.flatMap_cons]
          exact List.mem_append_right _ taken
        simp only [taken, both]
      · simp only [taken, iff_.mpr taken]
    rw [List.filter_append, gone, same, List.nil_append]
    refine (rest.perm.append_left made).trans ?_
    rw [← List.append_assoc, ← List.append_assoc]
    exact List.perm_append_comm.append_right outputs
  · refine List.pairwise_append.mpr ⟨?_, rest.order, ?_⟩
    · refine drawn.rising.imp_of_mem ?_
      intro a b left right less
      rw [order_lt_iff, stamped a left, stamped b right]
      omega
    · intro o own p member
      have id := drawn.ids o own
      rw [order_lt_iff, stamped o own]
      rcases rest.each p member with ⟨kept, stays⟩ | ⟨new, s, source, seq⟩
      · have before := order_lt_iff.mp (after l inside p kept)
        have joined := joined p kept stays
        omega
      · have before := order_lt_iff.mp (after l inside s source)
        omega
  · intro p member
    have le := drawn.le
    rcases List.mem_append.mp member with own | member
    · exact .inr ⟨(drawn.ids p own).1, l, List.mem_append_left _ inside, (stamped p own).symm⟩
    · rcases rest.each p member with ⟨kept, stays⟩ | ⟨new, s, source, seq⟩
      · exact .inl ⟨List.mem_append_right _ kept, (outside p kept).mpr stays⟩
      · exact .inr ⟨by omega, s, List.mem_append_right _ source, seq⟩
  · rw [List.flatMap_append, List.flatMap_append, rows, rest.rows]

/-- Merged stretch by stretch, the outputs take the place of their inputs. -/
theorem Stretches.merged {st st' : MergeState} {partition : String} (stretches : Stretches segments plans) (ok : t.SchemaOk)
    (nonempty : t.schema ≠ []) (plain : t.orderBy = []) (nodup : t.segmentIds.Nodup)
    (single : ∀ s ∈ t.segments, s.partition = partition) (live : ∀ s ∈ segments, s ∈ t.segments)
    (below : ∀ s ∈ t.segments, s.id < first) (order : InOrder segments) (once : (segments.map (·.id)).Nodup)
    (joined : ∀ l ∈ segments, ∀ s ∈ segments, l.id ∈ plans.flatMap (·.inputs) → s.id ∉ plans.flatMap (·.inputs) →
      l.seq = s.seq → ¬ l.id < s.id)
    (opens : ∀ s ∈ segments, Opens st.files t.schema s) (unwritten : Unwritten (first + ·) st)
    (ran : plans.foldlM (mergePlan (first + ·) encode maxRows t) st = .ok st') :
    ∃ outputs placed, st'.adds = st.adds ++ outputs ∧ st'.removes = st.removes ++ plans.flatMap (·.inputs) ∧
      Drawn first partition st.drawn st'.drawn outputs ∧ Extends st.files st'.files ∧ Unwritten (first + ·) st' ∧
      InPlace t first st.drawn st'.files segments plans outputs placed := by
  induction stretches generalizing st with
  | nil =>
    cases ran
    exact ⟨[], [], by simp, by simp, ⟨Nat.le_refl _, by simp, .nil, by simp⟩, .refl _, unwritten, .nil⟩
  | @pass s segments plans rest ih =>
    obtain ⟨outside, once'⟩ := List.nodup_cons.mp once
    have outside : s.id ∉ plans.flatMap (·.inputs) := fun taken => outside (rest.inputs_mem taken)
    obtain ⟨outputs, placed, adds, removes, drawn, grown, unwritten', inPlace⟩ :=
      ih (fun x member => live x (.tail _ member)) (List.pairwise_cons.mp order).2 once'
        (fun l left x right => joined l (.tail _ left) x (.tail _ right))
        (fun x member => opens x (.tail _ member)) unwritten ran
    exact ⟨outputs, s :: placed, adds, removes, drawn, grown, unwritten',
      inPlace.pass order (below s (live s (.head _))) ((opens s (.head _)).mono grown) outside⟩
  | @take own inputs segments plans rest ih =>
    rw [List.foldlM_cons] at ran
    obtain ⟨mid, head, tail⟩ := Except.bind_eq_ok.mp ran
    obtain ⟨made, adds, removes, drawn, homed, ⟨l, inside, _, stamped⟩, grown, unwritten', _, opened, rows⟩ :=
      mergePlan_in_place ok nonempty plain nodup (fun x member => live x (List.mem_append_left _ member)) rfl unwritten
        head
    have home : own = partition :=
      (homed l inside).symm.trans (single l (live l (List.mem_append_left _ inside)))
    subst home
    have apart : ∀ s ∈ segments, s.id ∉ inputs.map (·.id) := by
      intro s member taken
      rw [List.map_append] at once
      exact (List.nodup_append.mp once).2.2 _ taken _ (List.mem_map_of_mem member) rfl
    have joined' : ∀ l ∈ inputs ++ segments, ∀ s ∈ segments,
        l.id ∈ (⟨own, inputs.map (·.id)⟩ :: plans).flatMap MergePlan.inputs → s.id ∉ plans.flatMap (·.inputs) →
        l.seq = s.seq → ¬ l.id < s.id := by
      intro l left s right taken stays
      refine joined l left s (List.mem_append_right _ right) taken ?_
      rw [List.flatMap_cons, List.mem_append, not_or]
      exact ⟨apart s right, stays⟩
    obtain ⟨outputs, placed, adds', removes', drawn', grown', unwritten'', inPlace⟩ :=
      ih (fun x member => live x (List.mem_append_right _ member)) (List.pairwise_append.mp order).2.1
        (by rw [List.map_append] at once; exact (List.nodup_append.mp once).2.1)
        (fun l left s right taken => joined' l (List.mem_append_right _ left) s right
          (by rw [List.flatMap_cons]; exact List.mem_append_right _ taken))
        (fun x member => (opens x (List.mem_append_right _ member)).mono grown) unwritten' tail
    refine ⟨made ++ outputs, made ++ placed, by rw [adds', adds, List.append_assoc], ?_, drawn.append drawn',
      grown.trans grown', unwritten'', ?_⟩
    · rw [removes', removes, List.flatMap_cons, List.append_assoc]
    · refine inPlace.take order once drawn inside stamped ?_ ?_ fun o member => (opened o member).mono grown'
      · intro s member stays
        refine joined' l (List.mem_append_left _ inside) s member ?_ stays
        rw [List.flatMap_cons]
        exact List.mem_append_left _ (List.mem_map_of_mem inside)
      · have before : made.flatMap (rowsOf st'.files t.schema) = made.flatMap (rowsOf mid.files t.schema) :=
          List.flatMap_congr fun o member => rowsOf_mono (opened o member) grown'
        have after : inputs.flatMap (rowsOf st'.files t.schema) = inputs.flatMap (rowsOf mid.files t.schema) :=
          List.flatMap_congr fun x member => rowsOf_mono ((opens x (List.mem_append_left _ member)).mono grown) grown'
        rw [before, after, rows]

end Merge

end Adelie
