import Adelie.Storage.Written

namespace Adelie

/-- The table's own tombstones, and others newer than all its segments. -/
def Newer (t : TableEntry) (tombstones : List Tombstone) : Prop :=
  ∀ x ∈ tombstones, x ∈ t.tombstones ∨ ∀ s ∈ t.segments, s.seq < x.seq

/-- Two seqs that every tombstone has on one side. -/
def SameSide (tombstones : List Tombstone) (a b : Nat) : Prop := ∀ x ∈ tombstones, a < x.seq ↔ b < x.seq

theorem SameSide.filter {tombstones : List Tombstone} {a b : Nat} (same : SameSide tombstones a b) :
    tombstones.filter (fun x => a < x.seq) = tombstones.filter fun x => b < x.seq := by
  apply List.filter_congr
  intro x member
  simp only [same x member]

/-- Segments that hold the rows of others, under every tombstone that may come. -/
structure Merged (t : TableEntry) (files : Files) (inputs outputs : List SegmentEntry) : Prop where
  live : ∀ s ∈ inputs, s ∈ t.segments
  opens : ∀ s ∈ outputs, Opens files t.schema s
  sides : ∀ o ∈ outputs, ∃ s ∈ inputs, ∀ tombstones, Newer t tombstones → SameSide tombstones o.seq s.seq
  rows : ∀ tombstones, Newer t tombstones → (outputs.flatMap (visible files t.schema tombstones)).Perm
    (inputs.flatMap (visible files t.schema tombstones))

section

variable {files files' : Files} {t : TableEntry} {inputs outputs : List SegmentEntry}

theorem visible_mono {schema : List SchemaField} {tombstones : List Tombstone} {s : SegmentEntry}
    (opens : Opens files schema s) (grown : Extends files files') :
    visible files' schema tombstones s = visible files schema tombstones s := by
  rw [visible, visible, rowsOf_mono opens grown]

theorem flatMap_visible_mono {schema : List SchemaField} {tombstones : List Tombstone} {segments : List SegmentEntry}
    (opens : ∀ s ∈ segments, Opens files schema s) (grown : Extends files files') :
    segments.flatMap (visible files' schema tombstones) = segments.flatMap (visible files schema tombstones) := by
  apply List.flatMap_congr
  intro s member
  exact visible_mono (opens s member) grown

theorem Merged.nil (t : TableEntry) (files : Files) : Merged t files [] [] :=
  ⟨nofun, nofun, nofun, fun _ _ => .refl _⟩

theorem Merged.mono (merged : Merged t files inputs outputs) (readable : ∀ s ∈ inputs, Opens files t.schema s)
    (grown : Extends files files') : Merged t files' inputs outputs := by
  refine ⟨merged.live, fun s member => (merged.opens s member).mono grown, merged.sides, ?_⟩
  intro tombstones newer
  rw [flatMap_visible_mono merged.opens grown, flatMap_visible_mono readable grown]
  exact merged.rows tombstones newer

theorem Merged.append {inputs' outputs' : List SegmentEntry} (first : Merged t files inputs outputs)
    (second : Merged t files inputs' outputs') : Merged t files (inputs ++ inputs') (outputs ++ outputs') := by
  refine ⟨?_, ?_, ?_, ?_⟩
  · exact List.forall_mem_append.mpr ⟨first.live, second.live⟩
  · exact List.forall_mem_append.mpr ⟨first.opens, second.opens⟩
  · refine List.forall_mem_append.mpr ⟨?_, ?_⟩
    · intro o member
      obtain ⟨s, inside, same⟩ := first.sides o member
      exact ⟨s, List.mem_append_left _ inside, same⟩
    · intro o member
      obtain ⟨s, inside, same⟩ := second.sides o member
      exact ⟨s, List.mem_append_right _ inside, same⟩
  · intro tombstones newer
    rw [List.flatMap_append, List.flatMap_append]
    exact (first.rows tombstones newer).append (second.rows tombstones newer)

/-- The greatest seq of unstraddled inputs stands for each of them. -/
theorem sameSide_max (some_ : inputs ≠ []) (live : ∀ s ∈ inputs, s ∈ t.segments)
    (unstraddled : Unstraddled t.tombstones inputs) {tombstones : List Tombstone} (newer : Newer t tombstones)
    {s : SegmentEntry} (member : s ∈ inputs) :
    SameSide tombstones ((inputs.map (·.seq)).max?.getD 0) s.seq := by
  have nonempty : inputs.map (·.seq) ≠ [] := by simpa using some_
  obtain ⟨most, atMost⟩ := Option.ne_none_iff_exists'.mp (mt List.max?_eq_none_iff.mp nonempty)
  obtain ⟨reached, upper⟩ := List.max?_eq_some_iff.mp atMost
  obtain ⟨a, inside, rfl⟩ := List.mem_map.mp reached
  have bound := upper s.seq (List.mem_map_of_mem member)
  rw [atMost, Option.getD_some]
  intro x listed
  rcases newer x listed with own | later
  · rcases unstraddled x own with below | above
    · have := below s member
      omega
    · have := above a inside
      omega
  · have := later a (live a inside)
    have := later s (live s member)
    omega

/-- Segments on one side of every tombstone lose the same rows. -/
theorem flatMap_visible_sameSide {schema : List SchemaField} {tombstones : List Tombstone}
    {segments : List SegmentEntry} {seq : Nat} (same : ∀ s ∈ segments, SameSide tombstones seq s.seq) :
    segments.flatMap (visible files schema tombstones) =
      (segments.flatMap (rowsOf files schema)).filter fun row =>
        !deleted schema (tombstones.filter fun x => seq < x.seq) row := by
  rw [List.filter_flatMap]
  apply List.flatMap_congr
  intro s member
  rw [visible, (same s member).filter]

end

section Plan

variable {handed : Nat → Nat} {encode : SegmentFile → Except StorageError Footer} {maxRows : Nat}
  {t : TableEntry} {st st' : MergeState}

theorem PlanInputs.ids {plan : MergePlan} {inputs : List SegmentEntry} (each : PlanInputs t plan inputs) :
    inputs.map (·.id) = plan.inputs := by
  unfold PlanInputs at each
  generalize plan.inputs = ids at each
  induction each with
  | nil => rfl
  | cons head _ tail =>
    have := List.find?_some head.1
    rw [List.map_cons, tail]
    simpa using this

theorem PlanInputs.live {plan : MergePlan} {inputs : List SegmentEntry} (each : PlanInputs t plan inputs) :
    ∀ s ∈ inputs, s ∈ t.segments := by
  intro s member
  obtain ⟨id, _, found, _⟩ := List.Forall₂.source each member
  exact List.mem_of_find?_eq_some found

/-- The batches read of some segments hold their rows. -/
theorem readAll_eq_ok {files : Files} {segments : List SegmentEntry} {batches : List (List Batch)}
    (nonempty : t.schema ≠ []) (read : segments.mapM (fun s => readSegmentAs files s t.schema) = .ok batches) :
    (∀ s ∈ segments, Opens files t.schema s) ∧ batches.flatten.flatten = segments.flatMap (rowsOf files t.schema) := by
  have each := forall₂_of_mapM_except read
  clear read
  induction each with
  | nil => exact ⟨nofun, rfl⟩
  | cons head _ tail =>
    obtain ⟨file, found, readable, flat⟩ := readSegmentAs_eq_ok nonempty head
    obtain ⟨opens, rest⟩ := tail
    refine ⟨List.forall_mem_cons.mpr ⟨⟨file, found, readable⟩, opens⟩, ?_⟩
    rw [List.flatten_cons, List.flatten_append, rest, flat, List.flatMap_cons, rowsOf_of_file found]

theorem wrote_rows {files : Files} {seq : Nat} {outputs : List (List Batch)} {made : List SegmentEntry}
    (ok : t.SchemaOk)
    (each : List.Forall₂ (fun (output : List Batch) s => Wrote files t seq output.flatten s) outputs made) :
    made.flatMap (rowsOf files t.schema) = outputs.flatten.flatten := by
  induction each with
  | nil => rfl
  | cons head _ tail =>
    rw [List.flatMap_cons, tail, head.rowsOf ok, List.flatten_cons, List.flatten_append]

/-- One plan: its outputs hold the rows of its inputs. -/
theorem mergePlan_eq_ok {plan : MergePlan} (ok : t.SchemaOk) (nonempty : t.schema ≠ []) (distinct : handed.Injective)
    (unwritten : Unwritten handed st) (ran : mergePlan handed encode maxRows t st plan = .ok st') :
    ∃ inputs outputs, inputs.map (·.id) = plan.inputs ∧ (∀ s ∈ inputs, Opens st.files t.schema s) ∧
      st'.removes = st.removes ++ plan.inputs ∧ st'.adds = st.adds ++ outputs ∧ Extends st.files st'.files ∧
      Unwritten handed st' ∧ Merged t st'.files inputs outputs := by
  unfold mergePlan at ran
  obtain ⟨_, valid, ran⟩ := Except.bind_eq_ok.mp ran
  obtain ⟨inputs, found, ran⟩ := Except.bind_eq_ok.mp ran
  obtain ⟨batches, read, ran⟩ := Except.bind_eq_ok.mp ran
  obtain ⟨mid, wrote, made⟩ := Except.bind_eq_ok.mp ran
  cases made
  have each := mergeInputs_eq_ok.mp found
  obtain ⟨some_, inputs', each', unstraddled⟩ := validateMerge_eq_ok.mp valid
  rw [← each.unique each'] at unstraddled
  have nonempty' : inputs ≠ [] := by
    rintro rfl
    exact some_ (List.forall₂_nil_right_iff.mp each)
  obtain ⟨opens, read⟩ := readAll_eq_ok nonempty read
  obtain ⟨outputs, adds, removes, grown, unwritten', written⟩ :=
    writeOutputs_eq_ok distinct (unwritten.logged _) wrote
  have stamped : ∀ o ∈ outputs, o.seq = (inputs.map (·.seq)).max?.getD 0 := by
    intro o member
    obtain ⟨_, _, one⟩ := List.Forall₂.source written member
    exact one.seq
  have side {tombstones : List Tombstone} (newer : Newer t tombstones) {s : SegmentEntry} (member : s ∈ inputs) :=
    sameSide_max nonempty' each.live unstraddled newer member
  refine ⟨inputs, outputs, each.ids, opens, by simp [removes], adds, grown, unwritten', each.live, ?_, ?_, ?_⟩
  · intro o member
    obtain ⟨_, _, one⟩ := List.Forall₂.source written member
    exact one.opens ok
  · intro o member
    obtain ⟨s, inside⟩ := List.exists_mem_of_ne_nil _ nonempty'
    refine ⟨s, inside, fun tombstones newer => ?_⟩
    rw [stamped o member]
    exact side newer inside
  · intro tombstones newer
    rw [flatMap_visible_sameSide fun s member => side newer member,
      flatMap_visible_sameSide fun o member => (by rw [stamped o member]; exact fun _ _ => Iff.rfl),
      wrote_rows ok written]
    refine List.Perm.filter _ ((merge_perm _ _ _).trans (.of_eq (read.trans ?_)))
    exact List.flatMap_congr fun s member => (rowsOf_mono (opens s member) grown).symm

/-- Several plans, one after another. -/
theorem mergePlans_eq_ok {plans : List MergePlan} {files : Files} (ok : t.SchemaOk) (nonempty : t.schema ≠ [])
    (distinct : handed.Injective) (unwritten : Unwritten handed (.start files))
    (ran : mergePlans handed encode maxRows t files plans = .ok st') :
    ∃ inputs, inputs.map (·.id) = plans.flatMap (·.inputs) ∧ st'.removes = plans.flatMap (·.inputs) ∧
      Extends files st'.files ∧ (∀ s ∈ inputs, Opens st'.files t.schema s) ∧ Merged t st'.files inputs st'.adds := by
  have walked : ∀ {st : MergeState} {inputs : List SegmentEntry}, Unwritten handed st →
      (∀ s ∈ inputs, Opens st.files t.schema s) → Merged t st.files inputs st.adds →
      plans.foldlM (mergePlan handed encode maxRows t) st = .ok st' →
      ∃ more, more.map (·.id) = plans.flatMap (·.inputs) ∧ st'.removes = st.removes ++ plans.flatMap (·.inputs) ∧
        Extends st.files st'.files ∧ (∀ s ∈ inputs ++ more, Opens st'.files t.schema s) ∧
        Merged t st'.files (inputs ++ more) st'.adds := by
    clear unwritten ran
    induction plans with
    | nil =>
      intro st inputs _ readable merged ran
      cases ran
      exact ⟨[], rfl, by simp, .refl _, by simpa using readable, by simpa using merged⟩
    | cons plan rest ih =>
      intro st inputs unwritten readable merged ran
      rw [List.foldlM_cons] at ran
      obtain ⟨mid, head, tail⟩ := Except.bind_eq_ok.mp ran
      obtain ⟨taken, outputs, ids, opens, removes, adds, grown, unwritten', one⟩ :=
        mergePlan_eq_ok ok nonempty distinct unwritten head
      have readable' : ∀ s ∈ inputs ++ taken, Opens mid.files t.schema s := by
        refine List.forall_mem_append.mpr ⟨fun s member => ?_, fun s member => ?_⟩
        · exact (readable s member).mono grown
        · exact (opens s member).mono grown
      have both := (merged.mono readable grown).append one
      rw [← adds] at both
      obtain ⟨more, ids', removes', grown', opens', all⟩ := ih unwritten' readable' both tail
      refine ⟨taken ++ more, ?_, ?_, grown.trans grown', by simpa using opens', by simpa using all⟩
      · rw [List.map_append, ids, ids', List.flatMap_cons]
      · rw [removes', removes, List.flatMap_cons, List.append_assoc]
  have start : ∀ s ∈ ([] : List SegmentEntry), Opens files t.schema s := by simp
  obtain ⟨more, ids, removes, grown, opens, all⟩ := walked unwritten start (.nil t files) ran
  exact ⟨more, ids, by simpa using removes, grown, opens, all⟩

/-- A segment a merge writes: on the table's own columns, under the seq of one of its inputs. -/
structure Output (files : Files) (t : TableEntry) (ids : List Nat) (o : SegmentEntry) : Prop where
  input : ∃ s ∈ t.segments, s.id ∈ ids ∧ o.seq = s.seq
  wrote : ∃ rows, Wrote files t o.seq rows o ∧ (t.schema = [] → rows = [])

theorem Output.mono {files files' : Files} {ids ids' : List Nat} {o : SegmentEntry} (output : Output files t ids o)
    (grown : Extends files files') (more : ids ⊆ ids') : Output files' t ids' o := by
  obtain ⟨s, live, listed, seq⟩ := output.input
  obtain ⟨rows, wrote, hollow⟩ := output.wrote
  exact ⟨⟨s, live, more listed, seq⟩, rows, wrote.mono grown, hollow⟩

/-- A table without columns has no rows to read. -/
theorem readAll_columnless {files : Files} {segments : List SegmentEntry} {batches : List (List Batch)}
    (columnless : t.schema = []) (read : segments.mapM (fun s => readSegmentAs files s t.schema) = .ok batches) :
    batches.flatten.flatten = [] := by
  have each := forall₂_of_mapM_except read
  clear read
  induction each with
  | nil => rfl
  | cons head _ tail =>
    unfold readSegmentAs at head
    obtain ⟨file, _, head⟩ := Except.bind_eq_ok.mp head
    obtain ⟨index, mapped, made⟩ := Except.bind_eq_ok.mp head
    cases made
    have empty : index = [] := by simp [(mapFileColumns_eq_ok mapped).1, columnless]
    rw [List.flatten_cons, List.flatten_append, tail, List.append_nil, List.flatten_eq_nil_iff]
    intro group member
    obtain ⟨rows, _, rfl⟩ := List.mem_map.mp member
    simp [realign, empty]

theorem mergePlan_outputs {plan : MergePlan} (distinct : handed.Injective) (unwritten : Unwritten handed st)
    (ran : mergePlan handed encode maxRows t st plan = .ok st') :
    ∃ outputs, st'.adds = st.adds ++ outputs ∧ st'.removes = st.removes ++ plan.inputs ∧
      Extends st.files st'.files ∧ Unwritten handed st' ∧ ∀ o ∈ outputs, Output st'.files t plan.inputs o := by
  unfold mergePlan at ran
  obtain ⟨_, valid, ran⟩ := Except.bind_eq_ok.mp ran
  obtain ⟨inputs, found, ran⟩ := Except.bind_eq_ok.mp ran
  obtain ⟨batches, read, ran⟩ := Except.bind_eq_ok.mp ran
  obtain ⟨mid, wrote, made⟩ := Except.bind_eq_ok.mp ran
  cases made
  have each := mergeInputs_eq_ok.mp found
  obtain ⟨some_, _, _, _⟩ := validateMerge_eq_ok.mp valid
  have nonempty : inputs.map (·.seq) ≠ [] := by
    intro none_
    rw [List.map_eq_nil_iff] at none_
    subst none_
    exact some_ (List.forall₂_nil_right_iff.mp each)
  obtain ⟨most, atMost⟩ := Option.ne_none_iff_exists'.mp (mt List.max?_eq_none_iff.mp nonempty)
  obtain ⟨s, inside, reached⟩ := List.mem_map.mp (List.max?_eq_some_iff.mp atMost).1
  obtain ⟨outputs, adds, removes, grown, unwritten', written⟩ :=
    writeOutputs_eq_ok distinct (unwritten.logged _) wrote
  refine ⟨outputs, adds, by simp [removes], grown, unwritten', ?_⟩
  intro o member
  obtain ⟨output, listed, one⟩ := List.Forall₂.source written member
  have seq : o.seq = s.seq := by rw [one.seq, atMost, Option.getD_some, reached]
  refine ⟨⟨s, each.live s inside, ?_, seq⟩, output.flatten, one.seq ▸ one, ?_⟩
  · rw [← each.ids]
    exact List.mem_map_of_mem inside
  · intro columnless
    have none_ := merge_perm t batches maxRows
    rw [readAll_columnless columnless read, List.perm_nil, List.flatten_eq_nil_iff] at none_
    rw [List.flatten_eq_nil_iff]
    intro batch part
    exact none_ batch (List.mem_flatten.mpr ⟨output, listed, part⟩)

theorem mergePlans_outputs {plans : List MergePlan} {files : Files} (distinct : handed.Injective)
    (unwritten : Unwritten handed (.start files)) (ran : mergePlans handed encode maxRows t files plans = .ok st') :
    Extends files st'.files ∧ st'.removes = plans.flatMap (·.inputs) ∧
      ∀ o ∈ st'.adds, Output st'.files t (plans.flatMap (·.inputs)) o := by
  have walked : ∀ {plans : List MergePlan} {st : MergeState}, Unwritten handed st →
      (∀ o ∈ st.adds, Output st.files t st.removes o) → plans.foldlM (mergePlan handed encode maxRows t) st = .ok st' →
      Extends st.files st'.files ∧ st'.removes = st.removes ++ plans.flatMap (·.inputs) ∧
        ∀ o ∈ st'.adds, Output st'.files t st'.removes o := by
    clear unwritten ran
    intro plans
    induction plans with
    | nil =>
      intro st _ all ran
      cases ran
      exact ⟨.refl _, by simp, all⟩
    | cons plan rest ih =>
      intro st unwritten all ran
      rw [List.foldlM_cons] at ran
      obtain ⟨mid, head, tail⟩ := Except.bind_eq_ok.mp ran
      obtain ⟨outputs, adds, removes, grown, unwritten', new⟩ := mergePlan_outputs distinct unwritten head
      have all' : ∀ o ∈ mid.adds, Output mid.files t mid.removes o := by
        rw [adds, removes]
        refine List.forall_mem_append.mpr ⟨?_, ?_⟩
        · exact fun o member => (all o member).mono grown (List.subset_append_left _ _)
        · exact fun o member => (new o member).mono (.refl _) (List.subset_append_right _ _)
      obtain ⟨grown', removes', done⟩ := ih unwritten' all' tail
      refine ⟨grown.trans grown', ?_, done⟩
      rw [removes', removes, List.flatMap_cons, List.append_assoc]
  have start : ∀ o ∈ (MergeState.start files).adds, Output files t (MergeState.start files).removes o := by simp
  obtain ⟨grown, removes, outputs⟩ := walked unwritten start ran
  rw [MergeState.start_removes, List.nil_append] at removes
  exact ⟨grown, removes, removes ▸ outputs⟩

end Plan

end Adelie
