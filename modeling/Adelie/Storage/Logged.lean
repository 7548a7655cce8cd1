import Adelie.Storage.Flush

namespace Adelie

/-- The file is the one its entry records: so many rows, in an encoding of this size and checksum. -/
structure Stored (encode : SegmentFile → Except StorageError Footer) (file : SegmentFile) (s : SegmentEntry) : Prop where
  rows : s.rows = file.rows.length
  footer : ∃ footer, encode file = .ok footer ∧ s.bytes = footer.bytes ∧ s.footerCrc = footer.footerCrc

/-- The log writes the segment's file, once, and syncs it; `dirToo`, its directory as well. -/
def Placed (encode : SegmentFile → Except StorageError Footer) (dirToo : Bool) (log : List FileOp) (s : SegmentEntry) :
    Prop :=
  ∃ file before after, log = before ++ .write s.path file :: after ∧ .syncFile s.path ∈ after ∧
    (dirToo = true → .syncDir s.dir s.partition ∈ after) ∧ (∀ other, .write s.path other ∉ after) ∧
    Stored encode file s

/-- The id is one of those drawn in the interval. -/
def DrawnIn (handed : Nat → Nat) (first last id : Nat) : Prop := ∃ k, first ≤ k ∧ k < last ∧ id = handed k

/-- How a writer goes on: it logs more operations, and writes only files under ids it draws. -/
structure Grows (handed : Nat → Nat) (st st' : MergeState) (more : List FileOp) : Prop where
  log : st'.log = st.log ++ more
  drawn : st.drawn ≤ st'.drawn
  files : st'.files = more.foldl FileOp.apply st.files
  writes : ∀ path file, .write path file ∈ more → DrawnIn handed st.drawn st'.drawn path.id

section

variable {handed : Nat → Nat} {encode : SegmentFile → Except StorageError Footer} {st st' st'' : MergeState}
  {more more' : List FileOp} {s : SegmentEntry} {dirToo : Bool}

theorem DrawnIn.mono {first last first' last' id : Nat} (drawn : DrawnIn handed first last id) (low : first' ≤ first)
    (high : last ≤ last') : DrawnIn handed first' last' id := by
  obtain ⟨k, after, before, same⟩ := drawn
  exact ⟨k, by omega, by omega, same⟩

theorem Grows.refl (st : MergeState) : Grows handed st st [] :=
  ⟨by simp, Nat.le_refl _, rfl, by simp⟩

theorem Grows.trans (first : Grows handed st st' more) (second : Grows handed st' st'' more') :
    Grows handed st st'' (more ++ more') := by
  refine ⟨by rw [second.log, first.log, List.append_assoc], first.drawn.trans second.drawn, ?_, ?_⟩
  · rw [second.files, first.files, List.foldl_append]
  · intro path file member
    rcases List.mem_append.mp member with member | member
    · exact (first.writes path file member).mono (Nat.le_refl _) second.drawn
    · exact (second.writes path file member).mono first.drawn (Nat.le_refl _)

/-- Directories and syncs touch no file. -/
theorem Grows.logged (st : MergeState) {ops : List FileOp} (quiet : ∀ op ∈ ops, ∀ files, op.apply files = files)
    (silent : ∀ path file, .write path file ∉ ops) : Grows handed st (st.logged ops) ops := by
  refine ⟨rfl, Nat.le_refl _, ?_, fun path file member => absurd member (silent path file)⟩
  have same : ∀ files, ops.foldl FileOp.apply files = files := by
    induction ops with
    | nil => exact fun _ => rfl
    | cons op rest ih =>
      intro files
      rw [List.foldl_cons, quiet op (.head _)]
      exact ih (fun op' member => quiet op' (.tail _ member))
        (fun path file member => silent path file (.tail _ member)) files
  exact (same st.files).symm

/-- What has been placed stays so: later writes go under ids drawn later. -/
theorem Placed.grows (distinct : handed.Injective) {first : Nat} (placed : Placed encode dirToo st.log s)
    (drawn : DrawnIn handed first st.drawn s.id) (grows : Grows handed st st' more) :
    Placed encode dirToo st'.log s := by
  obtain ⟨file, before, after, whole, synced, dirs, once, stored⟩ := placed
  refine ⟨file, before, after ++ more, ?_, List.mem_append_left _ synced,
    fun asked => List.mem_append_left _ (dirs asked), ?_, stored⟩
  · rw [grows.log, whole, List.append_assoc, List.cons_append]
  · intro other member
    rcases List.mem_append.mp member with member | member
    · exact once other member
    · obtain ⟨k, _, before', id⟩ := drawn
      obtain ⟨k', after', _, id'⟩ := grows.writes s.path other member
      have equal : handed k = handed k' := id.symm.trans id'
      have := distinct equal
      omega

/-- With its directory synced after it, a segment is placed for good. -/
theorem Placed.synced {log ops : List FileOp} (placed : Placed encode false log s)
    (dir : .syncDir s.dir s.partition ∈ ops) (silent : ∀ path file, .write path file ∉ ops) :
    Placed encode true (log ++ ops) s := by
  obtain ⟨file, before, after, whole, synced, _, once, stored⟩ := placed
  refine ⟨file, before, after ++ ops, by rw [whole, List.append_assoc, List.cons_append],
    List.mem_append_left _ synced, fun _ => List.mem_append_right _ dir, ?_, stored⟩
  intro other member
  rcases List.mem_append.mp member with member | member
  · exact once other member
  · exact silent _ _ member

/-- From one state to the next, a writer brings in these segments. -/
structure Brings (handed : Nat → Nat) (encode : SegmentFile → Except StorageError Footer) (dirToo : Bool)
    (st st' : MergeState) (made : List SegmentEntry) : Prop where
  grows : ∃ more, Grows handed st st' more
  adds : st'.adds = st.adds ++ made
  drawn : ∀ s ∈ made, DrawnIn handed st.drawn st'.drawn s.id
  placed : ∀ s ∈ made, Placed encode dirToo st'.log s
  dirs : ∀ s ∈ made, .createDir s.dir s.partition ∈ st'.log

namespace Brings

variable {made made' : List SegmentEntry}

theorem none {ops : List FileOp} (grows : Grows handed st (st.logged ops) ops) :
    Brings handed encode dirToo st (st.logged ops) [] := by
  refine ⟨⟨ops, grows⟩, by simp, ?_, ?_, ?_⟩
  all_goals simp

theorem refl (st : MergeState) : Brings handed encode dirToo st st [] := by
  refine ⟨⟨[], .refl st⟩, by simp, ?_, ?_, ?_⟩
  all_goals simp

theorem trans (distinct : handed.Injective) (first : Brings handed encode dirToo st st' made)
    (second : Brings handed encode dirToo st' st'' made') : Brings handed encode dirToo st st'' (made ++ made') := by
  obtain ⟨more, grows⟩ := first.grows
  obtain ⟨more', grows'⟩ := second.grows
  refine ⟨⟨_, grows.trans grows'⟩, by rw [second.adds, first.adds, List.append_assoc], ?_, ?_, ?_⟩
  · intro s member
    rcases List.mem_append.mp member with member | member
    · exact (first.drawn s member).mono (Nat.le_refl _) grows'.drawn
    · exact (second.drawn s member).mono grows.drawn (Nat.le_refl _)
  · intro s member
    rcases List.mem_append.mp member with member | member
    · exact (first.placed s member).grows distinct (first.drawn s member) grows'
    · exact second.placed s member
  · intro s member
    rcases List.mem_append.mp member with member | member
    · rw [grows'.log]
      exact List.mem_append_left _ (first.dirs s member)
    · exact second.dirs s member

/-- A writer that goes through a list brings in what each step does. -/
theorem of_foldlM {α : Type} {f : MergeState → α → Except StorageError MergeState} (distinct : handed.Injective)
    (each : ∀ st x st', f st x = .ok st' → ∃ made, Brings handed encode dirToo st st' made) {l : List α}
    (ran : l.foldlM f st = .ok st') : ∃ made, Brings handed encode dirToo st st' made := by
  induction l generalizing st with
  | nil =>
    cases ran
    exact ⟨[], .refl _⟩
  | cons x rest ih =>
    rw [List.foldlM_cons] at ran
    obtain ⟨mid, head, tail⟩ := Except.bind_eq_ok.mp ran
    obtain ⟨made, first⟩ := each _ _ _ head
    obtain ⟨made', others⟩ := ih tail
    exact ⟨made ++ made', first.trans distinct others⟩

end Brings

theorem createDir_grows (st : MergeState) (dir partition : String) :
    Grows handed st (st.logged [.createDir dir partition]) [.createDir dir partition] := by
  refine .logged st ?_ (by simp)
  intro op member
  rw [List.mem_singleton.mp member]
  exact fun _ => rfl

theorem syncDirs_grows (st : MergeState) (dirs : List (String × String)) :
    Grows handed st (st.logged (dirs.map fun d => .syncDir d.1 d.2)) (dirs.map fun d => .syncDir d.1 d.2) := by
  refine .logged st ?_ (by simp)
  intro op member
  obtain ⟨d, _, rfl⟩ := List.mem_map.mp member
  exact fun _ => rfl

/-- One output, in a directory that has been made sure of. -/
theorem writeOutput_brings {t : TableEntry} {partition : String} {seq : Nat} {output : List Batch}
    (dir : .createDir t.dir partition ∈ st.log)
    (ran : writeOutput handed encode t partition seq st output = .ok st') :
    (∃ s, Brings handed encode false st st' [s] ∧ s.dir = t.dir ∧ s.partition = partition) ∧
      .createDir t.dir partition ∈ st'.log := by
  unfold writeOutput at ran
  split at ran
  · rename_i wide
    obtain ⟨footer, encoded, made⟩ := Except.bind_eq_ok.mp ran
    cases made
    refine ⟨⟨_, ⟨⟨_, rfl, Nat.le_succ _, rfl, ?_⟩, rfl, ?_, ?_, ?_⟩, rfl, rfl⟩, List.mem_append_left _ dir⟩
    · intro path file member
      rcases List.mem_cons.mp member with same | member
      · cases same
        exact ⟨st.drawn, Nat.le_refl _, Nat.lt_succ_self _, rfl⟩
      · simp at member
    · intro s member
      rw [List.mem_singleton.mp member]
      exact ⟨st.drawn, Nat.le_refl _, Nat.lt_succ_self _, rfl⟩
    · intro s member
      rw [List.mem_singleton.mp member]
      exact ⟨_, st.log, _, rfl, .head _, by simp, by simp, rfl, footer, encoded, rfl, rfl⟩
    · intro s member
      rw [List.mem_singleton.mp member]
      exact List.mem_append_left _ dir
  · cases ran

/-- The outputs of one table and partition. -/
theorem writeOutputs_brings (distinct : handed.Injective) {t : TableEntry} {partition : String} {seq : Nat}
    {outputs : List (List Batch)}
    (ran : outputs.foldlM (writeOutput handed encode t partition seq) (st.logged [.createDir t.dir partition]) = .ok st') :
    ∃ made, Brings handed encode false st st' made ∧ ∀ s ∈ made, s.dir = t.dir ∧ s.partition = partition := by
  have walked : ∀ {mid : MergeState}, .createDir t.dir partition ∈ mid.log →
      outputs.foldlM (writeOutput handed encode t partition seq) mid = .ok st' →
      ∃ made, Brings handed encode false mid st' made ∧ ∀ s ∈ made, s.dir = t.dir ∧ s.partition = partition := by
    clear ran
    induction outputs with
    | nil =>
      intro mid _ ran
      cases ran
      exact ⟨[], .refl _, by simp⟩
    | cons output rest ih =>
      intro mid dir ran
      rw [List.foldlM_cons] at ran
      obtain ⟨next, head, tail⟩ := Except.bind_eq_ok.mp ran
      obtain ⟨⟨s, first, here⟩, dir'⟩ := writeOutput_brings dir head
      obtain ⟨made, others, there⟩ := ih dir' tail
      exact ⟨s :: made, first.trans distinct others, List.forall_mem_cons.mpr ⟨here, there⟩⟩
  obtain ⟨made, brings, there⟩ := walked (List.mem_append_right _ (.head _)) ran
  exact ⟨made, (Brings.none (createDir_grows st t.dir partition)).trans distinct brings, there⟩

/-- A plan syncs its directory once its outputs are written. -/
theorem mergePlan_brings (distinct : handed.Injective) {maxRows : Nat} {t : TableEntry} {plan : MergePlan}
    (ran : mergePlan handed encode maxRows t st plan = .ok st') : ∃ made, Brings handed encode true st st' made := by
  unfold mergePlan at ran
  obtain ⟨_, _, ran⟩ := Except.bind_eq_ok.mp ran
  obtain ⟨_, _, ran⟩ := Except.bind_eq_ok.mp ran
  obtain ⟨_, _, ran⟩ := Except.bind_eq_ok.mp ran
  obtain ⟨mid, wrote, done⟩ := Except.bind_eq_ok.mp ran
  cases done
  obtain ⟨made, ⟨⟨more, grows⟩, adds, drawn, placed, dirs⟩, there⟩ := writeOutputs_brings distinct wrote
  have synced := grows.trans (syncDirs_grows mid [(t.dir, plan.partition)])
  refine ⟨made, ⟨_, synced.log, synced.drawn, synced.files, synced.writes⟩, adds, drawn, ?_, ?_⟩
  · intro s member
    refine (placed s member).synced ?_ (by simp)
    rw [(there s member).1, (there s member).2]
    exact .head _
  · exact fun s member => List.mem_append_left _ (dirs s member)

theorem mergePlans_brings (distinct : handed.Injective) {maxRows : Nat} {t : TableEntry} {files : Files}
    {plans : List MergePlan} (ran : mergePlans handed encode maxRows t files plans = .ok st') :
    Brings handed encode true (.start files) st' st'.adds := by
  obtain ⟨made, brings⟩ := Brings.of_foldlM distinct (fun _ _ _ => mergePlan_brings distinct) ran
  have all : st'.adds = made := brings.adds
  rwa [all]

/-- What one element brings into an accumulator that never loses anything is there at the end. -/
theorem mem_foldl_of_mem {α β : Type} {step : List β → α → List β} (keeps : ∀ acc a, acc ⊆ step acc a) {x : α} {y : β}
    (brings : ∀ acc, y ∈ step acc x) {l : List α} (member : x ∈ l) (acc : List β) : y ∈ l.foldl step acc := by
  have stays : ∀ (l : List α) (acc : List β), acc ⊆ l.foldl step acc := by
    intro l
    induction l with
    | nil => exact fun acc => List.Subset.refl acc
    | cons a rest ih => exact fun acc => List.Subset.trans (keeps acc a) (ih _)
  induction l generalizing acc with
  | nil => simp at member
  | cons a rest ih =>
    rw [List.foldl_cons]
    rcases List.mem_cons.mp member with rfl | later
    · exact stays rest _ (brings acc)
    · exact ih later _

theorem mem_dirs {dir partition : String} (member : .createDir dir partition ∈ st.log) : (dir, partition) ∈ st.dirs := by
  unfold MergeState.dirs
  apply mem_foldl_of_mem _ _ member
  · intro seen op
    split
    · split
      · exact List.Subset.refl seen
      · exact List.subset_append_left seen _
    · exact List.Subset.refl seen
  · intro seen
    dsimp only
    split
    · rename_i known
      simpa using known
    · exact List.mem_append_right _ (.head _)

/-- A writer that syncs its directories last has placed everything for good. -/
theorem Brings.dirsSynced {made : List SegmentEntry} (brings : Brings handed encode false st st' made) :
    Brings handed encode true st (st'.logged (st'.dirs.map fun d => .syncDir d.1 d.2)) made := by
  obtain ⟨more, grows⟩ := brings.grows
  refine ⟨⟨_, grows.trans (syncDirs_grows st' st'.dirs)⟩, brings.adds, brings.drawn, ?_, ?_⟩
  · intro s member
    refine (brings.placed s member).synced ?_ (by simp)
    exact List.mem_map.mpr ⟨_, mem_dirs (brings.dirs s member), rfl⟩
  · exact fun s member => List.mem_append_left _ (brings.dirs s member)

theorem rewriteSegments_brings (distinct : handed.Injective) {maxRows : Nat} {files : Files} {ids : List Nat}
    {source target : TableEntry} (ran : rewriteSegments handed encode maxRows files ids source target = .ok st') :
    Brings handed encode true (.start files) st' st'.adds := by
  obtain ⟨_, _, ran⟩ := Except.bind_eq_ok.mp ran
  obtain ⟨last, walk, done⟩ := Except.bind_eq_ok.mp ran
  cases done
  have each : ∀ st id st', rewriteSegment handed encode maxRows source target st id = .ok st' →
      ∃ made, Brings handed encode false st st' made := by
    intro st id st' one
    unfold rewriteSegment at one
    split at one
    · cases one
    · obtain ⟨_, _, wrote⟩ := Except.bind_eq_ok.mp one
      obtain ⟨made, brings, _⟩ := writeOutputs_brings distinct wrote
      exact ⟨made, brings⟩
  obtain ⟨made, brings⟩ := Brings.of_foldlM distinct each walk
  have all : last.adds = made := brings.adds
  rw [MergeState.logged_adds, all]
  exact brings.dirsSynced

/-- What a flush has written for its tables is what its writer brought in. -/
def FlushState.Sorted (st : FlushState) : Prop := st.written.flatMap (·.2) = st.state.adds

theorem flushTable_brings (distinct : handed.Injective) {maxRows : Nat} {m : Manifest} {fst fst' : FlushState}
    {buffered : TableName × List Batch} (sorted : fst.Sorted)
    (ran : flushTable handed encode maxRows m fst buffered = .ok fst') :
    fst'.Sorted ∧ ∃ made, Brings handed encode false fst.state fst'.state made := by
  unfold flushTable at ran
  split at ran
  · cases ran
    exact ⟨sorted, [], .refl _⟩
  · split at ran
    · cases ran
    · obtain ⟨_, _, ran⟩ := Except.bind_eq_ok.mp ran
      obtain ⟨next, wrote, done⟩ := Except.bind_eq_ok.mp ran
      cases done
      obtain ⟨made, brings, _⟩ := writeOutputs_brings distinct wrote
      refine ⟨?_, made, brings⟩
      unfold FlushState.Sorted at sorted ⊢
      rw [List.flatMap_append, sorted, brings.adds]
      simp

theorem flushTables_brings (distinct : handed.Injective) {maxRows : Nat} {m : Manifest} {files : Files}
    {inFlight : List (TableName × List Batch)} {fst' : FlushState}
    (ran : flushTables handed encode maxRows m files inFlight = .ok fst') :
    fst'.Sorted ∧ Brings handed encode true (.start files) fst'.state fst'.state.adds := by
  obtain ⟨last, walk, done⟩ := Except.bind_eq_ok.mp ran
  cases done
  have walked : ∀ {fst : FlushState}, fst.Sorted → inFlight.foldlM (flushTable handed encode maxRows m) fst = .ok last →
      last.Sorted ∧ ∃ made, Brings handed encode false fst.state last.state made := by
    clear walk ran
    induction inFlight with
    | nil =>
      intro fst sorted walk
      cases walk
      exact ⟨sorted, [], .refl _⟩
    | cons buffered rest ih =>
      intro fst sorted walk
      rw [List.foldlM_cons] at walk
      obtain ⟨mid, head, tail⟩ := Except.bind_eq_ok.mp walk
      obtain ⟨sorted', made, first⟩ := flushTable_brings distinct sorted head
      obtain ⟨sorted'', made', others⟩ := ih sorted' tail
      exact ⟨sorted'', made ++ made', first.trans distinct others⟩
  obtain ⟨sorted, made, brings⟩ := walked (show FlushState.Sorted ⟨.start files, []⟩ from rfl) walk
  have all : last.state.adds = made := brings.adds
  refine ⟨sorted, ?_⟩
  rw [MergeState.logged_adds, all]
  exact brings.dirsSynced

end

end Adelie
