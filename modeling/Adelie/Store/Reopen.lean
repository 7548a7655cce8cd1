import Adelie.Store.Work

namespace Adelie

/-- The ids whose files survive an opening: of tables, garbage, retired entries and job targets. -/
def Manifest.keepsFile (m : Manifest) (id : Nat) : Bool :=
  m.referencesSegment id || m.garbage.any (·.segment.id == id)

/-- Removes every segment file that the manifest does not know of. -/
def cleanupOrphans (m : Manifest) (files : Files) : Files :=
  fun path => if m.keepsFile path.id then files path else none

theorem Manifest.keepsFile_iff {m : Manifest} {id : Nat} : m.keepsFile id = true ↔ m.Knows id := by
  simp [keepsFile, Knows, referencesSegment_iff, garbageIds]

/-- An open store: the state commits go through, and the counter of segment ids. -/
structure Opened (Bytes : Type) extends Shared Bytes where
  nextId : Nat

/-- One run of file operations, the ids it draws, and the manifest it publishes. -/
structure Task (Bytes : Type) where
  ops : List (Op Bytes)
  drawn : Nat
  after : Option Manifest

namespace Opened

variable {Bytes : Type} (codec : Codec Bytes)

/-- Loads the manifest, checks that every table's engine is known, and cleans up. -/
def open_ (retain : Nat) (d : Disk Bytes) : Except StorageError (Opened Bytes) :=
  match d.load codec with
  | .error e => .error (.manifest e)
  | .ok loaded => do
    loaded.tables.forM fun t =>
      ensure (engineByName t.engine) (.manifest (.unknownEngine t.name.display t.engine))
    return ⟨⟨⟨retain, false⟩, { d with files := cleanupOrphans loaded d.files }, loaded⟩, loaded.nextSegmentId⟩

variable (opts : StoreOptions) (encode : SegmentFile → Except StorageError Footer)

/-- Everything a piece of work does to the directory: segments first, then the manifest, when the
    commit is accepted. -/
def task (st : Opened Bytes) (read : Manifest) (nowMs : Nat) (work : Work) :
    Except StorageError (Option (Task Bytes)) := do
  match ← work.prepare opts encode st.nextId st.disk.files read st.current with
  | none => return none
  | some p =>
    match (Commit.mk st.current.version (p.edits (st.current.version + 1))).apply st.current nowMs with
    | .error _ => return some ⟨p.log.map .segment, p.drawn, none⟩
    | .ok next =>
      return some ⟨p.log.map .segment ++ (Publisher.publishOps codec next ++ st.publisher.tidyOps next), p.drawn,
        some next⟩

/-- The state after a task that has gone through. -/
def after (st : Opened Bytes) (task : Task Bytes) : Opened Bytes :=
  match task.after with
  | none => { st with disk := st.disk.applyAll task.ops, nextId := st.nextId + task.drawn }
  | some next =>
    { publisher := st.publisher.pruned next.version
      disk := st.disk.applyAll task.ops
      current := next
      nextId := st.nextId + task.drawn }

/-- Every state an open store gets into, from an empty directory: its tasks go through, leave files
    behind when they fail, or are cut short by a crash. Ids stay within their 64 bits, and each
    manifest survives its encoding. -/
inductive Reached : Opened Bytes → Prop
  | created : Reached ⟨⟨⟨opts.retainManifests, false⟩, Disk.empty, Manifest.empty⟩, 0⟩
  | done {st : Opened Bytes} {read : Manifest} {nowMs : Nat} {work : Work} {task : Task Bytes} : Reached st →
    st.task codec opts encode read nowMs work = .ok (some task) → st.nextId + task.drawn < 2 ^ 64 →
    (∀ next ∈ task.after, codec.Keeps next) → Reached (st.after task)
  | abandoned {st : Opened Bytes} {log : List FileOp} {drawn : Nat} : Reached st →
    (∀ path file, .write path file ∈ log → st.nextId ≤ path.id ∧ path.id < st.nextId + drawn) →
    Reached { st with disk := st.disk.applyAll (log.map .segment), nextId := st.nextId + drawn }
  | collected {st : Opened Bytes} {path : SegmentPath} : Reached st → st.current.referencesSegment path.id = false →
    Reached { st with disk := st.disk.apply (.removeSegment path) }
  | crashed {st st' : Opened Bytes} {read : Manifest} {nowMs : Nat} {work : Work} {task : Task Bytes}
    {performed left : List (Op Bytes)} : Reached st →
    st.task codec opts encode read nowMs work = .ok (some task) → st.nextId + task.drawn < 2 ^ 64 →
    (∀ next ∈ task.after, codec.Keeps next) → performed <+: task.ops → Left performed left →
    open_ codec opts.retainManifests (st.disk.applyAll left) = .ok st' → Reached st'

/-- A manifest that a store can run on over these files. -/
structure Standing (encode : SegmentFile → Except StorageError Footer) (files : Files) (m : Manifest) : Prop where
  built : ∀ t ∈ m.entries, engineByName t.engine = true
  stored : ∀ x, m.Holds x → ∃ file, files x.path = some file ∧ Stored encode file x
  covered : m.Covered

/-- What holds of every open store. -/
structure Sane (st : Opened Bytes) : Prop where
  agrees : st.disk.load codec = .ok st.current
  standing : Standing encode st.disk.files st.current
  fresh : ∀ path, st.nextId ≤ path.id → st.disk.files path = none

section Task

variable {codec opts encode} {st : Opened Bytes} {read : Manifest} {nowMs : Nat} {work : Work} {task : Task Bytes}

/-- What a task is made of. -/
inductive TaskOf (codec : Codec Bytes) (encode : SegmentFile → Except StorageError Footer) (st : Opened Bytes)
    (nowMs : Nat) : Task Bytes → Prop
  | refused {p : Prepared} : p.Ready encode st.nextId → TaskOf codec encode st nowMs ⟨p.log.map .segment, p.drawn, none⟩
  | accepted {p : Prepared} {next : Manifest} : p.Ready encode st.nextId →
    (Commit.mk st.current.version (p.edits (st.current.version + 1))).apply st.current nowMs = .ok next →
    TaskOf codec encode st nowMs
      ⟨p.log.map .segment ++ (Publisher.publishOps codec next ++ st.publisher.tidyOps next), p.drawn, some next⟩

theorem task_cases (begun : st.task codec opts encode read nowMs work = .ok (some task)) :
    TaskOf codec encode st nowMs task := by
  obtain ⟨found, prepared, made⟩ := Except.bind_eq_ok.mp begun
  cases found with
  | none => cases made
  | some p =>
    have ready := Work.prepare_ready prepared
    dsimp only at made
    split at made
    · cases made
      exact .refused ready
    · rename_i next applied
      cases made
      exact .accepted ready applied

end Task

section Sane

variable {codec encode} {st : Opened Bytes} {nowMs : Nat} {p : Prepared} {next : Manifest} {task : Task Bytes}

theorem log_untouched (ready : p.Ready encode st.nextId) {path : SegmentPath}
    (outside : path.id < st.nextId ∨ st.nextId + p.drawn ≤ path.id) :
    ∀ op ∈ (p.log.map .segment : List (Op Bytes)), ¬op.Touches path := by
  intro op member touches
  obtain ⟨op', inside, rfl⟩ := List.mem_map.mp member
  cases op' with
  | write path' file =>
    cases (show path' = path from touches)
    have := ready.writes _ _ inside
    omega
  | _ => exact touches

theorem publish_untouched {publisher : Publisher} {path : SegmentPath} :
    ∀ op ∈ Publisher.publishOps codec next ++ publisher.tidyOps next, ¬op.Touches path := by
  intro op member touches
  rcases List.mem_append.mp member with member | member
  · simp only [Publisher.publishOps, List.mem_cons, List.not_mem_nil, or_false] at member
    rcases member with rfl | rfl | rfl | rfl
    all_goals exact touches
  · rcases Publisher.mem_tidyOps member with ⟨v, rfl⟩ | ⟨v, rfl⟩
    all_goals exact touches

theorem TaskOf.untouched (made : TaskOf codec encode st nowMs task) {path : SegmentPath}
    (outside : path.id < st.nextId ∨ st.nextId + task.drawn ≤ path.id) : ∀ op ∈ task.ops, ¬op.Touches path := by
  cases made with
  | refused ready => exact log_untouched ready outside
  | accepted ready _ => exact List.forall_mem_append.mpr ⟨log_untouched ready outside, publish_untouched⟩

/-- The segments of an open store are under ids it has drawn. -/
theorem Sane.held_lt (sane : Sane codec encode st) {x : SegmentEntry} (held : st.current.Holds x) : x.id < st.nextId := by
  obtain ⟨file, found, _⟩ := sane.standing.stored x held
  by_contra late
  rw [sane.fresh x.path (Nat.le_of_not_lt late)] at found
  cases found

/-- The manifest stands on any files that keep those there were. -/
theorem Sane.stands (sane : Sane codec encode st) {files : Files}
    (kept : ∀ path, path.id < st.nextId → files path = st.disk.files path) : Standing encode files st.current := by
  refine ⟨sane.standing.built, fun x held => ?_, sane.standing.covered⟩
  obtain ⟨file, found, stored⟩ := sane.standing.stored x held
  exact ⟨file, (kept x.path (sane.held_lt held)).trans found, stored⟩

theorem newIds_small (ready : p.Ready encode st.nextId) (small : st.nextId + p.drawn < 2 ^ 64) {version : Nat} :
    ∀ e ∈ p.edits version, ∀ id ∈ e.newIds, id + 1 < 2 ^ 64 := by
  intro e member id new
  rw [Edit.newIds_eq] at new
  obtain ⟨s, brought, rfl⟩ := List.mem_map.mp new
  obtain ⟨a, added, same⟩ := ready.brings version e member s brought
  have within := ready.drawn a added
  have equal : s.id = a.id := congrArg SegmentPath.id same.path
  omega

/-- The manifest a task publishes stands on files that also hold what the task has placed. -/
theorem Sane.stands_after (sane : Sane codec encode st) (ready : p.Ready encode st.nextId)
    (small : st.nextId + p.drawn < 2 ^ 64)
    (applied : (Commit.mk st.current.version (p.edits (st.current.version + 1))).apply st.current nowMs = .ok next)
    {files : Files} (kept : ∀ path, path.id < st.nextId → files path = st.disk.files path)
    (placed : ∀ s ∈ p.adds, ∃ file, files s.path = some file ∧ Stored encode file s) : Standing encode files next := by
  refine ⟨?_, ?_, ?_⟩
  · refine Manifest.apply_invariant (fun m => ∀ t ∈ m.entries, engineByName t.engine = true) ?_ ?_
      sane.standing.built applied
    · intro e member m m' built applied t inside
      rcases Manifest.applyEdit_remade applied t inside with old | made
      · exact built t old
      · rcases made.engine with ⟨t₀, old, same⟩ | ⟨spec, rfl, same⟩
        · rw [same]
          exact built t₀ old
        · rw [same]
          exact ready.built _ _ member
    · exact fun _ _ built => built
  · intro x held
    rcases Manifest.apply_holds applied held with held | ⟨e, member, s, brought, rfl⟩
    · exact (sane.stands kept).stored x held
    · obtain ⟨a, added, same⟩ := ready.brings _ e member s brought
      obtain ⟨file, found, stored⟩ := placed a added
      refine ⟨file, ?_, (stored.same same).same ⟨rfl, rfl, rfl, rfl⟩⟩
      exact (congrArg files same.path).trans found
  · refine Manifest.apply_invariant Manifest.Covered ?_ ?_ sane.standing.covered applied
    · exact fun e member m m' covered => Manifest.applyEdit_covered (newIds_small ready small e member) covered
    · exact fun m version covered => ⟨covered.below, covered.garbage⟩

theorem load_of_manifest {d d' : Disk Bytes} (same : d'.manifest = d.manifest) : d'.load codec = d.load codec := by
  unfold Disk.load
  rw [same]

/-- A publish cut short has not come to its rename yet, or has just that one behind it. -/
theorem published_shape {publisher : Publisher} {published dropped : List (Op Bytes)}
    (whole : Publisher.publishOps codec next ++ publisher.tidyOps next = published ++ dropped) :
    (.rename ∉ published ∧ .syncRoot ∉ published) ∨
      ∃ more, published = .writeTmp (codec.encode next) :: .syncTmp :: .rename :: more ∧ .rename ∉ more := by
  rw [Publisher.publishOps] at whole
  match published, whole with
  | [], _ => exact .inl ⟨by simp, by simp⟩
  | [a], whole =>
    cases whole
    exact .inl ⟨by simp, by simp⟩
  | [a, b], whole =>
    cases whole
    exact .inl ⟨by simp, by simp⟩
  | a :: b :: c :: more, whole =>
    simp only [List.cons_append, List.nil_append, List.cons.injEq] at whole
    obtain ⟨rfl, rfl, rfl, rest⟩ := whole
    refine .inr ⟨more, rfl, fun member => ?_⟩
    have inside : .rename ∈ .syncRoot :: publisher.tidyOps next := rest ▸ List.mem_append_left _ member
    rcases List.mem_cons.mp inside with same | inside
    · cases same
    · rcases Publisher.mem_tidyOps inside with ⟨v, same⟩ | ⟨v, same⟩
      all_goals cases same

/-- Cut short anywhere, a task leaves the manifest there was or the one it publishes, and either
    stands on the files it leaves. -/
theorem TaskOf.cut (sane : Sane codec encode st) (made : TaskOf codec encode st nowMs task)
    (small : st.nextId + task.drawn < 2 ^ 64) (keeps : ∀ next ∈ task.after, codec.Keeps next)
    {performed left : List (Op Bytes)} (cut : performed <+: task.ops) (crashed : Left performed left) :
    ∃ m, (st.disk.applyAll left).load codec = .ok m ∧ Standing encode (st.disk.applyAll left).files m ∧
      (m = st.current ∨ task.after = some m) ∧ (.syncRoot ∈ performed → task.after = some m) := by
  have kept : ∀ path : SegmentPath, path.id < st.nextId →
      (st.disk.applyAll left).files path = st.disk.files path := by
    intro path old
    exact Disk.crashed_files crashed fun op member => made.untouched (.inl old) op (cut.subset member)
  have early (unnamed : .rename ∉ performed) (unsynced : .syncRoot ∉ performed) :
      ∃ m, (st.disk.applyAll left).load codec = .ok m ∧ Standing encode (st.disk.applyAll left).files m ∧
        (m = st.current ∨ task.after = some m) ∧ (.syncRoot ∈ performed → task.after = some m) :=
    ⟨st.current, (load_of_manifest (Disk.crashed_manifest crashed unnamed)).trans sane.agrees, sane.stands kept, .inl rfl,
      fun synced => absurd synced unsynced⟩
  have silent {log : List FileOp} {op : Op Bytes} (other : ∀ f, op ≠ .segment f) : op ∉ log.map .segment := by
    intro member
    obtain ⟨f, _, same⟩ := List.mem_map.mp member
    exact other f same.symm
  cases made with
  | refused ready =>
    refine early (fun member => silent ?_ (cut.subset member)) (fun member => silent ?_ (cut.subset member))
    all_goals simp
  | @accepted p next ready applied =>
    obtain ⟨dropped, whole⟩ := cut
    rcases List.append_eq_append_iff.mp whole with ⟨rest, inside, _⟩ | ⟨published, rfl, rest⟩
    · have within : performed ⊆ p.log.map .segment := by
        rw [inside]
        exact List.subset_append_left _ _
      refine early (fun member => silent ?_ (within member)) (fun member => silent ?_ (within member))
      all_goals simp
    · obtain ⟨left₁, left₂, rfl, segments, tail⟩ := crashed.append
      have before : (st.disk.applyAll left₁).manifest = st.disk.manifest :=
        Disk.crashed_manifest segments (silent (by simp))
      have placed : ∀ s ∈ p.adds, ∃ file,
          (st.disk.applyAll (left₁ ++ left₂)).files s.path = some file ∧ Stored encode file s := by
        intro s member
        obtain ⟨file, found, stored⟩ := Disk.crashed_placed (d := st.disk) segments (ready.placed s member)
        refine ⟨file, ?_, stored⟩
        rw [Disk.applyAll_append]
        have quiet : ∀ op ∈ published, ¬op.Touches s.path :=
          fun op inside => publish_untouched op (rest ▸ List.mem_append_left _ inside)
        exact (Disk.crashed_files tail quiet).trans found
      have landed (new : (st.disk.applyAll (left₁ ++ left₂)).manifest = some (codec.encode next)) :
          ∃ m, (st.disk.applyAll (left₁ ++ left₂)).load codec = .ok m ∧
            Standing encode (st.disk.applyAll (left₁ ++ left₂)).files m ∧ (m = st.current ∨ some next = some m) ∧
            (.syncRoot ∈ p.log.map .segment ++ published → some next = some m) := by
        refine ⟨next, ?_, sane.stands_after ready small applied kept placed, .inr rfl, fun _ => rfl⟩
        unfold Disk.load
        rw [new]
        exact keeps next rfl
      have start (others : .rename ∉ published) (unsynced : .syncRoot ∉ published) :=
        early (List.not_mem_append (silent (by simp)) others) (List.not_mem_append (silent (by simp)) unsynced)
      rcases published_shape rest with ⟨unnamed, unsynced⟩ | ⟨more, rfl, quiet⟩
      · exact start unnamed unsynced
      · have ended := Disk.crashed_publish (d := st.disk.applyAll left₁) quiet tail
        rw [← Disk.applyAll_append] at ended
        by_cases synced : .syncRoot ∈ more
        · exact landed (ended.2 synced)
        · rcases ended.1 with new | old
          · exact landed new
          · refine ⟨st.current, (load_of_manifest (old.trans before)).trans sane.agrees, sane.stands kept, .inl rfl, ?_⟩
            intro member
            rcases List.mem_append.mp member with member | member
            · exact absurd member (silent (by simp))
            · simp only [List.mem_cons, reduceCtorEq, false_or] at member
              exact absurd member synced

/-- A directory whose manifest stands on its files opens, and only files that the manifest does not
    know of go. -/
theorem open_standing {retain : Nat} {d : Disk Bytes} {m : Manifest} (loaded : d.load codec = .ok m)
    (standing : Standing encode d.files m) :
    ∃ st, open_ codec retain d = .ok st ∧ st.current = m ∧ Sane codec encode st := by
  have engines : (m.tables.forM fun t => ensure (engineByName t.engine)
      (StorageError.manifest (.unknownEngine t.name.display t.engine))) = .ok () :=
    forM_eq_ok.mpr fun t live => ensure_eq_ok.mpr (standing.built t (Manifest.entries_of_table live))
  have opened : open_ codec retain d = .ok
      ⟨⟨⟨retain, false⟩, { d with files := cleanupOrphans m d.files }, m⟩, m.nextSegmentId⟩ := by
    unfold open_
    rw [loaded]
    dsimp only
    rw [engines]
    rfl
  refine ⟨_, opened, rfl, loaded, ⟨standing.built, ?_, standing.covered⟩, ?_⟩
  · intro x held
    obtain ⟨file, found, stored⟩ := standing.stored x held
    exact ⟨file, (if_pos (Manifest.keepsFile_iff.mpr (.inl held.references))).trans found, stored⟩
  · intro path late
    refine if_neg fun keeps => ?_
    have := standing.covered.knows (Manifest.keepsFile_iff.mp keeps)
    dsimp only at late
    omega

theorem Sane.created {retain : Nat} : Sane codec encode ⟨⟨⟨retain, false⟩, Disk.empty, Manifest.empty⟩, 0⟩ := by
  refine ⟨rfl, ⟨?_, ?_, .empty⟩, fun _ _ => rfl⟩
  · intro t inside
    cases inside
  · rintro x ⟨t, inside, _⟩
    cases inside

theorem Sane.after (sane : Sane codec encode st) (made : TaskOf codec encode st nowMs task)
    (small : st.nextId + task.drawn < 2 ^ 64) (keeps : ∀ next ∈ task.after, codec.Keeps next) :
    Sane codec encode (st.after task) := by
  have fresh : ∀ path : SegmentPath, st.nextId + task.drawn ≤ path.id →
      (st.disk.applyAll task.ops).files path = none := by
    intro path late
    refine (Disk.applyAll_files (made.untouched (.inr late))).trans (sane.fresh path ?_)
    omega
  obtain ⟨m, loaded, standing, which, synced⟩ :=
    made.cut sane small keeps (List.prefix_refl task.ops) (Crashed.refl task.ops)
  cases made with
  | refused ready =>
    have same : m = st.current := which.elim id nofun
    rw [same] at loaded standing
    exact ⟨loaded, standing, fresh⟩
  | accepted ready applied =>
    have same := Option.some.inj (synced (by simp [Publisher.publishOps]))
    rw [← same] at loaded standing
    exact ⟨loaded, standing, fresh⟩

/-- Every open store is sane, whatever has happened to it. -/
theorem Reached.sane {opts : StoreOptions} (reached : Reached codec opts encode st) : Sane codec encode st := by
  induction reached with
  | created => exact .created
  | done _ begun small keeps ih => exact ih.after (task_cases begun) small keeps
  | @abandoned st log drawn _ writes ih =>
    have untouched {path : SegmentPath} (outside : path.id < st.nextId ∨ st.nextId + drawn ≤ path.id) :
        (st.disk.applyAll (log.map .segment)).files path = st.disk.files path := by
      apply Disk.applyAll_files
      intro op member touches
      obtain ⟨op', inside, rfl⟩ := List.mem_map.mp member
      cases op' with
      | write path' file =>
        cases (show path' = path from touches)
        have := writes _ _ inside
        omega
      | _ => exact touches
    refine ⟨?_, ih.stands fun path old => untouched (.inl old), ?_⟩
    · refine (load_of_manifest (Disk.applyAll_manifest ?_)).trans ih.agrees
      simp
    · intro path late
      dsimp only at late
      exact (untouched (.inr late)).trans (ih.fresh path (by omega))
  | @collected st path _ unreferenced ih =>
    refine ⟨ih.agrees, ⟨ih.standing.built, ?_, ih.standing.covered⟩, ?_⟩
    · intro x held
      obtain ⟨file, found, stored⟩ := ih.standing.stored x held
      refine ⟨file, (if_neg ?_).trans found, stored⟩
      rintro rfl
      exact Manifest.not_references_iff.mp unreferenced held.references
    · intro path' late
      change (if path' = path then none else st.disk.files path') = none
      split
      · rfl
      · exact ih.fresh path' late
  | crashed _ begun small keeps cut crashed opened ih =>
    obtain ⟨m, loaded, standing, _⟩ := (task_cases begun).cut ih small keeps cut crashed
    obtain ⟨st', opened', _, sane⟩ := open_standing loaded standing
    cases opened.symm.trans opened'
    exact sane

end Sane

/-- Creates a table with one column. -/
def createsTable : Work :=
  .commit [.createTable (.new ⟨"d", "t"⟩ [⟨"a", .bool⟩])] (by simp [Edit.newSegments, Edit.built, TableSpec.new, engineByName])

/-- Flushes one row into it. -/
def flushesRow : Work := .flush [(⟨"d", "t"⟩, [[[.bool true]]])]

/-- A footer for files of one row. -/
def oneRow : SegmentFile → Except StorageError Footer := fun _ => .ok ⟨1, 0, [⟨1, 0, none, none⟩]⟩

end Opened

end Adelie
