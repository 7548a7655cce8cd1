import Adelie.Store.Crash
import Adelie.Store.Publish
import Adelie.Manifest.Covered

namespace Adelie

/-- Only a table of a built engine is created. -/
def Edit.built : Edit → Bool
  | .createTable spec => engineByName spec.engine
  | _ => true

/-- What a store does in one run of file operations. `advance` and `swap` are the two commits of a
    migration step; `commit` stands for everything that writes no segment. -/
inductive Work where
  | flush (inFlight : List (TableName × List Batch))
  | compact (table : TableName)
  | advance (job limit : Nat)
  | swap (job : Nat)
  | commit (edits : List Edit) (plain : ∀ e ∈ edits, e.newSegments = [] ∧ e.built = true)

/-- Segments that are written, and the edits that bring them in at a version. -/
structure Prepared where
  log : List FileOp
  drawn : Nat
  adds : List SegmentEntry
  edits : Nat → List Edit

namespace Work

variable (opts : StoreOptions) (encode : SegmentFile → Except StorageError Footer) (nextId : Nat) (files : Files)

/-- `read` is the manifest a writer starts from, `current` the one it commits to. -/
def prepare (read current : Manifest) : Work → Except StorageError (Option Prepared)
  | .flush inFlight => do
    let st ← flushTables (nextId + ·) encode opts.maxRows read files inFlight
    return some ⟨st.state.log, st.state.drawn, st.state.adds, st.edits⟩
  | .compact table =>
    if (read.jobFor table).isSome then .ok none
    else do
      match ← Adelie.prepare (nextId + ·) encode opts files read table with
      | none => return none
      | some st => return some ⟨st.log, st.drawn, st.adds, fun _ => st.edits table⟩
  | .advance job limit => do
    let loaded ← loadJob read job
    let chosen := loaded.gap.take limit
    if loaded.rewrite then
      let st ← rewriteSegments (nextId + ·) encode opts.maxRows files chosen loaded.source loaded.job.target
      return some ⟨st.log, st.drawn, st.adds, fun _ => [.advanceJob job [] chosen st.adds]⟩
    else return some ⟨[], 0, [], fun _ => [.advanceJob job chosen [] []]⟩
  | .swap job => do
    let loaded ← loadJob current job
    if !loaded.gap.isEmpty && loaded.rewrite then return none
    else return some ⟨[], 0, [], fun _ =>
      (if loaded.gap.isEmpty then [] else [.advanceJob job loaded.gap [] []]) ++ [.swapJob job]⟩
  | .commit edits _ => .ok (some ⟨[], 0, [], fun _ => edits⟩)

end Work

/-- The same file, whatever the seq and the columns a table sees in it. -/
structure SameFile (s a : SegmentEntry) : Prop where
  path : s.path = a.path
  rows : s.rows = a.rows
  bytes : s.bytes = a.bytes
  footerCrc : s.footerCrc = a.footerCrc

theorem Stored.same {encode : SegmentFile → Except StorageError Footer} {file : SegmentFile} {s a : SegmentEntry}
    (stored : Stored encode file a) (same : SameFile s a) : Stored encode file s := by
  obtain ⟨footer, encoded, bytes, crc⟩ := stored.footer
  exact ⟨same.rows.trans stored.rows, footer, encoded, same.bytes.trans bytes, same.footerCrc.trans crc⟩

/-- What is prepared is placed for good under ids of its own, and its edits bring in nothing else. -/
structure Prepared.Ready (encode : SegmentFile → Except StorageError Footer) (nextId : Nat) (p : Prepared) : Prop where
  writes : ∀ path file, .write path file ∈ p.log → nextId ≤ path.id ∧ path.id < nextId + p.drawn
  drawn : ∀ s ∈ p.adds, nextId ≤ s.id ∧ s.id < nextId + p.drawn
  placed : ∀ s ∈ p.adds, Placed encode true p.log s
  brings : ∀ version, ∀ e ∈ p.edits version, ∀ s ∈ e.newSegments, ∃ a ∈ p.adds, SameFile s a
  built : ∀ version, ∀ e ∈ p.edits version, e.built = true

namespace Prepared.Ready

variable {encode : SegmentFile → Except StorageError Footer} {nextId : Nat}

theorem of_brings {files : Files} {st : MergeState} {edits : Nat → List Edit}
    (brings : Brings (nextId + ·) encode true (.start files) st st.adds)
    (only : ∀ version, ∀ e ∈ edits version, ∀ s ∈ e.newSegments, ∃ a ∈ st.adds, SameFile s a)
    (built : ∀ version, ∀ e ∈ edits version, e.built = true) :
    Ready encode nextId ⟨st.log, st.drawn, st.adds, edits⟩ := by
  have within {id : Nat} (drawn : DrawnIn (nextId + ·) 0 st.drawn id) : nextId ≤ id ∧ id < nextId + st.drawn := by
    obtain ⟨k, _, before, rfl⟩ := drawn
    exact ⟨Nat.le_add_right _ _, Nat.add_lt_add_left before _⟩
  obtain ⟨more, grows⟩ := brings.grows
  have log : st.log = more := grows.log
  refine ⟨?_, fun s member => within (brings.drawn s member), brings.placed, only, built⟩
  intro path file member
  dsimp only at member
  rw [log] at member
  exact within (grows.writes path file member)

theorem of_plain {edits : Nat → List Edit}
    (plain : ∀ version, ∀ e ∈ edits version, e.newSegments = [] ∧ e.built = true) :
    Ready encode nextId ⟨[], 0, [], edits⟩ := by
  refine ⟨by simp, by simp, by simp, ?_, fun version e member => (plain version e member).2⟩
  intro version e member s new
  rw [(plain version e member).1] at new
  cases new

end Prepared.Ready

theorem distinct_counter (nextId : Nat) : Function.Injective (nextId + ·) := fun _ _ => Nat.add_left_cancel

/-- Whatever the store prepares is ready to be committed. -/
theorem Work.prepare_ready {opts : StoreOptions} {encode : SegmentFile → Except StorageError Footer} {nextId : Nat}
    {files : Files} {read current : Manifest} {work : Work} {p : Prepared}
    (prepared : work.prepare opts encode nextId files read current = .ok (some p)) : p.Ready encode nextId := by
  have distinct := distinct_counter nextId
  cases work with
  | flush inFlight =>
    obtain ⟨st, ran, made⟩ := Except.bind_eq_ok.mp prepared
    cases made
    obtain ⟨sorted, brings⟩ := flushTables_brings distinct ran
    refine .of_brings brings ?_ ?_
    · intro version e member s new
      obtain ⟨w, inside, rfl⟩ := List.mem_map.mp member
      obtain ⟨a, written, rfl⟩ := List.mem_map.mp new
      refine ⟨a, ?_, rfl, rfl, rfl, rfl⟩
      rw [← sorted]
      exact List.mem_flatMap.mpr ⟨w, inside, written⟩
    · intro version e member
      obtain ⟨w, _, rfl⟩ := List.mem_map.mp member
      rfl
  | compact table =>
    rw [prepare] at prepared
    split at prepared
    · cases prepared
    · obtain ⟨found, ran, made⟩ := Except.bind_eq_ok.mp prepared
      cases found with
      | none => cases made
      | some st =>
        cases made
        have brings : Brings (nextId + ·) encode true (.start files) st st.adds := by
          unfold Adelie.prepare at ran
          split at ran
          · cases ran
          · obtain ⟨_, _, ran⟩ := Except.bind_eq_ok.mp ran
            dsimp only at ran
            split at ran
            · cases ran
            · obtain ⟨st', merged, made⟩ := Except.bind_eq_ok.mp ran
              cases made
              exact mergePlans_brings distinct merged
        refine .of_brings brings ?_ ?_
        · intro version e member s new
          rcases List.mem_cons.mp member with rfl | member
          · cases new
          · rw [List.mem_singleton.mp member] at new
            exact ⟨s, new, rfl, rfl, rfl, rfl⟩
        · intro version e member
          rcases List.mem_cons.mp member with rfl | member
          · rfl
          · rw [List.mem_singleton.mp member]
            rfl
  | advance job limit =>
    obtain ⟨loaded, _, ran⟩ := Except.bind_eq_ok.mp prepared
    dsimp only at ran
    split at ran
    · obtain ⟨st, rewritten, made⟩ := Except.bind_eq_ok.mp ran
      cases made
      refine .of_brings (rewriteSegments_brings distinct rewritten) ?_ ?_
      · intro version e member s new
        rw [List.mem_singleton.mp member] at new
        exact ⟨s, new, rfl, rfl, rfl, rfl⟩
      · intro version e member
        rw [List.mem_singleton.mp member]
        rfl
    · cases ran
      refine .of_plain fun version e member => ?_
      rw [List.mem_singleton.mp member]
      exact ⟨rfl, rfl⟩
  | swap job =>
    obtain ⟨loaded, _, ran⟩ := Except.bind_eq_ok.mp prepared
    split at ran
    · cases ran
    · cases ran
      refine .of_plain fun version e member => ?_
      rcases List.mem_append.mp member with member | member
      · split at member
        · cases member
        · rw [List.mem_singleton.mp member]
          exact ⟨rfl, rfl⟩
      · rw [List.mem_singleton.mp member]
        exact ⟨rfl, rfl⟩
  | commit edits plain =>
    cases prepared
    exact .of_plain fun _ => plain

end Adelie
