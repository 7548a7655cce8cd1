import Adelie.Lib.Run
import Adelie.Manifest.Inversion

namespace Adelie.Manifest

/-- No edit touches the version, and no counter goes back. -/
structure Counters (m m' : Manifest) : Prop where
  version : m'.version = m.version
  segments : m.nextSegmentId ≤ m'.nextSegmentId
  tables : m.nextTableId ≤ m'.nextTableId
  jobs : m.nextJobId ≤ m'.nextJobId

theorem Counters.same {m m' : Manifest} (version : m'.version = m.version)
    (segments : m'.nextSegmentId = m.nextSegmentId) (tables : m'.nextTableId = m.nextTableId)
    (jobs : m'.nextJobId = m.nextJobId) : Counters m m' := ⟨version, segments.ge, tables.ge, jobs.ge⟩

theorem le_coverSegmentIds (next : Nat) (segments : List SegmentEntry) : next ≤ coverSegmentIds next segments := by
  unfold coverSegmentIds
  split
  · exact Nat.le_max_left _ _
  · exact Nat.le_refl _

theorem applyEdit_counters {version nowMs : Nat} {m m' : Manifest} {e : Edit}
    (applied : applyEdit version nowMs m e = .ok m') : Counters m m' := by
  cases e with
  | createTable spec =>
    obtain ⟨_, _, rfl⟩ := createTable_eq_ok applied
    exact ⟨rfl, Nat.le_refl _, Nat.le_succ _, Nat.le_refl _⟩
  | addSegments table segments =>
    obtain ⟨_, _, _, _, rfl⟩ := addSegments_eq_ok applied
    exact ⟨rfl, le_coverSegmentIds _ _, Nat.le_refl _, Nat.le_refl _⟩
  | removeSegments table ids =>
    obtain ⟨_, _, _, _, _, rfl⟩ := removeSegments_eq_ok applied
    rw [release_frame]
    exact .same rfl rfl rfl rfl
  | addTombstone table predicates => obtain ⟨_, _, _, _, _, rfl⟩ := addTombstone_eq_ok applied; exact .same rfl rfl rfl rfl
  | forgetGarbage ids => cases applied; exact .same rfl rfl rfl rfl
  | reserveSegmentIds next => cases applied; exact ⟨rfl, Nat.le_max_left _ _, Nat.le_refl _, Nat.le_refl _⟩
  | createJob table ops =>
    obtain ⟨_, _, _, _, _, _, rfl⟩ := createJob_eq_ok applied
    exact ⟨rfl, Nat.le_refl _, Nat.le_succ _, Nat.le_succ _⟩
  | advanceJob job reused rewritten segments =>
    obtain ⟨_, _, _, _, _, _, _, _, _, _, rfl⟩ := advanceJob_eq_ok applied
    exact ⟨rfl, le_coverSegmentIds _ _, Nat.le_refl _, Nat.le_refl _⟩
  | swapJob job => obtain ⟨_, _, _, _, _, _, _, _, _, _, rfl⟩ := swapJob_eq_ok applied; exact .same rfl rfl rfl rfl
  | cancelJob job =>
    obtain ⟨_, _, _, rfl⟩ := cancelJob_eq_ok applied
    rw [release_frame]
    exact .same rfl rfl rfl rfl
  | revertTable table => obtain ⟨_, _, _, _, _, _, _, _, _, _, _, _, rfl⟩ := revertTable_eq_ok applied; exact .same rfl rfl rfl rfl
  | dropTable table => obtain ⟨_, _, _, _, rfl⟩ := dropTable_eq_ok applied; exact .same rfl rfl rfl rfl
  | undropTable table => obtain ⟨_, _, _, _, _, _, rfl⟩ := undropTable_eq_ok applied; exact .same rfl rfl rfl rfl
  | truncateTable table =>
    obtain ⟨_, _, _, _, rfl⟩ := truncateTable_eq_ok applied
    rw [release_frame]
    exact .same rfl rfl rfl rfl
  | expireRetired beforeMs =>
    cases applied
    rw [expireRetired_frame]
    exact .same rfl rfl rfl rfl
  | recordMigration name checksum => cases recordMigration_eq_ok applied; exact .same rfl rfl rfl rfl

/-- A commit and the clock it is applied at. -/
abbrev Timed := Commit × Nat

/-- A refused commit leaves the manifest as it was. -/
def advance (m : Manifest) (c : Timed) : Manifest :=
  match c.1.apply m c.2 with
  | .ok m' => m'
  | .error _ => m

def run (m : Manifest) (commits : List Timed) : Manifest := commits.foldl advance m

/-- Every edit an accepted commit of the run applied, with the manifest it led to. -/
def trace (m : Manifest) : List Timed → List (Edit × Manifest)
  | [] => []
  | c :: rest =>
    (match c.1.apply m c.2 with
      | .ok _ => visited (applyEdit (m.version + 1) c.2) m c.1.edits
      | .error _ => []) ++ trace (m.advance c) rest

/-- Every edit of every commit meets `P` in the manifest it is applied to. -/
def Admits (P : Manifest → Edit → Prop) (m : Manifest) : List Timed → Prop
  | [] => True
  | c :: rest => Supplied (applyEdit (m.version + 1) c.2) P m c.1.edits ∧ Admits P (m.advance c) rest

variable {P : Manifest → Edit → Prop}

instance decidableAdmits [∀ m e, Decidable (P m e)] (m : Manifest) (commits : List Timed) :
    Decidable (Admits P m commits) :=
  match commits with
  | [] => isTrue True.intro
  | c :: rest =>
    have := decidableAdmits (m.advance c) rest
    inferInstanceAs (Decidable (Supplied _ P m c.1.edits ∧ Admits P (m.advance c) rest))

theorem Admits.mono {Q : Manifest → Edit → Prop} (weaker : ∀ m e, P m e → Q m e) {m : Manifest}
    {commits : List Timed} (admits : Admits P m commits) : Admits Q m commits := by
  induction commits generalizing m with
  | nil => exact True.intro
  | cons c rest ih => exact ⟨admits.1.mono weaker, ih admits.2⟩

/-- What every edit keeps, and the new version number does not touch, every run keeps. -/
theorem run_trace_invariant (Inv : List (Edit × Manifest) → Manifest → Prop)
    (keeps : ∀ version nowMs trace m e m', P m e → Inv trace m → applyEdit version nowMs m e = .ok m' →
      Inv (trace ++ [(e, m')]) m')
    (versionless : ∀ trace m version, Inv trace m → Inv trace { m with version := version })
    (past : List (Edit × Manifest)) {m : Manifest} {commits : List Timed} (admits : Admits P m commits)
    (holds : Inv past m) : Inv (past ++ trace m commits) (run m commits) := by
  induction commits generalizing m past with
  | nil => simpa [trace, run] using holds
  | cons c rest ih =>
    have tail := ih (past ++ (match c.1.apply m c.2 with
      | .ok _ => visited (applyEdit (m.version + 1) c.2) m c.1.edits
      | .error _ => [])) admits.2
    rw [List.append_assoc] at tail
    apply tail
    cases applied : c.1.apply m c.2 with
    | error e => simpa [advance, applied] using holds
    | ok m' =>
      obtain ⟨next, ran, made⟩ := Except.bind_eq_ok.mp applied
      cases made
      simp only [advance, applied]
      exact versionless _ _ _
        (batch_trace_invariant Inv (keeps (m.version + 1) c.2) past admits.1 holds ran)

theorem run_invariant (Inv : Manifest → Prop)
    (keeps : ∀ version nowMs m e m', P m e → Inv m → applyEdit version nowMs m e = .ok m' → Inv m')
    (versionless : ∀ m version, Inv m → Inv { m with version := version })
    {m : Manifest} {commits : List Timed} (admits : Admits P m commits) (holds : Inv m) :
    Inv (run m commits) :=
  run_trace_invariant (fun _ => Inv) (fun version nowMs _ => keeps version nowMs)
    (fun _ => versionless) [] admits holds

/-- An invariant of the manifests between commits, through one that holds inside each of them. -/
theorem run_staged_invariant (Inv During : Manifest → Prop) (opens : ∀ m, Inv m → During m)
    (keeps : ∀ nowMs m e m', P m e → During m → applyEdit (m.version + 1) nowMs m e = .ok m' → During m')
    (closes : ∀ m, During m → Inv { m with version := m.version + 1 })
    {m : Manifest} {commits : List Timed} (admits : Admits P m commits) (holds : Inv m) :
    Inv (run m commits) := by
  induction commits generalizing m with
  | nil => exact holds
  | cons c rest ih =>
    refine ih admits.2 ?_
    cases applied : c.1.apply m c.2 with
    | error e => simpa [advance, applied] using holds
    | ok m' =>
      obtain ⟨next, ran, made⟩ := Except.bind_eq_ok.mp applied
      cases made
      simp only [advance, applied]
      have inside := batch_invariant (fun s => s.version = m.version ∧ During s) ?_ admits.1
        ⟨rfl, opens m holds⟩ ran
      · rw [← inside.1]
        exact closes next inside.2
      · rintro s e s' supplied ⟨same, during⟩ stepped
        refine ⟨(applyEdit_counters stepped).version.trans same, ?_⟩
        rw [← same] at stepped
        exact keeps c.2 s e s' supplied during stepped

/-- What each of its edits keeps, an accepted commit keeps. -/
theorem apply_invariant (Inv : Manifest → Prop) {c : Commit} {m m' : Manifest} {nowMs : Nat}
    (keeps : ∀ e ∈ c.edits, ∀ s s', Inv s → applyEdit (m.version + 1) nowMs s e = .ok s' → Inv s')
    (versionless : ∀ s version, Inv s → Inv { s with version := version }) (holds : Inv m)
    (applied : c.apply m nowMs = .ok m') : Inv m' := by
  obtain ⟨next, ran, made⟩ := Except.bind_eq_ok.mp applied
  cases made
  refine versionless _ _ ?_
  clear applied
  generalize m.version + 1 = version at keeps ran
  obtain ⟨base, edits⟩ := c
  induction edits generalizing m with
  | nil =>
    cases ran
    exact holds
  | cons e rest ih =>
    rw [List.foldlM_cons] at ran
    obtain ⟨mid, head, tail⟩ := Except.bind_eq_ok.mp ran
    exact ih (keeps e (.head _) _ _ holds head) (fun e' member => keeps e' (.tail _ member)) tail

theorem run_append (m : Manifest) (first second : List Timed) :
    run m (first ++ second) = run (run m first) second := List.foldl_append

theorem admits_append {m : Manifest} {first second : List Timed} :
    Admits P m (first ++ second) ↔ Admits P m first ∧ Admits P (run m first) second := by
  induction first generalizing m with
  | nil => simp [Admits, run]
  | cons c rest ih => simp [Admits, ih, run, and_assoc]

end Adelie.Manifest
