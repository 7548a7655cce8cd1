import Adelie.Manifest.Lineage
import Adelie.Manifest.Remade

namespace Adelie

/-- Where the tables of a run come from. `root` is the table a line of definitions began with, `heir`
    the table that took another's place at its last swap, and `home` the root of the line a segment was
    written for. A column is told by its id and the definition it was `born` with; `written` is the
    schema a segment was written on, and `stamp` where the columns of that schema were born. -/
structure Ancestry where
  root : Nat → Nat
  heir : Nat → Option Nat
  home : Nat → Option Nat
  written : Nat → List SchemaField
  born : Nat → Nat → Nat
  stamp : Nat → Nat → Nat

namespace Ancestry

def empty : Ancestry := ⟨id, fun _ => none, fun _ => none, fun _ => [], fun _ _ => 0, fun _ _ => 0⟩

def settle (a : Ancestry) (t : TableEntry) (segments : List SegmentEntry) : Ancestry :=
  { a with
    home := fun id => if id ∈ segments.map (·.id) then some (a.root t.id) else a.home id
    written := fun id => if id ∈ segments.map (·.id) then t.schema else a.written id
    stamp := fun id => if id ∈ segments.map (·.id) then a.born t.id else a.stamp id }

/-- What an accepted edit adds to the ancestry: nothing the code computes with. -/
def mark (a : Ancestry) (m : Manifest) : Edit → Ancestry
  | .createTable _ =>
    { a with
      root := Function.update a.root m.nextTableId m.nextTableId
      born := Function.update a.born m.nextTableId fun _ => m.nextTableId }
  | .createJob table _ =>
    match m.table table with
    | some t =>
      { a with
        root := Function.update a.root m.nextTableId (a.root t.id)
        born := Function.update a.born m.nextTableId fun id =>
          if id ∈ t.schemaIds then a.born t.id id else m.nextTableId }
    | none => a
  | .addSegments table segments =>
    match m.table table with
    | some t => a.settle t segments
    | none => a
  | .advanceJob job _ _ segments =>
    match m.job job with
    | some j => a.settle j.target segments
    | none => a
  | .swapJob job =>
    match m.job job with
    | some j => { a with heir := Function.update a.heir j.source (some j.target.id) }
    | none => a
  | _ => a

end Ancestry

/-- A manifest and the ancestry of its tables. -/
structure Tracked where
  manifest : Manifest
  past : Ancestry

namespace Tracked

open Manifest

def empty : Tracked := ⟨Manifest.empty, Ancestry.empty⟩

def applyEdit (version nowMs : Nat) (s : Tracked) (e : Edit) : Except Error Tracked :=
  (s.manifest.applyEdit version nowMs e).map fun m' => ⟨m', s.past.mark s.manifest e⟩

def apply (c : Commit) (s : Tracked) (nowMs : Nat) : Except Error Tracked := do
  let next ← c.edits.foldlM (applyEdit (s.manifest.version + 1) nowMs) s
  return { next with manifest := { next.manifest with version := s.manifest.version + 1 } }

def advance (s : Tracked) (c : Timed) : Tracked :=
  match apply c.1 s c.2 with
  | .ok s' => s'
  | .error _ => s

/-- Every edit of every commit meets `P` in the state it is applied to. -/
def Admits (P : Tracked → Edit → Prop) (s : Tracked) : List Timed → Prop
  | [] => True
  | c :: rest => Supplied (applyEdit (s.manifest.version + 1) c.2) P s c.1.edits ∧ Admits P (s.advance c) rest

instance decidableAdmits {P : Tracked → Edit → Prop} [∀ s e, Decidable (P s e)] (s : Tracked) (commits : List Timed) :
    Decidable (Admits P s commits) :=
  match commits with
  | [] => isTrue True.intro
  | c :: rest =>
    have := decidableAdmits (P := P) (s.advance c) rest
    inferInstanceAs (Decidable (Supplied _ P s c.1.edits ∧ Admits P (s.advance c) rest))

variable {s s' : Tracked} {version nowMs : Nat} {e : Edit}

theorem applyEdit_eq_ok (applied : s.applyEdit version nowMs e = .ok s') :
    s.manifest.applyEdit version nowMs e = .ok s'.manifest ∧ s'.past = s.past.mark s.manifest e := by
  unfold applyEdit at applied
  cases made : s.manifest.applyEdit version nowMs e with
  | error e => simp [made, Except.map] at applied
  | ok m' =>
    rw [made] at applied
    cases applied
    exact ⟨rfl, rfl⟩

theorem foldlM_manifest (edits : List Edit) (s : Tracked) :
    (edits.foldlM (applyEdit version nowMs) s).map (·.manifest) =
      edits.foldlM (Manifest.applyEdit version nowMs) s.manifest := by
  induction edits generalizing s with
  | nil => rfl
  | cons e rest ih =>
    rw [List.foldlM_cons, List.foldlM_cons, applyEdit]
    cases s.manifest.applyEdit version nowMs e with
    | error e => rfl
    | ok m' => exact ih ⟨m', s.past.mark s.manifest e⟩

/-- The ancestry only watches: under it a commit does what it does to the manifest alone. -/
theorem apply_manifest (c : Commit) (s : Tracked) (nowMs : Nat) :
    (s.apply c nowMs).map (·.manifest) = c.apply s.manifest nowMs := by
  unfold apply Commit.apply
  rw [← foldlM_manifest]
  cases c.edits.foldlM (applyEdit (s.manifest.version + 1) nowMs) s <;> rfl

theorem advance_manifest (s : Tracked) (c : Timed) : (s.advance c).manifest = s.manifest.advance c := by
  have same := apply_manifest c.1 s c.2
  unfold advance Manifest.advance
  rw [← same]
  cases s.apply c.1 c.2 <;> rfl

section Invariant

variable {P Q : Tracked → Edit → Prop} (Inv : Tracked → Prop)
  (keeps : ∀ version nowMs s e s', P s e → Inv s → s.applyEdit version nowMs e = .ok s' → Inv s')
  (versionless : ∀ m past version, Inv ⟨m, past⟩ → Inv ⟨{ m with version := version }, past⟩)

include keeps versionless

/-- What every edit keeps, and the new version number does not touch, a commit keeps. -/
theorem advance_invariant {s : Tracked} {c : Timed}
    (supplied : Supplied (applyEdit (s.manifest.version + 1) c.2) P s c.1.edits) (holds : Inv s) : Inv (s.advance c) := by
  unfold advance
  cases applied : s.apply c.1 c.2 with
  | error e => exact holds
  | ok s' =>
    obtain ⟨next, ran, made⟩ := Except.bind_eq_ok.mp applied
    cases made
    exact versionless _ _ _ (batch_invariant Inv (keeps _ _) supplied holds ran)

theorem run_invariant {commits : List Timed} {s : Tracked} (admits : Admits P s commits) (holds : Inv s) :
    Inv (commits.foldl advance s) := by
  induction commits generalizing s with
  | nil => exact holds
  | cons c rest ih => exact ih admits.2 (advance_invariant Inv keeps versionless admits.1 holds)

theorem Admits.of_invariant (gives : ∀ s e, P s e → Inv s → Q s e) {commits : List Timed} {s : Tracked} (holds : Inv s)
    (admits : Admits P s commits) : Admits Q s commits := by
  induction commits generalizing s with
  | nil => exact True.intro
  | cons c rest ih =>
    exact ⟨admits.1.of_invariant Inv (keeps _ _) gives holds,
      ih (advance_invariant Inv keeps versionless admits.1 holds) admits.2⟩

end Invariant

end Tracked

end Adelie
