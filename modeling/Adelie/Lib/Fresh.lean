import Mathlib.Data.List.Count
import Mathlib.Data.List.Forall2

namespace Adelie

/-- Ids in order, each missing one (`0`) taken from a counter that then moves on. -/
def fillMissing : Nat → List Nat → List Nat
  | _, [] => []
  | next, 0 :: ids => next :: fillMissing (next + 1) ids
  | next, (id + 1) :: ids => (id + 1) :: fillMissing next ids

/-- The least counter past every id and never `0`. -/
def firstFresh (next : Nat) (ids : List Nat) : Nat := max (max next ((ids.max?.getD 0) + 1)) 1

section Fill

variable {next id : Nat} {ids : List Nat}

theorem lt_firstFresh (member : id ∈ ids) : id < firstFresh next ids := by
  have bound : id ≤ ids.max?.getD 0 := by
    cases most : ids.max? with
    | none => simp [List.max?_eq_none_iff.mp most] at member
    | some m => exact (List.max?_eq_some_iff.mp most).2 id member
  unfold firstFresh
  omega

theorem le_firstFresh : next ≤ firstFresh next ids := by
  unfold firstFresh
  omega

theorem firstFresh_pos : 0 < firstFresh next ids := by
  unfold firstFresh
  omega

/-- A counter already past every id stays. -/
theorem firstFresh_eq (pos : 0 < next) (below : ∀ id ∈ ids, id < next) : firstFresh next ids = next := by
  have bound : (ids.max?.getD 0) + 1 ≤ next := by
    cases most : ids.max? with
    | none => exact pos
    | some m => exact below m (List.max?_eq_some_iff.mp most).1
  unfold firstFresh
  omega

/-- Every id kept, and every missing one given. -/
theorem fillMissing_keeps : List.Forall₂ (fun old new => old ≠ 0 → new = old) ids (fillMissing next ids) := by
  induction ids generalizing next with
  | nil => exact .nil
  | cons id ids ih =>
    cases id with
    | zero => exact .cons (fun given => absurd rfl given) ih
    | succ id => exact .cons (fun _ => rfl) ih

theorem fillMissing_eq (given : ∀ id ∈ ids, id ≠ 0) : fillMissing next ids = ids := by
  induction ids with
  | nil => rfl
  | cons id ids ih =>
    cases id with
    | zero => exact absurd rfl (given 0 List.mem_cons_self)
    | succ id => rw [fillMissing, ih fun id member => given id (List.mem_cons_of_mem _ member)]

/-- A filled list holds what was there and the ids drawn. -/
theorem mem_fillMissing (member : id ∈ fillMissing next ids) :
    id ∈ ids ∧ id ≠ 0 ∨ next ≤ id ∧ id < next + ids.count 0 := by
  induction ids generalizing next with
  | nil => cases member
  | cons first ids ih =>
    cases first with
    | zero =>
      rw [List.count_cons_self]
      rcases List.mem_cons.mp member with rfl | later
      · right
        omega
      · rcases ih later with ⟨kept, given⟩ | drawn
        · exact .inl ⟨List.mem_cons_of_mem _ kept, given⟩
        · right
          omega
    | succ first =>
      rw [List.count_cons_of_ne (by simp)]
      rcases List.mem_cons.mp member with rfl | later
      · exact .inl ⟨List.mem_cons_self, by simp⟩
      · exact (ih later).imp_left fun kept => ⟨List.mem_cons_of_mem _ kept.1, kept.2⟩

theorem fillMissing_ne_zero (pos : 0 < next) (member : id ∈ fillMissing next ids) : id ≠ 0 := by
  rcases mem_fillMissing member with ⟨_, given⟩ | ⟨drawn, _⟩
  · exact given
  · omega

theorem fillMissing_lt (below : ∀ id ∈ ids, id < next) (member : id ∈ fillMissing next ids) : id < next + ids.count 0 := by
  rcases mem_fillMissing member with ⟨kept, _⟩ | ⟨_, drawn⟩
  · exact Nat.lt_of_lt_of_le (below id kept) (Nat.le_add_right _ _)
  · exact drawn

/-- Ids drawn from a counter past every id of the list, later ones included, meet none of them. -/
theorem fillMissing_nodup (below : ∀ id ∈ ids, id < next) (apart : (ids.filter (· ≠ 0)).Nodup) : (fillMissing next ids).Nodup := by
  induction ids generalizing next with
  | nil => exact .nil
  | cons first ids ih =>
    have after : ∀ id ∈ ids, id < next := fun id member => below id (List.mem_cons_of_mem _ member)
    cases first with
    | zero =>
      rw [List.filter_cons_of_neg (by simp)] at apart
      refine List.nodup_cons.mpr ⟨fun again => ?_, ih (fun id member => Nat.lt_succ_of_lt (after id member)) apart⟩
      rcases mem_fillMissing again with ⟨kept, _⟩ | ⟨drawn, _⟩
      · exact absurd (after next kept) (Nat.lt_irrefl _)
      · omega
    | succ first =>
      rw [List.filter_cons_of_pos (by simp)] at apart
      obtain ⟨new, apart⟩ := List.nodup_cons.mp apart
      refine List.nodup_cons.mpr ⟨fun again => ?_, ih after apart⟩
      rcases mem_fillMissing again with ⟨kept, given⟩ | ⟨drawn, _⟩
      · exact new (List.mem_filter.mpr ⟨kept, by simp⟩)
      · have := below (first + 1) List.mem_cons_self
        omega

end Fill

/-- An id read from what carries it, and set there. -/
structure IdLens {α : Type*} (id : α → Nat) (set : α → Nat → α) : Prop where
  get_set : ∀ x n, id (set x n) = n
  set_get : ∀ x, set x (id x) = x

section IdLens

variable {α : Type*} {id : α → Nat} {set : α → Nat → α} (lens : IdLens id set)
include lens

theorem map_zipWith_set {items : List α} {ids : List Nat} (lengths : items.length = ids.length) :
    (List.zipWith set items ids).map id = ids := by
  induction items generalizing ids with
  | nil =>
    cases ids with
    | nil => rfl
    | cons n ids => cases lengths
  | cons x items ih =>
    cases ids with
    | nil => cases lengths
    | cons n ids => rw [List.zipWith_cons_cons, List.map_cons, lens.get_set, ih (Nat.succ.inj lengths)]

/-- What carries an id has it set and nothing else; one it had stays. -/
theorem zipWith_set_keeps {items : List α} {ids : List Nat}
    (keeps : List.Forall₂ (fun old new => old ≠ 0 → new = old) (items.map id) ids) :
    List.Forall₂ (fun x y => y = set x (id y) ∧ (id x ≠ 0 → id y = id x)) items (List.zipWith set items ids) := by
  induction items generalizing ids with
  | nil =>
    cases keeps
    exact .nil
  | cons x items ih =>
    cases keeps with
    | cons kept later =>
      rw [List.zipWith_cons_cons]
      apply List.Forall₂.cons _ (ih later)
      rw [lens.get_set]
      exact ⟨rfl, kept⟩

end IdLens

end Adelie
