import Mathlib

namespace Adelie

/-- One element of a list with what stands on each side of it. -/
structure Located (α : Type) where
  before : List α
  found : α
  after : List α

namespace Located

variable {α : Type}

def removed (s : Located α) : List α := s.before ++ s.after
def replaced (s : Located α) (x : α) : List α := s.before ++ x :: s.after

end Located

variable {α : Type}

/-- The first element a test accepts, as `iter().position` finds it. -/
def position (p : α → Bool) : List α → Option (Located α)
  | [] => none
  | x :: xs =>
    if p x then some ⟨[], x, xs⟩
    else (position p xs).map fun s => ⟨x :: s.before, s.found, s.after⟩

/-- The last one, as `rposition` finds it. -/
def rposition (p : α → Bool) (l : List α) : Option (Located α) :=
  (position p l.reverse).map fun s => ⟨s.after.reverse, s.found, s.before.reverse⟩

theorem position_eq_some {p : α → Bool} {l : List α} {s : Located α} (at_ : position p l = some s) :
    l = s.replaced s.found ∧ p s.found ∧ ∀ x ∈ s.before, p x = false := by
  induction l generalizing s with
  | nil => cases at_
  | cons x xs ih =>
    unfold position at at_
    split at at_
    · rename_i accepted
      cases at_
      exact ⟨rfl, accepted, nofun⟩
    · rename_i refused
      obtain ⟨rest, found, rfl⟩ := Option.map_eq_some_iff.mp at_
      obtain ⟨same, accepted, earlier⟩ := ih found
      refine ⟨by rw [same]; rfl, accepted, ?_⟩
      intro y member
      rcases List.mem_cons.mp member with rfl | member
      · simpa using refused
      · exact earlier y member

theorem find?_of_position {p : α → Bool} {l : List α} {s : Located α} (at_ : position p l = some s) :
    l.find? p = some s.found := by
  obtain ⟨whole, accepted, earlier⟩ := position_eq_some at_
  rw [whole, Located.replaced, List.find?_append, List.find?_eq_none.mpr (by simpa using earlier)]
  simp [accepted]

theorem position_eq_none {p : α → Bool} {l : List α} (missing : position p l = none) :
    ∀ x ∈ l, p x = false := by
  induction l with
  | nil => nofun
  | cons x xs ih =>
    unfold position at missing
    split at missing
    · cases missing
    · rename_i refused
      intro y member
      rcases List.mem_cons.mp member with rfl | member
      · simpa using refused
      · exact ih (Option.map_eq_none_iff.mp missing) y member

theorem rposition_eq_some {p : α → Bool} {l : List α} {s : Located α} (at_ : rposition p l = some s) :
    l = s.replaced s.found ∧ p s.found ∧ ∀ x ∈ s.after, p x = false := by
  obtain ⟨r, found, rfl⟩ := Option.map_eq_some_iff.mp at_
  obtain ⟨same, accepted, earlier⟩ := position_eq_some found
  refine ⟨?_, accepted, fun x member => earlier x (List.mem_reverse.mp member)⟩
  have flipped := congrArg List.reverse same
  simpa [Located.replaced] using flipped

theorem rposition_eq_none {p : α → Bool} {l : List α} (missing : rposition p l = none) :
    ∀ x ∈ l, p x = false := by
  intro x member
  exact position_eq_none (Option.map_eq_none_iff.mp missing) x (List.mem_reverse.mpr member)

namespace Located

@[simp] theorem mem_replaced {s : Located α} {x y : α} :
    y ∈ s.replaced x ↔ y = x ∨ y ∈ s.removed := by
  simp only [replaced, removed, List.mem_append, List.mem_cons]
  tauto

theorem replaced_perm (s : Located α) (x : α) : (s.replaced x).Perm (x :: s.removed) :=
  List.perm_middle

theorem removed_sublist (s : Located α) (x : α) : s.removed.Sublist (s.replaced x) :=
  List.Sublist.append_left (List.sublist_cons_self x s.after) s.before

variable {κ : Type} [LinearOrder κ] {key : α → κ}

/-- In a list strictly ascending by key, an element shares its key with no other. -/
theorem key_ne_of_sorted {s : Located α} {x : α} (sorted : (s.replaced x).Pairwise (key · < key ·)) :
    ∀ y ∈ s.removed, key y ≠ key x := by
  intro y member
  obtain ⟨_, rest, across⟩ := List.pairwise_append.mp sorted
  rcases List.mem_append.mp member with earlier | later
  · exact (across y earlier x (.head _)).ne
  · exact ((List.pairwise_cons.mp rest).1 y later).ne'

/-- An element under the same key keeps the order of its list. -/
theorem replaced_sorted {s : Located α} {x y : α} (same : key y = key x)
    (sorted : (s.replaced x).Pairwise (key · < key ·)) : (s.replaced y).Pairwise (key · < key ·) := by
  obtain ⟨earlier, rest, across⟩ := List.pairwise_append.mp sorted
  obtain ⟨head, later⟩ := List.pairwise_cons.mp rest
  refine List.pairwise_append.mpr ⟨earlier, List.pairwise_cons.mpr ⟨?_, later⟩, ?_⟩
  · intro z member
    exact same ▸ head z member
  · intro z inside w member
    rcases List.mem_cons.mp member with rfl | member
    · exact same ▸ across z inside x (.head _)
    · exact across z inside w (.tail _ member)

end Located

end Adelie
