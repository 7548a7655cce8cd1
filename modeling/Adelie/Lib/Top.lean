import Mathlib

namespace Adelie

variable {α : Type} (r : α → α → Prop)

/-- Nothing left out could be among the first `k`. -/
def TopOf (k : Nat) (held all : List α) : Prop :=
  ∃ rest, (held ++ rest).Perm all ∧ ∀ x ∈ rest, k ≤ held.length ∧ ∀ h ∈ held, r h x

variable {r} {k : Nat} {held held' all more : List α}

theorem TopOf.whole (l : List α) : TopOf r k l l := ⟨[], by simp, by simp⟩

theorem TopOf.none (l : List α) : TopOf r 0 [] l := ⟨l, List.Perm.refl l, by simp⟩

theorem TopOf.perm (covers : TopOf r k held all) (same : all.Perm more) : TopOf r k held more := by
  obtain ⟨rest, parts, above⟩ := covers
  exact ⟨rest, parts.trans same, above⟩

section Ordered

variable [DecidableRel r] [Std.Total r] [IsTrans α r]

/-- What `k` of the elements stay under, the first `k` of all of them stay under. -/
theorem rel_of_mem_take_insertionSort {few whole : List α} {x top : α} (sub : few.Subperm whole)
    (enough : k ≤ few.length) (below : ∀ h ∈ few, r h top) (member : x ∈ (whole.insertionSort r).take k) :
    r x top := by
  by_contra above
  -- every one of the `k` is strictly below `x`, and a sorted list has fewer than `k` before it
  obtain ⟨before, after, parts⟩ := List.append_of_mem member
  have split : whole.insertionSort r = before ++ x :: (after ++ (whole.insertionSort r).drop k) := by
    conv_lhs => rw [← List.take_append_drop k (whole.insertionSort r), parts]
    simp
  have short : before.length < k := by
    have length := congrArg List.length parts
    rw [List.length_take, List.length_append, List.length_cons] at length
    omega
  have sorted := List.pairwise_insertionSort r whole
  rw [split, List.pairwise_append] at sorted
  have later : ∀ y ∈ x :: (after ++ (whole.insertionSort r).drop k), r x y := by
    intro y member
    rcases List.mem_cons.mp member with rfl | member
    · exact (Std.Total.total (r := r) y y).elim id id
    · exact (List.pairwise_cons.mp sorted.2.1).1 y member
  have none : (x :: (after ++ (whole.insertionSort r).drop k)).countP (fun y => ¬r x y) = 0 := by
    rw [List.countP_eq_zero]
    intro y member
    simp [later y member]
  have all : few.countP (fun y => ¬r x y) = few.length := by
    rw [List.countP_eq_length]
    intro y member
    simp only [decide_eq_true_eq]
    intro le
    exact above (IsTrans.trans _ _ _ le (below y member))
  have count : few.countP (fun y => ¬r x y) ≤ before.length := by
    calc few.countP (fun y => ¬r x y) ≤ whole.countP (fun y => ¬r x y) := sub.countP_le _
      _ = (whole.insertionSort r).countP (fun y => ¬r x y) := ((List.perm_insertionSort r whole).countP_eq _).symm
      _ = before.countP (fun y => ¬r x y) := by rw [split, List.countP_append, none, Nat.add_zero]
      _ ≤ before.length := List.countP_le_length
  omega

theorem TopOf.merge (covers : TopOf r k held all) (covers' : TopOf r k held' more) :
    TopOf r k (((held ++ held').insertionSort r).take k) (all ++ more) := by
  obtain ⟨rest, parts, above⟩ := covers
  obtain ⟨rest', parts', above'⟩ := covers'
  have sorting := List.perm_insertionSort r (held ++ held')
  have length : ((held ++ held').insertionSort r).length = held.length + held'.length := by
    rw [sorting.length_eq, List.length_append]
  refine ⟨((held ++ held').insertionSort r).drop k ++ (rest ++ rest'), ?_, ?_⟩
  · calc ((held ++ held').insertionSort r).take k ++ (((held ++ held').insertionSort r).drop k ++ (rest ++ rest'))
        = (held ++ held').insertionSort r ++ (rest ++ rest') := by rw [← List.append_assoc, List.take_append_drop]
      List.Perm _ ((held ++ held') ++ (rest ++ rest')) := sorting.append_right _
      List.Perm _ ((held ++ rest) ++ (held' ++ rest')) := by
        rw [List.append_assoc, List.append_assoc]
        refine List.Perm.append_left held ?_
        rw [← List.append_assoc, ← List.append_assoc]
        exact List.perm_append_comm.append_right _
      List.Perm _ (all ++ more) := parts.append parts'
  · intro x member
    rw [List.length_take]
    rcases List.mem_append.mp member with later | left
    · have sorted := List.pairwise_insertionSort r (held ++ held')
      rw [← List.take_append_drop k ((held ++ held').insertionSort r), List.pairwise_append] at sorted
      have some := List.length_pos_of_mem later
      rw [List.length_drop] at some
      refine ⟨by omega, fun h inside => sorted.2.2 h inside x later⟩
    · rcases List.mem_append.mp left with left | left
      · obtain ⟨enough, below⟩ := above x left
        refine ⟨by omega, fun h inside => ?_⟩
        exact rel_of_mem_take_insertionSort (List.sublist_append_left _ _).subperm enough below inside
      · obtain ⟨enough, below⟩ := above' x left
        refine ⟨by omega, fun h inside => ?_⟩
        exact rel_of_mem_take_insertionSort (List.sublist_append_right _ _).subperm enough below inside

/-- What covers the first `k` is the first `k` of the whole in order. -/
theorem TopOf.exists_sorted (covers : TopOf r k held all) (sorted : held.Pairwise r) (short : held.length ≤ k) :
    ∃ l : List α, l.Perm all ∧ l.Pairwise r ∧ l.take k = held := by
  obtain ⟨rest, parts, above⟩ := covers
  have sorting := List.perm_insertionSort r rest
  refine ⟨held ++ rest.insertionSort r, (sorting.append_left held).trans parts, ?_, ?_⟩
  · rw [List.pairwise_append]
    refine ⟨sorted, List.pairwise_insertionSort r rest, fun h inside x member => ?_⟩
    exact (above x (sorting.mem_iff.mp member)).2 h inside
  · cases rest with
    | nil => rw [List.insertionSort_nil, List.append_nil, List.take_of_length_le short]
    | cons x rest =>
      have enough := (above x (by simp)).1
      rw [List.take_append_of_le_length enough, List.take_of_length_le short]

end Ordered

section Within

variable {P : α → Prop}

/-- A relation on part of a type, with everything else after that part. -/
def Within (P : α → Prop) (r : α → α → Prop) (a b : α) : Prop := P b → P a ∧ r a b

theorem Within.total (total : ∀ a b, P a → P b → r a b ∨ r b a) : Std.Total (Within P r) where
  total := by
    intro a b
    by_cases left : P a
    · by_cases right : P b
      · rcases total a b left right with le | le
        · exact Or.inl fun _ => ⟨left, le⟩
        · exact Or.inr fun _ => ⟨right, le⟩
      · exact Or.inl fun inside => absurd inside right
    · exact Or.inr fun inside => absurd inside left

theorem Within.trans (trans : ∀ a b c, P a → P b → P c → r a b → r b c → r a c) : IsTrans α (Within P r) where
  trans := by
    intro a b c below above inside
    obtain ⟨middle, le⟩ := above inside
    obtain ⟨first, le'⟩ := below middle
    exact ⟨first, trans a b c first middle inside le' le⟩

theorem insertionSort_within [DecidableRel r] [DecidableRel (Within P r)] {l : List α} (inside : ∀ x ∈ l, P x) :
    l.insertionSort r = l.insertionSort (Within P r) := by
  have mapped := List.map_insertionSort (r := r) (s := Within P r) id l
    (fun a left b right => ⟨fun le _ => ⟨inside a left, le⟩, fun le => (le (inside b right)).2⟩)
  simpa using mapped

theorem pairwise_of_within {l : List α} (inside : ∀ x ∈ l, P x) (sorted : l.Pairwise (Within P r)) : l.Pairwise r :=
  sorted.imp_of_mem fun _ right le => (le (inside _ right)).2

end Within

end Adelie
