import Mathlib

namespace Adelie

variable {α : Type} {r : α → α → Prop} [DecidableRel r]

/-- Two lists merged, the left one first where they tie. -/
def stableMerge (r : α → α → Prop) [DecidableRel r] (xs ys : List α) : List α := xs.merge ys fun a b => decide (r a b)

@[simp] theorem stableMerge_nil_left (ys : List α) : stableMerge r [] ys = ys := by simp [stableMerge]
@[simp] theorem stableMerge_nil_right (xs : List α) : stableMerge r xs [] = xs := by simp [stableMerge]

theorem stableMerge_cons_cons (x y : α) (xs ys : List α) : stableMerge r (x :: xs) (y :: ys) =
    if r x y then x :: stableMerge r xs (y :: ys) else y :: stableMerge r (x :: xs) ys := by
  simp [stableMerge, List.cons_merge_cons]

theorem perm_stableMerge (xs ys : List α) : (stableMerge r xs ys).Perm (xs ++ ys) := List.merge_perm_append _

/-- An element put into a merge is put into its left side. -/
theorem orderedInsert_stableMerge [Std.Total r] [IsTrans α r] (a : α) (xs ys : List α) :
    (stableMerge r xs ys).orderedInsert r a = stableMerge r (xs.orderedInsert r a) ys := by
  induction xs generalizing ys with
  | nil =>
    induction ys with
    | nil => simp
    | cons y ys ih =>
      rw [stableMerge_nil_left, List.orderedInsert_cons, List.orderedInsert_nil, stableMerge_cons_cons]
      split
      · rw [stableMerge_nil_left]
      · rw [stableMerge_nil_left, List.orderedInsert_nil] at ih
        rw [ih]
  | cons x xs ihx =>
    induction ys with
    | nil => simp
    | cons y ys ihy =>
      by_cases first : r x y
      · rw [stableMerge_cons_cons, if_pos first, List.orderedInsert_cons, List.orderedInsert_cons]
        by_cases before : r a x
        · rw [if_pos before, if_pos before, stableMerge_cons_cons, if_pos (IsTrans.trans a x y before first),
            stableMerge_cons_cons, if_pos first]
        · rw [if_neg before, if_neg before, stableMerge_cons_cons, if_pos first, ihx]
      · rw [stableMerge_cons_cons, if_neg first, List.orderedInsert_cons]
        by_cases before : r a y
        · -- what comes before the right head comes before the left one too
          have left : r a x := IsTrans.trans a y x before ((Std.Total.total x y).resolve_left first)
          rw [if_pos before, List.orderedInsert_cons, if_pos left, stableMerge_cons_cons, if_pos before,
            stableMerge_cons_cons, if_neg first]
        · rw [if_neg before, ihy, List.orderedInsert_cons]
          split
          · rw [stableMerge_cons_cons, if_neg before]
          · rw [stableMerge_cons_cons, if_neg first]

/-- Sorting one list after another is merging what each sorts to. -/
theorem insertionSort_append [Std.Total r] [IsTrans α r] (xs ys : List α) :
    (xs ++ ys).insertionSort r = stableMerge r (xs.insertionSort r) (ys.insertionSort r) := by
  induction xs with
  | nil => simp
  | cons x xs ih => rw [List.cons_append, List.insertionSort_cons, ih, orderedInsert_stableMerge, List.insertionSort_cons]

/-- The start of a merge is that of its sides' starts. -/
theorem take_stableMerge {k m n : Nat} (left : k ≤ m) (right : k ≤ n) (xs ys : List α) :
    (stableMerge r (xs.take m) (ys.take n)).take k = (stableMerge r xs ys).take k := by
  induction k generalizing m n xs ys with
  | zero => simp
  | succ k ih =>
    obtain ⟨m, rfl⟩ := Nat.exists_eq_add_of_le' left
    obtain ⟨n, rfl⟩ := Nat.exists_eq_add_of_le' right
    cases xs with
    | nil =>
      rw [List.take_nil, stableMerge_nil_left, stableMerge_nil_left, List.take_take, Nat.min_eq_left (by omega)]
    | cons x xs =>
      cases ys with
      | nil =>
        rw [List.take_nil, stableMerge_nil_right, stableMerge_nil_right, List.take_take, Nat.min_eq_left (by omega)]
      | cons y ys =>
        rw [← Nat.add_assoc, ← Nat.add_assoc, List.take_succ_cons, List.take_succ_cons, stableMerge_cons_cons,
          stableMerge_cons_cons]
        split
        · have rest := ih (m := m + k) (n := n + k + 1) (by omega) (by omega) xs (y :: ys)
          rw [List.take_succ_cons] at rest
          rw [List.take_succ_cons, List.take_succ_cons, rest]
        · have rest := ih (m := m + k + 1) (n := n + k) (by omega) (by omega) (x :: xs) ys
          rw [List.take_succ_cons] at rest
          rw [List.take_succ_cons, List.take_succ_cons, rest]

/-- Sorting may start from the first `k` of each part when only the first `k` count. -/
theorem take_insertionSort_append [Std.Total r] [IsTrans α r] {k : Nat} {all more held incoming : List α}
    (held_eq : held = (all.insertionSort r).take k)
    (incoming_eq : (incoming.insertionSort r).take k = (more.insertionSort r).take k) :
    ((held ++ incoming).insertionSort r).take k = ((all ++ more).insertionSort r).take k := by
  have sorted : held.insertionSort r = held := by
    apply List.Pairwise.insertionSort_eq
    rw [held_eq]
    exact (List.pairwise_insertionSort r all).sublist (List.take_sublist _ _)
  rw [insertionSort_append, insertionSort_append, sorted, held_eq,
    ← take_stableMerge (Nat.le_refl k) (Nat.le_refl k) _ (incoming.insertionSort r), incoming_eq, List.take_take,
    Nat.min_self, take_stableMerge (Nat.le_refl k) (Nat.le_refl k)]

end Adelie
