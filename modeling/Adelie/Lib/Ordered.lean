import Mathlib

namespace Adelie

variable {α κ : Type} [LinearOrder κ]

/-- Puts `x` before the first element whose key is not below its own: `partition_point` and
    `insert` on a list ascending by key. -/
def insertByKey (key : α → κ) (x : α) (l : List α) : List α :=
  l.takeWhile (fun y => key y < key x) ++ x :: l.dropWhile (fun y => key y < key x)

/-- A stable sort by key. -/
def sortByKey (key : α → κ) (l : List α) : List α := l.insertionSort fun a b => key a ≤ key b

theorem insertByKey_perm (key : α → κ) (x : α) (l : List α) : (insertByKey key x l).Perm (x :: l) := by
  unfold insertByKey
  refine List.perm_middle.trans (List.Perm.cons x ?_)
  rw [List.takeWhile_append_dropWhile]

@[simp] theorem mem_insertByKey {key : α → κ} {x y : α} {l : List α} :
    y ∈ insertByKey key x l ↔ y = x ∨ y ∈ l := by
  rw [(insertByKey_perm key x l).mem_iff, List.mem_cons]

/-- An element under a new key keeps a strictly ascending list so. -/
theorem insertByKey_sorted {key : α → κ} {x : α} {l : List α} (sorted : l.Pairwise (key · < key ·))
    (fresh : ∀ y ∈ l, key y ≠ key x) : (insertByKey key x l).Pairwise (key · < key ·) := by
  induction l with
  | nil => exact List.pairwise_singleton _ _
  | cons y ys ih =>
    obtain ⟨below, rest⟩ := List.pairwise_cons.mp sorted
    by_cases before : key y < key x
    · have shape : insertByKey key x (y :: ys) = y :: insertByKey key x ys := by
        simp [insertByKey, before]
      rw [shape]
      refine List.pairwise_cons.mpr ⟨?_, ih rest fun z member => fresh z (.tail _ member)⟩
      intro z member
      rcases mem_insertByKey.mp member with rfl | member
      · exact before
      · exact below z member
    · have shape : insertByKey key x (y :: ys) = x :: y :: ys := by
        simp [insertByKey, before]
      rw [shape]
      have above : key x < key y := lt_of_le_of_ne (not_lt.mp before) (fresh y (.head _)).symm
      refine List.pairwise_cons.mpr ⟨?_, sorted⟩
      intro z member
      rcases List.mem_cons.mp member with rfl | member
      · exact above
      · exact above.trans (below z member)

theorem sortByKey_perm (key : α → κ) (l : List α) : (sortByKey key l).Perm l :=
  List.perm_insertionSort _ l

@[simp] theorem mem_sortByKey {key : α → κ} {x : α} {l : List α} : x ∈ sortByKey key l ↔ x ∈ l :=
  (sortByKey_perm key l).mem_iff

theorem sortByKey_sorted (key : α → κ) (l : List α) : (sortByKey key l).Pairwise (key · ≤ key ·) := by
  have : IsTrans α fun a b => key a ≤ key b := ⟨fun _ _ _ => le_trans⟩
  have : Std.Total fun a b : α => key a ≤ key b := ⟨fun a b => le_total (key a) (key b)⟩
  exact List.pairwise_insertionSort _ l

end Adelie
