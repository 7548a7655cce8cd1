import Mathlib

namespace Adelie

variable {α : Type} {r : α → α → Prop} [DecidableRel r] {p : α → Bool}

/-- In the order of the comparison; what it does not tell apart stays in the order it came. -/
structure StableSort (cmp : α → α → Ordering) (l out : List α) : Prop where
  perm : out.Perm l
  sorted : out.Pairwise fun a b => cmp a b ≠ .gt
  stable : ∀ x ∈ l, out.filter (fun a => cmp a x = .eq) = l.filter fun a => cmp a x = .eq

theorem filter_orderedInsert {a : α} {l : List α} (tied : ∀ b ∈ l, p a = true → p b = true → r a b) :
    (l.orderedInsert r a).filter p = (a :: l).filter p := by
  induction l with
  | nil => rfl
  | cons b rest ih =>
    rw [List.forall_mem_cons] at tied
    rw [List.orderedInsert_cons]
    split
    · rfl
    · rename_i after
      -- an element that `a` is put after is none of those `a` ties with
      have apart : p a = true → p b = false := by
        intro taken
        by_contra same
        exact after (tied.1 taken (by simpa using same))
      rw [List.filter_cons, ih tied.2, List.filter_cons, List.filter_cons, List.filter_cons]
      by_cases taken : p a = true
      · rw [apart taken]
        simp [taken]
      · simp [taken]

/-- Elements that are in no order among themselves keep the one they came in. -/
theorem filter_insertionSort {l : List α} (tied : ∀ a ∈ l, ∀ b ∈ l, p a = true → p b = true → r a b) :
    (l.insertionSort r).filter p = l.filter p := by
  induction l with
  | nil => rfl
  | cons a rest ih =>
    have later : ∀ b ∈ rest.insertionSort r, p a = true → p b = true → r a b := by
      intro b member
      exact tied a (.head _) b (.tail _ ((List.perm_insertionSort r rest).mem_iff.mp member))
    rw [List.insertionSort_cons, filter_orderedInsert later, List.filter_cons, List.filter_cons]
    rw [ih fun b member c member' => tied b (.tail _ member) c (.tail _ member')]

end Adelie
