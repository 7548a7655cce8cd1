import Mathlib

namespace Adelie

section Dedup

variable {α : Type} (same : α → α → Bool)

/-- Drops each item that is the same as the last one kept. -/
def dedupFrom (last : α) : List α → List α
  | [] => []
  | x :: rest => if same x last then dedupFrom last rest else x :: dedupFrom x rest

def dedupBy : List α → List α
  | [] => []
  | x :: rest => x :: dedupFrom same x rest

variable {same}

theorem dedupFrom_sublist (last : α) (l : List α) : (dedupFrom same last l).Sublist l := by
  induction l generalizing last with
  | nil => exact .slnil
  | cons x rest ih =>
    unfold dedupFrom
    split
    · exact (ih last).cons x
    · exact (ih x).cons₂ x

theorem dedupBy_sublist (l : List α) : (dedupBy same l).Sublist l := by
  cases l with
  | nil => exact .slnil
  | cons x rest => exact (dedupFrom_sublist x rest).cons₂ x

theorem exists_mem_dedupFrom (last : α) {l : List α} {x : α} (member : x ∈ l) :
    same x last = true ∨ ∃ y ∈ dedupFrom same last l, x = y ∨ same x y = true := by
  induction l generalizing last with
  | nil => cases member
  | cons y rest ih =>
    unfold dedupFrom
    rcases List.mem_cons.mp member with rfl | later
    · split
      · exact .inl ‹_›
      · exact .inr ⟨x, .head _, .inl rfl⟩
    · split
      · exact ih last later
      · rcases ih y later with kept | ⟨z, inside, like⟩
        · exact .inr ⟨y, .head _, .inr kept⟩
        · exact .inr ⟨z, .tail _ inside, like⟩

/-- What is dropped has its like among what is kept. -/
theorem exists_mem_dedupBy {l : List α} {x : α} (member : x ∈ l) : ∃ y ∈ dedupBy same l, x = y ∨ same x y = true := by
  cases l with
  | nil => cases member
  | cons y rest =>
    rcases List.mem_cons.mp member with rfl | later
    · exact ⟨x, .head _, .inl rfl⟩
    · rcases exists_mem_dedupFrom y later with kept | ⟨z, inside, like⟩
      · exact ⟨y, .head _, .inr kept⟩
      · exact ⟨z, .tail _ inside, like⟩

end Dedup

section Sorting

variable {α : Type} {r : α → α → Prop} [DecidableRel r] {P : α → Prop}

theorem pairwise_orderedInsert (total : ∀ a b, P a → P b → r a b ∨ r b a)
    (trans : ∀ a b c, P a → P b → P c → r a b → r b c → r a c) {x : α} (good : P x) {l : List α} (all : ∀ y ∈ l, P y)
    (sorted : l.Pairwise r) : (l.orderedInsert r x).Pairwise r := by
  induction l with
  | nil => simp
  | cons y rest ih =>
    rw [List.pairwise_cons] at sorted
    unfold List.orderedInsert
    split
    · rename_i below
      refine List.pairwise_cons.mpr ⟨?_, List.pairwise_cons.mpr sorted⟩
      intro z member
      rcases List.mem_cons.mp member with rfl | later
      · exact below
      · exact trans _ _ _ good (all y (.head _)) (all z (.tail _ later)) below (sorted.1 z later)
    · rename_i above
      have under : r y x := (total x y good (all y (.head _))).resolve_left above
      refine List.pairwise_cons.mpr ⟨?_, ih (fun z member => all z (.tail _ member)) sorted.2⟩
      intro z member
      rcases List.mem_cons.mp ((List.perm_orderedInsert r x rest).mem_iff.mp member) with rfl | later
      · exact under
      · exact sorted.1 z later

/-- A sort by a relation that is total among the items alone. -/
theorem pairwise_insertionSort_of (total : ∀ a b, P a → P b → r a b ∨ r b a)
    (trans : ∀ a b c, P a → P b → P c → r a b → r b c → r a c) {l : List α} (all : ∀ x ∈ l, P x) : (l.insertionSort r).Pairwise r := by
  induction l with
  | nil => simp
  | cons x rest ih =>
    rw [List.insertionSort_cons]
    refine pairwise_orderedInsert total trans (all x (.head _)) ?_ (ih fun y member => all y (.tail _ member))
    intro y member
    exact all y (.tail _ ((List.perm_insertionSort r rest).mem_iff.mp member))

end Sorting

section Search

variable {α : Type} (f : α → Ordering)

/-- The halving loop: `size` items from `base` on are left. -/
def searchFrom (l : List α) : Nat → Nat → Nat → Bool
  | 0, _, _ => false
  | fuel + 1, base, size =>
    if size ≤ 1 then l[base]?.map f == some .eq
    else
      let half := size / 2
      let mid := base + half
      searchFrom l fuel (if l[mid]?.map f == some .gt then base else mid) (size - half)

def binarySearch (l : List α) : Bool := if l.isEmpty then false else searchFrom f l l.length 0 l.length

variable {f}

/-- Items that a search splits into those below, those found and those above. -/
def Split (f : α → Ordering) (l : List α) : Prop := l.Pairwise fun a b => f b = .lt ∨ f b = .eq → f a ≠ .gt ∧ (f b = .lt → f a = .lt)

theorem searchFrom_finds {l : List α} (split : Split f l) {fuel base size i : Nat} (enough : size ≤ fuel) (low : base ≤ i)
    (high : i < base + size) (inside : base + size ≤ l.length) (found : l[i]?.map f = some .eq) :
    searchFrom f l fuel base size = true := by
  induction fuel generalizing base size i with
  | zero => omega
  | succ fuel ih =>
    unfold searchFrom
    split
    · have : i = base := by omega
      subst this
      simp [found]
    · dsimp only
      have within : i < l.length := by omega
      have midWithin : base + size / 2 < l.length := by omega
      have at_ : f l[i] = .eq := by simpa [within] using found
      split
      · rename_i above
        have above' : f l[base + size / 2] = .gt := by simpa [midWithin] using above
        have before : i < base + size / 2 := by
          by_contra after
          rcases Nat.lt_or_ge (base + size / 2) i with less | same
          · have := List.pairwise_iff_getElem.mp split _ _ midWithin within less (.inr at_)
            exact this.1 above'
          · have : i = base + size / 2 := by omega
            subst this
            rw [above'] at at_
            cases at_
        exact ih (by omega) low (by omega) (by omega) found
      · rename_i notAbove
        by_cases after : base + size / 2 ≤ i
        · exact ih (by omega) after (by omega) (by omega) found
        · -- the middle is no later than a hit after it, so it is a hit itself
          have here : l[base + size / 2]?.map f = some .eq := by
            cases order : f l[base + size / 2] with
            | eq => simp [midWithin, order]
            | gt => simp [midWithin, order] at notAbove
            | lt =>
              have := List.pairwise_iff_getElem.mp split _ _ within midWithin (by omega) (.inl order)
              rw [this.2 order] at at_
              cases at_
          exact ih (by omega) (Nat.le_refl _) (by omega) (by omega) here

theorem binarySearch_finds {l : List α} (split : Split f l) {x : α} (member : x ∈ l) (hit : f x = .eq) :
    binarySearch f l = true := by
  obtain ⟨i, within, rfl⟩ := List.getElem_of_mem member
  unfold binarySearch
  rw [if_neg (by simpa using List.ne_nil_of_length_pos (by omega))]
  exact searchFrom_finds split (Nat.le_refl _) (Nat.zero_le i) (by omega) (by omega) (by simp [within, hit])

end Search

end Adelie
