import Mathlib

namespace Adelie

namespace Assoc

variable {κ β : Type}

/-- A map as the list of its items, in the order it happens to iterate. -/
def Keyed (s : List (κ × β)) : Prop := (s.map Prod.fst).Nodup

section Keys

variable {s t : List (κ × β)} {k : κ} {b c : β} {x : κ × β}

theorem Keyed.perm (keyed : Keyed s) (same : s.Perm t) : Keyed t := (same.map Prod.fst).nodup_iff.mp keyed

theorem Keyed.nodup (keyed : Keyed s) : s.Nodup := List.Nodup.of_map _ keyed

theorem keyed_cons : Keyed (x :: s) ↔ (∀ y ∈ s, y.1 ≠ x.1) ∧ Keyed s := by
  unfold Keyed
  rw [List.map_cons, List.nodup_cons]
  simp only [List.mem_map, not_exists, not_and]

theorem Keyed.unique (keyed : Keyed s) (left : (k, b) ∈ s) (right : (k, c) ∈ s) : b = c := by
  have same := List.inj_on_of_nodup_map keyed left right rfl
  exact (Prod.mk.inj same).2

end Keys

variable [DecidableEq κ]

def get (s : List (κ × β)) (k : κ) : Option β := (s.find? fun x => x.1 = k).map Prod.snd

def modify (s : List (κ × β)) (k : κ) (f : β → β) : List (κ × β) := s.map fun x => if x.1 = k then (x.1, f x.2) else x

def remove (s : List (κ × β)) (k : κ) : List (κ × β) := s.filter fun x => x.1 ≠ k

section

variable {s t : List (κ × β)} {k : κ} {b c : β} {x : κ × β}

theorem mem_remove : x ∈ remove s k ↔ x ∈ s ∧ x.1 ≠ k := by
  simp [remove]

theorem Keyed.remove (keyed : Keyed s) : Keyed (remove s k) := (List.filter_sublist.map Prod.fst).nodup keyed

theorem get_of_mem (keyed : Keyed s) (member : (k, b) ∈ s) : get s k = some b := by
  unfold get
  cases found : s.find? fun x => x.1 = k with
  | none =>
    have none_ := List.find?_eq_none.mp found (k, b) member
    simp at none_
  | some y =>
    have here := List.mem_of_find?_eq_some found
    have same : y.1 = k := by simpa using List.find?_some found
    obtain ⟨j, d⟩ := y
    cases same
    rw [keyed.unique member here]
    rfl

theorem mem_of_get (found : get s k = some b) : (k, b) ∈ s := by
  obtain ⟨⟨j, d⟩, first, rfl⟩ := Option.map_eq_some_iff.mp found
  have same : j = k := by simpa using List.find?_some first
  subst same
  exact List.mem_of_find?_eq_some first

theorem get_eq_some (keyed : Keyed s) : get s k = some b ↔ (k, b) ∈ s := ⟨mem_of_get, get_of_mem keyed⟩

theorem get_eq_none : get s k = none ↔ ∀ y ∈ s, y.1 ≠ k := by
  simp [get]

/-- The item of a key, and the others. -/
theorem perm_remove (keyed : Keyed s) (member : (k, b) ∈ s) : s.Perm ((k, b) :: remove s k) := by
  apply (List.perm_ext_iff_of_nodup keyed.nodup _).mpr
  · rintro ⟨j, d⟩
    simp only [List.mem_cons, mem_remove]
    constructor
    · intro inside
      by_cases same : j = k
      · subst same
        rw [keyed.unique inside member]
        exact .inl rfl
      · exact .inr ⟨inside, same⟩
    · rintro (same | ⟨inside, _⟩)
      · rw [same]
        exact member
      · exact inside
  · refine List.nodup_cons.mpr ⟨?_, keyed.remove.nodup⟩
    intro inside
    exact (mem_remove.mp inside).2 rfl

theorem modify_eq_of_ne {f : β → β} (other : ∀ y ∈ s, y.1 ≠ k) : modify s k f = s := by
  unfold modify
  conv_rhs => rw [← List.map_id s]
  apply List.map_congr_left
  intro y member
  rw [if_neg (other y member)]
  rfl

theorem perm_modify (keyed : Keyed s) (member : (k, b) ∈ s) (f : β → β) : (modify s k f).Perm ((k, f b) :: remove s k) := by
  have parts := (perm_remove keyed member).map fun x => if x.1 = k then (x.1, f x.2) else x
  rw [List.map_cons, if_pos rfl] at parts
  have rest : (remove s k).map (fun x => if x.1 = k then (x.1, f x.2) else x) = remove s k :=
    modify_eq_of_ne fun y inside => (mem_remove.mp inside).2
  rw [rest] at parts
  exact parts

theorem length_remove (keyed : Keyed s) (member : (k, b) ∈ s) : (remove s k).length + 1 = s.length := by
  rw [(perm_remove keyed member).length_eq, List.length_cons]

/-- Two maps with the same lookups are one map. -/
theorem perm_of_get (left : Keyed s) (right : Keyed t) (same : ∀ k, get s k = get t k) : s.Perm t := by
  apply (List.perm_ext_iff_of_nodup left.nodup right.nodup).mpr
  rintro ⟨k, b⟩
  rw [← get_eq_some left, ← get_eq_some right, same]

theorem get_perm (keyed : Keyed s) (same : s.Perm t) (k : κ) : get s k = get t k := by
  apply Option.ext
  intro b
  rw [get_eq_some keyed, get_eq_some (keyed.perm same)]
  exact same.mem_iff

theorem get_cons (x : κ × β) (s : List (κ × β)) (j : κ) : get (x :: s) j = if x.1 = j then some x.2 else get s j := by
  unfold Assoc.get
  rw [List.find?_cons]
  by_cases here : x.1 = j <;> simp [here]

theorem get_remove (s : List (κ × β)) (j k : κ) : get (remove s k) j = if j = k then none else get s j := by
  by_cases here : j = k
  · subst here
    rw [if_pos rfl, get_eq_none]
    exact fun y member => (mem_remove.mp member).2
  · rw [if_neg here]
    unfold Assoc.get Assoc.remove
    rw [List.find?_filter]
    congr 2
    funext y
    by_cases same : y.1 = j
    · simp [same, here]
    · simp [same]

end

end Assoc

end Adelie
