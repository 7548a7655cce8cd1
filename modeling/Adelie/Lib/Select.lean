import Mathlib

namespace Adelie

variable {α κ : Type}

/-- An element is found by its key, when keys tell elements apart. -/
theorem find?_key [DecidableEq κ] {key : α → κ} {l : List α} (nodup : (l.map key).Nodup) {x : α} (member : x ∈ l) :
    l.find? (fun y => key y == key x) = some x := by
  cases found : l.find? (fun y => key y == key x) with
  | none => simpa using List.find?_eq_none.mp found x member
  | some y =>
    have same : key y = key x := by simpa using List.find?_some found
    rw [List.inj_on_of_nodup_map nodup (List.mem_of_find?_eq_some found) member same]

/-- Elements picked by their keys, when keys tell elements apart. -/
theorem filter_keys_perm [DecidableEq κ] {key : α → κ} {l picked : List α} {keys : List κ}
    (nodup : (l.map key).Nodup) (named : picked.map key = keys) (once : keys.Nodup)
    (within : ∀ x ∈ picked, x ∈ l) : (l.filter fun x => keys.contains (key x)).Perm picked := by
  have once' : picked.Nodup := .of_map key (named ▸ once)
  refine (List.perm_ext_iff_of_nodup ((List.Nodup.of_map _ nodup).filter _) once').mpr fun x => ?_
  rw [List.mem_filter, List.contains_iff_mem, ← named, List.mem_map]
  constructor
  · rintro ⟨inside, y, member, same⟩
    rwa [← List.inj_on_of_nodup_map nodup (within y member) inside same]
  · exact fun member => ⟨within x member, x, member, rfl⟩

/-- A filter by two tests that never hold together is two filters. -/
theorem filter_or_perm {p q : α → Bool} {l : List α} (apart : ∀ x ∈ l, p x = true → q x = false) :
    (l.filter fun x => p x || q x).Perm (l.filter p ++ l.filter q) := by
  induction l with
  | nil => exact .refl _
  | cons x rest ih =>
    have tail := ih fun y member => apart y (.tail _ member)
    by_cases first : p x = true
    · have other := apart x (.head _) first
      simpa [List.filter_cons, first, other] using tail
    · by_cases second : q x = true
      · simp only [List.filter_cons, first, second, Bool.or_true, if_true, if_false, Bool.false_eq_true]
        exact (tail.cons x).trans List.perm_middle.symm
      · simpa [List.filter_cons, first, second] using tail

end Adelie
