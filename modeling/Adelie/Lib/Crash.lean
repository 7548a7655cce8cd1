import Mathlib.Data.List.Basic

namespace Adelie

section Crash

variable {Op : Type} (secured : List Op → Op → Prop) (torn : Op → Op → Prop)

/-- What a crash may leave of the operations performed. One that later operations have secured is
    there; any other may be gone, or torn. `later` are operations performed after these. -/
inductive Crashed (later : List Op) : List Op → List Op → Prop
  | nil : Crashed later [] []
  | kept {op : Op} {rest left : List Op} : Crashed later rest left → Crashed later (op :: rest) (op :: left)
  | lost {op : Op} {rest left : List Op} : ¬secured (rest ++ later) op → Crashed later rest left →
    Crashed later (op :: rest) left
  | torn {op op' : Op} {rest left : List Op} : ¬secured (rest ++ later) op → torn op op' → Crashed later rest left →
    Crashed later (op :: rest) (op' :: left)

variable {secured torn} {later : List Op}

theorem Crashed.refl (ops : List Op) : Crashed secured torn later ops ops := by
  induction ops with
  | nil => exact .nil
  | cons op rest ih => exact .kept ih

theorem Crashed.append {first second left : List Op} (crashed : Crashed secured torn later (first ++ second) left) :
    ∃ left₁ left₂, left = left₁ ++ left₂ ∧ Crashed secured torn (second ++ later) first left₁ ∧
      Crashed secured torn later second left₂ := by
  induction first generalizing left with
  | nil => exact ⟨[], left, rfl, .nil, crashed⟩
  | cons op rest ih =>
    rw [List.cons_append] at crashed
    cases crashed with
    | kept tail =>
      obtain ⟨left₁, left₂, rfl, head, others⟩ := ih tail
      exact ⟨op :: left₁, left₂, rfl, .kept head, others⟩
    | lost unsecured tail =>
      obtain ⟨left₁, left₂, rfl, head, others⟩ := ih tail
      rw [List.append_assoc] at unsecured
      exact ⟨left₁, left₂, rfl, .lost unsecured head, others⟩
    | torn unsecured tears tail =>
      obtain ⟨left₁, left₂, rfl, head, others⟩ := ih tail
      rw [List.append_assoc] at unsecured
      exact ⟨_ :: left₁, left₂, rfl, .torn unsecured tears head, others⟩

theorem Crashed.head {op : Op} {rest left : List Op} (crashed : Crashed secured torn later (op :: rest) left)
    (safe : secured (rest ++ later) op) : ∃ left', left = op :: left' ∧ Crashed secured torn later rest left' := by
  cases crashed with
  | kept tail => exact ⟨_, rfl, tail⟩
  | lost unsecured _ => exact absurd safe unsecured
  | torn unsecured _ _ => exact absurd safe unsecured

theorem Crashed.source {ops left : List Op} (crashed : Crashed secured torn later ops left) {op' : Op}
    (member : op' ∈ left) : ∃ op ∈ ops, op' = op ∨ torn op op' := by
  induction crashed with
  | nil => cases member
  | kept _ ih =>
    rcases List.mem_cons.mp member with rfl | member
    · exact ⟨_, .head _, .inl rfl⟩
    · obtain ⟨op, inside, from_⟩ := ih member
      exact ⟨op, .tail _ inside, from_⟩
  | lost _ _ ih =>
    obtain ⟨op, inside, from_⟩ := ih member
    exact ⟨op, .tail _ inside, from_⟩
  | torn _ tears _ ih =>
    rcases List.mem_cons.mp member with rfl | member
    · exact ⟨_, .head _, .inr tears⟩
    · obtain ⟨op, inside, from_⟩ := ih member
      exact ⟨op, .tail _ inside, from_⟩

end Crash

end Adelie
