import Mathlib.Order.Defs.LinearOrder
import Mathlib.Algebra.Order.Ring.Int
import Mathlib.Algebra.Ring.Divisibility.Basic

namespace Adelie

section Order

variable {α : Type*} [LinearOrder α]

/-- The boundary a moment is past, before the next one. -/
structure LastBoundary (B : α → Prop) (x b : α) : Prop where
  boundary : B b
  le : b ≤ x
  next : ∀ b', B b' → b < b' → x < b'

namespace LastBoundary

variable {B : α → Prop} {x b b' : α}

theorem self (boundary : B b) : LastBoundary B b b := ⟨boundary, le_refl b, fun _ _ later => later⟩

theorem le_of (last : LastBoundary B x b) (boundary : B b') (le : b' ≤ x) : b' ≤ b := by
  apply not_lt.mp
  intro later
  exact absurd (last.next b' boundary later) (not_lt.mpr le)

/-- It is the one. -/
theorem unique (last : LastBoundary B x b) (last' : LastBoundary B x b') : b = b' :=
  le_antisymm (last'.le_of last.boundary last.le) (last.le_of last'.boundary last'.le)

end LastBoundary

end Order

/-- The multiples of a width past an origin, one of which is the last before any moment. -/
theorem lastBoundary_width {width : Int} (positive : 0 < width) (origin x : Int) :
    LastBoundary (fun b => width ∣ b - origin) x (origin + (x - origin) / width * width) where
  boundary := ⟨(x - origin) / width, by rw [add_sub_cancel_left, mul_comm]⟩
  le := by
    have := Int.ediv_mul_le (x - origin) (ne_of_gt positive)
    omega
  next := by
    rintro b ⟨k, multiple⟩ later
    have more : (x - origin) / width < k := by
      apply lt_of_mul_lt_mul_left _ positive.le
      rw [mul_comm, ← multiple]
      omega
    have past := Int.lt_ediv_add_one_mul_self (x - origin) positive
    have steps : ((x - origin) / width + 1) * width ≤ k * width := Int.mul_le_mul_of_nonneg_right more positive.le
    rw [mul_comm k, ← multiple] at steps
    omega

end Adelie
