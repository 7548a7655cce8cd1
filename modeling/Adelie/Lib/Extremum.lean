import Mathlib

namespace Adelie

variable {α : Type} {better : α → α → Bool} {le : α → α → Prop} {P : α → Prop} {best : Option α} {m v : α} {vs : List α}

/-- The value seen so far that none since was better than. -/
def keepBest (better : α → α → Bool) (best : Option α) (v : α) : Option α :=
  match best with
  | none => some v
  | some m => if better v m then some v else some m

/-- `better` picks the side of a preorder that `le` is, among the values of `P`. -/
structure Picks (better : α → α → Bool) (le : α → α → Prop) (P : α → Prop) : Prop where
  refl : ∀ a, P a → le a a
  trans : ∀ a b c, le a b → le b c → le a c
  won : ∀ a b, P a → P b → better a b = true → le a b
  lost : ∀ a b, P a → P b → better a b = false → le b a

theorem Picks.step (picks : Picks better le P) (old : ∀ m, best = some m → P m) (new : P v) :
    ∃ m, keepBest better best v = some m ∧ P m ∧ le m v ∧ ∀ m₀, best = some m₀ → le m m₀ := by
  cases best with
  | none => exact ⟨v, rfl, new, picks.refl v new, by simp⟩
  | some m₀ =>
    have held := old m₀ rfl
    by_cases won : better v m₀ = true
    · refine ⟨v, by simp [keepBest, won], new, picks.refl v new, ?_⟩
      rintro _ ⟨⟩
      exact picks.won v m₀ new held won
    · refine ⟨m₀, by simp [keepBest, won], held, ?_, ?_⟩
      · exact picks.lost v m₀ new held (by simpa using won)
      · rintro _ ⟨⟩
        exact picks.refl m₀ held

/-- Over a list, the value kept bounds every one of them, and the one it started from. -/
theorem Picks.foldl (picks : Picks better le P) (old : ∀ m, best = some m → P m) (new : ∀ v ∈ vs, P v)
    (made : vs.foldl (keepBest better) best = some m) :
    P m ∧ (∀ v ∈ vs, le m v) ∧ ∀ m₀, best = some m₀ → le m m₀ := by
  induction vs generalizing best with
  | nil =>
    refine ⟨old m made, by simp, ?_⟩
    intro m₀ same
    rw [List.foldl_nil, same] at made
    cases made
    exact picks.refl _ (old _ same)
  | cons v rest ih =>
    obtain ⟨m', kept, held, under, carried⟩ := picks.step old (new v (.head _))
    rw [List.foldl_cons, kept] at made
    have start : ∀ m, some m' = some m → P m := by
      rintro _ ⟨⟩
      exact held
    obtain ⟨good, others, first⟩ := ih start (fun v member => new v (.tail _ member)) made
    have below := first m' rfl
    refine ⟨good, ?_, ?_⟩
    · intro w member
      rcases List.mem_cons.mp member with rfl | member
      · exact picks.trans _ _ _ below under
      · exact others w member
    · intro m₀ same
      exact picks.trans _ _ _ below (carried m₀ same)

/-- Nothing is kept only of nothing. -/
theorem foldl_keepBest_eq_none (made : vs.foldl (keepBest better) best = none) : vs = [] ∧ best = none := by
  induction vs generalizing best with
  | nil => exact ⟨rfl, made⟩
  | cons v rest ih =>
    obtain ⟨_, none_⟩ := ih made
    cases best with
    | none => cases none_
    | some m =>
      unfold keepBest at none_
      dsimp only at none_
      split at none_ <;> cases none_

end Adelie
