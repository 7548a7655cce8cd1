import Mathlib.Logic.Relation

namespace Adelie

open Relation

variable {α : Type*} {r : α → α → Prop} {a b c : α}

/-- A relation, that many times over. -/
def Times (r : α → α → Prop) : Nat → α → α → Prop
  | 0 => fun a b => b = a
  | n + 1 => Comp r (Times r n)

theorem times_zero : Times r 0 a b ↔ b = a := Iff.rfl

theorem times_succ {n : Nat} : Times r (n + 1) a c ↔ ∃ b, r a b ∧ Times r n b c := Iff.rfl

theorem times_one : Times r 1 a b ↔ r a b := by
  rw [times_succ]
  constructor
  · rintro ⟨c, step, rfl⟩
    exact step
  · intro step
    exact ⟨b, step, rfl⟩

theorem times_add {m n : Nat} : Times r (m + n) a c ↔ ∃ b, Times r m a b ∧ Times r n b c := by
  induction m generalizing a with
  | zero =>
    rw [Nat.zero_add]
    constructor
    · intro path
      exact ⟨a, rfl, path⟩
    · rintro ⟨_, rfl, path⟩
      exact path
  | succ m ih =>
    rw [Nat.succ_add, times_succ]
    constructor
    · rintro ⟨x, step, path⟩
      obtain ⟨y, left, right⟩ := ih.mp path
      exact ⟨y, ⟨x, step, left⟩, right⟩
    · rintro ⟨y, ⟨x, step, left⟩, right⟩
      exact ⟨x, step, ih.mpr ⟨y, left, right⟩⟩

theorem Times.reflTransGen {n : Nat} (path : Times r n a b) : ReflTransGen r a b := by
  induction n generalizing a with
  | zero =>
    cases path
    exact .refl
  | succ n ih =>
    obtain ⟨c, step, path⟩ := path
    exact .head step (ih path)

theorem reflTransGen_iff_times : ReflTransGen r a b ↔ ∃ n, Times r n a b := by
  constructor
  · intro path
    induction path using ReflTransGen.head_induction_on with
    | refl => exact ⟨0, rfl⟩
    | head step _ ih =>
      obtain ⟨n, path⟩ := ih
      exact ⟨n + 1, _, step, path⟩
  · rintro ⟨n, path⟩
    exact path.reflTransGen

theorem transGen_iff_times : TransGen r a b ↔ ∃ n, Times r (n + 1) a b := by
  rw [TransGen.head'_iff]
  constructor
  · rintro ⟨c, step, path⟩
    obtain ⟨n, path⟩ := reflTransGen_iff_times.mp path
    exact ⟨n, c, step, path⟩
  · rintro ⟨n, c, step, path⟩
    exact ⟨c, step, path.reflTransGen⟩

/-- No more than `n` times: `n` times the relation or none. -/
theorem times_reflGen {n : Nat} : Times (ReflGen r) n a b ↔ ∃ k ≤ n, Times r k a b := by
  induction n generalizing a with
  | zero => simp [Times]
  | succ n ih =>
    rw [times_succ]
    constructor
    · rintro ⟨c, step, path⟩
      obtain ⟨k, le, path⟩ := ih.mp path
      cases step with
      | refl => exact ⟨k, by omega, path⟩
      | single step => exact ⟨k + 1, by omega, c, step, path⟩
    · rintro ⟨k, le, path⟩
      cases k with
      | zero =>
        cases path
        exact ⟨b, .refl, ih.mpr ⟨0, Nat.zero_le _, rfl⟩⟩
      | succ k =>
        obtain ⟨c, step, path⟩ := path
        exact ⟨c, .single step, ih.mpr ⟨k, by omega, path⟩⟩

end Adelie
