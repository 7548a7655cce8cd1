import Mathlib

namespace Adelie

/-- The nearest integer, halves away from zero. -/
def nearest (x : ℚ) : ℤ := if 0 ≤ x then ⌊x + 1 / 2⌋ else -⌊-x + 1 / 2⌋

theorem nearest_neg (x : ℚ) : nearest (-x) = -nearest x := by
  unfold nearest
  rcases lt_trichotomy x 0 with below | zero | above
  · rw [if_pos (by linarith), if_neg (not_le.mpr below), neg_neg]
  · subst zero
    norm_num
  · rw [if_neg (by linarith), if_pos above.le, neg_neg]

theorem nearest_intCast (n : Int) : nearest (n : ℚ) = n := by
  have half (m : Int) : ⌊(m : ℚ) + 1 / 2⌋ = m := by
    rw [Int.floor_intCast_add]
    norm_num
  unfold nearest
  split
  · exact half n
  · have := half (-n)
    push_cast at this
    omega

theorem nearest_natCast (n : Nat) : nearest (n : ℚ) = n := nearest_intCast n

theorem nearest_natCast_div (n d : Nat) (positive : 0 < d) :
    nearest ((n : ℚ) / d) = ((n / d + if d ≤ n % d * 2 then 1 else 0 : Nat) : Int) := by
  have double : (n : ℚ) / d + 1 / 2 = ((2 * n + d : Nat) : ℚ) / ((2 * d : Nat) : ℚ) := by
    push_cast
    field_simp
  unfold nearest
  rw [if_pos (by positivity), double, Rat.floor_natCast_div_natCast]
  have parts := Nat.div_add_mod n d
  have small := Nat.mod_lt n positive
  norm_cast
  generalize n / d = q at *
  generalize n % d = r at *
  have whole : 2 * n + d = 2 * d * q + (2 * r + d) := by linarith
  rw [whole, Nat.mul_add_div (by omega)]
  congr 1
  split
  · exact (Nat.div_eq_iff (by omega)).mpr (by omega)
  · exact Nat.div_eq_of_lt (by omega)

/-- Truncating division, corrected by the sign of the remainder when twice the remainder reaches the divisor. -/
theorem nearest_intCast_div (n : Int) {d : Nat} (positive : 0 < d) :
    nearest (n / d) = if d ≤ (n.tmod d).natAbs * 2 then n.tdiv d + (n.tmod d).sign else n.tdiv d := by
  have natural (n : Nat) : nearest ((n : ℚ) / d) =
      if d ≤ ((n : Int).tmod d).natAbs * 2 then (n : Int).tdiv d + ((n : Int).tmod d).sign else (n : Int).tdiv d := by
    rw [nearest_natCast_div n d positive]
    have q : (n : Int).tdiv d = (n / d : Nat) := rfl
    have r : (n : Int).tmod d = (n % d : Nat) := rfl
    rw [q, r, Int.natAbs_natCast]
    split
    · have some_ : n % d ≠ 0 := by omega
      rw [Int.sign_natCast_of_ne_zero some_]
      push_cast
      rfl
    · simp
  rcases Int.eq_nat_or_neg n with ⟨n, rfl | rfl⟩
  · exact natural n
  · have turned : ((-(n : Int) : Int) : ℚ) / d = -((n : ℚ) / d) := by
      push_cast
      rw [neg_div]
    rw [turned, nearest_neg, natural, Int.neg_tdiv, Int.neg_tmod, Int.natAbs_neg, Int.sign_neg]
    split <;> ring

/-- Toward zero. -/
def truncate (x : ℚ) : ℤ := if 0 ≤ x then ⌊x⌋ else -⌊-x⌋

theorem truncate_neg (x : ℚ) : truncate (-x) = -truncate x := by
  unfold truncate
  rcases lt_trichotomy x 0 with below | zero | above
  · rw [if_pos (by linarith), if_neg (not_le.mpr below), neg_neg]
  · subst zero
    norm_num
  · rw [if_neg (by linarith), if_pos above.le, neg_neg]

theorem truncate_div (a b : Int) : truncate (a / b) = a.tdiv b := by
  have natural (a b : Nat) : truncate ((a : ℚ) / b) = (a : Int).tdiv b := by
    unfold truncate
    rw [if_pos (by positivity), Rat.floor_natCast_div_natCast]
    rfl
  rcases Int.eq_nat_or_neg a with ⟨a, rfl | rfl⟩ <;> rcases Int.eq_nat_or_neg b with ⟨b, rfl | rfl⟩
  · exact natural a b
  · rw [Int.cast_neg, div_neg, truncate_neg, Int.tdiv_neg]
    exact congrArg Neg.neg (natural a b)
  · rw [Int.cast_neg, neg_div, truncate_neg, Int.neg_tdiv]
    exact congrArg Neg.neg (natural a b)
  · rw [Int.cast_neg, Int.cast_neg, neg_div_neg_eq, Int.neg_tdiv, Int.tdiv_neg, neg_neg]
    exact natural a b

end Adelie
