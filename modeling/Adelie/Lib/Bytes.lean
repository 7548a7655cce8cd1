import Mathlib

namespace Adelie

/-- The low `n` bytes of a number, least significant first. -/
def leBytes : Nat → Nat → List UInt8
  | 0, _ => []
  | n + 1, v => .ofNat (v % 256) :: leBytes n (v / 256)

def leNat : List UInt8 → Nat
  | [] => 0
  | b :: rest => b.toNat + 256 * leNat rest

@[simp] theorem leBytes_length (n v : Nat) : (leBytes n v).length = n := by
  induction n generalizing v with
  | zero => rfl
  | succ n ih => rw [leBytes, List.length_cons, ih]

theorem leNat_leBytes {n v : Nat} (small : v < 256 ^ n) : leNat (leBytes n v) = v := by
  induction n generalizing v with
  | zero =>
    have : v = 0 := by omega
    subst this
    rfl
  | succ n ih =>
    have rest : v / 256 < 256 ^ n := by
      rw [Nat.div_lt_iff_lt_mul (by decide), ← Nat.pow_succ]
      exact small
    have byte : (UInt8.ofNat (v % 256)).toNat = v % 256 := by
      rw [UInt8.toNat_ofNat']
      omega
    rw [leBytes, leNat, ih rest, byte]
    omega

theorem leNat_lt (bytes : List UInt8) : leNat bytes < 256 ^ bytes.length := by
  induction bytes with
  | nil => decide
  | cons b rest ih =>
    have := b.toNat_lt
    rw [leNat, List.length_cons, Nat.pow_succ]
    omega

theorem leBytes_leNat (bytes : List UInt8) : leBytes bytes.length (leNat bytes) = bytes := by
  induction bytes with
  | nil => rfl
  | cons b rest ih =>
    have small := b.toNat_lt
    rw [List.length_cons, leBytes, leNat]
    have low : (b.toNat + 256 * leNat rest) % 256 = b.toNat := by omega
    have high : (b.toNat + 256 * leNat rest) / 256 = leNat rest := by omega
    rw [low, high, ih, UInt8.ofNat_toNat]

theorem leBytes_inj {n v w : Nat} (v_lt : v < 256 ^ n) (w_lt : w < 256 ^ n) (same : leBytes n v = leBytes n w) : v = w := by
  rw [← leNat_leBytes v_lt, same, leNat_leBytes w_lt]

/-- Two's complement in `w` bits. -/
def toWord (w : Nat) (v : Int) : Nat := (v % 2 ^ w).toNat

def ofWord (w : Nat) (n : Nat) : Int := if n < 2 ^ (w - 1) then n else (n : Int) - 2 ^ w

theorem toWord_lt (w : Nat) (v : Int) : toWord w v < 2 ^ w := by
  have positive : (0 : Int) < 2 ^ w := by positivity
  have below := Int.emod_lt_of_pos v positive
  have nonneg := Int.emod_nonneg v positive.ne'
  have : ((v % 2 ^ w).toNat : Int) < ((2 ^ w : Nat) : Int) := by
    rw [Int.toNat_of_nonneg nonneg]
    push_cast
    exact below
  exact_mod_cast this

theorem ofWord_toWord {w : Nat} (wide : 0 < w) {v : Int} (low : -2 ^ (w - 1) ≤ v) (high : v < 2 ^ (w - 1)) :
    ofWord w (toWord w v) = v := by
  obtain ⟨k, rfl⟩ : ∃ k, w = k + 1 := ⟨w - 1, by omega⟩
  simp only [Nat.add_sub_cancel] at low high
  have double : (2 : Int) ^ (k + 1) = 2 * 2 ^ k := by rw [pow_succ]; ring
  have positive : (0 : Int) < 2 ^ k := by positivity
  unfold ofWord toWord
  simp only [Nat.add_sub_cancel]
  by_cases sign : 0 ≤ v
  · have same : v % 2 ^ (k + 1) = v := Int.emod_eq_of_lt sign (by omega)
    rw [same]
    have small : v.toNat < 2 ^ k := by
      have : (v.toNat : Int) < ((2 ^ k : Nat) : Int) := by
        rw [Int.toNat_of_nonneg sign]
        push_cast
        exact high
      exact_mod_cast this
    rw [if_pos small]
    exact Int.toNat_of_nonneg sign
  · have same : v % 2 ^ (k + 1) = v + 2 ^ (k + 1) := by
      rw [← Int.add_emod_right]
      exact Int.emod_eq_of_lt (by omega) (by omega)
    have nonneg : 0 ≤ v + 2 ^ (k + 1) := by omega
    rw [same]
    have large : ¬ (v + 2 ^ (k + 1)).toNat < 2 ^ k := by
      intro less
      have : ((v + 2 ^ (k + 1)).toNat : Int) < ((2 ^ k : Nat) : Int) := by exact_mod_cast less
      rw [Int.toNat_of_nonneg nonneg] at this
      push_cast at this
      omega
    rw [if_neg large, Int.toNat_of_nonneg nonneg]
    ring

end Adelie
