import Adelie.Types.Lossless
import Adelie.Types.Parse
import Adelie.Types.Text

namespace Adelie

/-- Division toward zero, shifted below zero, is the floor. -/
theorem tdiv_eq_floor (n : Int) {k : Int} (positive : 0 < k) : (if 0 ≤ n then n else n - (k - 1)).tdiv k = n / k := by
  split
  · rename_i nonneg
    exact Int.tdiv_eq_ediv_of_nonneg nonneg
  · rename_i negative
    have flipped : n - (k - 1) = -(k - 1 - n) := by ring
    rw [flipped, Int.neg_tdiv, Int.tdiv_eq_ediv_of_nonneg (by omega)]
    have quotient := Int.mul_ediv_add_emod (k - 1 - n) k
    have low := Int.emod_nonneg (k - 1 - n) (by omega : k ≠ 0)
    have high := Int.emod_lt_of_pos (k - 1 - n) positive
    apply Eq.symm
    apply ((Int.ediv_emod_unique positive).mpr _).1
    · exact k - 1 - (k - 1 - n) % k
    · refine ⟨?_, by omega, by omega⟩
      rw [Int.mul_neg]
      omega

/-- A day of the 400 years that begin on a first of March, by century, four-year cycle, year and day of the year. -/
structure EraDay (doe c q s j : Nat) : Prop where
  day : doe = 36524 * c + 1461 * q + 365 * s + j
  century : c ≤ 3
  cycle : q ≤ 24
  year : s ≤ 3
  day_le : j ≤ 365
  leap : j = 365 → s = 3 ∧ (q = 24 → c = 3)

theorem exists_eraDay {doe : Nat} (day : doe < 146097) : ∃ c q s j, EraDay doe c q s j := by
  have of_century : ∀ c r, doe = 36524 * c + r → c ≤ 3 → r < 36525 → (r = 36524 → c = 3) → ∃ c q s j, EraDay doe c q s j := by
    intro c r split_ few short last
    have of_year : ∀ s, s ≤ 3 → 365 * s ≤ r % 1461 → r % 1461 < 365 * (s + 1) + (if s = 3 then 1 else 0) →
        ∃ c q s j, EraDay doe c q s j := by
      intro s year low high
      refine ⟨c, r / 1461, s, r % 1461 - 365 * s, by omega, few, by omega, year, ?_, ?_⟩
      · split at high <;> omega
      · split at high <;> omega
    by_cases third : 1095 ≤ r % 1461
    · exact of_year 3 (by decide) third (by simp; omega)
    · refine of_year (r % 1461 / 365) (by omega) (by omega) ?_
      rw [if_neg (by omega)]
      omega
  by_cases last : 109572 ≤ doe
  · exact of_century 3 (doe - 109572) (by omega) (by decide) (by omega) (fun _ => rfl)
  · exact of_century (doe / 36524) (doe % 36524) (by omega) (by omega) (by omega) (by omega)

namespace EraDay

variable {doe c q s j : Nat}

/-- The divisions find the year: the leap days before it are what they take off. -/
theorem yearOfEra (e : EraDay doe c q s j) :
    (doe - doe / 1460 + doe / 36524 - doe / 146096) / 365 = 100 * c + 4 * q + s := by
  obtain ⟨rfl, century, cycle, year, day_le, leap⟩ := e
  have quarter : (36524 * c + 1461 * q + 365 * s + j) / 1460 = 25 * c + q + (24 * c + q + 365 * s + j) / 1460 := by omega
  by_cases last : 36524 * c + 1461 * q + 365 * s + j = 146096
  · rw [last]
    omega
  · have centuries : (36524 * c + 1461 * q + 365 * s + j) / 36524 = c := by omega
    have eras : (36524 * c + 1461 * q + 365 * s + j) / 146096 = 0 := by omega
    rw [quarter, centuries, eras]
    omega

theorem dayOfYear (e : EraDay doe c q s j) :
    doe - (365 * (100 * c + 4 * q + s) + (100 * c + 4 * q + s) / 4 - (100 * c + 4 * q + s) / 100) = j := by
  obtain ⟨rfl, century, cycle, year, day_le, leap⟩ := e
  omega

end EraDay

/-- A month, counted from March, and its day: what a day of the year is taken apart into. -/
theorem month_of_day {j : Nat} (day : j ≤ 365) : (5 * j + 2) / 153 ≤ 11 ∧
    (153 * ((5 * j + 2) / 153) + 2) / 5 ≤ j ∧ j < (153 * ((5 * j + 2) / 153 + 1) + 2) / 5 := by
  omega

/-- The year, month and day of a day count, with the terms they come from. -/
structure CivilDay (z : Int) (era : Int) (c q s mp d : Nat) : Prop where
  day : z = 146097 * era + (36524 * c + 1461 * q + 365 * s + ((153 * mp + 2) / 5 + d - 1) : Nat) - 719468
  century : c ≤ 3
  cycle : q ≤ 24
  year : s ≤ 3
  month : mp ≤ 11
  first : 1 ≤ d
  last : d ≤ if mp = 11 then (if s = 3 ∧ (q = 24 → c = 3) then 29 else 28) else
    if mp = 1 ∨ mp = 3 ∨ mp = 6 ∨ mp = 8 then 30 else 31

theorem exists_civilDay (z : Int) : ∃ era c q s mp d, CivilDay z era c q s mp d ∧
    civilFromDays z = ((if mp < 10 then 0 else 1) + (100 * c + 4 * q + s : Nat) + era * 400,
      (if mp < 10 then mp + 3 else mp - 9), d) := by
  have floor : (if 0 ≤ z + 719468 then z + 719468 else z + 719468 - 146096).tdiv 146097 = (z + 719468) / 146097 :=
    @tdiv_eq_floor (z + 719468) 146097 (by decide)
  have small : (z + 719468 - (z + 719468) / 146097 * 146097).toNat < 146097 := by omega
  obtain ⟨c, q, s, j, e⟩ := exists_eraDay small
  obtain ⟨months, low, high⟩ := month_of_day e.day_le
  refine ⟨(z + 719468) / 146097, c, q, s, (5 * j + 2) / 153, j - (153 * ((5 * j + 2) / 153) + 2) / 5 + 1, ?_, ?_⟩
  · have back : (153 * ((5 * j + 2) / 153) + 2) / 5 + (j - (153 * ((5 * j + 2) / 153) + 2) / 5 + 1) - 1 = j := by omega
    refine ⟨?_, e.century, e.cycle, e.year, months, by omega, ?_⟩
    · rw [back, ← e.day]
      omega
    · have leap := e.leap
      have day_le := e.day_le
      generalize (5 * j + 2) / 153 = mp at months low high ⊢
      split_ifs <;> omega
  · unfold civilFromDays
    simp only [floor, e.yearOfEra, e.dayOfYear]
    ext
    · dsimp only
      split_ifs <;> omega
    · rfl
    · rfl

namespace Platform

variable (P : Platform)

theorem i64_of_fits {n : Int} (operation : String) (fits : -2 ^ 63 ≤ n ∧ n < 2 ^ 63) : P.i64 operation n = .ok ⟨n, fits⟩ := by
  rw [Platform.i64, toI64?_of_val ⟨n, fits⟩ rfl]

theorem i64_bind {n : Int} {operation : String} {f : I64 → Except String α} (fits : -2 ^ 63 ≤ n ∧ n < 2 ^ 63) :
    (P.i64 operation n >>= f) = f ⟨n, fits⟩ := by
  rw [P.i64_of_fits operation fits]
  rfl

/-- What follows the year's own start. -/
def daysOfMarch (y base : I64) (mp d : Nat) : Except String I64 := do
  let era := base.val.tdiv 400
  let yoe ← P.i64 "subtract" (y.val - era * 400)
  let doy : Int := (153 * mp + 2) / 5 + d - 1
  let days ← P.i64 "multiply" (yoe.val * 365)
  let days ← P.i64 "add" (days.val + yoe.val.tdiv 4)
  let days ← P.i64 "subtract" (days.val - yoe.val.tdiv 100)
  let doe ← P.i64 "add" (days.val + doy)
  let eras ← P.i64 "multiply" (era * 146097)
  let days ← P.i64 "add" (eras.val + doe.val)
  P.i64 "subtract" (days.val - 719468)

theorem daysFromCivil_eq (y : I64) (m d : Nat) : P.daysFromCivil y m d =
    (if m ≤ 2 then P.i64 "subtract" (y.val - 1) else .ok y).bind fun y =>
      (if 0 ≤ y.val then .ok y else P.i64 "subtract" (y.val - 399)).bind fun base =>
        P.daysOfMarch y base (if 2 < m then m - 3 else m + 9) d := by
  unfold daysFromCivil
  by_cases early : m ≤ 2
  · rw [if_pos early, if_pos early]
    apply congrArg (Except.bind (P.i64 "subtract" (y.val - 1)))
    funext y
    by_cases nonneg : 0 ≤ y.val
    · simp only [if_pos nonneg]
      rfl
    · simp only [if_neg nonneg]
      rfl
  · rw [if_neg early, if_neg early]
    apply congrArg (Except.bind (.ok y))
    funext y
    by_cases nonneg : 0 ≤ y.val
    · simp only [if_pos nonneg]
      rfl
    · simp only [if_neg nonneg]
      rfl

/-- The year, month and day of a day count lead back to it. -/
theorem daysFromCivil_of_civilDay {z era : Int} {c q s mp d : Nat} (day : CivilDay z era c q s mp d)
    (near : -2 ^ 40 ≤ z ∧ z ≤ 2 ^ 40) (y n : I64)
    (year : y.val = (if mp < 10 then 0 else 1) + (100 * c + 4 * q + s : Nat) + era * 400) (count : n.val = z) :
    P.daysFromCivil y (if mp < 10 then mp + 3 else mp - 9) d = .ok n := by
  obtain ⟨rfl, century, cycle, quarter, month, first, last⟩ := day
  have few : d ≤ 31 := by split_ifs at last <;> omega
  obtain ⟨w, march⟩ : ∃ w : I64, w.val = (100 * c + 4 * q + s : Nat) + era * 400 :=
    ⟨⟨(100 * c + 4 * q + s : Nat) + era * 400, by omega, by omega⟩, rfl⟩
  have shift : (if (if mp < 10 then mp + 3 else mp - 9) ≤ 2 then P.i64 "subtract" (y.val - 1) else .ok y) = .ok w := by
    by_cases early : mp < 10
    · rw [if_pos early, if_neg (by omega)]
      rw [if_pos early] at year
      congr 1
      apply Subtype.ext
      omega
    · rw [if_neg early, if_pos (by omega), P.i64_of_fits _ ⟨by omega, by omega⟩]
      rw [if_neg early] at year
      congr 1
      apply Subtype.ext
      change y.val - 1 = w.val
      omega
  obtain ⟨b, low⟩ : ∃ b : I64, b.val = if 0 ≤ w.val then w.val else w.val - (400 - 1) :=
    ⟨⟨if 0 ≤ w.val then w.val else w.val - (400 - 1), by split_ifs <;> omega, by split_ifs <;> omega⟩, rfl⟩
  have base : (if 0 ≤ w.val then .ok w else P.i64 "subtract" (w.val - 399)) = .ok b := by
    split_ifs at low ⊢
    · congr 1
      exact Subtype.ext low.symm
    · rw [P.i64_of_fits _ ⟨by omega, by omega⟩]
      congr 1
      apply Subtype.ext
      change w.val - 399 = b.val
      omega
  have eras : b.val.tdiv 400 = era := by
    rw [low, tdiv_eq_floor w.val (by decide)]
    omega
  have from_march : (if 2 < if mp < 10 then mp + 3 else mp - 9 then (if mp < 10 then mp + 3 else mp - 9) - 3
      else (if mp < 10 then mp + 3 else mp - 9) + 9) = mp := by
    split_ifs <;> omega
  have yearOfEra : w.val - era * 400 = (100 * c + 4 * q + s : Nat) := by omega
  have quarters : ((100 * c + 4 * q + s : Nat) : Int).tdiv 4 = (25 * c + q : Nat) := by
    rw [Int.tdiv_eq_ediv_of_nonneg (by omega)]
    omega
  have centuries : ((100 * c + 4 * q + s : Nat) : Int).tdiv 100 = c := by
    rw [Int.tdiv_eq_ediv_of_nonneg (by omega)]
    omega
  rw [daysFromCivil_eq, shift, from_march]
  change (Except.bind (if 0 ≤ w.val then .ok w else P.i64 "subtract" (w.val - 399)) fun base => P.daysOfMarch w base mp d) = _
  rw [base]
  change P.daysOfMarch w b mp d = _
  unfold daysOfMarch
  clear shift base from_march low march year last
  simp only [eras, yearOfEra]
  rw [P.i64_bind ⟨by omega, by omega⟩]
  dsimp only
  rw [P.i64_bind ⟨by omega, by omega⟩]
  simp only [quarters, centuries]
  rw [P.i64_bind ⟨by omega, by omega⟩]
  dsimp only
  rw [P.i64_bind ⟨by omega, by omega⟩]
  dsimp only
  rw [P.i64_bind ⟨by omega, by omega⟩]
  dsimp only
  rw [P.i64_bind ⟨by omega, by omega⟩]
  dsimp only
  rw [P.i64_bind ⟨by omega, by omega⟩]
  dsimp only
  rw [P.i64_of_fits _ ⟨by omega, by omega⟩]
  congr 1
  apply Subtype.ext
  rw [count]
  dsimp only
  omega

end Platform

end Adelie
