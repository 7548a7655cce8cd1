import Adelie.Lib.Calendar
import Adelie.Types.DateText

namespace Adelie

open Calendar

theorem daysInMonth_eq (y : Int) (m : Nat) : daysInMonth y m = monthDays y m := rfl

/-- From the first of March, a year's leap day is over. -/
theorem yearStart_march (y : Int) :
    yearStart y + (if Leap y then 1 else 0) = 365 * (y - 1970) + (y / 4 - y / 100 + y / 400 - 477) := by
  unfold yearStart
  by_cases leap : Leap y
  · rw [if_pos leap]
    unfold Leap at leap
    omega
  · rw [if_neg leap]
    unfold Leap at leap
    omega

/-- The code's terms of a day count are a date's. -/
theorem CivilDay.number_eq {z era : Int} {c q s mp d : Nat} (day : CivilDay z era c q s mp d) {y : Int}
    (year : y = (if mp < 10 then 0 else 1) + (100 * c + 4 * q + s : Nat) + era * 400) :
    yearStart y + monthStart y (if mp < 10 then mp + 3 else mp - 9) + d - 1 = z := by
  obtain ⟨rfl, century, cycle, few, month, first, _⟩ := day
  by_cases early : mp < 10
  · rw [if_pos early, monthStart_eq y (by omega) (by omega), if_neg (by omega)]
    rw [if_pos early] at year
    have march := yearStart_march y
    have leap : ((if Leap y then 1 else 0 : Nat) : Int) = if Leap y then 1 else 0 := by split_ifs <;> rfl
    have quarters : y / 4 = 25 * c + q + 100 * era := by omega
    have centuries : y / 100 = c + 4 * era := by omega
    have eras : y / 400 = era := by omega
    rw [quarters, centuries, eras] at march
    rw [Nat.add_sub_cancel]
    push_cast [leap]
    omega
  · rw [if_neg early, monthStart_eq y (by omega) (by omega), if_pos (by omega)]
    rw [if_neg early] at year
    have quarters : (y - 1) / 4 = 25 * c + q + 100 * era := by omega
    have centuries : (y - 1) / 100 = c + 4 * era := by omega
    have eras : (y - 1) / 400 = era := by omega
    unfold yearStart
    rw [quarters, centuries, eras]
    omega

/-- A day count is printed as the date it is the number of. -/
theorem exists_date (z : Int) : ∃ t : Date, civilFromDays z = (t.year, t.month, t.day) ∧ t.number = z := by
  obtain ⟨era, c, q, s, mp, d, day, civil⟩ := exists_civilDay z
  have last := day.last
  have := day.century
  have := day.cycle
  have := day.year
  have := day.month
  have counted := day.number_eq rfl
  have inside : d ≤ monthDays ((if mp < 10 then 0 else 1) + (100 * c + 4 * q + s : Nat) + era * 400)
      (if mp < 10 then mp + 3 else mp - 9) := by
    unfold monthDays Leap
    split_ifs at last ⊢ <;> omega
  exact ⟨⟨_, _, d, by split_ifs <;> omega, by split_ifs <;> omega, day.first, inside⟩, civil, counted⟩

theorem civilFromDays_number (t : Date) : civilFromDays t.number = (t.year, t.month, t.day) := by
  obtain ⟨s, civil, counted⟩ := exists_date t.number
  rw [civil, Date.number_injective counted]

/-- The years a day count near the epoch falls in. -/
theorem Calendar.Date.number_near (t : Date) (near : -2 ^ 31 ≤ t.year ∧ t.year ≤ 2 ^ 31) :
    -2 ^ 40 ≤ t.number ∧ t.number ≤ 2 ^ 40 := by
  have low := t.yearStart_le
  have high := t.number_lt
  have := yearDays_bounds t.year
  unfold yearStart at low high
  omega

/-- A date's number, where an `i64` holds all on the way. -/
theorem daysFromCivil_number (P : Platform) (t : Date) {y n : I64} (year : y.val = t.year) (count : n.val = t.number)
    (near : -2 ^ 40 ≤ t.number ∧ t.number ≤ 2 ^ 40) : P.daysFromCivil y t.month t.day = .ok n := by
  obtain ⟨w, m, d, civil, _, _, _, _, counted⟩ := exists_civil near
  rw [civilFromDays_number t] at civil
  obtain ⟨same, month, day⟩ : t.year = w.val ∧ t.month = m ∧ t.day = d := by simpa [Prod.ext_iff] using civil
  have back : y = w := Subtype.ext (year.trans same)
  rw [back, month, day]
  exact counted P n count

/-- The triple of a date in the order of dates. -/
def dateOrder (date : Int × Nat × Nat) : Int ×ₗ (Nat ×ₗ Nat) := toLex (date.1, toLex date.2)

theorem civilFromDays_strictMono : StrictMono fun z => dateOrder (civilFromDays z) := by
  intro z z' later
  obtain ⟨s, civil, rfl⟩ := exists_date z
  obtain ⟨t, civil', rfl⟩ := exists_date z'
  change dateOrder (civilFromDays s.number) < dateOrder (civilFromDays t.number)
  rw [civil, civil']
  exact Date.number_lt_iff.mp later

/-- Day counts and dates, one to one and in one order. -/
theorem civil_bijection :
    (∀ z : Int, -2 ^ 40 ≤ z ∧ z ≤ 2 ^ 40 → ∃ (y : I64) (m d : Nat), civilFromDays z = (y.val, m, d) ∧
      (1 ≤ m ∧ m ≤ 12) ∧ (1 ≤ d ∧ d ≤ daysInMonth y.val m) ∧
      ∀ (P : Platform) (n : I64), n.val = z → P.daysFromCivil y m d = .ok n) ∧
    (∀ (y : I64) (m d : Nat), -2 ^ 31 ≤ y.val ∧ y.val ≤ 2 ^ 31 → 1 ≤ m ∧ m ≤ 12 → 1 ≤ d ∧ d ≤ daysInMonth y.val m →
      ∃ n : I64, (∀ P : Platform, P.daysFromCivil y m d = .ok n) ∧ civilFromDays n.val = (y.val, m, d)) ∧
    StrictMono fun z => dateOrder (civilFromDays z) := by
  refine ⟨?_, ?_, civilFromDays_strictMono⟩
  · intro z near
    obtain ⟨y, m, d, civil, first, last, least, most, counted⟩ := exists_civil near
    exact ⟨y, m, d, civil, ⟨first, last⟩, ⟨least, most⟩, counted⟩
  · intro y m d near month day
    let t : Date := ⟨y.val, m, d, month.1, month.2, day.1, day.2⟩
    have close := t.number_near near
    let n : I64 := ⟨t.number, by omega, by omega⟩
    exact ⟨n, fun P => daysFromCivil_number P t rfl rfl close, civilFromDays_number t⟩

theorem civil_bijection_leapDay : ∃ n : I64, (∀ P : Platform, P.daysFromCivil ⟨-4, by decide⟩ 2 29 = .ok n) ∧
    civilFromDays n.val = (-4, 2, 29) :=
  civil_bijection.2.1 ⟨-4, by decide⟩ 2 29 (by decide) (by decide) (by decide)

end Adelie
