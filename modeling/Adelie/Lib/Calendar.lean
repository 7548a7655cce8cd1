import Mathlib.Algebra.BigOperators.Intervals
import Mathlib.Algebra.Order.BigOperators.Group.Finset
import Mathlib.Data.Prod.Lex
import Mathlib.Tactic.IntervalCases

namespace Adelie.Calendar

/-- A leap year of the proleptic Gregorian calendar. -/
def Leap (y : Int) : Prop := y % 4 = 0 ∧ (y % 100 ≠ 0 ∨ y % 400 = 0)

instance (y : Int) : Decidable (Leap y) := inferInstanceAs (Decidable (_ ∧ _))

def yearDays (y : Int) : Nat := if Leap y then 366 else 365

def monthDays (y : Int) (m : Nat) : Nat :=
  if m = 2 then if Leap y then 29 else 28
  else if m = 4 ∨ m = 6 ∨ m = 9 ∨ m = 11 then 30
  else 31

/-- The days from the first of January 1970 to the first of January of a year. -/
def yearStart (y : Int) : Int := 365 * (y - 1970) + ((y - 1) / 4 - (y - 1) / 100 + (y - 1) / 400 - 477)

/-- The days of a year before a month of it. -/
def monthStart (y : Int) (m : Nat) : Nat := ∑ before ∈ Finset.Ico 1 m, monthDays y before

theorem yearStart_epoch : yearStart 1970 = 0 := by decide

/-- One year after another. -/
theorem yearStart_succ (y : Int) : yearStart (y + 1) = yearStart y + yearDays y := by
  unfold yearStart
  by_cases leap : Leap y
  · rw [yearDays, if_pos leap]
    unfold Leap at leap
    omega
  · rw [yearDays, if_neg leap]
    unfold Leap at leap
    omega

theorem yearDays_bounds (y : Int) : 365 ≤ yearDays y ∧ yearDays y ≤ 366 := by
  unfold yearDays
  split_ifs <;> omega

theorem yearStart_add_le {y y' : Int} (later : y < y') : yearStart y + yearDays y ≤ yearStart y' := by
  have next := yearStart_succ y
  unfold yearStart at next ⊢
  omega

theorem monthStart_one (y : Int) : monthStart y 1 = 0 := by
  rw [monthStart, Finset.Ico_self, Finset.sum_empty]

/-- One month after another. -/
theorem monthStart_succ (y : Int) {m : Nat} (first : 1 ≤ m) : monthStart y (m + 1) = monthStart y m + monthDays y m :=
  Finset.sum_Ico_succ_top first _

theorem monthStart_mono (y : Int) {m m' : Nat} (later : m ≤ m') : monthStart y m ≤ monthStart y m' :=
  Finset.sum_le_sum_of_subset (Finset.Ico_subset_Ico_right later)

theorem monthStart_add_le (y : Int) {m m' : Nat} (first : 1 ≤ m) (later : m < m') :
    monthStart y m + monthDays y m ≤ monthStart y m' := by
  rw [← monthStart_succ y first]
  exact monthStart_mono y later

/-- The days before a month, in a year that keeps its leap day to the end of February. -/
theorem monthStart_eq (y : Int) {m : Nat} (first : 1 ≤ m) (last : m ≤ 13) :
    monthStart y m = if m ≤ 2 then 31 * (m - 1) else (153 * (m - 3) + 2) / 5 + 59 + (if Leap y then 1 else 0) := by
  have jan : monthStart y 1 = 0 := monthStart_one y
  have step := fun m (first : 1 ≤ m) => monthStart_succ y first
  by_cases leap : Leap y
  · interval_cases m <;> simp [step, jan, monthDays, leap]
  · interval_cases m <;> simp [step, jan, monthDays, leap]

/-- The months fill the year. -/
theorem monthStart_last (y : Int) : monthStart y 13 = yearDays y := by
  rw [monthStart_eq y (by decide) (by decide)]
  unfold yearDays
  by_cases leap : Leap y <;> simp [leap]

/-- A date of the calendar. -/
@[ext] structure Date where
  year : Int
  month : Nat
  day : Nat
  month_pos : 1 ≤ month
  month_le : month ≤ 12
  day_pos : 1 ≤ day
  day_le : day ≤ monthDays year month

namespace Date

/-- The days from the first of January 1970 to a date. -/
def number (t : Date) : Int := yearStart t.year + monthStart t.year t.month + t.day - 1

/-- Dates in order: by year, then by month, then by day. -/
def key (t : Date) : Int ×ₗ (Nat ×ₗ Nat) := toLex (t.year, toLex (t.month, t.day))

theorem dayOfYear_le (t : Date) : monthStart t.year t.month + t.day ≤ yearDays t.year := by
  have full := monthStart_last t.year
  have inside := monthStart_add_le t.year t.month_pos (show t.month < 13 from Nat.lt_succ_of_le t.month_le)
  have day := t.day_le
  omega

theorem yearStart_le (t : Date) : yearStart t.year ≤ t.number := by
  have := t.day_pos
  unfold number
  omega

theorem number_lt (t : Date) : t.number < yearStart t.year + yearDays t.year := by
  have := t.dayOfYear_le
  unfold number
  omega

variable {s t : Date}

/-- A later date has a greater number. -/
theorem number_lt_of_key_lt (later : s.key < t.key) : s.number < t.number := by
  rcases Prod.Lex.lt_iff.mp later with year | ⟨year, rest⟩
  · have := yearStart_add_le (show s.year < t.year from year)
    have := s.number_lt
    have := t.yearStart_le
    omega
  · have year : s.year = t.year := year
    rcases Prod.Lex.lt_iff.mp rest with month | ⟨month, day⟩
    · have := monthStart_add_le s.year s.month_pos (show s.month < t.month from month)
      have := s.day_le
      have := t.day_pos
      unfold number
      rw [← year]
      omega
    · have month : s.month = t.month := month
      have day : s.day < t.day := day
      unfold number
      rw [← year, ← month]
      omega

theorem key_injective : Function.Injective key := by
  intro s t same
  obtain ⟨year, rest⟩ := Prod.ext_iff.mp (toLex.injective same)
  obtain ⟨month, day⟩ := Prod.ext_iff.mp (toLex.injective rest)
  exact Date.ext year month day

theorem number_lt_iff : s.number < t.number ↔ s.key < t.key := by
  constructor
  · intro later
    by_contra not_
    rcases (not_lt.mp not_).lt_or_eq with before | same
    · exact absurd (number_lt_of_key_lt before) (by omega)
    · rw [key_injective same] at later
      omega
  · exact number_lt_of_key_lt

/-- A day is one date. -/
theorem number_injective : Function.Injective number := by
  intro s t same
  apply key_injective
  apply le_antisymm
  · exact not_lt.mp fun before => absurd (number_lt_of_key_lt before) (by omega)
  · exact not_lt.mp fun before => absurd (number_lt_of_key_lt before) (by omega)

end Date

/-- The day of the week, from Monday at `0`. -/
def weekday (z : Int) : Int := (z + 3) % 7

/-- The Thursday of a day's week. -/
def thursday (z : Int) : Int := z - weekday z + 3

/-- The week a day is in: the first week of a year holds its first Thursday. -/
def IsoWeek (z w : Int) : Prop :=
  ∃ t : Date, t.number = thursday z ∧ w = (t.number - yearStart t.year) / 7 + 1

/-- A year of 53 weeks begins or ends on a Thursday. -/
def LongYear (y : Int) : Prop := weekday (yearStart y) = 3 ∨ weekday (yearStart (y + 1) - 1) = 3

instance (y : Int) : Decidable (LongYear y) := inferInstanceAs (Decidable (_ ∨ _))

/-- The Thursdays of a year. -/
def isoWeeks (y : Int) : Int := if LongYear y then 53 else 52

/-- A year's Thursdays are numbered to their count. -/
theorem week_le {y z : Int} (thursday_ : weekday z = 3) (low : yearStart y ≤ z) (high : z < yearStart (y + 1)) :
    (z - yearStart y) / 7 + 1 ≤ isoWeeks y := by
  have next := yearStart_succ y
  have days := yearDays_bounds y
  unfold isoWeeks
  by_cases long : LongYear y
  · rw [if_pos long]
    omega
  · rw [if_neg long]
    unfold LongYear at long
    unfold weekday at thursday_ long
    omega

/-- The last Thursday of a year has the count for its number. -/
theorem week_last {y z : Int} (thursday_ : weekday z = 3) (low : yearStart (y + 1) - 7 ≤ z) (high : z < yearStart (y + 1)) :
    (z - yearStart y) / 7 + 1 = isoWeeks y := by
  have next := yearStart_succ y
  have days := yearDays_bounds y
  unfold isoWeeks
  by_cases long : LongYear y
  · rw [if_pos long]
    unfold LongYear at long
    unfold weekday at thursday_ long
    omega
  · rw [if_neg long]
    unfold LongYear at long
    unfold weekday at thursday_ long
    omega

theorem weekday_bounds (z : Int) : 0 ≤ weekday z ∧ weekday z < 7 := by
  unfold weekday
  omega

theorem weekday_thursday (z : Int) : weekday (thursday z) = 3 := by
  unfold thursday weekday
  omega

/-- The year of a day between two starts. -/
theorem Date.year_eq {t : Date} {y : Int} (low : yearStart y ≤ t.number) (high : t.number < yearStart (y + 1)) : t.year = y := by
  have from_ := t.yearStart_le
  have to_ := t.number_lt
  rw [← yearStart_succ] at to_
  by_contra other
  rcases lt_or_gt_of_ne other with before | after
  · have := yearStart_add_le before
    rw [← yearStart_succ] at this
    omega
  · have := yearStart_add_le after
    rw [← yearStart_succ] at this
    omega

/-- A day's week, by its own year: the last of the year before, the first of the next or the number of its Thursday here. -/
theorem isoWeek_eq {t : Date} {w : Int} (week : IsoWeek t.number w) :
    w = if thursday t.number < yearStart t.year then isoWeeks (t.year - 1)
      else if yearStart (t.year + 1) ≤ thursday t.number then 1
      else (thursday t.number - yearStart t.year) / 7 + 1 := by
  obtain ⟨u, at_, rfl⟩ := week
  have low := t.yearStart_le
  have high := t.number_lt
  rw [← yearStart_succ] at high
  have near : t.number - 3 ≤ thursday t.number ∧ thursday t.number ≤ t.number + 3 := by
    have := weekday_bounds t.number
    unfold thursday
    omega
  have days := yearDays_bounds (t.year - 1)
  have next := yearDays_bounds (t.year + 1)
  have before := yearStart_succ (t.year - 1)
  have after := yearStart_succ (t.year + 1)
  rw [Int.sub_add_cancel] at before
  rw [← at_] at near ⊢
  have on : weekday u.number = 3 := at_ ▸ weekday_thursday _
  split_ifs with early late
  · have year : u.year = t.year - 1 := Date.year_eq (by omega) (by rw [Int.sub_add_cancel]; exact early)
    rw [year]
    apply week_last on
    · rw [Int.sub_add_cancel]
      omega
    · rw [Int.sub_add_cancel]
      exact early
  · have year : u.year = t.year + 1 := Date.year_eq late (by omega)
    rw [year]
    omega
  · have year : u.year = t.year := Date.year_eq (by omega) (by omega)
    rw [year]

/-- A moment of the calendar, to the nanosecond. -/
structure Instant where
  date : Date
  hour : Nat
  minute : Nat
  second : Nat
  nano : Nat
  hour_lt : hour < 24
  minute_lt : minute < 60
  second_lt : second < 60
  nano_lt : nano < 1000000000

/-- The nanoseconds from the first instant of 1970. -/
def Instant.number (i : Instant) : Int :=
  i.date.number * 86400000000000 + (i.hour * 3600000000000 + i.minute * 60000000000 + i.second * 1000000000 + i.nano : Nat)

end Adelie.Calendar
