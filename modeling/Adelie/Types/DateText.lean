import Adelie.Types.Civil
import Adelie.Types.DecimalText
import Adelie.Types.Digits

namespace Adelie

/-- What a day count is printed from leads back to it, within the calendar's own bounds. -/
theorem exists_civil {z : Int} (near : -2 ^ 40 ≤ z ∧ z ≤ 2 ^ 40) : ∃ (y : I64) (m d : Nat),
    civilFromDays z = (y.val, m, d) ∧ 1 ≤ m ∧ m ≤ 12 ∧ 1 ≤ d ∧ d ≤ daysInMonth y.val m ∧
      ∀ (P : Platform) (n : I64), n.val = z → P.daysFromCivil y m d = .ok n := by
  obtain ⟨era, c, q, s, mp, d, day, civil⟩ := exists_civilDay z
  have fits : -2 ^ (64 - 1) ≤ (if mp < 10 then 0 else 1 : Int) + (100 * c + 4 * q + s : Nat) + era * 400 ∧
      (if mp < 10 then 0 else 1 : Int) + (100 * c + 4 * q + s : Nat) + era * 400 < 2 ^ (64 - 1) := by
    have := day.day
    have := day.century
    have := day.cycle
    have := day.year
    have few : d ≤ 31 := by
      have := day.last
      split_ifs at this <;> omega
    have := day.month
    split_ifs <;> omega
  refine ⟨⟨_, fits⟩, if mp < 10 then mp + 3 else mp - 9, d, civil, ?_, ?_, day.first, ?_, ?_⟩
  · have := day.month
    split_ifs <;> omega
  · have := day.month
    split_ifs <;> omega
  · have last := day.last
    have := day.century
    have := day.cycle
    have := day.year
    have := day.month
    unfold daysInMonth
    dsimp only
    split_ifs at last ⊢ <;> omega
  · intro P n count
    exact P.daysFromCivil_of_civilDay day near _ n rfl count

theorem isAscii_of_isDigit {c : Char} (digit : c.isDigit = true) : isAscii c = true := by
  simp only [Char.isDigit, Bool.and_eq_true, decide_eq_true_eq] at digit
  simp only [isAscii, decide_eq_true_eq]
  have high : c.val.toNat ≤ 57 := UInt32.le_iff_toNat_le.mp digit.2
  change c.val.toNat < 128
  omega

/-- A number of two digits. -/
theorem padded_two {n : Nat} (small : n < 100) : ∃ a b : Char, (padded 2 n).toList = [a, b] ∧
    a.isDigit = true ∧ b.isDigit = true := by
  have length : (padded 2 n).toList.length = 2 := length_padded (by decide) small
  have digits := (spells_padded 2 n).digits
  obtain ⟨a, b, listed⟩ := List.length_eq_two.mp length
  rw [listed] at digits ⊢
  simp only [List.all_cons, List.all_nil, Bool.and_true, Bool.and_eq_true] at digits
  exact ⟨a, b, rfl, digits.1, digits.2⟩

/-- A year is digits, behind a `-` or not. -/
theorem padded_ascii (n : Int) : ∀ c ∈ (padded 4 n).toList, c.isDigit = true ∨ c = '-' := by
  intro c inside
  by_cases negative : n < 0
  · obtain ⟨text, listed, spells⟩ := padded_negative 4 negative
    rw [listed] at inside
    rcases List.mem_cons.mp inside with rfl | inside
    · exact .inr rfl
    · exact .inl (List.all_eq_true.mp spells.digits c inside)
  · obtain ⟨m, rfl⟩ := Int.eq_ofNat_of_zero_le (by omega : 0 ≤ n)
    exact .inl (List.all_eq_true.mp (spells_padded 4 m).digits c inside)

/-- A fraction of a second is nothing, or digits that stand for its nanoseconds. -/
theorem formatFraction_chars {ns : Nat} (small : ns < 10 ^ 9) : ns = 0 ∧ (formatFraction ns).toList = [] ∨
    ∃ f : List Char, (formatFraction ns).toList = '.' :: f ∧ f ≠ [] ∧ f.length ≤ 9 ∧ f.all Char.isDigit = true ∧
      digitsValue f * 10 ^ (9 - f.length) = ns := by
  have group : ∀ width n, 0 < width → width ≤ 9 → n < 10 ^ width → n * 10 ^ (9 - width) = ns →
      ∃ f : List Char, ("." ++ padded width n).toList = '.' :: f ∧ f ≠ [] ∧ f.length ≤ 9 ∧ f.all Char.isDigit = true ∧
        digitsValue f * 10 ^ (9 - f.length) = ns := by
    intro width n positive few fits exact_
    have spells := spells_padded width n
    have length := length_padded positive fits
    refine ⟨(padded width n).toList, by rw [String.toList_append]; rfl, spells.some_, by omega, spells.digits, ?_⟩
    rw [spells.value, length, exact_]
  unfold formatFraction
  by_cases zero : ns = 0
  · exact .inl ⟨zero, by rw [if_pos zero]; rfl⟩
  · right
    rw [if_neg zero]
    by_cases millis : ns % 1000000 = 0
    · rw [if_pos millis]
      exact group 3 (ns / 1000000) (by decide) (by decide) (by omega) (by omega)
    · rw [if_neg millis]
      by_cases micros : ns % 1000 = 0
      · rw [if_pos micros]
        exact group 6 (ns / 1000) (by decide) (by decide) (by omega) (by omega)
      · rw [if_neg micros]
        exact group 9 ns (by decide) (by decide) (by omega) (by omega)

/-- A time of day, as a timestamp prints it between its `T` and its `Z`. -/
def timeText (ofDay : Nat) : List Char :=
  (padded 2 (ofDay / 1000000000 / 3600 : Nat)).toList ++ ':' :: (padded 2 (ofDay / 1000000000 % 3600 / 60 : Nat)).toList ++
    ':' :: (padded 2 (ofDay / 1000000000 % 60 : Nat)).toList ++ (formatFraction (ofDay % 1000000000)).toList

theorem formatTimestamp_chars (ns : Int) : (formatTimestamp ns).toList =
    (formatDate (ns / nsPerDay)).toList ++ 'T' :: (timeText (ns % nsPerDay).toNat ++ ['Z']) := by
  simp [formatTimestamp, formatDate, timeText]

section Times

variable {ofDay : Nat}

theorem timeText_parts (day : ofDay < 86400000000000) : ∃ a b c d e f : Char,
    timeText ofDay = [a, b, ':', c, d, ':', e, f] ++ (formatFraction (ofDay % 1000000000)).toList ∧
      (∀ x ∈ [a, b, c, d, e, f], x.isDigit = true) ∧ parseSigned 64 [a, b] = some ((ofDay / 1000000000 / 3600 : Nat) : Int) ∧
      parseSigned 64 [c, d] = some ((ofDay / 1000000000 % 3600 / 60 : Nat) : Int) ∧
      parseSigned 64 [e, f] = some ((ofDay / 1000000000 % 60 : Nat) : Int) := by
  obtain ⟨a, b, hours, a_digit, b_digit⟩ := @padded_two (ofDay / 1000000000 / 3600) (by omega)
  obtain ⟨c, d, minutes, c_digit, d_digit⟩ := @padded_two (ofDay / 1000000000 % 3600 / 60) (by omega)
  obtain ⟨e, f, seconds, e_digit, f_digit⟩ := @padded_two (ofDay / 1000000000 % 60) (by omega)
  refine ⟨a, b, c, d, e, f, ?_, ?_, ?_, ?_, ?_⟩
  · rw [timeText, hours, minutes, seconds]
    simp
  · intro x inside
    simp only [List.mem_cons, List.not_mem_nil, or_false] at inside
    rcases inside with rfl | rfl | rfl | rfl | rfl | rfl <;> assumption
  · rw [← hours]
    exact (spells_padded 2 _).parseSigned (by omega)
  · rw [← minutes]
    exact (spells_padded 2 _).parseSigned (by omega)
  · rw [← seconds]
    exact (spells_padded 2 _).parseSigned (by omega)

/-- The digits and separators of a time. -/
theorem timeText_chars (day : ofDay < 86400000000000) : ∀ x ∈ timeText ofDay, x.isDigit = true ∨ x = ':' ∨ x = '.' := by
  obtain ⟨a, b, c, d, e, f, listed, digits, _⟩ := timeText_parts day
  intro x inside
  rw [listed, List.mem_append] at inside
  rcases inside with inside | inside
  · have split_ : x ∈ [a, b, c, d, e, f] ∨ x = ':' := by
      simp only [List.mem_cons, List.not_mem_nil, or_false] at inside ⊢
      rcases inside with rfl | rfl | rfl | rfl | rfl | rfl | rfl | rfl <;> simp
    rcases split_ with digit | colon
    · exact .inl (digits x digit)
    · exact .inr (.inl colon)
  · rcases formatFraction_chars (Nat.mod_lt ofDay (by decide) : ofDay % 1000000000 < 10 ^ 9) with ⟨_, none_⟩ | ⟨g, some_, _, _, all, _⟩
    · rw [none_] at inside
      cases inside
    · rw [some_] at inside
      rcases List.mem_cons.mp inside with rfl | inside
      · exact .inr (.inr rfl)
      · exact .inl (List.all_eq_true.mp all x inside)

theorem parseTime_timeText (day : ofDay < 86400000000000) : Platform.parseTime (timeText ofDay) = some (ofDay : Int) := by
  obtain ⟨a, b, c, d, e, f, listed, digits, hours, minutes, seconds⟩ := timeText_parts day
  have absent : '.' ∉ [a, b, ':', c, d, ':', e, f] := by
    intro inside
    have dot : ∀ x ∈ [a, b, c, d, e, f], '.' ≠ x := by
      intro x member
      exact (ne_of_isDigit (digits x member) rfl).symm
    simp only [List.forall_mem_cons, List.not_mem_nil] at dot
    simp [dot.1, dot.2.1, dot.2.2.1, dot.2.2.2.1, dot.2.2.2.2.1, dot.2.2.2.2.2.1] at inside
  have shape : ¬ ([a, b, ':', c, d, ':', e, f].length ≠ 8 ∨ [a, b, ':', c, d, ':', e, f][2]? ≠ some ':' ∨
      [a, b, ':', c, d, ':', e, f][5]? ≠ some ':') := by
    simp
  have clock : ¬ ((24 : Int) ≤ (ofDay / 1000000000 / 3600 : Nat) ∨ (60 : Int) ≤ (ofDay / 1000000000 % 3600 / 60 : Nat) ∨
      (60 : Int) ≤ (ofDay / 1000000000 % 60 : Nat)) := by
    omega
  have hour_chars : parseSigned 64 ([a, b, ':', c, d, ':', e, f].take 2) = some ((ofDay / 1000000000 / 3600 : Nat) : Int) := hours
  have minute_chars : parseSigned 64 (([a, b, ':', c, d, ':', e, f].drop 3).take 2) =
      some ((ofDay / 1000000000 % 3600 / 60 : Nat) : Int) := minutes
  have second_chars : parseSigned 64 (([a, b, ':', c, d, ':', e, f].drop 6).take 2) =
      some ((ofDay / 1000000000 % 60 : Nat) : Int) := seconds
  rw [listed]
  rcases formatFraction_chars (Nat.mod_lt ofDay (by decide) : ofDay % 1000000000 < 10 ^ 9) with
    ⟨zero, none_⟩ | ⟨g, some_, nonempty, few, all, value⟩
  · unfold Platform.parseTime
    rw [none_, List.append_nil, splitOnce_of_not_mem absent]
    dsimp only
    rw [if_neg shape, hour_chars, minute_chars, second_chars]
    simp only [Option.bind_eq_bind, Option.bind_some]
    rw [if_neg clock]
    simp only [Option.pure_def, Option.some.injEq]
    omega
  · unfold Platform.parseTime
    rw [some_, splitOnce_append absent]
    dsimp only
    rw [if_neg shape, hour_chars, minute_chars, second_chars]
    simp only [Option.bind_eq_bind, Option.bind_some]
    have fits : (g.isEmpty || decide (9 < g.length) || !g.all Char.isDigit) = false := by
      simp [nonempty, few, all]
    rw [if_neg clock, fits, if_neg (by decide), value]
    simp only [Option.pure_def, Option.some.injEq]
    omega

end Times

/-- A date is digits and `-`. -/
theorem formatDate_chars (days : Int) : ∀ c ∈ (formatDate days).toList, c.isDigit = true ∨ c = '-' := by
  have number : ∀ (width n : Nat), ∀ c ∈ (padded width n).toList, c.isDigit = true ∨ c = '-' := by
    intro width n c inside
    exact .inl (List.all_eq_true.mp (spells_padded width n).digits c inside)
  intro c inside
  unfold formatDate at inside
  simp only [String.toList_append, List.mem_append] at inside
  rcases inside with (((inside | inside) | inside) | inside) | inside
  · exact padded_ascii _ c inside
  · exact .inr (by simpa using inside)
  · exact number _ _ c inside
  · exact .inr (by simpa using inside)
  · exact number _ _ c inside

namespace Platform

variable (P : Platform)

/-- A year, month and day that the calendar has, as text. -/
theorem parseDate_of_parts {year : List Char} {a b e f : Char} {y : I64} {m d : Nat}
    (plain : ∀ c ∈ year ++ ['-', a, b, '-', e, f], isAscii c = true) (years : parseSigned 64 year = some y.val)
    (months : parseUnsigned (2 ^ 32) [a, b] = some m) (days : parseUnsigned (2 ^ 32) [e, f] = some d)
    (month : 1 ≤ m ∧ m ≤ 12) (day : 1 ≤ d ∧ d ≤ daysInMonth y.val m) {n : I64} (counted : P.daysFromCivil y m d = .ok n) :
    P.parseDate (year ++ ['-', a, b, '-', e, f]) = .ok (toI32? n.val) := by
  have ascii : (year ++ ['-', a, b, '-', e, f]).all isAscii = true := List.all_eq_true.mpr plain
  have length : (year ++ ['-', a, b, '-', e, f]).length - 6 = year.length := by simp
  have long : ¬ (year ++ ['-', a, b, '-', e, f]).length < 6 := by simp
  have short : (!(year ++ ['-', a, b, '-', e, f]).all isAscii || decide ((year ++ ['-', a, b, '-', e, f]).length < 6)) = false := by
    rw [ascii, decide_eq_false long]
    rfl
  have signed : (parseSigned 64 year).bind toI64? = some y := by
    rw [years]
    exact toI64?_of_val y rfl
  have month_chars : parseUnsigned (2 ^ 32) ((['-', a, b, '-', e, f].drop 1).take 2) = some m := months
  have day_chars : parseUnsigned (2 ^ 32) ((['-', a, b, '-', e, f].drop 4).take 2) = some d := days
  have calendar : ¬ (m < 1 ∨ 12 < m ∨ d = 0 ∨ daysInMonth y.val m < d) := by omega
  unfold parseDate
  rw [short]
  simp only [Bool.false_eq_true, if_false, length, List.take_left, List.drop_left]
  rw [if_neg (by simp), signed, month_chars, day_chars]
  dsimp only
  rw [if_neg calendar, counted]
  rfl

/-- The text of a date reads as the date, where an `i32` counts its days. -/
theorem parseDate_formatDate {days : Int} (near : -2 ^ 40 ≤ days ∧ days ≤ 2 ^ 40) :
    P.parseDate (formatDate days).toList = .ok (toI32? days) := by
  obtain ⟨y, m, d, civil, low, high, first, last, counted⟩ := exists_civil near
  have month_fits : m < 100 := by omega
  have day_fits : d < 100 := by
    have : daysInMonth y.val m ≤ 31 := by
      unfold daysInMonth
      split_ifs <;> omega
    omega
  obtain ⟨a, b, months, a_digit, b_digit⟩ := padded_two month_fits
  obtain ⟨e, f, daysText, e_digit, f_digit⟩ := padded_two day_fits
  have listed : (formatDate days).toList = (padded 4 y.val).toList ++ ['-', a, b, '-', e, f] := by
    simp [formatDate, civil, months, daysText]
  have month_read : parseUnsigned (2 ^ 32) [a, b] = some m := by
    rw [← months]
    exact (spells_padded 2 m).parseUnsigned (by omega)
  have day_read : parseUnsigned (2 ^ 32) [e, f] = some d := by
    rw [← daysText]
    exact (spells_padded 2 d).parseUnsigned (by omega)
  obtain ⟨n, count⟩ : ∃ n : I64, n.val = days := ⟨⟨days, by omega, by omega⟩, rfl⟩
  rw [listed, P.parseDate_of_parts ?_ (parseSigned_padded 4 y) month_read day_read ⟨low, high⟩ ⟨first, last⟩ (counted P n count), count]
  intro c inside
  rw [← listed] at inside
  rcases formatDate_chars days c inside with digit | rfl
  · exact isAscii_of_isDigit digit
  · rfl

/-- A text is no date where its last six characters do not begin with a `-`. -/
theorem parseDate_none {front back : List Char} (long : 6 ≤ back.length) (absent : '-' ∉ back) :
    P.parseDate (front ++ back) = .ok none := by
  have head : ((front ++ back).drop ((front ++ back).length - 6))[0]? ≠ some '-' := by
    intro first
    rw [List.getElem?_drop, List.getElem?_append_right (by simp; omega)] at first
    exact absent (List.mem_of_getElem? first)
  unfold parseDate
  split
  · rfl
  · dsimp only
    rw [if_pos (.inl head)]

/-- The text of a timestamp reads as the timestamp, but for those of the first day `i64` reaches into: that day's
    midnight is out of range. -/
theorem parseTimestamp_formatTimestamp (ns : I64) : P.parseTimestamp (formatTimestamp ns.val).toList =
    .ok (if -9223286400000000000 ≤ ns.val then some ns else none) := by
  obtain ⟨ns, low, high⟩ := ns
  have day : (ns % nsPerDay).toNat < 86400000000000 := by
    unfold nsPerDay
    omega
  have near : -2 ^ 40 ≤ ns / nsPerDay ∧ ns / nsPerDay ≤ 2 ^ 40 := by
    unfold nsPerDay
    omega
  obtain ⟨days, count⟩ : ∃ days : I32, days.val = ns / nsPerDay := by
    refine ⟨⟨ns / nsPerDay, ?_, ?_⟩, rfl⟩ <;> unfold nsPerDay <;> omega
  have date : P.parseDate (formatDate (ns / nsPerDay)).toList = .ok (some days) := by
    rw [P.parseDate_formatDate near, ← count, toI32?, dif_pos days.property]
  have time_chars := timeText_chars day
  have long : 8 ≤ (timeText (ns % nsPerDay).toNat).length := by
    obtain ⟨a, b, c, d, e, f, listed, _⟩ := timeText_parts day
    rw [listed]
    simp
  have no_date : P.parseDate (formatTimestamp ns).toList = .ok none := by
    rw [formatTimestamp_chars]
    apply P.parseDate_none
    · simp
      omega
    · intro inside
      simp only [List.mem_cons, List.mem_append, List.not_mem_nil, or_false] at inside
      rcases inside with other | inside | other
      · cases other
      · rcases time_chars _ inside with digit | colon | dot
        · cases digit
        · cases colon
        · cases dot
      · cases other
  have ascii : (formatTimestamp ns).toList.all isAscii = true := by
    rw [List.all_eq_true, formatTimestamp_chars]
    intro c inside
    simp only [List.mem_append, List.mem_cons, List.not_mem_nil, or_false] at inside
    rcases inside with inside | rfl | inside | rfl
    · rcases formatDate_chars _ c inside with digit | rfl
      · exact isAscii_of_isDigit digit
      · rfl
    · rfl
    · rcases time_chars c inside with digit | rfl | rfl
      · exact isAscii_of_isDigit digit
      · rfl
      · rfl
    · rfl
  have parts : splitTimestamp (formatTimestamp ns).toList =
      some ((formatDate (ns / nsPerDay)).toList, timeText (ns % nsPerDay).toNat) := by
    have absent : 'T' ∉ (formatDate (ns / nsPerDay)).toList := by
      intro inside
      rcases formatDate_chars _ _ inside with digit | dash
      · cases digit
      · cases dash
    rw [splitTimestamp, formatTimestamp_chars, splitOnce_append absent]
    simp
  unfold parseTimestamp
  rw [ascii, no_date]
  simp only [Bool.not_true, Bool.false_eq_true, if_false]
  change (Except.bind (.ok none) _ : Except String (Option I64)) = _
  rw [Except.bind, parts]
  dsimp only
  rw [date]
  change (Except.bind (.ok (some days)) _ : Except String (Option I64)) = _
  rw [Except.bind]
  dsimp only
  rw [parseTime_timeText day]
  apply congrArg Except.ok
  rw [count]
  change ((toI64? (ns / nsPerDay * 86400000000000)).bind fun start => toI64? (start.val + (ns % nsPerDay).toNat)) = _
  unfold nsPerDay at day ⊢
  by_cases reached : -9223286400000000000 ≤ ns
  · have fits : -2 ^ 63 ≤ ns / 86400000000000 * 86400000000000 ∧ ns / 86400000000000 * 86400000000000 < 2 ^ 63 := by omega
    have whole : ns / 86400000000000 * 86400000000000 + ((ns % 86400000000000).toNat : Int) = ns := by omega
    rw [if_pos reached, toI64?_of_val ⟨_, fits⟩ rfl, Option.bind_some, whole]
    exact toI64?_of_val ⟨ns, low, high⟩ rfl
  · have out : ¬ (-2 ^ (64 - 1) ≤ ns / 86400000000000 * 86400000000000 ∧ ns / 86400000000000 * 86400000000000 < 2 ^ (64 - 1)) := by
      omega
    rw [if_neg reached, toI64?, dif_neg out]
    rfl

end Platform

end Adelie
