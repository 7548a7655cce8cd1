import Adelie.Exec.Time

namespace Adelie

open Calendar

/-- Every nanosecond is a moment of the calendar. -/
theorem exists_instant (ns : Int) : ∃ i : Instant, i.number = ns := by
  obtain ⟨t, _, counted⟩ := exists_date (ns / 86400000000000)
  let ofDay := (ns % 86400000000000).toNat
  refine ⟨⟨t, ofDay / 3600000000000, ofDay / 60000000000 % 60, ofDay / 1000000000 % 60, ofDay % 1000000000, ?_, ?_, ?_, ?_⟩, ?_⟩
  · omega
  · omega
  · omega
  · omega
  · unfold Instant.number
    dsimp only
    omega

/-- What a part names in the calendar. -/
def Part (i : Instant) : DatePart → Int → Prop
  | .year, n => n = i.date.year
  | .quarter, n => n = (i.date.month + 2) / 3
  | .month, n => n = i.date.month
  | .week, n => IsoWeek i.date.number n
  | .day, n => n = i.date.day
  | .dayOfWeek, n => n = (weekday i.date.number + 1) % 7
  | .dayOfYear, n => n = monthStart i.date.year i.date.month + i.date.day
  | .hour, n => n = i.hour
  | .minute, n => n = i.minute
  | .second, n => n = i.second
  | .millisecond, n => n = i.second * 1000 + i.nano / 1000000
  | .microsecond, n => n = i.second * 1000000 + i.nano / 1000
  | .epoch, n => n = i.number / 1000000000

/-- The weekday a year ends on decides. -/
theorem isoWeek.p_eq (y : Int) : isoWeek.p y = (yearStart (y + 1) + 3) % 7 := by
  unfold isoWeek.p yearStart
  rw [Int.add_sub_cancel]
  omega

theorem weeksInYear_eq (y : Int) : weeksInYear y = isoWeeks y := by
  have same : isoWeek.p y = 4 ∨ isoWeek.p (y - 1) = 3 ↔ LongYear y := by
    rw [isoWeek.p_eq, isoWeek.p_eq, Int.sub_add_cancel]
    unfold LongYear weekday
    omega
  unfold weeksInYear isoWeeks
  by_cases long : LongYear y
  · rw [if_pos long, if_pos (same.mpr long)]
  · rw [if_neg long, if_neg fun test => long (same.mp test)]

theorem exists_isoWeek (z : Int) : ∃ w, IsoWeek z w := by
  obtain ⟨u, _, counted⟩ := exists_date (thursday z)
  exact ⟨_, u, counted, rfl⟩

/-- The first of January, as a date. -/
theorem first_le : 1 ≤ 1 := Nat.le_refl 1

def newYear (y : Int) : Date := ⟨y, 1, 1, first_le, by decide, first_le, by simp [monthDays]⟩

theorem newYear_number (y : Int) : (newYear y).number = yearStart y := by
  unfold Date.number
  change yearStart y + monthStart y 1 + 1 - 1 = yearStart y
  rw [monthStart_one]
  omega

/-- A moment's day and the time of that day. -/
theorem instant_split (i : Instant) : i.number / nsPerDay = i.date.number ∧
    i.number % nsPerDay = (i.hour * 3600000000000 + i.minute * 60000000000 + i.second * 1000000000 + i.nano : Nat) := by
  have := i.hour_lt
  have := i.minute_lt
  have := i.second_lt
  have := i.nano_lt
  unfold Instant.number nsPerDay
  omega

namespace Platform

variable (P : Platform)

theorem dayOfYear_eq (t : Date) (near : -2 ^ 39 ≤ t.number ∧ t.number ≤ 2 ^ 39) :
    P.dayOfYear t.number t.year = .ok (t.number - yearStart t.year + 1) := by
  have low := t.yearStart_le
  have high := t.number_lt
  have days := yearDays_bounds t.year
  have fits : -2 ^ 63 ≤ t.year ∧ t.year < 2 ^ 63 := by
    unfold yearStart at low high
    omega
  have year : (yearVal t.year).val = t.year := by
    change (t.year + 2 ^ 63) % 2 ^ 64 - 2 ^ 63 = t.year
    omega
  obtain ⟨first, value⟩ : ∃ first : I64, first.val = yearStart t.year := ⟨⟨yearStart t.year, by omega, by omega⟩, rfl⟩
  have counted := daysFromCivil_number P (newYear t.year) (y := yearVal t.year) (n := first) year
    (value.trans (newYear_number t.year).symm) (by rw [newYear_number]; omega)
  have counted : P.daysFromCivil (yearVal t.year) 1 1 = .ok first := counted
  rw [dayOfYear, counted, ← value]
  rfl

theorem isoWeek_eq (t : Date) (near : -2 ^ 39 ≤ t.number ∧ t.number ≤ 2 ^ 39) {w : Int} (week : IsoWeek t.number w) :
    P.isoWeek t.number t.year = .ok w := by
  have low := t.yearStart_le
  have high := t.number_lt
  rw [← yearStart_succ] at high
  have before := yearStart_succ (t.year - 1)
  have here := yearStart_succ t.year
  have days := yearDays_bounds t.year
  rw [Int.sub_add_cancel] at before
  rw [isoWeek, P.dayOfYear_eq t near, Calendar.isoWeek_eq week]
  change Except.ok _ = Except.ok _
  congr 1
  have round : (t.number - yearStart t.year + 1 - (weekdayMon0 t.number + 1) + 10) / 7 =
      (thursday t.number - yearStart t.year) / 7 + 1 := by
    unfold weekdayMon0 thursday weekday
    omega
  have on := weekday_thursday t.number
  have near_ : t.number - 3 ≤ thursday t.number ∧ thursday t.number ≤ t.number + 3 := by
    have := weekday_bounds t.number
    unfold thursday
    omega
  rw [round, weeksInYear_eq, weeksInYear_eq]
  generalize thursday t.number = th at on near_ ⊢
  by_cases early : th < yearStart t.year
  · rw [if_pos early, if_pos (by omega)]
  · rw [if_neg early, if_neg (by omega)]
    by_cases late : yearStart (t.year + 1) ≤ th
    · rw [if_pos late]
      by_cases more : isoWeeks t.year < (th - yearStart t.year) / 7 + 1
      · rw [if_pos more]
      · exfalso
        apply more
        unfold isoWeeks LongYear
        unfold weekday at on ⊢
        split_ifs <;> omega
    · have bound := week_le on (not_lt.mp early) (not_le.mp late)
      rw [if_neg late, if_neg (by omega)]

/-- Each part of a moment, as the calendar has it. -/
theorem extractNs_eq {ns : I64} {i : Instant} (at_ : i.number = ns.val) (part : DatePart) :
    ∃ n : I64, P.extractNs ns part = .ok n.val ∧ Part i part n.val := by
  have small := ns.property
  have hour_lt := i.hour_lt
  have minute_lt := i.minute_lt
  have second_lt := i.second_lt
  have nano_lt := i.nano_lt
  obtain ⟨day, ofDay⟩ := instant_split i
  have near : -2 ^ 39 ≤ i.date.number ∧ i.date.number ≤ 2 ^ 39 := by
    rw [← day]
    unfold nsPerDay
    omega
  have civil := civilFromDays_number i.date
  have of_eq : ∀ n, P.extractNs ns part = .ok n → Part i part n → -2 ^ 63 ≤ n ∧ n < 2 ^ 63 →
      ∃ n : I64, P.extractNs ns part = .ok n.val ∧ Part i part n.val := fun n run named fits => ⟨⟨n, fits⟩, run, named⟩
  have month_pos := i.date.month_pos
  have month_le := i.date.month_le
  have day_le : i.date.day ≤ 31 := by
    have := i.date.day_le
    unfold monthDays at this
    split_ifs at this <;> omega
  have low := i.date.yearStart_le
  have high := i.date.number_lt
  have days := yearDays_bounds i.date.year
  have year_near : -2 ^ 62 ≤ i.date.year ∧ i.date.year < 2 ^ 62 := by
    unfold yearStart at low high
    omega
  have counted : i.date.number - yearStart i.date.year + 1 = monthStart i.date.year i.date.month + i.date.day := by
    unfold Date.number
    omega
  unfold extractNs at of_eq ⊢
  simp only [← at_, day, ofDay, civil] at of_eq ⊢
  cases part with
  | year => exact of_eq _ rfl rfl (by omega)
  | quarter =>
    apply of_eq _ rfl _ (by omega)
    change (((i.date.month - 1) / 3 + 1 : Nat) : Int) = (i.date.month + 2) / 3
    omega
  | month => exact of_eq _ rfl rfl (by omega)
  | week =>
    obtain ⟨w, week⟩ := exists_isoWeek i.date.number
    obtain ⟨u, there, value⟩ := id week
    have from_ := u.yearStart_le
    have to_ := u.number_lt
    have := yearDays_bounds u.year
    exact of_eq w (P.isoWeek_eq i.date near week) week (by omega)
  | day => exact of_eq _ rfl rfl (by omega)
  | dayOfWeek =>
    apply of_eq _ rfl rfl
    unfold weekdayMon0
    omega
  | dayOfYear => exact of_eq _ (P.dayOfYear_eq i.date near) counted (by omega)
  | hour =>
    apply of_eq _ rfl _ (by omega)
    change _ = (i.hour : Int)
    omega
  | minute =>
    apply of_eq _ rfl _ (by omega)
    change _ = (i.minute : Int)
    omega
  | second =>
    apply of_eq _ rfl _ (by omega)
    change _ = (i.second : Int)
    omega
  | millisecond =>
    apply of_eq _ rfl _ (by omega)
    change _ = (i.second * 1000 + i.nano / 1000000 : Int)
    omega
  | microsecond =>
    apply of_eq _ rfl _ (by omega)
    change _ = (i.second * 1000000 + i.nano / 1000 : Int)
    omega
  | epoch =>
    apply of_eq _ rfl _ (by omega)
    exact rfl

/-- A row's answer: none for a NULL, else the part of its moment. -/
def Extracted (part : DatePart) : Option Int → Option I64 → Prop
  | none, answer => answer = none
  | some ns, answer => ∃ (i : Instant) (n : I64), i.number = ns ∧ answer = some n ∧ Part i part n.val

theorem wrapI64_val (n : I64) : wrapI64 n.val = n := by
  have := n.property
  apply Subtype.ext
  change (n.val + 2 ^ 63) % 2 ^ 64 - 2 ^ 63 = n.val
  omega

theorem extractCell_of_ns (part : DatePart) (ns : I64) : ∃ n : I64,
    (do return .int64 (wrapI64 (← kernel (P.extractNs ns part))) : Except ExecError Value) = .ok (.int64 n) ∧
      Extracted part (some ns.val) (some n) := by
  obtain ⟨i, at_⟩ := exists_instant ns.val
  obtain ⟨n, run, named⟩ := P.extractNs_eq at_ part
  refine ⟨n, ?_, i, n, at_, rfl, named⟩
  rw [run, ← congrArg Value.int64 (wrapI64_val n)]
  rfl

theorem extractCell_timestamp (part : DatePart) (row : Option I64) : ∃ o : Option I64,
    P.extractCell part (timestampCell row) = .ok (int64Cell o) ∧ Extracted part (row.map (·.val)) o := by
  cases row with
  | none => exact ⟨none, rfl, rfl⟩
  | some ns =>
    obtain ⟨n, run, named⟩ := P.extractCell_of_ns part ns
    exact ⟨some n, run, named⟩

/-- The days whose midnight is a TIMESTAMP. -/
def DateFits (d : I32) : Prop := -106751 ≤ d.val ∧ d.val ≤ 106751

theorem extractCell_date (part : DatePart) (row : Option I32) (fits : ∀ d, row = some d → DateFits d) : ∃ o : Option I64,
    P.extractCell part (dateCell row) = .ok (int64Cell o) ∧ Extracted part (row.map fun d => d.val * nsPerDay) o := by
  cases row with
  | none => exact ⟨none, rfl, rfl⟩
  | some d =>
    obtain ⟨low, high⟩ := fits d rfl
    have inside : -2 ^ 63 ≤ d.val * nsPerDay ∧ d.val * nsPerDay < 2 ^ 63 := by
      unfold nsPerDay
      omega
    obtain ⟨n, run, named⟩ := P.extractCell_of_ns part ⟨d.val * nsPerDay, inside⟩
    refine ⟨some n, ?_, named⟩
    change (kernel (P.i64 "multiply" (d.val * nsPerDay)) >>= _) = _
    rw [P.i64_of_fits "multiply" inside]
    exact run

/-- A day past the range is given seconds that are not its own, in a build that does not panic. -/
theorem dateFits_of_epoch {d : I32} {o : Option I64} (run : P.extractCell .epoch (dateCell (some d)) = .ok (int64Cell o))
    (named : Extracted .epoch (some (d.val * nsPerDay)) o) : DateFits d := by
  obtain ⟨i, n, at_, rfl, seconds⟩ := named
  have seconds : n.val = i.number / 1000000000 := seconds
  rw [at_] at seconds
  change (kernel (P.i64 "multiply" (d.val * nsPerDay)) >>= _) = _ at run
  unfold DateFits
  unfold nsPerDay at run seconds
  by_contra out
  have lost : toI64? (d.val * 86400000000000) = none := by
    unfold toI64?
    rw [dif_neg (by omega)]
  rw [Platform.i64, lost] at run
  cases checks : P.overflowChecks with
  | true =>
    simp only [checks, if_true] at run
    cases run
  | false =>
    simp only [checks, Bool.false_eq_true, if_false] at run
    have run : Except.ok (Value.int64 (wrapI64 ((wrapI64 (d.val * 86400000000000)).val / 1000000000))) =
      (Except.ok (Value.int64 n) : Except ExecError Value) := run
    have same := congrArg Subtype.val (Value.int64.inj (Except.ok.inj run))
    have wrapped : (wrapI64 (d.val * 86400000000000)).val = (d.val * 86400000000000 + 2 ^ 63) % 2 ^ 64 - 2 ^ 63 := rfl
    have bounds := (wrapI64 (d.val * 86400000000000)).property
    generalize wrapI64 (d.val * 86400000000000) = w at same wrapped bounds
    have kept : (wrapI64 (w.val / 1000000000)).val = w.val / 1000000000 := by
      change (w.val / 1000000000 + 2 ^ 63) % 2 ^ 64 - 2 ^ 63 = w.val / 1000000000
      omega
    rw [kept, seconds] at same
    have off : w.val - d.val * 86400000000000 < 1000000000 ∧ 0 ≤ w.val - d.val * 86400000000000 := by omega
    omega

/-- EXTRACT over a column: every TIMESTAMP gives the calendar's parts, and so does every DATE whose midnight is a TIMESTAMP. -/
theorem extract_exact :
    (∀ (rows : List (Option I64)) (part : DatePart), ∃ out,
      P.evalTime (.extract part) ⟨.timestamp, rows.map timestampCell⟩ = .ok ⟨.int64, out.map int64Cell⟩ ∧
        List.Forall₂ (fun row o => Extracted part (row.map (·.val)) o) rows out) ∧
    ∀ rows : List (Option I32), (∀ part : DatePart, ∃ out,
      P.evalTime (.extract part) ⟨.date, rows.map dateCell⟩ = .ok ⟨.int64, out.map int64Cell⟩ ∧
        List.Forall₂ (fun row o => Extracted part (row.map fun d => d.val * nsPerDay) o) rows out) ↔
      ∀ d, some d ∈ rows → DateFits d := by
  constructor
  · intro rows part
    obtain ⟨out, run, all⟩ := cells_ok timestampCell int64Cell fun row (_ : row ∈ rows) => P.extractCell_timestamp part row
    exact ⟨out, by rw [evalTime_extract P part (.inl rfl), run]; rfl, all⟩
  · intro rows
    constructor
    · intro every d member
      obtain ⟨out, run, all⟩ := every .epoch
      rw [evalTime_extract P .epoch (.inr rfl)] at run
      obtain ⟨cells, ran, same⟩ := Except.bind_eq_ok.mp run
      have same : cells = out.map int64Cell := by injection Except.ok.inj same
      have cells := cells_each (same ▸ ran)
      obtain ⟨i, inside, at_⟩ := List.getElem_of_mem member
      obtain ⟨_, cell⟩ := List.forall₂_iff_get.mp cells
      obtain ⟨lengths, named⟩ := List.forall₂_iff_get.mp all
      have cell := cell i inside (lengths ▸ inside)
      have named := named i inside (lengths ▸ inside)
      rw [List.get_eq_getElem, at_] at cell named
      exact P.dateFits_of_epoch cell named
    · intro fits part
      obtain ⟨out, run, all⟩ := cells_ok dateCell int64Cell fun row (member : row ∈ rows) =>
        P.extractCell_date part row fun d same => fits d (same ▸ member)
      exact ⟨out, by rw [evalTime_extract P part (.inr rfl), run]; rfl, all⟩

end Platform

theorem extract_date_overflow : checkedPlatform.evalTime (.extract .year) ⟨.date, [.date ⟨106752, by decide⟩]⟩ =
    .error (.panicked "attempt to multiply with overflow") := by
  rfl

end Adelie
