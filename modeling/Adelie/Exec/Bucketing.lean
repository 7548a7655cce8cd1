import Adelie.Exec.Extracting
import Adelie.Lib.Boundary

namespace Adelie

open Calendar

/-- The moments a unit begins at. -/
def Boundary : TruncUnit → Int → Prop
  | .microsecond, b => (1000 : Int) ∣ b
  | .millisecond, b => (1000000 : Int) ∣ b
  | .second, b => (1000000000 : Int) ∣ b
  | .minute, b => (60000000000 : Int) ∣ b
  | .hour, b => (3600000000000 : Int) ∣ b
  | .day, b => nsPerDay ∣ b
  | .week, b => ∃ z, weekday z = 0 ∧ b = z * nsPerDay
  | .month, b => ∃ t : Date, t.day = 1 ∧ b = t.number * nsPerDay
  | .quarter, b => ∃ t : Date, (t.day = 1 ∧ t.month % 3 = 1) ∧ b = t.number * nsPerDay
  | .year, b => ∃ t : Date, (t.day = 1 ∧ t.month = 1) ∧ b = t.number * nsPerDay

theorem lastBoundary_dvd {width : Int} (positive : 0 < width) (ns : Int) : LastBoundary (width ∣ ·) ns (ns / width * width) := by
  have last := lastBoundary_width positive 0 ns
  simpa only [sub_zero, zero_add] using last

theorem nsPerDay_pos : 0 < nsPerDay := by decide

/-- A day of a kind begins the span of days up to the next of its kind. -/
theorem lastBoundary_days {B : Int → Prop} {ns first : Int} (begins : B first) (le : first ≤ ns / nsPerDay)
    (next : ∀ z, B z → first < z → ns / nsPerDay < z) :
    LastBoundary (fun b => ∃ z, B z ∧ b = z * nsPerDay) ns (first * nsPerDay) where
  boundary := ⟨first, begins, rfl⟩
  le := by
    unfold nsPerDay at le ⊢
    omega
  next := by
    rintro _ ⟨z, at_, rfl⟩ later
    have after := next z at_ (lt_of_mul_lt_mul_right later nsPerDay_pos.le)
    unfold nsPerDay at after ⊢
    omega

/-- The first of a kind of dates up to the next of its kind. -/
theorem lastBoundary_dates {kind : Date → Prop} {ns : Int} {s t : Date} (at_ : t.number = ns / nsPerDay) (begins : kind s)
    (le : s.key ≤ t.key) (next : ∀ u, kind u → s.key < u.key → t.key < u.key) :
    LastBoundary (fun b => ∃ u : Date, kind u ∧ b = u.number * nsPerDay) ns (s.number * nsPerDay) := by
  have days : LastBoundary (fun b => ∃ z, (∃ u : Date, kind u ∧ u.number = z) ∧ b = z * nsPerDay) ns (s.number * nsPerDay) := by
    apply lastBoundary_days ⟨s, begins, rfl⟩
    · rw [← at_]
      apply not_lt.mp
      intro later
      exact absurd (Date.number_lt_iff.mp later) (not_lt.mpr le)
    · rintro _ ⟨u, begins, rfl⟩ later
      rw [← at_]
      exact Date.number_lt_iff.mpr (next u begins (Date.number_lt_iff.mp later))
  refine ⟨⟨s, begins, rfl⟩, days.le, ?_⟩
  rintro _ ⟨u, begins, rfl⟩ later
  exact days.next _ ⟨_, ⟨u, begins, rfl⟩, rfl⟩ later

namespace Calendar.Date

/-- The first day of a date's month, or of an earlier month of its year. -/
def firstOf (t : Date) (m : Nat) (pos : 1 ≤ m) (le : m ≤ t.month) : Date :=
  ⟨t.year, m, 1, pos, le.trans t.month_le, Nat.le_refl 1, by unfold monthDays; split_ifs <;> omega⟩

theorem firstOf_le (t : Date) {m : Nat} (pos : 1 ≤ m) (le : m ≤ t.month) : (t.firstOf m pos le).key ≤ t.key := by
  rcases Nat.lt_or_eq_of_le le with before | same
  · apply le_of_lt
    exact Prod.Lex.lt_iff.mpr (.inr ⟨rfl, Prod.Lex.lt_iff.mpr (.inl before)⟩)
  · rcases Nat.lt_or_eq_of_le t.day_pos with after | first
    · apply le_of_lt
      exact Prod.Lex.lt_iff.mpr (.inr ⟨rfl, Prod.Lex.lt_iff.mpr (.inr ⟨same, after⟩)⟩)
    · apply le_of_eq
      have whole : t.firstOf m pos le = t := Date.ext rfl same first
      rw [whole]

/-- A first of a month past an earlier one is past every date of the months before it. -/
theorem lt_of_firstOf_lt {t u : Date} {m : Nat} {pos : 1 ≤ m} {le : m ≤ t.month} (first : u.day = 1)
    (past : u.year = t.year → m < u.month → t.month < u.month) (later : (t.firstOf m pos le).key < u.key) : t.key < u.key := by
  rcases Prod.Lex.lt_iff.mp later with year | ⟨year, rest⟩
  · exact Prod.Lex.lt_iff.mpr (.inl year)
  · have year : t.year = u.year := year
    rcases Prod.Lex.lt_iff.mp rest with month | ⟨_, day⟩
    · exact Prod.Lex.lt_iff.mpr (.inr ⟨year, Prod.Lex.lt_iff.mpr (.inl (past year.symm month))⟩)
    · have day : 1 < u.day := day
      omega

end Calendar.Date

/-- What a call to truncate multiplies out, before it is known to fit: the last boundary of the unit. -/
theorem truncNs_eq (ns : I64) (unit : TruncUnit) :
    ∃ b, LastBoundary (Boundary unit) ns.val b ∧ ∀ P : Platform, P.truncNs ns unit = P.i64 "multiply" b := by
  have small := ns.property
  obtain ⟨t, civil, at_⟩ := exists_date (ns.val / nsPerDay)
  have near : -2 ^ 39 ≤ t.number ∧ t.number ≤ 2 ^ 39 := by
    rw [at_]
    unfold nsPerDay
    omega
  have month : ∀ (m : Nat) (pos : 1 ≤ m) (le : m ≤ t.month) (P : Platform),
      (do P.i64 "multiply" ((← P.daysFromCivil (yearVal t.year) m 1).val * nsPerDay)) =
        P.i64 "multiply" ((t.firstOf m pos le).number * nsPerDay) := by
    intro m pos le P
    have low := t.yearStart_le
    have high := t.number_lt
    have start := (t.firstOf m pos le).yearStart_le
    have finish := (t.firstOf m pos le).number_lt
    have days := yearDays_bounds t.year
    change yearStart t.year ≤ _ at start
    change _ < yearStart t.year + yearDays t.year at finish
    have fits : -2 ^ 63 ≤ t.year ∧ t.year < 2 ^ 63 := by
      unfold yearStart at low high
      omega
    have year : (yearVal t.year).val = (t.firstOf m pos le).year := by
      change (t.year + 2 ^ 63) % 2 ^ 64 - 2 ^ 63 = t.year
      omega
    obtain ⟨n, value⟩ : ∃ n : I64, n.val = (t.firstOf m pos le).number :=
      ⟨⟨(t.firstOf m pos le).number, by omega, by omega⟩, rfl⟩
    have counted := daysFromCivil_number P (t.firstOf m pos le) year value (by omega)
    have counted : P.daysFromCivil (yearVal t.year) m 1 = .ok n := counted
    rw [counted, ← value]
    rfl
  cases unit with
  | microsecond => exact ⟨_, lastBoundary_dvd (by decide) ns.val, fun _ => rfl⟩
  | millisecond => exact ⟨_, lastBoundary_dvd (by decide) ns.val, fun _ => rfl⟩
  | second => exact ⟨_, lastBoundary_dvd (by decide) ns.val, fun _ => rfl⟩
  | minute => exact ⟨_, lastBoundary_dvd (by decide) ns.val, fun _ => rfl⟩
  | hour => exact ⟨_, lastBoundary_dvd (by decide) ns.val, fun _ => rfl⟩
  | day => exact ⟨_, lastBoundary_dvd nsPerDay_pos ns.val, fun _ => rfl⟩
  | week =>
    refine ⟨_, @lastBoundary_days (weekday · = 0) ns.val (ns.val / nsPerDay - weekdayMon0 (ns.val / nsPerDay)) ?_ ?_ ?_, fun _ => rfl⟩
    · unfold weekday weekdayMon0
      omega
    · unfold weekdayMon0
      omega
    · intro z monday later
      unfold weekday at monday
      unfold weekdayMon0 at later
      omega
  | month =>
    refine ⟨_, lastBoundary_dates (s := t.firstOf t.month t.month_pos (Nat.le_refl _)) at_ rfl (t.firstOf_le _ _) ?_, fun P => ?_⟩
    · intro u first later
      exact Date.lt_of_firstOf_lt first (fun _ past => past) later
    · rw [← month]
      simp only [Platform.truncNs, civil]
  | quarter =>
    have pos := t.month_pos
    refine ⟨_, lastBoundary_dates (s := t.firstOf ((t.month - 1) / 3 * 3 + 1) (by omega) (by omega)) at_ ⟨rfl, ?_⟩ (t.firstOf_le _ _) ?_,
      fun P => ?_⟩
    · change ((t.month - 1) / 3 * 3 + 1) % 3 = 1
      omega
    · rintro u ⟨first, third⟩ later
      exact Date.lt_of_firstOf_lt first (fun _ past => by omega) later
    · rw [← month]
      simp only [Platform.truncNs, civil]
  | year =>
    refine ⟨_, lastBoundary_dates (s := t.firstOf 1 (Nat.le_refl 1) t.month_pos) at_ ⟨rfl, rfl⟩ (t.firstOf_le _ _) ?_, fun P => ?_⟩
    · rintro u ⟨first, january⟩ later
      exact Date.lt_of_firstOf_lt first (fun _ past => by omega) later
    · rw [← month]
      simp only [Platform.truncNs, civil]

/-- A bucket's boundaries, counted from an origin. -/
def BucketBoundary (width origin : I64) (b : Int) : Prop := width.val ∣ b - origin.val

/-- The moments whose last boundary an `i64` holds. -/
def TruncFits (unit : TruncUnit) (ns : I64) : Prop := ∃ b : I64, Boundary unit b.val ∧ b.val ≤ ns.val

/-- The moments whose distance from the origin an `i64` holds, with the last boundary and its own distance. -/
def BucketFits (width origin ns : I64) : Prop :=
  (-2 ^ 63 ≤ ns.val - origin.val ∧ ns.val - origin.val < 2 ^ 63) ∧
    ∃ b : I64, BucketBoundary width origin b.val ∧ b.val ≤ ns.val ∧ -2 ^ 63 ≤ b.val - origin.val

theorem checked_i64 {n : Int} {operation : String} {b : I64} (run : checkedPlatform.i64 operation n = .ok b) : b.val = n := by
  unfold Platform.i64 at run
  cases exact_ : toI64? n with
  | some m =>
    rw [exact_] at run
    cases run
    exact (toI64?_val exact_)
  | none =>
    rw [exact_] at run
    cases run

theorem truncNs_ok {unit : TruncUnit} {ns : I64} (fits : TruncFits unit ns) :
    ∃ b : I64, (LastBoundary (Boundary unit) ns.val b.val ∧ TruncFits unit b) ∧ ∀ P : Platform, P.truncNs ns unit = .ok b := by
  obtain ⟨b, last, run⟩ := truncNs_eq ns unit
  obtain ⟨a, at_, le⟩ := fits
  have above := last.le_of at_ le
  have inside : -2 ^ 63 ≤ b ∧ b < 2 ^ 63 := ⟨a.property.1.trans above, last.le.trans_lt ns.property.2⟩
  refine ⟨⟨b, inside⟩, ⟨last, ⟨b, inside⟩, last.boundary, le_refl b⟩, fun P => ?_⟩
  rw [run, P.i64_of_fits "multiply" inside]

theorem truncFits_of_ok {unit : TruncUnit} {ns b : I64} (_ : checkedPlatform.truncNs ns unit = .ok b)
    (last : LastBoundary (Boundary unit) ns.val b.val) : TruncFits unit ns := ⟨b, last.boundary, last.le⟩

theorem bucketNs_ok {width origin ns : I64} (positive : 0 < width.val) (fits : BucketFits width origin ns) :
    ∃ b : I64, (LastBoundary (BucketBoundary width origin) ns.val b.val ∧ BucketFits width origin b) ∧
      ∀ P : Platform, P.bucketNs ns width origin = .ok b := by
  obtain ⟨since, a, at_, le, far⟩ := fits
  have last := lastBoundary_width positive origin.val ns.val
  have above := last.le_of at_ le
  have under := last.le
  have lowest := a.property
  have highest := ns.property
  have smaller : ((ns.val - origin.val) / width.val).natAbs ≤ (ns.val - origin.val).natAbs :=
    Int.natAbs_ediv_le_natAbs _ _
  let d : I64 := ⟨ns.val - origin.val, since⟩
  let q : I64 := ⟨(ns.val - origin.val) / width.val, by omega, by
    by_contra more
    have whole : (ns.val - origin.val) / width.val = 2 ^ 63 := by omega
    have := Int.ediv_mul_le (ns.val - origin.val) (ne_of_gt positive)
    have := Int.mul_le_mul_of_nonneg_left (show 1 ≤ width.val from positive) (show 0 ≤ (ns.val - origin.val) / width.val by omega)
    omega⟩
  have product : -2 ^ 63 ≤ q.val * width.val ∧ q.val * width.val < 2 ^ 63 := by
    change -2 ^ 63 ≤ (ns.val - origin.val) / width.val * width.val ∧ (ns.val - origin.val) / width.val * width.val < 2 ^ 63
    omega
  have sum : -2 ^ 63 ≤ origin.val + q.val * width.val ∧ origin.val + q.val * width.val < 2 ^ 63 := by
    change -2 ^ 63 ≤ origin.val + (ns.val - origin.val) / width.val * width.val ∧
      origin.val + (ns.val - origin.val) / width.val * width.val < 2 ^ 63
    omega
  refine ⟨⟨origin.val + q.val * width.val, sum⟩, ⟨last, ?_, ?_⟩, fun P => ?_⟩
  · rw [add_sub_cancel_left]
    exact product
  · refine ⟨⟨origin.val + q.val * width.val, sum⟩, last.boundary, le_refl _, ?_⟩
    rw [add_sub_cancel_left]
    exact product.1
  · have divided : divEuclid d width = .ok q := by
      rw [divEuclid, if_neg (ne_of_gt positive), toI64?_of_val q rfl]
      rfl
    rw [Platform.bucketNs, P.i64_bind since]
    change (divEuclid d width >>= _) = _
    rw [divided]
    change (P.i64 "multiply" (q.val * width.val) >>= _) = _
    rw [P.i64_bind product, P.i64_of_fits "add" sum]

theorem bucketFits_of_ok {width origin ns b : I64} (run : checkedPlatform.bucketNs ns width origin = .ok b)
    (last : LastBoundary (BucketBoundary width origin) ns.val b.val) : BucketFits width origin ns := by
  obtain ⟨since, subtracted, run⟩ := Except.bind_eq_ok.mp run
  obtain ⟨bucket, _, run⟩ := Except.bind_eq_ok.mp run
  obtain ⟨after, _, added⟩ := Except.bind_eq_ok.mp run
  have distance := checked_i64 subtracted
  have whole := checked_i64 added
  have in_ := since.property
  have low := after.property
  refine ⟨by omega, b, last.boundary, last.le, by omega⟩

/-- What truncation answers for a row. -/
def Truncated (B : Int → Prop) : Option I64 → Option I64 → Prop
  | none, answer => answer = none
  | some ns, answer => ∃ b : I64, answer = some b ∧ LastBoundary B ns.val b.val

def timestamps (rows : List (Option I64)) : Column := ⟨.timestamp, rows.map timestampCell⟩

/-- A call that returns: an error that is no panic, or the boundaries, which the same call leaves alone. -/
def Returns (P : Platform) (f : ScalarFunc) (B : Int → Prop) (rows : List (Option I64)) : Prop :=
  (∃ e, P.evalTime f (timestamps rows) = .error e ∧ ∀ message, e ≠ .panicked message) ∨
    ∃ out, P.evalTime f (timestamps rows) = .ok (timestamps out) ∧ List.Forall₂ (Truncated B) rows out ∧
      P.evalTime f (timestamps out) = .ok (timestamps out)

/-- A truncation by cells: where it succeeds, by a moment's fitting, and what it gives, the last boundary. -/
structure Truncation (f : ScalarFunc) (B : Int → Prop) (Fits : I64 → Prop) (call : Platform → I64 → Except String I64)
    (cell : Platform → Value → Except ExecError Value) : Prop where
  eval : ∀ (P : Platform) (rows : List (Option I64)), P.evalTime f (timestamps rows) = do return ⟨.timestamp, ← (rows.map timestampCell).mapM (cell P)⟩
  cell_null : ∀ P, cell P .null = .ok .null
  cell_timestamp : ∀ P ns, cell P (.timestamp ns) = do return .timestamp (← Platform.kernel (call P ns))
  runs : ∀ ns, Fits ns → ∃ b : I64, (LastBoundary B ns.val b.val ∧ Fits b) ∧ ∀ P, call P ns = .ok b
  fits : ∀ ns b, call checkedPlatform ns = .ok b → LastBoundary B ns.val b.val → Fits ns

namespace Truncation

variable {f : ScalarFunc} {B : Int → Prop} {Fits : I64 → Prop} {call : Platform → I64 → Except String I64}
  {cell : Platform → Value → Except ExecError Value} (t : Truncation f B Fits call cell) {rows : List (Option I64)}
include t

theorem cell_ok (P : Platform) {ns b : I64} (run : call P ns = .ok b) : cell P (.timestamp ns) = .ok (.timestamp b) := by
  rw [t.cell_timestamp, run]
  rfl

/-- A row that fits, and its boundary after it. -/
theorem row_ok (row : Option I64) (fits : ∀ ns, row = some ns → Fits ns) :
    ∃ o, (∀ P, cell P (timestampCell row) = .ok (timestampCell o)) ∧ Truncated B row o ∧
      ∀ P, cell P (timestampCell o) = .ok (timestampCell o) := by
  cases row with
  | none => exact ⟨none, t.cell_null, rfl, t.cell_null⟩
  | some ns =>
    obtain ⟨b, ⟨last, again⟩, run⟩ := t.runs ns (fits ns rfl)
    obtain ⟨c, ⟨stays, _⟩, rerun⟩ := t.runs b again
    have same : c = b := Subtype.ext (stays.unique (LastBoundary.self last.boundary))
    subst same
    exact ⟨some c, fun P => t.cell_ok P (run P), ⟨c, rfl, last⟩, fun P => t.cell_ok P (rerun P)⟩

theorem returns (P : Platform) (fits : ∀ ns, some ns ∈ rows → Fits ns) : Returns P f B rows := by
  obtain ⟨out, run, all⟩ := @cells_ok _ _ (cell P) rows timestampCell timestampCell
    (fun row o => Truncated B row o ∧ cell P (timestampCell o) = .ok (timestampCell o)) fun row member => by
      obtain ⟨o, run, truncated, again⟩ := t.row_ok row fun ns same => fits ns (same ▸ member)
      exact ⟨o, run P, truncated, again P⟩
  have again : (out.map timestampCell).mapM (cell P) = .ok (out.map timestampCell) := by
    apply mapM_except_of_forall₂
    rw [List.forall₂_same]
    intro v member
    obtain ⟨o, inside, rfl⟩ := List.mem_map.mp member
    obtain ⟨_, _, _, same⟩ := List.Forall₂.source all inside
    exact same
  refine .inr ⟨out, ?_, all.imp fun _ _ both => both.1, ?_⟩
  · rw [t.eval, run]
    rfl
  · rw [t.eval, again]
    rfl

/-- A checked build that returns has had every row fit. -/
theorem fits_of_returns (returned : Returns checkedPlatform f B rows) : ∀ ns, some ns ∈ rows → Fits ns := by
  rcases returned with ⟨e, refused, calm⟩ | ⟨out, run, all, _⟩
  · exfalso
    rw [t.eval] at refused
    cases ran : (rows.map timestampCell).mapM (cell checkedPlatform) with
    | ok cells =>
      rw [ran] at refused
      cases refused
    | error e' =>
      rw [ran] at refused
      cases refused
      obtain ⟨v, member, stopped⟩ := exists_of_mapM_error ran
      obtain ⟨row, _, rfl⟩ := List.mem_map.mp member
      cases row with
      | none =>
        rw [timestampCell, t.cell_null] at stopped
        cases stopped
      | some ns =>
        rw [timestampCell, t.cell_timestamp] at stopped
        cases called : call checkedPlatform ns with
        | ok b =>
          rw [called] at stopped
          cases stopped
        | error message =>
          rw [called] at stopped
          cases stopped
          exact calm message rfl
  · intro ns member
    rw [t.eval] at run
    obtain ⟨cells, ran, same⟩ := Except.bind_eq_ok.mp run
    have same : cells = out.map timestampCell := by injection Except.ok.inj same
    have each := cells_each (same ▸ ran)
    obtain ⟨i, inside, at_⟩ := List.getElem_of_mem member
    obtain ⟨_, done⟩ := List.forall₂_iff_get.mp each
    obtain ⟨lengths, named⟩ := List.forall₂_iff_get.mp all
    have done := done i inside (lengths ▸ inside)
    have named := named i inside (lengths ▸ inside)
    rw [List.get_eq_getElem, at_] at done named
    obtain ⟨b, answer, last⟩ := named
    rw [answer, timestampCell, timestampCell, t.cell_timestamp] at done
    obtain ⟨c, called, put⟩ := Except.bind_eq_ok.mp done
    cases put
    exact t.fits ns b (mapError_eq_ok called) last

theorem returns_iff : (∀ P, Returns P f B rows) ↔ ∀ ns, some ns ∈ rows → Fits ns :=
  ⟨fun every => t.fits_of_returns (every checkedPlatform), fun fits P => t.returns P fits⟩

end Truncation

theorem truncation_unit (unit : TruncUnit) : Truncation (.dateTrunc unit) (Boundary unit) (TruncFits unit)
    (fun P ns => P.truncNs ns unit) (fun P => P.dateTruncCell unit) where
  eval _ _ := rfl
  cell_null _ := rfl
  cell_timestamp _ _ := rfl
  runs _ := truncNs_ok
  fits _ _ := truncFits_of_ok

theorem truncation_bucket {width : I64} (positive : 0 < width.val) (origin : I64) :
    Truncation (.timeBucket width origin) (BucketBoundary width origin) (BucketFits width origin)
      (fun P ns => P.bucketNs ns width origin) (fun P => P.timeBucketCell width origin) where
  eval P rows := by
    have checked : ScalarFunc.funcType (.timeBucket width origin) [(timestamps rows).ty] = .ok .timestamp := by
      unfold ScalarFunc.funcType ensure
      simp only [positive, decide_true, if_true]
      rfl
    rw [Platform.evalTime, checked]
    rfl
  cell_null _ := rfl
  cell_timestamp _ _ := rfl
  runs _ := bucketNs_ok positive
  fits _ _ := bucketFits_of_ok

/-- Truncation to a unit or to a bucket returns the last boundary, in every build, where its steps fit; a width that is not
    positive is refused. -/
theorem trunc_exact (unit : TruncUnit) (width origin : I64) (rows : List (Option I64)) :
    ((∀ P, Returns P (.dateTrunc unit) (Boundary unit) rows) ↔ ∀ ns, some ns ∈ rows → TruncFits unit ns) ∧
    ((∀ P, Returns P (.timeBucket width origin) (BucketBoundary width origin) rows) ↔
      width.val ≤ 0 ∨ ∀ ns, some ns ∈ rows → BucketFits width origin ns) := by
  refine ⟨(truncation_unit unit).returns_iff, ?_⟩
  by_cases positive : 0 < width.val
  · rw [(truncation_bucket positive origin).returns_iff]
    constructor
    · exact .inr
    · rintro (zero | fits)
      · omega
      · exact fits
  · constructor
    · exact fun _ => .inl (not_lt.mp positive)
    · intro _ P
      refine .inl ⟨.plan s!"time_bucket width_ns must be positive, found {width.val}", ?_, fun _ => ExecError.noConfusion⟩
      have refused : ScalarFunc.funcType (.timeBucket width origin) [(timestamps rows).ty] =
          .error (.plan s!"time_bucket width_ns must be positive, found {width.val}") := by
        unfold ScalarFunc.funcType ensure
        simp only [positive, decide_false, Bool.false_eq_true, if_false]
        rfl
      rw [Platform.evalTime, refused]
      rfl

theorem trunc_overflow : checkedPlatform.evalTime (.dateTrunc .day) ⟨.timestamp, [.timestamp ⟨-2 ^ 63, by decide⟩]⟩ =
    .error (.panicked "attempt to multiply with overflow") := by
  rfl

end Adelie
