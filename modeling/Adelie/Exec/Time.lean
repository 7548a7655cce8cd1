import Adelie.Exec.Expr
import Adelie.Types.CivilDate

namespace Adelie

namespace ScalarFunc

def name : ScalarFunc → String
  | .lower => "lower"
  | .upper => "upper"
  | .length => "length"
  | .substr => "substr"
  | .concat => "concat"
  | .regexpMatch _ => "regexp_match"
  | .dateTrunc _ => "date_trunc"
  | .timeBucket _ _ => "time_bucket"
  | .extract _ => "extract"
  | .coalesceText => "coalesce_text"

def signatureError (f : ScalarFunc) (args : List DataType) (want : String) : ExecError :=
  let found := ", ".intercalate (args.map (·.display))
  .plan s!"{f.name}({found}) has no signature ({want})"

def expectArgs (f : ScalarFunc) (args want : List DataType) : Except ExecError Unit :=
  ensure (args = want) (f.signatureError args (", ".intercalate (want.map (·.display))))

/-- What a call is of, by arity and argument types. -/
def funcType (f : ScalarFunc) (args : List DataType) : Except ExecError DataType :=
  match f with
  | .lower | .upper => do f.expectArgs args [.string]; return .string
  | .length => do f.expectArgs args [.string]; return .int64
  | .substr =>
    if args = [.string, .int64] ∨ args = [.string, .int64, .int64] then .ok .string
    else .error (f.signatureError args "STRING, INT64[, INT64]")
  | .concat => do f.expectArgs args [.string, .string]; return .string
  | .regexpMatch _ => do f.expectArgs args [.string]; return .bool
  | .dateTrunc _ => do f.expectArgs args [.timestamp]; return .timestamp
  | .timeBucket widthNs _ => do
    f.expectArgs args [.timestamp]
    ensure (0 < widthNs.val) (.plan s!"time_bucket width_ns must be positive, found {widthNs.val}")
    return .timestamp
  | .extract _ =>
    if args = [.timestamp] ∨ args = [.date] then .ok .int64 else .error (f.signatureError args "TIMESTAMP or DATE")
  | .coalesceText =>
    match args with
    | [_, other] =>
      if other = .string then .ok .string else .error (.plan s!"coalesce_text companion must be STRING, found {other.display}")
    | _ => .error (f.signatureError args "any, STRING")

end ScalarFunc

/-- `0` on a Monday: day `0` was a Thursday. -/
def weekdayMon0 (days : Int) : Int := (days + 3) % 7

def yearVal (y : Int) : I64 := wrapI64 y

/-- `div_euclid`, which refuses `0` and the one quotient past the range in every build. -/
def divEuclid (a b : I64) : Except String I64 :=
  if b.val = 0 then .error "attempt to divide by zero"
  else (toI64? (a.val / b.val)).elim (.error "attempt to divide with overflow") .ok

namespace Platform

variable (P : Platform)

def floorTo (ns : I64) (width : Int) : Except String I64 := P.i64 "multiply" (ns.val / width * width)

def truncNs (ns : I64) (unit : TruncUnit) : Except String I64 :=
  let days := ns.val / nsPerDay
  let first (y : Int) (m : Nat) : Except String I64 := do
    P.i64 "multiply" ((← P.daysFromCivil (yearVal y) m 1).val * nsPerDay)
  match unit with
  | .microsecond => P.floorTo ns 1000
  | .millisecond => P.floorTo ns 1000000
  | .second => P.floorTo ns 1000000000
  | .minute => P.floorTo ns 60000000000
  | .hour => P.floorTo ns 3600000000000
  | .day => P.floorTo ns nsPerDay
  | .week => P.i64 "multiply" ((days - weekdayMon0 days) * nsPerDay)
  | .month => first (civilFromDays days).1 (civilFromDays days).2.1
  | .quarter => first (civilFromDays days).1 (((civilFromDays days).2.1 - 1) / 3 * 3 + 1)
  | .year => first (civilFromDays days).1 1

def bucketNs (ns widthNs originNs : I64) : Except String I64 := do
  let since ← P.i64 "subtract" (ns.val - originNs.val)
  let bucket ← divEuclid since widthNs
  let after ← P.i64 "multiply" (bucket.val * widthNs.val)
  P.i64 "add" (originNs.val + after.val)

def dayOfYear (days year : Int) : Except String Int := do
  let first ← P.daysFromCivil (yearVal year) 1 1
  return days - first.val + 1

end Platform

/-- The weekday a year ends on, from Sunday at `0`. -/
def isoWeek.p (y : Int) : Int := (y + y / 4 - y / 100 + y / 400) % 7

def weeksInYear (y : Int) : Int := if isoWeek.p y = 4 ∨ isoWeek.p (y - 1) = 3 then 53 else 52

namespace Platform

variable (P : Platform)

def isoWeek (days year : Int) : Except String Int := do
  let ordinal ← P.dayOfYear days year
  let isoWeekday := weekdayMon0 days + 1
  let week := (ordinal - isoWeekday + 10) / 7
  return if week < 1 then weeksInYear (year - 1) else if weeksInYear year < week then 1 else week

/-- One part of a moment; all of them fit. -/
def extractNs (ns : I64) (part : DatePart) : Except String Int :=
  let days := ns.val / nsPerDay
  let ofDay := ns.val % nsPerDay
  let (year, month, day) := civilFromDays days
  let secOfMinute := ofDay / 1000000000 % 60
  let fracNs := ofDay % 1000000000
  match part with
  | .year => .ok year
  | .quarter => .ok (((month - 1) / 3 + 1 : Nat) : Int)
  | .month => .ok month
  | .week => P.isoWeek days year
  | .day => .ok day
  | .dayOfWeek => .ok ((weekdayMon0 days + 1) % 7)
  | .dayOfYear => P.dayOfYear days year
  | .hour => .ok (ofDay / 3600000000000)
  | .minute => .ok (ofDay / 60000000000 % 60)
  | .second => .ok secOfMinute
  | .millisecond => .ok (secOfMinute * 1000 + fracNs / 1000000)
  | .microsecond => .ok (secOfMinute * 1000000 + fracNs / 1000)
  | .epoch => .ok (ns.val / 1000000000)

/-- A panic in a kernel. -/
def kernel {α : Type} (call : Except String α) : Except ExecError α := call.mapError .panicked

def dateTruncCell (unit : TruncUnit) : Value → Except ExecError Value
  | .null => .ok .null
  | .timestamp ns => do return .timestamp (← kernel (P.truncNs ns unit))
  | _ => .error (.panicked "func_type checked this column is TIMESTAMP")

def timeBucketCell (widthNs originNs : I64) : Value → Except ExecError Value
  | .null => .ok .null
  | .timestamp ns => do return .timestamp (← kernel (P.bucketNs ns widthNs originNs))
  | _ => .error (.panicked "func_type checked this column is TIMESTAMP")

/-- A DATE is midnight. -/
def extractCell (part : DatePart) : Value → Except ExecError Value
  | .null => .ok .null
  | .timestamp ns => do return .int64 (wrapI64 (← kernel (P.extractNs ns part)))
  | .date d => do
    let ns ← kernel (P.i64 "multiply" (d.val * nsPerDay))
    return .int64 (wrapI64 (← kernel (P.extractNs ns part)))
  | _ => .error (.panicked "func_type checked TIMESTAMP or DATE")

/-- A call of a time function on its column, typed and then run. -/
def evalTime (f : ScalarFunc) (col : Column) : Except ExecError Column := do
  let _ ← f.funcType [col.ty]
  match f with
  | .dateTrunc unit => return ⟨.timestamp, ← col.cells.mapM (P.dateTruncCell unit)⟩
  | .timeBucket widthNs originNs => return ⟨.timestamp, ← col.cells.mapM (P.timeBucketCell widthNs originNs)⟩
  | .extract part => return ⟨.int64, ← col.cells.mapM (P.extractCell part)⟩
  | _ => .error (.plan "no time function")

theorem evalTime_extract (part : DatePart) {col : Column} (typed : col.ty = .timestamp ∨ col.ty = .date) :
    P.evalTime (.extract part) col = do return ⟨.int64, ← col.cells.mapM (P.extractCell part)⟩ := by
  have checked : ScalarFunc.funcType (.extract part) [col.ty] = .ok .int64 := by
    rcases typed with ty | ty <;> rw [ty] <;> rfl
  rw [evalTime, checked]
  rfl

end Platform

def timestampCell : Option I64 → Value
  | some ns => .timestamp ns
  | none => .null

def dateCell : Option I32 → Value
  | some d => .date d
  | none => .null

def int64Cell : Option I64 → Value
  | some n => .int64 n
  | none => .null

section Cells

variable {α β : Type} {f : Value → Except ExecError Value} {rows : List α}

theorem cells_ok (cell : α → Value) (put : β → Value) {R : α → β → Prop}
    (each : ∀ row ∈ rows, ∃ o, f (cell row) = .ok (put o) ∧ R row o) :
    ∃ out, (rows.map cell).mapM f = .ok (out.map put) ∧ List.Forall₂ R rows out := by
  induction rows with
  | nil => exact ⟨[], rfl, .nil⟩
  | cons row rows ih =>
    obtain ⟨o, run, related⟩ := each row List.mem_cons_self
    obtain ⟨out, ran, all⟩ := ih fun row member => each row (List.mem_cons_of_mem _ member)
    refine ⟨o :: out, ?_, .cons related all⟩
    rw [List.map_cons, List.mapM_cons, run]
    simp only [bind, Except.bind, ran]
    rfl

theorem cells_each {cell : α → Value} {put : β → Value} {out : List β} (ran : (rows.map cell).mapM f = .ok (out.map put)) :
    List.Forall₂ (fun row o => f (cell row) = .ok (put o)) rows out := by
  have all := forall₂_of_mapM_except ran
  rwa [List.forall₂_map_left_iff, List.forall₂_map_right_iff] at all

end Cells

end Adelie
