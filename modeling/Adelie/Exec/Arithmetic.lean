import Adelie.Exec.Arith
import Adelie.Exec.Casting

namespace Adelie

namespace Arith

open Cast (quantity Resolves Represents)

/-- The result of an operation on two numbers; nothing for a zero divisor. -/
def exactResult (op : ArithOp) (x y : ℚ) : Option ℚ :=
  match op with
  | .add => some (x + y)
  | .sub => some (x - y)
  | .mul => some (x * y)
  | .div => if y = 0 then none else some (truncate (x / y))
  | .mod => if y = 0 then none else some (x - y * truncate (x / y))

/-- An outcome that is the value of the type with this number, and nothing when there is none. -/
def Denotes (t : ScalarType) (z : ℚ) (result : Option Value) : Prop :=
  ∀ w, result = some w ↔ w.HasScalarType t ∧ quantity w = some z

/-- What a row of two cells comes to. -/
inductive RowTo (op : ArithOp) (t : ScalarType) : Value × Value → Value → Prop where
  | null {v w : Value} : v = .null ∨ w = .null → RowTo op t (v, w) .null
  | zero {v w : Value} {x y : ℚ} : quantity v = some x → quantity w = some y → exactResult op x y = none →
      RowTo op t (v, w) .null
  | number {v w cell : Value} {x y z : ℚ} : quantity v = some x → quantity w = some y → exactResult op x y = some z →
      cell.HasScalarType t → quantity cell = some z → RowTo op t (v, w) cell

/-- The result of the row is no value of the type. -/
def Outside (op : ArithOp) (t : ScalarType) (row : Value × Value) : Prop :=
  ∃ x y z, quantity row.1 = some x ∧ quantity row.2 = some y ∧ exactResult op x y = some z ∧
    ∀ cell : Value, cell.HasScalarType t → quantity cell ≠ some z

/-- The digits at a larger scale leave an `i128`. -/
def Wide (d : Decimal) (scale : Nat) : Prop :=
  ¬ (-2 ^ 127 ≤ d.unscaled * 10 ^ (scale - d.scale) ∧ d.unscaled * 10 ^ (scale - d.scale) < 2 ^ 127)

/-- The rows an overflow is reported for although nothing overflows: the remainder by -1 of the least INT64, and
    decimals whose common scale an `i128` does not hold while the result is within the precision. -/
def Spurious (op : ArithOp) (t : ScalarType) (row : Value × Value) : Prop :=
  match row.1, row.2, t with
  | .int64 a, .int64 b, _ => op = .mod ∧ a.val = -2 ^ 63 ∧ b.val = -1
  | .decimal d, .decimal e, .decimal t =>
    (Wide d t.scale ∨ Wide e t.scale) ∧ (op = .mod ∨
      op = .add ∧ (d.unscaled * 10 ^ (t.scale - d.scale) + e.unscaled * 10 ^ (t.scale - e.scale)).natAbs < 10 ^ t.precision ∨
      op = .sub ∧ (d.unscaled * 10 ^ (t.scale - d.scale) - e.unscaled * 10 ^ (t.scale - e.scale)).natAbs < 10 ^ t.precision)
  | _, _, _ => False

/-- Every row exact at the result type, and an overflow reported exactly when a row's result is outside it. -/
structure Exact (P : Platform) (op : ArithOp) (l r : Column) (t : ScalarType) : Prop where
  rows : ∀ out, arith P op l r (.scalar t) = .ok out →
    out.ty = .scalar t ∧ List.Forall₂ (RowTo op t) (l.cells.zip r.cells) out.cells
  overflows : (∃ text, arith P op l r (.scalar t) = .error (.overflow text)) ↔ ∃ row ∈ l.cells.zip r.cells, Outside op t row
  only : ∀ e, arith P op l r (.scalar t) = .error e → ∃ text, e = .overflow text

section Denotes

variable {t : ScalarType} {x z : ℚ} {n : Int} {result : Option Value}

theorem denotes_of_resolves (resolves : Cast.Resolves t x result) (same : Cast.rounded t x = z) : Denotes t z result := by
  intro w
  rw [resolves w, Represents, same]

theorem denotes_int64 (n : Int) : Denotes .int64 n ((toI64? n).map .int64) :=
  denotes_of_resolves (Cast.resolves_int64 (nearest_intCast n)) (by rw [Cast.rounded_int64, nearest_intCast])

theorem denotes_uint64 (n : Int) : Denotes .uint64 n ((toU64? n).map .uint64) :=
  denotes_of_resolves (Cast.resolves_uint64 (nearest_intCast n)) (by rw [Cast.rounded_uint64, nearest_intCast])

theorem denotes_decimal (n : Int) (t : DecimalType) : Denotes (.decimal t) (n / 10 ^ t.scale) (Cast.withinPrecision t n) := by
  have power : (10 : ℚ) ^ t.scale ≠ 0 := by positivity
  have near : nearest ((n : ℚ) / 10 ^ t.scale * 10 ^ t.scale) = n := by
    rw [div_mul_cancel₀ _ power, nearest_intCast]
  exact denotes_of_resolves (Cast.resolves_decimal near) (by rw [Cast.rounded, near])

theorem Denotes.outside (denotes : Denotes t z none) {cell : Value} (typed : cell.HasScalarType t) : quantity cell ≠ some z := by
  intro number
  cases (denotes cell).mpr ⟨typed, number⟩

end Denotes

/-- A row's outcome: its exact cell, or an overflow, and then for one of the two causes. -/
def RowSpec (op : ArithOp) (t : ScalarType) (row : Value × Value) (outcome : Except ExecError Value) : Prop :=
  (∃ cell, outcome = .ok cell ∧ RowTo op t row cell ∧ ¬ Outside op t row ∧ ¬ Spurious op t row) ∨
    ∃ text, outcome = .error (.overflow text) ∧ (Outside op t row ∨ Spurious op t row)

section Integers

variable {op : ArithOp} {t : ScalarType} {a b : Int} {v w : Value}

/-- The same on integers, where every result is one. -/
def integerResult (op : ArithOp) (a b : Int) : Option Int :=
  match op with
  | .add => some (a + b)
  | .sub => some (a - b)
  | .mul => some (a * b)
  | .div => if b = 0 then none else some (a.tdiv b)
  | .mod => if b = 0 then none else some (a.tmod b)

theorem exactResult_int (op : ArithOp) (a b : Int) : exactResult op a b = (integerResult op a b).map (fun n : Int => (n : ℚ)) := by
  cases op with
  | add => simp [exactResult, integerResult]
  | sub => simp [exactResult, integerResult]
  | mul => simp [exactResult, integerResult]
  | div =>
    unfold exactResult integerResult
    rw [truncate_div]
    by_cases zero : b = 0 <;> simp [zero]
  | mod =>
    unfold exactResult integerResult
    have rest : (a : ℚ) - b * a.tdiv b = a.tmod b := by
      have parts := Int.mul_tdiv_add_tmod a b
      rw [sub_eq_iff_eq_add, add_comm]
      exact_mod_cast parts.symm
    rw [truncate_div, rest]
    by_cases zero : b = 0 <;> simp [zero]

theorem applyChecked_eq {α : Type} (checked : Int → Option α) (e : ExecError) (op : ArithOp) (a b : Int) :
    applyChecked checked e op a b = (integerResult op a b).elim (.ok none) fun n =>
      (if op = .mod then (checked (a.tdiv b)).bind fun _ => checked n else checked n).elim (.error e) fun m => .ok (some m) := by
  unfold applyChecked integerResult
  cases op with
  | add => cases found : checked (a + b) <;> simp [found]
  | sub => cases found : checked (a - b) <;> simp [found]
  | mul => cases found : checked (a * b) <;> simp [found]
  | div =>
    by_cases zero : b = 0
    · simp [zero]
    · cases found : checked (a.tdiv b) <;> simp [zero, found]
  | mod =>
    by_cases zero : b = 0
    · simp [zero]
    · unfold checkedRem
      cases found : (checked (a.tdiv b)).bind fun _ => checked (a.tmod b) <;> simp [zero, found]

theorem RowTo.not_outside {cell : Value} (row : RowTo op t (v, w) cell) : ¬ Outside op t (v, w) := by
  rintro ⟨x, y, z, left, right, result, none_⟩
  cases row with
  | null empty =>
    rcases empty with rfl | rfl
    · cases left
    · cases right
  | zero left' right' result' =>
    rw [left] at left'
    rw [right] at right'
    cases left'
    cases right'
    rw [result] at result'
    cases result'
  | number left' right' result' typed number =>
    rw [left] at left'
    rw [right] at right'
    cases left'
    cases right'
    rw [result] at result'
    cases result'
    exact none_ _ typed number

/-- An integer row, given when its remainder is lost to the division. -/
theorem rowSpec_checked {α : Type} {checked : Int → Option α} {wrap : α → Value} {text : String}
    (denotes : ∀ n : Int, Denotes t n ((checked n).map wrap)) (left : quantity v = some (a : ℚ)) (right : quantity w = some (b : ℚ))
    (lost : Spurious op t (v, w) ↔ op = .mod ∧ b ≠ 0 ∧ checked (a.tdiv b) = none) :
    RowSpec op t (v, w) ((applyChecked checked (.overflow text) op a b).map (·.elim .null wrap)) := by
  have exact_ := exactResult_int op a b
  rw [applyChecked_eq]
  cases result : integerResult op a b with
  | none =>
    rw [result] at exact_
    have row : RowTo op t (v, w) .null := .zero left right exact_
    refine .inl ⟨.null, rfl, row, row.not_outside, ?_⟩
    rw [lost]
    rintro ⟨rfl, some_, _⟩
    rw [integerResult, if_neg some_] at result
    cases result
  | some n =>
    rw [result] at exact_
    have known := denotes n
    by_cases fails : Spurious op t (v, w)
    · obtain ⟨rfl, some_, none_⟩ := lost.mp fails
      rw [Option.elim_some, if_pos rfl, none_]
      exact .inr ⟨text, rfl, .inr fails⟩
    · have kept : (if op = .mod then (checked (a.tdiv b)).bind fun _ => checked n else checked n) = checked n := by
        split
        · rename_i mod
          subst mod
          have some_ : b ≠ 0 := by
            rintro rfl
            cases result
          cases found : checked (a.tdiv b) with
          | none => exact absurd (lost.mpr ⟨rfl, some_, found⟩) fails
          | some _ => rfl
        · rfl
      rw [Option.elim_some, kept]
      cases found : checked n with
      | none =>
        rw [found] at known
        exact .inr ⟨text, rfl, .inl ⟨a, b, n, left, right, exact_, fun _ typed => known.outside typed⟩⟩
      | some m =>
        rw [found] at known
        obtain ⟨typed, number⟩ := (known _).mp rfl
        have row : RowTo op t (v, w) (wrap m) := .number left right exact_ typed number
        exact .inl ⟨wrap m, rfl, row, row.not_outside, fails⟩

theorem toI64?_eq_none {n : Int} : toI64? n = none ↔ ¬(-2 ^ 63 ≤ n ∧ n < 2 ^ 63) := by
  unfold toI64?
  split
  · rename_i inside
    constructor
    · intro none_
      cases none_
    · intro past
      exact absurd inside past
  · rename_i past
    exact ⟨fun _ => past, fun _ => rfl⟩

/-- The one quotient of two INT64 that is not an INT64. -/
theorem quotient_lost (a b : I64) (some_ : b.val ≠ 0) : toI64? (a.val.tdiv b.val) = none ↔ a.val = -2 ^ 63 ∧ b.val = -1 := by
  have low := a.property
  rw [toI64?_eq_none]
  constructor
  · intro lost
    have size := Int.natAbs_tdiv_le_natAbs a.val b.val
    have most : a.val.tdiv b.val = 2 ^ 63 := by omega
    have least : a.val = -2 ^ 63 := by omega
    have parts := Int.mul_tdiv_add_tmod a.val b.val
    have rest := Int.natAbs_tmod a.val b.val
    refine ⟨least, ?_⟩
    have halves : (a.val.tdiv b.val).natAbs = a.val.natAbs / b.val.natAbs := Int.natAbs_tdiv a.val b.val
    have one : b.val.natAbs = 1 := by
      by_contra more
      have smaller : a.val.natAbs / b.val.natAbs ≤ a.val.natAbs / 2 := Nat.div_le_div_left (by omega) (by decide)
      omega
    have sign : b.val = 1 ∨ b.val = -1 := by omega
    rcases sign with one | minus
    · rw [one, Int.tdiv_one] at most
      omega
    · exact minus
  · rintro ⟨least, minus⟩
    rw [least, minus]
    decide

theorem int64Row_spec (op : ArithOp) (a b : I64) :
    RowSpec op .int64 (.int64 a, .int64 b) (int64Row op (.int64 a) (.int64 b)) := by
  apply rowSpec_checked denotes_int64 rfl rfl
  constructor
  · rintro ⟨mod, least, minus⟩
    have some_ : b.val ≠ 0 := by omega
    exact ⟨mod, some_, (quotient_lost a b some_).mpr ⟨least, minus⟩⟩
  · rintro ⟨mod, some_, lost⟩
    exact ⟨mod, (quotient_lost a b some_).mp lost⟩

theorem uint64Row_spec (op : ArithOp) (a b : U64) :
    RowSpec op .uint64 (.uint64 a, .uint64 b) (uint64Row op (.uint64 a) (.uint64 b)) := by
  apply rowSpec_checked denotes_uint64 rfl rfl
  constructor
  · intro spurious
    cases spurious
  · rintro ⟨_, _, lost⟩
    have small : a.val / b.val < 2 ^ 64 := (Nat.div_le_self _ _).trans_lt a.property
    have quotient : (a.val : Int).tdiv b.val = (a.val / b.val : Nat) := rfl
    rw [quotient] at lost
    generalize a.val / b.val = q at small lost
    rw [toU64?, dif_pos (by omega)] at lost
    cases lost

end Integers

section Decimals

variable {op : ArithOp} {d e : Decimal} {t : DecimalType}

/-- The digits at a scale no smaller than the decimal's own. -/
def digitsAt (d : Decimal) (scale : Nat) : Int := d.unscaled * 10 ^ (scale - d.scale)

theorem number_digitsAt {scale : Nat} (le : d.scale ≤ scale) : d.number = digitsAt d scale / 10 ^ scale := by
  have ten : (10 : ℚ) ≠ 0 := by norm_num
  unfold Decimal.number digitsAt
  push_cast
  rw [pow_sub₀ 10 ten le]
  field_simp

theorem rescaleUp_eq (d : Decimal) (scale : Nat) : rescaleUp d.unscaled d.scale scale = Cast.checkedI128 (digitsAt d scale) := by
  have small := d.small
  unfold rescaleUp digitsAt
  split
  · rename_i same
    rw [same, Nat.sub_self, pow_zero, mul_one, Cast.checkedI128, if_pos (by omega)]
  · rfl

theorem checkedI128_digitsAt (scale : Nat) : Cast.checkedI128 (digitsAt d scale) = none ↔ Wide d scale := by
  unfold Cast.checkedI128 Wide digitsAt
  split <;> simp_all

/-- The digits of the result, both operands at one scale. -/
theorem exactResult_scaled (other : op ≠ .mul) (other' : op ≠ .div) (a b : Int) (scale : Nat) :
    exactResult op (a / 10 ^ scale) (b / 10 ^ scale) = (integerResult op a b).map fun n : Int => (n : ℚ) / 10 ^ scale := by
  have power : (10 : ℚ) ^ scale ≠ 0 := by positivity
  cases op with
  | add => simp [exactResult, integerResult, add_div]
  | sub => simp [exactResult, integerResult, sub_div]
  | mul => exact absurd rfl other
  | div => exact absurd rfl other'
  | mod =>
    unfold exactResult integerResult
    have rest : (a : ℚ) / 10 ^ scale - b / 10 ^ scale * a.tdiv b = (a.tmod b : Int) / 10 ^ scale := by
      have parts : (b : ℚ) * a.tdiv b + a.tmod b = a := by exact_mod_cast Int.mul_tdiv_add_tmod a b
      rw [← parts]
      ring
    rw [div_div_div_cancel_right₀ power, truncate_div, rest]
    by_cases zero : b = 0 <;> simp [zero, power]

theorem decimalRow_eq (op : ArithOp) (a b t : DecimalType) (d e : Decimal) :
    decimalRow op a b t (.decimal d) (.decimal e) =
      (decimalDigits op a b t d.unscaled e.unscaled).elim (.error (overflow op (.decimal a) (.decimal b))) fun result =>
        result.elim (.ok .null) fun n => (Cast.withinPrecision t n).elim (.error (overflow op (.decimal a) (.decimal b))) .ok := by
  have wide : 10 ^ t.precision ≤ 10 ^ 38 := Nat.pow_le_pow_right (by decide) t.precision_le
  have scale : t.scale ≤ 38 := t.scale_le.trans t.precision_le
  simp only [decimalRow]
  generalize decimalDigits op a b t d.unscaled e.unscaled = digits
  rcases digits with _ | _ | n
  · rfl
  · rfl
  · dsimp only [Option.elim]
    unfold checkDecimalRange Cast.withinPrecision
    by_cases small : n.natAbs < 10 ^ t.precision
    · rw [if_pos (decide_eq_true small), if_neg (by omega), Decimal.new, dif_pos scale, dif_pos (by omega)]
      rfl
    · rw [if_neg (by rwa [decide_eq_true_iff]), if_pos (by omega)]

/-- The outcome of a row from the digits of its result. -/
def ofDigits (error : ExecError) (t : DecimalType) (n : Int) : Except ExecError Value :=
  (Cast.withinPrecision t n).elim (.error error) .ok

theorem checked_elim (error : ExecError) (t : DecimalType) (n : Int) :
    ((Cast.checkedI128 n).map some).elim (.error error) (fun result => result.elim (.ok .null) (ofDigits error t)) =
      ofDigits error t n := by
  have known := Cast.checkedI128_bind (n := n) t
  unfold ofDigits
  cases found : Cast.checkedI128 n with
  | some m =>
    have same : m = n := by
      unfold Cast.checkedI128 at found
      split at found <;> cases found
      rfl
    rw [same]
    rfl
  | none =>
    rw [found] at known
    rw [← known]
    rfl

/-- No remainder is lost: the one quotient past an `i128` has a dividend that ends in no zero. -/
theorem checkedRem_digitsAt {scale : Nat} {b : Int} (some_ : b ≠ 0) (fits : ¬ Wide d scale) :
    checkedRem Cast.checkedI128 (digitsAt d scale) b = Cast.checkedI128 ((digitsAt d scale).tmod b) := by
  have inside : -2 ^ 127 ≤ digitsAt d scale ∧ digitsAt d scale < 2 ^ 127 := not_not.mp fits
  have least : digitsAt d scale ≠ -2 ^ 127 := by
    unfold digitsAt
    have small := d.small
    cases scale - d.scale with
    | zero => omega
    | succ k =>
      rw [pow_succ, ← mul_assoc]
      generalize d.unscaled * 10 ^ k = m
      omega
  have size := Int.natAbs_tdiv_le_natAbs (digitsAt d scale) b
  have quotient : Cast.checkedI128 ((digitsAt d scale).tdiv b) = some ((digitsAt d scale).tdiv b) := by
    rw [Cast.checkedI128, if_pos (by omega)]
  rw [checkedRem, quotient]
  rfl

section Scaled

variable {a b : DecimalType} (left : d.scale = a.scale) (right : e.scale = b.scale) (other : op ≠ .mul) (other' : op ≠ .div)

include left right other other'

theorem decimalRow_wide (wide : Wide d t.scale ∨ Wide e t.scale) :
    decimalRow op a b t (.decimal d) (.decimal e) = .error (overflow op (.decimal a) (.decimal b)) := by
  have none_ : decimalDigits op a b t d.unscaled e.unscaled = none := by
    rw [← checkedI128_digitsAt, ← checkedI128_digitsAt, ← rescaleUp_eq, ← rescaleUp_eq, left, right] at wide
    unfold decimalDigits
    cases op <;> first | exact absurd rfl other | exact absurd rfl other' | skip
    all_goals
      rcases wide with none_ | none_
      · rw [none_]
        rfl
      · rw [none_]
        cases rescaleUp d.unscaled a.scale t.scale <;> rfl
  rw [decimalRow_eq, none_]
  rfl

theorem decimalRow_fits (fits : ¬ Wide d t.scale) (fits' : ¬ Wide e t.scale) :
    decimalRow op a b t (.decimal d) (.decimal e) = (integerResult op (digitsAt d t.scale) (digitsAt e t.scale)).elim
      (.ok .null) (ofDigits (overflow op (.decimal a) (.decimal b)) t) := by
  have read : rescaleUp d.unscaled a.scale t.scale = some (digitsAt d t.scale) := by
    rw [← left, rescaleUp_eq]
    exact if_pos (not_not.mp fits)
  have read' : rescaleUp e.unscaled b.scale t.scale = some (digitsAt e t.scale) := by
    rw [← right, rescaleUp_eq]
    exact if_pos (not_not.mp fits')
  have known := checked_elim (overflow op (.decimal a) (.decimal b)) t
  rw [decimalRow_eq]
  change (decimalDigits op a b t d.unscaled e.unscaled).elim _
    (fun result => result.elim (.ok .null) (ofDigits (overflow op (.decimal a) (.decimal b)) t)) = _
  unfold decimalDigits
  rw [read, read']
  cases op with
  | mul => exact absurd rfl other
  | div => exact absurd rfl other'
  | add => exact known _
  | sub => exact known _
  | mod =>
    by_cases zero : digitsAt e t.scale = 0
    · rw [integerResult, if_pos zero]
      change (if digitsAt e t.scale = 0 then some none else _ : Option (Option Int)).elim _ _ = _
      rw [if_pos zero]
      rfl
    · rw [integerResult, if_neg zero, Option.elim_some, ← known, ← checkedRem_digitsAt zero fits]
      change (if digitsAt e t.scale = 0 then some none else _ : Option (Option Int)).elim _ _ = _
      rw [if_neg zero]

theorem exactResult_digits (small : d.scale ≤ t.scale) (small' : e.scale ≤ t.scale) :
    exactResult op d.number e.number =
      (integerResult op (digitsAt d t.scale) (digitsAt e t.scale)).map fun n : Int => (n : ℚ) / 10 ^ t.scale := by
  rw [number_digitsAt small, number_digitsAt small', exactResult_scaled other other']

end Scaled

theorem ofDigits_spec {text : String} {v w : Value} {x y : ℚ} {n : Int} (left : quantity v = some x) (right : quantity w = some y)
    (result : exactResult op x y = some ((n : ℚ) / 10 ^ t.scale)) (fine : ¬ Spurious op (.decimal t) (v, w)) :
    RowSpec op (.decimal t) (v, w) (ofDigits (.overflow text) t n) := by
  have known := denotes_decimal n t
  unfold ofDigits
  cases found : Cast.withinPrecision t n with
  | none =>
    rw [found] at known
    exact .inr ⟨text, rfl, .inl ⟨x, y, _, left, right, result, fun _ typed => known.outside typed⟩⟩
  | some cell =>
    rw [found] at known
    obtain ⟨typed, number⟩ := (known _).mp rfl
    have row : RowTo op (.decimal t) (v, w) cell := .number left right result typed number
    exact .inl ⟨cell, rfl, row, row.not_outside, fine⟩

theorem outside_of_digits {v w : Value} {x y : ℚ} {n : Int} (left : quantity v = some x) (right : quantity w = some y)
    (result : exactResult op x y = some ((n : ℚ) / 10 ^ t.scale)) (past : ¬ n.natAbs < 10 ^ t.precision) :
    Outside op (.decimal t) (v, w) := by
  have known := denotes_decimal n t
  rw [Cast.withinPrecision, if_pos (not_lt.mp past)] at known
  exact ⟨x, y, _, left, right, result, fun _ typed => known.outside typed⟩

/-- A row at a common scale no smaller than either. -/
theorem decimalRow_spec {a b : DecimalType} (left : d.scale = a.scale) (right : e.scale = b.scale) (other : op ≠ .mul)
    (other' : op ≠ .div) (small : d.scale ≤ t.scale) (small' : e.scale ≤ t.scale) :
    RowSpec op (.decimal t) (.decimal d, .decimal e) (decimalRow op a b t (.decimal d) (.decimal e)) := by
  have result := @exactResult_digits op d e t a b left right other other' small small'
  have number : quantity (.decimal d) = some d.number := rfl
  have number' : quantity (.decimal e) = some e.number := rfl
  by_cases wide : Wide d t.scale ∨ Wide e t.scale
  · rw [decimalRow_wide left right other other' wide]
    refine .inr ⟨_, rfl, ?_⟩
    cases op with
    | mul => exact absurd rfl other
    | div => exact absurd rfl other'
    | mod => exact .inr ⟨wide, .inl rfl⟩
    | add =>
      by_cases inside : (digitsAt d t.scale + digitsAt e t.scale).natAbs < 10 ^ t.precision
      · exact .inr ⟨wide, .inr (.inl ⟨rfl, inside⟩)⟩
      · exact .inl (outside_of_digits number number' result inside)
    | sub =>
      by_cases inside : (digitsAt d t.scale - digitsAt e t.scale).natAbs < 10 ^ t.precision
      · exact .inr ⟨wide, .inr (.inr ⟨rfl, inside⟩)⟩
      · exact .inl (outside_of_digits number number' result inside)
  · have fine : ¬ Spurious op (.decimal t) (.decimal d, .decimal e) := fun spurious => wide spurious.1
    obtain ⟨fits, fits'⟩ := not_or.mp wide
    rw [decimalRow_fits left right other other' fits fits']
    cases found : integerResult op (digitsAt d t.scale) (digitsAt e t.scale) with
    | none =>
      rw [found] at result
      have row : RowTo op (.decimal t) (.decimal d, .decimal e) .null := .zero number number' result
      exact .inl ⟨.null, rfl, row, row.not_outside, fine⟩
    | some n =>
      rw [found] at result
      exact ofDigits_spec number number' result fine

theorem decimalMul_spec {a b : DecimalType} (left : d.scale = a.scale) (right : e.scale = b.scale) (scale : t.scale = a.scale + b.scale) :
    RowSpec .mul (.decimal t) (.decimal d, .decimal e) (decimalRow .mul a b t (.decimal d) (.decimal e)) := by
  have product : exactResult .mul d.number e.number = some (((d.unscaled * e.unscaled : Int) : ℚ) / 10 ^ t.scale) := by
    rw [exactResult, scale, ← left, ← right, pow_add, Decimal.number, Decimal.number, div_mul_div_comm, Int.cast_mul]
  have fine : ¬ Spurious .mul (.decimal t) (.decimal d, .decimal e) := by
    rintro ⟨_, mod | ⟨add, _⟩ | ⟨sub, _⟩⟩
    · cases mod
    · cases add
    · cases sub
  rw [decimalRow_eq]
  change RowSpec _ _ _ (((Cast.checkedI128 (d.unscaled * e.unscaled)).map some).elim _
    (fun result => result.elim (.ok .null) (ofDigits (overflow .mul (.decimal a) (.decimal b)) t)))
  rw [checked_elim]
  exact ofDigits_spec rfl rfl product fine

end Decimals

section Types

variable (op : ArithOp) {a b : DecimalType}

theorem computedDecimal_ok {precision scale : Nat} (positive : 1 ≤ precision) (most : precision ≤ 38) (le : scale ≤ precision) :
    computedDecimal precision scale = .ok (.decimal ⟨precision, scale, positive, most, le⟩) := by
  rw [computedDecimal, DecimalType.new, dif_pos ⟨positive, most⟩, dif_pos le]

/-- Where the computed type is a DECIMAL: its scale is that of the exact result. -/
theorem decimalArithType_cases (a b : DecimalType) :
    (op = .mul ∧ ∃ message, decimalArithType op a b = .error (.plan message)) ∨
      (op = .div ∧ decimalArithType op a b = .ok .float64) ∨
      ∃ t, decimalArithType op a b = .ok (.decimal t) ∧
        (op = .mul ∧ t.scale = a.scale + b.scale ∨ op ≠ .mul ∧ op ≠ .div ∧ t.scale = max a.scale b.scale) := by
  have left := a.scale_le.trans a.precision_le
  have right := b.scale_le.trans b.precision_le
  have common : 1 ≤ addSubPrecision (max a.scale b.scale) a b ∧ addSubPrecision (max a.scale b.scale) a b ≤ 38 ∧
      max a.scale b.scale ≤ addSubPrecision (max a.scale b.scale) a b := by
    unfold addSubPrecision
    omega
  obtain ⟨positive, most, le⟩ := common
  cases op with
  | div => exact .inr (.inl ⟨rfl, rfl⟩)
  | mul =>
    unfold decimalArithType
    by_cases past : 38 < a.scale + b.scale
    · exact .inl ⟨rfl, _, if_pos past⟩
    · have bounds := And.intro a.scale_le b.scale_le
      have first := a.precision_pos
      refine .inr (.inr ⟨⟨min (a.precision + b.precision) 38, a.scale + b.scale, by omega, by omega, by omega⟩, ?_,
        .inl ⟨rfl, rfl⟩⟩)
      rw [if_neg past]
      exact computedDecimal_ok _ _ _
  | add => exact .inr (.inr ⟨_, computedDecimal_ok positive most le, .inr ⟨by decide, by decide, rfl⟩⟩)
  | sub => exact .inr (.inr ⟨_, computedDecimal_ok positive most le, .inr ⟨by decide, by decide, rfl⟩⟩)
  | mod => exact .inr (.inr ⟨_, computedDecimal_ok positive most le, .inr ⟨by decide, by decide, rfl⟩⟩)

/-- Two types one of which is no DECIMAL. -/
theorem arithType_other {lt rt : DataType} (other : ∀ a b, ¬ (lt = .decimal a ∧ rt = .decimal b)) : arithType op lt rt =
    if isNumeric lt && isNumeric rt then
      if lt = rt then .ok lt
      else .error (.plan s!"arithmetic operands must be the same numeric kind, found {lt.display} and {rt.display}")
    else .error (.plan s!"arithmetic operands must be numeric, found {lt.display} and {rt.display}") := by
  unfold arithType
  split
  · split
    · exact absurd ⟨rfl, rfl⟩ (other _ _)
    · rfl
  · rfl

theorem arithType_builds (lt rt : DataType) (message : String) : arithType op lt rt ≠ .error (.panicked message) := by
  by_cases decimals : ∃ a b, lt = .decimal a ∧ rt = .decimal b
  · obtain ⟨a, b, rfl, rfl⟩ := decimals
    change decimalArithType op a b ≠ _
    rcases decimalArithType_cases op a b with ⟨_, text, made⟩ | ⟨_, made⟩ | ⟨t, made, _⟩
    · rw [made]
      intro same
      cases same
    · rw [made]
      intro same
      cases same
    · rw [made]
      intro same
      cases same
  · rw [arithType_other op fun a b both => decimals ⟨a, b, both⟩]
    intro same
    split at same
    · split at same <;> cases same
    · cases same

end Types

section Runs

variable {op : ArithOp} {t : ScalarType}

theorem not_spurious_null {v w : Value} (empty : v = .null ∨ w = .null) : ¬ Spurious op t (v, w) := by
  intro spurious
  rcases empty with rfl | rfl
  · cases spurious
  · cases v <;> cases spurious

theorem rowsWith_spec {apply : Value → Value → Except ExecError Value} {ls rs : List Value} (lengths : ls.length = rs.length)
    (each : ∀ row ∈ ls.zip rs, row.1.isNull = false → row.2.isNull = false → RowSpec op t row (apply row.1 row.2)) :
    (∃ cells, rowsWith apply ls rs = .ok cells ∧ List.Forall₂ (RowTo op t) (ls.zip rs) cells ∧
      ∀ row ∈ ls.zip rs, ¬ Outside op t row ∧ ¬ Spurious op t row) ∨
    ∃ text, rowsWith apply ls rs = .error (.overflow text) ∧ ∃ row ∈ ls.zip rs, Outside op t row ∨ Spurious op t row := by
  induction ls generalizing rs with
  | nil => exact .inl ⟨[], rfl, .nil, by simp⟩
  | cons v ls ih =>
    cases rs with
    | nil => cases lengths
    | cons w rs =>
      have head : RowSpec op t (v, w) (rowWith apply v w) := by
        unfold rowWith
        by_cases empty : v.isNull || w.isNull
        · rw [if_pos empty]
          have which : v = .null ∨ w = .null := by
            cases v <;> first
              | exact .inl rfl
              | (cases w <;> first | exact .inr rfl | cases empty)
          have row : RowTo op t (v, w) .null := .null which
          exact .inl ⟨.null, rfl, row, row.not_outside, not_spurious_null which⟩
        · rw [if_neg empty]
          obtain ⟨left, right⟩ := Bool.or_eq_false_iff.mp (Bool.eq_false_iff.mpr empty)
          exact each (v, w) List.mem_cons_self left right
      have tail := ih (Nat.succ.inj lengths) fun row member => each row (List.mem_cons_of_mem _ member)
      rcases head with ⟨cell, made, row, fine⟩ | ⟨text, refused, cause⟩
      · rcases tail with ⟨cells, rest, all, fines⟩ | ⟨text, refused, row', member, cause⟩
        · refine .inl ⟨cell :: cells, ?_, .cons row all, ?_⟩
          · rw [rowsWith, made, rest]
            rfl
          · rw [List.zip_cons_cons]
            exact List.forall_mem_cons.mpr ⟨fine, fines⟩
        · refine .inr ⟨text, ?_, row', List.mem_cons_of_mem _ member, cause⟩
          rw [rowsWith, made, refused]
          rfl
      · refine .inr ⟨text, ?_, (v, w), List.mem_cons_self, cause⟩
        rw [rowsWith, refused]
        rfl

end Runs

section Columns

variable (P : Platform) {op : ArithOp} {s u t : ScalarType} {l r : Column}

/-- The operands with exact results: DECIMAL division is a FLOAT64. -/
inductive Operands (op : ArithOp) : ScalarType → ScalarType → Prop where
  | int64 : Operands op .int64 .int64
  | uint64 : Operands op .uint64 .uint64
  | decimal {a b : DecimalType} : op ≠ .div → Operands op (.decimal a) (.decimal b)

/-- The row function the operands' types pick. -/
theorem arith_rows (operands : Operands op s u) (left : l.ty = .scalar s) (right : r.ty = .scalar u)
    (typing : arithType op l.ty r.ty = .ok (.scalar t)) :
    ∃ apply, arith P op l r (.scalar t) = column (.scalar t) apply l r ∧
      ∀ v w, v.HasScalarType s → w.HasScalarType u → v.isNull = false → w.isNull = false → RowSpec op t (v, w) (apply v w) := by
  rw [left, right] at typing
  unfold arith
  rw [left, right]
  cases operands with
  | int64 =>
    cases typing
    refine ⟨int64Row op, rfl, ?_⟩
    intro v w typed typed' some_ some_'
    cases v <;> first | exact typed.elim | cases some_ | skip
    cases w <;> first | exact typed'.elim | cases some_' | skip
    exact int64Row_spec op _ _
  | uint64 =>
    cases typing
    refine ⟨uint64Row op, rfl, ?_⟩
    intro v w typed typed' some_ some_'
    cases v <;> first | exact typed.elim | cases some_ | skip
    cases w <;> first | exact typed'.elim | cases some_' | skip
    exact uint64Row_spec op _ _
  | @decimal a b whole =>
    change decimalArithType op a b = _ at typing
    rcases decimalArithType_cases op a b with ⟨_, _, made⟩ | ⟨div, _⟩ | ⟨t', made, scale⟩
    · rw [made] at typing
      cases typing
    · exact absurd div whole
    · rw [made] at typing
      cases typing
      refine ⟨decimalRow op a b t', if_neg whole, ?_⟩
      intro v w typed typed' some_ some_'
      cases v <;> first | exact typed.elim | cases some_ | skip
      cases w <;> first | exact typed'.elim | cases some_' | skip
      rcases scale with ⟨rfl, sum⟩ | ⟨other, _, common⟩
      · exact decimalMul_spec typed.1 typed'.1 sum
      · refine decimalRow_spec typed.1 typed'.1 other whole ?_ ?_
        · rw [common, typed.1]
          exact le_max_left _ _
        · rw [common, typed'.1]
          exact le_max_right _ _

/-- The type is computed without a panic, and every row is exact and every overflow real precisely when some row
    does leave the type or none is reported that does not. -/
theorem arith_exact_iff (operands : Operands op s u) (left : l.ty = .scalar s) (right : r.ty = .scalar u)
    (typed : ∀ v ∈ l.cells, v.HasScalarType s) (typed' : ∀ w ∈ r.cells, w.HasScalarType u)
    (lengths : l.cells.length = r.cells.length) :
    (∀ message, arithType op l.ty r.ty ≠ .error (.panicked message)) ∧
    ∀ t, arithType op l.ty r.ty = .ok (.scalar t) → (Exact P op l r t ↔
      (∃ row ∈ l.cells.zip r.cells, Outside op t row) ∨ ∀ row ∈ l.cells.zip r.cells, ¬ Spurious op t row) := by
  refine ⟨arithType_builds op l.ty r.ty, ?_⟩
  intro t typing
  obtain ⟨apply, whole, each⟩ := arith_rows P operands left right typing
  have specs : ∀ row ∈ l.cells.zip r.cells, row.1.isNull = false → row.2.isNull = false → RowSpec op t row (apply row.1 row.2) :=
    fun row member some_ some_' =>
      each row.1 row.2 (typed _ (List.of_mem_zip member).1) (typed' _ (List.of_mem_zip member).2) some_ some_'
  have rows := rowsWith_spec lengths specs
  rcases rows with ⟨cells, made, all, fine⟩ | ⟨text, refused, row, member, cause⟩
  · have outcome : arith P op l r (.scalar t) = .ok ⟨.scalar t, cells⟩ := by
      rw [whole, column, made]
      rfl
    constructor
    · intro _
      exact .inr fun row member => (fine row member).2
    · intro _
      refine ⟨?_, ?_, ?_⟩
      · intro out same
        rw [outcome] at same
        cases same
        exact ⟨rfl, all⟩
      · rw [outcome]
        constructor
        · rintro ⟨_, same⟩
          cases same
        · rintro ⟨row, member, outside⟩
          exact absurd outside (fine row member).1
      · intro e same
        rw [outcome] at same
        cases same
  · have outcome : arith P op l r (.scalar t) = .error (.overflow text) := by
      rw [whole, column, refused]
      rfl
    constructor
    · intro exact_
      exact .inl (exact_.overflows.mp ⟨text, outcome⟩)
    · intro real
      have outside : ∃ row ∈ l.cells.zip r.cells, Outside op t row := by
        rcases real with outside | none_
        · exact outside
        · exact ⟨row, member, cause.resolve_right (none_ row member)⟩
      refine ⟨?_, ⟨fun _ => outside, fun _ => ⟨text, outcome⟩⟩, ?_⟩
      · intro out same
        rw [outcome] at same
        cases same
      · intro e same
        rw [outcome] at same
        cases same
        exact ⟨text, rfl⟩

/-- Seven by two, on every row. -/
theorem arith_exact_seven : Exact checkedPlatform .mod ⟨.int64, [.int64 (wrapI64 7)]⟩ ⟨.int64, [.int64 (wrapI64 2)]⟩ .int64 := by
  have typed (n : I64) : ∀ v ∈ [Value.int64 n], v.HasScalarType .int64 := by
    intro v member
    rw [List.mem_singleton.mp member]
    exact True.intro
  have operands : Operands .mod .int64 .int64 := .int64
  refine ((arith_exact_iff checkedPlatform (l := ⟨.int64, [.int64 (wrapI64 7)]⟩) (r := ⟨.int64, [.int64 (wrapI64 2)]⟩) operands rfl rfl (typed _) (typed _) rfl).2 .int64 rfl).mpr (.inr ?_)
  intro row member
  rw [List.mem_singleton.mp member]
  rintro ⟨_, least, _⟩
  cases least

/-- The least INT64 by -1 leaves no remainder, and an overflow is reported. -/
theorem least_by_minus_one : ¬ Exact checkedPlatform .mod ⟨.int64, [.int64 (wrapI64 (-2 ^ 63))]⟩
    ⟨.int64, [.int64 (wrapI64 (-1))]⟩ .int64 := by
  intro exact_
  obtain ⟨row, member, x, y, z, left, right, result, none_⟩ := exact_.overflows.mp ⟨_, rfl⟩
  rw [List.mem_singleton.mp member] at left right
  cases left
  cases right
  have rest := exactResult_int .mod (wrapI64 (-2 ^ 63)).val (wrapI64 (-1)).val
  rw [result] at rest
  cases rest
  exact none_ (.int64 (wrapI64 0)) True.intro rfl

end Columns

end Arith

end Adelie
