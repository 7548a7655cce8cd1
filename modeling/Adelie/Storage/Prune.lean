import Adelie.Exec.Eval
import Adelie.Segment.Stats

namespace Adelie

/-- One column's known range, as a segment's statistics or a zone map give it. -/
abbrev ColumnRange := ColumnStats

def Expr.columnOf : Expr → Option Nat
  | .column c => some c
  | _ => none

/-- A comparison as `column op value`, flipped when the value is on the left. -/
def normalCmp (op : CmpOp) : Expr → Expr → Option (Nat × Value × CmpOp)
  | .column c, .literal v _ => some (c, v, op)
  | .literal v _, .column c => some (c, v, op.flip)
  | _, _ => none

def Value.isNaN : Value → Bool
  | .float64 f => f.isNaN
  | _ => false

section Refuted

-- what one conjunct alone is refuted by
variable (leaf : Expr → Bool)

mutual

/-- Some conjunct of the predicate is false on every row: `And` is flattened, an `Or` needs all of its
    parts ruled out. -/
def refuted : Expr → Bool
  | .and parts => someRefuted parts
  | .or parts => allRefuted parts
  | e => leaf e

def someRefuted : List Expr → Bool
  | [] => false
  | p :: rest => refuted p || someRefuted rest

def allRefuted : List Expr → Bool
  | [] => true
  | p :: rest => refuted p && allRefuted rest

end

end Refuted

section Prune

variable (stats : Nat → Option ColumnRange)

/-- Whether the range rules out `cell op v` for every cell of it. -/
def rangeIsFalse (range : ColumnRange) (op : CmpOp) (v : Value) : Bool :=
  let vMin := range.min.bind (totalCmp v)
  let vMax := range.max.bind (totalCmp v)
  let minV := range.min.bind (totalCmp · v)
  let maxV := range.max.bind (totalCmp · v)
  match op with
  | .eq => vMin == some .lt || vMax == some .gt
  | .ne => minV == some .eq && maxV == some .eq
  | .lt => minV == some .gt || minV == some .eq
  | .le => minV == some .gt
  | .gt => maxV == some .lt || maxV == some .eq
  | .ge => maxV == some .lt

def cmpIsFalse (op : CmpOp) (l r : Expr) : Bool :=
  match normalCmp op l r with
  | none => false
  | some (c, v, op) =>
    if v.isNull then true
    else match stats c with
      | none => false
      | some range =>
        if range.nullCount = range.rows then true
        else if (op == .eq || op == .ne) && v.isNaN then false
        else rangeIsFalse range op v

def betweenIsFalse (e low high : Expr) : Bool :=
  match e.columnOf, low, high with
  | some c, .literal low _, .literal high _ =>
    if low.isNull || high.isNull then false
    else match stats c with
      | none => false
      | some range =>
        range.min.bind (totalCmp high) == some .lt || range.max.bind (totalCmp low) == some .gt
  | _, _, _ => false

/-- Outside the range; a range without both its ends has no outside. -/
def outside (range : ColumnRange) (v : Value) : Bool :=
  match range.min, range.max with
  | some min, some max => totalCmp v min == some .lt || totalCmp v max == some .gt
  | _, _ => false

def inListIsFalse (e : Expr) (list : List Value) : Bool :=
  match e.columnOf with
  | none => false
  | some c =>
    match stats c with
    | none => false
    | some range => (list.filter fun v => !v.isNull).all (outside range)

def nullTestIsFalse (e : Expr) (ruledOut : ColumnRange → Bool) : Bool :=
  match e.columnOf with
  | none => false
  | some c => (stats c).any ruledOut

/-- What statistics say of a conjunct that is neither an `And` nor an `Or`. -/
def statsLeaf : Expr → Bool
  | .cmp op l r => cmpIsFalse stats op l r
  | .between e low high false => betweenIsFalse stats e low high
  | .inList e list false => inListIsFalse stats e list
  | .isNull e => nullTestIsFalse stats e fun range => range.nullCount = 0
  | .isNotNull e => nullTestIsFalse stats e fun range => range.nullCount = range.rows
  | _ => false

/-- True unless the predicate is provably false for every row. -/
def mayMatch (pred : Expr) : Bool := !refuted (statsLeaf stats) pred

/-- One conjunct: an `Or` by its parts, anything else by itself. -/
def conjunctIsFalse : Expr → Bool
  | .or parts => parts.all fun p => !mayMatch stats p
  | e => statsLeaf stats e

end Prune

mutual

/-- Flattens nested `And`; any other node is one conjunct on its own. -/
def Expr.conjuncts : Expr → List Expr
  | .and parts => conjunctsOf parts
  | e => [e]

def conjunctsOf : List Expr → List Expr
  | [] => []
  | p :: rest => p.conjuncts ++ conjunctsOf rest

end

section Conjuncts

variable (stats : Nat → Option ColumnRange)

theorem allRefuted_eq (parts : List Expr) :
    allRefuted (statsLeaf stats) parts = parts.all fun p => !mayMatch stats p := by
  induction parts with
  | nil => rfl
  | cons p rest ih => simp [allRefuted, mayMatch, ih]

mutual

/-- The recursion over the expression is the search over its conjuncts. -/
theorem refuted_eq_any : ∀ e : Expr, refuted (statsLeaf stats) e = e.conjuncts.any (conjunctIsFalse stats)
  | .and parts => by
    rw [refuted, Expr.conjuncts]
    exact someRefuted_eq_any parts
  | .or parts => by simp [refuted, Expr.conjuncts, conjunctIsFalse, allRefuted_eq]
  | .column _ | .literal _ _ | .cmp _ _ _ | .not _ | .isNull _ | .isNotNull _ | .inList _ _ _ | .between _ _ _ _
  | .like _ _ _ _ | .arith _ _ _ | .neg _ | .case _ _ | .cast _ _ | .func _ _ => by
    simp [refuted, Expr.conjuncts, conjunctIsFalse]

theorem someRefuted_eq_any : ∀ parts : List Expr,
    someRefuted (statsLeaf stats) parts = (conjunctsOf parts).any (conjunctIsFalse stats)
  | [] => rfl
  | p :: rest => by
    rw [someRefuted, conjunctsOf, List.any_append, refuted_eq_any p, someRefuted_eq_any rest]

end

/-- A predicate may match unless one of its conjuncts is provably false. -/
theorem mayMatch_eq (pred : Expr) : mayMatch stats pred = !pred.conjuncts.any (conjunctIsFalse stats) := by
  rw [mayMatch, refuted_eq_any]

end Conjuncts

end Adelie
