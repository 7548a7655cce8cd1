import Adelie.Exec.Expr

namespace Adelie

/-- A three-valued outcome as a BOOL cell. -/
def boolCell : Option Bool → Value
  | some b => .bool b
  | none => .null

def boolColumn (tests : List (Option Bool)) : Column := ⟨.bool, tests.map boolCell⟩

def rowBool : Value → Except ExecError (Option Bool)
  | .null => .ok none
  | .bool b => .ok (some b)
  | _ => .error (.panicked "boolean kernel called on a non-BOOL column")

def Column.bools (c : Column) : Except ExecError (List (Option Bool)) := c.cells.mapM rowBool

/-- `and` and `or`. -/
def kleene (name : String) (op : Option Bool → Option Bool → Option Bool) (a b : Column) :
    Except ExecError Column := do
  ensure (a.cells.length = b.cells.length)
    (.panicked s!"boolean {name}: length mismatch {a.cells.length} vs {b.cells.length}")
  let left ← a.bools
  let right ← b.bools
  return boolColumn (List.zipWith op left right)

def andColumns : Column → Column → Except ExecError Column := kleene "AND" kleeneAnd
def orColumns : Column → Column → Except ExecError Column := kleene "OR" kleeneOr

def notColumn (c : Column) : Except ExecError Column := do
  let tests ← c.bools
  return boolColumn (tests.map (Option.map (!·)))

def negate (negated : Bool) (c : Column) : Except ExecError Column := if negated then notColumn c else .ok c

/-- NULL counts as not true. -/
def truthy (c : Column) : Except ExecError (List Bool) := do
  let tests ← c.bools
  return tests.map (· == some true)

def compareCell (op : CmpOp) (a b : Value) : Except ExecError (Option Bool) :=
  if a.isNull || b.isNull then .ok none
  else match applyCmp? op a b with
    | some test => .ok (some test)
    | none => .error (.panicked "same-kind values always compare")

def compareScalarColumn (c : Column) (op : CmpOp) (v : Value) : Except ExecError Column :=
  if v.isNull then .ok (boolColumn (c.cells.map fun _ => none))
  else do
    ensure (matchesKind c.ty v) (.plan s!"cannot compare {c.ty.display} column")
    let tests ← c.cells.mapM (compareCell op · v)
    return boolColumn tests

def compareColumns (l : Column) (op : CmpOp) (r : Column) : Except ExecError Column := do
  ensure (l.cells.length = r.cells.length)
    (.plan s!"compare length mismatch: {l.cells.length} vs {r.cells.length}")
  ensure (sameKind l.ty r.ty) (.plan s!"cannot compare {l.ty.display} to {r.ty.display}")
  let tests ← (l.cells.zip r.cells).mapM fun cells => compareCell op cells.1 cells.2
  return boolColumn tests

/-- Bytes that a column of this type stores outside its offsets. -/
def payload : Value → Nat
  | .string s => s.utf8ByteSize
  | .bytes b => b.length
  | _ => 0

/-- Every offset of the column fits a u32. -/
def offsetsFit (cells : List Value) : Bool :=
  let lists := cells.map fun
    | .list items => items
    | _ => []
  (cells.map payload).sum < 2 ^ 32 && lists.flatten.length < 2 ^ 32 && (lists.flatten.map payload).sum < 2 ^ 32

/-- `ColumnBuilder`: each value coerced to the column's type. -/
def buildColumn (ty : DataType) (values : List Value) : Except ExecError Column := do
  let cells ← values.mapM fun v =>
    match coerce v ty with
    | some cell => .ok cell
    | none => .error (.plan s!"value does not losslessly fit {ty.display}")
  ensure (offsetsFit cells) (.plan "column buffer exceeds u32::MAX")
  return ⟨ty, cells⟩

def nullColumn (ty : DataType) (rows : Nat) : Column := ⟨ty, List.replicate rows .null⟩

/-- A literal on either side is compared as a scalar, on the left with the comparison flipped. -/
def evalCmp (op : CmpOp) (l r : Expr) (left right : Except ExecError Column) : Except ExecError Column :=
  match l, r with
  | .literal v _, _ => do compareScalarColumn (← right) op.flip v
  | _, .literal v _ => do compareScalarColumn (← left) op v
  | _, _ => do compareColumns (← left) op (← right)

def isNullColumn (c : Column) (wantNotNull : Bool) : Column :=
  boolColumn (c.cells.map fun cell => some (cell.isNull != wantNotNull))

/-- The OR of an equality with each value. With no value the bitmap of `new_null` holds the values
    themselves, not their validity: the result is FALSE, not NULL. -/
def evalInList (c : Column) : List Value → Except ExecError Column
  | [] => .ok (boolColumn (c.cells.map fun _ => some false))
  | v :: rest => do
    let first ← compareScalarColumn c .eq v
    rest.foldlM (fun acc v => do orColumns acc (← compareScalarColumn c .eq v)) first

/-- The first branch that is true at a row, else the default. -/
def pickBranch (otherwise : Column) (branches : List (List Bool × Column)) (row : Nat) : Value :=
  match branches.find? fun branch => branch.1.getD row false with
  | some branch => branch.2.cells.getD row .null
  | none => otherwise.cells.getD row .null

section Eval

variable (K : Kernels) (fields : List Field) (rows : List Row)

mutual

/-- The output column of an expression over a batch. The whole expression is typed first. -/
def Expr.eval (e : Expr) : Except ExecError Column := do
  let ty ← e.dataType K fields
  match e with
  | .column i => return ⟨ty, columnOf rows i⟩
  | .literal v _ => buildColumn ty (rows.map fun _ => v)
  | .cmp op l r => evalCmp op l r l.eval r.eval
  | .and parts => evalFold andColumns parts
  | .or parts => evalFold orColumns parts
  | .not e => do notColumn (← e.eval)
  | .isNull e => do return isNullColumn (← e.eval) false
  | .isNotNull e => do return isNullColumn (← e.eval) true
  | .inList e list negated => do negate negated (← evalInList (← e.eval) list)
  | .between e low high negated => do
    let geLow ← evalCmp .ge e low e.eval low.eval
    let leHigh ← evalCmp .le e high e.eval high.eval
    negate negated (← andColumns geLow leHigh)
  | .like e pattern caseInsensitive negated => do negate negated (← K.like (← e.eval) pattern caseInsensitive)
  | .arith op l r => do K.arith op (← l.eval) (← r.eval) ty
  | .neg e => do K.neg (← e.eval)
  | .case branches otherwise => do
    let picked ← evalBranches branches
    let rest ← match otherwise with
      | some e => e.eval
      | none => .ok (nullColumn ty rows.length)
    buildColumn ty ((List.range rows.length).map (pickBranch rest picked))
  | .cast e _ => do K.cast (← e.eval) ty
  | .func f args => do K.func f (← evalArgs args) rows.length

/-- `eval_fold`: left to right. -/
def evalFold (op : Column → Column → Except ExecError Column) : List Expr → Except ExecError Column
  | [] => .error (.panicked "data_type checked AND/OR is non-empty")
  | p :: rest => do evalRest op (← p.eval) rest

def evalRest (op : Column → Column → Except ExecError Column) (acc : Column) : List Expr → Except ExecError Column
  | [] => .ok acc
  | p :: rest => do
    let next ← p.eval
    evalRest op (← op acc next) rest

def evalArgs : List Expr → Except ExecError (List Column)
  | [] => .ok []
  | a :: rest => do
    let c ← a.eval
    return c :: (← evalArgs rest)

/-- Conditions and results of a CASE, each evaluated on every row. -/
def evalBranches : List (Expr × Expr) → Except ExecError (List (List Bool × Column))
  | [] => .ok []
  | (cond, result) :: rest => do
    let test ← truthy (← cond.eval)
    let column ← result.eval
    return (test, column) :: (← evalBranches rest)

end

end Eval

end Adelie
