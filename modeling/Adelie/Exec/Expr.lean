import Adelie.Storage.Scan
import Adelie.Types.Fit

namespace Adelie

inductive ExecError where
  | budgetExceeded (requested used limit : Nat)
  | cancelled
  | timeout (nanos : Nat)
  | plan (message : String)
  | cast (value : String) (target : DataType)
  | overflow (operation : String)
  | invalid (message : String)
  | source (message : String)
  | panicked (message : String)
deriving DecidableEq, Repr

/-- One typed column: a cell for each row, NULL where the validity bitmap says so. -/
structure Column where
  ty : DataType
  cells : List Value

namespace CmpOp

/-- `a < b` iff `b > a`. -/
def flip : CmpOp → CmpOp
  | .eq => .eq
  | .ne => .ne
  | .lt => .gt
  | .le => .ge
  | .gt => .lt
  | .ge => .le

end CmpOp

inductive ArithOp where
  | add | sub | mul | div | mod
deriving DecidableEq, Repr

inductive TruncUnit where
  | microsecond | millisecond | second | minute | hour | day | week | month | quarter | year
deriving DecidableEq, Repr

inductive DatePart where
  | year | quarter | month | week | day | dayOfWeek | dayOfYear | hour | minute | second | millisecond
  | microsecond | epoch
deriving DecidableEq, Repr

/-- Named functions; a regular expression is known by its pattern. -/
inductive ScalarFunc where
  | lower | upper | length | substr | concat
  | regexpMatch (pattern : String)
  | dateTrunc (unit : TruncUnit)
  | timeBucket (widthNs originNs : I64)
  | extract (part : DatePart)
  | coalesceText
deriving DecidableEq, Repr

inductive Expr where
  | column (i : Nat)
  | literal (v : Value) (ty : DataType)
  | cmp (op : CmpOp) (l r : Expr)
  | and (parts : List Expr)
  | or (parts : List Expr)
  | not (e : Expr)
  | isNull (e : Expr)
  | isNotNull (e : Expr)
  | inList (e : Expr) (list : List Value) (negated : Bool)
  | between (e low high : Expr) (negated : Bool)
  | like (e : Expr) (pattern : String) (caseInsensitive negated : Bool)
  | arith (op : ArithOp) (l r : Expr)
  | neg (e : Expr)
  | case (branches : List (Expr × Expr)) (otherwise : Option Expr)
  | cast (e : Expr) (target : DataType)
  | func (f : ScalarFunc) (args : List Expr)

/-- The kernels that compute on values rather than test them, with what types them. -/
structure Kernels where
  arithType : ArithOp → DataType → DataType → Except ExecError DataType
  arith : ArithOp → Column → Column → DataType → Except ExecError Column
  neg : Column → Except ExecError Column
  like : Column → String → Bool → Except ExecError Column
  castable : DataType → DataType → Bool
  cast : Column → DataType → Except ExecError Column
  funcType : ScalarFunc → List DataType → Except ExecError DataType
  func : ScalarFunc → List Column → Nat → Except ExecError Column

/-- Kernels for predicates that compute nothing. -/
def noKernels : Kernels where
  arithType _ _ _ := .error (.plan "no arithmetic")
  arith _ _ _ _ := .error (.plan "no arithmetic")
  neg _ := .error (.plan "no arithmetic")
  like _ _ _ := .error (.plan "no LIKE")
  castable _ _ := false
  cast _ _ := .error (.plan "no cast")
  funcType _ _ := .error (.plan "no function")
  func _ _ _ := .error (.plan "no function")

/-- Any two DECIMALs are of one kind; everything else has to be of one type. -/
def sameKind : DataType → DataType → Bool
  | .decimal _, .decimal _ => true
  | a, b => a = b

def fits (v : Value) (ty : DataType) : Bool := (coerce v ty).isSome

section Typing

variable (K : Kernels) (input : List Field)

/-- The type every result of a CASE has so far. -/
def agreeResult (agreed : Option DataType) (ty : DataType) : Except ExecError (Option DataType) :=
  match agreed with
  | none => .ok (some ty)
  | some prev =>
    if prev = ty then .ok (some prev)
    else .error (.plan s!"CASE results disagree: {prev.display} vs {ty.display}")

mutual

def Expr.dataType : Expr → Except ExecError DataType
  | .column i =>
    match input[i]? with
    | some f => .ok f.ty
    | none => .error (.plan s!"column index {i} out of range for {input.length} inputs")
  | .literal v ty => do
    ensure (v.isNull || fits v ty) (.plan s!"literal does not losslessly fit {ty.display}")
    return ty
  | .cmp _ l r => do
    let lt ← l.dataType
    let rt ← r.dataType
    ensure (sameKind lt rt)
      (.plan s!"comparison operands {lt.display} and {rt.display} are not the same kind")
    return .bool
  | .and parts | .or parts => do
    ensure (!parts.isEmpty) (.plan "AND/OR needs at least one operand")
    operandTypes parts
    return .bool
  | .not e => do
    let t ← e.dataType
    ensure (t = .bool) (.plan s!"NOT operand must be BOOL, found {t.display}")
    return .bool
  | .isNull e | .isNotNull e => do
    let _ ← e.dataType
    return .bool
  | .inList e list _ => do
    let t ← e.dataType
    ensure (list.all fun v => v.isNull || fits v t) (.plan s!"IN LIST value does not fit {t.display}")
    return .bool
  | .between e low high _ => do
    let t ← e.dataType
    let lt ← low.dataType
    let ht ← high.dataType
    ensure (sameKind t lt && sameKind t ht) (.plan s!"BETWEEN bounds must be the same kind as {t.display}")
    return .bool
  | .like e _ _ _ => do
    let t ← e.dataType
    ensure (t = .string) (.plan s!"LIKE operand must be STRING, found {t.display}")
    return .bool
  | .arith op l r => do
    let lt ← l.dataType
    let rt ← r.dataType
    K.arithType op lt rt
  | .neg e => do
    match ← e.dataType with
    | .int64 => return .int64
    | .float64 => return .float64
    | .decimal t => return .decimal t
    | other => .error (.plan s!"NEG does not apply to {other.display}")
  | .case branches otherwise => do
    ensure (!branches.isEmpty) (.plan "CASE needs at least one branch")
    match ← branchTypes none branches with
    | none => .error (.panicked "checked non-empty above")
    | some ty =>
      match otherwise with
      | none => return ty
      | some e => do
        let ot ← e.dataType
        ensure (ot = ty) (.plan s!"CASE ELSE disagrees: {ty.display} vs {ot.display}")
        return ty
  | .cast e target => do
    let source ← e.dataType
    ensure (K.castable source target) (.plan s!"cannot cast {source.display} to {target.display}")
    return target
  | .func f args => do
    let types ← argTypes args
    K.funcType f types

def operandTypes : List Expr → Except ExecError Unit
  | [] => .ok ()
  | p :: rest => do
    let t ← p.dataType
    ensure (t = .bool) (.plan s!"AND/OR operand must be BOOL, found {t.display}")
    operandTypes rest

def argTypes : List Expr → Except ExecError (List DataType)
  | [] => .ok []
  | a :: rest => do
    let t ← a.dataType
    return t :: (← argTypes rest)

def branchTypes (agreed : Option DataType) : List (Expr × Expr) → Except ExecError (Option DataType)
  | [] => .ok agreed
  | (cond, result) :: rest => do
    let ct ← cond.dataType
    ensure (ct = .bool) (.plan s!"CASE condition must be BOOL, found {ct.display}")
    let rt ← result.dataType
    let agreed ← agreeResult agreed rt
    branchTypes agreed rest

end

end Typing

end Adelie
