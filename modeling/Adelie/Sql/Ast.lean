import Mathlib

namespace Adelie

namespace Ast

/-- `db` is `none` for an unqualified name. -/
structure ObjectName where
  db : Option String
  name : String
deriving DecidableEq, Repr

/-- A number keeps its text: the binder types it by context. -/
inductive Literal where
  | number (text : String)
  | string (s : String)
  | bool (b : Bool)
  | null
  | date (s : String)
  | timestamp (s : String)
  | interval (s : String)
deriving DecidableEq, Repr

inductive BinaryOp where
  | or | and | eq | notEq | lt | ltEq | gt | gtEq | concat | add | sub | mul | div | mod
deriving DecidableEq, Repr

inductive UnaryOp where
  | neg | plus
deriving DecidableEq, Repr

/-- A type name as written: `LIST<T>` keeps its element. -/
inductive TypeName where
  | mk (name : String) (params : List Int) (arrayDims : Nat) (listOf : Option TypeName)

inductive Limit where
  | all
  | count (n : Int)
deriving DecidableEq, Repr

inductive NullsOrder where
  | first | last
deriving DecidableEq, Repr

inductive JoinKind where
  | inner | left
deriving DecidableEq, Repr

mutual

inductive Expr where
  | literal (l : Literal)
  | column (parts : List String)
  | wildcard
  | binaryOp (op : BinaryOp) (left right : Expr)
  | unaryOp (op : UnaryOp) (e : Expr)
  | not (e : Expr)
  | isNull (e : Expr) (negated : Bool)
  | isBool (e : Expr) (value negated : Bool)
  | between (e low high : Expr) (negated : Bool)
  | inList (e : Expr) (list : List Expr) (negated : Bool)
  | like (e pattern : Expr) (caseInsensitive negated : Bool)
  | func (name : String) (distinct : Bool) (args : List Expr) (filter : Option Expr)
  | cast (e : Expr) (typeName : TypeName) (viaCast : Bool)
  | extract (field : String) (e : Expr)
  | case (operand : Option Expr) (branches : List (Expr × Expr)) (otherwise : Option Expr)
  | subquery (q : Query)

/-- `[WITH cte, ...] select (UNION ALL select)* [ORDER BY ...] [LIMIT ...] [OFFSET ...]`. -/
inductive Query where
  | mk (ctes : List Cte) (body : List SelectBody) (orderBy : List OrderItem) (limit : Option Limit)
    (offset : Option Int)

inductive Cte where
  | mk (name : String) (query : Query)

inductive SelectBody where
  | select (s : Select)
  | query (q : Query)

inductive Select where
  | mk (distinct : Bool) (projection : List SelectItem) (source : List FromItem) (selection : Option Expr)
    (groupBy : List Expr) (having : Option Expr)

inductive SelectItem where
  | wildcard
  | qualifiedWildcard (qualifier : String)
  | expr (e : Expr) (label : Option String)

inductive FromItem where
  | mk (table : TableRef) (joins : List Join)

inductive TableRef where
  | table (name : ObjectName) (label : Option String)
  | subquery (q : Query) (label : String)

inductive Join where
  | mk (kind : JoinKind) (table : TableRef) (on : Expr)

inductive OrderItem where
  | mk (e : Expr) (desc : Bool) (nulls : Option NullsOrder)

end

namespace Query

def ctes : Query → List Cte
  | .mk ctes _ _ _ _ => ctes

def body : Query → List SelectBody
  | .mk _ body _ _ _ => body

end Query

namespace Cte

def name : Cte → String
  | .mk name _ => name

def query : Cte → Query
  | .mk _ query => query

end Cte

def Select.source : Select → List FromItem
  | .mk _ _ source _ _ _ => source

namespace FromItem

def table : FromItem → TableRef
  | .mk table _ => table

def joins : FromItem → List Join
  | .mk _ joins => joins

end FromItem

def Join.table : Join → TableRef
  | .mk _ table _ => table

end Ast

end Adelie
