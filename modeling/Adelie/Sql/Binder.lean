import Adelie.Sql.Ast

namespace Adelie

open Ast

inductive SqlError where
  | bind (message : String)
  | plan (message : String)
deriving DecidableEq, Repr

/-- The most base-table scans one statement may bind. -/
def maxRelations : Nat := 10000

/-- A binding in progress: `none` has run out of fuel, otherwise a result and the state, or a stop. -/
abbrev Binding (σ ε α : Type) := StateT σ (ExceptT ε Option) α

/-- What the binder does around its table names. `ρ` is a bound relation (a plan and its scope), `δ` a bound
    SELECT, `π` a plan, `σ` the warnings gathered. None of it looks at a table name or at the CTEs in scope. -/
structure Clauses (σ ρ δ π : Type) where
  defaultDb : String
  /-- The catalog: whether a table exists, by database and name. -/
  exists? : String → String → Bool
  scan : String → String → String → Nat → ρ
  wrap : π → String → Nat → ρ
  joinOn : ρ → ρ → Join → σ → Except SqlError (ρ × σ)
  noFrom : ρ
  select : Select → ρ → σ → Except SqlError (δ × σ)
  ofPlan : π → δ
  finalizeBranch : δ → σ → Except SqlError (π × σ)
  unionAll : List π → σ → Except SqlError (δ × σ)
  finish : δ → Query → σ → Except SqlError (π × σ)

/-- The binder's state: the next relation's number, and the rest. -/
structure BindState (σ : Type) where
  nextRel : Nat
  rest : σ

section Bind

variable {σ ρ δ π ε : Type}

def Binding.lift {α : Type} (error : SqlError → ε) (f : σ → Except SqlError (α × σ)) : Binding (BindState σ) ε α :=
  fun s => match f s.rest with
    | .ok (a, rest) => some (.ok (a, { s with rest }))
    | .error e => some (.error (error e))

def Binding.stop {α : Type} (e : ε) : Binding (BindState σ) ε α := fun _ => some (.error e)

def Binding.starve {α : Type} : Binding (BindState σ) ε α := fun _ => none

def nextRel : Binding (BindState σ) ε Nat := fun s => some (.ok (s.nextRel, { s with nextRel := s.nextRel + 1 }))

variable (C : Clauses σ ρ δ π) (error : SqlError → ε)

def bindBaseTable (name : ObjectName) (label : String) : Binding (BindState σ) ε ρ := do
  let db := name.db.getD C.defaultDb
  if C.exists? db name.name then
    let rel ← nextRel
    if maxRelations ≤ rel then
      Binding.stop (error (.bind s!"query expands to more than {maxRelations} table scans"))
    else return C.scan db name.name label rel
  else Binding.stop (error (.bind s!"table {db}.{name.name} does not exist"))

/-- A bound subquery or CTE under its label, its columns under fresh names. -/
def wrapRelation (plan : π) (label : String) : Binding (BindState σ) ε ρ := do
  return C.wrap plan label (← nextRel)

section Walk

-- How a query nested in this one is bound, and what an unqualified table name stands for.
variable (nested : Query → Binding (BindState σ) ε π) (resolve : String → Option (Binding (BindState σ) ε π))

def bindTableRef : TableRef → Binding (BindState σ) ε ρ
  | .table name label => do
    let label := label.getD name.name
    match if name.db.isNone then resolve name.name else none with
    | some body => wrapRelation C (← body) label
    | none => bindBaseTable C error name label
  | .subquery q label => do wrapRelation C (← nested q) label

def bindJoins : ρ → List Join → Binding (BindState σ) ε ρ
  | left, [] => return left
  | left, j :: rest => do
    let right ← bindTableRef C error nested resolve j.table
    let joined ← Binding.lift error (C.joinOn left right j)
    bindJoins joined rest

def bindFromItem (item : FromItem) : Binding (BindState σ) ε ρ := do
  bindJoins C error nested resolve (← bindTableRef C error nested resolve item.table) item.joins

def bindSelect (s : Select) : Binding (BindState σ) ε δ := do
  match s.source with
  | _ :: _ :: _ => Binding.stop (error (.bind "use JOIN … ON to combine tables"))
  | [item] => Binding.lift error (C.select s (← bindFromItem C error nested resolve item))
  | [] => Binding.lift error (C.select s C.noFrom)

def bindSelectBody : SelectBody → Binding (BindState σ) ε δ
  | .select s => bindSelect C error nested resolve s
  | .query q => do return C.ofPlan (← nested q)

def bindBranches : List SelectBody → Binding (BindState σ) ε (List π)
  | [] => return []
  | b :: rest => do
    let sr ← bindSelectBody C error nested resolve b
    let branch ← Binding.lift error (C.finalizeBranch sr)
    return branch :: (← bindBranches rest)

def bindSetExpr (body : List SelectBody) : Binding (BindState σ) ε δ :=
  match body with
  | [single] => bindSelectBody C error nested resolve single
  | body => do Binding.lift error (C.unionAll (← bindBranches C error nested resolve body))

def bindBody (q : Query) : Binding (BindState σ) ε π := do
  Binding.lift error (C.finish (← bindSetExpr C error nested resolve q.body) q)

end Walk

/-- The last CTE of a name. -/
def lastCte (ctes : List Cte) (name : String) : Option Cte := ctes.reverse.find? fun c => c.name = name

end Bind

section Code

variable {σ ρ δ π : Type} (C : Clauses σ ρ δ π)

/-- A query under the CTEs in scope where it stands. The body of a CTE is bound again at every reference, under the
    CTEs in scope at that reference. -/
def bindQueryWith : Nat → Query → List Cte → Binding (BindState σ) SqlError π
  | 0, _, _ => Binding.starve
  | fuel + 1, q, outer =>
    let ctes := outer ++ q.ctes
    bindBody C id (fun inner => bindQueryWith fuel inner ctes)
      (fun name => (lastCte ctes name).map fun c => bindQueryWith fuel c.query ctes) q

def bindQuery (fuel : Nat) (q : Query) : Binding (BindState σ) SqlError π := bindQueryWith C fuel q []

end Code

end Adelie
