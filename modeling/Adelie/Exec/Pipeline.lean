import Adelie.Exec.Eval
import Adelie.Exec.Sink

namespace Adelie

/-- `check` and `reserve` may report any of `interrupts` at any point: a cancellation, a timeout, a
    budget that other workers have spent. -/
structure ExecContext where
  threads : Nat
  interrupts : ExecError → Prop

def ExecError.isPanic : ExecError → Bool
  | .panicked _ => true
  | _ => false

/-- The morsels of a source and the operators still to run over them. No operator buffers or ends a
    stream early: `finish` emits nothing and `done` is false for each, so a chain is what it makes of one batch. -/
structure Stream where
  fields : List Field
  reads : List (Except ExecError (List ColumnBatch))
  through : ColumnBatch → Except ExecError (List ColumnBatch)

namespace Stream

/-- `BatchSource`: one morsel a batch, and no operator. -/
def restart (fields : List Field) (batches : List ColumnBatch) : Stream :=
  ⟨fields, batches.map fun b => .ok [b], fun b => .ok [b]⟩

/-- One more operator at the end of the chain. -/
def pipe (s : Stream) (fields : List Field) (push : ColumnBatch → Except ExecError (List ColumnBatch)) : Stream :=
  ⟨fields, s.reads, fun b => do return (← (← s.through b).mapM push).flatten⟩

/-- What the chain makes of a morsel. -/
def emits (s : Stream) (i : Nat) : Except ExecError (List ColumnBatch) := do
  let batches ← s.reads[i]?.getD (.error (.panicked "index out of bounds"))
  return (← batches.mapM s.through).flatten

/-- The rows of a morsel; one that cannot be read has none. -/
def rowsAt (s : Stream) (i : Nat) : List Row :=
  match s.emits i with
  | .ok out => out.flatMap ColumnBatch.toRows
  | .error _ => []

def rows (s : Stream) : List Row := (List.range s.reads.length).flatMap s.rowsAt

end Stream

section Run

variable {σ : Type} (ctx : ExecContext) (s : Stream) (sink : Sink σ)

/-- Each worker's chain and sink are made anew; neither can fail once the plan is compiled. -/
def pipeline : Pool σ ColumnBatch ExecError where
  total := s.reads.length
  fresh := .ok sink.empty
  read i := s.reads[i]?.getD (.error (.panicked "index out of bounds"))
  push held b := do (← s.through b).foldlM sink.push held
  done := sink.done
  interrupts := ctx.interrupts
  panics := ExecError.isPanic

def workers : Nat := min (max ctx.threads 1) (max s.reads.length 1)

/-- The partial sinks are merged in the order of the workers. -/
inductive Ran : List (List Nat) → Except ExecError σ → Prop
  | failed {log : List (List Nat)} {e : ExecError}
      (ends : (pipeline ctx s sink).Ends (workers ctx s) log (.error e)) : Ran log (.error e)
  | merged {log : List (List Nat)} {first : σ} {rest : List σ}
      (ends : (pipeline ctx s sink).Ends (workers ctx s) log (.ok (first :: rest))) :
    Ran log (rest.foldlM sink.merge first)
  | interrupted {log : List (List Nat)} {held : List σ} {e : ExecError}
      (ends : (pipeline ctx s sink).Ends (workers ctx s) log (.ok held)) (stopped : ctx.interrupts e) :
    Ran log (.error e)

end Run

/-- A computation that runs pipelines: what it may give, with what each run's workers took. -/
def Scheduled (α : Type) : Type := List (List (List Nat)) → Except ExecError α → Prop

namespace Scheduled

variable {α β : Type}

def lift (x : Except ExecError α) : Scheduled α := fun logs r => logs = [] ∧ r = x

def bind (m : Scheduled α) (f : α → Scheduled β) : Scheduled β := fun logs r =>
  (∃ e, m logs (.error e) ∧ r = .error e) ∨
    ∃ a before after, m before (.ok a) ∧ f a after r ∧ logs = before ++ after

instance : Monad Scheduled where
  pure a := lift (.ok a)
  bind := bind

/-- A step that consults the context as it goes. -/
def checked (ctx : ExecContext) (x : Except ExecError α) : Scheduled α := fun logs r =>
  logs = [] ∧ (r = x ∨ ∃ e, ctx.interrupts e ∧ r = .error e)

def run {σ : Type} (ctx : ExecContext) (s : Stream) (sink : Sink σ) : Scheduled σ := fun logs r =>
  ∃ log, logs = [log] ∧ Ran ctx s sink log r

theorem bind_ok {m : Scheduled α} {f : α → Scheduled β} {logs : List (List (List Nat))} {b : β} :
    (m >>= f) logs (.ok b) ↔ ∃ a before after, m before (.ok a) ∧ f a after (.ok b) ∧ logs = before ++ after := by
  constructor
  · rintro (⟨e, _, wrong⟩ | found)
    · cases wrong
    · exact found
  · exact Or.inr

theorem lift_ok {x : Except ExecError α} {logs : List (List (List Nat))} {a : α} :
    lift x logs (.ok a) ↔ logs = [] ∧ x = .ok a := by
  simp only [lift, eq_comm]

theorem checked_ok {ctx : ExecContext} {x : Except ExecError α} {logs : List (List (List Nat))} {a : α} :
    checked ctx x logs (.ok a) ↔ logs = [] ∧ x = .ok a := by
  constructor
  · rintro ⟨none, same | ⟨e, _, wrong⟩⟩
    · exact ⟨none, same.symm⟩
    · cases wrong
  · rintro ⟨none, same⟩
    exact ⟨none, Or.inl same.symm⟩

theorem pure_ok {x a : α} {logs : List (List (List Nat))} :
    (pure x : Scheduled α) logs (.ok a) ↔ logs = [] ∧ x = a := by
  simp only [pure, lift, Except.ok.injEq, eq_comm]

end Scheduled

/-- The top-level drain. -/
def materialize (ctx : ExecContext) (s : Stream) : Scheduled (List ColumnBatch) := do
  let held ← Scheduled.run ctx s CollectSink.sink
  Scheduled.checked ctx (CollectSink.finish s.fields held)

namespace Project

/-- The output fields; a name that stands twice is refused. -/
def newFields (K : Kernels) (input : List Field) :
    List (String × Expr) → List Field → Except ExecError (List Field)
  | [], fields => .ok fields
  | (name, e) :: rest, fields => do
    ensure (!fields.any fun f => f.name = name) (.plan s!"duplicate output column {name}")
    newFields K input rest (fields ++ [⟨name, ← e.dataType K input⟩])

/-- A bare column is taken as it is. -/
def output (K : Kernels) (b : ColumnBatch) : Expr → Except ExecError Column
  | .column i => b.column i
  | e => e.eval K b.fields b.toRows

def push (K : Kernels) (exprs : List (String × Expr)) (fields : List Field) (b : ColumnBatch) :
    Except ExecError (List ColumnBatch) := do
  let columns ← exprs.mapM fun e => output K b e.2
  let projected ← (ColumnBatch.new fields columns).mapError fun e => .plan e.display
  return [projected]

end Project

/-- The column range that the sinks leave to the compiler of the plan. -/
def checkSortKeys (keys : List SortKey) (fields : List Field) : Except ExecError Unit :=
  match keys.find? fun key => fields.length ≤ key.column with
  | some key => .error (.plan s!"ORDER BY column {key.column} out of range for {fields.length} inputs")
  | none => .ok ()

/-- A plan down to its sort: ORDER BY, or ORDER BY with LIMIT, then limits and projections over it. -/
inductive SortedPlan where
  | sort (keys : List SortKey)
  | topK (keys : List SortKey) (k : Nat)
  | limit (input : SortedPlan) (count : Option Nat) (offset : Nat)
  | project (input : SortedPlan) (exprs : List (String × Expr))

namespace SortedPlan

variable (K : Kernels) (ctx : ExecContext) (input : Stream)

/-- A node that ends a pipeline restarts as a stream over its result. -/
def stream : SortedPlan → Scheduled Stream
  | .sort keys => do
    Scheduled.lift (checkSortKeys keys input.fields)
    let held ← Scheduled.run ctx input SortSink.sink
    let batches ← Scheduled.checked ctx (SortSink.finish input.fields keys held)
    return .restart input.fields batches
  | .topK keys k => do
    Scheduled.lift (checkSortKeys keys input.fields)
    let held ← Scheduled.run ctx input (TopKSink.sink input.fields keys k)
    return .restart input.fields held
  | .limit inner count offset => do
    let s ← inner.stream
    let held ← Scheduled.run ctx s (LimitSink.sink count offset)
    let batches ← Scheduled.checked ctx (LimitSink.finish offset s.fields held)
    return .restart s.fields batches
  | .project inner exprs => do
    let s ← inner.stream
    let fields ← Scheduled.lift (Project.newFields K s.fields exprs [])
    return s.pipe fields (Project.push K exprs fields)

def execute (p : SortedPlan) : Scheduled (List ColumnBatch) := do
  let s ← p.stream K ctx input
  materialize ctx s

end SortedPlan

end Adelie
