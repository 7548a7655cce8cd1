import Adelie.Exec.Eval

namespace Adelie

/-- Row `i` of a BOOL column is TRUE. -/
def Column.TrueAt (c : Column) (i : Nat) : Prop := c.cells[i]? = some (.bool true)

/-- An expression that is TRUE on no row of a batch: it is an error, or FALSE or NULL everywhere. -/
def NeverTrue (K : Kernels) (fields : List Field) (rows : List Row) (e : Expr) : Prop :=
  ∀ c, e.eval K fields rows = .ok c → ∀ i, ¬ c.TrueAt i

section Kernels

variable {a b c : Column} {tests : List (Option Bool)} {i : Nat}

theorem boolColumn_trueAt : (boolColumn tests).TrueAt i ↔ tests[i]? = some (some true) := by
  unfold Column.TrueAt boolColumn
  rw [List.getElem?_map]
  cases tests[i]? with
  | none => simp
  | some test => cases test <;> simp [boolCell]

theorem rowBool_eq_true {v : Value} (made : rowBool v = .ok (some true)) : v = .bool true := by
  cases v <;> simp_all [rowBool]

theorem bools_trueAt (made : c.bools = .ok tests) (true_ : tests[i]? = some (some true)) : c.TrueAt i := by
  obtain ⟨cell, at_, test⟩ := getElem?_of_mapM made true_
  unfold Column.TrueAt
  rw [at_, rowBool_eq_true test]

theorem kleene_trueAt {name : String} {op : Option Bool → Option Bool → Option Bool} (made : kleene name op a b = .ok c)
    (true_ : c.TrueAt i) : ∃ x y, op x y = some true ∧ (x = some true → a.TrueAt i) ∧ (y = some true → b.TrueAt i) := by
  unfold kleene at made
  obtain ⟨_, _, made⟩ := Except.bind_eq_ok.mp made
  obtain ⟨left, first, made⟩ := Except.bind_eq_ok.mp made
  obtain ⟨right, second, made⟩ := Except.bind_eq_ok.mp made
  cases made
  rw [boolColumn_trueAt, List.getElem?_zipWith_eq_some] at true_
  obtain ⟨x, y, here, there, both⟩ := true_
  refine ⟨x, y, both, ?_, ?_⟩
  · rintro rfl
    exact bools_trueAt first here
  · rintro rfl
    exact bools_trueAt second there

theorem kleeneOr_eq_true : ∀ {x y : Option Bool}, kleeneOr x y = some true → x = some true ∨ y = some true := by
  decide

theorem andColumns_trueAt (made : andColumns a b = .ok c) (true_ : c.TrueAt i) : a.TrueAt i ∧ b.TrueAt i := by
  obtain ⟨x, y, both, left, right⟩ := kleene_trueAt made true_
  obtain ⟨first, second⟩ := kleeneAnd_eq_true.mp both
  exact ⟨left first, right second⟩

theorem orColumns_trueAt (made : orColumns a b = .ok c) (true_ : c.TrueAt i) : a.TrueAt i ∨ b.TrueAt i := by
  obtain ⟨x, y, either, left, right⟩ := kleene_trueAt made true_
  exact (kleeneOr_eq_true either).imp left right

/-- A comparison is TRUE only between two values. -/
theorem compareScalarColumn_trueAt {op : CmpOp} {v : Value} (made : compareScalarColumn a op v = .ok c)
    (true_ : c.TrueAt i) :
    v.isNull = false ∧ ∃ cell, a.cells[i]? = some cell ∧ cell.isNull = false ∧ applyCmp? op cell v = some true := by
  unfold compareScalarColumn at made
  split at made
  · cases made
    rw [boolColumn_trueAt, List.getElem?_map] at true_
    cases at_ : a.cells[i]? <;> simp [at_] at true_
  · rename_i value
    obtain ⟨_, _, made⟩ := Except.bind_eq_ok.mp made
    obtain ⟨tests, compared, made⟩ := Except.bind_eq_ok.mp made
    cases made
    rw [boolColumn_trueAt] at true_
    obtain ⟨cell, at_, test⟩ := getElem?_of_mapM compared true_
    refine ⟨by simpa using value, cell, at_, ?_⟩
    unfold compareCell at test
    split at test
    · cases test
    · rename_i both
      split at test
      · rename_i result defined_
        cases test
        exact ⟨by simp_all, defined_⟩
      · cases test

theorem isNullColumn_trueAt {wantNotNull : Bool} (true_ : (isNullColumn a wantNotNull).TrueAt i) :
    ∃ cell, a.cells[i]? = some cell ∧ cell.isNull = !wantNotNull := by
  unfold isNullColumn at true_
  rw [boolColumn_trueAt, List.getElem?_map] at true_
  cases at_ : a.cells[i]? with
  | none => simp [at_] at true_
  | some cell =>
    refine ⟨cell, rfl, ?_⟩
    rw [at_] at true_
    cases wantNotNull <;> simpa using true_

theorem foldlM_or_trueAt {list : List Value} (made : list.foldlM (fun acc v => do
      orColumns acc (← compareScalarColumn a .eq v)) b = .ok c) (true_ : c.TrueAt i) :
    b.TrueAt i ∨ ∃ v ∈ list, ∃ d, compareScalarColumn a .eq v = .ok d ∧ d.TrueAt i := by
  induction list generalizing b with
  | nil =>
    cases made
    exact .inl true_
  | cons v rest ih =>
    rw [List.foldlM_cons] at made
    obtain ⟨next, step, made⟩ := Except.bind_eq_ok.mp made
    obtain ⟨d, compared, step⟩ := Except.bind_eq_ok.mp step
    rcases ih made with here | ⟨w, member, found⟩
    · rcases orColumns_trueAt step here with old | new
      · exact .inl old
      · exact .inr ⟨v, .head _, d, compared, new⟩
    · exact .inr ⟨w, .tail _ member, found⟩

/-- IN is TRUE only of a value of the list. -/
theorem evalInList_trueAt {list : List Value} (made : evalInList a list = .ok c) (true_ : c.TrueAt i) :
    ∃ v ∈ list, ∃ d, compareScalarColumn a .eq v = .ok d ∧ d.TrueAt i := by
  cases list with
  | nil =>
    cases made
    rw [boolColumn_trueAt, List.getElem?_map] at true_
    cases at_ : a.cells[i]? <;> simp [at_] at true_
  | cons v rest =>
    obtain ⟨first, compared, made⟩ := Except.bind_eq_ok.mp made
    rcases foldlM_or_trueAt made true_ with here | ⟨w, member, found⟩
    · exact ⟨v, .head _, first, compared, here⟩
    · exact ⟨w, .tail _ member, found⟩

end Kernels

section Logic

variable {K : Kernels} {fields : List Field} {rows : List Row} {parts : List Expr} {acc c : Column} {i : Nat}

theorem evalRest_and (made : evalRest K fields rows andColumns acc parts = .ok c) (true_ : c.TrueAt i) :
    acc.TrueAt i ∧ ∀ p ∈ parts, ∃ d, p.eval K fields rows = .ok d ∧ d.TrueAt i := by
  induction parts generalizing acc with
  | nil =>
    rw [evalRest] at made
    cases made
    exact ⟨true_, by simp⟩
  | cons p rest ih =>
    rw [evalRest] at made
    obtain ⟨next, here, made⟩ := Except.bind_eq_ok.mp made
    obtain ⟨acc', step, made⟩ := Except.bind_eq_ok.mp made
    obtain ⟨held, others⟩ := ih made
    obtain ⟨before, this⟩ := andColumns_trueAt step held
    refine ⟨before, ?_⟩
    intro q member
    rcases List.mem_cons.mp member with rfl | member
    · exact ⟨next, here, this⟩
    · exact others q member

theorem evalRest_or (made : evalRest K fields rows orColumns acc parts = .ok c) (true_ : c.TrueAt i) :
    acc.TrueAt i ∨ ∃ p ∈ parts, ∃ d, p.eval K fields rows = .ok d ∧ d.TrueAt i := by
  induction parts generalizing acc with
  | nil =>
    rw [evalRest] at made
    cases made
    exact .inl true_
  | cons p rest ih =>
    rw [evalRest] at made
    obtain ⟨next, here, made⟩ := Except.bind_eq_ok.mp made
    obtain ⟨acc', step, made⟩ := Except.bind_eq_ok.mp made
    rcases ih made with held | ⟨q, member, found⟩
    · rcases orColumns_trueAt step held with before | this
      · exact .inl before
      · exact .inr ⟨p, .head _, next, here, this⟩
    · exact .inr ⟨q, .tail _ member, found⟩

/-- A conjunction is TRUE only where each of its parts is. -/
theorem eval_and_trueAt (made : (Expr.and parts).eval K fields rows = .ok c) (true_ : c.TrueAt i) :
    ∀ p ∈ parts, ∃ d, p.eval K fields rows = .ok d ∧ d.TrueAt i := by
  rw [Expr.eval] at made
  obtain ⟨_, _, made⟩ := Except.bind_eq_ok.mp made
  cases parts with
  | nil => simp
  | cons p rest =>
    simp only [evalFold] at made
    obtain ⟨first, here, made⟩ := Except.bind_eq_ok.mp made
    obtain ⟨held, others⟩ := evalRest_and made true_
    intro q member
    rcases List.mem_cons.mp member with rfl | member
    · exact ⟨first, here, held⟩
    · exact others q member

/-- A disjunction is TRUE only where one of its parts is. -/
theorem eval_or_trueAt (made : (Expr.or parts).eval K fields rows = .ok c) (true_ : c.TrueAt i) :
    ∃ p ∈ parts, ∃ d, p.eval K fields rows = .ok d ∧ d.TrueAt i := by
  rw [Expr.eval] at made
  obtain ⟨_, _, made⟩ := Except.bind_eq_ok.mp made
  cases parts with
  | nil =>
    simp only [evalFold] at made
    cases made
  | cons p rest =>
    simp only [evalFold] at made
    obtain ⟨first, here, made⟩ := Except.bind_eq_ok.mp made
    rcases evalRest_or made true_ with held | ⟨q, member, found⟩
    · exact ⟨p, .head _, first, here, held⟩
    · exact ⟨q, .tail _ member, found⟩

theorem eval_column {j : Nat} (made : (Expr.column j).eval K fields rows = .ok c) : c.cells = columnOf rows j := by
  rw [Expr.eval] at made
  obtain ⟨_, _, made⟩ := Except.bind_eq_ok.mp made
  cases made
  rfl

end Logic

end Adelie
