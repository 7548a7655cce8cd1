import Adelie.Exec.Truth
import Adelie.Storage.Prune

namespace Adelie

section Refuted

variable {K : Kernels} {fields : List Field} {rows : List Row} {leaf : Expr → Bool} {Good : Expr → Prop}

/-- A property that every part of a conjunction or disjunction takes over from the whole. -/
structure Inherited (Good : Expr → Prop) : Prop where
  and : ∀ parts, Good (.and parts) → ∀ p ∈ parts, Good p
  or : ∀ parts, Good (.or parts) → ∀ p ∈ parts, Good p

mutual

/-- What is refuted is TRUE nowhere, as long as each refuted leaf is. -/
theorem neverTrue_of_refuted (inherited : Inherited Good)
    (sound : ∀ e, Good e → leaf e = true → NeverTrue K fields rows e) :
    ∀ e, Good e → refuted leaf e = true → NeverTrue K fields rows e
  | .and parts, good, ruled => by
    intro c made i true_
    rw [refuted] at ruled
    obtain ⟨p, member, never⟩ := neverTrue_of_someRefuted inherited sound parts (inherited.and parts good) ruled
    obtain ⟨d, evaluated, held⟩ := eval_and_trueAt made true_ p member
    exact never d evaluated i held
  | .or parts, good, ruled => by
    intro c made i true_
    rw [refuted] at ruled
    obtain ⟨p, member, d, evaluated, held⟩ := eval_or_trueAt made true_
    exact neverTrue_of_allRefuted inherited sound parts (inherited.or parts good) ruled p member d evaluated i held
  | .column j, good, ruled => sound _ good ruled
  | .literal v ty, good, ruled => sound _ good ruled
  | .cmp op l r, good, ruled => sound _ good ruled
  | .not e, good, ruled => sound _ good ruled
  | .isNull e, good, ruled => sound _ good ruled
  | .isNotNull e, good, ruled => sound _ good ruled
  | .inList e list negated, good, ruled => sound _ good ruled
  | .between e low high negated, good, ruled => sound _ good ruled
  | .like e pattern folded negated, good, ruled => sound _ good ruled
  | .arith op l r, good, ruled => sound _ good ruled
  | .neg e, good, ruled => sound _ good ruled
  | .case branches otherwise, good, ruled => sound _ good ruled
  | .cast e ty, good, ruled => sound _ good ruled
  | .func f args, good, ruled => sound _ good ruled

theorem neverTrue_of_someRefuted (inherited : Inherited Good)
    (sound : ∀ e, Good e → leaf e = true → NeverTrue K fields rows e) :
    ∀ parts, (∀ p ∈ parts, Good p) → someRefuted leaf parts = true → ∃ p ∈ parts, NeverTrue K fields rows p
  | [], _, ruled => by cases ruled
  | p :: rest, good, ruled => by
    rw [someRefuted, Bool.or_eq_true] at ruled
    rcases ruled with here | later
    · exact ⟨p, .head _, neverTrue_of_refuted inherited sound p (good p (.head _)) here⟩
    · obtain ⟨q, member, never⟩ :=
        neverTrue_of_someRefuted inherited sound rest (fun q inside => good q (.tail _ inside)) later
      exact ⟨q, .tail _ member, never⟩

theorem neverTrue_of_allRefuted (inherited : Inherited Good)
    (sound : ∀ e, Good e → leaf e = true → NeverTrue K fields rows e) :
    ∀ parts, (∀ p ∈ parts, Good p) → allRefuted leaf parts = true → ∀ p ∈ parts, NeverTrue K fields rows p
  | [], _, _ => by simp
  | p :: rest, good, ruled => by
    rw [allRefuted, Bool.and_eq_true] at ruled
    have first := neverTrue_of_refuted inherited sound p (good p (.head _)) ruled.1
    have others := neverTrue_of_allRefuted inherited sound rest (fun q inside => good q (.tail _ inside)) ruled.2
    exact List.forall_mem_cons.mpr ⟨first, others⟩

end

end Refuted

/-- A range that holds of these cells, and of any fewer of them. -/
structure CoversCells (range : ColumnRange) (cells : List Value) : Prop where
  nullFree : range.nullCount = 0 → ∀ v ∈ cells, v.isNull = false
  allNull : range.nullCount = range.rows → ∀ v ∈ cells, v.isNull = true
  min : ∀ m, range.min = some m → ∀ v ∈ cells, v.isNull = false → AtMost m v
  max : ∀ m, range.max = some m → ∀ v ∈ cells, v.isNull = false → AtMost v m

theorem Bounds.covers {range : ColumnRange} {cells fewer : List Value} (bounds : Bounds range cells)
    (part : ∀ v ∈ fewer, v ∈ cells) : CoversCells range fewer := by
  refine ⟨?_, ?_, fun m made v member => bounds.min m made v (part v member),
    fun m made v member => bounds.max m made v (part v member)⟩
  · intro none_ v member
    rw [bounds.nulls, List.countP_eq_zero] at none_
    simpa using none_ v (part v member)
  · intro all v member
    rw [bounds.nulls, bounds.rows, List.countP_eq_length] at all
    exact all v (part v member)

section Range

variable {range : ColumnRange} {cells : List Value} {v cell m : Value} {op : CmpOp}

/-- A value with a place in the scalar order is compared there. -/
theorem totalCmp_eq_scalarCmp {a b : Value} (scalar : AtMost a a ∨ AtMost b b) : totalCmp a b = scalarCmp a b := by
  cases a with
  | list xs =>
    rcases scalar with ⟨o, made, _⟩ | ⟨o, made, _⟩
    · cases made
    · cases b with
      | list ys => cases made
      | _ => unfold totalCmp scalarCmp; rfl
  | _ => unfold totalCmp; rfl

theorem sqlEq_eq_scalarSqlEq {a b : Value} (scalar : AtMost a a) : sqlEq a b = scalarSqlEq a b := by
  cases a with
  | list xs =>
    obtain ⟨o, made, _⟩ := scalar
    cases made
  | _ => unfold sqlEq; rfl

theorem AtMost.refl_right {a b : Value} (le : AtMost a b) : AtMost b b := by
  obtain ⟨o, made, _⟩ := le
  obtain ⟨k, x, y, rfl, rfl⟩ := exists_kind made
  have := k.trans
  exact ⟨_, k.cmp_wrap y y, Std.ReflCmp.isLE_rfl⟩

/-- A cell at least `m` is below no value that `m` is not below. -/
theorem applyCmp?_below (le : AtMost m cell) :
    (totalCmp v m = some .lt → applyCmp? .eq cell v ≠ some true) ∧
    (totalCmp m v = some .gt ∨ totalCmp m v = some .eq → applyCmp? .lt cell v ≠ some true) ∧
    (totalCmp m v = some .gt → applyCmp? .le cell v ≠ some true) := by
  have scalarM := le.refl_left
  have scalarC := le.refl_right
  unfold applyCmp?
  dsimp only
  rw [totalCmp_eq_scalarCmp (.inr scalarM), totalCmp_eq_scalarCmp (.inl scalarM),
    totalCmp_eq_scalarCmp (.inl scalarC), sqlEq_eq_scalarSqlEq scalarC]
  refine ⟨?_, ?_, ?_⟩
  · intro less same
    have equal := scalarCmp_swap (scalarCmp_of_sqlEq same)
    rw [le.lt_of_lt less] at equal
    cases equal
  · intro above test
    have bound : AtMost v m := above.elim atMost_of_gt fun same => atMost_of_eq (scalarCmp_swap same)
    obtain ⟨o, made, smaller⟩ := Option.map_eq_some_iff.mp test
    cases o with
    | lt => exact (bound.trans le).not_lt made
    | eq => cases smaller
    | gt => cases smaller
  · intro above test
    have strict := le.lt_of_lt (scalarCmp_swap above)
    obtain ⟨o, made, smaller⟩ := Option.map_eq_some_iff.mp test
    rw [scalarCmp_swap strict] at made
    cases made
    cases smaller

/-- A cell at most `m` is above no value that `m` is not above. -/
theorem applyCmp?_above (le : AtMost cell m) :
    (totalCmp v m = some .gt → applyCmp? .eq cell v ≠ some true) ∧
    (totalCmp m v = some .lt ∨ totalCmp m v = some .eq → applyCmp? .gt cell v ≠ some true) ∧
    (totalCmp m v = some .lt → applyCmp? .ge cell v ≠ some true) := by
  have scalarM := le.refl_right
  have scalarC := le.refl_left
  unfold applyCmp?
  dsimp only
  rw [totalCmp_eq_scalarCmp (.inr scalarM), totalCmp_eq_scalarCmp (.inl scalarM),
    totalCmp_eq_scalarCmp (.inl scalarC), sqlEq_eq_scalarSqlEq scalarC]
  refine ⟨?_, ?_, ?_⟩
  · intro more same
    have equal := scalarCmp_swap (scalarCmp_of_sqlEq same)
    rw [le.gt_of_gt more] at equal
    cases equal
  · intro below test
    have bound : AtMost m v := below.elim atMost_of_lt atMost_of_eq
    obtain ⟨o, made, larger⟩ := Option.map_eq_some_iff.mp test
    cases o with
    | lt => cases larger
    | eq => cases larger
    | gt => exact (le.trans bound).not_gt made
  · intro below test
    have strict := le.gt_of_gt (scalarCmp_swap below)
    obtain ⟨o, made, larger⟩ := Option.map_eq_some_iff.mp test
    rw [scalarCmp_swap strict] at made
    cases made
    cases larger

/-- A column whose values all stand on the slot of `v` differs from `v` nowhere, unless `v` is NaN. -/
theorem applyCmp?_between {low high : Value} (above : AtMost low cell) (below : AtMost cell high)
    (least : totalCmp low v = some .eq) (greatest : totalCmp high v = some .eq) (number : v.isNaN = false) :
    applyCmp? .ne cell v ≠ some true := by
  rw [totalCmp_eq_scalarCmp (.inl above.refl_left)] at least
  rw [totalCmp_eq_scalarCmp (.inl below.refl_right)] at greatest
  have same : scalarCmp cell v = some .eq :=
    (below.trans (atMost_of_eq greatest)).antisymm ((atMost_of_eq (scalarCmp_swap least)).trans above)
  have equal := sqlEq_of_scalarCmp same fun f is => by rw [is] at number; exact number
  unfold applyCmp?
  dsimp only
  rw [sqlEq_eq_scalarSqlEq above.refl_right, equal]
  simp

theorem rangeIsFalse_sound (covers : CoversCells range cells) (number : (op = .ne) → v.isNaN = false)
    (ruled : rangeIsFalse range op v = true) (member : cell ∈ cells) (value : cell.isNull = false) :
    applyCmp? op cell v ≠ some true := by
  unfold rangeIsFalse at ruled
  have least : ∀ m, range.min = some m → AtMost m cell := fun m made => covers.min m made cell member value
  have greatest : ∀ m, range.max = some m → AtMost cell m := fun m made => covers.max m made cell member value
  cases op with
  | eq =>
    simp only [Bool.or_eq_true, beq_iff_eq, Option.bind_eq_some_iff] at ruled
    rcases ruled with ⟨m, made, less⟩ | ⟨m, made, more⟩
    · exact (applyCmp?_below (least m made)).1 less
    · exact (applyCmp?_above (greatest m made)).1 more
  | ne =>
    simp only [Bool.and_eq_true, beq_iff_eq, Option.bind_eq_some_iff] at ruled
    obtain ⟨⟨low, made, same⟩, high, made', same'⟩ := ruled
    exact applyCmp?_between (least low made) (greatest high made') same same' (number rfl)
  | lt =>
    simp only [Bool.or_eq_true, beq_iff_eq, Option.bind_eq_some_iff] at ruled
    rcases ruled with ⟨m, made, test⟩ | ⟨m, made, test⟩
    · exact (applyCmp?_below (least m made)).2.1 (.inl test)
    · exact (applyCmp?_below (least m made)).2.1 (.inr test)
  | le =>
    simp only [beq_iff_eq, Option.bind_eq_some_iff] at ruled
    obtain ⟨m, made, test⟩ := ruled
    exact (applyCmp?_below (least m made)).2.2 test
  | gt =>
    simp only [Bool.or_eq_true, beq_iff_eq, Option.bind_eq_some_iff] at ruled
    rcases ruled with ⟨m, made, test⟩ | ⟨m, made, test⟩
    · exact (applyCmp?_above (greatest m made)).2.1 (.inl test)
    · exact (applyCmp?_above (greatest m made)).2.1 (.inr test)
  | ge =>
    simp only [beq_iff_eq, Option.bind_eq_some_iff] at ruled
    obtain ⟨m, made, test⟩ := ruled
    exact (applyCmp?_above (greatest m made)).2.2 test

end Range

section Leaf

variable {K : Kernels} {fields : List Field} {rows : List Row} {stats : Nat → Option ColumnRange}

/-- Each range is true of its column in these rows. -/
def StatsHold (stats : Nat → Option ColumnRange) (rows : List Row) : Prop :=
  ∀ c range, stats c = some range → CoversCells range (columnOf rows c)

/-- A comparison of a column with a literal is TRUE only of a cell that passes it. -/
theorem evalCmp_trueAt {op op' : CmpOp} {l r : Expr} {j i : Nat} {v : Value} {c : Column}
    (normal : normalCmp op l r = some (j, v, op')) (made : (Expr.cmp op l r).eval K fields rows = .ok c)
    (true_ : c.TrueAt i) :
    v.isNull = false ∧ ∃ cell ∈ columnOf rows j, cell.isNull = false ∧ applyCmp? op' cell v = some true := by
  rw [Expr.eval] at made
  obtain ⟨_, _, made⟩ := Except.bind_eq_ok.mp made
  unfold normalCmp at normal
  split at normal
  · cases normal
    obtain ⟨left, column, made⟩ := Except.bind_eq_ok.mp made
    obtain ⟨value, cell, at_, present, test⟩ := compareScalarColumn_trueAt made true_
    rw [eval_column column] at at_
    exact ⟨value, cell, List.mem_of_getElem? at_, present, test⟩
  · cases normal
    obtain ⟨right, column, made⟩ := Except.bind_eq_ok.mp made
    obtain ⟨value, cell, at_, present, test⟩ := compareScalarColumn_trueAt made true_
    rw [eval_column column] at at_
    exact ⟨value, cell, List.mem_of_getElem? at_, present, test⟩
  · cases normal

theorem cmpIsFalse_sound (hold : StatsHold stats rows) {op : CmpOp} {l r : Expr}
    (ruled : cmpIsFalse stats op l r = true) : NeverTrue K fields rows (.cmp op l r) := by
  intro c made i true_
  unfold cmpIsFalse at ruled
  cases normal : normalCmp op l r with
  | none => simp [normal] at ruled
  | some triple =>
    obtain ⟨j, v, op'⟩ := triple
    obtain ⟨value, cell, member, present, test⟩ := evalCmp_trueAt normal made true_
    simp only [normal, value, Bool.false_eq_true, if_false] at ruled
    cases known : stats j with
    | none => simp [known] at ruled
    | some range =>
      have covers := hold j range known
      simp only [known] at ruled
      split at ruled
      · rename_i all
        rw [covers.allNull all cell member] at present
        cases present
      · split at ruled
        · cases ruled
        · rename_i guard
          refine rangeIsFalse_sound covers ?_ ruled member present test
          rintro rfl
          simpa using guard

theorem columnOf_eq_some {e : Expr} {j : Nat} (column : e.columnOf = some j) : e = .column j := by
  cases e <;> simp_all [Expr.columnOf]

theorem betweenIsFalse_sound (hold : StatsHold stats rows) {e low high : Expr}
    (ruled : betweenIsFalse stats e low high = true) : NeverTrue K fields rows (.between e low high false) := by
  intro c made i true_
  unfold betweenIsFalse at ruled
  split at ruled
  · rename_i j low' _ high' _ column
    rw [columnOf_eq_some column] at made
    rw [Expr.eval] at made
    obtain ⟨_, _, made⟩ := Except.bind_eq_ok.mp made
    obtain ⟨ge, first, made⟩ := Except.bind_eq_ok.mp made
    obtain ⟨le, second, made⟩ := Except.bind_eq_ok.mp made
    obtain ⟨both, joined, made⟩ := Except.bind_eq_ok.mp made
    cases made
    obtain ⟨left, right⟩ := andColumns_trueAt joined true_
    obtain ⟨col, column, first⟩ := Except.bind_eq_ok.mp first
    obtain ⟨col', column', second⟩ := Except.bind_eq_ok.mp second
    obtain ⟨_, cell, at_, present, test⟩ := compareScalarColumn_trueAt first left
    obtain ⟨_, cell', at', _, test'⟩ := compareScalarColumn_trueAt second right
    rw [eval_column column] at at_
    rw [eval_column column'] at at'
    have same : cell' = cell := by rw [at_] at at'; cases at'; rfl
    subst same
    have member := List.mem_of_getElem? at_
    split at ruled
    · cases ruled
    · cases known : stats j with
      | none => simp [known] at ruled
      | some range =>
        have covers := hold j range known
        simp only [known, Bool.or_eq_true, beq_iff_eq, Option.bind_eq_some_iff] at ruled
        rcases ruled with ⟨m, bound, less⟩ | ⟨m, bound, more⟩
        · have least := covers.min m bound _ member present
          refine (applyCmp?_below least).2.2 ?_ test'
          rw [totalCmp_eq_scalarCmp (.inr least.refl_left)] at less
          rw [totalCmp_eq_scalarCmp (.inl least.refl_left)]
          exact scalarCmp_swap less
        · have greatest := covers.max m bound _ member present
          refine (applyCmp?_above greatest).2.2 ?_ test
          rw [totalCmp_eq_scalarCmp (.inr greatest.refl_right)] at more
          rw [totalCmp_eq_scalarCmp (.inl greatest.refl_right)]
          exact scalarCmp_swap more
  · cases ruled

theorem outside_sound {range : ColumnRange} {cells : List Value} (covers : CoversCells range cells) {v cell : Value}
    (out : outside range v = true) (member : cell ∈ cells) (present : cell.isNull = false) :
    applyCmp? .eq cell v ≠ some true := by
  unfold outside at out
  split at out
  · rename_i min max least greatest
    simp only [Bool.or_eq_true, beq_iff_eq] at out
    rcases out with less | more
    · exact (applyCmp?_below (covers.min min least cell member present)).1 less
    · exact (applyCmp?_above (covers.max max greatest cell member present)).1 more
  · cases out

/-- Where every value of an IN list that is not NULL is met by no cell, IN is TRUE nowhere. -/
theorem inList_neverTrue {j : Nat} {list : List Value}
    (apart : ∀ v ∈ list, v.isNull = false → ∀ cell ∈ columnOf rows j, cell.isNull = false →
      applyCmp? .eq cell v ≠ some true) :
    NeverTrue K fields rows (.inList (.column j) list false) := by
  intro c made i true_
  rw [Expr.eval] at made
  obtain ⟨_, _, made⟩ := Except.bind_eq_ok.mp made
  obtain ⟨col, column, made⟩ := Except.bind_eq_ok.mp made
  obtain ⟨out, tested, made⟩ := Except.bind_eq_ok.mp made
  cases made
  obtain ⟨v, inside, d, compared, held⟩ := evalInList_trueAt tested true_
  obtain ⟨value, cell, at_, present, test⟩ := compareScalarColumn_trueAt compared held
  rw [eval_column column] at at_
  exact apart v inside value cell (List.mem_of_getElem? at_) present test

theorem inListIsFalse_sound (hold : StatsHold stats rows) {e : Expr} {list : List Value}
    (ruled : inListIsFalse stats e list = true) : NeverTrue K fields rows (.inList e list false) := by
  unfold inListIsFalse at ruled
  cases column : e.columnOf with
  | none => simp [column] at ruled
  | some j =>
    cases known : stats j with
    | none => simp [column, known] at ruled
    | some range =>
      simp only [column, known, List.all_eq_true] at ruled
      rw [columnOf_eq_some column]
      refine inList_neverTrue fun v inside value cell member present => ?_
      exact outside_sound (hold j range known) (ruled v (by simp [inside, value])) member present

/-- A null test that is TRUE meets a cell that passes it. -/
theorem nullTest_trueAt {e : Expr} {wantNotNull : Bool} {j i : Nat} {c : Column} (column : e.columnOf = some j)
    (made : (do return isNullColumn (← e.eval K fields rows) wantNotNull : Except ExecError Column) = .ok c)
    (true_ : c.TrueAt i) : ∃ cell ∈ columnOf rows j, cell.isNull = !wantNotNull := by
  obtain ⟨col, evaluated, made⟩ := Except.bind_eq_ok.mp made
  cases made
  obtain ⟨cell, at_, null⟩ := isNullColumn_trueAt true_
  rw [columnOf_eq_some column] at evaluated
  rw [eval_column evaluated] at at_
  exact ⟨cell, List.mem_of_getElem? at_, null⟩

theorem nullTestIsFalse_eq_true {e : Expr} {ruledOut : ColumnRange → Bool} (ruled : nullTestIsFalse stats e ruledOut = true) :
    ∃ j range, e.columnOf = some j ∧ stats j = some range ∧ ruledOut range = true := by
  unfold nullTestIsFalse at ruled
  cases column : e.columnOf with
  | none => simp [column] at ruled
  | some j =>
    simp only [column, Option.any_eq_true] at ruled
    obtain ⟨range, known, ruled⟩ := ruled
    exact ⟨j, range, rfl, known, ruled⟩

theorem statsLeaf_sound (hold : StatsHold stats rows) : ∀ e, statsLeaf stats e = true → NeverTrue K fields rows e := by
  intro e ruled
  unfold statsLeaf at ruled
  split at ruled
  · exact cmpIsFalse_sound hold ruled
  · exact betweenIsFalse_sound hold ruled
  · exact inListIsFalse_sound hold ruled
  · obtain ⟨j, range, column, known, none_⟩ := nullTestIsFalse_eq_true ruled
    intro c made i true_
    rw [Expr.eval] at made
    obtain ⟨_, _, made⟩ := Except.bind_eq_ok.mp made
    obtain ⟨cell, member, null⟩ := nullTest_trueAt column made true_
    rw [(hold j range known).nullFree (of_decide_eq_true none_) cell member] at null
    cases null
  · obtain ⟨j, range, column, known, all⟩ := nullTestIsFalse_eq_true ruled
    intro c made i true_
    rw [Expr.eval] at made
    obtain ⟨_, _, made⟩ := Except.bind_eq_ok.mp made
    obtain ⟨cell, member, null⟩ := nullTest_trueAt column made true_
    rw [(hold j range known).allNull (of_decide_eq_true all) cell member] at null
    cases null
  · cases ruled

/-- Statistics that hold of the rows only rule out predicates that are TRUE on none of them. -/
theorem neverTrue_of_mayMatch (hold : StatsHold stats rows) {pred : Expr} (ruled : mayMatch stats pred = false) :
    NeverTrue K fields rows pred := by
  have all : Inherited fun _ : Expr => True := ⟨fun _ _ _ _ => True.intro, fun _ _ _ _ => True.intro⟩
  exact neverTrue_of_refuted all (fun e _ => statsLeaf_sound hold e) pred True.intro (by simpa [mayMatch] using ruled)

end Leaf

end Adelie
