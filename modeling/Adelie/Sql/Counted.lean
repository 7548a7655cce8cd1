import Adelie.Sql.Delete

namespace Adelie

section Literal

/-- What a literal is bound to: a value of the column's type, or of a type the literal names itself. -/
def FromLiteral (v : Value) (ty : DataType) : Prop :=
  v.isNull = false ∧ (v.HasType ty ∨ v.HasType .string ∨ v.HasType .bool ∨ v.HasType .date ∨ v.HasType .timestamp)

variable {P : Platform} {fields : List Field} {v w : Value} {ty : DataType}

theorem literalText_type {text message : String} (read : literalText P text ty message = .ok v) : v.HasType ty := by
  unfold literalText at read
  split at read
  · cases read
  · cases read
  · rename_i found
    cases read
    exact P.fromText_type found

theorem literalValue_eq_ok {lit : Ast.Literal} (read : literalValue P lit ty = .ok v) (value : v.isNull = false) :
    FromLiteral v ty := by
  refine ⟨value, ?_⟩
  unfold literalValue at read
  cases lit with
  | null =>
    cases read
    cases value
  | number text => exact .inl (literalText_type read)
  | string s =>
    cases read
    exact .inr (.inl True.intro)
  | bool b =>
    cases read
    exact .inr (.inr (.inl True.intro))
  | date s => exact .inr (.inr (.inr (.inl (literalText_type read))))
  | timestamp s => exact .inr (.inr (.inr (.inr (literalText_type read))))
  | interval s => cases read

theorem bindDeletePredicate_eq_ok {c : Ast.Expr} {p : Predicate} (bound : bindDeletePredicate P fields c = .ok p) :
    ∃ f, fields.find? (·.name == p.column) = some f ∧ FromLiteral p.value f.ty := by
  unfold bindDeletePredicate at bound
  split at bound
  · cases bound
  · split at bound
    · cases bound
    · rename_i f found
      obtain ⟨value, read, bound⟩ := Except.bind_eq_ok.mp bound
      obtain ⟨_, present, bound⟩ := Except.bind_eq_ok.mp bound
      cases bound
      exact ⟨f, found, literalValue_eq_ok read (by simpa using ensure_eq_ok.mp present)⟩

theorem bindDeletePredicates_eq_ok {selection : Option Ast.Expr} {preds : List Predicate}
    (bound : bindDeletePredicates P fields selection = .ok preds) {p : Predicate} (member : p ∈ preds) :
    ∃ f, fields.find? (·.name == p.column) = some f ∧ FromLiteral p.value f.ty := by
  cases selection with
  | none =>
    cases bound
    cases member
  | some selection =>
    obtain ⟨c, _, one⟩ := List.Forall₂.source (forall₂_of_mapM_except bound) member
    exact bindDeletePredicate_eq_ok one

/-- A literal is stored as it is, unless a date is widened to a timestamp. -/
theorem coerce_literal (literal : FromLiteral v ty) (made : coerce v ty = some w) :
    w = v ∨ ty = .timestamp ∧ ∃ d, v = .date d := by
  obtain ⟨value, typed | typed | typed | typed | typed⟩ := literal
  · rw [coerce_self typed] at made
    exact .inl (Option.some.inj made).symm
  all_goals
    cases v <;> first | exact typed.elim | (cases value; done) | skip
    rcases ty with ty | ty <;> cases ty <;>
      first
        | exact .inl (Option.some.inj made).symm
        | cases made
        | exact .inr ⟨rfl, _, rfl⟩

end Literal

section Filter

variable {K : Kernels} {fields : List Field} {rows : List Row}

theorem bools_boolColumn (tests : List (Option Bool)) : (boolColumn tests).bools = .ok tests := by
  unfold Column.bools boolColumn
  apply mapM_except_of_forall₂
  rw [List.forall₂_map_left_iff, List.forall₂_same]
  intro test _
  cases test <;> rfl

theorem andColumns_boolColumn (f g : Row → Option Bool) :
    andColumns (boolColumn (rows.map f)) (boolColumn (rows.map g)) =
      .ok (boolColumn (rows.map fun row => kleeneAnd (f row) (g row))) := by
  unfold andColumns kleene
  rw [bools_boolColumn, bools_boolColumn]
  simp [boolColumn, ensure, bind, Except.bind, pure, Except.pure, List.zipWith_map, List.zipWith_self]

theorem compareScalarColumn_eq_ok {a c : Column} {op : CmpOp} {v : Value} (value : v.isNull = false)
    (made : compareScalarColumn a op v = .ok c) :
    matchesKind a.ty v = true ∧ c = boolColumn (a.cells.map fun cell => compareScalar cell op v) := by
  unfold compareScalarColumn at made
  rw [if_neg (by simp [value])] at made
  obtain ⟨_, kind, made⟩ := Except.bind_eq_ok.mp made
  obtain ⟨tests, compared, made⟩ := Except.bind_eq_ok.mp made
  cases made
  refine ⟨ensure_eq_ok.mp kind, ?_⟩
  have same : tests = a.cells.map fun cell => compareScalar cell op v := by
    refine eq_map_of_mapM compared fun cell _ test made => ?_
    unfold compareCell at made
    unfold compareScalar
    split at made
    · rename_i null
      cases made
      rw [if_pos (by rwa [Bool.or_comm])]
    · rename_i both
      split at made
      · rename_i defined_
        cases made
        rw [if_neg (by rwa [Bool.or_comm]), applyCmp?_eq_some defined_]
      · cases made
  rw [same]

/-- A predicate's test on a row of the counted columns. -/
def Predicate.onColumns (columns : List String) (row : Row) (p : Predicate) : Option Bool :=
  compareScalar (row[columns.idxOf p.column]?.getD .null) p.op p.value

variable {t : List Field} {columns : List String} {preds : List Predicate} {p : Predicate} {c : Column}

/-- A comparison that is evaluated is between a column and a value of one kind. -/
def OfKind (fields : List Field) (columns : List String) (p : Predicate) : Prop :=
  ∃ f, fields[columns.idxOf p.column]? = some f ∧ matchesKind f.ty p.value = true

theorem countConjunct_eval (value : p.value.isNull = false)
    (made : (countConjunct t columns p).eval K fields rows = .ok c) :
    OfKind fields columns p ∧ c = boolColumn (rows.map fun row => p.onColumns columns row) := by
  unfold countConjunct at made
  rw [Expr.eval] at made
  obtain ⟨_, _, made⟩ := Except.bind_eq_ok.mp made
  obtain ⟨left, column, made⟩ := Except.bind_eq_ok.mp made
  obtain ⟨kind, same⟩ := compareScalarColumn_eq_ok value made
  have cells := eval_column column
  rw [Expr.eval] at column
  obtain ⟨ty, typed, column⟩ := Except.bind_eq_ok.mp column
  cases column
  rw [Expr.dataType] at typed
  split at typed
  · rename_i f found
    cases typed
    refine ⟨⟨f, found, kind⟩, ?_⟩
    rw [same, cells, columnOf, List.map_map]
    rfl
  · cases typed

theorem evalRest_conjuncts {rest : List Predicate} (value : ∀ p ∈ rest, p.value.isNull = false) {f : Row → Option Bool}
    (made : evalRest K fields rows andColumns (boolColumn (rows.map f)) (rest.map (countConjunct t columns)) = .ok c) :
    (∀ p ∈ rest, OfKind fields columns p) ∧
      c = boolColumn (rows.map fun row => (rest.map (·.onColumns columns row)).foldl kleeneAnd (f row)) := by
  induction rest generalizing f with
  | nil =>
    rw [List.map_nil, evalRest] at made
    cases made
    exact ⟨by simp, rfl⟩
  | cons p rest ih =>
    have each := List.forall_mem_cons.mp value
    rw [List.map_cons, evalRest] at made
    obtain ⟨next, here, made⟩ := Except.bind_eq_ok.mp made
    obtain ⟨kind, rfl⟩ := countConjunct_eval each.1 here
    obtain ⟨both, joined, made⟩ := Except.bind_eq_ok.mp made
    rw [andColumns_boolColumn] at joined
    cases joined
    obtain ⟨kinds, same⟩ := ih each.2 made
    exact ⟨List.forall_mem_cons.mpr ⟨kind, kinds⟩, same⟩

/-- Every predicate is true of the row. -/
def passes (columns : List String) (preds : List Predicate) (row : Row) : Bool :=
  preds.all fun p => p.onColumns columns row == some true

theorem foldl_onColumns {first : Predicate} {row : Row} :
    ((preds.map (·.onColumns columns row)).foldl kleeneAnd (first.onColumns columns row) == some true) =
      passes columns (first :: preds) row := by
  rw [Bool.eq_iff_iff, beq_iff_eq, foldl_kleeneAnd_eq_true, passes, List.all_cons, Bool.and_eq_true]
  simp

theorem countPredicate_eval (value : ∀ p ∈ preds, p.value.isNull = false) {pred : Expr}
    (asked : countPredicate t columns preds = some pred) (made : pred.eval K fields rows = .ok c) :
    (∀ p ∈ preds, OfKind fields columns p) ∧ ∃ tests : Row → Option Bool,
      c = boolColumn (rows.map tests) ∧ ∀ row, (tests row == some true) = passes columns preds row := by
  unfold countPredicate at asked
  cases preds with
  | nil => cases asked
  | cons first rest =>
    have each := List.forall_mem_cons.mp value
    cases rest with
    | nil =>
      cases asked
      obtain ⟨kind, same⟩ := countConjunct_eval each.1 made
      exact ⟨by simpa using kind, _, same, fun row => by simp [passes]⟩
    | cons second rest =>
      cases asked
      rw [Expr.eval] at made
      obtain ⟨_, _, made⟩ := Except.bind_eq_ok.mp made
      simp only [evalFold] at made
      obtain ⟨start, here, made⟩ := Except.bind_eq_ok.mp made
      obtain ⟨kind, rfl⟩ := countConjunct_eval each.1 here
      obtain ⟨kinds, same⟩ := @evalRest_conjuncts _ _ _ t columns c (second :: rest) each.2 _ made
      exact ⟨List.forall_mem_cons.mpr ⟨kind, kinds⟩, _, same, fun row => foldl_onColumns⟩

theorem filterRows_eq_ok (value : ∀ p ∈ preds, p.value.isNull = false) {pred : Expr} {out : List Row}
    (asked : countPredicate t columns preds = some pred) (made : filterRows K fields pred rows = .ok out) :
    (∀ p ∈ preds, OfKind fields columns p) ∧ out = rows.filter (passes columns preds) := by
  obtain ⟨c, evaluated, made⟩ := Except.bind_eq_ok.mp made
  obtain ⟨mask, truth, made⟩ := Except.bind_eq_ok.mp made
  obtain ⟨kinds, tests, rfl, exact_⟩ := countPredicate_eval value asked evaluated
  unfold truthy at truth
  rw [bools_boolColumn] at truth
  cases truth
  cases made
  refine ⟨kinds, ?_⟩
  rw [List.map_map, filterBatch_map]
  exact List.filter_congr fun row _ => exact_ row

/-- A batch goes through with the rows that pass, its predicates all of its columns' kinds. -/
theorem passBatch_eq_ok (value : ∀ p ∈ preds, p.value.isNull = false) {out : List Row}
    (made : passBatch K fields (countPredicate t columns preds) rows = .ok out) :
    (∀ p ∈ preds, OfKind fields columns p) ∧ out = rows.filter (passes columns preds) := by
  unfold passBatch at made
  split at made
  · rename_i none_
    cases made
    have empty : preds = [] := by
      unfold countPredicate at none_
      split at none_
      · rename_i bare
        exact List.map_eq_nil_iff.mp bare
      · cases none_
      · cases none_
    subst empty
    exact ⟨by simp, (List.filter_eq_self.mpr fun _ _ => rfl).symm⟩
  · rename_i asked
    obtain ⟨once, first, made⟩ := Except.bind_eq_ok.mp made
    obtain ⟨kinds, rfl⟩ := filterRows_eq_ok value asked first
    refine ⟨kinds, ?_⟩
    split at made
    · rename_i none_
      cases made
      rw [Bool.and_eq_true, List.isEmpty_iff] at none_
      exact none_.1.symm
    · obtain ⟨_, twice⟩ := filterRows_eq_ok value asked made
      rw [twice, List.filter_filter]
      simp

end Filter

section Taken

variable {schema : List SchemaField} {row : Row} {p q : Predicate} {preds stored : List Predicate} {names : List String}

theorem Predicate.test_named (p : Predicate) (row : Row) :
    p.test schema row = compareScalar (namedCell schema row p.column) p.op p.value := by
  unfold Predicate.test namedCell
  cases (schema.zip row).find? (·.1.field.name == p.column) with
  | none => simp [compareScalar, Value.isNull]
  | some cell => rfl

theorem storedPredicate_eq_ok (made : Manifest.storedPredicate schema p = .ok q) :
    ∃ f value, schema.find? (·.field.name == p.column) = some f ∧ coerce p.value f.field.ty = some value ∧
      q = { p with value := value } := by
  unfold Manifest.storedPredicate at made
  split at made
  · cases made
  · split at made
    · cases made
    · rename_i f found
      split at made
      · cases made
      · rename_i value fits
        cases made
        exact ⟨f, value, found, (Option.filter_eq_some_iff.mp fits).1, rfl⟩

theorem fields_find? (name : String) :
    (schema.map (·.field)).find? (·.name == name) = (schema.find? (·.field.name == name)).map (·.field) := by
  rw [List.find?_map]
  rfl

/-- Each predicate beside its stored form: a literal of the column's own type, or a date that becomes a timestamp. -/
def Stores (schema : List SchemaField) (p q : Predicate) : Prop :=
  ∃ f value, schema.find? (·.field.name == p.column) = some f ∧ q = { p with value := value } ∧
    coerce p.value f.field.ty = some value ∧ FromLiteral p.value f.field.ty

theorem stores_of_bound {P : Platform} {selection : Option Ast.Expr}
    (bound : bindDeletePredicates P (schema.map (·.field)) selection = .ok preds)
    (made : List.Forall₂ (fun p q => Manifest.storedPredicate schema p = .ok q) preds stored) :
    List.Forall₂ (Stores schema) preds stored := by
  have literal := fun p member => @bindDeletePredicates_eq_ok P _ selection preds bound p member
  clear bound
  induction made with
  | nil => exact .nil
  | @cons p q preds stored head _ ih =>
    refine .cons ?_ (ih fun p member => literal p (.tail _ member))
    obtain ⟨f, value, found, made, same⟩ := storedPredicate_eq_ok head
    obtain ⟨g, at_, from_⟩ := literal p (.head _)
    rw [fields_find?, found] at at_
    cases at_
    exact ⟨f, value, found, same, made, from_⟩

/-- Stored as bound, or some predicate compares a timestamp column with a date. -/
theorem stores_cases (stores : List.Forall₂ (Stores schema) preds stored) :
    stored = preds ∨ ∃ p ∈ preds, ∃ f, schema.find? (·.field.name == p.column) = some f ∧ f.field.ty = .timestamp ∧
      ∃ d, p.value = .date d := by
  induction stores with
  | nil => exact .inl rfl
  | @cons p q preds stored head _ ih =>
    obtain ⟨f, value, found, rfl, made, literal⟩ := head
    rcases coerce_literal literal made with same | ⟨ty, date⟩
    · rcases ih with same' | ⟨r, member, mixed⟩
      · left
        rw [same, same']
      · exact .inr ⟨r, .tail _ member, mixed⟩
    · exact .inr ⟨p, .head _, f, found, ty, date⟩

theorem passes_named (known : ∀ p ∈ preds, p.column ∈ names) :
    passes names preds (names.map (namedCell schema row)) = true ↔ ∀ p ∈ preds, p.test schema row = some true := by
  unfold passes
  rw [List.all_eq_true]
  refine forall₂_congr fun p member => ?_
  have at_ : (names.map (namedCell schema row))[names.idxOf p.column]? = some (namedCell schema row p.column) := by
    rw [List.getElem?_map, List.getElem?_idxOf (known p member)]
    rfl
  rw [beq_iff_eq, Predicate.onColumns, at_, Predicate.test_named]
  rfl

end Taken

section Ruled

variable {schema : List SchemaField} {stats : Nat → Option ColumnRange} {rows : List Row} {cell v w : Value} {op : CmpOp}

theorem applyCmp?_of_applyCmp {a b : Value} (test : applyCmp op a b = true) : applyCmp? op a b = some true := by
  cases op <;> simp only [applyCmp, applyCmp?, Bool.or_eq_true, decide_eq_true_eq] at test ⊢
  case eq => exact test
  case ne => simp [test]
  case lt => simp [test]
  case gt => simp [test]
  case le => rcases test with test | test <;> simp [test]
  case ge => rcases test with test | test <;> simp [test]

/-- A range that rules a comparison out has an end that compares with the value. -/
theorem rangeIsFalse_compares {range : ColumnRange} (ruled : rangeIsFalse range op v = true) :
    ∃ m, (range.min = some m ∨ range.max = some m) ∧ ((totalCmp v m).isSome ∨ (totalCmp m v).isSome) := by
  unfold rangeIsFalse at ruled
  cases op <;> simp only [Bool.or_eq_true, Bool.and_eq_true, beq_iff_eq, Option.bind_eq_some_iff] at ruled
  case eq =>
    rcases ruled with ⟨m, made, test⟩ | ⟨m, made, test⟩
    · exact ⟨m, .inl made, .inl (by simp [test])⟩
    · exact ⟨m, .inr made, .inl (by simp [test])⟩
  case ne =>
    obtain ⟨⟨m, made, test⟩, _⟩ := ruled
    exact ⟨m, .inl made, .inr (by simp [test])⟩
  case lt =>
    rcases ruled with ⟨m, made, test⟩ | ⟨m, made, test⟩ <;> exact ⟨m, .inl made, .inr (by simp [test])⟩
  case le =>
    obtain ⟨m, made, test⟩ := ruled
    exact ⟨m, .inl made, .inr (by simp [test])⟩
  case gt =>
    rcases ruled with ⟨m, made, test⟩ | ⟨m, made, test⟩ <;> exact ⟨m, .inr made, .inr (by simp [test])⟩
  case ge =>
    obtain ⟨m, made, test⟩ := ruled
    exact ⟨m, .inr made, .inr (by simp [test])⟩

/-- No range of timestamps rules out a comparison with a date. -/
theorem rangeIsFalse_date {range : ColumnRange} {cells : List Value} (covers : CoversCells range cells) {ns : I64} {d : I32}
    (member : .timestamp ns ∈ cells) : rangeIsFalse range op (.date d) = false := by
  by_contra ruled
  obtain ⟨m, end_, compares⟩ := rangeIsFalse_compares (by simpa using ruled)
  have stamp : ∃ k, m = .timestamp k := by
    rcases end_ with least | greatest
    · obtain ⟨o, made, _⟩ := covers.min m least _ member rfl
      cases m <;> simp [scalarCmp] at made
      exact ⟨_, rfl⟩
    · obtain ⟨o, made, _⟩ := covers.max m greatest _ member rfl
      cases m <;> simp [scalarCmp] at made
      exact ⟨_, rfl⟩
  obtain ⟨k, rfl⟩ := stamp
  rcases compares with wrong | wrong <;> simp [totalCmp, scalarCmp] at wrong

/-- A comparison ruled out by true statistics is true of no cell, with the value as it is stored. -/
theorem cmpIsFalse_cell (hold : StatsHold stats rows) {j : Nat} {ty cty : DataType} (literal : FromLiteral v cty)
    (made : coerce v cty = some w) (ruled : cmpIsFalse stats op (.column j) (.literal v ty) = true)
    (member : cell ∈ columnOf rows j) (typed : cell.HasType cty) : compareScalar cell op w ≠ some true := by
  unfold cmpIsFalse at ruled
  simp only [normalCmp, literal.1, Bool.false_eq_true, if_false] at ruled
  intro test
  have present : cell.isNull = false := by
    cases null : cell.isNull with
    | false => rfl
    | true => simp [compareScalar, null] at test
  cases known : stats j with
  | none => simp [known] at ruled
  | some range =>
    have covers := hold j range known
    simp only [known] at ruled
    split at ruled
    · rename_i all
      rw [covers.allNull all cell member] at present
      cases present
    · split at ruled
      · cases ruled
      · rename_i guard
        rcases coerce_literal literal made with rfl | ⟨rfl, d, rfl⟩
        · have held : applyCmp op cell w = true := by
            simpa [compareScalar, literal.1, present] using test
          refine rangeIsFalse_sound covers ?_ ruled member present (applyCmp?_of_applyCmp held)
          rintro rfl
          simpa using guard
        · have stamp : ∃ ns, cell = .timestamp ns := by
            cases cell <;> first | exact ⟨_, rfl⟩ | exact typed.elim | cases present
          obtain ⟨ns, rfl⟩ := stamp
          rw [rangeIsFalse_date covers member] at ruled
          cases ruled

/-- What rules out the counted predicate rules out one of its comparisons. -/
theorem countPredicate_ruled {t : List Field} {names : List String} {preds : List Predicate} {pred : Expr}
    (asked : countPredicate t names preds = some pred) (ruled : mayMatch stats pred = false) :
    ∃ p ∈ preds, ∃ ty, cmpIsFalse stats p.op (.column (names.idxOf p.column)) (.literal p.value ty) = true := by
  have some_ : ∀ preds : List Predicate, someRefuted (statsLeaf stats) (preds.map (countConjunct t names)) = true →
      ∃ p ∈ preds, ∃ ty, cmpIsFalse stats p.op (.column (names.idxOf p.column)) (.literal p.value ty) = true := by
    intro preds
    induction preds with
    | nil =>
      intro wrong
      cases wrong
    | cons p rest ih =>
      intro ruled
      rw [List.map_cons, someRefuted, Bool.or_eq_true] at ruled
      rcases ruled with here | later
      · have leaf : statsLeaf stats (countConjunct t names p) = true := by simpa [countConjunct, refuted] using here
        exact ⟨p, .head _, ((t.find? (·.name == p.column)).map (·.ty)).getD .string, leaf⟩
      · obtain ⟨q, member, found⟩ := ih later
        exact ⟨q, .tail _ member, found⟩
  have refutes : refuted (statsLeaf stats) pred = true := by simpa [mayMatch] using ruled
  apply some_
  unfold countPredicate at asked
  split at asked
  · cases asked
  · rename_i e single
    cases asked
    rw [single]
    simpa [someRefuted] using refutes
  · cases asked
    exact refutes

end Ruled

section Read

/-- A segment as a writer left it: its file has the columns of the entry, and the entry's statistics are of that file. -/
structure StoredAs (files : Files) (schema : List SchemaField) (s : SegmentEntry) (file : SegmentFile) : Prop where
  found : files s.path = some file
  readable : Readable file s.fileIds schema
  typed : file.Typed
  produced : Produced file schema s

variable {files : Files} {t : TableEntry} {s : SegmentEntry} {file : SegmentFile} {names : List String} {columns : List Nat}
  {preds stored : List Predicate} {raw : Row}

theorem namedCell_rowAs {schema : List SchemaField} {name : String} {f : SchemaField} (fileIds : List Nat)
    (found : schema.find? (·.field.name == name) = some f) (raw : Row) :
    namedCell schema (rowAs fileIds schema raw) name = cellOf fileIds raw f.id := by
  have paired : schema.zip (rowAs fileIds schema raw) = schema.map fun f => (f, cellOf fileIds raw f.id) := by
    have both := @List.zip_map' _ _ _ id (fun f : SchemaField => cellOf fileIds raw f.id) schema
    rwa [List.map_id] at both
  rw [namedCell, paired, List.find?_map]
  change ((((schema.find? (·.field.name == name)).map _).map Prod.snd).getD Value.null) = _
  rw [found]
  rfl

/-- No row of what statistics rule out is taken by the stored predicates. -/
theorem not_takes_of_ruled {stats : Nat → Option ColumnRange} {rows : List Row} {pred : Expr} {seq : Nat}
    (readable : Readable file s.fileIds t.schema) (typed : file.Typed) (part : ∀ r ∈ rows, r ∈ file.rows)
    (at_ : List.Forall₂ (fun name i => t.schema.findIdx? (·.field.name == name) = some i) names columns)
    (stores : List.Forall₂ (Stores t.schema) preds stored) (known : ∀ p ∈ preds, p.column ∈ names)
    (asked : countPredicate t.fields names preds = some pred)
    (hold : StatsHold stats (rows.map (scanRow s.fileIds t.schema columns))) (ruled : mayMatch stats pred = false)
    (member : raw ∈ rows) : ¬ (Tombstone.mk seq stored).Takes t.schema (rowAs s.fileIds t.schema raw) := by
  obtain ⟨p, inside, ty, refuted_⟩ := countPredicate_ruled asked ruled
  obtain ⟨q, own, f, value, found, rfl, made, literal⟩ := List.Forall₂.source stores.flip inside
  intro takes
  refine cmpIsFalse_cell hold literal made refuted_ ?_ ?_ ((Predicate.test_named _ _).symm.trans (takes _ own))
  · rw [columnOf, List.map_map, List.mem_map]
    refine ⟨raw, member, ?_⟩
    have wide : (rowAs s.fileIds t.schema raw).length = t.schema.length := length_rowAs _ _
    simp only [Function.comp_apply, scanRow, pick_eq_named at_ wide, List.getElem?_map,
      List.getElem?_idxOf (known p inside), Option.map_some, Option.getD_some]
  · rw [namedCell_rowAs s.fileIds found]
    refine cellOf_typed readable ?_ (List.mem_of_find?_eq_some found)
    exact typed raw (part raw member)

theorem readMorsel_eq_ok {prune : Pruner} {opened : TableScan} {groups : List (List Row)}
    (read : readMorsel files t prune opened s = .ok groups) : readSegment files t prune opened s = .ok groups.flatten := by
  unfold readMorsel at read
  obtain ⟨file, opens, read⟩ := Except.bind_eq_ok.mp read
  obtain ⟨index, mapped, read⟩ := Except.bind_eq_ok.mp read
  obtain ⟨needed, gathered, read⟩ := Except.bind_eq_ok.mp read
  obtain ⟨all, each, read⟩ := Except.bind_eq_ok.mp read
  cases read
  unfold readSegment
  refine Except.bind_eq_ok.mpr ⟨file, opens, Except.bind_eq_ok.mpr ⟨index, mapped, Except.bind_eq_ok.mpr ⟨needed, gathered,
    Except.bind_eq_ok.mpr ⟨all, each, ?_⟩⟩⟩⟩
  rw [List.flatten_filter_not_isEmpty]
  rfl

/-- The rows of a segment that a scan under the predicate reads, deleted ones taken out. -/
def readKept (files : Files) (t : TableEntry) (prune : Pruner) (s : SegmentEntry) : List Row :=
  ((readRows files prune s).map (rowAs s.fileIds t.schema)).filter fun row => !deleted t.schema (t.tombstonesFor s) row

theorem countP_kept {α : Type} {groups : List (List α × Nat)} {keep : Nat → Bool} {test : α → Bool}
    (ruled : ∀ g ∈ groups, keep g.2 = false → ∀ r ∈ g.1, test r = false) :
    ((groups.filter fun g => keep g.2).flatMap Prod.fst).countP test = (groups.flatMap Prod.fst).countP test := by
  induction groups with
  | nil => rfl
  | cons g rest ih =>
    obtain ⟨here, later⟩ := List.forall_mem_cons.mp ruled
    rw [List.filter_cons, List.flatMap_cons, List.countP_append, ← ih later]
    by_cases kept : keep g.2 = true
    · rw [if_pos kept, List.flatMap_cons, List.countP_append]
    · rw [if_neg kept]
      have none_ : g.1.countP test = 0 := by
        rw [List.countP_eq_zero]
        intro r member
        simp [here (by simpa using kept) r member]
      omega

/-- Pruned row groups hold no row the tombstone takes. -/
theorem countP_readKept {seq : Nat} (segment : StoredAs files t.schema s file)
    (at_ : List.Forall₂ (fun name i => t.schema.findIdx? (·.field.name == name) = some i) names columns)
    (stores : List.Forall₂ (Stores t.schema) preds stored) (known : ∀ p ∈ preds, p.column ∈ names) :
    (readKept files t (predicatePruner t columns (countPredicate t.fields names preds)) s).countP
        (fun row => decide ((Tombstone.mk seq stored).Takes t.schema row)) =
      (visible files t.schema t.tombstones s).countP fun row => decide ((Tombstone.mk seq stored).Takes t.schema row) := by
  have mapped := @mapFileColumns_of_types t.schema s.id s.fileIds file.fields segment.readable.types
  unfold readKept visible readRows rowsOf
  rw [segment.found]
  dsimp only
  change _ = (List.filter (fun row => !deleted t.schema (t.tombstonesFor s) row) _).countP _
  have all : file.rows = file.groups.zipIdx.flatMap Prod.fst := by
    rw [List.flatMap_def, List.zipIdx_map_fst]
    rfl
  rw [List.countP_filter, List.countP_filter, List.countP_map, List.countP_map, all]
  apply countP_kept
  intro g member dropped raw inside
  rw [Function.comp_apply, Bool.and_eq_false_iff, decide_eq_false_iff_not]
  left
  obtain ⟨_, within, here⟩ := List.mem_zipIdx member
  have group : file.groups[g.2]? = some g.1 := by
    have below : g.2 < file.groups.length := by simpa using within
    rw [List.getElem?_eq_getElem below]
    simpa using here.symm
  have listed : g.1 ∈ file.groups := List.mem_of_getElem? group
  simp only [Pruner.keeps, predicatePruner, mapped, bind, Except.bind, pure, Except.pure, group, Option.getD_some] at dropped
  cases asked : countPredicate t.fields names preds with
  | none => simp [asked] at dropped
  | some pred =>
    simp only [asked, Option.all_some] at dropped
    refine not_takes_of_ruled segment.readable segment.typed ?_ at_ stores known asked ?_ dropped inside
    · exact fun r own => List.mem_flatten.mpr ⟨g.1, listed, own⟩
    · refine statsHold_zone segment.typed mapped listed ?_
      intro row own
      obtain ⟨r, from_, rfl⟩ := List.mem_map.mp own
      exact ⟨r, from_, rfl⟩

/-- Pruned segments hold no row the tombstone takes. -/
theorem countP_pruned {seq : Nat} (segment : StoredAs files t.schema s file)
    (at_ : List.Forall₂ (fun name i => t.schema.findIdx? (·.field.name == name) = some i) names columns)
    (stores : List.Forall₂ (Stores t.schema) preds stored) (known : ∀ p ∈ preds, p.column ∈ names)
    (dropped : (predicatePruner t columns (countPredicate t.fields names preds)).segment s = false) :
    (visible files t.schema t.tombstones s).countP
      (fun row => decide ((Tombstone.mk seq stored).Takes t.schema row)) = 0 := by
  rw [List.countP_eq_zero]
  intro row member
  rw [decide_eq_true_eq]
  have inside := List.mem_of_mem_filter member
  rw [rowsOf_of_file segment.found] at inside
  obtain ⟨raw, own, rfl⟩ := List.mem_map.mp inside
  simp only [predicatePruner] at dropped
  cases asked : countPredicate t.fields names preds with
  | none => simp [asked] at dropped
  | some pred =>
    simp only [asked, Option.all_some] at dropped
    refine not_takes_of_ruled segment.readable segment.typed (fun r own => own) at_ stores known asked ?_ dropped own
    refine statsHold_segment segment.produced segment.typed ?_
    intro row listed
    obtain ⟨r, from_, rfl⟩ := List.mem_map.mp listed
    exact ⟨r, from_, rfl⟩

end Read

section Total

variable {K : Kernels} {files : Files} {t : TableEntry} {preds stored : List Predicate} {names : List String}

theorem mem_countColumns {fields : List Field} {p : Predicate} (member : p ∈ preds) :
    p.column ∈ countColumns fields preds := by
  unfold countColumns
  rw [if_neg (by simpa using List.ne_nil_of_mem member), List.mem_insertionSort, List.mem_dedup]
  exact List.mem_map_of_mem member

/-- The field a scanned column has in the output. -/
theorem scannedField {schema : List SchemaField} {columns : List Nat}
    (at_ : List.Forall₂ (fun name i => schema.findIdx? (·.field.name == name) = some i) names columns) {name : String}
    (member : name ∈ names) :
    (columns.filterMap fun i => schema[i]?.map (·.field))[names.idxOf name]? =
      (schema.find? (·.field.name == name)).map (·.field) := by
  induction at_ with
  | nil => cases member
  | @cons head i rest columns first _ ih =>
    obtain ⟨within, named, before⟩ := List.findIdx?_eq_some_iff_getElem.mp first
    rw [List.filterMap_cons_some (by rw [List.getElem?_eq_getElem within]; rfl), List.idxOf_cons]
    by_cases same : head = name
    · subst same
      have found : schema.find? (·.field.name == head) = some schema[i] := by
        rw [List.find?_eq_some_iff_getElem]
        exact ⟨named, i, within, rfl, fun j earlier => by simpa using before j earlier⟩
      simp [found]
    · rw [beq_false_of_ne same, cond_false, List.getElem?_cons_succ]
      refine ih ?_
      rcases List.mem_cons.mp member with rfl | later
      · exact absurd rfl same
      · exact later

theorem findIdx_eq_columns {schema : List SchemaField} {columns : List Nat}
    (at_ : List.Forall₂ (fun name i => schema.findIdx? (·.field.name == name) = some i) names columns) :
    (names.map fun name => schema.findIdx (·.field.name == name)) = columns := by
  induction at_ with
  | nil => rfl
  | cons head _ ih => rw [List.map_cons, ih, (List.findIdx?_eq_some_iff_findIdx_eq.mp head).2]

theorem not_matchesKind_date (d : I32) : matchesKind .timestamp (.date d) = false := rfl

/-- What passes the two filters of a scanned batch is what the tombstone takes, or nothing was scanned. -/
theorem countP_passed (seq : Nat) {fields : List Field} {columns : List Nat}
    (stores : List.Forall₂ (Stores t.schema) preds stored) (known : ∀ p ∈ preds, p.column ∈ names)
    (at_ : List.Forall₂ (fun name i => t.schema.findIdx? (·.field.name == name) = some i) names columns)
    {batches passed : List (List Row)} {rows : List Row} (wide : ∀ row ∈ rows, row.length = t.schema.length)
    (flat : batches.flatten = rows.map (pick columns))
    (made : batches.mapM (passBatch K (columns.filterMap fun i => t.schema[i]?.map (·.field))
      (countPredicate fields names preds)) = .ok passed) :
    (passed.map List.length).sum = rows.countP fun row => decide ((Tombstone.mk seq stored).Takes t.schema row) := by
  have value : ∀ p ∈ preds, p.value.isNull = false := by
    intro p member
    obtain ⟨_, _, _, _, _, _, _, literal⟩ := List.Forall₂.source stores.flip member
    exact literal.1
  have same : passed = batches.map (List.filter (passes names preds)) :=
    eq_map_of_mapM made fun batch _ out through => (passBatch_eq_ok value through).2
  have total : (passed.map List.length).sum = (rows.map (pick columns)).countP (passes names preds) := by
    rw [← flat, List.countP_flatten, same, List.map_map]
    congr 1
    exact List.map_congr_left fun batch _ => List.countP_eq_length_filter.symm
  rw [total]
  rcases stores_cases stores with rfl | ⟨p, member, f, found, ty, d, date⟩
  · rw [List.countP_map]
    refine List.countP_congr fun row member => ?_
    rw [Function.comp_apply, pick_eq_named at_ (wide row member), passes_named known, decide_eq_true_eq]
    rfl
  · -- the comparison has no common kind, so no batch has been tested
    have none_ : batches = [] := by
      rw [List.eq_nil_iff_forall_not_mem]
      intro batch inside
      obtain ⟨out, _, through⟩ := List.Forall₂.source (forall₂_of_mapM_except made).flip inside
      obtain ⟨g, column, kind⟩ := (passBatch_eq_ok value through).1 p member
      rw [scannedField at_ (known p member), found] at column
      cases column
      rw [ty, date, not_matchesKind_date] at kind
      cases kind
    rw [none_, List.flatten_nil, eq_comm, List.map_eq_nil_iff] at flat
    rw [flat]
    rfl

/-- The count is the number of rows, stored or buffered, that a tombstone with the predicates takes. -/
theorem countMatching_eq_ok (seq : Nat) {buffered : List (List Row)} {n : Nat}
    (segments : ∀ s ∈ t.segments, ∃ file, StoredAs files t.schema s file)
    (wide : ∀ batch ∈ buffered, ∀ row ∈ batch, row.length = t.schema.length)
    (stores : List.Forall₂ (Stores t.schema) preds stored) (made : countMatching K files t buffered preds = .ok n) :
    n = (t.segments.flatMap (visible files t.schema t.tombstones) ++ buffered.flatten).countP
      fun row => decide ((Tombstone.mk seq stored).Takes t.schema row) := by
  unfold countMatching at made
  dsimp only at made
  have known : ∀ p ∈ preds, p.column ∈ countColumns t.fields preds := fun p member => mem_countColumns member
  generalize countColumns t.fields preds = names at known made
  obtain ⟨opened, opens, made⟩ := Except.bind_eq_ok.mp made
  obtain ⟨_, _, made⟩ := Except.bind_eq_ok.mp made
  obtain ⟨morsels, read, made⟩ := Except.bind_eq_ok.mp made
  obtain ⟨projected, put, made⟩ := Except.bind_eq_ok.mp made
  obtain ⟨passed, through, made⟩ := Except.bind_eq_ok.mp made
  cases made
  obtain ⟨some_, _, at_, fields, kept⟩ := openScan_eq_ok (mapError_eq_ok opens)
  have positions := findIdx_eq_columns at_
  rw [positions] at kept read
  have nonempty : opened.columns ≠ [] := by
    intro none_
    rw [none_] at at_
    cases at_
    exact some_ rfl
  have within : ∀ i ∈ opened.columns, i < t.schema.length := by
    intro i member
    obtain ⟨name, _, found⟩ := List.Forall₂.source at_ member
    exact (List.findIdx?_eq_some_iff_getElem.mp found).1
  let prune := predicatePruner t opened.columns (countPredicate t.fields names preds)
  let rows := opened.segments.flatMap (readKept files t prune) ++ buffered.flatten
  have widths : ∀ row ∈ rows, row.length = t.schema.length := by
    intro row member
    rcases List.mem_append.mp member with stored_ | late
    · obtain ⟨s, _, inside⟩ := List.mem_flatMap.mp stored_
      obtain ⟨raw, _, rfl⟩ := List.mem_map.mp (List.mem_of_mem_filter inside)
      exact length_rowAs _ _
    · obtain ⟨batch, inside, own⟩ := List.mem_flatten.mp late
      exact wide batch inside row own
  have flat : (morsels.flatten ++ projected).flatten = rows.map (pick opened.columns) := by
    have each : morsels.map List.flatten = opened.segments.map fun s => (readKept files t prune s).map (pick opened.columns) :=
      map_of_mapM (mapError_eq_ok read) fun s _ groups got =>
        readSegment_eq_ok nonempty within (readMorsel_eq_ok got)
    have late : projected = buffered.map (List.map (pick opened.columns)) := by
      refine eq_map_of_mapM (mapError_eq_ok put) fun batch _ out done => ?_
      obtain ⟨_, _, done⟩ := Except.bind_eq_ok.mp done
      cases done
      rfl
    rw [List.flatten_append, late, List.flatten_flatten, each, List.map_append, List.map_flatMap, List.flatMap_def,
      List.map_flatten]
  have through := mapError_eq_ok through
  rw [fields] at through
  rw [countP_passed seq stores known at_ widths flat through]
  rw [List.countP_append, List.countP_append, List.countP_flatMap, List.countP_flatMap]
  congr 1
  -- segments that are pruned add nothing
  rw [kept]
  have all : ∀ l : List SegmentEntry, (∀ s ∈ l, ∃ file, StoredAs files t.schema s file) →
      ((l.filter prune.segment).map fun s => (readKept files t prune s).countP
        fun row => decide ((Tombstone.mk seq stored).Takes t.schema row)).sum =
      (l.map fun s => (visible files t.schema t.tombstones s).countP
        fun row => decide ((Tombstone.mk seq stored).Takes t.schema row)).sum := by
    intro l
    induction l with
    | nil => simp
    | cons s rest ih =>
      intro each
      obtain ⟨⟨file, segment⟩, others⟩ := List.forall_mem_cons.mp each
      rw [List.filter_cons, List.map_cons, List.sum_cons, ← ih others]
      by_cases held : prune.segment s = true
      · rw [if_pos held, List.map_cons, List.sum_cons, countP_readKept segment at_ stores known]
      · rw [if_neg held, countP_pruned segment at_ stores known (by simpa using held)]
        omega
  exact all t.segments segments

end Total

end Adelie
