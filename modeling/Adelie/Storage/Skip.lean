import Adelie.Segment.Index
import Adelie.Storage.Zone

namespace Adelie

section Probe

variable (probe : Nat → Value → Option Bool)

/-- What skip indexes say of a conjunct that is neither an `And` nor an `Or`. -/
def indexLeaf : Expr → Bool
  | .cmp .eq l r =>
    match normalCmp .eq l r with
    | some (c, v, _) => probe c v == some false
    | none => false
  | .inList e list false =>
    match e.columnOf with
    | some c => (list.filter fun v => !v.isNull).all fun v => probe c v == some false
    | none => false
  | _ => false

/-- `probe c v` answers whether column `c` might contain `v`, where there is an index. -/
def indexMayMatch (pred : Expr) : Bool := !refuted (indexLeaf probe) pred

end Probe

/-- The index of each scanned column, in one row group. -/
def indexProbe (indexes : Nat → Option SkipIndex) (c : Nat) (v : Value) : Option Bool :=
  (indexes c).map (·.mightContain v)

mutual

/-- The columns and values an index is asked for. -/
def Expr.probed : Expr → List (Nat × Value)
  | .and parts | .or parts => probedIn parts
  | .cmp .eq (.column c) (.literal v _) | .cmp .eq (.literal v _) (.column c) => [(c, v)]
  | .inList (.column c) list false => list.map fun v => (c, v)
  | _ => []

def probedIn : List Expr → List (Nat × Value)
  | [] => []
  | p :: rest => p.probed ++ probedIn rest

end

/-- An index that calls nothing absent that is there. -/
def Truthful (index : SkipIndex) (cells : List Value) (v : Value) (part : String) : Prop :=
  (index.mightContain v = false → ∀ x ∈ cells, sqlEq x v ≠ some true) ∧
  (index.mightContainSubstring part = false → ∀ s, .string s ∈ cells → ¬ utf8 part <:+: utf8 s)

/-- Every cell SQL-equal to a probe is written with the probe's own bytes. -/
def SameBytes (t : ScalarType) (cells : List Value) (v : Value) : Prop :=
  ∀ x ∈ cells, sqlEq x v = some true → valueBytes x t = valueBytes v t

/-- Each bit of a probe in the filter of these cells is a bit of one of them. -/
def Shadowed (t : ScalarType) (cells : List Value) (v : Value) : Prop :=
  let keys := (presentCells cells).map (valueBytes · t)
  ∀ p ∈ Bloom.probe (valueBytes v t) 7 (Bloom.bitsFor keys), ∃ key ∈ keys, p ∈ Bloom.probe key 7 (Bloom.bitsFor keys)

section Built

variable {t : ScalarType} {cells : List Value} {v x : Value} {part : String}

theorem bloom_testBytes : (Bloom.build t cells).testBytes (valueBytes v t) = true ↔ Shadowed t cells v := by
  rw [Bloom.build, testBytes_ofKeys]
  rfl

theorem shadowed_of_mem (typed : ∀ y ∈ cells, y.HasScalarType t) (member : x ∈ cells) (same : sqlEq x v = some true)
    (bytes : valueBytes x t = valueBytes v t) : Shadowed t cells v := by
  obtain ⟨present, _⟩ := present_of_sqlEq typed member same
  have held : valueBytes v t ∈ (presentCells cells).map (valueBytes · t) :=
    List.mem_map.mpr ⟨x, mem_presentCells.mpr ⟨member, present.1⟩, bytes⟩
  exact fun p at_ => ⟨_, held, at_⟩

/-- What is SQL-equal to a cell of a type is a value of the type's kind. -/
theorem matchesScalarKind_of_sqlEq (present : Present t x) (equal : scalarCmp x v = some .eq) :
    matchesScalarKind t v = true ∧ v.isNull = false := by
  obtain ⟨value, typed⟩ := present
  cases t <;> cases x <;> simp_all [Value.HasScalarType, Value.isNull] <;>
    cases v <;> simp_all [scalarCmp, matchesScalarKind]

theorem bloom_truthful_iff (typed : ∀ y ∈ cells, y.HasScalarType t) :
    ((Bloom.build t cells).mightContain t v = false → ∀ x ∈ cells, sqlEq x v ≠ some true) ↔
      SameBytes t cells v ∨ Shadowed t cells v := by
  constructor
  · intro truthful
    by_cases same : SameBytes t cells v
    · exact .inl same
    · right
      unfold SameBytes at same
      push Not at same
      obtain ⟨x, member, equal, _⟩ := same
      have answered : (Bloom.build t cells).mightContain t v = true := by
        cases answer : (Bloom.build t cells).mightContain t v with
        | true => rfl
        | false => exact absurd equal (truthful answer x member)
      obtain ⟨present, placed⟩ := present_of_sqlEq typed member equal
      obtain ⟨kind, value⟩ := matchesScalarKind_of_sqlEq present placed
      unfold Bloom.mightContain at answered
      rw [kind, value] at answered
      exact bloom_testBytes.mp answered
  · intro either absent x member equal
    have shadowed : Shadowed t cells v :=
      either.elim (fun same => shadowed_of_mem typed member equal (same x member equal)) id
    unfold Bloom.mightContain at absent
    split at absent
    · cases absent
    · rw [bloom_testBytes.mpr shadowed] at absent
      cases absent

theorem buildIndex_cases {kind : IndexKind} {index : SkipIndex} (built : buildIndex kind ⟨.scalar t, cells⟩ = some index) :
    index = .bloom t (Bloom.build t cells) ∨ (∃ values, ValueSet.build cells = some values ∧ index = .valueSet t values) ∨
    index = .ngram (Ngram.build cells) := by
  cases kind with
  | bloom =>
    cases built
    exact .inl rfl
  | valueSet =>
    obtain ⟨values, made, rfl⟩ := Option.map_eq_some_iff.mp built
    exact .inr (.inl ⟨values, made, rfl⟩)
  | ngram =>
    cases t <;> cases built
    exact .inr (.inr rfl)

/-- Whatever is built over a column is truthful as soon as the filter is. -/
theorem truthful_of_bloom (typed : ∀ y ∈ cells, y.HasScalarType t) (clear : SameBytes t cells v ∨ Shadowed t cells v)
    {kind : IndexKind} {index : SkipIndex} (built : buildIndex kind ⟨.scalar t, cells⟩ = some index) :
    Truthful index cells v part := by
  rcases buildIndex_cases built with rfl | ⟨values, made, rfl⟩ | rfl
  · refine ⟨(bloom_truthful_iff typed).mpr clear, fun absent => ?_⟩
    cases absent
  · refine ⟨fun absent x member equal => ?_, fun absent => ?_⟩
    · have there := valueSet_mightContain typed made member equal
      change ValueSet.mightContain values t v = false at absent
      rw [there] at absent
      cases absent
    · cases absent
  · refine ⟨fun absent => ?_, fun absent s member inside => ?_⟩
    · cases absent
    · have there := ngram_mightContain member inside
      change Ngram.mightContainSubstring (Ngram.build cells) part = false at absent
      rw [there] at absent
      cases absent

end Built

section Rows

variable {K : Kernels} {fields : List Field} {rows : List Row} {indexes : Nat → Option SkipIndex}

/-- Each index was built over a column that holds the rows' cells, and answers truthfully for what it
    is asked. -/
def IndexesHold (indexes : Nat → Option SkipIndex) (rows : List Row) (asked : List (Nat × Value)) : Prop :=
  ∀ c index, indexes c = some index → ∃ t cells kind, (∀ y ∈ cells, y.HasScalarType t) ∧
    buildIndex kind ⟨.scalar t, cells⟩ = some index ∧ (∀ x ∈ columnOf rows c, x ∈ cells) ∧
    ∀ v, (c, v) ∈ asked → SameBytes t cells v ∨ Shadowed t cells v

theorem IndexesHold.mono {asked fewer : List (Nat × Value)} (hold : IndexesHold indexes rows asked)
    (part : ∀ q ∈ fewer, q ∈ asked) : IndexesHold indexes rows fewer := by
  intro c index found
  obtain ⟨t, cells, kind, typed, built, inside, clear⟩ := hold c index found
  exact ⟨t, cells, kind, typed, built, inside, fun v member => clear v (part _ member)⟩

theorem mem_probedIn {parts : List Expr} {p : Expr} (member : p ∈ parts) {q : Nat × Value} (asked : q ∈ p.probed) :
    q ∈ probedIn parts := by
  induction parts with
  | nil => cases member
  | cons first rest ih =>
    rw [probedIn, List.mem_append]
    rcases List.mem_cons.mp member with rfl | later
    · exact .inl asked
    · exact .inr (ih later)

theorem inherited_indexesHold : Inherited fun e => IndexesHold indexes rows e.probed := by
  refine ⟨?_, ?_⟩
  · intro parts hold p member
    rw [Expr.probed] at hold
    exact hold.mono fun q asked => mem_probedIn member asked
  · intro parts hold p member
    rw [Expr.probed] at hold
    exact hold.mono fun q asked => mem_probedIn member asked

/-- No cell is equal to a value an index has ruled out. -/
theorem applyCmp?_of_absent {asked : List (Nat × Value)} (hold : IndexesHold indexes rows asked) {c : Nat} {v : Value}
    (member : (c, v) ∈ asked) (absent : indexProbe indexes c v = some false) :
    ∀ cell ∈ columnOf rows c, applyCmp? .eq cell v ≠ some true := by
  obtain ⟨index, found, answer⟩ := Option.map_eq_some_iff.mp absent
  obtain ⟨t, cells, kind, typed, built, inside, clear⟩ := hold c index found
  have truthful : Truthful index cells v "" := truthful_of_bloom typed (clear v member) built
  intro cell there equal
  exact truthful.1 answer cell (inside cell there) equal

theorem indexLeaf_sound : ∀ e, IndexesHold indexes rows e.probed → indexLeaf (indexProbe indexes) e = true →
    NeverTrue K fields rows e := by
  intro e hold ruled
  unfold indexLeaf at ruled
  split at ruled
  · rename_i l r
    intro c made i true_
    cases normal : normalCmp .eq l r with
    | none => simp [normal] at ruled
    | some triple =>
      obtain ⟨j, v, op⟩ := triple
      simp only [normal, beq_iff_eq] at ruled
      have exact_ : op = .eq ∧ (j, v) ∈ (Expr.cmp .eq l r).probed := by
        unfold normalCmp at normal
        split at normal
        · cases normal
          exact ⟨rfl, by simp [Expr.probed]⟩
        · cases normal
          exact ⟨rfl, by simp [Expr.probed]⟩
        · cases normal
      obtain ⟨rfl, asked⟩ := exact_
      obtain ⟨_, cell, member, _, test⟩ := evalCmp_trueAt normal made true_
      exact applyCmp?_of_absent hold asked ruled cell member test
  · rename_i e list
    cases column : e.columnOf with
    | none => simp [column] at ruled
    | some j =>
      simp only [column, List.all_eq_true, beq_iff_eq] at ruled
      rw [columnOf_eq_some column] at hold ⊢
      refine inList_neverTrue fun v inside value cell member _ => ?_
      refine applyCmp?_of_absent hold ?_ (ruled v (by simp [inside, value])) cell member
      simp [Expr.probed, inside]
  · cases ruled

end Rows

/-- Over a column of any indexable type, what is built answers truthfully for a probe exactly when the
    cells SQL-equal to it carry its bytes, or its bits are taken by other cells; a row group ruled out
    with such probes alone has no row on which the predicate is TRUE. -/
theorem skipIndex_truthful_iff (t : ScalarType) (cells : List Value) (typed : ∀ y ∈ cells, y.HasScalarType t) (v : Value)
    (part : String) :
    ((∀ kind index, buildIndex kind ⟨.scalar t, cells⟩ = some index → Truthful index cells v part) ↔
      SameBytes t cells v ∨ Shadowed t cells v) ∧
    ∀ K fields rows indexes pred, IndexesHold indexes rows pred.probed →
      indexMayMatch (indexProbe indexes) pred = false → NeverTrue K fields rows pred := by
  refine ⟨⟨?_, fun clear kind index built => truthful_of_bloom typed clear built⟩, ?_⟩
  · intro all
    have truthful := all .bloom (.bloom t (Bloom.build t cells)) rfl
    exact (bloom_truthful_iff typed).mp truthful.1
  · intro K fields rows indexes pred hold ruled
    exact neverTrue_of_refuted inherited_indexesHold indexLeaf_sound pred hold (by simpa [indexMayMatch] using ruled)

/-- `1.5` in a column of scale 1, and `1.50`, a literal of scale 2. -/
def tenths : ScalarType := .decimal ⟨5, 1, by decide, by decide, by decide⟩
def oneAndHalf : Value := .decimal ⟨15, 1, by decide, by decide⟩
def oneFifty : Value := .decimal ⟨150, 2, by decide, by decide⟩

def zero : Value := .float64 ⟨⟨0, by decide⟩⟩
def minusZero : Value := .float64 ⟨⟨2 ^ 63, by decide⟩⟩

/-- A filter over `1.5` denies `1.50`, and one over `-0.0` denies `0.0`, though both are SQL-equal; a
    row group that holds such a value is ruled out by the equality that its row meets. -/
theorem skipIndex_misses :
    ((Bloom.build tenths [oneAndHalf]).mightContain tenths oneFifty = false ∧ sqlEq oneAndHalf oneFifty = some true) ∧
    ((Bloom.build .float64 [minusZero]).mightContain .float64 zero = false ∧ sqlEq minusZero zero = some true) ∧
    indexMayMatch (indexProbe fun _ => buildIndex .bloom ⟨.float64, [minusZero]⟩)
      (.cmp .eq (.column 0) (.literal zero .float64)) = false ∧
    (Expr.cmp .eq (.column 0) (.literal zero .float64)).eval noKernels [⟨"a", .float64⟩] [[minusZero]] =
      .ok ⟨.bool, [.bool true]⟩ := by
  refine ⟨⟨by decide +kernel, by decide +kernel⟩, ⟨by decide +kernel, by decide +kernel⟩, by decide +kernel, rfl⟩

theorem skipIndex_truthful_iff_minusZero :
    (∀ y ∈ [minusZero], y.HasScalarType .float64) ∧
    ((∀ kind index, buildIndex kind ⟨.scalar .float64, [minusZero]⟩ = some index →
      Truthful index [minusZero] minusZero "") ↔
      SameBytes .float64 [minusZero] minusZero ∨ Shadowed .float64 [minusZero] minusZero) := by
  have typed : ∀ y ∈ [minusZero], y.HasScalarType .float64 := by
    intro y member
    rw [List.mem_singleton.mp member]
    exact True.intro
  exact ⟨typed, (skipIndex_truthful_iff .float64 [minusZero] typed minusZero "").1⟩

end Adelie
