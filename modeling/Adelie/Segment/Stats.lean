import Adelie.Exec.Expr
import Adelie.Lib.Extremum
import Adelie.Types.Preorder

namespace Adelie

def statsMaxBytes : Nat := 128

def lesser : Option Value → Value → Option Value := keepBest fun v m => totalCmp v m = some .lt
def greater : Option Value → Value → Option Value := keepBest fun v m => totalCmp v m = some .gt

def presentCells (cells : List Value) : List Value := cells.filter fun v => !v.isNull

/-- Counts and bounds of one column; a LIST has no bounds. -/
def Column.stats (c : Column) : ColumnStats where
  rows := c.cells.length
  nullCount := c.cells.countP (·.isNull)
  min := match c.ty with
    | .list _ => none
    | .scalar _ => (presentCells c.cells).foldl lesser none
  max := match c.ty with
    | .list _ => none
    | .scalar _ => (presentCells c.cells).foldl greater none

/-- The longest start of at most `room` bytes of UTF-8 that ends between two characters. -/
def truncateChars (room : Nat) : List Char → List Char
  | [] => []
  | c :: rest => if c.utf8Size ≤ room then c :: truncateChars (room - c.utf8Size) rest else []

def truncateStr (s : String) (maxBytes : Nat) : String := .ofList (truncateChars maxBytes s.toList)

def isOversized : Value → Bool
  | .string s => statsMaxBytes < s.utf8ByteSize
  | .bytes b => statsMaxBytes < b.length
  | _ => false

def boundMin : Value → Value
  | .string s => if statsMaxBytes < s.utf8ByteSize then .string (truncateStr s statsMaxBytes) else .string s
  | .bytes b => if statsMaxBytes < b.length then .bytes (b.take statsMaxBytes) else .bytes b
  | other => other

/-- A long STRING or BYTES minimum is cut, a long maximum is dropped. -/
def boundStats (stats : ColumnStats) : Option Value × Option Value :=
  (stats.min.map boundMin, stats.max.filter fun v => !isOversized v)

/-- One column's statistics over the row groups so far. -/
structure StatsAcc where
  rows : Nat
  nullCount : Nat
  min : Option Value
  max : Option Value
  maxDropped : Bool

namespace StatsAcc

def new : StatsAcc := ⟨0, 0, none, none, false⟩

def merge (acc : StatsAcc) (group : ColumnStats) (min max : Option Value) : StatsAcc :=
  let acc := { acc with rows := acc.rows + group.rows, nullCount := acc.nullCount + group.nullCount }
  if group.rows ≤ group.nullCount then acc
  else
    let acc := match min with
      | some v => { acc with min := lesser acc.min v }
      | none => acc
    if acc.maxDropped then acc
    else match max with
      | some v => { acc with max := greater acc.max v }
      | none => { acc with maxDropped := true }

def finish (acc : StatsAcc) : ColumnStats :=
  ⟨acc.rows, acc.nullCount, acc.min, if acc.maxDropped then none else acc.max⟩

/-- One more row group of the column. -/
def push (acc : StatsAcc) (c : Column) : StatsAcc :=
  acc.merge c.stats (boundStats c.stats).1 (boundStats c.stats).2

end StatsAcc

/-- What the footer keeps of one chunk, besides its bytes. -/
def Column.zoneMap (c : Column) : ColumnStats :=
  ⟨c.stats.rows, c.stats.nullCount, (boundStats c.stats).1, (boundStats c.stats).2⟩

/-- The statistics of a column over its row groups. -/
def segmentStats (groups : List Column) : ColumnStats := (groups.foldl StatsAcc.push .new).finish

/-- Statistics that are true of these cells. -/
structure Bounds (stats : ColumnStats) (cells : List Value) : Prop where
  rows : stats.rows = cells.length
  nulls : stats.nullCount = cells.countP (·.isNull)
  min : ∀ m, stats.min = some m → ∀ c ∈ cells, c.isNull = false → AtMost m c
  max : ∀ m, stats.max = some m → ∀ c ∈ cells, c.isNull = false → AtMost c m

section Compare

variable {a b : Value} {t : ScalarType}

/-- A value of a scalar type, not NULL. -/
def Present (t : ScalarType) (v : Value) : Prop := v.isNull = false ∧ v.HasScalarType t

theorem Present.totalCmp (present : Present t a) (b : Value) : totalCmp a b = scalarCmp a b := by
  cases a with
  | list items => cases t <;> cases present.2
  | _ => unfold Adelie.totalCmp; rfl

theorem Present.comparable (left : Present t a) (right : Present t b) : ∃ o, scalarCmp a b = some o := by
  obtain ⟨value, typed⟩ := left
  obtain ⟨value', typed'⟩ := right
  cases t <;> cases a <;> simp_all [Value.HasScalarType, Value.isNull] <;>
    cases b <;> simp_all [scalarCmp]

theorem Present.atMost_self (present : Present t a) : AtMost a a := by
  obtain ⟨o, made⟩ := present.comparable present
  cases o with
  | lt => exact atMost_of_lt made
  | eq => exact atMost_of_eq made
  | gt => exact atMost_of_gt made

theorem picks_lesser (t : ScalarType) :
    Picks (fun v m => decide (Adelie.totalCmp v m = some .lt)) AtMost fun v => Present t v := by
  refine ⟨fun a present => present.atMost_self, fun _ _ _ => AtMost.trans, ?_, ?_⟩
  · intro a b left _ won
    rw [left.totalCmp] at won
    exact atMost_of_lt (of_decide_eq_true won)
  · intro a b left right lost
    obtain ⟨o, made⟩ := left.comparable right
    rw [left.totalCmp, made] at lost
    cases o with
    | lt => simp at lost
    | eq => exact atMost_of_eq (scalarCmp_swap made)
    | gt => exact atMost_of_gt made

theorem picks_greater (t : ScalarType) :
    Picks (fun v m => decide (Adelie.totalCmp v m = some .gt)) (fun a b => AtMost b a) fun v => Present t v := by
  refine ⟨fun a present => present.atMost_self, fun _ _ _ first second => second.trans first, ?_, ?_⟩
  · intro a b left _ won
    rw [left.totalCmp] at won
    exact atMost_of_gt (of_decide_eq_true won)
  · intro a b left right lost
    obtain ⟨o, made⟩ := left.comparable right
    rw [left.totalCmp, made] at lost
    cases o with
    | lt => exact atMost_of_lt made
    | eq => exact atMost_of_eq made
    | gt => simp at lost

end Compare

section Truncate

theorem truncateChars_isPrefix (room : Nat) (chars : List Char) : truncateChars room chars <+: chars := by
  induction chars generalizing room with
  | nil => exact List.prefix_rfl
  | cons c rest ih =>
    unfold truncateChars
    split
    · exact List.prefix_cons_inj c |>.mpr (ih _)
    · exact List.nil_prefix

theorem compare_truncateStr (s : String) (maxBytes : Nat) : (compare (truncateStr s maxBytes) s).isLE := by
  by_contra above
  have less : compare s (truncateStr s maxBytes) = .lt := Std.OrientedCmp.lt_of_not_isLE above
  have before : s < truncateStr s maxBytes := compareOfLessAndEq_eq_lt.mp less
  have chars : s.toList < (truncateStr s maxBytes).toList := before
  unfold truncateStr at chars
  rw [String.toList_ofList] at chars
  exact (truncateChars_isPrefix maxBytes s.toList).le chars

theorem compare_take (b : List UInt8) (n : Nat) : (compare (b.take n) b).isLE := by
  induction b generalizing n with
  | nil => simp
  | cons x rest ih =>
    cases n with
    | zero => rfl
    | succ n =>
      rw [List.take_succ_cons]
      rw [List.compare_cons_cons, Std.ReflOrd.compare_self, Ordering.eq_then]
      exact ih n

/-- A cut minimum is a value of the column's type, and no greater. -/
theorem Present.boundMin {t : ScalarType} {m : Value} (present : Present t m) :
    Present t (boundMin m) ∧ AtMost (boundMin m) m := by
  have same : Present t m ∧ AtMost m m := ⟨present, present.atMost_self⟩
  cases m with
  | string s =>
    unfold Adelie.boundMin
    dsimp only
    split
    · refine ⟨⟨rfl, ?_⟩, _, rfl, compare_truncateStr s _⟩
      cases t <;> first | exact True.intro | cases present.2
    · exact same
  | bytes b =>
    unfold Adelie.boundMin
    dsimp only
    split
    · refine ⟨⟨rfl, ?_⟩, _, rfl, compare_take b _⟩
      cases t <;> first | exact True.intro | cases present.2
    · exact same
  | _ => exact same

end Truncate

section Sound

variable {c : Column} {cells : List Value} {t : ScalarType}

theorem mem_presentCells {v : Value} : v ∈ presentCells cells ↔ v ∈ cells ∧ v.isNull = false := by
  simp [presentCells]

theorem present_of_mem (typed : ∀ v ∈ cells, v.HasScalarType t) : ∀ v ∈ presentCells cells, Present t v := by
  intro v member
  obtain ⟨inside, value⟩ := mem_presentCells.mp member
  exact ⟨value, typed v inside⟩

/-- The bounds of a column of a scalar type are values of the type. -/
theorem foldl_lesser (typed : ∀ v ∈ cells, v.HasScalarType t) {m : Value}
    (made : (presentCells cells).foldl lesser none = some m) :
    Present t m ∧ ∀ v ∈ cells, v.isNull = false → AtMost m v := by
  obtain ⟨present, bound, _⟩ := (picks_lesser t).foldl (by simp) (present_of_mem typed) made
  exact ⟨present, fun v member value => bound v (mem_presentCells.mpr ⟨member, value⟩)⟩

theorem foldl_greater (typed : ∀ v ∈ cells, v.HasScalarType t) {m : Value}
    (made : (presentCells cells).foldl greater none = some m) :
    Present t m ∧ ∀ v ∈ cells, v.isNull = false → AtMost v m := by
  obtain ⟨present, bound, _⟩ := (picks_greater t).foldl (by simp) (present_of_mem typed) made
  exact ⟨present, fun v member value => bound v (mem_presentCells.mpr ⟨member, value⟩)⟩

theorem boundStats_min (typed : ∀ v ∈ cells, v.HasScalarType t) {m : Value}
    (made : (boundStats (Column.stats ⟨.scalar t, cells⟩)).1 = some m) :
    Present t m ∧ ∀ v ∈ cells, v.isNull = false → AtMost m v := by
  obtain ⟨whole, least, rfl⟩ := Option.map_eq_some_iff.mp made
  obtain ⟨present, bound⟩ := foldl_lesser typed least
  obtain ⟨present', below⟩ := present.boundMin
  exact ⟨present', fun v member value => below.trans (bound v member value)⟩

theorem boundStats_max (typed : ∀ v ∈ cells, v.HasScalarType t) {m : Value}
    (made : (boundStats (Column.stats ⟨.scalar t, cells⟩)).2 = some m) :
    Present t m ∧ ∀ v ∈ cells, v.isNull = false → AtMost v m :=
  foldl_greater typed (Option.filter_eq_some_iff.mp made).1

/-- A chunk's zone map is true of the chunk. -/
theorem zoneMap_bounds (typed : ∀ v ∈ c.cells, v.HasType c.ty) : Bounds c.zoneMap c.cells := by
  obtain ⟨ty, cells⟩ := c
  cases ty with
  | list t => exact ⟨rfl, rfl, (fun m made => by cases made), (fun m made => by cases made)⟩
  | scalar t =>
    have scalars : ∀ v ∈ cells, v.HasScalarType t := fun v member => typed v member
    exact ⟨rfl, rfl, fun m made => (boundStats_min scalars made).2, fun m made => (boundStats_max scalars made).2⟩

/-- What an accumulator holds of the cells so far: with no bound yet there was nothing to bound. -/
structure StatsAcc.Holds (acc : StatsAcc) (t : ScalarType) (cells : List Value) : Prop where
  rows : acc.rows = cells.length
  nulls : acc.nullCount = cells.countP (·.isNull)
  min : ∀ m, acc.min = some m → Present t m ∧ ∀ v ∈ cells, v.isNull = false → AtMost m v
  minless : acc.min = none → ∀ v ∈ cells, v.isNull = true
  max : acc.maxDropped = false → ∀ m, acc.max = some m → Present t m ∧ ∀ v ∈ cells, v.isNull = false → AtMost v m
  maxless : acc.maxDropped = false → acc.max = none → ∀ v ∈ cells, v.isNull = true

theorem exists_min (some_ : ¬ cells.length ≤ cells.countP (·.isNull)) :
    ∃ m, (boundStats (Column.stats ⟨.scalar t, cells⟩)).1 = some m := by
  cases made : (boundStats (Column.stats ⟨.scalar t, cells⟩)).1 with
  | some m => exact ⟨m, rfl⟩
  | none =>
    have empty := (foldl_keepBest_eq_none (Option.map_eq_none_iff.mp made)).1
    have all : cells.countP (·.isNull) = cells.length := by
      rw [List.countP_eq_length]
      intro v member
      by_contra value
      have listed : v ∈ presentCells cells := mem_presentCells.mpr ⟨member, by simpa using value⟩
      rw [empty] at listed
      cases listed
    omega

section Push

variable {acc : StatsAcc} {group : List Value} {old new : Option Value} {v : Value}

/-- A group's minimum folded into that of the cells before it. -/
theorem lesser_bounds (before : ∀ m, old = some m → Present t m ∧ ∀ x ∈ cells, x.isNull = false → AtMost m x)
    (unbounded : old = none → ∀ x ∈ cells, x.isNull = true) (present : Present t v)
    (bound : ∀ x ∈ group, x.isNull = false → AtMost v x) :
    ∃ m, lesser old v = some m ∧ Present t m ∧ ∀ x ∈ cells ++ group, x.isNull = false → AtMost m x := by
  obtain ⟨m, kept, good, under, carried⟩ := (picks_lesser t).step (fun m same => (before m same).1) present
  refine ⟨m, kept, good, ?_⟩
  intro x member value
  rcases List.mem_append.mp member with member | member
  · cases old with
    | none =>
      rw [unbounded rfl x member] at value
      cases value
    | some m₀ => exact (carried m₀ rfl).trans ((before m₀ rfl).2 x member value)
  · exact under.trans (bound x member value)

theorem greater_bounds (before : ∀ m, old = some m → Present t m ∧ ∀ x ∈ cells, x.isNull = false → AtMost x m)
    (unbounded : old = none → ∀ x ∈ cells, x.isNull = true) (present : Present t v)
    (bound : ∀ x ∈ group, x.isNull = false → AtMost x v) :
    ∃ m, greater old v = some m ∧ Present t m ∧ ∀ x ∈ cells ++ group, x.isNull = false → AtMost x m := by
  obtain ⟨m, kept, good, under, carried⟩ := (picks_greater t).step (fun m same => (before m same).1) present
  refine ⟨m, kept, good, ?_⟩
  intro x member value
  rcases List.mem_append.mp member with member | member
  · cases old with
    | none =>
      rw [unbounded rfl x member] at value
      cases value
    | some m₀ => exact ((before m₀ rfl).2 x member value).trans (carried m₀ rfl)
  · exact (bound x member value).trans under

/-- A group without values adds its NULLs and nothing else. -/
theorem StatsAcc.Holds.nulls_only (holds : acc.Holds t cells) (empty : ∀ v ∈ group, v.isNull = true) :
    StatsAcc.Holds { acc with rows := acc.rows + group.length, nullCount := acc.nullCount + group.countP (·.isNull) } t
      (cells ++ group) := by
  have valueless : ∀ v ∈ group, v.isNull = false → False := by
    intro v member value
    rw [empty v member] at value
    cases value
  refine ⟨by simp [holds.rows], by simp [holds.nulls], ?_, ?_, ?_, ?_⟩
  · intro m made
    refine ⟨(holds.min m made).1, fun v member value => ?_⟩
    rcases List.mem_append.mp member with member | member
    · exact (holds.min m made).2 v member value
    · exact (valueless v member value).elim
  · intro none_ v member
    exact (List.mem_append.mp member).elim (holds.minless none_ v) (empty v)
  · intro kept m made
    refine ⟨(holds.max kept m made).1, fun v member value => ?_⟩
    rcases List.mem_append.mp member with member | member
    · exact (holds.max kept m made).2 v member value
    · exact (valueless v member value).elim
  · intro kept none_ v member
    exact (List.mem_append.mp member).elim (holds.maxless kept none_ v) (empty v)

theorem StatsAcc.Holds.push (holds : acc.Holds t cells) (typed : ∀ v ∈ group, v.HasScalarType t) :
    (acc.push ⟨.scalar t, group⟩).Holds t (cells ++ group) := by
  unfold StatsAcc.push StatsAcc.merge
  dsimp only
  split
  · rename_i none_
    have all : group.countP (·.isNull) = group.length := Nat.le_antisymm List.countP_le_length none_
    exact holds.nulls_only (List.countP_eq_length.mp all)
  · rename_i some_
    obtain ⟨v, least⟩ := exists_min (t := t) some_
    obtain ⟨present, bound⟩ := boundStats_min typed least
    obtain ⟨m, kept, good, under⟩ := lesser_bounds holds.min holds.minless present bound
    have rows : acc.rows + group.length = (cells ++ group).length := by simp [holds.rows]
    have nulls : acc.nullCount + group.countP (·.isNull) = (cells ++ group).countP (·.isNull) := by
      simp [holds.nulls]
    have min : ∀ m', lesser acc.min v = some m' →
        Present t m' ∧ ∀ x ∈ cells ++ group, x.isNull = false → AtMost m' x := by
      intro m' same
      rw [kept] at same
      cases same
      exact ⟨good, under⟩
    have minless : lesser acc.min v = none → ∀ x ∈ cells ++ group, x.isNull = true := by simp [kept]
    rw [least]
    dsimp only
    split
    · rename_i dropped
      exact ⟨rows, nulls, min, minless, by simp [dropped], by simp [dropped]⟩
    · rename_i open_
      have whole : acc.maxDropped = false := by simpa using open_
      cases greatest : (boundStats (Column.stats ⟨.scalar t, group⟩)).2 with
      | none => exact ⟨rows, nulls, min, minless, by simp, by simp⟩
      | some w =>
        obtain ⟨present', bound'⟩ := boundStats_max typed greatest
        obtain ⟨m', kept', good', under'⟩ :=
          greater_bounds (holds.max whole) (holds.maxless whole) present' bound'
        refine ⟨rows, nulls, min, minless, ?_, ?_⟩
        · intro _ m'' same
          dsimp only at same
          rw [kept'] at same
          cases same
          exact ⟨good', under'⟩
        · simp [kept']

/-- A LIST column is only counted. -/
structure StatsAcc.Counts (acc : StatsAcc) (cells : List Value) : Prop where
  rows : acc.rows = cells.length
  nulls : acc.nullCount = cells.countP (·.isNull)
  min : acc.min = none
  max : acc.max = none

theorem StatsAcc.Counts.push (counts : acc.Counts cells) (e : ScalarType) :
    (acc.push ⟨.list e, group⟩).Counts (cells ++ group) := by
  unfold StatsAcc.push StatsAcc.merge boundStats Column.stats
  dsimp only [Option.map_none, Option.filter_none]
  have rows : acc.rows + group.length = (cells ++ group).length := by simp [counts.rows]
  have nulls : acc.nullCount + group.countP (·.isNull) = (cells ++ group).countP (·.isNull) := by
    simp [counts.nulls]
  split
  · exact ⟨rows, nulls, counts.min, counts.max⟩
  · split <;> exact ⟨rows, nulls, counts.min, counts.max⟩

end Push

theorem foldl_push_holds {groups : List (List Value)} (typed : ∀ g ∈ groups, ∀ v ∈ g, v.HasScalarType t)
    {acc : StatsAcc} (holds : acc.Holds t cells) :
    ((groups.map (⟨.scalar t, ·⟩)).foldl StatsAcc.push acc).Holds t (cells ++ groups.flatten) := by
  induction groups generalizing acc cells with
  | nil => simpa using holds
  | cons g rest ih =>
    have next := ih (fun g member => typed g (.tail _ member)) (holds.push (typed g (.head _)))
    simpa using next

theorem foldl_push_counts (e : ScalarType) (groups : List (List Value)) {acc : StatsAcc} (counts : acc.Counts cells) :
    ((groups.map (⟨.list e, ·⟩)).foldl StatsAcc.push acc).Counts (cells ++ groups.flatten) := by
  induction groups generalizing acc cells with
  | nil => simpa using counts
  | cons g rest ih =>
    have grown : (acc.push ⟨.list e, g⟩).Counts (cells ++ g) := counts.push e
    simpa using ih grown

/-- The statistics of a segment are true of all its row groups. -/
theorem segmentStats_bounds {ty : DataType} {groups : List (List Value)} (typed : ∀ g ∈ groups, ∀ v ∈ g, v.HasType ty) :
    Bounds (segmentStats (groups.map (⟨ty, ·⟩))) groups.flatten := by
  unfold segmentStats StatsAcc.finish
  cases ty with
  | scalar t =>
    have start : StatsAcc.new.Holds t [] := ⟨rfl, rfl, by simp [StatsAcc.new], by simp, by simp [StatsAcc.new], by simp⟩
    have holds := foldl_push_holds (fun g member v inside => typed g member v inside) start
    rw [List.nil_append] at holds
    refine ⟨holds.rows, holds.nulls, fun m made => (holds.min m made).2, ?_⟩
    intro m made
    dsimp only at made
    split at made
    · cases made
    · rename_i kept
      exact (holds.max (by simpa using kept) m made).2
  | list e =>
    have start : StatsAcc.new.Counts [] := ⟨rfl, rfl, rfl, rfl⟩
    have counts := foldl_push_counts e groups start
    rw [List.nil_append] at counts
    refine ⟨counts.rows, counts.nulls, ?_, ?_⟩
    · intro m made
      rw [counts.min] at made
      cases made
    · intro m made
      dsimp only at made
      rw [counts.max, ite_self] at made
      cases made

end Sound

end Adelie
