import Adelie.Exec.Sums
import Adelie.Exec.Casting

namespace Adelie

namespace Agg

/-- Rows of one group that are added together. -/
abbrev Chunk := Nat × List Int

/-- The integer an exact value is added as. -/
def digits : Value → Int
  | .int64 n => n.val
  | .uint64 n => n.val
  | .decimal d => d.unscaled
  | _ => 0

def rowChunk (cells : List Value) (filter : Option (List Bool)) (row : Nat × Nat) : Option Chunk :=
  if dropped filter row.2 then none
  else (cells[row.2]?).bind fun v => if v.isNull then none else some (row.1, [digits v])

/-- All rows of one of the other's groups, into its target. -/
def mergeChunk (rows : Nat → List Int) (row : Nat × Nat) : Option Chunk :=
  if rows row.2 = [] then none else some (row.1, rows row.2)

def put (rows : Nat → List Int) (c : Chunk) : Nat → List Int := Function.update rows c.1 (rows c.1 ++ c.2)

namespace Plan

/-- Every row of a group, in the order they are added. -/
def rows : Plan → Nat → List Int
  | .empty => fun _ => []
  | .update p groups cells filter => (groups.zipIdx.filterMap (rowChunk cells filter)).foldl put p.rows
  | .merge p groups q => (groups.zipIdx.filterMap (mergeChunk q.rows)).foldl put p.rows
  | .mergeEncoded p group q other => ([(group, other)].filterMap (mergeChunk q.rows)).foldl put p.rows

/-- Columns of the type, a cell for each row. -/
def Typed (t : ScalarType) : Plan → Prop
  | .empty => True
  | .update p groups cells _ => p.Typed t ∧ groups.length = cells.length ∧ ∀ v ∈ cells, v.HasScalarType t
  | .merge p _ q => p.Typed t ∧ q.Typed t
  | .mergeEncoded p _ q _ => p.Typed t ∧ q.Typed t

end Plan

/-- A running total: in an `i128`, and in the output kind's range. -/
def Within (kind : SumKind) (n : Int) : Prop := -2 ^ 127 ≤ n ∧ n < 2 ^ 127 ∧ inRange kind n

/-- Each addition leaves its group's total in range. -/
def Running (good : Int → Prop) (rows : Nat → List Int) : List Chunk → Prop
  | [] => True
  | c :: rest => good (rows c.1 ++ c.2).sum ∧ Running good (put rows c) rest

namespace Plan

/-- Every total on the way, of every accumulator, is in range. -/
def Fits (good : Int → Prop) : Plan → Prop
  | .empty => True
  | .update p groups cells filter => p.Fits good ∧ Running good p.rows (groups.zipIdx.filterMap (rowChunk cells filter))
  | .merge p groups q => p.Fits good ∧ q.Fits good ∧ Running good p.rows (groups.zipIdx.filterMap (mergeChunk q.rows))
  | .mergeEncoded p group q other =>
    p.Fits good ∧ q.Fits good ∧ Running good p.rows ([(group, other)].filterMap (mergeChunk q.rows))

/-- No group of any accumulator gets `2^63` rows. -/
def Few : Plan → Prop
  | .empty => True
  | .update p groups cells filter => p.Few ∧ ∀ g, ((Plan.update p groups cells filter).rows g).length < 2 ^ 63
  | .merge p groups q => p.Few ∧ q.Few ∧ ∀ g, ((Plan.merge p groups q).rows g).length < 2 ^ 63
  | .mergeEncoded p group q other =>
    p.Few ∧ q.Few ∧ ∀ g, ((Plan.mergeEncoded p group q other).rows g).length < 2 ^ 63

end Plan

theorem ok_bind {ε α β : Type} (a : α) (f : α → Except ε β) : ((Except.ok a : Except ε α) >>= f) = f a := rfl

section Folds

variable {S β : Type} {f : S → β → Except ExecError S} {add : S → Chunk → Except ExecError S} {chunk : β → Option Chunk}

/-- A loop that skips some rows and adds the chunk of each other. -/
theorem foldlM_chunks {l : List β} (skip : ∀ x ∈ l, ∀ s, chunk x = none → f s x = .ok s)
    (adds : ∀ x ∈ l, ∀ s c, chunk x = some c → f s x = add s c) (s : S) : l.foldlM f s = (l.filterMap chunk).foldlM add s := by
  induction l generalizing s with
  | nil => rfl
  | cons x l ih =>
    have rest := ih (fun y member => skip y (List.mem_cons_of_mem _ member)) fun y member => adds y (List.mem_cons_of_mem _ member)
    cases made : chunk x with
    | none =>
      rw [List.filterMap_cons_none made, List.foldlM_cons, skip x List.mem_cons_self s made]
      exact rest s
    | some c =>
      rw [List.filterMap_cons_some made, List.foldlM_cons, List.foldlM_cons, adds x List.mem_cons_self s c made]
      exact congrArg _ (funext rest)

theorem updateRows_eq {value : S → Nat → Value → Except ExecError S} {groups : List Nat} {cells : List Value}
    (lengths : groups.length = cells.length)
    (adds : ∀ v ∈ cells, v.isNull = false → ∀ s g, value s g v = add s (g, [digits v])) (filter : Option (List Bool)) (s : S) :
    groups.zipIdx.foldlM (updateRows value cells filter) s = (groups.zipIdx.filterMap (rowChunk cells filter)).foldlM add s := by
  apply foldlM_chunks
  · rintro ⟨g, r⟩ member s skipped
    have inside : r < cells.length := by
      have := List.snd_lt_of_mem_zipIdx member
      omega
    unfold rowChunk at skipped
    unfold updateRows
    split
    · rfl
    · rename_i kept
      rw [if_neg kept, List.getElem?_eq_getElem inside] at skipped
      rw [List.getElem?_eq_getElem inside]
      cases null : cells[r].isNull with
      | true => simp [null]
      | false => simp [null] at skipped
  · rintro ⟨g, r⟩ member s c made
    have inside : r < cells.length := by
      have := List.snd_lt_of_mem_zipIdx member
      omega
    unfold rowChunk at made
    unfold updateRows
    split
    · rename_i gone
      rw [if_pos gone] at made
      cases made
    · rename_i kept
      rw [if_neg kept, List.getElem?_eq_getElem inside] at made
      rw [List.getElem?_eq_getElem inside]
      cases null : cells[r].isNull with
      | true => simp [null] at made
      | false =>
        simp only [Option.bind_some, null, Bool.false_eq_true, ↓reduceIte, Option.some.injEq] at made
        simp only [null, Bool.false_eq_true, ↓reduceIte, ← made]
        exact adds _ (List.getElem_mem inside) null s g

end Folds

section Sum

variable {kind : SumKind} {rows : Nat → List Int} {s : SumState}

/-- The state of a SUM over these rows. -/
structure SumState.Holds (s : SumState) (rows : Nat → List Int) : Prop where
  intSum : ∀ g, s.intSum g = (rows g).sum
  has : ∀ g, s.has g = true ↔ rows g ≠ []

def addChunk (kind : SumKind) (s : SumState) (c : Chunk) : Except ExecError SumState := addInt kind s c.1 c.2.sum

theorem SumState.Holds.new : SumState.new.Holds fun _ => [] := ⟨fun _ => rfl, fun _ => by simp [SumState.new]⟩

theorem SumState.Holds.add (holds : s.Holds rows) {c : Chunk} (some_ : c.2 ≠ []) (good : Within kind (rows c.1 ++ c.2).sum) :
    ∃ s', addChunk kind s c = .ok s' ∧ s'.Holds (put rows c) := by
  have total : s.intSum c.1 + c.2.sum = (rows c.1 ++ c.2).sum := by
    rw [holds.intSum, List.sum_append]
  obtain ⟨low, high, inside⟩ := good
  refine ⟨{ s with intSum := Function.update s.intSum c.1 (rows c.1 ++ c.2).sum, has := Function.update s.has c.1 true },
    ?_, ⟨?_, ?_⟩⟩
  · unfold addChunk addInt
    rw [total, Cast.checkedI128, if_pos ⟨low, high⟩]
    exact if_pos inside
  · intro g
    unfold put
    by_cases here : g = c.1
    · subst here
      simp
    · simp only [Function.update_of_ne here]
      exact holds.intSum g
  · intro g
    unfold put
    by_cases here : g = c.1
    · subst here
      simp [some_]
    · simp only [Function.update_of_ne here]
      exact holds.has g

theorem SumState.Holds.refuse (holds : s.Holds rows) {c : Chunk} (past : ¬ Within kind (rows c.1 ++ c.2).sum) :
    addChunk kind s c = .error (.overflow (opName kind)) := by
  have total : s.intSum c.1 + c.2.sum = (rows c.1 ++ c.2).sum := by
    rw [holds.intSum, List.sum_append]
  unfold addChunk addInt
  rw [total, Cast.checkedI128]
  by_cases wide : -2 ^ 127 ≤ (rows c.1 ++ c.2).sum ∧ (rows c.1 ++ c.2).sum < 2 ^ 127
  · rw [if_pos wide]
    exact if_neg fun inside => past ⟨wide.1, wide.2, inside⟩
  · rw [if_neg wide]

theorem SumState.Holds.run (kind : SumKind) (holds : s.Holds rows) {l : List Chunk} (some_ : ∀ c ∈ l, c.2 ≠ []) :
    (Running (Within kind) rows l → ∃ s', l.foldlM (addChunk kind) s = .ok s' ∧ s'.Holds (l.foldl put rows)) ∧
    (¬ Running (Within kind) rows l → l.foldlM (addChunk kind) s = .error (.overflow (opName kind))) := by
  induction l generalizing s rows with
  | nil => exact ⟨fun _ => ⟨s, rfl, holds⟩, fun not_ => absurd True.intro not_⟩
  | cons c l ih =>
    by_cases good : Within kind (rows c.1 ++ c.2).sum
    · obtain ⟨s', made, holds'⟩ := holds.add (some_ c List.mem_cons_self) good
      have rest := ih holds' fun d member => some_ d (List.mem_cons_of_mem _ member)
      rw [List.foldlM_cons, made]
      exact ⟨fun running => rest.1 running.2, fun past => rest.2 fun running => past ⟨good, running⟩⟩
    · rw [List.foldlM_cons, holds.refuse good]
      exact ⟨fun running => absurd running.1 good, fun _ => rfl⟩

/-- A run in range leaves every group in range. -/
theorem running_within {good : Int → Prop} {l : List Chunk} (before : ∀ g, rows g ≠ [] → good (rows g).sum)
    (running : Running good rows l) : ∀ g, l.foldl put rows g ≠ [] → good (l.foldl put rows g).sum := by
  induction l generalizing rows with
  | nil => exact before
  | cons c l ih =>
    apply ih _ running.2
    intro g
    unfold put
    by_cases here : g = c.1
    · subst here
      rw [Function.update_self]
      exact fun _ => running.1
    · rw [Function.update_of_ne here]
      exact before g

theorem Plan.Fits.within {good : Int → Prop} {p : Plan} (fits : p.Fits good) : ∀ g, p.rows g ≠ [] → good (p.rows g).sum := by
  induction p with
  | empty => exact fun _ some_ => absurd rfl some_
  | update p groups cells filter ih => exact running_within (ih fits.1) fits.2
  | merge p groups q ih _ => exact running_within (ih fits.1) fits.2.2
  | mergeEncoded p group q other ih _ => exact running_within (ih fits.1) fits.2.2

theorem rowChunk_some {cells : List Value} {filter : Option (List Bool)} {row : Nat × Nat} {c : Chunk}
    (made : rowChunk cells filter row = some c) : c.2 ≠ [] := by
  unfold rowChunk at made
  split at made
  · cases made
  · obtain ⟨v, _, made⟩ := Option.bind_eq_some_iff.mp made
    split at made
    · cases made
    · cases made
      exact List.cons_ne_nil _ _

theorem mergeChunk_some {row : Nat × Nat} {c : Chunk} (made : mergeChunk rows row = some c) : c.2 ≠ [] := by
  unfold mergeChunk at made
  split at made
  · cases made
  · rename_i some_
    cases made
    exact some_

/-- The state comes back from its encoding. -/
theorem sumMergeEncoded_encode (P : Platform) {t : SumState} (whole : kind ≠ .float64) {g : Nat}
    (fits : t.has g → -2 ^ 127 ≤ t.intSum g ∧ t.intSum g < 2 ^ 127) (target : Nat) :
    sumMergeEncoded P kind s target (sumEncodeState kind t g) =
      if t.has g then addInt kind s target (t.intSum g) else .ok s := by
  have version : Decodes Cursor.u8 (Sink.u8 stateVersion) stateVersion := decodes_u8 (by decide)
  have flag (b : Bool) : Decodes Cursor.u8 (Sink.u8 b.toNat) b.toNat := decodes_u8 (by cases b <;> decide)
  have known : checkVersion "sum" stateVersion = .ok () := rfl
  unfold sumMergeEncoded sumEncodeState
  simp only [version _, flag _ _, known, Except.mapError, ok_bind]
  cases has : t.has g with
  | false => rfl
  | true =>
    have sum := (decodes_i128 (fits has).1 (fits has).2).whole
    cases kind with
    | float64 => exact absurd rfl whole
    | _ =>
      simp only [Bool.toNat_true, one_ne_zero, ↓reduceIte, sum]
      rfl

section Steps

variable (P : Platform) {t : ScalarType} {v : Value}

theorem addValue_eq (kindOf : SumKind.of (.scalar t) = some kind) (whole : kind ≠ .float64) (typed : v.HasScalarType t)
    (some_ : v.isNull = false) (s : SumState) (g : Nat) : addValue P kind s g v = addChunk kind s (g, [digits v]) := by
  cases t <;> cases kindOf <;> first | exact absurd rfl whole | skip
  all_goals cases v <;> first | exact typed.elim | cases some_ | skip
  all_goals
    rw [addChunk, List.sum_singleton]
    rfl

theorem sumUpdate_eq (kindOf : SumKind.of (.scalar t) = some kind) (whole : kind ≠ .float64) {groups : List Nat} {cells : List Value}
    (lengths : groups.length = cells.length) (typed : ∀ v ∈ cells, v.HasScalarType t) (filter : Option (List Bool)) :
    sumUpdate P kind s groups cells filter = (groups.zipIdx.filterMap (rowChunk cells filter)).foldlM (addChunk kind) s :=
  updateRows_eq lengths (fun v member some_ => addValue_eq P kindOf whole (typed v member) some_) filter s

theorem sumMerge_eq (whole : kind ≠ .float64) {other : SumState} (holds : other.Holds rows) (groups : List Nat) :
    sumMerge P kind s groups other = (groups.zipIdx.filterMap (mergeChunk rows)).foldlM (addChunk kind) s := by
  apply foldlM_chunks
  · rintro ⟨target, g⟩ _ s skipped
    unfold mergeChunk at skipped
    split at skipped
    · rename_i empty
      have none_ : other.has g = false := Bool.eq_false_iff.mpr fun has => (holds.has g).mp has empty
      unfold sumMergeRow
      rw [none_]
      rfl
    · cases skipped
  · rintro ⟨target, g⟩ _ s c made
    unfold mergeChunk at made
    split at made
    · cases made
    · rename_i some_
      cases made
      have has : other.has g = true := (holds.has g).mpr some_
      unfold sumMergeRow
      rw [has, addChunk, ← holds.intSum]
      cases kind <;> first | exact absurd rfl whole | rfl

theorem sumMergeEncoded_eq (whole : kind ≠ .float64) {other : SumState} (holds : other.Holds rows) {g : Nat}
    (fits : rows g ≠ [] → Within kind (rows g).sum) (target : Nat) :
    sumMergeEncoded P kind s target (sumEncodeState kind other g) =
      ([(target, g)].filterMap (mergeChunk rows)).foldlM (addChunk kind) s := by
  have inside (has : other.has g = true) : -2 ^ 127 ≤ other.intSum g ∧ other.intSum g < 2 ^ 127 := by
    obtain ⟨low, high, _⟩ := fits ((holds.has g).mp has)
    rw [holds.intSum]
    exact ⟨low, high⟩
  rw [sumMergeEncoded_encode P whole inside]
  by_cases empty : rows g = []
  · have none_ : other.has g = false := Bool.eq_false_iff.mpr fun has => (holds.has g).mp has empty
    have skipped : mergeChunk rows (target, g) = none := if_pos empty
    rw [none_, List.filterMap_cons_none skipped]
    rfl
  · have has : other.has g = true := (holds.has g).mpr empty
    have made : mergeChunk rows (target, g) = some (target, rows g) := if_neg empty
    rw [has, List.filterMap_cons_some made, holds.intSum]
    change _ = (addChunk kind s (target, rows g) >>= fun s => .ok s)
    unfold addChunk
    cases addInt kind s target (rows g).sum <;> rfl

theorem mem_filterMap_ne {β : Type} {chunk : β → Option Chunk} (made : ∀ x c, chunk x = some c → c.2 ≠ []) (l : List β) :
    ∀ c ∈ l.filterMap chunk, c.2 ≠ [] := by
  intro c member
  obtain ⟨x, _, found⟩ := List.mem_filterMap.mp member
  exact made x c found

/-- A SUM that stays in range holds every group's exact total; any other reports an overflow. -/
theorem Plan.sum_holds (kindOf : SumKind.of (.scalar t) = some kind) (whole : kind ≠ .float64) {p : Plan} (typed : p.Typed t) :
    (p.Fits (Within kind) → ∃ s, p.sum P kind = .ok s ∧ s.Holds p.rows) ∧
    (¬ p.Fits (Within kind) → p.sum P kind = .error (.overflow (opName kind))) := by
  induction p with
  | empty => exact ⟨fun _ => ⟨.new, rfl, .new⟩, fun past => absurd True.intro past⟩
  | update p groups cells filter ih =>
    obtain ⟨before, lengths, each⟩ := typed
    by_cases fits : p.Fits (Within kind)
    · obtain ⟨s, made, holds⟩ := (ih before).1 fits
      have run := holds.run kind (mem_filterMap_ne (fun _ _ => rowChunk_some) _ : ∀ c ∈ groups.zipIdx.filterMap (rowChunk cells filter), _)
      rw [← sumUpdate_eq P kindOf whole lengths each filter] at run
      rw [Plan.sum, made, ok_bind]
      exact ⟨fun both => run.1 both.2, fun past => run.2 fun running => past ⟨fits, running⟩⟩
    · rw [Plan.sum, (ih before).2 fits]
      exact ⟨fun both => absurd both.1 fits, fun _ => rfl⟩
  | merge p groups q ih ih' =>
    obtain ⟨before, other⟩ := typed
    by_cases fits : p.Fits (Within kind)
    · obtain ⟨s, made, holds⟩ := (ih before).1 fits
      by_cases fits' : q.Fits (Within kind)
      · obtain ⟨s', made', holds'⟩ := (ih' other).1 fits'
        have run := holds.run kind (mem_filterMap_ne (fun _ _ => mergeChunk_some) _ : ∀ c ∈ groups.zipIdx.filterMap (mergeChunk q.rows), _)
        rw [← sumMerge_eq P whole holds'] at run
        rw [Plan.sum, made, ok_bind, made', ok_bind]
        exact ⟨fun all => run.1 all.2.2, fun past => run.2 fun running => past ⟨fits, fits', running⟩⟩
      · rw [Plan.sum, made, ok_bind, (ih' other).2 fits']
        exact ⟨fun all => absurd all.2.1 fits', fun _ => rfl⟩
    · rw [Plan.sum, (ih before).2 fits]
      exact ⟨fun all => absurd all.1 fits, fun _ => rfl⟩
  | mergeEncoded p group q g ih ih' =>
    obtain ⟨before, other⟩ := typed
    by_cases fits : p.Fits (Within kind)
    · obtain ⟨s, made, holds⟩ := (ih before).1 fits
      by_cases fits' : q.Fits (Within kind)
      · obtain ⟨s', made', holds'⟩ := (ih' other).1 fits'
        have run := holds.run kind (mem_filterMap_ne (fun _ _ => mergeChunk_some) _ : ∀ c ∈ [(group, g)].filterMap (mergeChunk q.rows), _)
        rw [← sumMergeEncoded_eq P whole holds' (fits'.within g)] at run
        rw [Plan.sum, made, ok_bind, made', ok_bind]
        exact ⟨fun all => run.1 all.2.2, fun past => run.2 fun running => past ⟨fits, fits', running⟩⟩
      · rw [Plan.sum, made, ok_bind, (ih' other).2 fits']
        exact ⟨fun all => absurd all.2.1 fits', fun _ => rfl⟩
    · rw [Plan.sum, (ih before).2 fits]
      exact ⟨fun all => absurd all.1 fits, fun _ => rfl⟩

end Steps

end Sum

section Finish

variable {t : ScalarType} {kind : SumKind} {rows : Nat → List Int} {s : SumState}

def scaleOf : ScalarType → Nat
  | .decimal t => t.scale
  | _ => 0

/-- NULL without rows, else the exact total. -/
inductive SumTo (t : ScalarType) (values : List Int) : Value → Prop where
  | null : values = [] → SumTo t values .null
  | total {cell : Value} : values ≠ [] → Cast.quantity cell = some ((values.sum : ℚ) / 10 ^ scaleOf t) → SumTo t values cell

theorem scale_le_most (t : DecimalType) : t.scale ≤ 38 := t.scale_le.trans t.precision_le

theorem one_le_most : 1 ≤ 38 := by decide

def totalType : ScalarType → ScalarType
  | .decimal t => .decimal ⟨38, t.scale, one_le_most, Nat.le_refl 38, scale_le_most t⟩
  | t => t

theorem sumType_eq (kindOf : SumKind.of (.scalar t) = some kind) : sumType kind = .ok (.scalar (totalType t)) := by
  cases t <;> cases kindOf <;> first | rfl | skip
  rename_i t
  rw [sumType, DecimalType.new, dif_pos ⟨one_le_most, Nat.le_refl 38⟩, dif_pos (scale_le_most t)]
  rfl

theorem totalType_exact (kindOf : SumKind.of (.scalar t) = some kind) (whole : kind ≠ .float64) : Cast.exact (totalType t) := by
  cases t <;> cases kindOf <;> first | rfl | exact absurd rfl whole

/-- A group's cell: its exact total, unless a DECIMAL has more than 38 digits. -/
theorem sumCell_cases (kindOf : SumKind.of (.scalar t) = some kind) (whole : kind ≠ .float64) (holds : s.Holds rows) {g : Nat}
    (within : rows g ≠ [] → Within kind (rows g).sum) :
    ((rows g).sum.natAbs < 10 ^ 38 → ∃ cell, sumCell kind s g = .ok cell ∧ cell.HasScalarType (totalType t) ∧ SumTo t (rows g) cell) ∧
      (¬ (rows g).sum.natAbs < 10 ^ 38 → sumCell kind s g = .error (.overflow "sum(DECIMAL)")) := by
  by_cases empty : rows g = []
  · have none_ : s.has g = false := Bool.eq_false_iff.mpr fun has => (holds.has g).mp has empty
    have cell : sumCell kind s g = .ok .null := by
      unfold sumCell
      rw [none_]
      rfl
    refine ⟨fun _ => ⟨.null, cell, True.intro, .null empty⟩, fun past => absurd ?_ past⟩
    rw [empty]
    decide
  · have has : s.has g = true := (holds.has g).mpr empty
    obtain ⟨low, high, inside⟩ := within empty
    have sum := holds.intSum g
    generalize (rows g).sum = n at *
    unfold sumCell
    rw [has, sum]
    cases t <;> cases kindOf <;> first | exact absurd rfl whole | skip
    · have bounds : -2 ^ 63 ≤ n ∧ n < 2 ^ 63 := by simpa [inRange] using inside
      refine ⟨fun _ => ⟨.int64 (wrapI64 n), rfl, True.intro, .total empty ?_⟩, fun past => absurd (by omega) past⟩
      have same : (wrapI64 n).val = n := by
        unfold wrapI64
        dsimp only
        omega
      rw [Cast.quantity, same, ← holds.intSum, sum]
      simp [scaleOf]
    · have bounds : 0 ≤ n ∧ n < 2 ^ 64 := by simpa [inRange] using inside
      refine ⟨fun _ => ⟨.uint64 (wrapU64 n), rfl, True.intro, .total empty ?_⟩, fun past => absurd (by omega) past⟩
      have same : ((wrapU64 n).val : Int) = n := by
        unfold wrapU64
        dsimp only
        omega
      have real : (((wrapU64 n).val : Int) : ℚ) = n := by rw [same]
      rw [Cast.quantity, ← holds.intSum, sum, ← real]
      simp [scaleOf]
    · rename_i t
      constructor
      · intro small
        refine ⟨.decimal ⟨n, t.scale, scale_le_most t, small⟩, ?_, ⟨rfl, small⟩, .total empty ?_⟩
        · have built : Decimal.new n t.scale = .ok ⟨n, t.scale, scale_le_most t, small⟩ := by
            rw [Decimal.new, dif_pos (scale_le_most t), dif_pos small]
          simp only [Bool.not_true, Bool.false_eq_true, ↓reduceIte, built]
        · rw [Cast.quantity, ← holds.intSum, sum]
          rfl
      · intro past
        have built : Decimal.new n t.scale = .error (.decimalPrecision 39) := by
          rw [Decimal.new, dif_pos (scale_le_most t), dif_neg past]
        simp only [Bool.not_true, Bool.false_eq_true, ↓reduceIte, built]

theorem buildColumn_self {ty : ScalarType} (exact_ : Cast.exact ty) {cells : List Value} (typed : ∀ v ∈ cells, v.HasScalarType ty) :
    buildColumn (.scalar ty) cells = .ok ⟨.scalar ty, cells⟩ := by
  unfold buildColumn
  rw [mapM_except_of_forall₂ (r := cells)]
  · rw [ok_bind, Cast.offsetsFit_exact exact_ typed]
    rfl
  · refine List.forall₂_same.mpr fun v member => ?_
    have kept : coerce v (.scalar ty) = some v := coerce_self (typed v member)
    rw [kept]

/-- The column of totals, when every one is a value of the result type. -/
theorem sumFinish_cases (kindOf : SumKind.of (.scalar t) = some kind) (whole : kind ≠ .float64) (holds : s.Holds rows)
    (within : ∀ g, rows g ≠ [] → Within kind (rows g).sum) (n : Nat) :
    ((∀ g < n, (rows g).sum.natAbs < 10 ^ 38) → ∃ out, sumFinish kind s n = .ok out ∧ out.ty = .scalar (totalType t) ∧
      List.Forall₂ (fun g cell => SumTo t (rows g) cell) (List.range n) out.cells) ∧
    (¬ (∀ g < n, (rows g).sum.natAbs < 10 ^ 38) → sumFinish kind s n = .error (.overflow "sum(DECIMAL)")) := by
  have cases_ (g : Nat) := sumCell_cases kindOf whole holds (within g)
  unfold sumFinish
  rw [sumType_eq kindOf, ok_bind]
  constructor
  · intro short
    have each : ∀ g ∈ List.range n, ∃ cell, sumCell kind s g = .ok cell ∧ cell.HasScalarType (totalType t) ∧ SumTo t (rows g) cell :=
      fun g member => (cases_ g).1 (short g (List.mem_range.mp member))
    obtain ⟨cells, made⟩ := exists_mapM_eq_ok fun g member => (each g member).imp fun _ both => both.1
    have rowCells := forall₂_of_mapM_except made
    have all : List.Forall₂ (fun g cell => cell.HasScalarType (totalType t) ∧ SumTo t (rows g) cell) (List.range n) cells := by
      refine List.forall₂_iff_get.mpr ⟨rowCells.length_eq, fun i inside inside' => ?_⟩
      obtain ⟨cell, read, both⟩ := each _ (List.get_mem _ ⟨i, inside⟩)
      have same := rowCells.get inside inside'
      rw [read] at same
      cases same
      exact both
    have typed : ∀ cell ∈ cells, cell.HasScalarType (totalType t) := by
      intro cell member
      obtain ⟨_, _, both⟩ := List.Forall₂.source all member
      exact both.1
    refine ⟨⟨.scalar (totalType t), cells⟩, ?_, rfl, all.imp fun _ _ both => both.2⟩
    rw [made, ok_bind]
    exact buildColumn_self (totalType_exact kindOf whole) typed
  · intro past
    obtain ⟨g, below, long⟩ : ∃ g, g < n ∧ ¬ (rows g).sum.natAbs < 10 ^ 38 := by
      by_contra none_
      exact past fun g below => by_contra fun long => none_ ⟨g, below, long⟩
    have only : ∀ e, (List.range n).mapM (sumCell kind s) = .error e → e = .overflow "sum(DECIMAL)" := by
      intro e refused
      obtain ⟨g, _, failed⟩ := exists_of_mapM_error refused
      by_cases short : (rows g).sum.natAbs < 10 ^ 38
      · obtain ⟨_, read, _⟩ := (cases_ g).1 short
        rw [read] at failed
        cases failed
      · rw [(cases_ g).2 short] at failed
        cases failed
        rfl
    cases made : (List.range n).mapM (sumCell kind s) with
    | error e =>
      rw [only e made]
      rfl
    | ok cells =>
      obtain ⟨_, _, read⟩ := List.Forall₂.image (forall₂_of_mapM_except made) (List.mem_range.mpr below)
      rw [(cases_ g).2 long] at read
      cases read

end Finish

section Avg

variable (P : Platform) {rows : Nat → List Int} {s : AvgState}

/-- The state of an AVG over these rows. -/
structure AvgState.Holds (s : AvgState) (rows : Nat → List Int) : Prop where
  intSum : ∀ g, s.intSum g = (rows g).sum
  counts : ∀ g, s.counts g = (rows g).length

/-- Values of an INT64 or a UINT64. -/
def Bounded (values : List Int) : Prop := ∀ v ∈ values, -2 ^ 63 ≤ v ∧ v < 2 ^ 64

theorem Bounded.sum {values : List Int} (bounded : Bounded values) :
    -(2 ^ 63 * values.length : Int) ≤ values.sum ∧ values.sum ≤ (2 ^ 64 - 1) * values.length := by
  induction values with
  | nil => exact ⟨Int.le_refl 0, Int.le_refl 0⟩
  | cons v values ih =>
    have each := List.forall_mem_cons.mp bounded
    have rest := ih each.2
    rw [List.sum_cons, List.length_cons]
    push_cast
    omega

/-- Fewer than `2^63` of them leave room in an `i128`. -/
theorem Bounded.fits {values : List Int} (bounded : Bounded values) (few : values.length < 2 ^ 63) :
    -2 ^ 127 ≤ values.sum ∧ values.sum < 2 ^ 127 := by
  have sum := bounded.sum
  omega

theorem plain_ok {low high n : Int} (inside : low ≤ n ∧ n < high) : plain P low high n = .ok n := if_pos inside

def addCountedChunk (s : AvgState) (c : Chunk) : Except ExecError AvgState := addCounted P s c.1 c.2.sum c.2.length

theorem AvgState.Holds.new : AvgState.new.Holds fun _ => [] := ⟨fun _ => rfl, fun _ => rfl⟩

theorem AvgState.Holds.add (holds : s.Holds rows) {c : Chunk} (bounded : Bounded (rows c.1 ++ c.2))
    (few : (rows c.1 ++ c.2).length < 2 ^ 63) : ∃ s', addCountedChunk P s c = .ok s' ∧ s'.Holds (put rows c) := by
  have total : s.intSum c.1 + c.2.sum = (rows c.1 ++ c.2).sum := by
    rw [holds.intSum, List.sum_append]
  have count : (s.counts c.1 : Int) + c.2.length = (rows c.1 ++ c.2).length := by
    rw [holds.counts, List.length_append]
    push_cast
    rfl
  refine ⟨{ s with intSum := Function.update s.intSum c.1 (rows c.1 ++ c.2).sum,
                   counts := Function.update s.counts c.1 (rows c.1 ++ c.2).length }, ?_, ⟨?_, ?_⟩⟩
  · unfold addCountedChunk addCounted
    rw [total, plain_ok P (bounded.fits few), ok_bind, count, plain_ok P (by omega)]
    rfl
  · intro g
    unfold put
    by_cases here : g = c.1
    · subst here
      simp
    · simp only [Function.update_of_ne here]
      exact holds.intSum g
  · intro g
    unfold put
    by_cases here : g = c.1
    · subst here
      simp
    · simp only [Function.update_of_ne here]
      exact holds.counts g

/-- Rows are only ever added to. -/
theorem length_le_put (l : List Chunk) (rows : Nat → List Int) (g : Nat) : (rows g).length ≤ (l.foldl put rows g).length := by
  induction l generalizing rows with
  | nil => exact Nat.le_refl _
  | cons c l ih =>
    refine Nat.le_trans ?_ (ih (put rows c))
    unfold put
    by_cases here : g = c.1
    · subst here
      rw [Function.update_self, List.length_append]
      omega
    · rw [Function.update_of_ne here]

theorem bounded_put {c : Chunk} (bounded : ∀ g, Bounded (rows g)) (chunk : Bounded c.2) : ∀ g, Bounded (put rows c g) := by
  intro g
  unfold put
  by_cases here : g = c.1
  · subst here
    rw [Function.update_self]
    exact List.forall_mem_append.mpr ⟨bounded _, chunk⟩
  · rw [Function.update_of_ne here]
    exact bounded g

theorem bounded_puts {l : List Chunk} (bounded : ∀ g, Bounded (rows g)) (chunks : ∀ c ∈ l, Bounded c.2) :
    ∀ g, Bounded (l.foldl put rows g) := by
  induction l generalizing rows with
  | nil => exact bounded
  | cons c l ih =>
    have each := List.forall_mem_cons.mp chunks
    exact ih (bounded_put bounded each.1) each.2

theorem AvgState.Holds.run (holds : s.Holds rows) {l : List Chunk} (bounded : ∀ g, Bounded (rows g))
    (chunks : ∀ c ∈ l, Bounded c.2) (few : ∀ g, (l.foldl put rows g).length < 2 ^ 63) :
    ∃ s', l.foldlM (addCountedChunk P) s = .ok s' ∧ s'.Holds (l.foldl put rows) := by
  induction l generalizing s rows with
  | nil => exact ⟨s, rfl, holds⟩
  | cons c l ih =>
    have each := List.forall_mem_cons.mp chunks
    have next := bounded_put bounded each.1
    have short := (length_le_put l (put rows c) c.1).trans_lt (few c.1)
    have here : put rows c c.1 = rows c.1 ++ c.2 := Function.update_self _ _ _
    obtain ⟨s', made, holds'⟩ := holds.add P (here ▸ next c.1) (here ▸ short)
    rw [List.foldlM_cons, made]
    exact ih holds' next each.2 few

theorem rowChunk_bounded {t : ScalarType} (kindOf : AvgKind.of (.scalar t) = some .intLike) {cells : List Value}
    (typed : ∀ v ∈ cells, v.HasScalarType t) {filter : Option (List Bool)} {row : Nat × Nat} {c : Chunk}
    (made : rowChunk cells filter row = some c) : Bounded c.2 := by
  unfold rowChunk at made
  split at made
  · cases made
  · obtain ⟨v, found, made⟩ := Option.bind_eq_some_iff.mp made
    split at made
    · cases made
    · cases made
      have typed := typed v (List.mem_of_getElem? found)
      intro n member
      rw [List.mem_singleton.mp member]
      cases t <;> cases kindOf <;> cases v <;> first | exact typed.elim | decide | skip
      · rename_i n _
        have bounds := n.property
        simp only [digits]
        omega
      · rename_i n _
        have bounds := n.property
        simp only [digits]
        omega

theorem mergeChunk_bounded (bounded : ∀ g, Bounded (rows g)) {row : Nat × Nat} {c : Chunk}
    (made : mergeChunk rows row = some c) : Bounded c.2 := by
  unfold mergeChunk at made
  split at made
  · cases made
  · cases made
    exact bounded row.2

theorem mem_filterMap_bounded {β : Type} {chunk : β → Option Chunk} (made : ∀ x c, chunk x = some c → Bounded c.2) (l : List β) :
    ∀ c ∈ l.filterMap chunk, Bounded c.2 := by
  intro c member
  obtain ⟨x, _, found⟩ := List.mem_filterMap.mp member
  exact made x c found

theorem Plan.bounded {t : ScalarType} (kindOf : AvgKind.of (.scalar t) = some .intLike) {p : Plan} (typed : p.Typed t) :
    ∀ g, Bounded (p.rows g) := by
  induction p with
  | empty => exact fun _ _ member => by cases member
  | update p groups cells filter ih =>
    exact bounded_puts (ih typed.1) (mem_filterMap_bounded (fun _ _ => rowChunk_bounded kindOf typed.2.2) _)
  | merge p groups q ih ih' =>
    exact bounded_puts (ih typed.1) (mem_filterMap_bounded (fun _ _ => mergeChunk_bounded (ih' typed.2)) _)
  | mergeEncoded p group q other ih ih' =>
    exact bounded_puts (ih typed.1) (mem_filterMap_bounded (fun _ _ => mergeChunk_bounded (ih' typed.2)) _)

section Steps

variable {t : ScalarType} {v : Value}

theorem avgValue_eq (kindOf : AvgKind.of (.scalar t) = some .intLike) (typed : v.HasScalarType t) (some_ : v.isNull = false)
    (s : AvgState) (g : Nat) : avgValue P .intLike s g v = addCountedChunk P s (g, [digits v]) := by
  unfold addCountedChunk
  rw [List.sum_singleton]
  cases t <;> cases kindOf <;> cases v <;> first
    | exact typed.elim
    | rfl
    | cases some_

theorem avgUpdate_eq (kindOf : AvgKind.of (.scalar t) = some .intLike) {groups : List Nat} {cells : List Value}
    (lengths : groups.length = cells.length) (typed : ∀ v ∈ cells, v.HasScalarType t) (filter : Option (List Bool)) :
    avgUpdate P .intLike s groups cells filter = (groups.zipIdx.filterMap (rowChunk cells filter)).foldlM (addCountedChunk P) s :=
  updateRows_eq lengths (fun v member some_ => avgValue_eq P kindOf (typed v member) some_) filter s

theorem avgMerge_eq {other : AvgState} (holds : other.Holds rows) (groups : List Nat) :
    avgMerge P .intLike s groups other = (groups.zipIdx.filterMap (mergeChunk rows)).foldlM (addCountedChunk P) s := by
  apply foldlM_chunks
  · rintro ⟨target, g⟩ _ s skipped
    unfold mergeChunk at skipped
    split at skipped
    · rename_i empty
      have none_ : other.counts g = 0 := by rw [holds.counts, empty, List.length_nil]
      exact if_pos none_
    · cases skipped
  · rintro ⟨target, g⟩ _ s c made
    unfold mergeChunk at made
    split at made
    · cases made
    · rename_i some_
      cases made
      have count : other.counts g ≠ 0 := by
        rw [holds.counts]
        exact fun zero => some_ (List.length_eq_zero_iff.mp zero)
      unfold avgMergeRow
      rw [if_neg count, addCountedChunk, ← holds.intSum, ← holds.counts]

theorem plain_same {n : Nat} (small : n < 2 ^ 64) : plain P 0 (2 ^ 64) (n + (0 : Nat)) = .ok (n : Int) := by
  rw [Nat.cast_zero, add_zero]
  exact plain_ok P (by omega)

theorem avgMergeEncoded_eq {other : AvgState} (holds : other.Holds rows) {g : Nat} (bounded : Bounded (rows g))
    (few : (rows g).length < 2 ^ 63) (target : Nat) (own : s.counts target < 2 ^ 64) :
    avgMergeEncoded P .intLike s target (avgEncodeState .intLike other g) =
      ([(target, g)].filterMap (mergeChunk rows)).foldlM (addCountedChunk P) s := by
  have version : Decodes Cursor.u8 (Sink.u8 stateVersion) stateVersion := decodes_u8 (by decide)
  have flag (b : Bool) : Decodes Cursor.u8 (Sink.u8 b.toNat) b.toNat := decodes_u8 (by cases b <;> decide)
  have known : checkVersion "avg" stateVersion = .ok () := rfl
  have count := holds.counts g
  have counted := (decodes_uvarint (v := other.counts g) (by omega)).whole
  unfold avgMergeEncoded avgEncodeState
  generalize Sink.uvarint (other.counts g) = tail at counted ⊢
  simp only [version _, flag _ _, known, Except.mapError, ok_bind]
  by_cases empty : rows g = []
  · have skipped : mergeChunk rows (target, g) = none := if_pos empty
    have zero : other.counts g = 0 := by rw [count, empty, List.length_nil]
    rw [List.filterMap_cons_none skipped]
    rw [zero] at counted
    have same : plain P 0 (2 ^ 64) ((s.counts target : Int) + ((0, ([] : List UInt8)).1 : Nat)) = .ok _ := plain_same P own
    simp only [zero, Nat.lt_irrefl, decide_false, Bool.toNat_false, ↓reduceIte, List.nil_append]
    rw [counted, ok_bind, same, ok_bind, Int.toNat_natCast, Function.update_eq_self]
    rfl
  · have made : mergeChunk rows (target, g) = some (target, rows g) := if_neg empty
    have positive : 0 < other.counts g := by
      rw [count]
      exact List.length_pos_iff.mpr empty
    have sum := holds.intSum g
    have fits := bounded.fits few
    have read := decodes_i128 (v := other.intSum g) (by omega) (by omega)
    rw [List.filterMap_cons_some made]
    simp only [positive, decide_true, Bool.toNat_true, one_ne_zero, ↓reduceIte, read _, counted, ok_bind]
    rw [sum, count]
    change _ = (addCountedChunk P s (target, rows g) >>= fun s => .ok s)
    unfold addCountedChunk
    cases addCounted P s target (rows g).sum (rows g).length <;> rfl

theorem Plan.Few.lengths {p : Plan} (few : p.Few) : ∀ g, (p.rows g).length < 2 ^ 63 := by
  cases p with
  | empty => exact fun _ => Nat.two_pow_pos 63
  | update p groups cells filter => exact few.2
  | merge p groups q => exact few.2.2
  | mergeEncoded p group q other => exact few.2.2

theorem Plan.avg_holds (kindOf : AvgKind.of (.scalar t) = some .intLike) {p : Plan} (typed : p.Typed t) (few : p.Few) :
    ∃ s, p.avg P .intLike = .ok s ∧ s.Holds p.rows := by
  induction p with
  | empty => exact ⟨.new, rfl, .new⟩
  | update p groups cells filter ih =>
    obtain ⟨before, lengths, each⟩ := typed
    obtain ⟨s, made, holds⟩ := ih before few.1
    have run := holds.run P (Plan.bounded kindOf before) (mem_filterMap_bounded (fun _ _ => rowChunk_bounded kindOf each) _) few.2
    rw [← avgUpdate_eq P kindOf lengths each filter] at run
    rw [Plan.avg, made]
    exact run
  | merge p groups q ih ih' =>
    obtain ⟨before, other⟩ := typed
    obtain ⟨s, made, holds⟩ := ih before few.1
    obtain ⟨s', made', holds'⟩ := ih' other few.2.1
    have run := holds.run P (Plan.bounded kindOf before)
      (mem_filterMap_bounded (fun _ _ => mergeChunk_bounded (Plan.bounded kindOf other)) _) few.2.2
    rw [← avgMerge_eq P holds'] at run
    rw [Plan.avg, made, ok_bind, made']
    exact run
  | mergeEncoded p group q g ih ih' =>
    obtain ⟨before, other⟩ := typed
    obtain ⟨s, made, holds⟩ := ih before few.1
    obtain ⟨s', made', holds'⟩ := ih' other few.2.1
    have run := holds.run P (Plan.bounded kindOf before)
      (mem_filterMap_bounded (fun _ _ => mergeChunk_bounded (Plan.bounded kindOf other)) _) few.2.2
    have own : s.counts group < 2 ^ 64 := by
      have short := few.1.lengths group
      rw [holds.counts]
      omega
    rw [← avgMergeEncoded_eq P holds' (Plan.bounded kindOf other g) (few.2.1.lengths g) group own] at run
    rw [Plan.avg, made, ok_bind, made']
    exact run

end Steps

end Avg

section Totals

variable (P : Platform) {t : ScalarType}

/-- SUM gives every group's exact total, or an overflow when a total on the way leaves the range or a DECIMAL one ends
    past 38 digits; AVG over integers keeps the exact sum and count of fewer than `2^63` rows a group. -/
theorem totals_exact {p : Plan} (typed : p.Typed t) :
    (∀ kind, SumKind.of (.scalar t) = some kind → kind ≠ .float64 →
      (¬ p.Fits (Within kind) → p.sum P kind = .error (.overflow (opName kind))) ∧
      (p.Fits (Within kind) → ∃ s, p.sum P kind = .ok s ∧ ∀ n,
        ((∀ g < n, (p.rows g).sum.natAbs < 10 ^ 38) → ∃ out, sumFinish kind s n = .ok out ∧ out.ty = .scalar (totalType t) ∧
          List.Forall₂ (fun g cell => SumTo t (p.rows g) cell) (List.range n) out.cells) ∧
        (¬ (∀ g < n, (p.rows g).sum.natAbs < 10 ^ 38) → sumFinish kind s n = .error (.overflow "sum(DECIMAL)")))) ∧
    (AvgKind.of (.scalar t) = some .intLike → p.Few → ∃ s, p.avg P .intLike = .ok s ∧
      ∀ g, s.intSum g = (p.rows g).sum ∧ s.counts g = (p.rows g).length) := by
  constructor
  · intro kind kindOf whole
    have outcome := Plan.sum_holds P kindOf whole typed
    refine ⟨outcome.2, ?_⟩
    intro fits
    obtain ⟨s, made, holds⟩ := outcome.1 fits
    exact ⟨s, made, sumFinish_cases kindOf whole holds fits.within⟩
  · intro kindOf few
    obtain ⟨s, made, holds⟩ := Plan.avg_holds P kindOf typed few
    exact ⟨s, made, fun g => ⟨holds.intSum g, holds.counts g⟩⟩

/-- Two rows and a NULL, one group. -/
theorem totals_exact_pair : ∃ s, (Plan.update .empty [0, 0, 0] [.int64 (wrapI64 4), .null, .int64 (wrapI64 3)] none).avg
    checkedPlatform .intLike = .ok s ∧ s.intSum 0 = 7 ∧ s.counts 0 = 2 := by
  have typed : (Plan.update .empty [0, 0, 0] [.int64 (wrapI64 4), .null, .int64 (wrapI64 3)] none).Typed .int64 := by
    refine ⟨True.intro, rfl, ?_⟩
    simp only [List.forall_mem_cons]
    exact ⟨True.intro, True.intro, True.intro, by simp⟩
  have few : (Plan.update .empty [0, 0, 0] [.int64 (wrapI64 4), .null, .int64 (wrapI64 3)] none).Few := by
    refine ⟨True.intro, fun g => ?_⟩
    have small : ((Plan.update .empty [0, 0, 0] [.int64 (wrapI64 4), .null, .int64 (wrapI64 3)] none).rows g).length ≤ 2 := by
      by_cases here : g = 0
      · subst here
        decide
      · change (put (put _ _) _ g).length ≤ 2
        unfold put
        rw [Function.update_of_ne here, Function.update_of_ne here]
        exact Nat.zero_le 2
    omega
  obtain ⟨s, made, holds⟩ := (totals_exact checkedPlatform typed).2 rfl few
  exact ⟨s, made, holds 0⟩

/-- The exact total is the greatest INT64, and the total on the way is past it. -/
theorem total_fits_midway_not : ¬ ∀ p : Plan, p.Typed .int64 → -2 ^ 63 ≤ (p.rows 0).sum → (p.rows 0).sum < 2 ^ 63 →
    ∃ s, p.sum checkedPlatform .int64 = .ok s := by
  intro all
  obtain ⟨s, made⟩ := all (.update .empty [0, 0, 0] [.int64 (wrapI64 (2 ^ 63 - 1)), .int64 (wrapI64 1), .int64 (wrapI64 (-1))] none)
    ⟨True.intro, rfl, by simp only [List.forall_mem_cons]; exact ⟨True.intro, True.intro, True.intro, by simp⟩⟩ (by decide) (by decide)
  cases made

end Totals

end Agg

end Adelie
