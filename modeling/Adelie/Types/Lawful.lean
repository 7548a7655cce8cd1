import Adelie.Types.Exact
import Adelie.Types.Total

namespace Adelie

/-- A comparison that is a total preorder on some of the values, and always answers there. -/
structure PreorderOn (good : Value → Prop) (cmp : Value → Value → Option Ordering) : Prop where
  answers : ∀ a b, good a → good b → ∃ o, cmp a b = some o
  refl : ∀ a, good a → cmp a a = some .eq
  swap : ∀ a b o, good a → good b → cmp a b = some o → cmp b a = some o.swap
  antisymm : ∀ a b, good a → good b → (∃ o, cmp a b = some o ∧ o.isLE) → (∃ o, cmp b a = some o ∧ o.isLE) → cmp a b = some .eq
  total : ∀ a b, good a → good b → (∃ o, cmp a b = some o ∧ o.isLE) ∨ ∃ o, cmp b a = some o ∧ o.isLE
  trans : ∀ a b c, good a → good b → good c → (∃ o, cmp a b = some o ∧ o.isLE) → (∃ o, cmp b c = some o ∧ o.isLE) →
    ∃ o, cmp a c = some o ∧ o.isLE

/-- A comparison that is an order on what the values carry. -/
theorem PreorderOn.of_domain {ty : DataType} (d : Domain ty) :
    PreorderOn (fun v => v.HasType ty ∧ v.isNull = false) totalCmp := by
  have carried : ∀ v : Value, v.HasType ty ∧ v.isNull = false → ∃ x, v = d.wrap x := by
    rintro v ⟨typed, value⟩
    rcases d.covers v typed with rfl | whole
    · cases value
    · exact whole
  have := d.trans
  refine ⟨?_, ?_, ?_, ?_, ?_, ?_⟩
  · intro a b left right
    obtain ⟨x, rfl⟩ := carried a left
    obtain ⟨y, rfl⟩ := carried b right
    exact ⟨_, d.cmp_wrap x y⟩
  · intro a good
    obtain ⟨x, rfl⟩ := carried a good
    rw [d.cmp_wrap]
    exact congrArg some Std.ReflCmp.compare_self
  · intro a b o left right made
    obtain ⟨x, rfl⟩ := carried a left
    obtain ⟨y, rfl⟩ := carried b right
    rw [d.cmp_wrap] at made ⊢
    cases made
    exact congrArg some Std.OrientedCmp.eq_swap
  · rintro a b left right ⟨o, made, below⟩ ⟨o', made', above⟩
    obtain ⟨x, rfl⟩ := carried a left
    obtain ⟨y, rfl⟩ := carried b right
    rw [d.cmp_wrap] at made made' ⊢
    cases made
    cases made'
    exact congrArg some (Std.OrientedCmp.isLE_antisymm below above)
  · intro a b left right
    obtain ⟨x, rfl⟩ := carried a left
    obtain ⟨y, rfl⟩ := carried b right
    by_cases below : (d.cmp x y).isLE
    · exact .inl ⟨_, d.cmp_wrap x y, below⟩
    · refine .inr ⟨_, d.cmp_wrap y x, ?_⟩
      have turned : d.cmp y x = (d.cmp x y).swap := Std.OrientedCmp.eq_swap
      rw [turned]
      cases made : d.cmp x y with
      | gt => rfl
      | lt => simp [made] at below
      | eq => simp [made] at below
  · rintro a b c left middle right ⟨o, made, below⟩ ⟨o', made', above⟩
    obtain ⟨x, rfl⟩ := carried a left
    obtain ⟨y, rfl⟩ := carried b middle
    obtain ⟨z, rfl⟩ := carried c right
    rw [d.cmp_wrap] at made made'
    cases made
    cases made'
    exact ⟨_, d.cmp_wrap x z, Std.TransCmp.isLE_trans below above⟩

namespace Decimal

/-- The number a decimal stands for. -/
def number (d : Decimal) : ℚ := d.unscaled / 10 ^ d.scale

theorem number_eq_rank (d : Decimal) : d.number = d.rank / 10 ^ 38 := by
  have whole : (10 : ℚ) ^ 38 = 10 ^ d.scale * 10 ^ (38 - d.scale) := by
    rw [← pow_add, Nat.add_sub_cancel' d.scale_le]
  unfold number rank
  rw [whole]
  push_cast
  field_simp

theorem compare_rank (d e : Decimal) : decimalCmp d e = compare d.number e.number := by
  have positive : (0 : ℚ) < 10 ^ 38 := by positivity
  rw [decimalCmp_eq, number_eq_rank, number_eq_rank]
  rcases lt_trichotomy d.rank e.rank with less | same | more
  · have below : (d.rank : ℚ) / 10 ^ 38 < e.rank / 10 ^ 38 := by
      apply div_lt_div_of_pos_right _ positive
      exact_mod_cast less
    rw [compare_lt_iff_lt.mpr less, compare_lt_iff_lt.mpr below]
  · rw [same, compare_eq_iff_eq.mpr rfl, compare_eq_iff_eq.mpr rfl]
  · have above : (e.rank : ℚ) / 10 ^ 38 < d.rank / 10 ^ 38 := by
      apply div_lt_div_of_pos_right _ positive
      exact_mod_cast more
    rw [compare_gt_iff_gt.mpr more, compare_gt_iff_gt.mpr above]

/-- What `decimal_cmp` computes of one side, each an `i128`: the two powers, the parts and the product. -/
def steps (d : Decimal) : List Int :=
  [10 ^ d.scale, d.split.1, d.split.2, 10 ^ (38 - d.scale), d.split.2 * 10 ^ (38 - d.scale)]

theorem pow_le_38 {n : Nat} (small : n ≤ 38) : 0 < (10 : Int) ^ n ∧ (10 : Int) ^ n ≤ 10 ^ 38 := by
  refine ⟨by positivity, ?_⟩
  exact pow_le_pow_right₀ (by decide) small

theorem steps_fit (d : Decimal) : ∀ n ∈ d.steps, -2 ^ 127 ≤ n ∧ n < 2 ^ 127 := by
  have power := pow_le_38 d.scale_le
  have power' := pow_le_38 (Nat.sub_le 38 d.scale)
  have bound := d.small
  have whole : -10 ^ 38 ≤ d.split.1 ∧ d.split.1 ≤ 10 ^ 38 := by
    have parts := Int.mul_ediv_add_emod d.unscaled (10 ^ d.scale)
    have low : d.unscaled / 10 ^ d.scale ≤ 10 ^ 38 := (Int.ediv_le_ediv power.1 (by omega : d.unscaled ≤ 10 ^ 38)).trans
      (Int.ediv_le_self _ (by positivity))
    refine ⟨?_, low⟩
    change -10 ^ 38 ≤ d.unscaled / 10 ^ d.scale
    rw [Int.le_ediv_iff_mul_le power.1]
    have least : (1 : Int) ≤ 10 ^ d.scale := power.1
    have : -10 ^ 38 * 10 ^ d.scale ≤ -10 ^ 38 * (1 : Int) := mul_le_mul_of_nonpos_left least (by decide)
    omega
  have fraction : 0 ≤ d.split.2 ∧ d.split.2 < 10 ^ d.scale :=
    ⟨Int.emod_nonneg _ power.1.ne', Int.emod_lt_of_pos _ power.1⟩
  have product := d.split_fraction
  intro n member
  simp only [steps, List.mem_cons, List.not_mem_nil, or_false] at member
  rcases member with rfl | rfl | rfl | rfl | rfl <;> omega

end Decimal

mutual

/-- No NaN, no NULL, and no list that holds one. -/
def Value.definite (v : Value) : Bool :=
  match v with
  | .null => false
  | .float64 f => !f.isNaN
  | .list items => definiteItems items
  | _ => true

def definiteItems (items : List Value) : Bool :=
  match items with
  | [] => true
  | v :: rest => v.definite && definiteItems rest

end

section Equal

theorem listCmp_cons_eq {x y : Value} {xs ys : List Value} : listCmp (x :: xs) (y :: ys) = some .eq ↔
    (x.isNull = true ∧ y.isNull = true ∨ x.isNull = false ∧ y.isNull = false ∧ totalCmp x y = some .eq) ∧
      listCmp xs ys = some .eq := by
  rw [listCmp]
  cases left : x.isNull <;> cases right : y.isNull
  · cases head : totalCmp x y with
    | none => simp
    | some o => cases o <;> simp
  · simp
  · simp
  · simp

mutual

/-- What is SQL-equal is on one slot of the order. -/
theorem totalCmp_of_sqlEq (a b : Value) (same : sqlEq a b = some true) : totalCmp a b = some .eq := by
  cases a with
  | list xs =>
    cases b with
    | list ys =>
      rw [sqlEq] at same
      split at same
      · cases same
      · rename_i lengths
        rw [totalCmp]
        exact listCmp_of_listSqlEq xs ys (not_not.mp lengths) same
    | _ => simp [sqlEq] at same
  | _ =>
    rw [sqlEq] at same
    · rw [totalCmp]
      · exact scalarCmp_of_sqlEq same
      · simp
    · simp

theorem listCmp_of_listSqlEq (xs ys : List Value) (lengths : xs.length = ys.length)
    (same : listSqlEq xs ys = some true) : listCmp xs ys = some .eq := by
  cases xs with
  | nil =>
    cases ys with
    | nil => rfl
    | cons y ys => cases lengths
  | cons x xs =>
    cases ys with
    | nil => cases lengths
    | cons y ys =>
      rw [listSqlEq, kleeneAnd_eq_true] at same
      have head := totalCmp_of_sqlEq x y same.1
      have tail := listCmp_of_listSqlEq xs ys (Nat.succ.inj lengths) same.2
      have present : x.isNull = false ∧ y.isNull = false := by
        cases x <;> cases y <;> simp [sqlEq, scalarSqlEq, Value.isNull] at same ⊢
      exact listCmp_cons_eq.mpr ⟨.inr ⟨present.1, present.2, head⟩, tail⟩

end

mutual

/-- Values on one slot are SQL-equal where neither NaN nor NULL is in them. -/
theorem sqlEq_iff_definite (a b : Value) (tied : totalCmp a b = some .eq) : sqlEq a b = some true ↔ b.definite = true := by
  cases a with
  | list xs =>
    cases b with
    | list ys =>
      rw [totalCmp] at tied
      obtain ⟨lengths, items⟩ := listSqlEq_iff_definite xs ys tied
      rw [sqlEq, if_neg (not_not.mpr lengths), Value.definite]
      exact items
    | _ => simp [totalCmp] at tied
  | float64 f =>
    cases b with
    | float64 g =>
      simp only [totalCmp, scalarCmp, floatTotalCmp, Option.some.injEq] at tied
      simp only [sqlEq, scalarSqlEq, Value.definite]
      cases nan : f.isNaN <;> cases nan' : g.isNaN <;> simp_all
    | _ => simp [totalCmp, scalarCmp] at tied
  | _ =>
    cases b <;> simp [totalCmp, scalarCmp] at tied
    all_goals simp [sqlEq, scalarSqlEq, Value.definite, tied]

theorem listSqlEq_iff_definite (xs ys : List Value) (tied : listCmp xs ys = some .eq) :
    xs.length = ys.length ∧ (listSqlEq xs ys = some true ↔ definiteItems ys = true) := by
  cases xs with
  | nil =>
    cases ys with
    | nil => simp [listSqlEq, definiteItems]
    | cons y ys => cases tied
  | cons x xs =>
    cases ys with
    | nil => cases tied
    | cons y ys =>
      obtain ⟨slot, tail⟩ := listCmp_cons_eq.mp tied
      obtain ⟨lengths, rest⟩ := listSqlEq_iff_definite xs ys tail
      refine ⟨by simp [lengths], ?_⟩
      rw [listSqlEq, kleeneAnd_eq_true, definiteItems, Bool.and_eq_true, rest]
      apply and_congr_left'
      rcases slot with ⟨null, null'⟩ | ⟨_, _, head⟩
      · cases x <;> cases null
        cases y <;> cases null'
        simp [sqlEq, scalarSqlEq, Value.definite]
      · exact sqlEq_iff_definite x y head

end

end Equal

/-- The total order of sort and statistics: a total preorder on each type's values, exact on decimals of any scales
    within an `i128`, and coarser than SQL equality by NaN and by NULL elements alone. -/
theorem totalCmp_lawful (ty : DataType) :
    PreorderOn (fun v => v.HasType ty ∧ v.isNull = false) totalCmp ∧
    (∀ d e : Decimal, totalCmp (.decimal d) (.decimal e) = some (compare d.number e.number) ∧
      ∀ n ∈ d.steps ++ e.steps, -2 ^ 127 ≤ n ∧ n < 2 ^ 127) ∧
    (∀ a b, sqlEq a b = some true → totalCmp a b = some .eq) ∧
    ∀ a b, totalCmp a b = some .eq → (sqlEq a b = some true ↔ b.definite = true) := by
  refine ⟨PreorderOn.of_domain ty.domain, ?_, totalCmp_of_sqlEq, sqlEq_iff_definite⟩
  intro d e
  refine ⟨?_, ?_⟩
  · rw [totalCmp, scalarCmp, Decimal.compare_rank]
    simp
  · intro n member
    rcases List.mem_append.mp member with member | member
    · exact d.steps_fit n member
    · exact e.steps_fit n member

end Adelie
