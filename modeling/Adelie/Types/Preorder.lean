import Adelie.Types.Order

namespace Adelie

instance : Std.TransCmp floatTotalCmp where
  eq_swap := by
    intro a b
    unfold floatTotalCmp
    cases a.isNaN <;> cases b.isNaN <;> simp [Std.OrientedOrd.eq_swap (a := a.orderKey)]
  isLE_trans := by
    intro a b c first second
    unfold floatTotalCmp at first second ⊢
    cases ha : a.isNaN <;> cases hb : b.isNaN <;> cases hc : c.isNaN <;> simp_all
    exact Std.TransCmp.isLE_trans first second

/-- A decimal as a multiple of `10^-38`. -/
def Decimal.rank (d : Decimal) : Int := d.unscaled * 10 ^ (38 - d.scale)

theorem Decimal.rank_split (d : Decimal) :
    d.rank = d.split.1 * 10 ^ 38 + d.split.2 * 10 ^ (38 - d.scale) := by
  have whole : (10 : Int) ^ 38 = 10 ^ d.scale * 10 ^ (38 - d.scale) := by
    rw [← pow_add, Nat.add_sub_cancel' d.scale_le]
  have parts := Int.mul_ediv_add_emod d.unscaled (10 ^ d.scale)
  unfold Decimal.rank Decimal.split
  calc d.unscaled * 10 ^ (38 - d.scale)
      = (10 ^ d.scale * (d.unscaled / 10 ^ d.scale) + d.unscaled % 10 ^ d.scale) * 10 ^ (38 - d.scale) := by
        rw [parts]
    _ = d.unscaled / 10 ^ d.scale * 10 ^ 38 + d.unscaled % 10 ^ d.scale * 10 ^ (38 - d.scale) := by
        rw [whole]
        ring

theorem Decimal.split_fraction (d : Decimal) :
    0 ≤ d.split.2 * 10 ^ (38 - d.scale) ∧ d.split.2 * 10 ^ (38 - d.scale) < 10 ^ 38 := by
  have positive : (0 : Int) < 10 ^ d.scale := by positivity
  have nonneg : 0 ≤ d.split.2 := Int.emod_nonneg _ positive.ne'
  have below : d.split.2 < 10 ^ d.scale := Int.emod_lt_of_pos _ positive
  refine ⟨by positivity, ?_⟩
  calc d.split.2 * 10 ^ (38 - d.scale) < 10 ^ d.scale * 10 ^ (38 - d.scale) := by gcongr
    _ = 10 ^ 38 := by rw [← pow_add, Nat.add_sub_cancel' d.scale_le]

/-- Integer part and fraction decide as the whole number does. -/
theorem compare_parts {a b : Int} {x y : Int} {n : Int} (small : 0 ≤ x ∧ x < n) (small' : 0 ≤ y ∧ y < n) :
    (compare a b).then (compare x y) = compare (a * n + x) (b * n + y) := by
  rcases lt_trichotomy a b with less | rfl | more
  · have : a * n + x < b * n + y := by nlinarith
    simp [compare_lt_iff_lt.mpr less, compare_lt_iff_lt.mpr this]
  · simp only [compare_eq_iff_eq.mpr rfl, Ordering.eq_then]
    rcases lt_trichotomy x y with less | rfl | more
    · rw [compare_lt_iff_lt.mpr less, compare_lt_iff_lt.mpr (by omega)]
    · simp
    · rw [compare_gt_iff_gt.mpr more, compare_gt_iff_gt.mpr (by omega)]
  · have : b * n + y < a * n + x := by nlinarith
    simp [compare_gt_iff_gt.mpr more, compare_gt_iff_gt.mpr this]

theorem decimalCmp_eq (a b : Decimal) : decimalCmp a b = compare a.rank b.rank := by
  unfold decimalCmp
  rw [compare_parts a.split_fraction b.split_fraction, ← Decimal.rank_split, ← Decimal.rank_split]

instance : Std.TransCmp decimalCmp where
  eq_swap := by
    intro a b
    rw [decimalCmp_eq, decimalCmp_eq]
    exact Std.OrientedOrd.eq_swap
  isLE_trans := by
    intro a b c
    rw [decimalCmp_eq, decimalCmp_eq, decimalCmp_eq]
    exact Std.TransOrd.isLE_trans

/-- One of the kinds the order compares, with the comparison on what its values carry. -/
structure Kind where
  Carrier : Type
  cmp : Carrier → Carrier → Ordering
  trans : Std.TransCmp cmp
  wrap : Carrier → Value
  cmp_wrap : ∀ x y, scalarCmp (wrap x) (wrap y) = some (cmp x y)
  closed : ∀ x w o, scalarCmp (wrap x) w = some o → ∃ y, w = wrap y

namespace Kind

def bool : Kind :=
  ⟨Bool, compare, inferInstance, .bool, fun _ _ => rfl, fun _ w _ made => by cases w <;> simp_all [scalarCmp]⟩

def int64 : Kind :=
  ⟨I64, compareOn Subtype.val, inferInstance, .int64, fun _ _ => rfl,
    fun _ w _ made => by cases w <;> simp_all [scalarCmp]⟩

def uint64 : Kind :=
  ⟨U64, compareOn Subtype.val, inferInstance, .uint64, fun _ _ => rfl,
    fun _ w _ made => by cases w <;> simp_all [scalarCmp]⟩

def float64 : Kind :=
  ⟨Float64, floatTotalCmp, inferInstance, .float64, fun _ _ => rfl,
    fun _ w _ made => by cases w <;> simp_all [scalarCmp]⟩

def decimal : Kind :=
  ⟨Decimal, decimalCmp, inferInstance, .decimal, fun _ _ => rfl,
    fun _ w _ made => by cases w <;> simp_all [scalarCmp]⟩

def string : Kind :=
  ⟨String, compare, inferInstance, .string, fun _ _ => rfl, fun _ w _ made => by cases w <;> simp_all [scalarCmp]⟩

def bytes : Kind :=
  ⟨List UInt8, compare, inferInstance, .bytes, fun _ _ => rfl,
    fun _ w _ made => by cases w <;> simp_all [scalarCmp]⟩

def timestamp : Kind :=
  ⟨I64, compareOn Subtype.val, inferInstance, .timestamp, fun _ _ => rfl,
    fun _ w _ made => by cases w <;> simp_all [scalarCmp]⟩

def date : Kind :=
  ⟨I32, compareOn Subtype.val, inferInstance, .date, fun _ _ => rfl,
    fun _ w _ made => by cases w <;> simp_all [scalarCmp]⟩

def uuid : Kind :=
  ⟨Octets16, compareOn Subtype.val, inferInstance, .uuid, fun _ _ => rfl,
    fun _ w _ made => by cases w <;> simp_all [scalarCmp]⟩

def ip : Kind :=
  ⟨Octets16, compareOn Subtype.val, inferInstance, .ip, fun _ _ => rfl,
    fun _ w _ made => by cases w <;> simp_all [scalarCmp]⟩

end Kind

/-- Values that compare are of one kind. -/
theorem exists_kind {a b : Value} {o : Ordering} (made : scalarCmp a b = some o) :
    ∃ (k : Kind) (x y : k.Carrier), a = k.wrap x ∧ b = k.wrap y := by
  have whole : ∀ (k : Kind) (x : k.Carrier), a = k.wrap x →
      ∃ (k : Kind) (x y : k.Carrier), a = k.wrap x ∧ b = k.wrap y := by
    intro k x same
    rw [same] at made
    obtain ⟨y, other⟩ := k.closed x b o made
    exact ⟨k, x, y, same, other⟩
  cases a with
  | null => cases made
  | bool x => exact whole .bool x rfl
  | int64 x => exact whole .int64 x rfl
  | uint64 x => exact whole .uint64 x rfl
  | float64 x => exact whole .float64 x rfl
  | decimal x => exact whole .decimal x rfl
  | string x => exact whole .string x rfl
  | bytes x => exact whole .bytes x rfl
  | timestamp x => exact whole .timestamp x rfl
  | date x => exact whole .date x rfl
  | uuid x => exact whole .uuid x rfl
  | ip x => exact whole .ip x rfl
  | list x => cases made

/-- `a` is at most `b`, as values of one kind. -/
def AtMost (a b : Value) : Prop := ∃ o, scalarCmp a b = some o ∧ o.isLE

section Laws

variable {a b c : Value} {o : Ordering}

theorem scalarCmp_swap (made : scalarCmp a b = some o) : scalarCmp b a = some o.swap := by
  obtain ⟨k, x, y, rfl, rfl⟩ := exists_kind made
  have := k.trans
  rw [k.cmp_wrap] at made ⊢
  cases made
  have turned : k.cmp y x = (k.cmp x y).swap := Std.OrientedCmp.eq_swap
  rw [turned]

theorem AtMost.trans (first : AtMost a b) (second : AtMost b c) : AtMost a c := by
  obtain ⟨o, made, le⟩ := first
  obtain ⟨o', made', le'⟩ := second
  obtain ⟨k, x, y, rfl, rfl⟩ := exists_kind made
  obtain ⟨z, rfl⟩ := k.closed y c o' made'
  have := k.trans
  rw [k.cmp_wrap] at made made'
  cases made
  cases made'
  exact ⟨_, k.cmp_wrap x z, Std.TransCmp.isLE_trans le le'⟩

theorem AtMost.refl_left (le : AtMost a b) : AtMost a a := by
  obtain ⟨o, made, _⟩ := le
  obtain ⟨k, x, y, rfl, rfl⟩ := exists_kind made
  have := k.trans
  exact ⟨_, k.cmp_wrap x x, Std.ReflCmp.isLE_rfl⟩

theorem atMost_of_lt (less : scalarCmp a b = some .lt) : AtMost a b := ⟨_, less, rfl⟩

theorem atMost_of_eq (same : scalarCmp a b = some .eq) : AtMost a b := ⟨_, same, rfl⟩

theorem atMost_of_gt (more : scalarCmp a b = some .gt) : AtMost b a := ⟨_, scalarCmp_swap more, rfl⟩

theorem AtMost.not_gt (le : AtMost a b) : scalarCmp a b ≠ some .gt := by
  obtain ⟨o, made, le⟩ := le
  intro more
  rw [made] at more
  cases more
  cases le

theorem AtMost.not_lt (le : AtMost a b) : scalarCmp b a ≠ some .lt := by
  intro less
  exact le.not_gt (scalarCmp_swap less)

theorem AtMost.antisymm (first : AtMost a b) (second : AtMost b a) : scalarCmp a b = some .eq := by
  obtain ⟨o, made, le⟩ := first
  cases o with
  | eq => exact made
  | lt => exact absurd made second.not_lt
  | gt => cases le

/-- Below a value that is at most a third. -/
theorem AtMost.lt_of_lt (le : AtMost b c) (less : scalarCmp a b = some .lt) : scalarCmp a c = some .lt := by
  obtain ⟨o, made, le'⟩ := (atMost_of_lt less).trans le
  cases o with
  | lt => exact made
  | gt => cases le'
  | eq =>
    have back : AtMost c a := ⟨_, scalarCmp_swap made, rfl⟩
    exact absurd less (le.trans back).not_lt

/-- Above a value that is at least a third. -/
theorem AtMost.gt_of_gt (le : AtMost c b) (more : scalarCmp a b = some .gt) : scalarCmp a c = some .gt := by
  obtain ⟨o, made, le'⟩ := le.trans (atMost_of_gt more)
  cases o with
  | lt => exact scalarCmp_swap made
  | gt => cases le'
  | eq =>
    have back : AtMost a c := ⟨_, scalarCmp_swap made, rfl⟩
    exact absurd more (back.trans le).not_gt

/-- What is SQL-equal is on one slot of the order. -/
theorem scalarCmp_of_sqlEq (same : scalarSqlEq a b = some true) : scalarCmp a b = some .eq := by
  cases a <;> cases b <;> simp_all [scalarSqlEq, scalarCmp, floatTotalCmp]

/-- Save for NaN, one slot of the order is one SQL value. -/
theorem sqlEq_of_scalarCmp (same : scalarCmp a b = some .eq) (number : ∀ f, b = .float64 f → f.isNaN = false) :
    scalarSqlEq a b = some true := by
  cases a <;> cases b <;> simp_all [scalarSqlEq, scalarCmp]
  case float64 x y =>
    unfold floatTotalCmp at same
    cases nan : x.isNaN <;> simp_all

end Laws

end Adelie
