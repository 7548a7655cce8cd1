import Adelie.Types.Fit

namespace Adelie

namespace Float64

/-- The number a finite float stands for. -/
def rat? (f : Float64) : Option ℚ :=
  if f.isFinite then
    let magnitude : ℚ := f.significand * 2 ^ ((f.scale : ℤ) - 1075)
    some (if f.negative then -magnitude else magnitude)
  else none

theorem rat?_of_toInt? {f : Float64} {n : Int} (whole : f.toInt? = some n) : f.rat? = some (n : ℚ) := by
  unfold toInt? at whole
  unfold rat?
  by_cases finite : f.isFinite = true
  · simp only [finite, if_true, Option.map_eq_some_iff] at whole ⊢
    obtain ⟨magnitude, found, rfl⟩ := whole
    have same : (f.significand : ℚ) * 2 ^ ((f.scale : ℤ) - 1075) = (magnitude : ℚ) := by
      by_cases large : 1075 ≤ f.scale
      · rw [if_pos large] at found
        have power : (2 : ℚ) ^ ((f.scale : ℤ) - 1075) = 2 ^ (f.scale - 1075) := by
          rw [← zpow_natCast, Nat.cast_sub large]
          rfl
        rw [power, ← Option.some.inj found]
        push_cast
        ring
      · rw [if_neg large] at found
        split at found
        · rename_i divides
          obtain ⟨k, split_⟩ := Nat.dvd_of_mod_eq_zero divides
          have positive : 0 < 2 ^ (1075 - f.scale) := Nat.pow_pos (by decide)
          have quotient : magnitude = k := by
            rw [← Option.some.inj found, split_, Nat.mul_div_cancel_left k positive]
          have power : (2 : ℚ) ^ ((f.scale : ℤ) - 1075) = (2 ^ (1075 - f.scale))⁻¹ := by
            rw [← zpow_natCast, ← zpow_neg, Nat.cast_sub (by omega)]
            congr 1
            push_cast
            ring
          have nonzero : ((2 : ℚ) ^ (1075 - f.scale)) ≠ 0 := by positivity
          rw [power, split_, quotient]
          push_cast
          field_simp
        · cases found
    rw [same]
    split <;> simp
  · simp [finite] at whole

/-- The parts of the float of a magnitude. -/
theorem ofNat_parts {below : Bool} {n : Nat} (pos : 0 < n) (small : n ≤ 2 ^ 53) :
    (ofNat below n).negative = below ∧ (ofNat below n).exponent = 1023 + n.log2 ∧
      (ofNat below n).fraction = n * 2 ^ 52 / 2 ^ n.log2 - 2 ^ 52 := by
  have lower : 2 ^ n.log2 ≤ n := Nat.log2_self_le (by omega)
  have upper : n < 2 ^ (n.log2 + 1) := Nat.lt_log2_self
  have log : n.log2 ≤ 53 := by
    by_contra large
    have : 2 ^ 54 ≤ 2 ^ n.log2 := Nat.pow_le_pow_right (by decide) (by omega)
    omega
  have least : 2 ^ 52 ≤ n * 2 ^ 52 / 2 ^ n.log2 := by
    rw [Nat.le_div_iff_mul_le (Nat.pow_pos (by decide)), Nat.mul_comm]
    exact Nat.mul_le_mul_right _ lower
  have most : n * 2 ^ 52 / 2 ^ n.log2 < 2 ^ 53 := by
    rw [Nat.div_lt_iff_lt_mul (Nat.pow_pos (by decide))]
    calc n * 2 ^ 52 < 2 ^ (n.log2 + 1) * 2 ^ 52 := Nat.mul_lt_mul_of_pos_right upper (by decide)
      _ = 2 ^ 53 * 2 ^ n.log2 := by rw [pow_succ]; ring
  generalize quotient : n * 2 ^ 52 / 2 ^ n.log2 = q at least most
  unfold ofNat negative exponent fraction magnitude
  have some_ : n ≠ 0 := by omega
  simp only [some_, if_false, quotient]
  cases below <;> simp only [if_true, Bool.false_eq_true, if_false, decide_eq_true_eq, decide_eq_false_iff_not] <;> omega

theorem rat?_ofNat {below : Bool} {n : Nat} (small : n ≤ 2 ^ 53) :
    (ofNat below n).rat? = some (if below then -(n : ℚ) else n) := by
  by_cases zero : n = 0
  · subst zero
    cases below <;> simp [ofNat, rat?, isFinite, exponent, magnitude, significand, fraction]
  · obtain ⟨sign, exp, frac⟩ := @ofNat_parts below n (by omega) small
    have log : n.log2 ≤ 53 := by
      by_contra large
      have : 2 ^ 54 ≤ 2 ^ n.log2 := Nat.pow_le_pow_right (by decide) (by omega)
      have := Nat.log2_self_le zero
      omega
    have lower : 2 ^ n.log2 ≤ n := Nat.log2_self_le zero
    have finite : (ofNat below n).isFinite = true := by
      unfold isFinite
      rw [exp]
      simp only [decide_eq_true_eq]
      omega
    have significand_ : (ofNat below n).significand = n * 2 ^ 52 / 2 ^ n.log2 := by
      have least : 2 ^ 52 ≤ n * 2 ^ 52 / 2 ^ n.log2 := by
        rw [Nat.le_div_iff_mul_le (Nat.pow_pos (by decide)), Nat.mul_comm]
        exact Nat.mul_le_mul_right _ lower
      unfold significand
      rw [exp, frac, if_neg (by omega)]
      omega
    have scale_ : (ofNat below n).scale = 1023 + n.log2 := by
      unfold scale
      rw [exp, if_neg (by omega)]
    have divides : 2 ^ n.log2 ∣ n * 2 ^ 52 := by
      by_cases top : n.log2 ≤ 52
      · exact Dvd.dvd.mul_left (pow_dvd_pow 2 top) n
      · -- only `2 ^ 53` itself is that long
        have last : n = 2 ^ 53 := by
          have : n.log2 = 53 := by omega
          rw [this] at lower
          omega
        rw [last]
        decide
    have value : ((n * 2 ^ 52 / 2 ^ n.log2 : Nat) : ℚ) * 2 ^ (((1023 + n.log2 : Nat) : ℤ) - 1075) = n := by
      rw [Nat.cast_div divides (by positivity)]
      have power : (2 : ℚ) ^ (((1023 + n.log2 : Nat) : ℤ) - 1075) = 2 ^ n.log2 / 2 ^ 52 := by
        rw [← zpow_natCast, ← zpow_natCast, ← zpow_sub₀ (by norm_num)]
        congr 1
        push_cast
        ring
      rw [power]
      push_cast
      field_simp
      norm_num
    unfold rat?
    rw [if_pos finite, significand_, scale_, sign]
    simp only [value]

end Float64

/-- The number a numeric value stands for. -/
def Value.number? : Value → Option ℚ
  | .int64 n => some n.val
  | .uint64 n => some n.val
  | .float64 f => f.rat?
  | .decimal d => some (d.unscaled / 10 ^ d.scale)
  | _ => none

/-- The nanoseconds since the epoch at which a day or an instant begins. -/
def Value.instant? : Value → Option Int
  | .timestamp ns => some ns.val
  | .date days => some (days.val * 86400000000000)
  | _ => none

/-- Equal, or the same number, or the same point in time. -/
def SameScalar (v w : Value) : Prop :=
  v = w ∨ (∃ q, v.number? = some q ∧ w.number? = some q) ∨ ∃ t, v.instant? = some t ∧ w.instant? = some t

/-- The same value, list by list. -/
def SameValue (v w : Value) : Prop :=
  SameScalar v w ∨ ∃ items items', v = .list items ∧ w = .list items' ∧ List.Forall₂ SameScalar items items'

section Coerced

theorem toI64?_val {n : Int} {m : I64} (made : toI64? n = some m) : m.val = n := by
  unfold toI64? at made
  split at made
  · cases made
    rfl
  · cases made

theorem toU64?_val {n : Int} {m : U64} (made : toU64? n = some m) : (m.val : Int) = n := by
  unfold toU64? at made
  split at made
  · cases made
    simp only
    omega
  · cases made

theorem rescale_number {d r : Decimal} {t : DecimalType} (made : rescale d t = some r) :
    (r.unscaled / 10 ^ r.scale : ℚ) = d.unscaled / 10 ^ d.scale := by
  unfold rescale at made
  obtain ⟨n, found, made⟩ := Option.bind_eq_some_iff.mp made
  split at made
  · cases made
  · obtain ⟨unscaled, scale⟩ := Decimal.new_eq made
    rw [unscaled, scale]
    split at found
    · rename_i up
      dsimp only at found
      split at found
      · cases found
        have power : (10 : ℚ) ^ t.scale = 10 ^ (t.scale - d.scale) * 10 ^ d.scale := by
          rw [← pow_add]
          congr 1
          omega
        rw [power]
        push_cast
        field_simp
      · cases found
    · rename_i down
      split at found
      · cases found
      · rename_i exact_
        cases found
        have divides : (10 ^ (d.scale - t.scale) : Int) ∣ d.unscaled := Int.dvd_of_emod_eq_zero (not_not.mp exact_)
        have power : (10 : ℚ) ^ d.scale = 10 ^ (d.scale - t.scale) * 10 ^ t.scale := by
          rw [← pow_add]
          congr 1
          omega
        have quotient : ((d.unscaled.ediv (10 ^ (d.scale - t.scale)) : Int) : ℚ) =
            d.unscaled / 10 ^ (d.scale - t.scale) := by
          change ((d.unscaled / 10 ^ (d.scale - t.scale) : Int) : ℚ) = _
          rw [Int.cast_div divides (by positivity)]
          push_cast
          rfl
        rw [quotient, power]
        field_simp

theorem intToDecimal_number {n : Int} {t : DecimalType} {v : Value} (made : intToDecimal n t = some v) :
    v.number? = some (n : ℚ) := by
  unfold intToDecimal at made
  dsimp only at made
  split at made
  · split at made
    · cases made
    · obtain ⟨d, built, rfl⟩ := Option.map_eq_some_iff.mp made
      obtain ⟨unscaled, scale⟩ := Decimal.new_eq built
      simp only [Value.number?, unscaled, scale]
      push_cast
      field_simp
  · cases made

theorem decimalToInt_number {d : Decimal} {n : Int} (made : decimalToInt d = some n) :
    (d.unscaled / 10 ^ d.scale : ℚ) = n := by
  unfold decimalToInt at made
  split at made
  · cases made
  · rename_i exact_
    cases made
    have divides : (10 ^ d.scale : Int) ∣ d.unscaled := Int.dvd_of_emod_eq_zero (not_not.mp exact_)
    change _ = ((d.unscaled / 10 ^ d.scale : Int) : ℚ)
    rw [Int.cast_div divides (by positivity)]
    push_cast
    rfl

theorem coerceScalar_same {v w : Value} {t : ScalarType} (made : coerceScalar v t = some w) : SameScalar v w := by
  have number {q : ℚ} (left : v.number? = some q) (right : w.number? = some q) : SameScalar v w :=
    .inr (.inl ⟨q, left, right⟩)
  unfold coerceScalar at made
  split at made
  case h_12 d t =>
    obtain ⟨r, scaled, rfl⟩ := Option.map_eq_some_iff.mp made
    exact number rfl (congrArg some (rescale_number scaled))
  case h_13 n =>
    obtain ⟨m, fits, rfl⟩ := Option.map_eq_some_iff.mp made
    refine number rfl (congrArg some ?_)
    rw [← toU64?_val fits]
    simp
  case h_14 n =>
    obtain ⟨m, fits, rfl⟩ := Option.map_eq_some_iff.mp made
    refine number rfl (congrArg some ?_)
    rw [toI64?_val fits]
    simp
  case h_15 n =>
    split at made
    · rename_i small
      cases made
      refine number rfl ((Float64.rat?_ofNat small).trans (congrArg some ?_))
      by_cases below : n.val < 0
      · simp [below, Nat.cast_natAbs, abs_of_neg]
      · simp [below, Nat.cast_natAbs, abs_of_nonneg (not_lt.mp below)]
    · cases made
  case h_16 n =>
    split at made
    · rename_i small
      cases made
      refine number rfl ((Float64.rat?_ofNat small).trans ?_)
      simp
    · cases made
  case h_17 n t => exact number rfl (intToDecimal_number made)
  case h_18 n t =>
    refine number rfl ((intToDecimal_number made).trans ?_)
    simp
  case h_19 f =>
    obtain ⟨m, fits, rfl⟩ := Option.map_eq_some_iff.mp made
    obtain ⟨n, whole, fits⟩ := Option.bind_eq_some_iff.mp fits
    refine number (Float64.rat?_of_toInt? whole) (congrArg some ?_)
    rw [toI64?_val fits]
  case h_20 f =>
    obtain ⟨m, fits, rfl⟩ := Option.map_eq_some_iff.mp made
    obtain ⟨n, whole, fits⟩ := Option.bind_eq_some_iff.mp fits
    refine number (Float64.rat?_of_toInt? whole) (congrArg some ?_)
    rw [← toU64?_val fits]
    simp
  case h_21 d =>
    obtain ⟨m, fits, rfl⟩ := Option.map_eq_some_iff.mp made
    obtain ⟨n, whole, fits⟩ := Option.bind_eq_some_iff.mp fits
    refine number (congrArg some (decimalToInt_number whole)) (congrArg some ?_)
    rw [toI64?_val fits]
  case h_22 d =>
    obtain ⟨m, fits, rfl⟩ := Option.map_eq_some_iff.mp made
    obtain ⟨n, whole, fits⟩ := Option.bind_eq_some_iff.mp fits
    refine number (congrArg some (decimalToInt_number whole)) (congrArg some ?_)
    rw [← toU64?_val fits]
    simp
  case h_23 d =>
    obtain ⟨m, fits, rfl⟩ := Option.map_eq_some_iff.mp made
    exact .inr (.inr ⟨_, rfl, congrArg some (toI64?_val fits)⟩)
  case h_24 => cases made
  all_goals
    cases made
    exact .inl rfl

/-- What a column takes is the value it was given. -/
theorem coerce_same {v w : Value} {t : DataType} (made : coerce v t = some w) : SameValue v w := by
  unfold coerce at made
  split at made
  · exact .inl (coerceScalar_same made)
  · cases made
    exact .inl (.inl rfl)
  · obtain ⟨items, each, rfl⟩ := Option.map_eq_some_iff.mp made
    exact .inr ⟨_, _, rfl, rfl, (forall₂_of_mapM_option each).imp fun _ _ => coerceScalar_same⟩
  · cases made

end Coerced

end Adelie
