import Adelie.Types.Exact

namespace Adelie

/-- The conversions among exact numbers and from days to instants. -/
def ExactScalar : Value → ScalarType → Prop
  | .null, _ => True
  | .int64 _, .int64 | .int64 _, .uint64 | .int64 _, .decimal _ => True
  | .uint64 _, .int64 | .uint64 _, .uint64 | .uint64 _, .decimal _ => True
  | .decimal _, .int64 | .decimal _, .uint64 | .decimal _, .decimal _ => True
  | .date _, .timestamp => True
  | _, _ => False

/-- The same for LISTs, NULL elements among them. -/
def ExactValue : Value → DataType → Prop
  | v, .scalar t => ExactScalar v t
  | .null, .list _ => True
  | .list items, .list t => ∀ v ∈ items, ExactScalar v t
  | _, .list _ => False

section Representable

variable {d e : Decimal} {t : DecimalType} {n m : Int}

theorem toI64?_of_val {n : Int} (m : I64) (same : m.val = n) : toI64? n = some m := by
  subst same
  rw [toI64?, dif_pos m.property]

theorem toU64?_of_val {n : Int} (m : U64) (same : (m.val : Int) = n) : toU64? n = some m := by
  have small := m.property
  subst same
  rw [toU64?, dif_pos (by omega)]
  exact congrArg some (Subtype.ext (Int.toNat_natCast _))

/-- Any decimal of the column's type is built from its own digits. -/
theorem new_of_typed (scale : e.scale = t.scale) : Decimal.new e.unscaled t.scale = .ok e := by
  rw [← scale, Decimal.new, dif_pos e.scale_le, dif_pos e.small]

theorem decimalToInt_of_number (same : (d.unscaled / 10 ^ d.scale : ℚ) = m) : decimalToInt d = some m := by
  have power : (10 : ℚ) ^ d.scale ≠ 0 := by positivity
  have whole : d.unscaled = m * 10 ^ d.scale := by
    rw [div_eq_iff power] at same
    exact_mod_cast same
  have positive : (10 : Int) ^ d.scale ≠ 0 := by positivity
  have divides : d.unscaled.emod (10 ^ d.scale) = 0 := by
    rw [whole]
    exact Int.mul_emod_left m _
  have quotient : d.unscaled.ediv (10 ^ d.scale) = m := by
    rw [whole]
    exact Int.mul_ediv_cancel m positive
  rw [decimalToInt, if_neg (not_not.mpr divides), quotient]

/-- A product past an `i128` has more digits than any decimal. -/
theorem intToDecimal_of_number (scale : e.scale = t.scale) (small : e.unscaled.natAbs < 10 ^ t.precision)
    (same : (n : ℚ) = e.unscaled / 10 ^ e.scale) : intToDecimal n t = some (.decimal e) := by
  have power : (10 : ℚ) ^ e.scale ≠ 0 := by positivity
  have product : n * 10 ^ t.scale = e.unscaled := by
    rw [eq_div_iff power, scale] at same
    exact_mod_cast same
  have bound := e.small
  unfold intToDecimal
  rw [product, if_pos (by omega), if_neg (by omega), new_of_typed scale]
  rfl

theorem rescale_of_number (scale : e.scale = t.scale) (small : e.unscaled.natAbs < 10 ^ t.precision)
    (same : (d.unscaled / 10 ^ d.scale : ℚ) = e.unscaled / 10 ^ e.scale) : rescale d t = some e := by
  have power : (10 : ℚ) ^ d.scale ≠ 0 := by positivity
  have power' : (10 : ℚ) ^ e.scale ≠ 0 := by positivity
  have bound := e.small
  have crossed : d.unscaled * 10 ^ t.scale = e.unscaled * 10 ^ d.scale := by
    rw [div_eq_div_iff power power', scale] at same
    exact_mod_cast same
  have kept : (if 10 ^ t.precision ≤ e.unscaled.natAbs then none else (Decimal.new e.unscaled t.scale).toOption) = some e := by
    rw [if_neg (by omega), new_of_typed scale]
    rfl
  unfold rescale
  by_cases up : d.scale ≤ t.scale
  · have product : d.unscaled * 10 ^ (t.scale - d.scale) = e.unscaled := by
      have positive : (10 : Int) ^ d.scale ≠ 0 := by positivity
      apply mul_right_cancel₀ positive
      rw [← crossed, mul_assoc, ← pow_add, Nat.sub_add_cancel up]
    rw [if_pos up, product, if_pos (by omega)]
    exact kept
  · have whole : d.unscaled = e.unscaled * 10 ^ (d.scale - t.scale) := by
      have positive : (10 : Int) ^ t.scale ≠ 0 := by positivity
      apply mul_right_cancel₀ positive
      rw [crossed, mul_assoc, ← pow_add, Nat.sub_add_cancel (by omega)]
    have positive : (10 : Int) ^ (d.scale - t.scale) ≠ 0 := by positivity
    have divides : d.unscaled.emod (10 ^ (d.scale - t.scale)) = 0 := by
      rw [whole]
      exact Int.mul_emod_left _ _
    have quotient : d.unscaled.ediv (10 ^ (d.scale - t.scale)) = e.unscaled := by
      rw [whole]
      exact Int.mul_ediv_cancel _ positive
    rw [if_neg up, if_neg (not_not.mpr divides), quotient]
    exact kept

end Representable

section Coerces

variable {v w : Value}

/-- One number in two values is the number of both. -/
theorem SameScalar.number {q : ℚ} (same : SameScalar v w) (number : v.number? = some q) : w.number? = some q := by
  rcases same with rfl | ⟨r, left, right⟩ | ⟨t, left, right⟩
  · exact number
  · rw [number] at left
    rw [right, ← left]
  · cases v <;> first | (simp [Value.instant?] at left; done) | simp [Value.number?] at number

theorem SameScalar.instant {t : Int} (same : SameScalar v w) (instant : v.instant? = some t) : w.instant? = some t := by
  rcases same with rfl | ⟨r, left, right⟩ | ⟨u, left, right⟩
  · exact instant
  · cases v <;> first | (simp [Value.instant?] at instant; done) | simp [Value.number?] at left
  · rw [instant] at left
    rw [right, ← left]

/-- A number is stored wherever the column's type has that number. -/
theorem coerceScalar_of_same {t : ScalarType} (exact_ : ExactScalar v t) (typed : w.HasScalarType t)
    (same : SameScalar v w) : (coerceScalar v t).isSome = true := by
  cases v with
  | null => cases t <;> rfl
  | int64 n =>
    have number := same.number (q := n.val) rfl
    cases t <;> first | exact exact_.elim | skip
    case int64 => rfl
    case uint64 =>
      cases w <;> first | exact typed.elim | cases number | skip
      rename_i m
      have value : (m.val : Int) = n.val := by
        simp only [Value.number?, Option.some.injEq] at number
        exact_mod_cast number
      rw [coerceScalar, toU64?_of_val m value]
      rfl
    case decimal t =>
      cases w <;> first | exact typed.elim | cases number | skip
      rename_i e
      simp only [Value.number?, Option.some.injEq] at number
      rw [coerceScalar, intToDecimal_of_number typed.1 typed.2 number.symm]
      rfl
  | uint64 n =>
    have number := same.number (q := n.val) rfl
    cases t <;> first | exact exact_.elim | skip
    case uint64 => rfl
    case int64 =>
      cases w <;> first | exact typed.elim | cases number | skip
      rename_i m
      have value : m.val = n.val := by
        simp only [Value.number?, Option.some.injEq] at number
        exact_mod_cast number
      rw [coerceScalar, toI64?_of_val m value]
      rfl
    case decimal t =>
      cases w <;> first | exact typed.elim | cases number | skip
      rename_i e
      simp only [Value.number?, Option.some.injEq] at number
      have whole : ((n.val : Int) : ℚ) = e.unscaled / 10 ^ e.scale := by
        rw [number]
        simp
      rw [coerceScalar, intToDecimal_of_number typed.1 typed.2 whole]
      rfl
  | decimal d =>
    have number := same.number (q := d.unscaled / 10 ^ d.scale) rfl
    cases t <;> first | exact exact_.elim | skip
    case int64 =>
      cases w <;> first | exact typed.elim | cases number | skip
      rename_i m
      simp only [Value.number?, Option.some.injEq] at number
      rw [coerceScalar, decimalToInt_of_number number.symm, Option.bind_some, toI64?_of_val m rfl]
      rfl
    case uint64 =>
      cases w <;> first | exact typed.elim | cases number | skip
      rename_i m
      simp only [Value.number?, Option.some.injEq] at number
      have whole : (d.unscaled / 10 ^ d.scale : ℚ) = ((m.val : Int) : ℚ) := by
        rw [← number]
        simp
      rw [coerceScalar, decimalToInt_of_number whole, Option.bind_some, toU64?_of_val m rfl]
      rfl
    case decimal t =>
      cases w <;> first | exact typed.elim | cases number | skip
      rename_i e
      simp only [Value.number?, Option.some.injEq] at number
      rw [coerceScalar, rescale_of_number typed.1 typed.2 number.symm]
      rfl
  | date days =>
    cases t <;> first | exact exact_.elim | skip
    have instant := same.instant (t := days.val * 86400000000000) rfl
    cases w <;> first | exact typed.elim | cases instant | skip
    rename_i ns
    simp only [Value.instant?, Option.some.injEq] at instant
    rw [coerceScalar, dateToTimestamp, toI64?_of_val ns instant]
    rfl
  | _ => cases t <;> exact exact_.elim

theorem coerceScalar_isSome_iff {t : ScalarType} (exact_ : ExactScalar v t) :
    (coerceScalar v t).isSome = true ↔ ∃ w, w.HasScalarType t ∧ SameScalar v w := by
  constructor
  · intro kept
    obtain ⟨w, made⟩ := Option.isSome_iff_exists.mp kept
    exact ⟨w, coerceScalar_type made, coerceScalar_same made⟩
  · rintro ⟨w, typed, same⟩
    exact coerceScalar_of_same exact_ typed same

theorem mapM_isSome {α β : Type} {f : α → Option β} {l : List α} (each : ∀ a ∈ l, (f a).isSome = true) :
    (l.mapM f).isSome = true := by
  induction l with
  | nil => rfl
  | cons a rest ih =>
    rw [List.forall_mem_cons] at each
    obtain ⟨b, head⟩ := Option.isSome_iff_exists.mp each.1
    obtain ⟨bs, tail⟩ := Option.isSome_iff_exists.mp (ih each.2)
    rw [List.mapM_cons, head, tail]
    rfl

theorem coerce_isSome_iff {t : DataType} (exact_ : ExactValue v t) :
    (coerce v t).isSome = true ↔ ∃ w, w.HasType t ∧ SameValue v w := by
  constructor
  · intro kept
    obtain ⟨w, made⟩ := Option.isSome_iff_exists.mp kept
    exact ⟨w, coerce_type made, coerce_same made⟩
  · rintro ⟨w, typed, same⟩
    cases t with
    | scalar t =>
      have scalar : SameScalar v w := by
        rcases same with same | ⟨items, items', rfl, rfl, _⟩
        · exact same
        · cases t <;> exact typed.elim
      exact coerceScalar_of_same exact_ typed scalar
    | list t =>
      cases v with
      | null => rfl
      | list items =>
        rcases same with (rfl | ⟨_, wrong, _⟩ | ⟨_, wrong, _⟩) | ⟨_, items', listed, rfl, each⟩
        · rw [coerce_self typed]
          rfl
        · cases wrong
        · cases wrong
        · cases listed
          rw [coerce, Option.isSome_map]
          apply mapM_isSome
          intro a member
          obtain ⟨b, inside, equal⟩ := List.Forall₂.source each.flip member
          exact coerceScalar_of_same (exact_ a member) (typed b inside) equal
      | _ => exact exact_.elim

end Coerces

/-- What a column takes is of its type, is the value given and is taken again as it is; an exact number, a day or a list
    of them is taken exactly where the type has that value. -/
theorem coerce_lossless (v : Value) (t : DataType) :
    (∀ w, coerce v t = some w → w.HasType t ∧ SameValue v w ∧ coerce w t = some w) ∧
    (ExactValue v t → ((coerce v t).isSome = true ↔ ∃ w, w.HasType t ∧ SameValue v w)) :=
  ⟨fun _ made => ⟨coerce_type made, coerce_same made, coerce_self (coerce_type made)⟩, coerce_isSome_iff⟩

end Adelie
