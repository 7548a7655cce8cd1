import Adelie.Lib.Traverse
import Adelie.Types.Value

namespace Adelie

def toI64? (n : Int) : Option I64 :=
  if h : -2 ^ (64 - 1) ≤ n ∧ n < 2 ^ (64 - 1) then some ⟨n, h⟩ else none

def toU64? (n : Int) : Option U64 :=
  if h : 0 ≤ n ∧ n < 2 ^ 64 then some ⟨n.toNat, by omega⟩ else none

/-- Rescale to the column's scale: exact only, and within its precision. -/
def rescale (d : Decimal) (t : DecimalType) : Option Decimal :=
  let rescaled :=
    if d.scale ≤ t.scale then
      let n := d.unscaled * 10 ^ (t.scale - d.scale)
      -- `checked_mul` on i128
      if -2 ^ 127 ≤ n ∧ n < 2 ^ 127 then some n else none
    else if d.unscaled.emod (10 ^ (d.scale - t.scale)) ≠ 0 then none
    else some (d.unscaled.ediv (10 ^ (d.scale - t.scale)))
  rescaled.bind fun n =>
    if 10 ^ t.precision ≤ n.natAbs then none else (Decimal.new n t.scale).toOption

def intToDecimal (n : Int) (t : DecimalType) : Option Value :=
  let unscaled := n * 10 ^ t.scale
  if -2 ^ 127 ≤ unscaled ∧ unscaled < 2 ^ 127 then
    if 10 ^ t.precision ≤ unscaled.natAbs then none
    else (Decimal.new unscaled t.scale).toOption.map .decimal
  else none

def decimalToInt (d : Decimal) : Option Int :=
  if d.unscaled.emod (10 ^ d.scale) ≠ 0 then none else some (d.unscaled.ediv (10 ^ d.scale))

def dateToTimestamp (days : I32) : Option Value :=
  (toI64? (days.val * 86400000000000)).map .timestamp

/-- `coerce` against a type that is not a LIST. -/
def coerceScalar : Value → ScalarType → Option Value
  | .null, _ => some .null
  | .bool b, .bool => some (.bool b)
  | .int64 n, .int64 => some (.int64 n)
  | .uint64 n, .uint64 => some (.uint64 n)
  | .float64 f, .float64 => some (.float64 f)
  | .string s, .string => some (.string s)
  | .bytes b, .bytes => some (.bytes b)
  | .timestamp t, .timestamp => some (.timestamp t)
  | .date d, .date => some (.date d)
  | .uuid u, .uuid => some (.uuid u)
  | .ip i, .ip => some (.ip i)
  | .decimal d, .decimal t => (rescale d t).map .decimal
  | .int64 n, .uint64 => (toU64? n.val).map .uint64
  | .uint64 n, .int64 => (toI64? n.val).map .int64
  | .int64 n, .float64 =>
    if n.val.natAbs ≤ 2 ^ 53 then some (.float64 (.ofNat (n.val < 0) n.val.natAbs)) else none
  | .uint64 n, .float64 => if n.val ≤ 2 ^ 53 then some (.float64 (.ofNat false n.val)) else none
  | .int64 n, .decimal t => intToDecimal n.val t
  | .uint64 n, .decimal t => intToDecimal n.val t
  | .float64 f, .int64 => (f.toInt?.bind toI64?).map .int64
  | .float64 f, .uint64 => (f.toInt?.bind toU64?).map .uint64
  | .decimal d, .int64 => ((decimalToInt d).bind toI64?).map .int64
  | .decimal d, .uint64 => ((decimalToInt d).bind toU64?).map .uint64
  | .date d, .timestamp => dateToTimestamp d
  | _, _ => none

/-- `none` unless the value fits the type exactly and losslessly. A list nested in a list
    fits nothing, since no element type is a LIST. -/
def coerce : Value → DataType → Option Value
  | v, .scalar t => coerceScalar v t
  | .null, .list _ => some .null
  | .list items, .list t => (items.mapM (coerceScalar · t)).map .list
  | _, .list _ => none

theorem Decimal.new_eq {unscaled : Int} {scale : Nat} {d : Decimal}
    (built : (Decimal.new unscaled scale).toOption = some d) :
    d.unscaled = unscaled ∧ d.scale = scale := by
  unfold Decimal.new at built
  split at built
  · split at built
    · cases built
      exact ⟨rfl, rfl⟩
    · cases built
  · cases built

theorem rescale_type {d r : Decimal} {t : DecimalType} (fits : rescale d t = some r) :
    r.scale = t.scale ∧ r.unscaled.natAbs < 10 ^ t.precision := by
  unfold rescale at fits
  obtain ⟨n, _, kept⟩ := Option.bind_eq_some_iff.mp fits
  split at kept
  · cases kept
  · rename_i small
    obtain ⟨unscaled, scale⟩ := Decimal.new_eq kept
    exact ⟨scale, by rw [unscaled]; omega⟩

theorem intToDecimal_type {n : Int} {t : DecimalType} {v : Value} (fits : intToDecimal n t = some v) :
    v.HasScalarType (.decimal t) := by
  unfold intToDecimal at fits
  dsimp only at fits
  split at fits
  · split at fits
    · cases fits
    · rename_i small
      obtain ⟨d, built, rfl⟩ := Option.map_eq_some_iff.mp fits
      obtain ⟨unscaled, scale⟩ := Decimal.new_eq built
      exact ⟨scale, by rw [unscaled]; omega⟩
  · cases fits

/-- What `coerce` stores is of the column's exact type. -/
theorem coerceScalar_type {v w : Value} {t : ScalarType} (fits : coerceScalar v t = some w) :
    w.HasScalarType t := by
  cases t with
  | decimal t =>
    cases v <;> simp only [coerceScalar, reduceCtorEq, Option.some.injEq] at fits
    case null => subst fits; exact True.intro
    case int64 => exact intToDecimal_type fits
    case uint64 => exact intToDecimal_type fits
    case decimal =>
      obtain ⟨r, rescaled, rfl⟩ := Option.map_eq_some_iff.mp fits
      exact rescale_type rescaled
  | _ =>
    cases v <;> simp only [coerceScalar, dateToTimestamp, reduceCtorEq, Option.some.injEq] at fits <;>
      first
        | (split at fits
           · rw [Option.some.injEq] at fits
             rw [← fits]
             exact True.intro
           · cases fits)
        | (obtain ⟨_, _, same⟩ := Option.map_eq_some_iff.mp fits
           rw [← same]
           exact True.intro)
        | (rw [← fits]; exact True.intro)

theorem coerce_type {v w : Value} {t : DataType} (fits : coerce v t = some w) : w.HasType t := by
  cases t with
  | scalar t => exact coerceScalar_type fits
  | list t =>
    cases v <;> simp only [coerce, reduceCtorEq, Option.some.injEq] at fits
    case null => subst fits; exact True.intro
    case list items =>
      obtain ⟨kept, mapped, rfl⟩ := Option.map_eq_some_iff.mp fits
      intro w member
      obtain ⟨v, _, fit⟩ := List.Forall₂.source (forall₂_of_mapM_option mapped) member
      exact coerceScalar_type fit

theorem rescale_self {d : Decimal} {t : DecimalType} (scale : d.scale = t.scale)
    (small : d.unscaled.natAbs < 10 ^ t.precision) : rescale d t = some d := by
  have bound := d.small
  have wide : -2 ^ 127 ≤ d.unscaled ∧ d.unscaled < 2 ^ 127 := by omega
  have built : Decimal.new d.unscaled d.scale = .ok d := by
    rw [Decimal.new, dif_pos d.scale_le, dif_pos d.small]
  unfold rescale
  rw [if_pos (le_of_eq scale), ← scale, Nat.sub_self, pow_zero, mul_one, if_pos wide]
  show (if 10 ^ t.precision ≤ d.unscaled.natAbs then none else (Decimal.new d.unscaled d.scale).toOption) = some d
  rw [if_neg (Nat.not_le.mpr small), built]
  rfl

/-- A value already of the type is stored as it is. -/
theorem coerceScalar_self {v : Value} {t : ScalarType} (typed : v.HasScalarType t) : coerceScalar v t = some v := by
  cases v with
  | decimal d =>
    cases t <;> first | exact typed.elim | skip
    rw [coerceScalar, rescale_self typed.1 typed.2]
    rfl
  | _ => cases t <;> first | exact typed.elim | rfl

theorem coerce_self {v : Value} {t : DataType} (typed : v.HasType t) : coerce v t = some v := by
  cases t with
  | scalar t => exact coerceScalar_self typed
  | list t =>
    cases v <;> first | rfl | exact typed.elim | skip
    rename_i items
    have all : items.mapM (coerceScalar · t) = some items := by
      induction items with
      | nil => rfl
      | cons v rest ih =>
        have each := List.forall_mem_cons.mp typed
        rw [List.mapM_cons, coerceScalar_self each.1, ih each.2]
        rfl
    rw [coerce, all]
    rfl

end Adelie
