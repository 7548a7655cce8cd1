import Adelie.Exec.Cast
import Adelie.Lib.Nearest
import Adelie.Types.Lawful
import Adelie.Types.Lossless

namespace Adelie

namespace Cast

/-- The number an exact value stands for: a TIMESTAMP its nanoseconds, a DATE those of its midnight. -/
def quantity : Value → Option ℚ
  | .int64 n => some n.val
  | .uint64 n => some n.val
  | .decimal d => some d.number
  | .timestamp ns => some ns.val
  | .date days => some (days.val * nsPerDay)
  | _ => none

def exact : ScalarType → Bool
  | .int64 | .uint64 | .decimal _ | .timestamp | .date => true
  | _ => false

/-- To the target's own step, half away from zero; a DATE goes down to its midnight. -/
def rounded : ScalarType → ℚ → ℚ
  | .decimal t, x => nearest (x * 10 ^ t.scale) / 10 ^ t.scale
  | .date, x => ⌊x / nsPerDay⌋ * nsPerDay
  | _, x => nearest x

/-- A value of the target type that stands for the number, rounded. -/
def Represents (t : ScalarType) (x : ℚ) (w : Value) : Prop := w.HasScalarType t ∧ quantity w = some (rounded t x)

/-- What a cast makes of one cell. -/
inductive CastTo (t : ScalarType) : Value → Value → Prop where
  | null : CastTo t .null .null
  | number {v w : Value} {x : ℚ} : quantity v = some x → Represents t x w → CastTo t v w

section Quantity

variable {t : ScalarType} {v w : Value} {x : ℚ}

@[simp] theorem rounded_int64 (x : ℚ) : rounded .int64 x = nearest x := rfl
@[simp] theorem rounded_uint64 (x : ℚ) : rounded .uint64 x = nearest x := rfl
@[simp] theorem rounded_timestamp (x : ℚ) : rounded .timestamp x = nearest x := rfl
@[simp] theorem rounded_date (x : ℚ) : rounded .date x = ⌊x / nsPerDay⌋ * nsPerDay := rfl

theorem nsPerDay_ne : (nsPerDay : ℚ) ≠ 0 := by
  unfold nsPerDay
  norm_num

theorem quantity_inj (exact_ : exact t) (typed : v.HasScalarType t) (typed' : w.HasScalarType t)
    (same : quantity v = quantity w) : v = w := by
  cases t <;> cases exact_ <;> cases v <;> first | exact typed.elim | skip
  all_goals cases w <;> first | exact typed'.elim | skip
  all_goals first | rfl | cases same | skip
  all_goals rw [quantity, quantity, Option.some.injEq] at same
  case int64 a b => rw [Subtype.ext (by exact_mod_cast same : a.val = b.val)]
  case uint64 a b => rw [Subtype.ext (by exact_mod_cast same : a.val = b.val)]
  case timestamp a b => rw [Subtype.ext (by exact_mod_cast same : a.val = b.val)]
  case date a b =>
    have val : (a.val : ℚ) = b.val := mul_right_cancel₀ nsPerDay_ne same
    rw [Subtype.ext (by exact_mod_cast val : a.val = b.val)]
  case decimal a b =>
    have scales : a.scale = b.scale := typed.1.trans typed'.1.symm
    have power : (10 : ℚ) ^ b.scale ≠ 0 := by positivity
    rw [Decimal.number, Decimal.number, scales, div_left_inj' power] at same
    have val : a.unscaled = b.unscaled := by exact_mod_cast same
    cases a
    cases b
    cases val
    cases scales
    rfl

/-- A value of the type needs no rounding. -/
theorem rounded_self (typed : v.HasScalarType t) (number : quantity v = some x) : rounded t x = x := by
  cases v <;> cases number
  case int64 n =>
    cases t <;> first | exact typed.elim | skip
    rw [rounded_int64]
    exact_mod_cast nearest_intCast n.val
  case uint64 n =>
    cases t <;> first | exact typed.elim | skip
    rw [rounded_uint64]
    exact_mod_cast nearest_intCast n.val
  case timestamp n =>
    cases t <;> first | exact typed.elim | skip
    rw [rounded_timestamp]
    exact_mod_cast nearest_intCast n.val
  case date n =>
    cases t <;> first | exact typed.elim | skip
    rw [rounded, mul_div_assoc, div_self nsPerDay_ne, mul_one, Int.floor_intCast]
  case decimal d =>
    cases t <;> first | exact typed.elim | skip
    have power : (10 : ℚ) ^ d.scale ≠ 0 := by positivity
    rw [rounded, ← typed.1, Decimal.number, div_mul_cancel₀ _ power, nearest_intCast]

end Quantity

/-- An outcome that is the value standing for the rounded number, and nothing when there is none. -/
def Resolves (t : ScalarType) (x : ℚ) (result : Option Value) : Prop := ∀ w, result = some w ↔ Represents t x w

section Resolves

variable {x : ℚ} {n : Int}

/-- A type whose values are machine integers, each standing for a fixed multiple of itself. -/
theorem resolves_whole {α : Type} {t : ScalarType} {wrap : α → Value} {make : Int → Option α} {number : α → Int} {step : ℚ}
    (exists_ : ∀ n m, make n = some m ↔ number m = n) (typed : ∀ m, (wrap m).HasScalarType t)
    (covers : ∀ w, w.HasScalarType t → w = .null ∨ ∃ m, w = wrap m) (reads : ∀ m, quantity (wrap m) = some (number m * step))
    (some_ : step ≠ 0) (near : rounded t x = n * step) : Resolves t x ((make n).map wrap) := by
  intro w
  rw [Option.map_eq_some_iff]
  constructor
  · rintro ⟨m, made, rfl⟩
    exact ⟨typed m, by rw [reads, near, (exists_ n m).mp made]⟩
  · rintro ⟨typed', number'⟩
    rcases covers w typed' with rfl | ⟨m, rfl⟩
    · cases number'
    · rw [reads, near, Option.some.injEq, mul_left_inj' some_] at number'
      exact ⟨m, (exists_ n m).mpr (by exact_mod_cast number'), rfl⟩

theorem toI64?_eq_some {m : I64} : toI64? n = some m ↔ m.val = n := ⟨toI64?_val, toI64?_of_val m⟩

theorem toU64?_eq_some {m : U64} : toU64? n = some m ↔ (m.val : Int) = n := ⟨toU64?_val, toU64?_of_val m⟩

theorem toI32?_eq_some {m : I32} : toI32? n = some m ↔ m.val = n := by
  unfold toI32?
  constructor
  · intro made
    split at made
    · cases made
      rfl
    · cases made
  · rintro rfl
    exact dif_pos m.property

theorem resolves_int64 (near : nearest x = n) : Resolves .int64 x ((toI64? n).map .int64) := by
  refine resolves_whole (fun _ _ => toI64?_eq_some) (fun _ => ?_) ?_ ?_ one_ne_zero ?_
  · exact True.intro
  · intro w typed
    cases w <;> first | exact typed.elim | exact .inl rfl | exact .inr ⟨_, rfl⟩
  · intro m
    rw [quantity, mul_one]
  · rw [rounded_int64, near, mul_one]

theorem resolves_timestamp (near : nearest x = n) : Resolves .timestamp x ((toI64? n).map .timestamp) := by
  refine resolves_whole (fun _ _ => toI64?_eq_some) (fun _ => ?_) ?_ ?_ one_ne_zero ?_
  · exact True.intro
  · intro w typed
    cases w <;> first | exact typed.elim | exact .inl rfl | exact .inr ⟨_, rfl⟩
  · intro m
    rw [quantity, mul_one]
  · rw [rounded_timestamp, near, mul_one]

theorem resolves_uint64 (near : nearest x = n) : Resolves .uint64 x ((toU64? n).map .uint64) := by
  refine resolves_whole (fun _ _ => toU64?_eq_some) (fun _ => ?_) ?_ ?_ one_ne_zero ?_
  · exact True.intro
  · intro w typed
    cases w <;> first | exact typed.elim | exact .inl rfl | exact .inr ⟨_, rfl⟩
  · intro m
    rw [quantity, mul_one]
    rfl
  · rw [rounded_uint64, near, mul_one]

theorem resolves_date (down : ⌊x / nsPerDay⌋ = n) : Resolves .date x ((toI32? n).map .date) := by
  refine resolves_whole (fun _ _ => toI32?_eq_some) (fun _ => ?_) ?_ (fun _ => rfl) nsPerDay_ne ?_
  · exact True.intro
  · intro w typed
    cases w <;> first | exact typed.elim | exact .inl rfl | exact .inr ⟨_, rfl⟩
  · rw [rounded_date, down]

theorem withinPrecision_eq_some {t : DecimalType} {w : Value} : withinPrecision t n = some w ↔
    ∃ d : Decimal, w = .decimal d ∧ d.unscaled = n ∧ d.scale = t.scale ∧ n.natAbs < 10 ^ t.precision := by
  have wide : 10 ^ t.precision ≤ 10 ^ 38 := Nat.pow_le_pow_right (by decide) t.precision_le
  have scale : t.scale ≤ 38 := t.scale_le.trans t.precision_le
  unfold withinPrecision
  split
  · rename_i past
    constructor
    · intro made
      cases made
    · rintro ⟨d, _, _, _, small⟩
      omega
  · rename_i small
    have built : Decimal.new n t.scale = .ok ⟨n, t.scale, scale, by omega⟩ := by
      rw [Decimal.new, dif_pos scale, dif_pos (by omega)]
    rw [built]
    constructor
    · intro made
      cases made
      exact ⟨_, rfl, rfl, rfl, by omega⟩
    · rintro ⟨d, rfl, rfl, same, _⟩
      cases d
      cases same
      rfl

theorem resolves_decimal {t : DecimalType} (near : nearest (x * 10 ^ t.scale) = n) :
    Resolves (.decimal t) x (withinPrecision t n) := by
  have power : (10 : ℚ) ^ t.scale ≠ 0 := by positivity
  intro w
  rw [withinPrecision_eq_some]
  constructor
  · rintro ⟨d, rfl, rfl, scale, small⟩
    exact ⟨⟨scale, small⟩, by rw [quantity, rounded, near, Decimal.number, scale]⟩
  · rintro ⟨typed, number⟩
    cases w <;> first | exact typed.elim | skip
    · cases number
    · rename_i d
      rw [quantity, rounded, near, Decimal.number, typed.1, Option.some.injEq, div_left_inj' power] at number
      have val : d.unscaled = n := by exact_mod_cast number
      exact ⟨d, rfl, val, typed.1, val ▸ typed.2⟩

/-- A product past `i128` is past every precision. -/
theorem checkedI128_bind (t : DecimalType) : (checkedI128 n).bind (withinPrecision t) = withinPrecision t n := by
  have wide : 10 ^ t.precision ≤ 10 ^ 38 := Nat.pow_le_pow_right (by decide) t.precision_le
  unfold checkedI128
  split
  · rfl
  · rw [withinPrecision, if_pos (by omega)]
    rfl

theorem roundHalfAway_eq (unscaled : Int) (k : Nat) : roundHalfAway unscaled (10 ^ k) = nearest (unscaled / 10 ^ k) := by
  have near := nearest_intCast_div unscaled (Nat.pow_pos (n := k) (by decide : 0 < 10))
  push_cast at near
  rw [near]
  unfold roundHalfAway
  rw [Int.natAbs_pow]
  rfl

/-- The doubled remainder stays in a `u128`, and the corrected quotient in an `i128`. -/
theorem roundHalfAway_fits {unscaled : Int} {k : Nat} (small : unscaled.natAbs < 10 ^ 38) (le : k ≤ 38) :
    (unscaled.tmod (10 ^ k)).natAbs * 2 < 2 ^ 128 ∧ (roundHalfAway unscaled (10 ^ k)).natAbs < 2 ^ 127 := by
  have power : (10 ^ k : Int).natAbs ≤ 10 ^ 38 := by
    rw [Int.natAbs_pow]
    exact Nat.pow_le_pow_right (by decide) le
  have positive : 0 < (10 ^ k : Int).natAbs := by
    rw [Int.natAbs_pow]
    positivity
  have rest : (unscaled.tmod (10 ^ k)).natAbs < 10 ^ 38 := by
    rw [Int.natAbs_tmod]
    exact (Nat.mod_lt _ positive).trans_le power
  have whole : (unscaled.tdiv (10 ^ k)).natAbs ≤ unscaled.natAbs := by
    rw [Int.natAbs_tdiv]
    exact Nat.div_le_self _ _
  refine ⟨by omega, ?_⟩
  unfold roundHalfAway
  have sign : (unscaled.tmod (10 ^ k)).sign.natAbs ≤ 1 := by
    rw [Int.natAbs_sign]
    split <;> decide
  have sum := Int.natAbs_add_le (unscaled.tdiv (10 ^ k)) (unscaled.tmod (10 ^ k)).sign
  change (if _ then _ else _ : Int).natAbs < _
  split
  · exact lt_of_le_of_lt sum (by omega)
  · omega

end Resolves

section Rows

variable (P : Platform) {s t : ScalarType} {v w : Value} {x : ℚ}

theorem decimalRounded_eq (d : Decimal) : decimalRounded d = nearest d.number := by
  unfold decimalRounded Decimal.number
  split
  · rename_i zero
    rw [zero, pow_zero, div_one, nearest_intCast]
  · exact roundHalfAway_eq d.unscaled d.scale

theorem resolves_decimalToDecimal (d : Decimal) (t : DecimalType) : Resolves (.decimal t) d.number (decimalToDecimal d t) := by
  have ten : (10 : ℚ) ≠ 0 := by norm_num
  have power (k : Nat) : (10 : ℚ) ^ k ≠ 0 := pow_ne_zero k ten
  unfold decimalToDecimal Decimal.number
  rcases lt_trichotomy t.scale d.scale with less | same | more
  · rw [compare_lt_iff_lt.mpr less]
    apply resolves_decimal
    have whole : (d.unscaled : ℚ) / 10 ^ d.scale * 10 ^ t.scale = d.unscaled / 10 ^ (d.scale - t.scale) := by
      rw [pow_sub₀ 10 ten less.le]
      field_simp
    rw [whole, roundHalfAway_eq]
  · rw [compare_eq_iff_eq.mpr same]
    apply resolves_decimal
    rw [same, div_mul_cancel₀ _ (power _), nearest_intCast]
  · rw [compare_gt_iff_gt.mpr more, checkedI128_bind]
    apply resolves_decimal
    have whole : (d.unscaled : ℚ) / 10 ^ d.scale * 10 ^ t.scale = ((d.unscaled * 10 ^ (t.scale - d.scale) : Int) : ℚ) := by
      push_cast
      rw [pow_sub₀ 10 ten more.le]
      ring
    rw [whole, nearest_intCast]

theorem resolves_intToDecimal (n : Int) (t : DecimalType) : Resolves (.decimal t) n (intToDecimal n t) := by
  rw [intToDecimal, checkedI128_bind]
  apply resolves_decimal
  exact_mod_cast nearest_intCast (n * 10 ^ t.scale)

theorem floor_days (ns : Int) : ⌊(ns : ℚ) / nsPerDay⌋ = ns / nsPerDay := Rat.floor_intCast_div_natCast ns 86400000000000

/-- Instants on one side, numbers on the other. -/
def temporal : ScalarType → Bool
  | .timestamp | .date => true
  | _ => false

theorem castable_exact (source : exact s) (target : exact t) :
    castable (.scalar s) (.scalar t) = decide (temporal s = temporal t) := by
  cases s <;> cases source <;> cases t <;> cases target <;> first
    | rfl
    | simp [castable, isNumeric, temporal]

/-- Each cast between two of the types is one outcome or the cast's own error. -/
theorem castValue_resolves (source : exact s) (target : exact t) (kin : temporal s = temporal t) (differs : s ≠ t)
    (typed : v.HasScalarType s) (number : quantity v = some x) :
    ∃ result, castValue P v (.scalar s) (.scalar t) = okOrCastErr P v (.scalar t) result ∧ Resolves t x result := by
  cases v <;> cases number
  case int64 n =>
    cases s <;> first | exact typed.elim | skip
    cases t <;> first | exact Bool.noConfusion target | exact Bool.noConfusion kin | exact absurd rfl differs | skip
    · exact ⟨_, rfl, resolves_uint64 (nearest_intCast _)⟩
    · exact ⟨_, rfl, resolves_intToDecimal _ _⟩
  case uint64 n =>
    cases s <;> first | exact typed.elim | skip
    cases t <;> first | exact Bool.noConfusion target | exact Bool.noConfusion kin | exact absurd rfl differs | skip
    · exact ⟨(toI64? n.val).map .int64, by simp [castValue, isNumeric, castNumeric], resolves_int64 (nearest_natCast n.val)⟩
    · exact ⟨intToDecimal n.val _, by simp [castValue, isNumeric, castNumeric], resolves_intToDecimal n.val _⟩
  case decimal d =>
    cases s <;> first | exact typed.elim | skip
    cases t <;> first | exact Bool.noConfusion target | exact Bool.noConfusion kin | skip
    · exact ⟨_, rfl, resolves_int64 (decimalRounded_eq d).symm⟩
    · exact ⟨_, rfl, resolves_uint64 (decimalRounded_eq d).symm⟩
    · exact ⟨_, rfl, resolves_decimalToDecimal d _⟩
  case timestamp n =>
    cases s <;> first | exact typed.elim | skip
    cases t <;> first | exact Bool.noConfusion target | exact Bool.noConfusion kin | exact absurd rfl differs | skip
    exact ⟨_, rfl, resolves_date (floor_days n.val)⟩
  case date n =>
    cases s <;> first | exact typed.elim | skip
    cases t <;> first | exact Bool.noConfusion target | exact Bool.noConfusion kin | exact absurd rfl differs | skip
    exact ⟨_, rfl, resolves_timestamp (by exact_mod_cast nearest_intCast (n.val * nsPerDay))⟩

theorem quantity_of_typed (exact_ : exact t) (typed : v.HasScalarType t) : v = .null ∨ ∃ x, quantity v = some x := by
  cases t <;> cases exact_ <;> cases v <;> first
    | exact typed.elim
    | exact .inl rfl
    | exact .inr ⟨_, rfl⟩

theorem castErr_eq (number : quantity v = some x) (target : DataType) :
    ∃ text, P.toText v = some text ∧ castErr P v target = .cast text target := by
  cases v <;> cases number <;> exact ⟨_, by rw [Platform.toText], by rw [castErr, Platform.toText]⟩

/-- A row whose rounded number the target has no value for. -/
def Unrepresented (t : ScalarType) (v : Value) (e : ExecError) : Prop :=
  ∃ x text, quantity v = some x ∧ (∀ w, ¬ Represents t x w) ∧ P.toText v = some text ∧ e = .cast text (.scalar t)

theorem CastTo.typed (turns : CastTo t v w) : w.HasScalarType t := by
  cases turns with
  | null => exact True.intro
  | number _ stands => exact stands.1

theorem castRow_ok (source : exact s) (target : exact t) (kin : temporal s = temporal t) (differs : s ≠ t)
    (typed : v.HasScalarType s) :
    (∃ w, castRow P (.scalar s) (.scalar t) v = .ok w ∧ CastTo t v w) ∨
      ∃ e, castRow P (.scalar s) (.scalar t) v = .error e ∧ Unrepresented P t v e := by
  rcases quantity_of_typed source typed with rfl | ⟨x, number⟩
  · exact .inl ⟨.null, rfl, .null⟩
  · have some_ : v.isNull = false := by
      cases v <;> first | rfl | cases number
    obtain ⟨result, made, resolves⟩ := castValue_resolves P source target kin differs typed number
    unfold castRow
    rw [some_, made]
    cases result with
    | some w =>
      have stands := (resolves w).mp rfl
      refine .inl ⟨w, ?_, .number number stands⟩
      have kept : coerce w (.scalar t) = some w := coerce_self stands.1
      simp [okOrCastErr, bind, Except.bind, kept]
    | none =>
      obtain ⟨text, shown, refused⟩ := castErr_eq P number (.scalar t)
      refine .inr ⟨_, ?_, x, text, number, ?_, shown, rfl⟩
      · rw [← refused]
        rfl
      · intro w stands
        cases (resolves w).mpr stands

theorem CastTo.unique (target : exact t) {w' : Value} (turns : CastTo t v w) (turns_ : CastTo t v w') : w = w' := by
  cases turns with
  | null =>
    cases turns_ with
    | null => rfl
    | number number _ => cases number
  | number number stands =>
    cases turns_ with
    | null => cases number
    | number number' stands' =>
      rw [number] at number'
      cases number'
      exact quantity_inj target stands.1 stands'.1 (stands.2.trans stands'.2.symm)

theorem castTo_self (exact_ : exact t) (typed : v.HasScalarType t) : CastTo t v v := by
  rcases quantity_of_typed exact_ typed with rfl | ⟨x, number⟩
  · exact .null
  · exact .number number ⟨typed, by rw [number, rounded_self typed number]⟩

theorem castRow_eq_ok (source : exact s) (target : exact t) (kin : temporal s = temporal t) (differs : s ≠ t)
    (typed : v.HasScalarType s) : castRow P (.scalar s) (.scalar t) v = .ok w ↔ CastTo t v w := by
  rcases castRow_ok P source target kin differs typed with ⟨w', made, turns⟩ | ⟨e, refused, x, _, number, none_, _⟩
  · rw [made, Except.ok.injEq]
    constructor
    · rintro rfl
      exact turns
    · exact turns.unique target
  · rw [refused]
    constructor
    · intro made
      cases made
    · intro turns
      cases turns with
      | null => cases number
      | number number' stands =>
        rw [number] at number'
        cases number'
        exact absurd stands (none_ w)

/-- Columns of these types have no offsets. -/
theorem offsetsFit_exact (exact_ : exact t) {cells : List Value} (typed : ∀ v ∈ cells, v.HasScalarType t) :
    offsetsFit cells = true := by
  have bytes : (cells.map payload).sum = 0 := by
    apply List.sum_eq_zero
    intro n member
    obtain ⟨v, inside, rfl⟩ := List.mem_map.mp member
    have typed := typed v inside
    cases v <;> first | rfl | (cases t <;> first | exact typed.elim | cases exact_)
  unfold offsetsFit
  dsimp only
  rw [bytes, List.flatten_eq_nil_iff.mpr]
  · rfl
  · intro items member
    obtain ⟨v, inside, rfl⟩ := List.mem_map.mp member
    have typed := typed v inside
    cases v <;> first | rfl | (cases t <;> first | exact typed.elim | cases exact_)

theorem castRows_cons {built rest : List Value} (fit : offsetsFit (built ++ [w]) = true)
    (row : castRow P (.scalar s) (.scalar t) v = .ok w) : castRows P (.scalar s) (.scalar t) built (v :: rest) =
      castRows P (.scalar s) (.scalar t) (built ++ [w]) rest := by
  rw [castRows, row]
  change (do ensure (offsetsFit (built ++ [w])) _; _) = _
  rw [fit]
  rfl

theorem castRows_eq_ok (source : exact s) (target : exact t) (kin : temporal s = temporal t) (differs : s ≠ t)
    {cells built out : List Value} (typed : ∀ v ∈ cells, v.HasScalarType s) (made : ∀ w ∈ built, w.HasScalarType t) :
    castRows P (.scalar s) (.scalar t) built cells = .ok out ↔ ∃ tail, out = built ++ tail ∧ List.Forall₂ (CastTo t) cells tail := by
  induction cells generalizing built with
  | nil =>
    rw [castRows, Except.ok.injEq]
    constructor
    · rintro rfl
      exact ⟨[], (List.append_nil _).symm, .nil⟩
    · rintro ⟨_, rfl, none_⟩
      cases none_
      rw [List.append_nil]
  | cons v rest ih =>
    have each := List.forall_mem_cons.mp typed
    constructor
    · intro whole
      obtain ⟨cell, row, _⟩ := Except.bind_eq_ok.mp whole
      have turns := (castRow_eq_ok P source target kin differs each.1).mp row
      have more : ∀ w ∈ built ++ [cell], w.HasScalarType t := by
        simpa [or_imp, forall_and] using ⟨made, turns.typed⟩
      rw [castRows_cons P (offsetsFit_exact target more) row] at whole
      obtain ⟨tail, rfl, all⟩ := (ih each.2 more).mp whole
      exact ⟨cell :: tail, by rw [List.append_assoc, List.singleton_append], .cons turns all⟩
    · rintro ⟨_, rfl, all⟩
      cases all with
      | @cons _ cell _ tail turns all =>
        have more : ∀ w ∈ built ++ [cell], w.HasScalarType t := by
          simpa [or_imp, forall_and] using ⟨made, turns.typed⟩
        have row := (castRow_eq_ok P source target kin differs each.1).mpr turns
        rw [castRows_cons P (offsetsFit_exact target more) row]
        exact (ih each.2 more).mpr ⟨tail, by rw [List.append_assoc, List.singleton_append], all⟩

theorem castRows_error (source : exact s) (target : exact t) (kin : temporal s = temporal t) (differs : s ≠ t)
    {cells built : List Value} {e : ExecError} (typed : ∀ v ∈ cells, v.HasScalarType s) (made : ∀ w ∈ built, w.HasScalarType t)
    (refused : castRows P (.scalar s) (.scalar t) built cells = .error e) : ∃ v ∈ cells, Unrepresented P t v e := by
  induction cells generalizing built with
  | nil => cases refused
  | cons v rest ih =>
    have each := List.forall_mem_cons.mp typed
    rcases castRow_ok P source target kin differs each.1 with ⟨cell, row, turns⟩ | ⟨e', row, none_⟩
    · have more : ∀ w ∈ built ++ [cell], w.HasScalarType t := by
        simpa [or_imp, forall_and] using ⟨made, turns.typed⟩
      rw [castRows_cons P (offsetsFit_exact target more) row] at refused
      obtain ⟨v', member, none_⟩ := ih each.2 more refused
      exact ⟨v', List.mem_cons_of_mem _ member, none_⟩
    · rw [castRows, row] at refused
      cases refused
      exact ⟨v, List.mem_cons_self, none_⟩

theorem cast_eq_ok (source : exact s) (target : exact t) (kin : temporal s = temporal t) {cells : List Value}
    (typed : ∀ v ∈ cells, v.HasScalarType s) (out : Column) : cast P ⟨.scalar s, cells⟩ (.scalar t) = .ok out ↔
      out.ty = .scalar t ∧ List.Forall₂ (CastTo t) cells out.cells := by
  obtain ⟨ty, made⟩ := out
  by_cases same : s = t
  · subst same
    unfold cast
    rw [if_pos rfl, Except.ok.injEq, Column.mk.injEq]
    constructor
    · rintro ⟨rfl, rfl⟩
      refine ⟨rfl, List.forall₂_same.mpr fun v member => ?_⟩
      exact castTo_self source (typed v member)
    · rintro ⟨rfl, turned⟩
      refine ⟨rfl, ?_⟩
      change List.Forall₂ (CastTo s) cells made at turned
      induction turned with
      | nil => rfl
      | cons turns _ ih =>
        have each := List.forall_mem_cons.mp typed
        rw [(castTo_self source each.1).unique target turns, ih each.2]
  · have other : (DataType.scalar s) ≠ .scalar t := by
      rintro ⟨⟩
      exact same rfl
    unfold cast
    rw [if_neg other, castable_exact source target, decide_eq_true kin, if_pos rfl]
    constructor
    · intro whole
      obtain ⟨rows, read, wrapped⟩ := Except.bind_eq_ok.mp whole
      cases wrapped
      obtain ⟨tail, rfl, all⟩ := (castRows_eq_ok P source target kin same typed (by simp)).mp read
      exact ⟨rfl, all⟩
    · rintro ⟨rfl, all⟩
      rw [(castRows_eq_ok P source target kin same typed (by simp)).mpr ⟨made, rfl, all⟩]
      rfl

theorem cast_error (source : exact s) (target : exact t) (kin : temporal s = temporal t) {cells : List Value} {e : ExecError}
    (typed : ∀ v ∈ cells, v.HasScalarType s) (refused : cast P ⟨.scalar s, cells⟩ (.scalar t) = .error e) :
    ∃ v ∈ cells, Unrepresented P t v e := by
  unfold cast at refused
  split at refused
  · cases refused
  · rename_i other
    rw [castable_exact source target, decide_eq_true kin, if_pos rfl] at refused
    have none_ : ∀ w ∈ ([] : List Value), w.HasScalarType t := by simp
    apply castRows_error P source target kin (fun same => other (same ▸ rfl)) typed none_
    cases rows : castRows P (.scalar s) (.scalar t) [] cells with
    | ok out =>
      rw [rows] at refused
      cases refused
    | error e' =>
      rw [rows] at refused
      cases refused
      rfl

/-- Cells whose number was kept turn back into what they were. -/
theorem castTo_back {cells made : List Value} (typed : ∀ v ∈ cells, v.HasScalarType s)
    (turned : List.Forall₂ (CastTo t) cells made) (same : List.Forall₂ (fun v w => quantity v = quantity w) cells made) :
    List.Forall₂ (CastTo s) made cells := by
  induction turned with
  | nil => exact .nil
  | cons turns _ ih =>
    cases same with
    | cons same rest =>
      have each := List.forall_mem_cons.mp typed
      refine .cons ?_ (ih each.2 rest)
      cases turns with
      | null => exact .null
      | number number _ =>
        exact .number (same ▸ number) ⟨each.1, by rw [number, rounded_self each.1 number]⟩

end Rows

section Columns

variable (P : Platform)

/-- Between two numeric types, and between the two instants, a cast rounds every cell to the target, or fails with
    the text of a cell the target has no value for; cells that kept their number are cast back. No other pair is cast. -/
theorem cast_exact {s t : ScalarType} (source : exact s) (target : exact t) {cells : List Value}
    (typed : ∀ v ∈ cells, v.HasScalarType s) :
    (temporal s = temporal t →
      (∀ out, cast P ⟨.scalar s, cells⟩ (.scalar t) = .ok out ↔ out.ty = .scalar t ∧ List.Forall₂ (CastTo t) cells out.cells) ∧
      (∀ e, cast P ⟨.scalar s, cells⟩ (.scalar t) = .error e → ∃ v ∈ cells, Unrepresented P t v e) ∧
      ∀ out, cast P ⟨.scalar s, cells⟩ (.scalar t) = .ok out →
        List.Forall₂ (fun v w => quantity v = quantity w) cells out.cells →
        cast P out (.scalar s) = .ok ⟨.scalar s, cells⟩) ∧
    (temporal s ≠ temporal t → cast P ⟨.scalar s, cells⟩ (.scalar t) =
      .error (.plan s!"cannot cast {s.display} to {t.display}")) := by
  constructor
  · intro kin
    have forward := cast_eq_ok P source target kin typed
    refine ⟨forward, fun _ => cast_error P source target kin typed, ?_⟩
    rintro ⟨ty, back⟩ made same
    obtain ⟨rfl, turned⟩ := (forward _).mp made
    have typed' : ∀ w ∈ back, w.HasScalarType t := by
      intro w member
      obtain ⟨v, _, turns⟩ := List.Forall₂.source turned member
      exact turns.typed
    refine (cast_eq_ok P target source kin.symm typed' _).mpr ⟨rfl, ?_⟩
    exact castTo_back typed turned same
  · intro differs
    have other : (DataType.scalar s) ≠ .scalar t := by
      rintro ⟨⟩
      exact differs rfl
    unfold cast
    rw [if_neg other, castable_exact source target, decide_eq_false differs]
    rfl

/-- One nanosecond before the epoch is a date. -/
theorem cast_exact_instant : ∃ out, cast checkedPlatform ⟨.timestamp, [.timestamp (wrapI64 (-1))]⟩ .date = .ok out ∧
    List.Forall₂ (CastTo .date) [.timestamp (wrapI64 (-1))] out.cells := by
  have typed : ∀ v ∈ [Value.timestamp (wrapI64 (-1))], v.HasScalarType .timestamp := by
    intro v member
    rw [List.mem_singleton.mp member]
    exact True.intro
  have made : cast checkedPlatform ⟨.timestamp, [.timestamp (wrapI64 (-1))]⟩ .date =
      .ok ⟨.date, [.date ⟨-1, by decide, by decide⟩]⟩ := by rfl
  exact ⟨_, made, ((((cast_exact checkedPlatform (s := .timestamp) (t := .date) rfl rfl typed).1 rfl).1 _).mp made).2⟩

/-- A day count is not a DATE: the pair is refused before any cell is looked at. -/
theorem int64_to_date_refused : ¬ ∀ (s t : ScalarType) (v : Value), exact s → exact t → v.HasScalarType s →
    (∃ out, cast checkedPlatform ⟨.scalar s, [v]⟩ (.scalar t) = .ok out) ∨
      ∃ text, cast checkedPlatform ⟨.scalar s, [v]⟩ (.scalar t) = .error (.cast text (.scalar t)) := by
  intro all
  rcases all .int64 .date (.int64 (wrapI64 5)) rfl rfl True.intro with ⟨out, made⟩ | ⟨text, made⟩
  · cases made
  · cases made

end Columns

end Cast

end Adelie
