import Adelie.Segment.Wire
import Adelie.Types.Preorder

namespace Adelie

/-- GROUP BY keeps NULL and NaN as values; a join key that holds one matches nothing. -/
inductive NullKeys where
  | group | skip
deriving DecidableEq, Repr

namespace Rowkey

def one : List UInt8 := [1]

/-- Both zeros and every NaN on one pattern each. -/
def normalized (f : Float64) : Nat :=
  if f.magnitude = 0 then 0 else if f.isNaN then 0x7FF8000000000000 else f.bits.val

/-- `len() as u32`, then the bytes. -/
def encodeBytes (b : List UInt8) : List UInt8 := Sink.u32 (b.length % 2 ^ 32) ++ b

mutual

/-- The bytes a value adds to a key; `none` where `skip` gives the row up. -/
def encodeValue (nulls : NullKeys) : Value → Option (List UInt8)
  | .null => if nulls = .skip then none else some [0]
  | .bool b => some (one ++ Sink.u8 b.toNat)
  | .int64 n => some (one ++ Sink.i64 n.val)
  | .uint64 n => some (one ++ Sink.u64 n.val)
  | .float64 f => if f.isNaN ∧ nulls = .skip then none else some (one ++ Sink.u64 (normalized f))
  | .decimal d => some (one ++ Sink.i128 d.unscaled)
  | .string s => some (one ++ encodeBytes (utf8 s))
  | .bytes b => some (one ++ encodeBytes b)
  | .timestamp n => some (one ++ Sink.i64 n.val)
  | .date n => some (one ++ Sink.i32 n.val)
  | .uuid u => some (one ++ u.val)
  | .ip u => some (one ++ u.val)
  | .list items => do
    let body ← encodeItems nulls items
    return one ++ (Sink.u32 (items.length % 2 ^ 32) ++ body)

def encodeItems (nulls : NullKeys) : List Value → Option (List UInt8)
  | [] => some []
  | v :: rest => do
    let head ← encodeValue nulls v
    let tail ← encodeItems nulls rest
    return head ++ tail

end

end Rowkey

/-- A row's key over its key cells. -/
def encodeRowKey (nulls : NullKeys) (cells : List Value) : Option (List UInt8) := Rowkey.encodeItems nulls cells

namespace Value

/-- Lengths that a column's `u32` offsets can hold. -/
def ScalarSmall : Value → Prop
  | .string s => (utf8 s).length < 2 ^ 32
  | .bytes b => b.length < 2 ^ 32
  | _ => True

def Small : Value → Prop
  | .list items => items.length < 2 ^ 32 ∧ ∀ v ∈ items, v.ScalarSmall
  | v => v.ScalarSmall

end Value

namespace Rowkey

theorem normalized_lt (f : Float64) : normalized f < 256 ^ 8 := by
  have small := f.bits.property
  unfold normalized
  split
  · decide
  · split
    · decide
    · exact small

/-- Floats that are numbers share a pattern exactly when they are equal. -/
theorem normalized_eq_iff {f g : Float64} (number : f.isNaN = false) (number' : g.isNaN = false) :
    normalized f = normalized g ↔ f.orderKey = g.orderKey := by
  have small := f.bits.property
  have small' := g.bits.property
  simp only [normalized, number, number', Float64.orderKey, Float64.negative, Float64.magnitude, Bool.false_eq_true,
    if_false, decide_eq_true_eq]
  split <;> split <;> split <;> split <;> omega

section Prefix

variable {a b : Value} {x y k l : List UInt8}

theorem leBytes_append_inj {n v w : Nat} (v_lt : v < 256 ^ n) (w_lt : w < 256 ^ n)
    (same : leBytes n v ++ x = leBytes n w ++ y) : v = w ∧ x = y := by
  obtain ⟨head, tail⟩ := List.append_inj same (by simp)
  exact ⟨leBytes_inj v_lt w_lt head, tail⟩

theorem word_append_inj {n w : Nat} (wide : 0 < w) (bytes : 2 ^ w = 256 ^ n) {v v' : Int}
    (low : -2 ^ (w - 1) ≤ v ∧ v < 2 ^ (w - 1)) (low' : -2 ^ (w - 1) ≤ v' ∧ v' < 2 ^ (w - 1))
    (same : leBytes n (toWord w v) ++ x = leBytes n (toWord w v') ++ y) : v = v' ∧ x = y := by
  obtain ⟨words, tail⟩ := leBytes_append_inj (by rw [← bytes]; exact toWord_lt w v)
    (by rw [← bytes]; exact toWord_lt w v') same
  refine ⟨?_, tail⟩
  rw [← ofWord_toWord wide low.1 low.2, words, ofWord_toWord wide low'.1 low'.2]

theorem encodeBytes_append_inj {b c : List UInt8} (small : b.length < 2 ^ 32) (small' : c.length < 2 ^ 32)
    (same : encodeBytes b ++ x = encodeBytes c ++ y) : b = c ∧ x = y := by
  unfold encodeBytes Sink.u32 at same
  rw [Nat.mod_eq_of_lt small, Nat.mod_eq_of_lt small', List.append_assoc, List.append_assoc] at same
  obtain ⟨lengths, rest⟩ := leBytes_append_inj (by omega) (by omega) same
  exact List.append_inj rest lengths

theorem one_append_inj (same : one ++ k ++ x = one ++ l ++ y) : k ++ x = l ++ y := by
  rw [List.append_assoc, List.append_assoc] at same
  exact List.append_cancel_left same

theorem i64_append_inj {n m : I64} (same : Sink.i64 n.val ++ x = Sink.i64 m.val ++ y) : n = m ∧ x = y := by
  obtain ⟨values, rest⟩ := word_append_inj (by decide) (by decide) n.property m.property same
  exact ⟨Subtype.ext values, rest⟩

theorem octets_append_inj {u v : Octets16} (same : u.val ++ x = v.val ++ y) : u = v ∧ x = y := by
  obtain ⟨values, rest⟩ := List.append_inj same (by rw [u.property, v.property])
  exact ⟨Subtype.ext values, rest⟩

/-- The keys of two values of one type start alike only where the values are equal. -/
theorem scalar_append_inj {t : ScalarType} (typed : a.HasScalarType t) (typed' : b.HasScalarType t)
    (small : a.ScalarSmall) (small' : b.ScalarSmall) (left : encodeValue .skip a = some k)
    (right : encodeValue .skip b = some l) (same : k ++ x = l ++ y) : scalarSqlEq a b = some true ∧ x = y := by
  cases a <;> cases t <;> first | exact typed.elim | skip
  all_goals cases b <;> first | exact typed'.elim | skip
  all_goals
    simp only [encodeValue, reduceCtorEq, Option.some.injEq, and_true, ite_cond_eq_true] at left right
  case float64.float64.float64 f g =>
    split at left
    · cases left
    · rename_i number
      split at right
      · cases right
      · rename_i number'
        simp only [Bool.not_eq_true] at number number'
        cases left
        cases right
        obtain ⟨bits, rest⟩ := leBytes_append_inj (normalized_lt f) (normalized_lt g) (one_append_inj same)
        have keys := (normalized_eq_iff number number').mp bits
        exact ⟨by simp [scalarSqlEq, number, number', keys], rest⟩
  all_goals
    subst left right
    replace same := one_append_inj same
  case bool.bool.bool p q =>
    have narrow : ∀ b : Bool, b.toNat < 256 ^ 1 := by decide
    obtain ⟨bits, rest⟩ := leBytes_append_inj (narrow p) (narrow q) same
    have equal : p = q := by cases p <;> cases q <;> first | rfl | simp at bits
    exact ⟨by simp [scalarSqlEq, equal], rest⟩
  case uint64.uint64.uint64 n m =>
    obtain ⟨values, rest⟩ := leBytes_append_inj n.property m.property same
    exact ⟨by simp [scalarSqlEq, Subtype.ext values], rest⟩
  case decimal.decimal.decimal d _ e =>
    have wide : ∀ n : Int, n.natAbs < 10 ^ 38 → -2 ^ (128 - 1) ≤ n ∧ n < 2 ^ (128 - 1) := by
      intro n bound
      omega
    obtain ⟨values, rest⟩ := word_append_inj (by decide) (by decide) (wide _ d.small) (wide _ e.small) same
    have ranks : d.rank = e.rank := by rw [Decimal.rank, Decimal.rank, values, typed.1, typed'.1]
    exact ⟨by simp [scalarSqlEq, decimalCmp_eq, ranks], rest⟩
  case date.date.date n m =>
    obtain ⟨values, rest⟩ := word_append_inj (by decide) (by decide) n.property m.property same
    exact ⟨by simp [scalarSqlEq, Subtype.ext values], rest⟩
  case string.string.string s s' =>
    obtain ⟨bytes, rest⟩ := encodeBytes_append_inj small small' same
    have equal : s = s' := by
      have back := fromUtf8_utf8 s
      rw [bytes, fromUtf8_utf8] at back
      exact (Option.some.inj back).symm
    exact ⟨by simp [scalarSqlEq, equal], rest⟩
  case bytes.bytes.bytes b c =>
    obtain ⟨equal, rest⟩ := encodeBytes_append_inj small small' same
    exact ⟨by simp [scalarSqlEq, equal], rest⟩
  case int64.int64.int64 | timestamp.timestamp.timestamp =>
    obtain ⟨values, rest⟩ := i64_append_inj same
    exact ⟨by simp [scalarSqlEq, values], rest⟩
  case uuid.uuid.uuid | ip.ip.ip =>
    obtain ⟨values, rest⟩ := octets_append_inj same
    exact ⟨by simp [scalarSqlEq, values], rest⟩

/-- Equal values have keys, and the same one. -/
theorem scalar_key_of_sqlEq {t : ScalarType} (typed : a.HasScalarType t) (typed' : b.HasScalarType t)
    (same : scalarSqlEq a b = some true) : ∃ k, encodeValue .skip a = some k ∧ encodeValue .skip b = some k := by
  cases a <;> cases b <;> simp only [scalarSqlEq, reduceCtorEq, Option.some.injEq, beq_iff_eq, Bool.and_eq_true,
    Bool.not_eq_true'] at same
  case float64.float64 f g =>
    obtain ⟨⟨number, number'⟩, keys⟩ := same
    have bits := (normalized_eq_iff number number').mpr keys
    refine ⟨one ++ Sink.u64 (normalized f), ?_, ?_⟩
    · simp [encodeValue, number]
    · simp [encodeValue, number', bits]
  case decimal.decimal d e =>
    cases t <;> first | exact typed.elim | skip
    rw [decimalCmp_eq, compare_eq_iff_eq] at same
    have values : d.unscaled = e.unscaled := by
      rw [Decimal.rank, Decimal.rank, typed.1, typed'.1] at same
      exact Int.eq_of_mul_eq_mul_right (by positivity) same
    exact ⟨one ++ Sink.i128 d.unscaled, rfl, by simp [encodeValue, values]⟩
  all_goals
    subst same
    exact ⟨_, rfl, rfl⟩

theorem sqlEq_of_scalarType {t : ScalarType} (typed : a.HasScalarType t) : sqlEq a b = scalarSqlEq a b := by
  cases a with
  | list items => cases t <;> exact typed.elim
  | _ => simp only [sqlEq]

theorem encodeItems_cons {nulls : NullKeys} {rest : List Value} {k : List UInt8} :
    encodeItems nulls (a :: rest) = some k ↔
      ∃ head tail, encodeValue nulls a = some head ∧ encodeItems nulls rest = some tail ∧ k = head ++ tail := by
  simp only [encodeItems, Option.pure_def, Option.bind_eq_bind, Option.bind_eq_some_iff, Option.some.injEq]
  constructor
  · rintro ⟨head, first, tail, others, rfl⟩
    exact ⟨head, tail, first, others, rfl⟩
  · rintro ⟨head, tail, first, others, rfl⟩
    exact ⟨head, first, tail, others, rfl⟩

theorem items_append_inj {t : ScalarType} {as bs : List Value} (typed : ∀ v ∈ as, v.HasScalarType t)
    (typed' : ∀ v ∈ bs, v.HasScalarType t) (small : ∀ v ∈ as, v.ScalarSmall) (small' : ∀ v ∈ bs, v.ScalarSmall)
    (lengths : as.length = bs.length) (left : encodeItems .skip as = some k) (right : encodeItems .skip bs = some l)
    (same : k ++ x = l ++ y) : listSqlEq as bs = some true ∧ x = y := by
  induction as generalizing bs k l with
  | nil =>
    cases bs with
    | nil =>
      simp only [encodeItems, Option.some.injEq] at left right
      subst left right
      exact ⟨by simp [listSqlEq], same⟩
    | cons b bs => cases lengths
  | cons a as ih =>
    cases bs with
    | nil => cases lengths
    | cons b bs =>
      obtain ⟨k₁, k₂, first, others, rfl⟩ := encodeItems_cons.mp left
      obtain ⟨l₁, l₂, first', others', rfl⟩ := encodeItems_cons.mp right
      rw [List.forall_mem_cons] at typed typed' small small'
      rw [List.append_assoc, List.append_assoc] at same
      obtain ⟨heads, rest⟩ := scalar_append_inj typed.1 typed'.1 small.1 small'.1 first first' same
      obtain ⟨tails, rest⟩ := ih typed.2 typed'.2 small.2 small'.2 (Nat.succ.inj lengths) others others' rest
      refine ⟨?_, rest⟩
      rw [listSqlEq, sqlEq_of_scalarType typed.1, heads, tails]
      rfl

theorem items_key_of_sqlEq {t : ScalarType} {as bs : List Value} (typed : ∀ v ∈ as, v.HasScalarType t)
    (typed' : ∀ v ∈ bs, v.HasScalarType t) (lengths : as.length = bs.length) (same : listSqlEq as bs = some true) :
    ∃ k, encodeItems .skip as = some k ∧ encodeItems .skip bs = some k := by
  induction as generalizing bs with
  | nil =>
    cases bs with
    | nil => exact ⟨[], by simp [encodeItems], by simp [encodeItems]⟩
    | cons b bs => cases lengths
  | cons a as ih =>
    cases bs with
    | nil => cases lengths
    | cons b bs =>
      rw [List.forall_mem_cons] at typed typed'
      rw [listSqlEq, sqlEq_of_scalarType typed.1] at same
      have both : scalarSqlEq a b = some true ∧ listSqlEq as bs = some true := by
        revert same
        cases scalarSqlEq a b with
        | none => cases listSqlEq as bs with
          | none => simp [kleeneAnd]
          | some q => cases q <;> simp [kleeneAnd]
        | some p => cases listSqlEq as bs with
          | none => cases p <;> simp [kleeneAnd]
          | some q => cases p <;> cases q <;> simp [kleeneAnd]
      obtain ⟨k, left, right⟩ := scalar_key_of_sqlEq typed.1 typed'.1 both.1
      obtain ⟨l, left', right'⟩ := ih typed.2 typed'.2 (Nat.succ.inj lengths) both.2
      exact ⟨k ++ l, encodeItems_cons.mpr ⟨k, l, left, left', rfl⟩, encodeItems_cons.mpr ⟨k, l, right, right', rfl⟩⟩

theorem encodeValue_list {items : List Value} :
    encodeValue .skip (.list items) = some k ↔
      ∃ body, encodeItems .skip items = some body ∧ k = one ++ (Sink.u32 (items.length % 2 ^ 32) ++ body) := by
  simp only [encodeValue, Option.pure_def, Option.bind_eq_bind, Option.bind_eq_some_iff, Option.some.injEq]
  constructor
  · rintro ⟨body, made, rfl⟩
    exact ⟨body, made, rfl⟩
  · rintro ⟨body, made, rfl⟩
    exact ⟨body, made, rfl⟩

theorem value_append_inj {t : DataType} (typed : a.HasType t) (typed' : b.HasType t) (small : a.Small)
    (small' : b.Small) (left : encodeValue .skip a = some k) (right : encodeValue .skip b = some l)
    (same : k ++ x = l ++ y) : sqlEq a b = some true ∧ x = y := by
  cases t with
  | scalar t =>
    have scalarSmall : ∀ {v : Value}, v.HasScalarType t → v.Small → v.ScalarSmall := by
      intro v typed small
      cases v <;> first | exact small | (cases t <;> exact typed.elim)
    rw [sqlEq_of_scalarType typed]
    exact scalar_append_inj typed typed' (scalarSmall typed small) (scalarSmall typed' small') left right same
  | list t =>
    cases a <;> first | exact typed.elim | skip
    · simp [encodeValue] at left
    cases b <;> first | exact typed'.elim | skip
    · simp [encodeValue] at right
    rename_i as bs
    obtain ⟨body, made, rfl⟩ := encodeValue_list.mp left
    obtain ⟨body', made', rfl⟩ := encodeValue_list.mp right
    have counts := one_append_inj same
    rw [Nat.mod_eq_of_lt small.1, Nat.mod_eq_of_lt small'.1, List.append_assoc, List.append_assoc] at counts
    have narrow : ∀ n : Nat, n < 2 ^ 32 → n < 256 ^ 4 := by
      intro n bound
      omega
    obtain ⟨lengths, rest⟩ := leBytes_append_inj (narrow _ small.1) (narrow _ small'.1) counts
    obtain ⟨items, rest⟩ := items_append_inj typed typed' small.2 small'.2 lengths made made' rest
    exact ⟨by rw [sqlEq, if_neg (by simpa using lengths)]; exact items, rest⟩

theorem value_key_of_sqlEq {t : DataType} (typed : a.HasType t) (typed' : b.HasType t) (same : sqlEq a b = some true) :
    ∃ k, encodeValue .skip a = some k ∧ encodeValue .skip b = some k := by
  cases t with
  | scalar t =>
    rw [sqlEq_of_scalarType typed] at same
    exact scalar_key_of_sqlEq typed typed' same
  | list t =>
    cases a <;> first | exact typed.elim | skip
    · simp [sqlEq, scalarSqlEq] at same
    cases b <;> first | exact typed'.elim | skip
    · simp [sqlEq] at same
    rename_i as bs
    rw [sqlEq] at same
    by_cases lengths : as.length = bs.length
    · rw [if_neg (by simpa using lengths)] at same
      obtain ⟨k, left, right⟩ := items_key_of_sqlEq typed typed' lengths same
      refine ⟨_, encodeValue_list.mpr ⟨k, left, rfl⟩, encodeValue_list.mpr ⟨k, right, ?_⟩⟩
      rw [lengths]
    · rw [if_pos (by simpa using lengths)] at same
      cases same

end Prefix

end Rowkey

section Keys

variable {types : List DataType} {as bs : List Value}

/-- Every key pair is equal. -/
def keysEqual (as bs : List Value) : Bool := (as.zip bs).all fun p => sqlEq p.1 p.2 = some true

open Rowkey

theorem keys_append_inj (typed : List.Forall₂ Value.HasType as types) (typed' : List.Forall₂ Value.HasType bs types)
    (small : ∀ v ∈ as, v.Small) (small' : ∀ v ∈ bs, v.Small) {k : List UInt8} (left : encodeRowKey .skip as = some k)
    (right : encodeRowKey .skip bs = some k) : keysEqual as bs := by
  suffices general : ∀ {k l x y : List UInt8}, encodeItems .skip as = some k → encodeItems .skip bs = some l →
      k ++ x = l ++ y → keysEqual as bs from general (x := []) (y := []) left right rfl
  clear left right
  induction typed generalizing bs with
  | nil =>
    intros
    rfl
  | @cons a t as types first _ ih =>
    intro k l x y left right same
    cases typed' with
    | @cons b _ bs _ first' others' =>
      obtain ⟨k₁, k₂, head, tail, rfl⟩ := encodeItems_cons.mp left
      obtain ⟨l₁, l₂, head', tail', rfl⟩ := encodeItems_cons.mp right
      rw [List.forall_mem_cons] at small small'
      rw [List.append_assoc, List.append_assoc] at same
      obtain ⟨equal, rest⟩ := value_append_inj first first' small.1 small'.1 head head' same
      have others := ih others' small.2 small'.2 tail tail' rest
      simpa [keysEqual, equal] using others

theorem rowKey_of_keysEqual (typed : List.Forall₂ Value.HasType as types) (typed' : List.Forall₂ Value.HasType bs types)
    (equal : keysEqual as bs) : ∃ k, encodeRowKey .skip as = some k ∧ encodeRowKey .skip bs = some k := by
  induction typed generalizing bs with
  | nil =>
    cases typed'
    exact ⟨[], by simp [encodeRowKey, encodeItems], by simp [encodeRowKey, encodeItems]⟩
  | @cons a t as types first _ ih =>
    cases typed' with
    | @cons b _ bs _ first' others' =>
      simp only [keysEqual, List.zip_cons_cons, List.all_cons, Bool.and_eq_true, decide_eq_true_eq] at equal
      obtain ⟨k, left, right⟩ := value_key_of_sqlEq first first' equal.1
      obtain ⟨l, left', right'⟩ := ih others' equal.2
      exact ⟨k ++ l, encodeItems_cons.mpr ⟨k, l, left, left', rfl⟩, encodeItems_cons.mpr ⟨k, l, right, right', rfl⟩⟩

/-- Two rows of one list of key types have one key exactly when every key pair is equal; a row with no key equals none. -/
theorem rowKey_eq_iff (typed : List.Forall₂ Value.HasType as types) (typed' : List.Forall₂ Value.HasType bs types)
    (small : ∀ v ∈ as, v.Small) (small' : ∀ v ∈ bs, v.Small) :
    (∃ k, encodeRowKey .skip as = some k ∧ encodeRowKey .skip bs = some k) ↔ keysEqual as bs := by
  constructor
  · rintro ⟨k, left, right⟩
    exact keys_append_inj typed typed' small small' left right
  · exact rowKey_of_keysEqual typed typed'

end Keys

end Adelie
