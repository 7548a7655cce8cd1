import Adelie.Types.Preorder

namespace Adelie

section Nullable

variable {α β : Type} (first : Bool) (cmp : α → α → Ordering)

/-- NULL on one side of everything else. -/
def nullCmp : Option α → Option α → Ordering
  | none, none => .eq
  | none, some _ => if first then .lt else .gt
  | some _, none => if first then .gt else .lt
  | some x, some y => cmp x y

variable [Std.TransCmp cmp]

instance : Std.TransCmp (nullCmp first cmp) where
  eq_swap := by
    intro a b
    cases a with
    | none => cases b <;> cases first <;> rfl
    | some x =>
      cases b with
      | none => cases first <;> rfl
      | some y => exact @Std.OrientedCmp.eq_swap _ cmp _ x y
  isLE_trans := by
    intro a b c below above
    cases a <;> cases b <;> cases c <;> cases first <;> simp_all [nullCmp]
    all_goals exact Std.TransCmp.isLE_trans below above

/-- The reverse keeps the laws. -/
theorem transCmp_swap : Std.TransCmp fun a b => (cmp a b).swap where
  eq_swap := by
    intro a b
    rw [@Std.OrientedCmp.eq_swap _ cmp _ a b]
  isLE_trans := by
    intro a b c below above
    rw [Ordering.isLE_swap] at below above ⊢
    exact Std.TransCmp.isGE_trans below above

/-- An order on what a function reads off. -/
theorem transCmp_on (f : β → α) : Std.TransCmp fun a b => cmp (f a) (f b) where
  eq_swap := Std.OrientedCmp.eq_swap
  isLE_trans := Std.TransCmp.isLE_trans

end Nullable

/-- The kind of a scalar type's values. -/
def Kind.of : ScalarType → Kind
  | .bool => .bool
  | .int64 => .int64
  | .uint64 => .uint64
  | .float64 => .float64
  | .decimal _ => .decimal
  | .string => .string
  | .bytes => .bytes
  | .timestamp => .timestamp
  | .date => .date
  | .uuid => .uuid
  | .ip => .ip

/-- A cell that may be NULL. -/
def Kind.cell (k : Kind) : Option k.Carrier → Value
  | none => .null
  | some x => k.wrap x

theorem exists_cell {v : Value} {t : ScalarType} (typed : v.HasScalarType t) : ∃ x, v = (Kind.of t).cell x := by
  cases v with
  | null => exact ⟨none, rfl⟩
  | bool b => cases t <;> first | exact typed.elim | exact ⟨some b, rfl⟩
  | int64 n => cases t <;> first | exact typed.elim | exact ⟨some n, rfl⟩
  | uint64 n => cases t <;> first | exact typed.elim | exact ⟨some n, rfl⟩
  | float64 f => cases t <;> first | exact typed.elim | exact ⟨some f, rfl⟩
  | decimal d => cases t <;> first | exact typed.elim | exact ⟨some d, rfl⟩
  | string s => cases t <;> first | exact typed.elim | exact ⟨some s, rfl⟩
  | bytes b => cases t <;> first | exact typed.elim | exact ⟨some b, rfl⟩
  | timestamp ns => cases t <;> first | exact typed.elim | exact ⟨some ns, rfl⟩
  | date days => cases t <;> first | exact typed.elim | exact ⟨some days, rfl⟩
  | uuid octets => cases t <;> first | exact typed.elim | exact ⟨some octets, rfl⟩
  | ip octets => cases t <;> first | exact typed.elim | exact ⟨some octets, rfl⟩
  | list items => cases t <;> exact typed.elim

namespace Kind

variable (k : Kind)

instance : Std.TransCmp k.cmp := k.trans

theorem wrap_scalar (x : k.Carrier) : (k.wrap x).isNull = false ∧ ∀ w, totalCmp (k.wrap x) w = scalarCmp (k.wrap x) w := by
  have self := k.cmp_wrap x x
  cases wrapped : k.wrap x with
  | null =>
    rw [wrapped] at self
    cases self
  | list items =>
    rw [wrapped] at self
    cases self
  | _ => exact ⟨rfl, fun w => by simp only [totalCmp]⟩

theorem totalCmp_wrap (x y : k.Carrier) : totalCmp (k.wrap x) (k.wrap y) = some (k.cmp x y) := by
  rw [(k.wrap_scalar x).2, k.cmp_wrap]

/-- Two lists of one element type compare as their elements do, NULL last. -/
theorem listCmp_cells (xs ys : List (Option k.Carrier)) :
    listCmp (xs.map k.cell) (ys.map k.cell) = some (List.compareLex (nullCmp false k.cmp) xs ys) := by
  induction xs generalizing ys with
  | nil =>
    cases ys with
    | nil => rfl
    | cons y ys => rfl
  | cons x xs ih =>
    cases ys with
    | nil => rfl
    | cons y ys =>
      have null : Value.null.isNull = true := rfl
      rw [List.map_cons, List.map_cons, listCmp, List.compareLex_cons_cons, ih]
      cases x with
      | none =>
        cases y with
        | none => rfl
        | some y =>
          have present := (k.wrap_scalar y).1
          simp [cell, null, present, nullCmp]
      | some x =>
        have present := (k.wrap_scalar x).1
        cases y with
        | none => simp [cell, null, present, nullCmp]
        | some y =>
          have present' := (k.wrap_scalar y).1
          simp only [cell, present, present', Bool.false_and, Bool.false_eq_true, if_false, totalCmp_wrap, nullCmp]
          cases k.cmp x y <;> rfl

end Kind

/-- What the values of a type carry, NULL apart, and the order on it. -/
structure Domain (ty : DataType) where
  Carrier : Type
  cmp : Carrier → Carrier → Ordering
  trans : Std.TransCmp cmp
  wrap : Carrier → Value
  present : ∀ x, (wrap x).isNull = false
  cmp_wrap : ∀ x y, totalCmp (wrap x) (wrap y) = some (cmp x y)
  covers : ∀ v, v.HasType ty → v = .null ∨ ∃ x, v = wrap x

/-- The total order is total, and an order, on every type's values. -/
def DataType.domain : (ty : DataType) → Domain ty
  | .scalar t =>
    { Carrier := (Kind.of t).Carrier
      cmp := (Kind.of t).cmp
      trans := (Kind.of t).trans
      wrap := (Kind.of t).wrap
      present := fun x => ((Kind.of t).wrap_scalar x).1
      cmp_wrap := (Kind.of t).totalCmp_wrap
      covers := by
        intro v typed
        obtain ⟨x, rfl⟩ := exists_cell typed
        cases x with
        | none => exact Or.inl rfl
        | some x => exact Or.inr ⟨x, rfl⟩ }
  | .list t =>
    { Carrier := List (Option (Kind.of t).Carrier)
      cmp := List.compareLex (nullCmp false (Kind.of t).cmp)
      trans := inferInstance
      wrap := fun xs => .list (xs.map (Kind.of t).cell)
      present := fun _ => rfl
      cmp_wrap := fun xs ys => by rw [totalCmp]; exact (Kind.of t).listCmp_cells xs ys
      covers := by
        intro v typed
        cases v with
        | null => exact Or.inl rfl
        | list items =>
          right
          have each : ∀ v ∈ items, ∃ x, v = (Kind.of t).cell x := fun v member => exists_cell (typed v member)
          clear typed
          induction items with
          | nil => exact ⟨[], rfl⟩
          | cons v rest ih =>
            rw [List.forall_mem_cons] at each
            obtain ⟨x, rfl⟩ := each.1
            obtain ⟨xs, same⟩ := ih each.2
            cases same
            exact ⟨x :: xs, rfl⟩
        | _ => exact typed.elim }

end Adelie
