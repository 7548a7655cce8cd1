import Adelie.Exec.HashJoin
import Adelie.Exec.Rechunk
import Adelie.Types.Total

namespace Adelie

/-- One ORDER BY key: a column of what is sorted. -/
structure SortKey where
  column : Nat
  descending : Bool
  nullsFirst : Bool
deriving DecidableEq, Repr

def SortKey.asc (column : Nat) : SortKey := ⟨column, false, false⟩
def SortKey.desc (column : Nat) : SortKey := ⟨column, true, false⟩

/-- NULL placement follows `nullsFirst` alone. Two cells of one column always compare. -/
def SortKey.compare (key : SortKey) (a b : Value) : Ordering :=
  match a.isNull, b.isNull with
  | true, true => .eq
  | true, false => if key.nullsFirst then .lt else .gt
  | false, true => if key.nullsFirst then .gt else .lt
  | false, false =>
    let cmp := (totalCmp a b).getD .eq
    if key.descending then cmp.swap else cmp

/-- The first key that tells two rows apart. -/
def compareKeys (keys : List SortKey) (a b : Row) : Ordering :=
  match keys with
  | [] => .eq
  | key :: rest => (key.compare (rowCell a key.column) (rowCell b key.column)).then (compareKeys rest a b)

/-- A stable argsort of the rows; their number is taken `as u32`. -/
def sortIndices (b : ColumnBatch) (keys : List SortKey) : Except ExecError (List Nat) :=
  match b.columns with
  | [] => .error (.panicked "index out of bounds: the len is 0 but the index is 0")
  | c :: _ =>
    .ok ((List.range (asU32 c.cells.length)).insertionSort fun i j => compareKeys keys (b.row i) (b.row j) ≠ .gt)

/-- Each cell is of its field's type. -/
def Typed (fields : List Field) (r : Row) : Prop := ∀ i f, fields[i]? = some f → (rowCell r i).HasType f.ty

def TypedRow (fields : List Field) : Type := { r : Row // Typed fields r }

section Laws

variable {fields : List Field}

/-- On cells of one type a key is an order. -/
theorem SortKey.transCmp {key : SortKey} {f : Field} (inside : fields[key.column]? = some f) :
    Std.TransCmp fun a b : TypedRow fields => key.compare (rowCell a.val key.column) (rowCell b.val key.column) := by
  let d := f.ty.domain
  have := d.trans
  have read : ∀ v : Value, v.HasType f.ty → ∃ x : Option d.Carrier,
      v = (x.map d.wrap).getD .null ∧ (v.isNull = x.isNone) := by
    intro v typed
    rcases d.covers v typed with rfl | ⟨x, rfl⟩
    · exact ⟨none, rfl, rfl⟩
    · exact ⟨some x, rfl, d.present x⟩
  choose cell value null using read
  have signed : Std.TransCmp fun x y => if key.descending then (d.cmp x y).swap else d.cmp x y := by
    cases key.descending with
    | true => exact transCmp_swap d.cmp
    | false => exact d.trans
  have agrees : (fun a b : TypedRow fields => key.compare (rowCell a.val key.column) (rowCell b.val key.column)) =
      fun a b => nullCmp key.nullsFirst (fun x y => if key.descending then (d.cmp x y).swap else d.cmp x y)
        (cell _ (a.property _ f inside)) (cell _ (b.property _ f inside)) := by
    funext a b
    have left := value _ (a.property _ f inside)
    have right := value _ (b.property _ f inside)
    unfold SortKey.compare
    rw [null _ (a.property _ f inside), null _ (b.property _ f inside)]
    cases x : cell _ (a.property _ f inside) with
    | none => cases cell _ (b.property _ f inside) <;> rfl
    | some x =>
      cases y : cell _ (b.property _ f inside) with
      | none => rfl
      | some y =>
        rw [x] at left
        rw [y] at right
        simp only [Option.map_some, Option.getD_some] at left right
        rw [left, right]
        simp [nullCmp, d.cmp_wrap]
  rw [agrees]
  exact transCmp_on _ _

theorem compareKeys_transCmp {keys : List SortKey} (inside : ∀ key ∈ keys, key.column < fields.length) :
    Std.TransCmp fun a b : TypedRow fields => compareKeys keys a.val b.val := by
  induction keys with
  | nil => exact { eq_swap := rfl, isLE_trans := fun _ _ => rfl }
  | cons key rest ih =>
    rw [List.forall_mem_cons] at inside
    have := SortKey.transCmp (List.getElem?_eq_getElem inside.1)
    have := ih inside.2
    exact inferInstanceAs (Std.TransCmp (compareLex
      (fun a b : TypedRow fields => key.compare (rowCell a.val key.column) (rowCell b.val key.column))
      (fun a b : TypedRow fields => compareKeys rest a.val b.val)))

end Laws

/-- Not after, by the keys. -/
def KeyLe (keys : List SortKey) (a b : Row) : Prop := compareKeys keys a b ≠ .gt

instance (keys : List SortKey) : DecidableRel (KeyLe keys) := fun _ _ => inferInstanceAs (Decidable (_ ≠ _))

section Sorting

variable {fields : List Field} {keys : List SortKey} {b b' : ColumnBatch} {rows : List Row}

theorem keyLe_total (inside : ∀ key ∈ keys, key.column < fields.length) (x y : Row) (left : Typed fields x)
    (right : Typed fields y) : KeyLe keys x y ∨ KeyLe keys y x := by
  have := compareKeys_transCmp inside
  have turned : compareKeys keys y x = (compareKeys keys x y).swap :=
    @Std.OrientedCmp.eq_swap _ (fun a b : TypedRow fields => compareKeys keys a.val b.val) _ ⟨y, right⟩ ⟨x, left⟩
  unfold KeyLe
  rw [turned]
  cases compareKeys keys x y <;> simp

theorem keyLe_trans (inside : ∀ key ∈ keys, key.column < fields.length) (x y z : Row) (first : Typed fields x)
    (second : Typed fields y) (third : Typed fields z) (below : KeyLe keys x y) (above : KeyLe keys y z) :
    KeyLe keys x z := by
  have := compareKeys_transCmp inside
  have chained := @Std.TransCmp.isLE_trans _ (fun a b : TypedRow fields => compareKeys keys a.val b.val) _
    ⟨x, first⟩ ⟨y, second⟩ ⟨z, third⟩ (Ordering.ne_gt_iff_isLE.mp below) (Ordering.ne_gt_iff_isLE.mp above)
  exact Ordering.ne_gt_iff_isLE.mpr chained

theorem ColumnBatch.Sound.typed_rows (sound : b.Sound) : ∀ r ∈ b.toRows, Typed b.fields r := by
  intro r member i f field
  obtain ⟨j, _, rfl⟩ := List.mem_map.mp member
  exact (rowCell_typed sound field j).1

/-- The rows at the sorted numbers are the rows sorted. -/
theorem sortIndices_ok {order : List Nat} (sorted : sortIndices b keys = .ok order) (few : b.rows < 2 ^ 32) :
    b.columns ≠ [] ∧ (∀ i ∈ order, i < b.rows) ∧ order.map b.row = b.toRows.insertionSort (KeyLe keys) := by
  unfold sortIndices at sorted
  cases columns : b.columns with
  | nil =>
    rw [columns] at sorted
    cases sorted
  | cons c rest =>
    have rows : c.cells.length = b.rows := by simp [ColumnBatch.rows, columns]
    rw [columns] at sorted
    simp only [rows, (asU32_eq_iff _).mpr few, Except.ok.injEq] at sorted
    subst order
    refine ⟨List.cons_ne_nil _ _, ?_, ?_⟩
    · intro i member
      exact List.mem_range.mp ((List.perm_insertionSort _ _).mem_iff.mp member)
    · exact List.map_insertionSort _ (KeyLe keys) b.row _ fun _ _ _ _ => Iff.rfl

end Sorting

end Adelie
