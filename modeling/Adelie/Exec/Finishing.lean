import Adelie.Exec.Frequent
import Adelie.Types.Lawful

namespace Adelie

namespace TopK

open Assoc

variable {c k : Nat} {s s' other : Summary} {p : Plan} {t : ScalarType} {v w : Value}

/-- A non-NULL value of a column of the type. -/
def Good (t : ScalarType) (v : Value) : Prop := v.HasScalarType t ∧ v.Small ∧ v.isNull = false

theorem Good.row (good : Good t v) : List.Forall₂ Value.HasType [v] [.scalar t] := .cons good.1 .nil

theorem Good.typed (good : Good t v) : v.HasType (.scalar t) ∧ v.isNull = false := ⟨good.1, good.2.2⟩

theorem Good.key (good : Good t v) : encodeRowKey .group [v] = some (keyOf v) := by
  obtain ⟨k, made⟩ := rows_group_key good.row
  unfold keyOf
  rw [made]
  rfl

/-- One key holds the values that compare equal. -/
theorem keyOf_eq_iff (good : Good t v) (good' : Good t w) : keyOf v = keyOf w ↔ totalCmp v w = some .eq := by
  constructor
  · intro same
    have small : ∀ u ∈ [v], u.Small := by simpa using good.2.1
    have small' : ∀ u ∈ [w], u.Small := by simpa using good'.2.1
    have whole : keyOf v ++ [] = keyOf w ++ [] := by rw [same]
    obtain ⟨slots, _⟩ := rows_group_inj good.row good'.row small small' good.key good'.key whole
    cases slots with
    | cons slot _ =>
      rcases slot with ⟨null, _⟩ | tied
      · rw [good.2.2] at null
        cases null
      · exact tied
  · intro tied
    have same := rows_group_same good.row good'.row (.cons (.inr tied) .nil)
    unfold keyOf
    rw [same]

section Kept

variable {R : Key → Value → Prop}

theorem insert_all (kept : ∀ x ∈ s, R x.1 x.2.value) (new : R (keyOf v) v) (made : insert s (keyOf v) v c = some s') :
    ∀ x ∈ s', R x.1 x.2.value := by
  unfold insert at made
  split at made
  · cases made
    intro x member
    obtain ⟨y, inside, rfl⟩ := List.mem_map.mp member
    have before := kept y inside
    split
    · exact before
    · exact before
  · split at made
    · cases made
      exact List.forall_mem_cons.mpr ⟨new, kept⟩
    · obtain ⟨least, _, rfl⟩ := Option.map_eq_some_iff.mp made
      exact List.forall_mem_cons.mpr ⟨new, fun x member => kept x (mem_remove.mp member).1⟩

theorem mergeEntry_all {x : Key × Entry} (kept : ∀ y ∈ s, R y.1 y.2.value) (new : R x.1 x.2.value) :
    ∀ y ∈ mergeEntry s x, R y.1 y.2.value := by
  unfold mergeEntry
  split
  · intro y member
    obtain ⟨z, inside, rfl⟩ := List.mem_map.mp member
    have before := kept z inside
    split
    · exact before
    · exact before
  · exact List.forall_mem_cons.mpr ⟨new, kept⟩

theorem merge_all (kept : ∀ x ∈ s, R x.1 x.2.value) (kept' : ∀ x ∈ other, R x.1 x.2.value) :
    ∀ x ∈ merge s other c, R x.1 x.2.value := by
  have whole : ∀ x ∈ other.foldl mergeEntry s, R x.1 x.2.value := by
    induction other generalizing s with
    | nil => exact kept
    | cons x other ih =>
      rw [List.forall_mem_cons] at kept'
      exact ih (mergeEntry_all kept kept'.1) kept'.2
  obtain ⟨gone, parts, _⟩ := trim_parts (other.foldl mergeEntry s) c
  exact fun x member => whole x (parts.mem_iff.mpr (List.mem_append_left _ member))

end Kept

/-- What is kept are rows, each under its own key. -/
theorem Reach.kept (reach : Reach c p s) : ∀ x ∈ s, x.1 = keyOf x.2.value ∧ x.2.value ∈ p.inputs := by
  induction reach with
  | empty => exact fun _ member => by cases member
  | @row p s s' v _ made ih =>
    unfold updateRow at made
    split at made
    · rename_i null
      cases made
      rw [(Plan.freq_null (p := p) null).2]
      exact ih
    · rename_i value
      have inputs : (Plan.row p v).inputs = p.inputs ++ [v] := if_neg value
      rw [inputs]
      exact insert_all (R := fun key u => key = keyOf u ∧ u ∈ p.inputs ++ [v])
        (fun x member => ⟨(ih x member).1, List.mem_append_left _ (ih x member).2⟩) ⟨rfl, by simp⟩ made
  | @merge p q s other _ _ ih ih' =>
    exact merge_all (R := fun key u => key = keyOf u ∧ u ∈ p.inputs ++ q.inputs)
      (fun x member => ⟨(ih x member).1, List.mem_append_left _ (ih x member).2⟩)
      (fun x member => ⟨(ih' x member).1, List.mem_append_right _ (ih' x member).2⟩)
  | reorder _ same ih => exact fun x member => ih x (same.mem_iff.mpr member)

theorem Plan.inputs_value (p : Plan) : ∀ v ∈ p.inputs, v.isNull = false := by
  induction p with
  | empty => exact fun _ member => by cases member
  | row p u ih =>
    intro v member
    unfold inputs at member
    split at member
    · exact ih v member
    · rename_i value
      rcases List.mem_append.mp member with old | new
      · exact ih v old
      · rw [List.mem_singleton.mp new]
        simpa using value
  | merge p q ih ih' =>
    intro v member
    rcases List.mem_append.mp member with left | right
    · exact ih v left
    · exact ih' v right

theorem exists_reach (some_ : 0 < c) (p : Plan) (clean : p.Clean c) : ∃ s, Reach c p s := by
  induction p with
  | empty => exact ⟨[], .empty⟩
  | row p v ih =>
    obtain ⟨s, reach⟩ := ih clean.1
    by_cases null : v.isNull = true
    · exact ⟨s, reach.row (if_pos null)⟩
    · obtain ⟨s', made, _⟩ := (reach.counts some_ clean.1).insert some_ (keyOf v) v
      exact ⟨s', reach.row ((if_neg null).trans made)⟩
  | merge p q ih ih' =>
    obtain ⟨s, reach⟩ := ih clean.1
    obtain ⟨other, reach'⟩ := ih' clean.2.1
    exact ⟨_, reach.merge reach'⟩

/-- The rows that compare equal to a value. -/
def Plan.occurrences (p : Plan) (v : Value) : Nat := p.inputs.countP fun w => totalCmp v w = some .eq

theorem Plan.freq_eq_occurrences (good : ∀ w ∈ p.inputs, Good t w) (here : Good t v) : p.freq (keyOf v) = p.occurrences v := by
  unfold freq occurrences
  apply List.countP_congr
  intro w member
  simp only [decide_eq_true_eq]
  rw [eq_comm]
  exact keyOf_eq_iff here (good w member)

section Sorted

/-- An entry of a value of the type. -/
def Entry.Good (t : ScalarType) (e : Entry) : Prop := TopK.Good t e.value

theorem ahead_total (t : ScalarType) (a b : Entry) (left : a.Good t) (right : b.Good t) : Ahead a b ∨ Ahead b a := by
  unfold Ahead
  have lawful := (totalCmp_lawful (.scalar t)).1
  rcases lt_trichotomy a.count b.count with less | same | more
  · exact .inr (.inl less)
  · rcases lawful.total a.value b.value left.typed right.typed with ⟨o, made, le⟩ | ⟨o, made, le⟩
    · refine .inl (.inr ⟨same, ?_⟩)
      rw [made]
      cases o <;> simp_all
    · refine .inr (.inr ⟨same.symm, ?_⟩)
      rw [made]
      cases o <;> simp_all
  · exact .inl (.inl more)

theorem ahead_le {a b : Entry} (left : a.Good t) (right : b.Good t) (upTo : (totalCmp a.value b.value).getD .eq ≠ .gt) :
    ∃ o, totalCmp a.value b.value = some o ∧ o.isLE := by
  obtain ⟨o, made⟩ := (totalCmp_lawful (.scalar t)).1.answers a.value b.value left.typed right.typed
  rw [made] at upTo
  refine ⟨o, made, ?_⟩
  cases o <;> simp_all

theorem ahead_trans (t : ScalarType) (a b d : Entry) (left : a.Good t) (middle : b.Good t) (right : d.Good t) (le : Ahead a b)
    (le' : Ahead b d) : Ahead a d := by
  rcases le with more | ⟨same, upTo⟩
  · rcases le' with more' | ⟨same', _⟩
    · exact .inl (more'.trans more)
    · exact .inl (same' ▸ more)
  · rcases le' with more' | ⟨same', upTo'⟩
    · exact .inl (same ▸ more')
    · obtain ⟨o, made, le⟩ := (totalCmp_lawful (.scalar t)).1.trans _ _ _ left.typed middle.typed right.typed
        (ahead_le left middle upTo) (ahead_le middle right upTo')
      refine .inr ⟨same.trans same', ?_⟩
      rw [made]
      cases o <;> simp_all

theorem ahead_tied {a b : Entry} (left : a.Good t) (right : b.Good t) (le : Ahead a b) (ge : Ahead b a) :
    totalCmp a.value b.value = some .eq := by
  rcases le with more | ⟨same, upTo⟩
  · rcases ge with more' | ⟨same', _⟩
    · omega
    · omega
  · rcases ge with more' | ⟨same', upTo'⟩
    · omega
    · exact (totalCmp_lawful (.scalar t)).1.antisymm _ _ left.typed right.typed (ahead_le left right upTo) (ahead_le right left upTo')

theorem sorted_entries {l : List Entry} (good : ∀ e ∈ l, e.Good t) : (l.insertionSort Ahead).Pairwise Ahead := by
  classical
  have := Within.total (ahead_total t)
  have := Within.trans (ahead_trans t)
  have perm := List.perm_insertionSort Ahead l
  apply pairwise_of_within (P := Entry.Good t) fun e member => good e (perm.mem_iff.mp member)
  rw [insertionSort_within good]
  exact List.pairwise_insertionSort _ _

/-- A group's list does not depend on the order its map iterates in. -/
theorem finish_perm (keyed : Keyed s) (same : s.Perm s') (good : ∀ x ∈ s, x.1 = keyOf x.2.value ∧ Good t x.2.value) :
    finish s k = finish s' k := by
  have goods : ∀ e ∈ s.map Prod.snd, e.Good t := by
    rintro e member
    obtain ⟨x, inside, rfl⟩ := List.mem_map.mp member
    exact (good x inside).2
  have entries := same.map Prod.snd
  have left := List.perm_insertionSort Ahead (s.map Prod.snd)
  have right := List.perm_insertionSort Ahead (s'.map Prod.snd)
  have equal : (s.map Prod.snd).insertionSort Ahead = (s'.map Prod.snd).insertionSort Ahead := by
    apply List.Perm.eq_of_pairwise _ (sorted_entries goods) (sorted_entries fun e member => goods e (entries.mem_iff.mpr member))
      ((left.trans entries).trans right.symm)
    intro a b inside inside' le ge
    obtain ⟨⟨i, a⟩, first, rfl⟩ := List.mem_map.mp (left.mem_iff.mp inside)
    obtain ⟨⟨j, b⟩, second, rfl⟩ := List.mem_map.mp (entries.mem_iff.mpr (right.mem_iff.mp inside'))
    obtain ⟨key, here⟩ := good _ first
    obtain ⟨key', there⟩ := good _ second
    have one : i = j :=
      calc i = keyOf a.value := key
        _ = keyOf b.value := (keyOf_eq_iff here there).mpr (ahead_tied here there le ge)
        _ = j := key'.symm
    subst one
    exact keyed.unique first second
  have empty : s.isEmpty = s'.isEmpty := same.isEmpty_eq
  unfold finish
  rw [equal, empty]

end Sorted

/-- No more distinct values than the map has places. -/
def Plan.Few (c : Nat) (p : Plan) : Prop :=
  ∃ few : List Value, few.length ≤ c ∧ (∀ w ∈ few, w ∈ p.inputs) ∧ ∀ v ∈ p.inputs, ∃ w ∈ few, totalCmp v w = some .eq

/-- The more frequent first, then the smaller. -/
def Plan.Ahead (p : Plan) (v w : Value) : Prop :=
  p.occurrences w < p.occurrences v ∨ p.occurrences v = p.occurrences w ∧ (totalCmp v w).getD .eq ≠ .gt

/-- The `k` most frequent of the distinct rows, in order. -/
structure Plan.MostFrequent (p : Plan) (k : Nat) (vs : List Value) : Prop where
  inputs : ∀ v ∈ vs, v ∈ p.inputs
  order : vs.Pairwise fun v w => p.Ahead v w ∧ totalCmp v w ≠ some .eq
  short : vs.length ≤ k
  rest : ∀ w ∈ p.inputs, (∃ v ∈ vs, totalCmp w v = some .eq) ∨ vs.length = k ∧ ∀ v ∈ vs, p.Ahead v w

theorem Plan.Ahead.of_tied {u : Value} (left : Good t u) (middle : Good t w) (right : Good t v) (le : p.Ahead u w)
    (tied : totalCmp v w = some .eq) (same : p.occurrences v = p.occurrences w) : p.Ahead u v := by
  rcases le with more | ⟨level, upTo⟩
  · exact .inl (same ▸ more)
  · have back := (totalCmp_lawful (.scalar t)).1.swap v w .eq right.typed middle.typed tied
    obtain ⟨o, made, le⟩ := (totalCmp_lawful (.scalar t)).1.trans u w v left.typed middle.typed right.typed
      (ahead_le (a := ⟨u, 0, 0⟩) (b := ⟨w, 0, 0⟩) left middle upTo) ⟨_, back, rfl⟩
    refine .inr ⟨level.trans same.symm, ?_⟩
    rw [made]
    cases o <;> simp_all

section Results

variable (good : ∀ v ∈ p.inputs, Good t v) (reach : Reach c p s)

include good reach

theorem Reach.entries : ∀ x ∈ s, x.1 = keyOf x.2.value ∧ Good t x.2.value :=
  fun x member => ⟨(reach.kept x member).1, good _ (reach.kept x member).2⟩

theorem Reach.freq_kept {x : Key × Entry} (member : x ∈ s) : p.freq x.1 = p.occurrences x.2.value := by
  obtain ⟨key, here⟩ := reach.entries good x member
  rw [key, Plan.freq_eq_occurrences good here]

theorem Reach.bounds (some_ : 0 < c) (clean : p.Clean c) {x : Key × Entry} (member : x ∈ s) :
    x.2.count ≤ p.occurrences x.2.value + x.2.error ∧ p.occurrences x.2.value ≤ x.2.count := by
  have counts := reach.counts some_ clean
  rw [← reach.freq_kept good member]
  exact ⟨counts.lower x member, counts.upper x member⟩

/-- A full map whose counts all reach a row's count has no place for one that is more frequent than the average. -/
theorem Reach.frequent (some_ : 0 < c) (clean : p.Clean c) (inside : v ∈ p.inputs)
    (often : p.inputs.length < p.occurrences v * c) : ∃ x ∈ s, totalCmp v x.2.value = some .eq := by
  have counts := reach.counts some_ clean
  have here := good v inside
  by_contra lost
  have absent : ∀ x ∈ s, x.1 ≠ keyOf v := by
    intro x member same
    obtain ⟨key, there⟩ := reach.entries good x member
    exact lost ⟨x, member, (keyOf_eq_iff here there).mp (same.symm.trans key)⟩
  rw [← Plan.freq_eq_occurrences good here] at often
  rcases counts.absent _ absent with zero | ⟨full, above⟩
  · rw [zero] at often
    omega
  · have enough := total_mul_le above
    have rows := counts.total
    rw [full, Nat.mul_comm] at enough
    omega

theorem Reach.of_few (few : p.Few c) : Exactly p.freq s := by
  obtain ⟨reps, short, reps_inside, covers⟩ := few
  apply reach.exactly
  have sub : p.keys ⊆ (reps.map keyOf).toFinset := by
    intro key
    simp only [Plan.keys, List.mem_toFinset, List.mem_map]
    rintro ⟨v, inside, rfl⟩
    obtain ⟨w, rep, tied⟩ := covers v inside
    exact ⟨w, rep, ((keyOf_eq_iff (good v inside) (good w (reps_inside w rep))).mpr tied).symm⟩
  calc p.keys.card ≤ (reps.map keyOf).toFinset.card := Finset.card_le_card sub
    _ ≤ (reps.map keyOf).length := List.toFinset_card_le _
    _ ≤ c := by rw [List.length_map]; exact short

theorem Reach.tied_of_few (few : p.Few c) (inside : v ∈ p.inputs) : ∃ x ∈ s, totalCmp v x.2.value = some .eq := by
  have once : 0 < p.freq (keyOf v) := List.countP_pos_iff.mpr ⟨v, inside, by simp⟩
  obtain ⟨e, found⟩ := exists_of_get (((reach.of_few good few).seen _).mpr once)
  have member := mem_of_get found
  obtain ⟨key, there⟩ := reach.entries good _ member
  exact ⟨_, member, (keyOf_eq_iff (good v inside) there).mp key⟩

theorem Reach.ahead (few : p.Few c) {x y : Key × Entry} (left : x ∈ s) (right : y ∈ s) :
    Ahead x.2 y.2 ↔ p.Ahead x.2.value y.2.value := by
  have exactly := reach.of_few good few
  unfold TopK.Ahead Plan.Ahead
  rw [(exactly.counts x left).1, (exactly.counts y right).1, reach.freq_kept good left, reach.freq_kept good right]

theorem Reach.apart (keyed : Keyed s) : (s.map Prod.snd).Pairwise fun a b => keyOf a.value ≠ keyOf b.value := by
  have names : s.Pairwise fun x y => x.1 ≠ y.1 := List.pairwise_map.mp keyed
  rw [List.pairwise_map]
  apply names.imp_of_mem
  intro x y left right other
  rw [← (reach.entries good x left).1, ← (reach.entries good y right).1]
  exact other

/-- With a place for each distinct row, the first entries of a map in order are its most frequent rows. -/
theorem Reach.take_mostFrequent (few : p.Few c) (k : Nat) :
    p.MostFrequent k ((((s.map Prod.snd).insertionSort Ahead).take k).map Entry.value) := by
  have exactly := reach.of_few good few
  have entries := reach.entries good
  have goods : ∀ e ∈ s.map Prod.snd, e.Good t := by
    intro e member
    obtain ⟨x, inside, rfl⟩ := List.mem_map.mp member
    exact (entries x inside).2
  have perm := List.perm_insertionSort Ahead (s.map Prod.snd)
  have sorted := sorted_entries goods
  have apart : ((s.map Prod.snd).insertionSort Ahead).Pairwise fun a b => keyOf a.value ≠ keyOf b.value :=
    (reach.apart good exactly.keyed).perm perm.symm Ne.symm
  have origin {e : Entry} (inside : e ∈ (s.map Prod.snd).insertionSort Ahead) : ∃ x ∈ s, x.2 = e :=
    List.mem_map.mp (perm.mem_iff.mp inside)
  have ahead {a b : Entry} (left : a ∈ (s.map Prod.snd).insertionSort Ahead) (right : b ∈ (s.map Prod.snd).insertionSort Ahead)
      (le : Ahead a b) : p.Ahead a.value b.value := by
    obtain ⟨x, first, rfl⟩ := origin left
    obtain ⟨y, second, rfl⟩ := origin right
    exact (reach.ahead good few first second).mp le
  refine ⟨?_, ?_, ?_, ?_⟩
  · intro v member
    obtain ⟨e, taken, rfl⟩ := List.mem_map.mp member
    obtain ⟨x, inside, rfl⟩ := origin (List.mem_of_mem_take taken)
    exact (reach.kept x inside).2
  · rw [List.pairwise_map]
    apply ((sorted.and apart).sublist (List.take_sublist k _)).imp_of_mem
    intro a b left right both
    have inside := List.mem_of_mem_take left
    have inside' := List.mem_of_mem_take right
    obtain ⟨x, first, rfl⟩ := origin inside
    obtain ⟨y, second, rfl⟩ := origin inside'
    refine ⟨ahead inside inside' both.1, fun tied => both.2 ?_⟩
    exact (keyOf_eq_iff (entries x first).2 (entries y second).2).mpr tied
  · rw [List.length_map, List.length_take]
    exact Nat.min_le_left _ _
  · intro w inside
    obtain ⟨x, member, tied⟩ := reach.tied_of_few good few inside
    have whole := perm.mem_iff.mpr (List.mem_map_of_mem (f := Prod.snd) member)
    rw [← List.take_append_drop k ((s.map Prod.snd).insertionSort Ahead), List.mem_append] at whole
    rcases whole with taken | dropped
    · exact .inl ⟨_, List.mem_map_of_mem taken, tied⟩
    · have long := List.length_pos_of_mem dropped
      rw [List.length_drop] at long
      refine .inr ⟨?_, ?_⟩
      · rw [List.length_map, List.length_take]
        omega
      · intro v member'
        obtain ⟨e, taken, rfl⟩ := List.mem_map.mp member'
        have across := List.take_append_drop k ((s.map Prod.snd).insertionSort Ahead) ▸ sorted
        have le := ahead (List.mem_of_mem_take taken) (List.mem_of_mem_drop dropped)
          ((List.pairwise_append.mp across).2.2 e taken _ dropped)
        obtain ⟨y, inside', rfl⟩ := origin (List.mem_of_mem_take taken)
        obtain ⟨key, there⟩ := entries x member
        have level : p.occurrences w = p.occurrences x.2.value := by
          rw [← Plan.freq_eq_occurrences good (good w inside), ← Plan.freq_eq_occurrences good there,
            (keyOf_eq_iff (good w inside) there).mpr tied]
        exact le.of_tied (entries y inside').2 there (good w inside) tied level

/-- With a place for each distinct row, a group's list is its most frequent rows. -/
theorem Reach.mostFrequent (few : p.Few c) (k : Nat) :
    p.inputs = [] ∧ finish s k = .null ∨ ∃ vs, finish s k = .list vs ∧ p.MostFrequent k vs := by
  have list := reach.take_mostFrequent good few k
  cases s with
  | nil =>
    refine .inl ⟨?_, rfl⟩
    by_contra some_
    obtain ⟨v, inside⟩ := List.exists_mem_of_ne_nil _ some_
    obtain ⟨x, member, _⟩ := reach.tied_of_few good few inside
    cases member
  | cons x s => exact .inr ⟨_, rfl, list⟩

end Results

/-- With a place for each distinct row nothing is lost, and nothing takes another's place. -/
theorem Plan.clean_of_keys (p : Plan) (few : p.keys.card ≤ c) : p.Clean c := by
  induction p with
  | empty => trivial
  | row p v ih =>
    by_cases null : v.isNull = true
    · have keys : (Plan.row p v).keys = p.keys := by
        unfold Plan.keys
        rw [(Plan.freq_null null).2]
      refine ⟨ih (keys ▸ few), fun s _ value => ?_⟩
      rw [null] at value
      cases value
    · have value : v.isNull = false := by simpa using null
      rw [Plan.keys_row value] at few
      have before := (Finset.card_le_card (Finset.subset_insert _ _)).trans few
      refine ⟨ih before, fun s reach _ lost full => ?_⟩
      have exactly := reach.exactly before
      have unseen : keyOf v ∉ p.keys := by
        rw [p.mem_keys, ← exactly.seen, lost]
        exact fun kept => kept rfl
      rw [Finset.card_insert_of_notMem unseen, ← exactly.length p.mem_keys] at few
      omega
  | merge p q ih ih' =>
    have left := (Finset.card_le_card (Plan.keys_left p q)).trans few
    have right := (Finset.card_le_card (Plan.keys_right p q)).trans few
    refine ⟨ih left, ih' right, fun s other reach reach' key some_ some' => ?_⟩
    exact ⟨((reach.exactly left).seen key).mpr some_, ((reach'.exactly right).seen key).mpr some'⟩

theorem TopKAccumulator.new_ok {P : Platform} {ty : DataType} {acc : TopKAccumulator} (room : 8 * k < 2 ^ 64) :
    new P ty k = .ok acc ↔ (∃ t, ty = .scalar t) ∧ k ≠ 0 ∧ acc = ⟨ty, k, max (8 * k) 64⟩ := by
  have product : usizeMul P 8 k = .ok (8 * k) := if_pos room
  cases ty with
  | list t => simp [new]
  | scalar t =>
    unfold new
    by_cases zero : k = 0
    · simp [ensure, zero, bind, Except.bind]
    · simp [ensure, zero, product, bind, Except.bind, pure, Except.pure, eq_comm]

/-- What is kept of the plan's rows: counts within their errors, every value more frequent than the average place, the exact
    list where each distinct value has a place, and one list whatever order the maps iterate in. -/
structure Plan.Kept (p : Plan) (acc : TopKAccumulator) (s : Summary) : Prop where
  bounds : ∀ x ∈ s, x.2.count ≤ p.occurrences x.2.value + x.2.error ∧ p.occurrences x.2.value ≤ x.2.count
  frequent : ∀ v ∈ p.inputs, p.inputs.length < p.occurrences v * acc.capacity → ∃ x ∈ s, totalCmp v x.2.value = some .eq
  counts : p.Few acc.capacity → ∀ x ∈ s, x.2.count = p.occurrences x.2.value ∧ x.2.error = 0
  list : p.Few acc.capacity →
    p.inputs = [] ∧ finish s acc.k = .null ∨ ∃ vs, finish s acc.k = .list vs ∧ p.MostFrequent acc.k vs
  one : ∀ s', Reach acc.capacity p s' → finish s' acc.k = finish s acc.k

/-- Over any rows and merges that never choose among several least counts, nor merge what one side has lost. -/
theorem topK_kept (P : Platform) (t : ScalarType) (k : Nat) (p : Plan) {acc : TopKAccumulator}
    (made : TopKAccumulator.new P (.scalar t) k = .ok acc) (room : 8 * k < 2 ^ 64) (good : ∀ v ∈ p.inputs, Good t v)
    (clean : p.Clean acc.capacity) :
    acc.capacity = max 64 (8 * k) ∧ (∃ s, Reach acc.capacity p s) ∧ ∀ s, Reach acc.capacity p s → p.Kept acc s := by
  obtain ⟨_, _, rfl⟩ := (TopKAccumulator.new_ok room).mp made
  have some_ : 0 < max (8 * k) 64 := by omega
  refine ⟨Nat.max_comm _ _, exists_reach some_ p clean, fun s reach => ?_⟩
  refine ⟨?_, ?_, ?_, ?_, ?_⟩
  · exact fun x member => reach.bounds good some_ clean member
  · exact fun v inside often => reach.frequent good some_ clean inside often
  · intro few x member
    have exactly := (reach.of_few good few).counts x member
    rw [← reach.freq_kept good member]
    exact exactly
  · exact fun few => reach.mostFrequent good few k
  · intro s' reach'
    have keyed := (reach'.counts some_ clean).keyed
    exact finish_perm keyed (reach'.unique some_ reach clean) (reach'.entries good)

def number (n : Nat) : Value := .int64 (wrapI64 n)

/-- Rows one after another. -/
def Plan.rows (ns : List Nat) : Plan := (ns.map number).foldl .row .empty

theorem Plan.inputs_foldl {vs : List Value} (values : ∀ v ∈ vs, v.isNull = false) (p : Plan) :
    (vs.foldl Plan.row p).inputs = p.inputs ++ vs := by
  induction vs generalizing p with
  | nil => simp
  | cons v vs ih =>
    rw [List.forall_mem_cons] at values
    have inputs : (Plan.row p v).inputs = p.inputs ++ [v] := if_neg (by simp [values.1])
    rw [List.foldl_cons, ih values.2, inputs, List.append_assoc, List.singleton_append]

theorem Plan.inputs_rows (ns : List Nat) : (Plan.rows ns).inputs = ns.map number := by
  apply Plan.inputs_foldl
  intro v member
  obtain ⟨n, _, rfl⟩ := List.mem_map.mp member
  rfl

theorem Plan.rows_good (ns : List Nat) : ∀ v ∈ (Plan.rows ns).inputs, Good .int64 v := by
  rw [inputs_rows]
  intro v member
  obtain ⟨n, _, rfl⟩ := List.mem_map.mp member
  exact ⟨trivial, trivial, rfl⟩

/-- Two sides with a row of 7 each. -/
theorem topK_kept_sevens : (∀ v ∈ (Plan.merge (.rows [7]) (.rows [7])).inputs, Good .int64 v) ∧
    ∀ s, Reach 64 (.merge (.rows [7]) (.rows [7])) s → (Plan.merge (.rows [7]) (.rows [7])).Kept ⟨.int64, 1, 64⟩ s := by
  have good : ∀ v ∈ (Plan.merge (.rows [7]) (.rows [7])).inputs, Good .int64 v := by
    intro v member
    rcases List.mem_append.mp member with left | right
    · exact Plan.rows_good [7] v left
    · exact Plan.rows_good [7] v right
  have few : (Plan.merge (.rows [7]) (.rows [7])).keys.card ≤ 64 := (List.toFinset_card_le _).trans (by decide)
  have made : TopKAccumulator.new checkedPlatform .int64 1 = .ok ⟨.int64, 1, 64⟩ := rfl
  exact ⟨good, (topK_kept checkedPlatform .int64 1 _ made (by decide) good (Plan.clean_of_keys _ few)).2.2⟩

/-- What a plan leaves when every map iterates in the order it stands in. -/
def Plan.run (c : Nat) : Plan → Option Summary
  | .empty => some []
  | .row p v => (p.run c).bind fun s => updateRow s v c
  | .merge p q => (p.run c).bind fun s => (q.run c).map fun other => TopK.merge s other c

theorem Plan.run_reach {p : Plan} {s : Summary} (ran : p.run c = some s) : Reach c p s := by
  induction p generalizing s with
  | empty =>
    cases ran
    exact .empty
  | row p v ih =>
    obtain ⟨before, first, made⟩ := Option.bind_eq_some_iff.mp ran
    exact (ih first).row made
  | merge p q ih ih' =>
    obtain ⟨one, first, made⟩ := Option.bind_eq_some_iff.mp ran
    obtain ⟨two, second, rfl⟩ := Option.map_eq_some_iff.mp made
    exact (ih first).merge (ih' second)

/-- A row of 0, two of each of 1 to 63, and a row of 64 in the place of the 0. -/
def lossy : Plan := .rows (0 :: (List.range 63).flatMap (fun n => [n + 1, n + 1]) ++ [64])

/-- Rows of 0 that the other side keeps: three of the four are counted. -/
def lossyMerge : Plan := .merge lossy (.rows [0, 0, 0])

/-- 64 distinct rows, so that the next one takes any of their places. -/
def tiedRows : Plan := .rows (List.range 64)

set_option maxRecDepth 10000 in
theorem lossyMerge_counts :
    (lossyMerge.run 64).map (fun s => s.any fun x => x.2.count < lossyMerge.occurrences x.2.value) = some true := by
  decide +kernel

set_option maxRecDepth 10000 in
theorem tiedRows_lists : ((tiedRows.run 64).bind fun s => (updateRow s (number 64) 64).bind fun one =>
    (updateRow s.reverse (number 64) 64).map fun two => decide (keyOf (finish one 2) = keyOf (finish two 2))) = some false := by
  decide +kernel

theorem lossyMerge_good : ∀ v ∈ lossyMerge.inputs, Good .int64 v := by
  intro v member
  rcases List.mem_append.mp member with left | right
  · exact Plan.rows_good _ v left
  · exact Plan.rows_good _ v right

theorem tiedRows_good : ∀ v ∈ (Plan.row tiedRows (number 64)).inputs, Good .int64 v := by
  have whole : Plan.row tiedRows (number 64) = .rows (List.range 65) := rfl
  rw [whole]
  exact Plan.rows_good _

/-- A count below its value's rows after a merge, and two lists of one run of rows. -/
theorem topK_lost : TopKAccumulator.new checkedPlatform .int64 2 = .ok ⟨.int64, 2, 64⟩ ∧
    ((∀ v ∈ lossyMerge.inputs, Good .int64 v) ∧ ∃ s, Reach 64 lossyMerge s ∧ ∃ x ∈ s, x.2.count < lossyMerge.occurrences x.2.value) ∧
    (∀ v ∈ (Plan.row tiedRows (number 64)).inputs, Good .int64 v) ∧ ∃ s s', Reach 64 (.row tiedRows (number 64)) s ∧
      Reach 64 (.row tiedRows (number 64)) s' ∧ finish s 2 ≠ finish s' 2 := by
  refine ⟨rfl, ⟨lossyMerge_good, ?_⟩, tiedRows_good, ?_⟩
  · obtain ⟨s, ran, some_⟩ := Option.map_eq_some_iff.mp lossyMerge_counts
    obtain ⟨x, member, below⟩ := List.any_eq_true.mp some_
    exact ⟨s, Plan.run_reach ran, x, member, of_decide_eq_true below⟩
  · obtain ⟨s, ran, made⟩ := Option.bind_eq_some_iff.mp tiedRows_lists
    obtain ⟨one, first, made⟩ := Option.bind_eq_some_iff.mp made
    obtain ⟨two, second, apart⟩ := Option.map_eq_some_iff.mp made
    have reach := Plan.run_reach ran
    refine ⟨one, two, reach.row first, (reach.reorder s.reverse_perm.symm).row second, fun same => ?_⟩
    exact of_decide_eq_false apart (congrArg keyOf same)

end TopK

end Adelie
