import Adelie.Segment.Wire
import Adelie.Types.Platform

namespace Adelie

namespace Hll

def indexBits : Nat := 14
def registers : Nat := 2 ^ indexBits

/-- A group's hashes are kept exactly below this many. -/
def sparseLimit : Nat := 64

abbrev Registers := Fin registers → Nat

inductive HllState where
  | sparse (hashes : List U64)
  | dense (regs : Registers)

/-- `binary_search` of a sorted vector: where the hash is, or where it would go. -/
def binarySearch (v : List U64) (hash : U64) : Except Nat Nat :=
  let pos := (v.takeWhile (· < hash)).length
  if v[pos]? = some hash then .ok pos else .error pos

/-- The hash put in its place, unless it is there. -/
def addHash (v : List U64) (hash : U64) : List U64 :=
  match binarySearch v hash with
  | .ok _ => v
  | .error pos => v.insertIdx pos hash

theorem bucket_lt (hash : U64) : hash.val / 2 ^ (64 - indexBits) < registers := by
  have small := hash.property
  change hash.val / 2 ^ 50 < 2 ^ 14
  omega

/-- The top bits of the hash. -/
def bucket (hash : U64) : Fin registers := ⟨hash.val / 2 ^ (64 - indexBits), bucket_lt hash⟩

def leadingZeros (x : Nat) : Nat := 64 - x.size

/-- Leading zeros of the remaining bits, shifted up, and one more. -/
def rank (hash : U64) : Nat := min (leadingZeros (hash.val * 2 ^ indexBits % 2 ^ 64) + 1) 51

def insertDense (regs : Registers) (hash : U64) : Registers :=
  if regs (bucket hash) < rank hash then Function.update regs (bucket hash) (rank hash) else regs

namespace HllState

/-- Dense registers from the exact hashes. -/
def promote : HllState → Registers
  | .dense regs => regs
  | .sparse v => v.foldl insertDense fun _ => 0

def insert (s : HllState) (hash : U64) : HllState :=
  match s with
  | .dense regs => .dense (insertDense regs hash)
  | .sparse v =>
    let v := addHash v hash
    if sparseLimit ≤ v.length then .dense (promote (.sparse v)) else .sparse v

def merge (s other : HllState) : HllState :=
  match other with
  | .sparse v => v.foldl insert s
  | .dense rb => .dense fun i => max (s.promote i) (rb i)

/-- The count while sparse; `estimateDense` is the float estimate. -/
def estimate (estimateDense : Registers → Float64) : HllState → Float64
  | .sparse v => .ofNat false v.length
  | .dense regs => estimateDense regs

def encode : HllState → List UInt8
  | .dense regs => Sink.u8 1 ++ (Sink.u8 0 ++ (List.ofFn regs).map UInt8.ofNat)
  | .sparse v => Sink.u8 1 ++ (Sink.u8 1 ++ (Sink.uvarint v.length ++ v.flatMap fun hash => Sink.u64 hash.val))

end HllState

/-- How a state came about: hashes inserted and states merged, in any order. -/
inductive Plan where
  | empty
  | insert (p : Plan) (hash : U64)
  | merge (p q : Plan)

namespace Plan

def state : Plan → HllState
  | .empty => .sparse []
  | .insert p hash => p.state.insert hash
  | .merge p q => p.state.merge q.state

/-- The distinct hashes seen. -/
def hashes : Plan → Finset U64
  | .empty => ∅
  | .insert p hash => Insert.insert hash p.hashes
  | .merge p q => p.hashes ∪ q.hashes

end Plan

/-- Each register the greatest rank of its bucket. -/
def registersOf (seen : Finset U64) : Registers := fun i => (seen.filter (bucket · = i)).sup rank

/-- The state of a set of hashes: sorted below the limit, registers from there on. -/
inductive Of (seen : Finset U64) : HllState → Prop
  | sparse {v : List U64} (sorted : v.Pairwise (· < ·)) (members : v.toFinset = seen) (few : seen.card < sparseLimit) : Of seen (.sparse v)
  | dense (many : sparseLimit ≤ seen.card) : Of seen (.dense (registersOf seen))

section Registers

variable {seen other : Finset U64} {hash : U64}

theorem registersOf_insert (seen : Finset U64) (hash : U64) : insertDense (registersOf seen) hash = registersOf (insert hash seen) := by
  funext i
  unfold insertDense registersOf
  rw [Finset.filter_insert]
  by_cases here : bucket hash = i
  · subst here
    rw [if_pos rfl, Finset.sup_insert]
    split
    · rename_i higher
      rw [Function.update_self]
      exact (max_eq_left (Nat.le_of_lt higher)).symm
    · rename_i lower
      exact (max_eq_right (Nat.le_of_not_lt lower)).symm
  · rw [if_neg here]
    split
    · rw [Function.update_of_ne (Ne.symm here)]
    · rfl

theorem registersOf_union (seen other : Finset U64) : (fun i => max (registersOf seen i) (registersOf other i)) = registersOf (seen ∪ other) := by
  funext i
  unfold registersOf
  rw [Finset.filter_union, Finset.sup_union]

theorem registersOf_empty : registersOf ∅ = fun _ => 0 := rfl

theorem foldl_insertDense (v : List U64) (seen : Finset U64) : v.foldl insertDense (registersOf seen) = registersOf (seen ∪ v.toFinset) := by
  induction v generalizing seen with
  | nil => simp
  | cons hash v ih =>
    rw [List.foldl_cons, registersOf_insert, ih, List.toFinset_cons, Finset.insert_union, Finset.union_insert]

theorem promote_of {s : HllState} (of : Of seen s) : s.promote = registersOf seen := by
  cases of with
  | dense => rfl
  | sparse _ members _ =>
    have folded := foldl_insertDense ‹List U64› ∅
    rw [registersOf_empty, Finset.empty_union, members] at folded
    exact folded

end Registers

section Sorted

variable {v : List U64} {hash : U64}

theorem insertIdx_append {α : Type} (a b : List α) (x : α) : (a ++ b).insertIdx a.length x = a ++ x :: b := by
  induction a with
  | nil => rfl
  | cons y a ih => rw [List.cons_append, List.length_cons, List.insertIdx_succ_cons, ih, List.cons_append]

/-- A new hash goes between the smaller and the greater ones. -/
theorem addHash_sorted (sorted : v.Pairwise (· < ·)) :
    (addHash v hash).Pairwise (· < ·) ∧ (addHash v hash).toFinset = insert hash v.toFinset := by
  have whole : v.takeWhile (· < hash) ++ v.dropWhile (· < hash) = v := List.takeWhile_append_dropWhile
  have below : ∀ x ∈ v.takeWhile (· < hash), x < hash := fun x member => by simpa using List.mem_takeWhile_imp member
  unfold addHash binarySearch
  dsimp only
  generalize v.takeWhile (· < hash) = a at whole below
  cases rest : v.dropWhile (· < hash) with
  | nil =>
    rw [rest, List.append_nil] at whole
    subst whole
    have none_ : a[a.length]? = none := List.getElem?_eq_none (Nat.le_refl _)
    rw [none_, if_neg (by simp)]
    dsimp only
    have placed := insertIdx_append a [] hash
    rw [List.append_nil] at placed
    rw [placed]
    constructor
    · apply List.pairwise_append.mpr
      exact ⟨sorted, List.pairwise_singleton _ _, fun x member y last => by rw [List.mem_singleton.mp last]; exact below x member⟩
    · ext x
      simp
  | cons y b =>
    have least : ¬y < hash := by
      have head := List.head_dropWhile_not (p := fun x => decide (x < hash)) (l := v) (by simp [rest])
      simpa [rest] using head
    rw [rest] at whole
    subst whole
    have first : (a ++ y :: b)[a.length]? = some y := by simp
    rw [first]
    by_cases same : y = hash
    · subst same
      rw [if_pos rfl]
      exact ⟨sorted, by ext x; simp⟩
    · rw [if_neg (fun found => same (Option.some.inj found))]
      dsimp only
      rw [insertIdx_append]
      have above : hash < y := lt_of_le_of_ne (not_lt.mp least) (Ne.symm same)
      obtain ⟨left, right, across⟩ := List.pairwise_append.mp sorted
      constructor
      · apply List.pairwise_append.mpr
        refine ⟨left, List.pairwise_cons.mpr ⟨?_, right⟩, ?_⟩
        · intro z member
          rcases List.mem_cons.mp member with rfl | member
          · exact above
          · exact lt_trans above ((List.pairwise_cons.mp right).1 z member)
        · intro x member z later
          rcases List.mem_cons.mp later with rfl | later
          · exact below x member
          · exact across x member z later
      · ext x
        simp

end Sorted

section States

variable {seen other : Finset U64} {s t : HllState} {hash : U64}

theorem length_of_sorted {v : List U64} (sorted : v.Pairwise (· < ·)) : v.toFinset.card = v.length :=
  List.toFinset_card_of_nodup (sorted.imp fun lt => ne_of_lt lt)

/-- A set of hashes has one state. -/
theorem Of.unique (of : Of seen s) (of' : Of seen t) : s = t := by
  cases of with
  | sparse sorted members few =>
    cases of' with
    | dense many => exact absurd few (Nat.not_lt.mpr many)
    | sparse sorted' members' _ =>
      apply congrArg HllState.sparse
      apply List.Perm.eq_of_pairwise' (sorted.imp le_of_lt) (sorted'.imp le_of_lt)
      apply (List.perm_ext_iff_of_nodup (sorted.imp fun lt => ne_of_lt lt) (sorted'.imp fun lt => ne_of_lt lt)).mpr
      intro x
      rw [← List.mem_toFinset, ← List.mem_toFinset, members, members']
  | dense many =>
    cases of' with
    | sparse _ _ few => exact absurd few (Nat.not_lt.mpr many)
    | dense _ => rfl

theorem Of.empty : Of ∅ (.sparse []) := .sparse .nil rfl (by decide)

theorem Of.insert (of : Of seen s) (hash : U64) : Of (insert hash seen) (s.insert hash) := by
  cases of with
  | dense many =>
    have step : HllState.insert (.dense (registersOf seen)) hash = .dense (registersOf (Insert.insert hash seen)) :=
      congrArg HllState.dense (registersOf_insert seen hash)
    rw [step]
    exact .dense (Nat.le_trans many (Finset.card_le_card (Finset.subset_insert _ _)))
  | @sparse v sorted members few =>
    obtain ⟨sorted', members'⟩ := @addHash_sorted v hash sorted
    rw [members] at members'
    have count := length_of_sorted sorted'
    rw [members'] at count
    unfold HllState.insert
    dsimp only
    by_cases full : sparseLimit ≤ (addHash v hash).length
    · rw [if_pos full]
      have folded := foldl_insertDense (addHash v hash) ∅
      rw [registersOf_empty, Finset.empty_union, members'] at folded
      have promoted : HllState.promote (.sparse (addHash v hash)) = registersOf (Insert.insert hash seen) := folded
      rw [promoted]
      exact .dense (by rw [count]; exact full)
    · rw [if_neg full]
      exact .sparse sorted' members' (by rw [count]; exact Nat.lt_of_not_le full)

theorem Of.insertAll (of : Of seen s) (v : List U64) : Of (seen ∪ v.toFinset) (v.foldl HllState.insert s) := by
  induction v generalizing seen s with
  | nil => simpa using of
  | cons hash v ih =>
    rw [List.toFinset_cons, Finset.union_insert, ← Finset.insert_union]
    exact ih (of.insert hash)

theorem Of.merge (of : Of seen s) (of' : Of other t) : Of (seen ∪ other) (s.merge t) := by
  cases of' with
  | sparse _ members _ =>
    rw [← members]
    exact of.insertAll _
  | dense many =>
    have step : s.merge (.dense (registersOf other)) = .dense (registersOf (seen ∪ other)) := by
      rw [HllState.merge, promote_of of, registersOf_union]
    rw [step]
    exact .dense (Nat.le_trans many (Finset.card_le_card Finset.subset_union_right))

theorem Plan.of (p : Plan) : Of p.hashes p.state := by
  induction p with
  | empty => exact .empty
  | insert p hash ih => exact ih.insert hash
  | merge p q left right => exact left.merge right

end States

/-- A sparse count is read back from its float. -/
theorem round_ofNat : ∀ n < sparseLimit, (Float64.ofNat false n).round? = some (n : Int) := by decide +kernel

/-- The state is that of the set of hashes seen, however they were inserted and merged, and merging is the union. -/
theorem state_exact (estimateDense : Registers → Float64) (p q r : Plan) :
    (p.hashes.card < sparseLimit → ∃ v, p.state = .sparse v ∧ v.Pairwise (· < ·) ∧ v.toFinset = p.hashes ∧
      (p.state.estimate estimateDense).round? = some (p.hashes.card : Int)) ∧
    (sparseLimit ≤ p.hashes.card → p.state = .dense fun i => (p.hashes.filter (bucket · = i)).sup rank) ∧
    (p.hashes = q.hashes → p.state = q.state ∧ p.state.encode = q.state.encode) ∧
    p.state.merge q.state = q.state.merge p.state ∧
    (p.state.merge q.state).merge r.state = p.state.merge (q.state.merge r.state) ∧
    p.state.merge p.state = p.state := by
  refine ⟨?_, ?_, ?_, ?_, ?_, ?_⟩
  · intro few
    have of := p.of
    generalize p.state = s at of
    cases of with
    | dense many => exact absurd few (Nat.not_lt.mpr many)
    | sparse sorted members _ =>
      refine ⟨_, rfl, sorted, members, ?_⟩
      have count := length_of_sorted sorted
      rw [members] at count
      rw [HllState.estimate, ← count]
      exact round_ofNat _ few
  · intro many
    exact p.of.unique (.dense many)
  · intro same
    have state : p.state = q.state := p.of.unique (same ▸ q.of)
    exact ⟨state, congrArg HllState.encode state⟩
  · apply (p.of.merge q.of).unique
    rw [Finset.union_comm]
    exact q.of.merge p.of
  · apply ((p.of.merge q.of).merge r.of).unique
    rw [Finset.union_assoc]
    exact p.of.merge (q.of.merge r.of)
  · have own := p.of.merge p.of
    rw [Finset.union_self] at own
    exact own.unique p.of

end Hll

end Adelie
