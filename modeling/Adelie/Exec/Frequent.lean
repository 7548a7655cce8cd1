import Adelie.Exec.Heavy

namespace Adelie

namespace TopK

open Assoc

variable {c : Nat} {f : Key → Nat} {s t : Summary} {key : Key} {value : Value}

/-- Every key seen is kept, with its own count. -/
structure Exactly (f : Key → Nat) (s : Summary) : Prop where
  keyed : Keyed s
  counts : ∀ x ∈ s, x.2.count = f x.1 ∧ x.2.error = 0
  seen : ∀ key, get s key ≠ none ↔ 0 < f key

theorem Exactly.empty : Exactly (fun _ => 0) [] := ⟨List.nodup_nil, fun _ member => (by cases member), fun _ => by simp [Assoc.get]⟩

theorem Exactly.perm (exactly : Exactly f s) (same : s.Perm t) : Exactly f t where
  keyed := exactly.keyed.perm same
  counts x member := exactly.counts x (same.mem_iff.mpr member)
  seen key := by rw [← get_perm exactly.keyed same, exactly.seen]

theorem Exactly.length (exactly : Exactly f s) {keys : Finset Key} (all : ∀ key, key ∈ keys ↔ 0 < f key) : s.length = keys.card := by
  have same : (s.map Prod.fst).toFinset = keys := by
    ext key
    rw [all, ← exactly.seen, List.mem_toFinset, List.mem_map]
    constructor
    · rintro ⟨⟨j, e⟩, member, rfl⟩
      rw [get_of_mem exactly.keyed member]
      exact Option.some_ne_none e
    · intro kept
      obtain ⟨e, found⟩ := exists_of_get kept
      exact ⟨(key, e), mem_of_get found, rfl⟩
  rw [← same, List.toFinset_card_of_nodup exactly.keyed, List.length_map]

theorem Exactly.insert (exactly : Exactly f s) {keys : Finset Key} (all : ∀ key, key ∈ keys ↔ 0 < f key)
    (few : (Insert.insert key keys).card ≤ c) {s' : Summary} (made : insert s key value c = some s') : Exactly (bump f key) s' := by
  unfold TopK.insert at made
  cases found : get s key with
  | some e =>
    rw [found] at made
    cases made
    have member := mem_of_get found
    have counts := exactly.counts _ member
    refine Exactly.perm ⟨?_, ?_, ?_⟩ (perm_modify exactly.keyed member _).symm
    · exact keyed_cons.mpr ⟨fun y inside => (mem_remove.mp inside).2, exactly.keyed.remove⟩
    · rw [List.forall_mem_cons, bump_self]
      refine ⟨⟨congrArg (· + 1) counts.1, counts.2⟩, fun y inside => ?_⟩
      obtain ⟨old, other⟩ := mem_remove.mp inside
      rw [bump_of_ne other]
      exact exactly.counts y old
    · intro j
      rw [get_cons, get_remove]
      by_cases here : j = key
      · subst here
        rw [if_pos rfl, bump_self]
        simp
      · rw [if_neg (Ne.symm here), if_neg here, bump_of_ne here]
        exact exactly.seen j
  | none =>
    rw [found] at made
    have new := get_eq_none.mp found
    have unseen : key ∉ keys := by
      rw [all, ← exactly.seen, found]
      exact fun kept => kept rfl
    have room : s.length < c := by
      rw [Finset.card_insert_of_notMem unseen, ← exactly.length all] at few
      omega
    dsimp only at made
    rw [if_pos room] at made
    cases made
    have zero : f key = 0 := by
      rw [all] at unseen
      omega
    refine ⟨keyed_cons.mpr ⟨new, exactly.keyed⟩, ?_, ?_⟩
    · rw [List.forall_mem_cons, bump_self]
      refine ⟨⟨by dsimp only; omega, rfl⟩, fun y member => ?_⟩
      rw [bump_of_ne (new y member)]
      exact exactly.counts y member
    · intro j
      rw [get_cons]
      by_cases here : j = key
      · subst here
        rw [if_pos rfl, bump_self]
        simp
      · rw [if_neg (Ne.symm here), bump_of_ne here]
        exact exactly.seen j

theorem Exactly.merge {g : Key → Nat} {other : Summary} (exactly : Exactly f s) (exactly' : Exactly g other) {keys : Finset Key}
    (all : ∀ key, key ∈ keys ↔ 0 < f key + g key) (few : keys.card ≤ c) : Exactly (fun j => f j + g j) (merge s other c) := by
  obtain ⟨whole, gets, _⟩ := merged_spec exactly.keyed exactly'.keyed
  have unseen {s : Summary} {f : Key → Nat} (exactly : Exactly f s) {j : Key} (none_ : get s j = none) : f j = 0 := by
    have seen := exactly.seen j
    rw [none_] at seen
    have := mt seen.mpr (fun kept => kept rfl)
    omega
  have merged : Exactly (fun j => f j + g j) (other.foldl mergeEntry s) := by
    refine ⟨whole, ?_, ?_⟩
    · rintro ⟨j, e⟩ member
      have found := get_of_mem whole member
      rw [gets] at found
      dsimp only
      cases left : get s j <;> cases right : get other j <;> rw [left, right] at found <;> cases found
      · have := exactly'.counts _ (mem_of_get right)
        have := unseen exactly left
        dsimp only at *
        omega
      · have := exactly.counts _ (mem_of_get left)
        have := unseen exactly' right
        dsimp only at *
        omega
      · have := exactly.counts _ (mem_of_get left)
        have := exactly'.counts _ (mem_of_get right)
        dsimp only [addEntry] at *
        omega
    · intro j
      rw [ne_eq, get_merged_none exactly.keyed exactly'.keyed, not_and_or]
      have := exactly.seen j
      have := exactly'.seen j
      constructor
      · rintro (kept | kept)
        · have := (exactly.seen j).mp kept
          omega
        · have := (exactly'.seen j).mp kept
          omega
      · intro some_
        by_cases one : 0 < f j
        · exact .inl ((exactly.seen j).mpr one)
        · exact .inr ((exactly'.seen j).mpr (by omega))
  unfold TopK.merge trim
  rw [if_pos (by rw [merged.length all]; exact few)]
  exact merged

/-- The distinct keys of the rows. -/
def Plan.keys (p : Plan) : Finset Key := (p.inputs.map keyOf).toFinset

theorem Plan.mem_keys (p : Plan) (key : Key) : key ∈ p.keys ↔ 0 < p.freq key := by
  unfold keys freq
  rw [List.mem_toFinset, List.mem_map, List.countP_pos_iff]
  simp

theorem Plan.keys_row {p : Plan} {v : Value} (value : v.isNull = false) :
    (Plan.row p v).keys = Insert.insert (keyOf v) p.keys := by
  have inputs : (Plan.row p v).inputs = p.inputs ++ [v] := if_neg (by simp [value])
  unfold Plan.keys
  rw [inputs]
  ext key
  simp

theorem Plan.keys_left (p q : Plan) : p.keys ⊆ (Plan.merge p q).keys := by
  intro key
  rw [p.mem_keys, mem_keys, Plan.freq_merge]
  dsimp only
  omega

theorem Plan.keys_right (p q : Plan) : q.keys ⊆ (Plan.merge p q).keys := by
  intro key
  rw [q.mem_keys, mem_keys, Plan.freq_merge]
  dsimp only
  omega

theorem Reach.exactly {p : Plan} (reach : Reach c p s) (few : p.keys.card ≤ c) : Exactly p.freq s := by
  induction reach with
  | empty => exact Exactly.empty
  | @row p s s' v _ made ih =>
    unfold updateRow at made
    split at made
    · rename_i null
      cases made
      obtain ⟨freq, inputs⟩ := Plan.freq_null (p := p) null
      have keys : (Plan.row p v).keys = p.keys := by
        unfold Plan.keys
        rw [inputs]
      rw [freq]
      exact ih (keys ▸ few)
    · rename_i value
      have value : v.isNull = false := by simpa using value
      rw [Plan.keys_row value] at few
      have before := ih ((Finset.card_le_card (Finset.subset_insert _ _)).trans few)
      rw [Plan.freq_row value]
      exact before.insert p.mem_keys few made
  | @merge p q s other _ _ ih ih' =>
    have all := (Plan.merge p q).mem_keys
    have left := Plan.keys_left p q
    have right := Plan.keys_right p q
    rw [Plan.freq_merge] at all ⊢
    exact (ih ((Finset.card_le_card left).trans few)).merge (ih' ((Finset.card_le_card right).trans few)) all few
  | reorder _ same ih => exact (ih few).perm same

end TopK

end Adelie
