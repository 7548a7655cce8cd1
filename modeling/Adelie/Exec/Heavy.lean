import Adelie.Exec.TopK
import Adelie.Lib.Top

namespace Adelie

namespace TopK

open Assoc

variable {c n : Nat} {f : Key → Nat} {s t : Summary} {key : Key} {value : Value} {x : Key × Entry} {e : Entry}

def total (s : Summary) : Nat := (s.map fun x => x.2.count).sum

/-- What a summary of `n` rows, `f` of them of each key, keeps to: every count too large by its error at most, and a key
    that is not kept either not seen or no more frequent than any count of a full map. -/
structure Counts (c : Nat) (f : Key → Nat) (n : Nat) (s : Summary) : Prop where
  keyed : Keyed s
  short : s.length ≤ c
  seen : ∀ x ∈ s, 0 < f x.1
  lower : ∀ x ∈ s, x.2.count ≤ f x.1 + x.2.error
  upper : ∀ x ∈ s, f x.1 ≤ x.2.count
  absent : ∀ key, (∀ x ∈ s, x.1 ≠ key) → f key = 0 ∨ s.length = c ∧ ∀ x ∈ s, f key ≤ x.2.count
  total : total s ≤ n

theorem total_perm (same : s.Perm t) : total s = total t := (same.map _).sum_eq

theorem total_cons (x : Key × Entry) (s : Summary) : total (x :: s) = x.2.count + total s := by
  rw [total, List.map_cons, List.sum_cons, total]

theorem total_mul_le {least : Nat} (each : ∀ x ∈ s, least ≤ x.2.count) : s.length * least ≤ total s := by
  induction s with
  | nil => simp [total]
  | cons x s ih =>
    have all := List.forall_mem_cons.mp each
    have rest := ih all.2
    rw [List.length_cons, total_cons, Nat.succ_mul]
    omega

theorem Counts.perm (counts : Counts c f n s) (same : s.Perm t) : Counts c f n t where
  keyed := counts.keyed.perm same
  short := same.length_eq ▸ counts.short
  seen x member := counts.seen x (same.mem_iff.mpr member)
  lower x member := counts.lower x (same.mem_iff.mpr member)
  upper x member := counts.upper x (same.mem_iff.mpr member)
  absent key none_ := by
    rcases counts.absent key fun x member => none_ x (same.mem_iff.mp member) with zero | ⟨full, above⟩
    · exact .inl zero
    · exact .inr ⟨same.length_eq ▸ full, fun x member => above x (same.mem_iff.mpr member)⟩
  total := total_perm same ▸ counts.total

theorem Counts.empty (c : Nat) : Counts c (fun _ => 0) 0 [] where
  keyed := List.nodup_nil
  short := Nat.zero_le c
  seen _ member := by cases member
  lower _ member := by cases member
  upper _ member := by cases member
  absent _ _ := .inl rfl
  total := Nat.le_refl 0

/-- One more row of a key. -/
def bump (f : Key → Nat) (key : Key) : Key → Nat := fun j => f j + if j = key then 1 else 0

theorem bump_self : bump f key key = f key + 1 := by rw [bump, if_pos rfl]

theorem bump_of_ne {j : Key} (other : j ≠ key) : bump f key j = f j := by rw [bump, if_neg other, Nat.add_zero]

/-- A map whose item of one key changes, the others kept. -/
theorem Counts.replace {old : Key × Entry} {e' : Entry} (counts : Counts c f n (old :: s)) (others : ∀ y ∈ s, y.1 ≠ key)
    (lower : e'.count ≤ f key + 1 + e'.error) (upper : f key + 1 ≤ e'.count) (grows : e'.count = old.2.count + 1)
    (gone : ∀ j, j = old.1 → j ≠ key → f j ≤ old.2.count ∧ (s.length + 1 = c ∧ ∀ y ∈ s, old.2.count ≤ y.2.count)) :
    Counts c (bump f key) (n + 1) ((key, e') :: s) where
  keyed := keyed_cons.mpr ⟨others, (keyed_cons.mp counts.keyed).2⟩
  short := by
    have := counts.short
    rw [List.length_cons] at this ⊢
    exact this
  seen := by
    rw [List.forall_mem_cons, bump_self]
    refine ⟨Nat.succ_pos _, fun y member => ?_⟩
    rw [bump_of_ne (others y member)]
    exact counts.seen y (List.mem_cons_of_mem _ member)
  lower := by
    rw [List.forall_mem_cons, bump_self]
    refine ⟨lower, fun y member => ?_⟩
    rw [bump_of_ne (others y member)]
    exact counts.lower y (List.mem_cons_of_mem _ member)
  upper := by
    rw [List.forall_mem_cons, bump_self]
    refine ⟨upper, fun y member => ?_⟩
    rw [bump_of_ne (others y member)]
    exact counts.upper y (List.mem_cons_of_mem _ member)
  absent := by
    intro j none_
    have other : j ≠ key := Ne.symm (none_ _ List.mem_cons_self)
    rw [bump_of_ne other]
    by_cases was : j = old.1
    · obtain ⟨most, full, least⟩ := gone j was other
      refine .inr ⟨by rw [List.length_cons]; exact full, ?_⟩
      rw [List.forall_mem_cons]
      exact ⟨by dsimp only; omega, fun y member => most.trans (least y member)⟩
    · rcases counts.absent j (List.forall_mem_cons.mpr ⟨Ne.symm was, fun y member => none_ y (List.mem_cons_of_mem _ member)⟩)
        with zero | ⟨full, above⟩
      · exact .inl zero
      · refine .inr ⟨full, ?_⟩
        rw [List.forall_mem_cons] at above ⊢
        exact ⟨by dsimp only; omega, above.2⟩
  total := by
    have before := counts.total
    rw [total_cons] at before ⊢
    simp only [grows]
    omega

theorem Counts.again (counts : Counts c f n s) (member : (key, e) ∈ s) :
    Counts c (bump f key) (n + 1) (modify s key fun e => { e with count := e.count + 1 }) := by
  have parts := counts.perm (perm_remove counts.keyed member)
  refine Counts.perm ?_ (perm_modify counts.keyed member _).symm
  have low := parts.lower _ List.mem_cons_self
  have up := parts.upper _ List.mem_cons_self
  refine parts.replace (fun y inside => (mem_remove.mp inside).2) ?_ ?_ rfl ?_
  · dsimp only at low ⊢
    omega
  · dsimp only at up ⊢
    omega
  · intro j was other
    exact absurd was other

theorem Counts.fresh (counts : Counts c f n s) (new : ∀ y ∈ s, y.1 ≠ key) (room : s.length < c) :
    Counts c (bump f key) (n + 1) ((key, ⟨value, 1, 0⟩) :: s) := by
  have unseen : f key = 0 := by
    rcases counts.absent key new with zero | ⟨full, _⟩
    · exact zero
    · omega
  refine ⟨keyed_cons.mpr ⟨new, counts.keyed⟩, room, ?_, ?_, ?_, ?_, ?_⟩
  · rw [List.forall_mem_cons, bump_self]
    refine ⟨Nat.succ_pos _, fun y member => ?_⟩
    rw [bump_of_ne (new y member)]
    exact counts.seen y member
  · rw [List.forall_mem_cons, bump_self]
    refine ⟨Nat.le_add_left _ _, fun y member => ?_⟩
    rw [bump_of_ne (new y member)]
    exact counts.lower y member
  · rw [List.forall_mem_cons, bump_self]
    refine ⟨by dsimp only; omega, fun y member => ?_⟩
    rw [bump_of_ne (new y member)]
    exact counts.upper y member
  · intro j none_
    rw [List.forall_mem_cons] at none_
    rw [bump_of_ne (Ne.symm none_.1)]
    rcases counts.absent j none_.2 with zero | ⟨full, _⟩
    · exact .inl zero
    · omega
  · have before := counts.total
    rw [total_cons]
    dsimp only
    omega

theorem minByCount_spec : (minByCount s = none ↔ s = []) ∧
    ∀ least, minByCount s = some least → least ∈ s ∧ ∀ y ∈ s, least.2.count ≤ y.2.count := by
  induction s with
  | nil => exact ⟨by simp [minByCount], fun _ found => by cases found⟩
  | cons x s ih =>
    unfold minByCount
    cases rest : minByCount s with
    | none =>
      have empty := ih.1.mp rest
      subst empty
      refine ⟨by simp, fun least found => ?_⟩
      cases found
      exact ⟨List.mem_cons_self, by simp⟩
    | some y =>
      obtain ⟨inside, below⟩ := ih.2 y rest
      refine ⟨?_, fun least found => ?_⟩
      · dsimp only
        split <;> simp
      · dsimp only at found
        split at found
        · rename_i less
          cases found
          exact ⟨List.mem_cons_of_mem _ inside, List.forall_mem_cons.mpr ⟨less.le, below⟩⟩
        · rename_i not_
          cases found
          exact ⟨List.mem_cons_self, List.forall_mem_cons.mpr ⟨Nat.le_refl _, fun z member => (not_lt.mp not_).trans (below z member)⟩⟩

theorem Counts.evict (counts : Counts c f n s) (new : ∀ y ∈ s, y.1 ≠ key) (full : ¬ s.length < c) {least : Key × Entry}
    (found : minByCount s = some least) :
    Counts c (bump f key) (n + 1) ((key, ⟨value, least.2.count + 1, least.2.count⟩) :: remove s least.1) := by
  obtain ⟨inside, below⟩ := minByCount_spec.2 least found
  have whole := perm_remove counts.keyed inside
  have size := length_remove counts.keyed inside
  have short := counts.short
  have parts := counts.perm whole
  have unseen : f key ≤ least.2.count := by
    rcases counts.absent key new with zero | ⟨_, above⟩
    · omega
    · exact above least inside
  refine parts.replace (fun y member => new y (mem_remove.mp member).1) ?_ ?_ rfl ?_
  · dsimp only
    omega
  · dsimp only
    omega
  · rintro j rfl _
    exact ⟨counts.upper least inside, by omega, fun y member => below y (mem_remove.mp member).1⟩

/-- A row leaves the map in bounds, and the map is never both full and empty. -/
theorem Counts.insert (counts : Counts c f n s) (some_ : 0 < c) (key : Key) (value : Value) :
    ∃ s', insert s key value c = some s' ∧ Counts c (bump f key) (n + 1) s' := by
  unfold TopK.insert
  cases found : get s key with
  | some e => exact ⟨_, rfl, counts.again (mem_of_get found)⟩
  | none =>
    have new := get_eq_none.mp found
    by_cases room : s.length < c
    · exact ⟨_, if_pos room, counts.fresh new room⟩
    · dsimp only
      rw [if_neg room]
      cases least : minByCount s with
      | none =>
        have empty := minByCount_spec.1.mp least
        subst empty
        exact absurd some_ room
      | some x => exact ⟨_, rfl, counts.evict new room least⟩

section Trim

instance : Std.Total Before where
  total a b := by
    unfold Before
    rcases lt_trichotomy a.2.count b.2.count with less | same | more
    · exact .inr (.inl less)
    · rcases le_total (a.1.map UInt8.toNat) (b.1.map UInt8.toNat) with le | le
      · exact .inl (.inr ⟨same, le⟩)
      · exact .inr (.inr ⟨same.symm, le⟩)
    · exact .inl (.inl more)

instance : IsTrans (Key × Entry) Before where
  trans a b c := by
    rintro (less | ⟨same, le⟩) (less' | ⟨same', le'⟩)
    · exact .inl (less'.trans less)
    · exact .inl (same' ▸ less)
    · exact .inl (same ▸ less')
    · exact .inr ⟨same.trans same', le.trans le'⟩

/-- What is kept, and what is dropped below it. -/
theorem trim_parts (s : Summary) (c : Nat) : ∃ gone, s.Perm (trim s c ++ gone) ∧ (trim s c).length = min c s.length ∧
    ∀ x ∈ trim s c, ∀ y ∈ gone, y.2.count ≤ x.2.count := by
  unfold trim
  split
  · rename_i short
    exact ⟨[], by rw [List.append_nil], (Nat.min_eq_right short).symm, by simp⟩
  · rename_i long
    have sorted := List.pairwise_insertionSort Before s
    have same := List.perm_insertionSort Before s
    refine ⟨(s.insertionSort Before).drop c, ?_, ?_, ?_⟩
    · rw [List.take_append_drop]
      exact same.symm
    · rw [List.length_take, same.length_eq]
    · intro x member y dropped
      have across := List.take_append_drop c (s.insertionSort Before) ▸ sorted
      rcases (List.pairwise_append.mp across).2.2 x member y dropped with less | ⟨same, _⟩
      · exact less.le
      · exact same.ge

/-- Where at least as many items as are kept reach a count, every kept one does. -/
theorem trim_reaches {least : Nat} (many : c ≤ s.countP fun x => least ≤ x.2.count) :
    ∀ x ∈ trim s c, least ≤ x.2.count := by
  obtain ⟨gone, parts, size, above⟩ := trim_parts s c
  intro x member
  by_contra small
  rw [parts.countP_eq, List.countP_append] at many
  have none_ : gone.countP (fun x => decide (least ≤ x.2.count)) = 0 := by
    rw [List.countP_eq_zero]
    intro y dropped
    have below := above x member y dropped
    simp only [decide_eq_true_eq]
    omega
  have fewer : (trim s c).countP (fun x => decide (least ≤ x.2.count)) < (trim s c).length := by
    rw [List.countP_eq_length_filter]
    exact List.length_filter_lt_length_iff_exists.mpr ⟨x, member, by simpa using small⟩
  omega

end Trim

section Merge

/-- The two items of a key, as one. -/
def combine : Option Entry → Option Entry → Option Entry
  | some e, some oe => some (addEntry e oe)
  | some e, none => some e
  | none, found => found

theorem mergeEntry_perm (keyed : Keyed s) (x : Key × Entry) :
    (∃ e, (x.1, e) ∈ s ∧ (mergeEntry s x).Perm ((x.1, addEntry e x.2) :: remove s x.1)) ∨
      (∀ y ∈ s, y.1 ≠ x.1) ∧ mergeEntry s x = x :: s := by
  unfold mergeEntry
  cases found : get s x.1 with
  | some e => exact .inl ⟨e, mem_of_get found, perm_modify keyed (mem_of_get found) _⟩
  | none => exact .inr ⟨get_eq_none.mp found, rfl⟩

theorem mergeEntry_keyed (keyed : Keyed s) (x : Key × Entry) : Keyed (mergeEntry s x) := by
  rcases mergeEntry_perm keyed x with ⟨e, _, same⟩ | ⟨new, same⟩
  · exact Keyed.perm (keyed_cons.mpr ⟨fun y member => (mem_remove.mp member).2, keyed.remove⟩) same.symm
  · rw [same]
    exact keyed_cons.mpr ⟨new, keyed⟩

theorem get_mergeEntry (keyed : Keyed s) (x : Key × Entry) (j : Key) :
    get (mergeEntry s x) j = if j = x.1 then combine (get s j) (some x.2) else get s j := by
  rcases mergeEntry_perm keyed x with ⟨e, member, same⟩ | ⟨new, same⟩
  · rw [get_perm (mergeEntry_keyed keyed x) same, get_cons, get_remove]
    by_cases here : j = x.1
    · subst here
      rw [if_pos rfl, if_pos rfl, get_of_mem keyed member]
      rfl
    · rw [if_neg (Ne.symm here), if_neg here, if_neg here]
  · rw [same, get_cons]
    by_cases here : j = x.1
    · subst here
      rw [if_pos rfl, if_pos rfl, get_eq_none.mpr new]
      rfl
    · rw [if_neg (Ne.symm here), if_neg here]

theorem total_mergeEntry (keyed : Keyed s) (x : Key × Entry) : total (mergeEntry s x) = total s + x.2.count := by
  rcases mergeEntry_perm keyed x with ⟨e, member, same⟩ | ⟨new, same⟩
  · rw [total_perm same, total_perm (perm_remove keyed member), total_cons, total_cons]
    dsimp only [addEntry]
    omega
  · rw [same, total_cons, Nat.add_comm]

/-- The whole other map, added item by item. -/
theorem merged_spec {other : Summary} (keyed : Keyed s) (keyed' : Keyed other) : Keyed (other.foldl mergeEntry s) ∧
    (∀ j, get (other.foldl mergeEntry s) j = combine (get s j) (get other j)) ∧
    total (other.foldl mergeEntry s) = total s + total other := by
  induction other generalizing s with
  | nil =>
    refine ⟨keyed, fun j => ?_, rfl⟩
    have none_ : get ([] : Summary) j = none := rfl
    rw [List.foldl_nil, none_]
    cases get s j <;> rfl
  | cons x other ih =>
    obtain ⟨first, rest⟩ := keyed_cons.mp keyed'
    obtain ⟨whole, gets, sum⟩ := ih (mergeEntry_keyed keyed x) rest
    refine ⟨whole, ?_, ?_⟩
    · intro j
      rw [List.foldl_cons, gets, get_mergeEntry keyed, get_cons]
      by_cases here : j = x.1
      · subst here
        rw [if_pos rfl, if_pos rfl, get_eq_none.mpr first]
        cases get s x.1 <;> rfl
      · rw [if_neg here, if_neg (Ne.symm here)]
    · rw [List.foldl_cons, sum, total_mergeEntry keyed, total_cons]
      omega

theorem exists_of_get {j : Key} (found : get s j ≠ none) : ∃ e, get s j = some e := Option.ne_none_iff_exists'.mp found

/-- A key of either side is in the whole. -/
theorem get_merged_none {other : Summary} (keyed : Keyed s) (keyed' : Keyed other) {j : Key} :
    get (other.foldl mergeEntry s) j = none ↔ get s j = none ∧ get other j = none := by
  rw [(merged_spec keyed keyed').2.1]
  cases get s j <;> cases get other j <;> simp [combine]

theorem combine_count (a b : Option Entry) (e : Entry) (made : combine a b = some e) :
    (∀ e', a = some e' → e'.count ≤ e.count) ∧ ∀ e', b = some e' → e'.count ≤ e.count := by
  cases a <;> cases b <;> cases made <;> simp [addEntry]

theorem countP_of_keys {least : Nat} {whole : Summary} (keyed : Keyed s) (keyed' : Keyed whole)
    (images : ∀ x ∈ s, ∃ e, (x.1, e) ∈ whole ∧ least ≤ e.count) : s.length ≤ whole.countP fun x => least ≤ x.2.count := by
  rw [List.countP_eq_length_filter]
  have sub : s.map Prod.fst ⊆ (whole.filter fun x => least ≤ x.2.count).map Prod.fst := by
    intro j member
    obtain ⟨x, inside, rfl⟩ := List.mem_map.mp member
    obtain ⟨e, there, enough⟩ := images x inside
    exact List.mem_map.mpr ⟨(x.1, e), List.mem_filter.mpr ⟨there, by simpa using enough⟩, rfl⟩
  have bound := (List.subperm_of_subset keyed sub).length_le
  simpa using bound

/-- Every item of a full side reaches a count: so does everything the merge keeps, and it is full. -/
theorem merge_reaches {other : Summary} (keyed : Keyed s) (keyed' : Keyed other) {least : Nat} {side : Summary}
    (which : side = s ∨ side = other) (full : side.length = c) (each : ∀ x ∈ side, least ≤ x.2.count) :
    (TopK.merge s other c).length = c ∧ ∀ x ∈ TopK.merge s other c, least ≤ x.2.count := by
  obtain ⟨whole, gets, _⟩ := merged_spec keyed keyed'
  obtain ⟨_, _, size, _⟩ := trim_parts (other.foldl mergeEntry s) c
  have images : ∀ x ∈ side, ∃ e, (x.1, e) ∈ other.foldl mergeEntry s ∧ least ≤ e.count := by
    intro x member
    have enough := each x member
    have present : get (other.foldl mergeEntry s) x.1 ≠ none := by
      rw [ne_eq, get_merged_none keyed keyed', not_and_or]
      rcases which with rfl | rfl
      · exact .inl fun none_ => get_eq_none.mp none_ x member rfl
      · exact .inr fun none_ => get_eq_none.mp none_ x member rfl
    obtain ⟨e, found⟩ := exists_of_get present
    refine ⟨e, mem_of_get found, ?_⟩
    rw [gets] at found
    have grows := combine_count _ _ e found
    rcases which with rfl | rfl
    · exact enough.trans (grows.1 x.2 (get_of_mem keyed member))
    · exact enough.trans (grows.2 x.2 (get_of_mem keyed' member))
  have keyedSide : Keyed side := by
    rcases which with rfl | rfl
    · exact keyed
    · exact keyed'
  have many := countP_of_keys keyedSide whole images
  have most : (other.foldl mergeEntry s).countP (fun x => decide (least ≤ x.2.count)) ≤ _ := List.countP_le_length
  refine ⟨?_, trim_reaches (by omega)⟩
  change (trim _ _).length = c
  omega

section Both

variable {g : Key → Nat} {m : Nat} {other : Summary} (counts : Counts c f n s) (counts' : Counts c g m other)
  (both : ∀ j, 0 < f j → 0 < g j → get s j ≠ none ∧ get other j ≠ none)

include counts counts' both

/-- An item of the two maps as one. -/
theorem Counts.merged {j : Key} {e : Entry} (found : get (other.foldl mergeEntry s) j = some e) :
    0 < f j + g j ∧ e.count ≤ f j + g j + e.error ∧ f j + g j ≤ e.count := by
  have never := both j
  rw [(merged_spec counts.keyed counts'.keyed).2.1] at found
  cases left : get s j <;> cases right : get other j <;> rw [left, right] at found never <;> cases found
  · have some_ := counts'.seen _ (mem_of_get right)
    have low := counts'.lower _ (mem_of_get right)
    have up := counts'.upper _ (mem_of_get right)
    have none_ : f j = 0 := by
      by_contra one
      exact (never (by omega) some_).1 rfl
    dsimp only at some_ low up
    omega
  · have some_ := counts.seen _ (mem_of_get left)
    have low := counts.lower _ (mem_of_get left)
    have up := counts.upper _ (mem_of_get left)
    have none_ : g j = 0 := by
      by_contra one
      exact (never some_ (by omega)).2 rfl
    dsimp only at some_ low up
    omega
  · have some_ := counts.seen _ (mem_of_get left)
    have low := counts.lower _ (mem_of_get left)
    have low' := counts'.lower _ (mem_of_get right)
    have up := counts.upper _ (mem_of_get left)
    have up' := counts'.upper _ (mem_of_get right)
    dsimp only [addEntry] at some_ low low' up up' ⊢
    omega

/-- A key of neither map. -/
theorem Counts.lost {j : Key} (left : get s j = none) (right : get other j = none) :
    f j + g j = 0 ∨ (TopK.merge s other c).length = c ∧ ∀ x ∈ TopK.merge s other c, f j + g j ≤ x.2.count := by
  have once : f j = 0 ∨ g j = 0 := by
    by_contra some_
    exact (both j (by omega) (by omega)).1 left
  have absent' := counts'.absent j (get_eq_none.mp right)
  rcases counts.absent j (get_eq_none.mp left) with zero | ⟨full, above⟩
  · rcases absent' with zero' | ⟨full', above'⟩
    · exact .inl (by omega)
    · refine .inr (merge_reaches counts.keyed counts'.keyed (.inr rfl) full' fun x member => ?_)
      have := above' x member
      omega
  · rcases once with zero | zero
    · rcases absent' with zero' | ⟨full', above'⟩
      · exact .inl (by omega)
      · refine .inr (merge_reaches counts.keyed counts'.keyed (.inr rfl) full' fun x member => ?_)
        have := above' x member
        omega
    · refine .inr (merge_reaches counts.keyed counts'.keyed (.inl rfl) full fun x member => ?_)
      have := above x member
      omega

/-- Two maps of which neither lost a key the other has seen merge into one in bounds. -/
theorem Counts.merge : Counts c (fun j => f j + g j) (n + m) (TopK.merge s other c) := by
  obtain ⟨whole, gets, sum⟩ := merged_spec counts.keyed counts'.keyed
  obtain ⟨gone, parts, size, above⟩ := trim_parts (other.foldl mergeEntry s) c
  have kept {x : Key × Entry} (member : x ∈ TopK.merge s other c) :
      0 < f x.1 + g x.1 ∧ x.2.count ≤ f x.1 + g x.1 + x.2.error ∧ f x.1 + g x.1 ≤ x.2.count :=
    counts.merged counts' both (get_of_mem whole (parts.mem_iff.mpr (List.mem_append_left _ member)))
  refine ⟨?_, ?_, fun x member => (kept member).1, fun x member => (kept member).2.1, fun x member => (kept member).2.2, ?_, ?_⟩
  · exact ((List.sublist_append_left _ _).map _).nodup (whole.perm parts)
  · change (trim _ _).length ≤ c
    omega
  · intro j none_
    cases found : get (other.foldl mergeEntry s) j with
    | none =>
      obtain ⟨left, right⟩ := (get_merged_none counts.keyed counts'.keyed).mp found
      exact counts.lost counts' both left right
    | some e =>
      have dropped : (j, e) ∈ gone := by
        rcases List.mem_append.mp (parts.mem_iff.mp (mem_of_get found)) with member | member
        · exact absurd rfl (none_ _ member)
        · exact member
      have many := List.length_pos_of_mem dropped
      have lengths := parts.length_eq
      rw [List.length_append] at lengths
      refine .inr ⟨?_, fun x member => ?_⟩
      · change (trim _ _).length = c
        omega
      · exact (counts.merged counts' both found).2.2.trans (above x member _ dropped)
  · have less : TopK.total (TopK.merge s other c) ≤ TopK.total (other.foldl mergeEntry s) := by
      rw [total_perm parts, TopK.total, TopK.total, List.map_append, List.sum_append]
      exact Nat.le_add_right _ _
    have rows := counts.total
    have rows' := counts'.total
    omega

end Both

end Merge

/-- The non-NULL rows, in order. -/
def Plan.inputs : Plan → List Value
  | .empty => []
  | .row p v => if v.isNull then p.inputs else p.inputs ++ [v]
  | .merge p q => p.inputs ++ q.inputs

/-- How many rows have a key. -/
def Plan.freq (p : Plan) (key : Key) : Nat := p.inputs.countP fun v => keyOf v = key

theorem Plan.freq_row {p : Plan} {v : Value} (some_ : v.isNull = false) : (Plan.row p v).freq = bump p.freq (keyOf v) := by
  funext j
  have inputs : (Plan.row p v).inputs = p.inputs ++ [v] := if_neg (by simp [some_])
  unfold freq bump
  rw [inputs, List.countP_append, List.countP_singleton]
  by_cases here : j = keyOf v
  · simp [here]
  · simp [here, Ne.symm here]

theorem Plan.freq_null {p : Plan} {v : Value} (null : v.isNull = true) : (Plan.row p v).freq = p.freq ∧ (Plan.row p v).inputs = p.inputs := by
  have inputs : (Plan.row p v).inputs = p.inputs := if_pos null
  exact ⟨by unfold freq; rw [inputs], inputs⟩

theorem Plan.freq_merge (p q : Plan) : (Plan.merge p q).freq = fun j => p.freq j + q.freq j := by
  funext j
  unfold freq
  exact List.countP_append

/-- Of all items only one has a least count. -/
def OneLeast (s : Summary) : Prop := ∀ x ∈ s, ∀ y ∈ s, (∀ z ∈ s, x.2.count ≤ z.2.count ∧ y.2.count ≤ z.2.count) → x.1 = y.1

/-- No row takes the place of one of several least counts, and no merge meets a key that both sides have seen and one has lost. -/
def Plan.Clean (c : Nat) : Plan → Prop
  | .empty => True
  | .row p v => p.Clean c ∧ ∀ s, Reach c p s → v.isNull = false → get s (keyOf v) = none → s.length = c → OneLeast s
  | .merge p q => p.Clean c ∧ q.Clean c ∧ ∀ s other, Reach c p s → Reach c q other →
    ∀ key, 0 < p.freq key → 0 < q.freq key → get s key ≠ none ∧ get other key ≠ none

section Runs

variable {p q : Plan} {v : Value}

theorem Reach.counts (some_ : 0 < c) (reach : Reach c p s) (clean : p.Clean c) : Counts c p.freq p.inputs.length s := by
  induction reach with
  | empty => exact Counts.empty c
  | @row p s s' v _ made ih =>
    have before := ih clean.1
    unfold updateRow at made
    split at made
    · rename_i null
      cases made
      obtain ⟨freq, inputs⟩ := Plan.freq_null (p := p) null
      rw [freq, inputs]
      exact before
    · rename_i value
      have value : v.isNull = false := by simpa using value
      obtain ⟨s'', made', after⟩ := before.insert some_ (keyOf v) v
      rw [made'] at made
      cases made
      have inputs : (Plan.row p v).inputs = p.inputs ++ [v] := if_neg (by simp [value])
      rw [Plan.freq_row value, inputs, List.length_append]
      exact after
  | @merge p q s other reach reach' ih ih' =>
    rw [Plan.freq_merge]
    have inputs : (Plan.merge p q).inputs.length = p.inputs.length + q.inputs.length := List.length_append
    rw [inputs]
    exact (ih clean.1).merge (ih' clean.2.1) fun j => clean.2.2 s other reach reach' j
  | reorder _ same ih => exact (ih clean).perm same

theorem Reach.inv_empty (reach : Reach c .empty s) : s = [] := by
  generalize which : Plan.empty = p at reach
  induction reach with
  | empty => rfl
  | row => cases which
  | merge => cases which
  | reorder _ same ih =>
    rw [ih which] at same
    exact List.nil_perm.mp same

theorem Reach.inv_row (reach : Reach c (.row p v) s) : ∃ before after, Reach c p before ∧ updateRow before v c = some after ∧ after.Perm s := by
  generalize which : Plan.row p v = r at reach
  induction reach with
  | empty => cases which
  | row reach made =>
    cases which
    exact ⟨_, _, reach, made, .refl _⟩
  | merge => cases which
  | reorder _ same ih =>
    obtain ⟨before, after, reach, made, perm⟩ := ih which
    exact ⟨before, after, reach, made, perm.trans same⟩

theorem Reach.inv_merge (reach : Reach c (.merge p q) s) : ∃ one two, Reach c p one ∧ Reach c q two ∧ (TopK.merge one two c).Perm s := by
  generalize which : Plan.merge p q = r at reach
  induction reach with
  | empty => cases which
  | row => cases which
  | merge reach reach' =>
    cases which
    exact ⟨_, _, reach, reach', .refl _⟩
  | reorder _ same ih =>
    obtain ⟨one, two, reach, reach', perm⟩ := ih which
    exact ⟨one, two, reach, reach', perm.trans same⟩

theorem Keyed.before_antisymm (keyed : Keyed s) {a b : Key × Entry} (left : a ∈ s) (right : b ∈ s) (le : Before a b) (ge : Before b a) : a = b := by
  have keys : a.1.map UInt8.toNat = b.1.map UInt8.toNat := by
    rcases le with less | ⟨_, le⟩ <;> rcases ge with less' | ⟨_, ge⟩
    · omega
    · omega
    · omega
    · exact le_antisymm le ge
  have same : a.1 = b.1 := List.map_injective_iff.mpr (fun _ _ => UInt8.toNat_inj.mp) keys
  obtain ⟨j, e⟩ := a
  obtain ⟨k, e'⟩ := b
  cases same
  rw [keyed.unique left right]

theorem trim_perm (keyed : Keyed s) (same : s.Perm t) : (trim s c).Perm (trim t c) := by
  unfold trim
  rw [same.length_eq]
  split
  · exact same
  · have left := List.perm_insertionSort Before s
    have right := List.perm_insertionSort Before t
    have equal : s.insertionSort Before = t.insertionSort Before := by
      apply List.Perm.eq_of_pairwise _ (List.pairwise_insertionSort Before s) (List.pairwise_insertionSort Before t)
        ((left.trans same).trans right.symm)
      intro a b inside inside'
      exact Keyed.before_antisymm keyed (left.mem_iff.mp inside) (same.mem_iff.mpr (right.mem_iff.mp inside'))
    rw [equal]

/-- One outcome, whatever order the maps iterate in. -/
theorem Reach.unique (some_ : 0 < c) (reach : Reach c p s) (reach' : Reach c p t) (clean : p.Clean c) : s.Perm t := by
  induction p generalizing s t with
  | empty => rw [reach.inv_empty, reach'.inv_empty]
  | row p v ih =>
    obtain ⟨one, s', before, made, perm⟩ := reach.inv_row
    obtain ⟨two, t', before', made', perm'⟩ := reach'.inv_row
    have same := ih before before' clean.1
    have counts := before.counts some_ clean.1
    have keyed := counts.keyed
    refine (perm.symm.trans ?_).trans perm'
    unfold updateRow at made made'
    by_cases null : v.isNull = true
    · rw [if_pos null] at made made'
      cases made
      cases made'
      exact same
    · rw [if_neg null] at made made'
      have value : v.isNull = false := by simpa using null
      unfold TopK.insert at made made'
      rw [← get_perm keyed same] at made'
      cases found : get one (keyOf v) with
      | some e =>
        rw [found] at made made'
        cases made
        cases made'
        exact same.map _
      | none =>
        rw [found] at made made'
        dsimp only at made made'
        rw [← same.length_eq] at made'
        split at made
        · rename_i room
          rw [if_pos room] at made'
          cases made
          cases made'
          exact same.cons _
        · rename_i room
          rw [if_neg room] at made'
          obtain ⟨x, least, rfl⟩ := Option.map_eq_some_iff.mp made
          obtain ⟨y, least', rfl⟩ := Option.map_eq_some_iff.mp made'
          obtain ⟨inside, below⟩ := minByCount_spec.2 x least
          obtain ⟨inside', below'⟩ := minByCount_spec.2 y least'
          have there := same.mem_iff.mpr inside'
          have full : one.length = c := by
            have := counts.short
            omega
          have keys := clean.2 one before value found full x inside y there fun z member =>
            ⟨below z member, below' z (same.mem_iff.mp member)⟩
          obtain ⟨j, e⟩ := x
          obtain ⟨k, e'⟩ := y
          cases keys
          rw [keyed.unique inside there]
          exact (same.filter _).cons _
  | merge p q ih ih' =>
    obtain ⟨one, two, first, second, perm⟩ := reach.inv_merge
    obtain ⟨one', two', first', second', perm'⟩ := reach'.inv_merge
    have same := ih first first' clean.1
    have same' := ih' second second' clean.2.1
    have keyed := (first.counts some_ clean.1).keyed
    have keyed' := (second.counts some_ clean.2.1).keyed
    obtain ⟨whole, gets, _⟩ := merged_spec keyed keyed'
    obtain ⟨whole', gets', _⟩ := merged_spec (keyed.perm same) (keyed'.perm same')
    refine (perm.symm.trans (trim_perm whole ?_)).trans perm'
    apply perm_of_get whole whole'
    intro j
    rw [gets, gets', get_perm keyed same, get_perm keyed' same']

end Runs

end TopK

end Adelie
