import Adelie.Exec.Pike
import Adelie.Exec.Compiled

namespace Adelie

namespace Regexp

open Relation

section Search

variable {re : Regex} {s : List Char} {pos : Nat} {t : Threads}

/-- What a run of the program may be at, at a position of the text. -/
def Regex.At (re : Regex) (s : List Char) (pos p : Nat) : Prop := Reached re.prog re.classes s re.entry pos p

/-- A match at some position. -/
def Regex.Accepts (re : Regex) (s : List Char) : Prop := ∃ pos p, re.At s pos p ∧ re.prog[p]? = some .match_

theorem at_follows (p : Nat) (inst : Inst) (reached : re.At s pos p) (here : re.prog[p]? = some inst) :
    ∀ q ∈ inst.follow pos s.length, re.At s pos q :=
  fun _ member => ReflTransGen.tail reached ((step_same_iff here).mpr member)

/-- All that a position is reached at is seen, once its starts are. -/
theorem seen_of_reached (closed : Closed re.prog pos s.length [] t) (first : pos = 0 → t.Seen re.entry)
    (roots : ∀ a p i, pos = i + 1 → re.At s i a → Step re.prog re.classes s (a, i) (p, pos) → t.Seen p) :
    ∀ p, re.At s pos p → t.Seen p := by
  have all : ∀ z, ReflTransGen (Step re.prog re.classes s) (re.entry, 0) z → z.2 = pos → t.Seen z.1 := by
    intro z path
    induction path with
    | refl => exact fun same => first same.symm
    | @tail b z path step ih =>
      intro same
      obtain ⟨a, i⟩ := b
      obtain ⟨p, k⟩ := z
      cases same
      rcases step_pos step with stays | ⟨moves, _⟩
      · cases stays
        obtain ⟨inst, here, goes⟩ := step
        have stays : Step re.prog re.classes s (a, i) (p, i) := ⟨inst, here, goes⟩
        have member := (step_same_iff here).mp stays
        exact (closed.follows a inst (ih rfl) here p member).resolve_left (by simp)
      · exact roots a p i moves path step
  exact fun p reached => all (p, pos) reached rfl

/-- The instructions on a character that a position is reached at. -/
structure Complete (re : Regex) (s : List Char) (pos : Nat) (list : List Nat) : Prop where
  once : list.Nodup
  mem : ∀ p, p ∈ list ↔ re.At s pos p ∧ ∃ inst, re.prog[p]? = some inst ∧ inst.Takes

theorem Complete.of_tidy (tidy : Tidy re.prog (re.At s pos) [] t) (seen : ∀ p, re.At s pos p → t.Seen p) : Complete re s pos t.list where
  once := tidy.listed
  mem p := by
    rw [tidy.list]
    exact ⟨fun both => ⟨tidy.reached p both.1, both.2⟩, fun both => ⟨seen p both.1, both.2⟩⟩

/-- An instruction on a character is taken to its one next instruction, or not at all. -/
theorem consume_spec {c : Char} {pc : Nat} {inst : Inst} (char : s[pos]? = some c) (fine : Fine re.prog re.classes pc)
    (here : re.prog[pc]? = some inst) (takes : inst.Takes) : ∃ taken next, re.consume c pc = some (taken, next) ∧
      ∀ q, Step re.prog re.classes s (pc, pos) (q, pos + 1) ↔ taken = true ∧ q = next := by
  obtain ⟨inst', at', known⟩ := fine
  rw [here] at at'
  cases at'
  have inside := (List.getElem?_eq_some_iff.mp char).1
  cases inst with
  | char want next =>
    refine ⟨want == c, next, by simp [Regex.consume, here], fun q => ?_⟩
    constructor
    · rintro ⟨inst, at_, goes⟩
      rw [here] at at_
      cases at_
      have same := goes.1
      rw [char] at same
      cases same
      exact ⟨beq_self_eq_true c, goes.2.1⟩
    · rintro ⟨same, rfl⟩
      exact ⟨_, here, by rw [char, eq_of_beq same], rfl, rfl⟩
  | any next =>
    refine ⟨true, next, by simp [Regex.consume, here], fun q => ?_⟩
    simp [Step, here, Inst.Goes, inside]
  | cls idx next =>
    obtain ⟨cc, found⟩ := known idx next rfl
    refine ⟨classMatch cc c, next, by simp [Regex.consume, here, found], fun q => ?_⟩
    simp [Step, here, Inst.Goes, found, char]
  | _ => exact takes.elim

variable (fine : ∀ pos p, re.At s pos p → Fine re.prog re.classes p)

include fine

theorem at_there (p : Nat) (reached : re.At s pos p) : ∃ inst, re.prog[p]? = some inst := by
  obtain ⟨inst, here, _⟩ := fine pos p reached
  exact ⟨inst, here⟩

theorem addThread_spec {pc : Nat} (tidy : Tidy re.prog (re.At s pos) [] t) (reached : re.At s pos pc) :
    ∃ hit t', addThread re.prog t pc pos s.length = some (hit, t') ∧ Tidy re.prog (re.At s pos) [] t' ∧
      (∀ p, t.Seen p → t'.Seen p) ∧ (hit = true → ∃ p, re.At s pos p ∧ re.prog[p]? = some .match_) ∧
      (hit = false → t'.Seen pc ∧ (Closed re.prog pos s.length [] t → Closed re.prog pos s.length [] t')) := by
  obtain ⟨hit, t', run, tidy', grows, hits, misses⟩ := addLoop_spec at_follows (at_there fine) [pc] t (tidy.push reached)
  refine ⟨hit, t', run, tidy', grows, hits, fun missed => ?_⟩
  obtain ⟨all, closed⟩ := misses missed
  exact ⟨all pc List.mem_cons_self, fun before => closed before.push⟩

/-- The threads of one position, taken into the next. -/
theorem advance_spec {c : Char} (char : s[pos]? = some c) (clist : List Nat) (t : Threads) (matched : Bool)
    (each : ∀ p ∈ clist, re.At s pos p ∧ ∃ inst, re.prog[p]? = some inst ∧ inst.Takes)
    (tidy : Tidy re.prog (re.At s (pos + 1)) [] t) :
    ∃ hit t', re.advance c pos s.length clist t matched = some (hit, t') ∧ Tidy re.prog (re.At s (pos + 1)) [] t' ∧
      (∀ p, t.Seen p → t'.Seen p) ∧ (hit = true → matched = true ∨ ∃ p, re.At s (pos + 1) p ∧ re.prog[p]? = some .match_) ∧
      (hit = false → matched = false ∧ (∀ p ∈ clist, ∀ q, Step re.prog re.classes s (p, pos) (q, pos + 1) → t'.Seen q) ∧
        (Closed re.prog (pos + 1) s.length [] t → Closed re.prog (pos + 1) s.length [] t')) := by
  induction clist generalizing t matched with
  | nil => exact ⟨matched, t, rfl, tidy, fun _ seen => seen, .inl, fun missed => ⟨missed, by simp, id⟩⟩
  | cons pc rest ih =>
    obtain ⟨⟨reached, inst, here, takes⟩, others⟩ := List.forall_mem_cons.mp each
    obtain ⟨taken, next, consumed, steps⟩ := consume_spec char (fine pos pc reached) here takes
    cases taken with
    | false =>
      obtain ⟨hit, t', run, tidy', grows, hits, misses⟩ := ih t matched others tidy
      refine ⟨hit, t', ?_, tidy', grows, hits, fun missed => ?_⟩
      · rw [Regex.advance, consumed]
        exact run
      · obtain ⟨before, all, closed⟩ := misses missed
        refine ⟨before, List.forall_mem_cons.mpr ⟨fun q step => ?_, all⟩, closed⟩
        cases ((steps q).mp step).1
    | true =>
      have onward : re.At s (pos + 1) next := ReflTransGen.tail reached ((steps next).mpr ⟨rfl, rfl⟩)
      obtain ⟨hit, t₁, added, tidy₁, grows₁, hits₁, misses₁⟩ := addThread_spec fine tidy onward
      obtain ⟨hit', t', run, tidy', grows, hits, misses⟩ := ih t₁ (matched || hit) others tidy₁
      refine ⟨hit', t', ?_, tidy', fun p seen => grows p (grows₁ p seen), fun found => ?_, fun missed => ?_⟩
      · rw [Regex.advance, consumed]
        change (addThread re.prog t next (pos + 1) s.length).bind _ = _
        rw [added]
        exact run
      · rcases hits found with before | later
        · rcases Bool.or_eq_true_iff.mp before with before | now
          · exact .inl before
          · exact .inr (hits₁ now)
        · exact .inr later
      · obtain ⟨before, all, closed⟩ := misses missed
        obtain ⟨before, now⟩ := Bool.or_eq_false_iff.mp before
        obtain ⟨seen, closed₁⟩ := misses₁ now
        refine ⟨before, List.forall_mem_cons.mpr ⟨fun q step => ?_, all⟩, fun first => closed (closed₁ first)⟩
        rw [((steps q).mp step).2]
        exact grows next seen

/-- The rest of the text, from a position whose threads are all there and where nothing has matched. -/
theorem scan_spec (chars : List Char) (pos : Nat) (clist : List Nat) (visits : Regex.Visits) (rest : s.drop pos = chars)
    (complete : Complete re s pos clist) (unmatched : ∀ k ≤ pos, ∀ p, re.At s k p → re.prog[p]? ≠ some .match_)
    (entered : visits.entered.Nodup) (upTo : ∀ v ∈ visits.entered, v.2 ≤ pos) (stepped : visits.stepped.Nodup)
    (below : ∀ v ∈ visits.stepped, v.2 < pos) :
    ∃ hit visits', re.scan s.length pos clist visits chars = some (hit, visits') ∧ visits'.entered.Nodup ∧ visits'.stepped.Nodup ∧
      (hit = true ↔ re.Accepts s) := by
  induction chars generalizing pos clist visits with
  | nil =>
    refine ⟨false, visits, rfl, entered, stepped, ?_⟩
    have long : s.length ≤ pos := List.drop_eq_nil_iff.mp rest
    have none_ : ¬ re.Accepts s := by
      rintro ⟨k, p, reached, match_⟩
      exact unmatched k (reached.le.trans long) p reached match_
    simp [none_]
  | cons c chars ih =>
    have char : s[pos]? = some c := by
      have head := congrArg List.head? rest
      rw [List.head?_drop] at head
      exact head
    obtain ⟨hit, t, run, tidy, _, hits, misses⟩ := advance_spec fine char clist (.fresh re.prog) false
      (fun p member => (complete.mem p).mp member) Tidy.fresh
    have enteredNext : (visits.entered ++ t.entered.map (·, pos + 1)).Nodup := by
      apply List.nodup_append'.mpr
      refine ⟨entered, tidy.once.map fun _ _ same => (Prod.mk.inj same).1, ?_⟩
      intro v old new
      obtain ⟨p, _, rfl⟩ := List.mem_map.mp new
      have := upTo _ old
      dsimp only at this
      omega
    have steppedNext : (visits.stepped ++ clist.map (·, pos)).Nodup := by
      apply List.nodup_append'.mpr
      refine ⟨stepped, complete.once.map fun _ _ same => (Prod.mk.inj same).1, ?_⟩
      intro v old new
      obtain ⟨p, _, rfl⟩ := List.mem_map.mp new
      have := below _ old
      dsimp only at this
      omega
    cases hit with
    | true =>
      refine ⟨true, ⟨_, _⟩, ?_, enteredNext, steppedNext, ?_⟩
      · rw [Regex.scan, run]
        rfl
      · rcases hits rfl with none_ | ⟨p, reached, match_⟩
        · cases none_
        · exact ⟨fun _ => ⟨pos + 1, p, reached, match_⟩, fun _ => rfl⟩
    | false =>
      obtain ⟨_, starts, closed⟩ := misses rfl
      have closed := closed .fresh
      have seen : ∀ p, re.At s (pos + 1) p → t.Seen p := by
        apply seen_of_reached closed (by omega)
        intro a p i same reached step
        have same : i = pos := by omega
        subst same
        obtain ⟨inst, here, goes⟩ := step
        have takes : inst.Takes := by
          cases inst with
          | char _ _ => trivial
          | any _ => trivial
          | cls _ _ => trivial
          | split _ _ => exact absurd goes.2 (by simp)
          | jmp _ => exact absurd goes.2 (by simp)
          | start _ => exact absurd goes.2.2 (by simp)
          | end_ _ => exact absurd goes.2.2 (by simp)
          | match_ => exact goes.elim
        exact starts a ((complete.mem a).mpr ⟨reached, inst, here, takes⟩) p ⟨inst, here, goes⟩
      have next : s.drop (pos + 1) = chars := by
        rw [← List.tail_drop, rest]
        rfl
      have later : ∀ k ≤ pos + 1, ∀ p, re.At s k p → re.prog[p]? ≠ some .match_ := by
        intro k le p reached
        rcases Nat.lt_or_eq_of_le le with less | rfl
        · exact unmatched k (by omega) p reached
        · exact closed.unmatched p (seen p reached)
      have upToNext : ∀ v ∈ visits.entered ++ t.entered.map (·, pos + 1), v.2 ≤ pos + 1 := by
        intro v member
        rcases List.mem_append.mp member with old | new
        · exact (upTo v old).trans (Nat.le_succ pos)
        · obtain ⟨p, _, rfl⟩ := List.mem_map.mp new
          exact le_rfl
      have belowNext : ∀ v ∈ visits.stepped ++ clist.map (·, pos), v.2 < pos + 1 := by
        intro v member
        rcases List.mem_append.mp member with old | new
        · exact (below v old).trans (Nat.lt_succ_self pos)
        · obtain ⟨p, _, rfl⟩ := List.mem_map.mp new
          exact Nat.lt_succ_self pos
      obtain ⟨hit, visits', more, rest⟩ := ih (pos + 1) t.list ⟨_, _⟩ next (.of_tidy tidy seen) later enteredNext upToNext
        steppedNext belowNext
      refine ⟨hit, visits', ?_, rest⟩
      rw [Regex.scan, run]
      exact more

end Search

theorem search_spec {re : Regex} (text : String) (fine : ∀ pos p, re.At text.toList pos p → Fine re.prog re.classes p) :
    ∃ hit visits, re.search text = some (hit, visits) ∧ visits.entered.Nodup ∧ visits.stepped.Nodup ∧
      (hit = true ↔ re.Accepts text.toList) := by
  have start : re.At text.toList 0 re.entry := ReflTransGen.refl
  obtain ⟨hit, t, run, tidy, _, hits, misses⟩ := addThread_spec fine Tidy.fresh start
  have entered : (t.entered.map (·, 0)).Nodup := tidy.once.map fun _ _ same => (Prod.mk.inj same).1
  cases hit with
  | true =>
    refine ⟨true, ⟨_, _⟩, ?_, entered, List.nodup_nil, ?_⟩
    · unfold Regex.search
      rw [run]
      rfl
    · obtain ⟨p, reached, match_⟩ := hits rfl
      exact ⟨fun _ => ⟨0, p, reached, match_⟩, fun _ => rfl⟩
  | false =>
    obtain ⟨first, closed⟩ := misses rfl
    have closed := closed .fresh
    have seen : ∀ p, re.At text.toList 0 p → t.Seen p := seen_of_reached closed (fun _ => first) (by omega)
    have unmatched : ∀ k ≤ 0, ∀ p, re.At text.toList k p → re.prog[p]? ≠ some .match_ := by
      intro k le p reached
      cases Nat.le_zero.mp le
      exact closed.unmatched p (seen p reached)
    have upTo : ∀ v ∈ t.entered.map (·, 0), v.2 ≤ 0 := by
      intro v member
      obtain ⟨p, _, rfl⟩ := List.mem_map.mp member
      exact le_rfl
    obtain ⟨hit, visits, more, rest⟩ := scan_spec fine text.toList 0 t.list ⟨_, []⟩ rfl (.of_tidy tidy seen) unmatched entered upTo
      List.nodup_nil (by simp)
    refine ⟨hit, visits, ?_, rest⟩
    unfold Regex.search
    rw [run]
    exact more

section Compile

variable {re : Regex} {ast : Ast} {s : List Char}

/-- A tree's code, a match after it, and the loop that tries it at each position. -/
structure Laid (re : Regex) (ast : Ast) (start last skip : Nat) : Prop where
  code : Code re.prog re.classes ast start last
  matches_ : re.prog[last]? = some .match_
  skips : re.prog[skip]? = some (.any re.entry)
  splits : re.prog[re.entry]? = some (.split start skip)

variable {start last skip : Nat}

theorem Laid.path (laid : Laid re ast start last skip) (n : Nat) : ∀ i ≤ s.length, ∀ z, Times (Step re.prog re.classes s) n (re.entry, i) z →
    Inside re.prog re.classes z.1 ∨ z.1 = last ∧ ∃ a, i ≤ a ∧ a ≤ s.length ∧ ast.lang s a z.2 := by
  induction n using Nat.strong_induction_on with
  | _ n ih =>
    intro i le z path
    rcases Inside.of_path laid.splits (by simp) (by simp) path with inside | ⟨n, q, j, rfl, ⟨which, rfl⟩, path'⟩
    · exact .inl inside
    · rcases which with rfl | rfl
      · rcases laid.code.path n _ z path' with inside | ⟨m, j, _, found, ends⟩
        · exact .inl inside
        · cases m with
          | zero =>
            cases ends
            exact .inr ⟨rfl, _, le_rfl, le, found⟩
          | succ m =>
            obtain ⟨_, ⟨inst, here, goes⟩, _⟩ := ends
            rw [laid.matches_] at here
            cases here
            exact goes.elim
      · rcases Inside.of_path laid.skips (by simp) (by simp) path' with inside | ⟨m, q, j, rfl, ⟨less, rfl, rfl⟩, path''⟩
        · exact .inl inside
        · rcases ih m (by omega) _ less z path'' with inside | ⟨at_, a, low, high, found⟩
          · exact .inl inside
          · exact .inr ⟨at_, a, by omega, high, found⟩

theorem Laid.fine (laid : Laid re ast start last skip) (pos p : Nat) (reached : re.At s pos p) : Fine re.prog re.classes p := by
  obtain ⟨n, path⟩ := reflTransGen_iff_times.mp reached
  rcases laid.path n 0 (Nat.zero_le _) _ path with inside | ⟨rfl, _⟩
  · exact inside.fine
  · exact ⟨_, laid.matches_, by simp⟩

theorem Laid.reaches (laid : Laid re ast start last skip) (i : Nat) (le : i ≤ s.length) :
    ReflTransGen (Step re.prog re.classes s) (re.entry, 0) (re.entry, i) := by
  induction i with
  | zero => exact .refl
  | succ i ih =>
    apply ((ih (by omega)).tail (step_right laid.splits)).tail
    exact ⟨_, laid.skips, le, rfl, rfl⟩

/-- The program matches exactly the texts with a part in the tree's language. -/
theorem Laid.accepts_iff (laid : Laid re ast start last skip) : re.Accepts s ↔ ∃ i j, i ≤ s.length ∧ ast.lang s i j := by
  constructor
  · rintro ⟨pos, p, reached, match_⟩
    obtain ⟨n, path⟩ := reflTransGen_iff_times.mp reached
    rcases laid.path n 0 (Nat.zero_le _) _ path with ⟨inst, here, other, _⟩ | ⟨_, a, _, high, found⟩
    · rw [match_] at here
      cases here
      exact absurd rfl other
    · exact ⟨a, pos, high, found⟩
  · rintro ⟨i, j, le, found⟩
    exact ⟨j, last, ((laid.reaches i le).tail (step_left laid.splits)).trans (laid.code.reaches i j found), laid.matches_⟩

end Compile

end Regexp

end Adelie
