import Adelie.Exec.Eval

namespace Adelie

namespace Like

inductive Token where
  | any | one
  | char (c : Char)
deriving DecidableEq

/-- `\` escapes the next character. -/
def compile : List Char → Except ExecError (List Token)
  | [] => .ok []
  | '%' :: rest => (compile rest).map (.any :: ·)
  | '_' :: rest => (compile rest).map (.one :: ·)
  | '\\' :: escaped :: rest => (compile rest).map (.char escaped :: ·)
  | ['\\'] => .error (.invalid "LIKE pattern ends with an escape")
  | other :: rest => (compile rest).map (.char other :: ·)

def charEq (lowercase : Char → List Char) (a b : Char) (caseInsensitive : Bool) : Bool :=
  if caseInsensitive then lowercase a == lowercase b else a == b

/-- One character of the string against the token there, if any. -/
def literalMatch (eq : Char → Char → Bool) : Option Token → Char → Bool
  | some .one, _ => true
  | some (.char pc), c => eq pc c
  | _, _ => false

theorem inside_of_literal {eq : Char → Char → Bool} {p : List Token} {i : Nat} {c : Char} (same : literalMatch eq p[i]? c) :
    i < p.length := by
  by_cases inside : i < p.length
  · exact inside
  · rw [List.getElem?_eq_none (Nat.le_of_not_lt inside)] at same
    cases same

theorem inside_of_some {p : List Token} {i : Nat} {t : Token} (found : p[i]? = some t) : i < p.length :=
  (List.getElem?_eq_some_iff.mp found).1

/-- Both positions, and where to resume when what follows the last `%` fails. -/
structure Scan (s : List Char) (p : List Token) where
  si : Nat
  pi : Nat
  star : Option Nat
  matchFrom : Nat
  si_le : si ≤ s.length
  pi_le : pi ≤ p.length
  back : matchFrom ≤ si
  past : ∀ i, star = some i → i < pi

section Match

variable (eq : Char → Char → Bool) {s : List Char} {p : List Token}

namespace Scan

def start (s : List Char) (p : List Token) : Scan s p where
  si := 0
  pi := 0
  star := none
  matchFrom := 0
  si_le := Nat.zero_le _
  pi_le := Nat.zero_le _
  back := Nat.le_refl _
  past := by
    intro i found
    cases found

def advance (c : Scan s p) (more : c.si < s.length) (inside : c.pi < p.length) : Scan s p :=
  { c with
    si := c.si + 1
    pi := c.pi + 1
    si_le := more
    pi_le := inside
    back := Nat.le_succ_of_le c.back
    past := fun i found => Nat.lt_succ_of_lt (c.past i found) }

/-- Remember this `%`, standing for nothing at first. -/
def mark (c : Scan s p) (inside : c.pi < p.length) : Scan s p :=
  { c with
    pi := c.pi + 1
    star := some c.pi
    matchFrom := c.si
    pi_le := inside
    back := Nat.le_refl _
    past := fun i found => by
      cases found
      exact Nat.lt_succ_self _ }

/-- Let the last `%` stand for one character more. -/
def resume (c : Scan s p) (more : c.si < s.length) (i : Nat) (found : c.star = some i) : Scan s p :=
  { c with
    si := c.matchFrom + 1
    pi := i + 1
    matchFrom := c.matchFrom + 1
    si_le := Nat.lt_of_le_of_lt c.back more
    pi_le := Nat.lt_of_lt_of_le (c.past i found) c.pi_le
    back := Nat.le_refl _
    past := fun j same => by
      rw [found] at same
      cases same
      exact Nat.lt_succ_self _ }

end Scan

/-- Greedy two-pointer match with a single star position. -/
def likeMatch (c : Scan s p) : Bool :=
  if more : c.si < s.length then
    if same : literalMatch eq p[c.pi]? s[c.si] then likeMatch (c.advance more (inside_of_literal same))
    else if any : p[c.pi]? = some .any then likeMatch (c.mark (inside_of_some any))
    else match found : c.star with
      | some starPos => likeMatch (c.resume more starPos found)
      | none => false
  else c.pi + ((p.drop c.pi).takeWhile (· == .any)).length == p.length
termination_by (p.length - c.star.elim 0 (· + 1), s.length - c.matchFrom, s.length - c.si)
decreasing_by
  · apply Prod.Lex.right
    apply Prod.Lex.right
    change s.length - (c.si + 1) < s.length - c.si
    omega
  · have inside := inside_of_some any
    apply Prod.Lex.left
    change p.length - (c.pi + 1) < p.length - c.star.elim 0 (· + 1)
    cases found : c.star with
    | none =>
      change p.length - (c.pi + 1) < p.length - 0
      omega
    | some i =>
      have before := c.past i found
      change p.length - (c.pi + 1) < p.length - (i + 1)
      omega
  · have back := c.back
    apply Prod.Lex.right
    apply Prod.Lex.left
    change s.length - (c.matchFrom + 1) < s.length - c.matchFrom
    omega

def likeCell (tokens : List Token) : Value → Except ExecError Value
  | .null => .ok .null
  | .string s => .ok (.bool (likeMatch eq (.start s.toList tokens)))
  | _ => .error (.panicked "checked STRING above")

/-- NULL where the column is NULL. -/
def like (lowercase : Char → List Char) (col : Column) (pattern : String) (caseInsensitive : Bool) : Except ExecError Column := do
  ensure (col.ty = .string) (.plan s!"LIKE operand must be STRING, found {col.ty.display}")
  let tokens ← compile pattern.toList
  return ⟨.bool, ← col.cells.mapM (likeCell (charEq lowercase · · caseInsensitive) tokens)⟩

end Match

/-- The string is the pattern with a run of characters for each `%` and one character for each `_`. -/
inductive Written (eq : Char → Char → Bool) : List Char → List Char → Prop
  | nil : Written eq [] []
  | percent {p s : List Char} (run : List Char) (rest : Written eq p s) : Written eq ('%' :: p) (run ++ s)
  | underscore {p s : List Char} (c : Char) (rest : Written eq p s) : Written eq ('_' :: p) (c :: s)
  | escaped {p s : List Char} {a c : Char} (same : eq a c) (rest : Written eq p s) : Written eq ('\\' :: a :: p) (c :: s)
  | literal {p s : List Char} {a c : Char} (plain : a ∉ ['%', '_', '\\']) (same : eq a c) (rest : Written eq p s) :
      Written eq (a :: p) (c :: s)

/-- The same on tokens. -/
def Matches (eq : Char → Char → Bool) : List Token → List Char → Prop
  | [], s => s = []
  | .any :: p, s => ∃ k, k ≤ s.length ∧ Matches eq p (s.drop k)
  | t :: p, s => ∃ c rest, s = c :: rest ∧ literalMatch eq (some t) c ∧ Matches eq p rest

section Tokens

variable {eq : Char → Char → Bool} {t : Token} {p seg : List Token} {s cs : List Char} {c : Char}

theorem literalMatch_any (c : Char) : literalMatch eq (some .any) c = false := rfl

theorem ne_any_of_literal (same : literalMatch eq (some t) c) : t ≠ .any := by
  rintro rfl
  cases same

theorem matches_cons (plain : t ≠ .any) : Matches eq (t :: p) s ↔ ∃ c rest, s = c :: rest ∧ literalMatch eq (some t) c ∧ Matches eq p rest := by
  cases t with
  | any => exact absurd rfl plain
  | one => rfl
  | char a => rfl

theorem matches_append (each : List.Forall₂ (fun t c => literalMatch eq (some t) c) seg cs) :
    Matches eq (seg ++ p) (cs ++ s) ↔ Matches eq p s := by
  induction each with
  | nil => rfl
  | cons same _ ih =>
    rw [List.cons_append, List.cons_append, matches_cons (ne_any_of_literal same), ← ih]
    constructor
    · rintro ⟨_, _, split_, _, rest⟩
      cases split_
      exact rest
    · intro rest
      exact ⟨_, _, rfl, same, rest⟩

/-- Tokens other than `%` take one character each. -/
theorem drop_of_matches (plain : ∀ t ∈ seg, t ≠ .any) (matched : Matches eq (seg ++ p) s) :
    seg.length ≤ s.length ∧ Matches eq p (s.drop seg.length) := by
  induction seg generalizing s with
  | nil => exact ⟨Nat.zero_le _, matched⟩
  | cons t seg ih =>
    rw [List.cons_append, matches_cons (plain t (.head _))] at matched
    obtain ⟨c, rest, rfl, _, matched⟩ := matched
    obtain ⟨room, matched⟩ := ih (fun u member => plain u (.tail _ member)) matched
    exact ⟨Nat.succ_le_succ room, matched⟩

theorem forall₂_plain (each : List.Forall₂ (fun t c => literalMatch eq (some t) c) seg cs) : ∀ t ∈ seg, t ≠ .any := by
  induction each with
  | nil => simp
  | cons same _ ih =>
    intro t member
    rcases List.mem_cons.mp member with rfl | member
    · exact ne_any_of_literal same
    · exact ih t member

/-- Only a run of `%` matches nothing. -/
theorem matches_nil : Matches eq p [] ↔ (p.takeWhile (· == .any)).length = p.length := by
  induction p with
  | nil => simp [Matches]
  | cons t p ih =>
    cases t with
    | any => simpa [Matches] using ih
    | one => simp [Matches]
    | char a => simp [Matches]

end Tokens

section Correct

variable {eq : Char → Char → Bool} {s : List Char} {p : List Token} {goal : Prop}

/-- What is left to match decides: with no `%` behind, what follows both positions. Behind a `%`, what follows it matches from
    `matchFrom` on or not at all, and matches literally so far. -/
structure Scan.Inv (eq : Char → Char → Bool) (goal : Prop) (c : Scan s p) : Prop where
  plain : c.star = none → (goal ↔ Matches eq (p.drop c.pi) (s.drop c.si))
  starred : ∀ i, c.star = some i → ∃ seg cs, p.drop (i + 1) = seg ++ p.drop c.pi ∧ s.drop c.matchFrom = cs ++ s.drop c.si ∧
    List.Forall₂ (fun t c => literalMatch eq (some t) c) seg cs ∧
    (goal ↔ ∃ k, c.matchFrom ≤ k ∧ k ≤ s.length ∧ Matches eq (p.drop (i + 1)) (s.drop k))

variable {c : Scan s p}

theorem Scan.Inv.start (eq : Char → Char → Bool) (s : List Char) (p : List Token) : (Scan.start s p).Inv eq (Matches eq p s) := by
  refine ⟨fun _ => Iff.rfl, ?_⟩
  intro i found
  cases found

theorem Scan.Inv.advance (inv : c.Inv eq goal) (more : c.si < s.length) (inside : c.pi < p.length)
    (same : literalMatch eq p[c.pi]? s[c.si]) : (c.advance more inside).Inv eq goal := by
  rw [List.getElem?_eq_getElem inside] at same
  have tokens : p.drop c.pi = p[c.pi] :: p.drop (c.pi + 1) := List.drop_eq_getElem_cons inside
  have chars : s.drop c.si = s[c.si] :: s.drop (c.si + 1) := List.drop_eq_getElem_cons more
  have one : List.Forall₂ (fun t c => literalMatch eq (some t) c) [p[c.pi]] [s[c.si]] := .cons same .nil
  constructor
  · intro none_
    rw [inv.plain none_, tokens, chars]
    exact matches_append one
  · intro i found
    obtain ⟨seg, cs, before, after, each, decided⟩ := inv.starred i found
    refine ⟨seg ++ [p[c.pi]], cs ++ [s[c.si]], ?_, ?_, List.rel_append each one, decided⟩
    · rw [before, tokens, List.append_assoc]
      rfl
    · change s.drop c.matchFrom = _
      rw [after, chars, List.append_assoc]
      rfl

/-- Behind a new `%` the older one no longer matters: what it lets match, the new one lets match too. -/
theorem Scan.Inv.mark (inv : c.Inv eq goal) (inside : c.pi < p.length) (any : p[c.pi]? = some .any) : (c.mark inside).Inv eq goal := by
  rw [List.getElem?_eq_getElem inside] at any
  have star : p.drop c.pi = .any :: p.drop (c.pi + 1) := by
    rw [List.drop_eq_getElem_cons inside, Option.some.inj any]
  have runs : ∀ k ≤ s.length, Matches eq (p.drop c.pi) (s.drop k) ↔ ∃ j, k ≤ j ∧ j ≤ s.length ∧ Matches eq (p.drop (c.pi + 1)) (s.drop j) := by
    intro k room
    rw [star, Matches]
    constructor
    · rintro ⟨run, few, rest⟩
      rw [List.drop_drop] at rest
      rw [List.length_drop] at few
      exact ⟨k + run, by omega, by omega, rest⟩
    · rintro ⟨j, from_, room, rest⟩
      refine ⟨j - k, by rw [List.length_drop]; omega, ?_⟩
      rw [List.drop_drop, Nat.add_sub_cancel' from_]
      exact rest
  constructor
  · intro none_
    cases none_
  · intro i found
    cases found
    refine ⟨[], [], rfl, rfl, .nil, ?_⟩
    change goal ↔ ∃ k, c.si ≤ k ∧ k ≤ s.length ∧ Matches eq (p.drop (c.pi + 1)) (s.drop k)
    rw [← runs c.si c.si_le]
    cases old : c.star with
    | none => exact inv.plain old
    | some i =>
      obtain ⟨seg, cs, before, after, each, decided⟩ := inv.starred i old
      have lengths : c.matchFrom + seg.length = c.si := by
        have count := congrArg List.length after
        have back := c.back
        have si_le := c.si_le
        rw [List.length_append, List.length_drop, List.length_drop, ← each.length_eq] at count
        omega
      rw [decided, before]
      constructor
      · rintro ⟨k, from_, room, matched⟩
        obtain ⟨few, rest⟩ := drop_of_matches (forall₂_plain each) matched
        rw [List.drop_drop] at rest
        rw [List.length_drop] at few
        obtain ⟨j, from', room', rest⟩ := (runs (k + seg.length) (by omega)).mp rest
        exact (runs c.si c.si_le).mpr ⟨j, by omega, room', rest⟩
      · intro rest
        have back := c.back
        have si_le := c.si_le
        refine ⟨c.matchFrom, Nat.le_refl _, by omega, ?_⟩
        rw [after]
        exact (matches_append each).mpr rest

theorem Scan.Inv.stuck (more : c.si < s.length) (differs : literalMatch eq p[c.pi]? s[c.si] = false) (plain : p[c.pi]? ≠ some .any) :
    ¬Matches eq (p.drop c.pi) (s.drop c.si) := by
  intro matched
  rw [List.drop_eq_getElem_cons more] at matched
  by_cases inside : c.pi < p.length
  · rw [List.getElem?_eq_getElem inside] at differs plain
    rw [List.drop_eq_getElem_cons inside, matches_cons (fun same => plain (congrArg some same))] at matched
    obtain ⟨_, _, split_, same, _⟩ := matched
    cases split_
    rw [differs] at same
    cases same
  · rw [List.drop_of_length_le (Nat.le_of_not_lt inside)] at matched
    cases matched

/-- Where what follows the `%` fails, it fails at `matchFrom`: nothing is lost by resuming one character later. -/
theorem Scan.Inv.resume (inv : c.Inv eq goal) (more : c.si < s.length) (differs : literalMatch eq p[c.pi]? s[c.si] = false)
    (plain : p[c.pi]? ≠ some .any) {i : Nat} (found : c.star = some i) : (c.resume more i found).Inv eq goal := by
  obtain ⟨seg, cs, before, after, each, decided⟩ := inv.starred i found
  constructor
  · intro none_
    exact absurd (found.symm.trans none_) (Option.some_ne_none i)
  · intro j same
    obtain rfl : i = j := Option.some.inj (found.symm.trans same)
    refine ⟨[], [], rfl, rfl, .nil, decided.trans ?_⟩
    constructor
    · rintro ⟨k, from_, room, matched⟩
      have later : k ≠ c.matchFrom := by
        rintro rfl
        rw [before, after] at matched
        exact Scan.Inv.stuck more differs plain ((matches_append each).mp matched)
      exact ⟨k, by change c.matchFrom + 1 ≤ k; omega, room, matched⟩
    · rintro ⟨k, from_, room, matched⟩
      exact ⟨k, Nat.le_of_succ_le from_, room, matched⟩

/-- At the end of the string only what both positions have left decides. -/
theorem Scan.Inv.finish (inv : c.Inv eq goal) (done : c.si = s.length) : goal ↔ Matches eq (p.drop c.pi) [] := by
  have end_ : s.drop c.si = [] := List.drop_of_length_le (Nat.le_of_eq done.symm)
  cases found : c.star with
  | none => rw [inv.plain found, end_]
  | some i =>
    obtain ⟨seg, cs, before, after, each, decided⟩ := inv.starred i found
    have back := c.back
    have count := congrArg List.length after
    rw [end_, List.append_nil, List.length_drop, ← each.length_eq] at count
    rw [end_] at after
    rw [decided]
    constructor
    · rintro ⟨k, from_, room, matched⟩
      have again := matched
      rw [before] at again
      have few := (drop_of_matches (forall₂_plain each) again).1
      rw [List.length_drop] at few
      obtain rfl : k = c.matchFrom := by omega
      rw [before, after] at matched
      exact (matches_append each).mp matched
    · intro rest
      refine ⟨c.matchFrom, Nat.le_refl _, by omega, ?_⟩
      rw [before, after]
      exact (matches_append each).mpr rest

theorem likeMatch_iff (c : Scan s p) (inv : c.Inv eq goal) : likeMatch eq c = true ↔ goal := by
  fun_induction likeMatch eq c with
  | case1 c more same ih => exact ih (inv.advance more (inside_of_literal same) same)
  | case2 c more differs any ih => exact ih (inv.mark (inside_of_some any) any)
  | case3 c more differs plain i found ih =>
    exact ih (inv.resume more (Bool.eq_false_iff.mpr differs) plain found)
  | case4 c more differs plain found =>
    rw [inv.plain found]
    simpa using Scan.Inv.stuck more (Bool.eq_false_iff.mpr differs) plain
  | case5 c done =>
    have pi_le := c.pi_le
    rw [inv.finish (Nat.le_antisymm c.si_le (Nat.le_of_not_lt done)), matches_nil, beq_iff_eq, List.length_drop]
    omega

end Correct

theorem map_eq_ok {ε α β : Type} {f : α → β} {e : Except ε α} {b : β} : e.map f = .ok b ↔ ∃ a, e = .ok a ∧ f a = b := by
  cases e <;> simp [Except.map]

section Patterns

variable {eq : Char → Char → Bool} {p : List Char} {s : List Char} {a : Char}

theorem written_percent : Written eq ('%' :: p) s ↔ ∃ k, k ≤ s.length ∧ Written eq p (s.drop k) := by
  constructor
  · intro written
    cases written with
    | @percent _ rest run written =>
      refine ⟨run.length, by simp, ?_⟩
      rwa [List.drop_left]
    | literal plain => exact absurd (by decide) plain
  · rintro ⟨k, _, written⟩
    rw [← List.take_append_drop k s]
    exact .percent _ written

theorem written_underscore : Written eq ('_' :: p) s ↔ ∃ c rest, s = c :: rest ∧ Written eq p rest := by
  constructor
  · intro written
    cases written with
    | underscore c written => exact ⟨_, _, rfl, written⟩
    | literal plain => exact absurd (by decide) plain
  · rintro ⟨c, rest, rfl, written⟩
    exact .underscore c written

theorem written_escaped : Written eq ('\\' :: a :: p) s ↔ ∃ c rest, s = c :: rest ∧ eq a c ∧ Written eq p rest := by
  constructor
  · intro written
    cases written with
    | escaped same written => exact ⟨_, _, rfl, same, written⟩
    | literal plain => exact absurd (by decide) plain
  · rintro ⟨c, rest, rfl, same, written⟩
    exact .escaped same written

theorem written_literal (plain : a ∉ ['%', '_', '\\']) : Written eq (a :: p) s ↔ ∃ c rest, s = c :: rest ∧ eq a c ∧ Written eq p rest := by
  constructor
  · intro written
    cases written with
    | literal _ same written => exact ⟨_, _, rfl, same, written⟩
    | _ => exact absurd (by decide) plain
  · rintro ⟨c, rest, rfl, same, written⟩
    exact .literal plain same written

theorem written_nil : Written eq [] s ↔ s = [] := by
  constructor
  · intro written
    cases written
    rfl
  · rintro rfl
    exact .nil

theorem plain_of_ne {rest : List Char} (percent : a = '%' → False) (underscore : a = '_' → False)
    (escaped : ∀ e rest', a = '\\' → rest = e :: rest' → False) (lone : a = '\\' → rest = [] → False) : a ∉ ['%', '_', '\\'] := by
  intro member
  simp only [List.mem_cons, List.not_mem_nil, or_false] at member
  rcases member with same | same | same
  · exact percent same
  · exact underscore same
  · cases rest with
    | nil => exact lone same rfl
    | cons e rest' => exact escaped e rest' same rfl

/-- The tokens mean what the pattern says. -/
theorem matches_iff_written {tokens : List Token} (compiled : compile p = .ok tokens) : Matches eq tokens s ↔ Written eq p s := by
  fun_induction compile p generalizing tokens s with
  | case1 =>
    cases compiled
    exact written_nil.symm
  | case2 rest ih =>
    obtain ⟨made, inner, rfl⟩ := map_eq_ok.mp compiled
    rw [written_percent, Matches]
    simp only [ih inner]
  | case3 rest ih =>
    obtain ⟨made, inner, rfl⟩ := map_eq_ok.mp compiled
    rw [written_underscore, Matches]
    · simp only [ih inner, literalMatch, true_and]
    · simp
  | case4 escaped rest ih =>
    obtain ⟨made, inner, rfl⟩ := map_eq_ok.mp compiled
    rw [written_escaped, Matches]
    · simp only [ih inner, literalMatch]
    · simp
  | case5 => cases compiled
  | case6 other rest percent underscore escaped lone ih =>
    obtain ⟨made, inner, rfl⟩ := map_eq_ok.mp compiled
    have plain : other ∉ ['%', '_', '\\'] := plain_of_ne percent underscore escaped lone
    rw [written_literal plain, Matches]
    · simp only [ih inner, literalMatch]
    · simp

/-- Backslashes that a pattern ends in. -/
def trailing (p : List Char) : Nat := (p.reverse.takeWhile (· == '\\')).length

theorem trailing_le (p : List Char) : trailing p ≤ p.length := by
  have short := (List.takeWhile_prefix (l := p.reverse) (· == '\\')).length_le
  rwa [List.length_reverse] at short

theorem trailing_cons (c : Char) (p : List Char) :
    trailing (c :: p) = if trailing p = p.length then p.length + (if c = '\\' then 1 else 0) else trailing p := by
  unfold trailing
  rw [List.reverse_cons, List.takeWhile_append, List.length_reverse]
  split
  · by_cases last : c = '\\'
    · simp [last]
    · simp [last]
  · rfl

/-- A pattern is refused exactly when a lone `\` ends it. -/
theorem compile_error (p : List Char) : (∃ tokens, compile p = .ok tokens ∧ trailing p % 2 = 0) ∨
    (compile p = .error (.invalid "LIKE pattern ends with an escape") ∧ trailing p % 2 = 1) := by
  have each : ∀ (rest : List Char) (t : Token) (n : Nat), n % 2 = trailing rest % 2 →
      ((∃ tokens, compile rest = .ok tokens ∧ trailing rest % 2 = 0) ∨
        (compile rest = .error (.invalid "LIKE pattern ends with an escape") ∧ trailing rest % 2 = 1)) →
      (∃ tokens, (compile rest).map (t :: ·) = .ok tokens ∧ n % 2 = 0) ∨
        ((compile rest).map (t :: ·) = .error (.invalid "LIKE pattern ends with an escape") ∧ n % 2 = 1) := by
    intro rest t n parity known
    rw [parity]
    rcases known with ⟨tokens, made, even⟩ | ⟨refused, odd⟩
    · exact .inl ⟨t :: tokens, by rw [made]; rfl, even⟩
    · exact .inr ⟨by rw [refused]; rfl, odd⟩
  have plain : ∀ (c : Char) (rest : List Char), c ≠ '\\' → trailing (c :: rest) = trailing rest := by
    intro c rest other
    rw [trailing_cons, if_neg other]
    split
    · omega
    · rfl
  fun_induction compile p with
  | case1 => exact .inl ⟨[], rfl, rfl⟩
  | case2 rest ih => exact each rest .any _ (by rw [plain '%' rest (by decide)]) ih
  | case3 rest ih => exact each rest .one _ (by rw [plain '_' rest (by decide)]) ih
  | case4 escaped rest ih =>
    refine each rest (.char escaped) _ ?_ ih
    have short := trailing_le rest
    rw [trailing_cons, trailing_cons, if_pos rfl, List.length_cons]
    by_cases full : trailing rest = rest.length
    · by_cases again : escaped = '\\'
      · rw [if_pos full, if_pos again, if_pos rfl]
        omega
      · rw [if_pos full, if_neg again, if_neg (by omega), full]
        rfl
    · rw [if_neg full, if_neg (by omega)]
  | case5 => exact .inr ⟨rfl, by decide⟩
  | case6 other rest percent underscore escaped lone ih =>
    have bare := plain_of_ne percent underscore escaped lone
    exact each rest (.char other) _ (by rw [plain other rest fun same => bare (by simp [same])]) ih

end Patterns

section Columns

/-- A row's answer: none for a NULL, else whether the row is written by the pattern. -/
def Answers (eq : Char → Char → Bool) (pattern : String) : Option String → Option Bool → Prop
  | none, answer => answer = none
  | some s, answer => ∃ b, answer = some b ∧ (b = true ↔ Written eq pattern.toList s.toList)

def textCell : Option String → Value
  | some s => .string s
  | none => .null

/-- LIKE over a STRING column: the pattern is refused when a lone `\` ends it, and else each row is answered by what the pattern
    writes. -/
theorem like_exact (lowercase : Char → List Char) (rows : List (Option String)) (pattern : String) (caseInsensitive : Bool) :
    (trailing pattern.toList % 2 = 1 →
      like lowercase ⟨.string, rows.map textCell⟩ pattern caseInsensitive = .error (.invalid "LIKE pattern ends with an escape")) ∧
    (trailing pattern.toList % 2 = 0 → ∃ answers, like lowercase ⟨.string, rows.map textCell⟩ pattern caseInsensitive = .ok (boolColumn answers) ∧
      List.Forall₂ (Answers (charEq lowercase · · caseInsensitive) pattern) rows answers) := by
  have typed : (ensure ((Column.mk .string (rows.map textCell)).ty = .string)
      (.plan s!"LIKE operand must be STRING, found {(Column.mk .string (rows.map textCell)).ty.display}") : Except ExecError Unit) = .ok () :=
    if_pos rfl
  unfold like
  rw [typed]
  rcases compile_error pattern.toList with ⟨tokens, made, even⟩ | ⟨refused, odd⟩
  · rw [made]
    refine ⟨by omega, fun _ => ?_⟩
    refine ⟨rows.map (·.map fun s => likeMatch (charEq lowercase · · caseInsensitive) (.start s.toList tokens)), ?_, ?_⟩
    · have cells : (rows.map textCell).mapM (likeCell (charEq lowercase · · caseInsensitive) tokens) =
          .ok ((rows.map (·.map fun s => likeMatch (charEq lowercase · · caseInsensitive) (.start s.toList tokens))).map boolCell) := by
        apply mapM_except_of_forall₂
        rw [List.forall₂_map_left_iff, List.forall₂_map_right_iff, List.forall₂_map_right_iff]
        apply List.forall₂_same.mpr
        intro row _
        cases row <;> rfl
      change (Except.bind ((rows.map textCell).mapM _) _ : Except ExecError Column) = _
      rw [cells]
      rfl
    · rw [List.forall₂_map_right_iff]
      apply List.forall₂_same.mpr
      intro row _
      cases row with
      | none => rfl
      | some s =>
        refine ⟨_, rfl, ?_⟩
        rw [likeMatch_iff _ (Scan.Inv.start _ _ _)]
        exact matches_iff_written made
  · rw [refused]
    exact ⟨fun _ => rfl, by omega⟩

end Columns

end Like

end Adelie
