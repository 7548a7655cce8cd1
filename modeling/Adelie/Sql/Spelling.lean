import Adelie.Sql.Lexing

namespace Adelie

open Utf8

namespace Lexer

section Loop

variable {L : Letters} {source : List Char} {fuel i j : Nat}

theorem tokensFrom_end (past : ¬ i < (encode source).length) :
    tokensFrom L source (fuel + 1) i = .ok [⟨.eof, (encode source).length⟩] := if_neg past

theorem tokensFrom_error {e : LexError} (inside : i < (encode source).length) (stopped : step L source i = .error e) :
    tokensFrom L source (fuel + 1) i = .error e := by
  rw [tokensFrom, if_pos inside, stopped]
  rfl

theorem tokensFrom_none (inside : i < (encode source).length) (run : step L source i = .ok (none, j)) :
    tokensFrom L source (fuel + 1) i = tokensFrom L source fuel j := by
  rw [tokensFrom, if_pos inside, run]
  change (tokensFrom L source fuel j).bind _ = _
  cases tokensFrom L source fuel j <;> rfl

theorem tokensFrom_some {token : Token} (inside : i < (encode source).length) (run : step L source i = .ok (some token, j)) :
    tokensFrom L source (fuel + 1) i = (tokensFrom L source fuel j).map (⟨token, i⟩ :: ·) := by
  rw [tokensFrom, if_pos inside, run]
  change (tokensFrom L source fuel j).bind _ = _
  cases tokensFrom L source fuel j <;> rfl

end Loop

/-- Tokens of a text from a byte on: in order, each where a character begins, and one end after them all. -/
structure Spans (source : List Char) (i : Nat) (tokens : List SpannedToken) : Prop where
  boundary : ∀ t ∈ tokens, Boundary source t.offset
  increasing : (tokens.map (·.offset)).Pairwise (· < ·)
  low : ∀ t ∈ tokens, i ≤ t.offset
  last : ∃ body, tokens = body ++ [⟨.eof, (encode source).length⟩] ∧ ∀ t ∈ body, t.token ≠ .eof

section Law

variable {L : Letters} {source text : List Char} {fuel i : Nat}

theorem scanOperator_ne_eof {token : Token} {width : Nat} (scanned : scanOperator text = some (token, width)) : token ≠ .eof := by
  unfold scanOperator at scanned
  split at scanned
  all_goals
    cases scanned
    try simp

theorem turn_ne_eof {token : Token} {used : List Char} (taken : turn L text = some (some token, used)) : token ≠ .eof := by
  unfold turn at taken
  split at taken
  · cases taken
  · split_ifs at taken with blank line block quoted str number ident
    · cases taken
    · cases taken
    · obtain ⟨_, _, same⟩ := Option.map_eq_some_iff.mp taken
      cases same
    · obtain ⟨_, _, same⟩ := Option.map_eq_some_iff.mp taken
      cases same
      simp
    · obtain ⟨_, _, same⟩ := Option.map_eq_some_iff.mp taken
      cases same
      simp
    · cases taken
      simp
    · cases taken
      simp
    · obtain ⟨_, scanned, same⟩ := Option.map_eq_some_iff.mp taken
      cases same
      exact scanOperator_ne_eof scanned

theorem size_pos {used : List Char} (some_ : used ≠ []) : 0 < size used := by
  cases used with
  | nil => exact absurd rfl some_
  | cons c used =>
    have := c.utf8Size_pos
    rw [size_cons]
    omega

theorem size_past {used : List Char} (inside : used <+: text) : size used + size (text.drop used.length) = size text := by
  have whole := congrArg size (List.prefix_iff_eq_append.mp inside)
  rwa [size_append] at whole

theorem Spans.finish (source : List Char) : Spans source (encode source).length [⟨.eof, (encode source).length⟩] where
  boundary := by
    intro t member
    rw [List.mem_singleton.mp member]
    exact ⟨[], source, (List.append_nil _).symm, rfl⟩
  increasing := List.pairwise_singleton _ _
  low := fun t member => Nat.le_of_eq (congrArg SpannedToken.offset (List.mem_singleton.mp member)).symm
  last := ⟨[], rfl, by simp⟩

theorem Spans.later {j : Nat} {tokens : List SpannedToken} (spans : Spans source j tokens) (before : i ≤ j) : Spans source i tokens :=
  { spans with low := fun t member => Nat.le_trans before (spans.low t member) }

theorem Spans.cons {j : Nat} {tokens : List SpannedToken} {token : Token} (spans : Spans source j tokens) (before : i < j)
    (begins : Boundary source i) (other : token ≠ .eof) : Spans source i (⟨token, i⟩ :: tokens) where
  boundary := List.forall_mem_cons.mpr ⟨begins, spans.boundary⟩
  increasing := by
    rw [List.map_cons, List.pairwise_cons]
    refine ⟨fun offset member => ?_, spans.increasing⟩
    obtain ⟨t, inside, rfl⟩ := List.mem_map.mp member
    exact Nat.lt_of_lt_of_le before (spans.low t inside)
  low := List.forall_mem_cons.mpr ⟨Nat.le_refl i, fun t member => Nat.le_trans (Nat.le_of_lt before) (spans.low t member)⟩
  last := by
    obtain ⟨body, whole, others⟩ := spans.last
    exact ⟨⟨token, i⟩ :: body, by rw [whole, List.cons_append], List.forall_mem_cons.mpr ⟨other, others⟩⟩

/-- From a boundary the loop ends at one: in an error of the text, or in its tokens. -/
theorem tokensFrom_spans (at_ : At source i text) (enough : size text < fuel) :
    (∃ e, tokensFrom L source fuel i = .error (.parse e)) ∨ ∃ tokens, tokensFrom L source fuel i = .ok tokens ∧ Spans source i tokens := by
  induction fuel generalizing i text with
  | zero => exact absurd enough (Nat.not_lt_zero _)
  | succ fuel ih =>
    cases text with
    | nil =>
      have length := at_.length
      rw [size_nil, Nat.add_zero] at length
      right
      rw [tokensFrom_end (by omega), length]
      exact ⟨_, rfl, length ▸ Spans.finish source⟩
    | cons c rest =>
      have inside := at_.lt_length
      obtain ⟨taken, refused⟩ := step_turn L at_
      cases turned : turn L (c :: rest) with
      | none =>
        obtain ⟨e, stopped⟩ := refused turned
        exact .inl ⟨e, tokensFrom_error inside stopped⟩
      | some result =>
        obtain ⟨token, used⟩ := result
        obtain ⟨run, first, some_⟩ := taken token used turned
        have pos := size_pos some_
        have total := size_past first
        have later := ih (at_.past first) (by omega)
        cases token with
        | none =>
          rw [tokensFrom_none inside run]
          rcases later with refused | ⟨tokens, ran, spans⟩
          · exact .inl refused
          · exact .inr ⟨tokens, ran, spans.later (Nat.le_add_right _ _)⟩
        | some token =>
          rw [tokensFrom_some inside run]
          rcases later with ⟨e, refused⟩ | ⟨tokens, ran, spans⟩
          · exact .inl ⟨e, by rw [refused]; rfl⟩
          · refine .inr ⟨⟨token, i⟩ :: tokens, by rw [ran]; rfl, ?_⟩
            exact spans.cons (by omega) ⟨_, at_⟩ (turn_ne_eof turned)

end Law

/-- Turn after turn over the characters of a text. -/
inductive Runs (L : Letters) : List Char → List Token → Prop
  | nil : Runs L [] []
  | blank {used rest : List Char} {tokens : List Token} (taken : turn L (used ++ rest) = some (none, used)) (later : Runs L rest tokens) :
      Runs L (used ++ rest) tokens
  | token {used rest : List Char} {token : Token} {tokens : List Token} (taken : turn L (used ++ rest) = some (some token, used))
      (later : Runs L rest tokens) : Runs L (used ++ rest) (token :: tokens)

theorem turn_some {L : Letters} {text used : List Char} {token : Option Token} (taken : turn L text = some (token, used)) :
    ∃ c rest, text = c :: rest := by
  cases text with
  | nil => cases taken
  | cons c rest => exact ⟨c, rest, rfl⟩

theorem Runs.tokensFrom {L : Letters} {source text : List Char} {tokens : List Token} {fuel i : Nat} (runs : Runs L text tokens)
    (at_ : At source i text) (enough : size text < fuel) :
    ∃ out, tokensFrom L source fuel i = .ok out ∧ out.map (·.token) = tokens ++ [.eof] := by
  induction runs generalizing i fuel with
  | nil =>
    obtain ⟨fuel, rfl⟩ := Nat.exists_eq_succ_of_ne_zero (Nat.ne_of_gt enough)
    have length := at_.length
    rw [size_nil, Nat.add_zero] at length
    exact ⟨_, tokensFrom_end (by omega), rfl⟩
  | @blank used rest tokens taken later ih =>
    obtain ⟨fuel, rfl⟩ := Nat.exists_eq_succ_of_ne_zero (Nat.ne_of_gt (Nat.zero_lt_of_lt enough))
    obtain ⟨c, more, begins⟩ := turn_some taken
    rw [begins] at taken
    obtain ⟨run, _, some_⟩ := (step_turn L (begins ▸ at_)).1 none used taken
    have pos := size_pos some_
    rw [size_append] at enough
    obtain ⟨out, ran, same⟩ := ih at_.advance (by omega : size rest < fuel)
    exact ⟨out, by rw [tokensFrom_none (begins ▸ at_).lt_length run, ran], same⟩
  | @token used rest token tokens taken later ih =>
    obtain ⟨fuel, rfl⟩ := Nat.exists_eq_succ_of_ne_zero (Nat.ne_of_gt (Nat.zero_lt_of_lt enough))
    obtain ⟨c, more, begins⟩ := turn_some taken
    rw [begins] at taken
    obtain ⟨run, _, some_⟩ := (step_turn L (begins ▸ at_)).1 (some token) used taken
    have pos := size_pos some_
    rw [size_append] at enough
    obtain ⟨out, ran, same⟩ := ih at_.advance (by omega : size rest < fuel)
    refine ⟨⟨token, i⟩ :: out, by rw [tokensFrom_some (begins ▸ at_).lt_length run, ran]; rfl, ?_⟩
    rw [List.map_cons, same, List.cons_append]

end Lexer

open Lexer

/-- What may stand between tokens. -/
inductive Blank where
  | space (c : Char) (known : c = ' ' ∨ c = '\t' ∨ c = '\n' ∨ c = '\r')
  | line (comment : List Char) (one : '\n' ∉ comment)
  | block (comment : List Char) (one : ¬ ['*', '/'] <:+: comment)

def Blank.text : Blank → List Char
  | .space c _ => [c]
  | .line comment _ => '-' :: '-' :: (comment ++ ['\n'])
  | .block comment _ => '/' :: '*' :: (comment ++ ['*', '/'])

def blanks (gap : List Blank) : List Char := gap.flatMap Blank.text

/-- The quotes of a text doubled. -/
def doubled (quote : Char) : List Char → List Char
  | [] => []
  | c :: rest => if c = quote then quote :: quote :: doubled quote rest else c :: doubled quote rest

def Digits (ds : List Char) : Prop := ∀ c ∈ ds, c.isDigit = true

inductive Fraction : List Char → Prop
  | none : Fraction []
  | some (ds : List Char) (digits : Digits ds) : Fraction ('.' :: ds)

inductive Exponent : List Char → Prop
  | none : Exponent []
  | some (e : Char) (sign ds : List Char) (mark : e = 'e' ∨ e = 'E') (signed : sign = [] ∨ sign = ['+'] ∨ sign = ['-'])
      (digits : Digits ds) (given : ds ≠ []) : Exponent (e :: (sign ++ ds))

/-- An unsigned number: digits before the point, or at least after it. -/
inductive Unsigned : List Char → Prop
  | int (ds : List Char) {fraction exponent : List Char} (digits : Digits ds) (given : ds ≠ []) (f : Fraction fraction)
      (x : Exponent exponent) : Unsigned (ds ++ (fraction ++ exponent))
  | point (ds : List Char) {exponent : List Char} (digits : Digits ds) (given : ds ≠ []) (x : Exponent exponent) :
      Unsigned ('.' :: ds ++ exponent)

/-- How a token is written. -/
inductive Spelled (L : Letters) : Token → List Char → Prop
  | ident (c : Char) (word : List Char) (start : isIdentStart L c = true) (more : ∀ d ∈ word, isIdentContinue L d = true)
      (lower : L.toLowercase (String.ofList (c :: word)) = String.ofList (c :: word)) :
      Spelled L (.ident (String.ofList (c :: word))) (c :: word)
  | quotedIdent (name : String) : Spelled L (.quotedIdent name) ('"' :: (doubled '"' name.toList ++ ['"']))
  | str (text : String) : Spelled L (.str text) ('\'' :: (doubled '\'' text.toList ++ ['\'']))
  | number {text : List Char} (number : Unsigned text) : Spelled L (.number (String.ofList text)) text
  | eq : Spelled L .eq ['=']
  | notEq : Spelled L .notEq ['<', '>']
  | bangEq : Spelled L .notEq ['!', '=']
  | lt : Spelled L .lt ['<']
  | ltEq : Spelled L .ltEq ['<', '=']
  | gt : Spelled L .gt ['>']
  | gtEq : Spelled L .gtEq ['>', '=']
  | plus : Spelled L .plus ['+']
  | minus : Spelled L .minus ['-']
  | star : Spelled L .star ['*']
  | slash : Spelled L .slash ['/']
  | percent : Spelled L .percent ['%']
  | concat : Spelled L .concat ['|', '|']
  | doubleColon : Spelled L .doubleColon [':', ':']
  | lParen : Spelled L .lParen ['(']
  | rParen : Spelled L .rParen [')']
  | lBracket : Spelled L .lBracket ['[']
  | rBracket : Spelled L .rBracket [']']
  | comma : Spelled L .comma [',']
  | dot : Spelled L .dot ['.']
  | semicolon : Spelled L .semicolon [';']

/-- A last comment may go without its newline. -/
inductive Tail : List Char → Prop
  | none : Tail []
  | line (comment : List Char) (one : '\n' ∉ comment) : Tail ('-' :: '-' :: comment)

/-- Tokens with blanks between them; what follows a `-` does not make it the start of a comment. -/
inductive Parted (L : Letters) : List Token → List Char → Prop
  | nil {tail : List Char} (last : Tail tail) : Parted L [] tail
  | one {token : Token} {text tail : List Char} (gap : List Blank) (spells : Spelled L token text) (last : Tail tail)
      (apart : token = .minus → (blanks gap ++ tail).head? ≠ some '-') : Parted L [token] (text ++ (blanks gap ++ tail))
  | more {token next : Token} {tokens : List Token} {text rest : List Char} (gap : List Blank) (given : gap ≠ []) (spells : Spelled L token text)
      (apart : token = .minus → (blanks gap ++ rest).head? ≠ some '-') (later : Parted L (next :: tokens) rest) :
      Parted L (token :: next :: tokens) (text ++ (blanks gap ++ rest))

/-- A text of tokens, blanks before them and after. -/
def WrittenTokens (L : Letters) (tokens : List Token) (text : List Char) : Prop :=
  ∃ (lead : List Blank) (rest : List Char), text = blanks lead ++ rest ∧ Parted L tokens rest

end Adelie
