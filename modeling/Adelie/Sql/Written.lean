import Adelie.Sql.Spelling

namespace Adelie

open Utf8

namespace Lexer

/-- A text after which a token has ended: nothing, a blank or a comment. -/
def Ends (text : List Char) : Prop := ∀ c, text.head? = some c → c ∈ [' ', '\t', '\n', '\r', '-', '/']

theorem Ends.tail {text : List Char} (last : Tail text) : Ends text := by
  cases last with
  | none =>
    intro c first
    cases first
  | line comment one =>
    intro c first
    cases first
    decide

theorem Ends.blank (b : Blank) (rest : List Char) : Ends (b.text ++ rest) := by
  intro c first
  cases b with
  | space d known =>
    cases first
    rcases known with rfl | rfl | rfl | rfl <;> decide
  | line comment one =>
    cases first
    decide
  | block comment one =>
    cases first
    decide

theorem Ends.blanks {gap : List Blank} {rest : List Char} (given : gap ≠ []) : Ends (blanks gap ++ rest) := by
  cases gap with
  | nil => exact absurd rfl given
  | cons b gap =>
    rw [Adelie.blanks, List.flatMap_cons, List.append_assoc]
    exact Ends.blank b _

theorem Ends.not_head {text : List Char} {a : Char} (ends : Ends text) (other : a ∉ [' ', '\t', '\n', '\r', '-', '/']) :
    text.head? ≠ some a := fun first => other (ends a first)

section Words

theorem Ends.no_digit {text : List Char} (ends : Ends text) : ∀ c, text.head? = some c → c.isDigit = false := by
  intro c first
  have known := ends c first
  simp only [List.mem_cons, List.not_mem_nil, or_false] at known
  rcases known with rfl | rfl | rfl | rfl | rfl | rfl <;> rfl

theorem Ends.no_word (L : Letters) {text : List Char} (ends : Ends text) : ∀ c, text.head? = some c → isIdentContinue L c = false := by
  intro c first
  have known := ends c first
  simp only [List.mem_cons, List.not_mem_nil, or_false] at known
  rw [isIdentContinue]
  rcases known with rfl | rfl | rfl | rfl | rfl | rfl
  all_goals
    rw [L.alphanumeric_ascii _ (by decide)]
    rfl

end Words

section Comments

variable {rest comment : List Char}

theorem closeBlock_comment (one : ¬ ['*', '/'] <:+: comment) :
    closeBlock (comment ++ ('*' :: '/' :: rest)) = some (comment ++ ['*', '/']) := by
  induction comment with
  | nil => rfl
  | cons c comment ih =>
    have later := ih fun inside => one (List.IsInfix.trans inside (List.suffix_cons c comment).isInfix)
    rw [List.cons_append, closeBlock, later, if_neg]
    · rfl
    · rintro ⟨rfl, slash⟩
      cases comment with
      | nil => cases slash
      | cons d comment =>
        obtain rfl : d = '/' := Option.some.inj slash
        exact one ⟨[], comment, rfl⟩

theorem turn_space {L : Letters} {c : Char} (known : c = ' ' ∨ c = '\t' ∨ c = '\n' ∨ c = '\r') : turn L (c :: rest) = some (none, [c]) := by
  rw [turn, if_pos known]

theorem turn_line (L : Letters) (one : '\n' ∉ comment) (stop : ∀ c, rest.head? = some c → c = '\n') :
    turn L ('-' :: '-' :: (comment ++ rest)) = some (none, '-' :: '-' :: comment) := by
  have taken : (comment ++ rest).takeWhile (· ≠ '\n') = comment := by
    apply takeWhile_stop
    · intro c member
      exact decide_eq_true fun same => one (same ▸ member)
    · intro c first
      exact decide_eq_false (not_not_intro (stop c first))
  rw [turn, if_neg (by decide), if_pos ⟨rfl, rfl⟩, List.tail_cons, taken]

theorem turn_block (L : Letters) (one : ¬ ['*', '/'] <:+: comment) :
    turn L ('/' :: '*' :: (comment ++ ('*' :: '/' :: rest))) = some (none, '/' :: '*' :: (comment ++ ['*', '/'])) := by
  have no : ¬ ('/' = '-' ∧ ('*' :: (comment ++ ('*' :: '/' :: rest))).head? = some '-') := fun both => absurd both.1 (by decide)
  rw [turn, if_neg (by decide), if_neg no, if_pos ⟨rfl, rfl⟩, List.tail_cons, closeBlock_comment one]
  rfl

/-- Blanks are passed over. -/
theorem Runs.skip {L : Letters} {tokens : List Token} (b : Blank) (later : Runs L rest tokens) : Runs L (b.text ++ rest) tokens := by
  cases b with
  | space c known => exact .blank (turn_space known) later
  | line comment one =>
    have newline : Runs L ('\n' :: rest) tokens := @Runs.blank L ['\n'] rest tokens (turn_space (by decide)) later
    have taken := @turn_line ('\n' :: rest) comment L one (by simp)
    have run := @Runs.blank L ('-' :: '-' :: comment) _ tokens taken newline
    simpa [Blank.text] using run
  | block comment one =>
    have taken := @turn_block rest comment L one
    have run := @Runs.blank L ('/' :: '*' :: (comment ++ ['*', '/'])) rest tokens (by simpa using taken) later
    simpa [Blank.text] using run

theorem Runs.blanks {L : Letters} {tokens : List Token} (gap : List Blank) (later : Runs L rest tokens) :
    Runs L (blanks gap ++ rest) tokens := by
  induction gap with
  | nil => exact later
  | cons b gap ih =>
    rw [Adelie.blanks, List.flatMap_cons, List.append_assoc]
    exact Runs.skip b ih

theorem Runs.tail {L : Letters} {text : List Char} (last : Tail text) : Runs L text [] := by
  cases last with
  | none => exact .nil
  | line comment one =>
    have taken := @turn_line [] comment L one (by simp)
    have run := @Runs.blank L ('-' :: '-' :: comment) [] [] (by simpa using taken) .nil
    simpa using run

end Comments

section Quoted

variable {quote c : Char} {rest : List Char}

theorem unquote_close (other : rest.head? ≠ some quote) : unquote quote (quote :: rest) = some ([], [quote]) := by
  cases rest with
  | nil => exact if_pos rfl
  | cons d rest => rw [unquote, if_pos rfl, if_neg fun same : d = quote => other (congrArg some same)]

theorem unquote_twice : unquote quote (quote :: quote :: rest) = (unquote quote rest).map fun (read, used) => (quote :: read, quote :: quote :: used) := by
  rw [unquote, if_pos rfl, if_pos rfl]

theorem unquote_other (other : c ≠ quote) : unquote quote (c :: rest) = (unquote quote rest).map fun (read, used) => (c :: read, c :: used) := by
  cases rest with
  | nil => exact if_neg other
  | cons d rest => rw [unquote, if_neg other]

/-- Doubled quotes are read as written. -/
theorem unquote_doubled (other : rest.head? ≠ some quote) (text : List Char) :
    unquote quote (doubled quote text ++ quote :: rest) = some (text, doubled quote text ++ [quote]) := by
  induction text with
  | nil => exact unquote_close other
  | cons c text ih =>
    rw [doubled]
    split
    · rename_i same
      subst same
      rw [List.cons_append, List.cons_append, unquote_twice, ih]
      rfl
    · rename_i different
      rw [List.cons_append, unquote_other different, ih]
      rfl

end Quoted

section Numbers

variable {ds fraction exponent rest : List Char}

theorem signSpan_digits (digits : Digits ds) (given : ds ≠ []) : signSpan (ds ++ rest) = [] := by
  cases ds with
  | nil => exact absurd rfl given
  | cons d ds =>
    have digit_ := digits d List.mem_cons_self
    apply if_neg
    rintro (first | first)
    all_goals
      obtain rfl := Option.some.inj first
      exact absurd digit_ (by decide)

theorem exponent_head (x : Exponent exponent) (ends : Ends rest) :
    ∀ c, (exponent ++ rest).head? = some c → c.isDigit = false ∧ c ≠ '.' := by
  intro c first
  cases x with
  | none => exact ⟨ends.no_digit c first, fun dot => ends.not_head (by decide) (dot ▸ first)⟩
  | some e sign ds mark signed digits given =>
    obtain rfl : e = c := Option.some.inj first
    rcases mark with rfl | rfl <;> decide

theorem exponentSpan_written (x : Exponent exponent) (ends : Ends rest) : exponentSpan (exponent ++ rest) = exponent := by
  cases x with
  | none =>
    cases rest with
    | nil => rfl
    | cons c rest =>
      have no : ¬ (c = 'e' ∨ c = 'E') := by
        rintro (rfl | rfl) <;> exact ends.not_head (by decide) rfl
      rw [List.nil_append, exponentSpan, if_neg no]
  | some e sign ds mark signed digits given =>
    have signs : signSpan (sign ++ ds ++ rest) = sign := by
      rcases signed with rfl | rfl | rfl
      · exact signSpan_digits digits given
      · rfl
      · rfl
    have taken : (ds ++ rest).takeWhile Char.isDigit = ds := takeWhile_stop digits ends.no_digit
    rw [List.cons_append, exponentSpan, if_pos mark]
    dsimp only
    rw [signs, List.append_assoc, List.drop_left, taken, if_neg given]

theorem fractionSpan_written (f : Fraction fraction) (stop : ∀ c, rest.head? = some c → c.isDigit = false ∧ c ≠ '.') :
    fractionSpan (fraction ++ rest) = fraction := by
  cases f with
  | none => exact if_neg fun first => (stop '.' first).2 rfl
  | some ds digits =>
    have taken : (ds ++ rest).takeWhile Char.isDigit = ds := takeWhile_stop digits fun c first => (stop c first).1
    rw [List.cons_append, fractionSpan, List.head?_cons, if_pos rfl, List.tail_cons, taken]

/-- A number ends where it was written to. -/
theorem numberSpan_written (digits : Digits ds) (f : Fraction fraction) (x : Exponent exponent) (ends : Ends rest) :
    numberSpan (ds ++ (fraction ++ exponent) ++ rest) = ds ++ (fraction ++ exponent) := by
  have stop := exponent_head x ends
  have first : ∀ c, (fraction ++ (exponent ++ rest)).head? = some c → c.isDigit = false := by
    intro c first
    cases f with
    | none => exact (stop c first).1
    | some _ _ =>
      obtain rfl : '.' = c := Option.some.inj first
      rfl
  have int : (ds ++ (fraction ++ (exponent ++ rest))).takeWhile Char.isDigit = ds := takeWhile_stop digits first
  have whole : ds ++ (fraction ++ exponent) ++ rest = ds ++ (fraction ++ (exponent ++ rest)) := by simp
  have split : ds ++ (fraction ++ (exponent ++ rest)) = (ds ++ fraction) ++ (exponent ++ rest) := by simp
  rw [numberSpan, whole, int, List.drop_left, fractionSpan_written f stop, split, List.drop_left, exponentSpan_written x ends, List.append_assoc]

end Numbers

section Turns

variable {L : Letters} {c : Char} {rest : List Char}

theorem turn_plain (plain : c ∉ [' ', '\t', '\n', '\r', '-', '/', '"', '\'']) :
    turn L (c :: rest) =
      if c.isDigit ∨ c = '.' ∧ rest.head?.any Char.isDigit then
        some (some (.number (String.ofList (numberSpan (c :: rest)))), numberSpan (c :: rest))
      else if isIdentStart L c then
        some (some (.ident (L.toLowercase (String.ofList (c :: rest.takeWhile (isIdentContinue L))))), c :: rest.takeWhile (isIdentContinue L))
      else (scanOperator (c :: rest)).map fun (token, width) => (some token, (c :: rest).take width) := by
  simp only [List.mem_cons, List.not_mem_nil, or_false, not_or] at plain
  obtain ⟨space, tab, newline, return_, minus, slash, double, single⟩ := plain
  simp only [turn, space, tab, newline, return_, minus, slash, double, single, false_and, or_self, if_false]

theorem not_plain_ascii (member : c ∈ [' ', '\t', '\n', '\r', '-', '/', '"', '\'']) : c.isDigit = false ∧ isIdentStart L c = false := by
  simp only [List.mem_cons, List.not_mem_nil, or_false] at member
  rcases member with rfl | rfl | rfl | rfl | rfl | rfl | rfl | rfl
  all_goals
    rw [isIdentStart, L.alphabetic_ascii _ (by decide)]
    exact ⟨rfl, rfl⟩

theorem turn_number {text : List Char} (number : Unsigned text) (ends : Ends rest) :
    turn L (text ++ rest) = some (some (.number (String.ofList text)), text) := by
  have span : numberSpan (text ++ rest) = text := by
    cases number with
    | int ds digits given f x => exact numberSpan_written digits f x ends
    | point ds digits given x =>
      have none_ : Digits [] := fun c member => absurd member List.not_mem_nil
      exact numberSpan_written none_ (.some ds digits) x ends
  obtain ⟨c, more, rfl, starts⟩ : ∃ c more, text = c :: more ∧ (c.isDigit = true ∨ c = '.' ∧ (more ++ rest).head?.any Char.isDigit = true) := by
    cases number with
    | int ds digits given f x =>
      cases ds with
      | nil => exact absurd rfl given
      | cons d ds => exact ⟨d, _, rfl, .inl (digits d List.mem_cons_self)⟩
    | point ds digits given x =>
      cases ds with
      | nil => exact absurd rfl given
      | cons d ds => exact ⟨'.', _, rfl, .inr ⟨rfl, digits d List.mem_cons_self⟩⟩
  have plain : c ∉ [' ', '\t', '\n', '\r', '-', '/', '"', '\''] := by
    intro member
    rcases starts with digit_ | ⟨rfl, _⟩
    · rw [(@not_plain_ascii L c member).1] at digit_
      cases digit_
    · exact absurd member (by decide)
  rw [List.cons_append] at span ⊢
  rw [turn_plain plain, if_pos starts, span]

theorem isAlpha_of_digit (digit_ : c.isDigit = true) : c.isAlpha = false := by
  rw [Char.isDigit] at digit_
  change (decide (c.val ≥ 'A'.val ∧ c.val ≤ 'Z'.val) || (decide (c.val ≥ 'a'.val) && decide (c.val ≤ 'z'.val))) = false
  simp only [Bool.and_eq_true, decide_eq_true_eq, UInt32.le_iff_toNat_le] at digit_
  simp only [Bool.or_eq_false_iff, ← Bool.decide_and, decide_eq_false_iff_not, UInt32.le_iff_toNat_le, ge_iff_le]
  have last : '9'.val.toNat = 57 := rfl
  have upper : 'A'.val.toNat = 65 := rfl
  have lower : 'a'.val.toNat = 97 := rfl
  omega

theorem turn_ident {word : List Char} (start : isIdentStart L c = true) (more : ∀ d ∈ word, isIdentContinue L d = true) (ends : Ends rest) :
    turn L (c :: word ++ rest) = some (some (.ident (L.toLowercase (String.ofList (c :: word)))), c :: word) := by
  have plain : c ∉ [' ', '\t', '\n', '\r', '-', '/', '"', '\''] := by
    intro member
    rw [(@not_plain_ascii L c member).2] at start
    cases start
  have number : ¬ (c.isDigit = true ∨ c = '.' ∧ (word ++ rest).head?.any Char.isDigit = true) := by
    rintro (digit_ | ⟨rfl, _⟩)
    · have ascii := ascii_of_isDigit digit_
      rw [isIdentStart, L.alphabetic_ascii c ascii, isAlpha_of_digit digit_, Bool.false_or, beq_iff_eq] at start
      subst start
      cases digit_
    · rw [isIdentStart, L.alphabetic_ascii '.' (by decide)] at start
      cases start
  have taken := takeWhile_stop more (ends.no_word L)
  rw [List.cons_append, turn_plain plain, if_neg number, if_pos start, taken]

theorem turn_quoted (ends : Ends rest) (name : String) :
    turn L ('"' :: (doubled '"' name.toList ++ ['"']) ++ rest) =
      some (some (.quotedIdent name), '"' :: (doubled '"' name.toList ++ ['"'])) := by
  have read := unquote_doubled (ends.not_head (by decide : '"' ∉ _)) name.toList
  rw [List.cons_append, List.append_assoc, List.singleton_append]
  simp [turn, read]

theorem turn_str (ends : Ends rest) (text : String) :
    turn L ('\'' :: (doubled '\'' text.toList ++ ['\'']) ++ rest) =
      some (some (.str text), '\'' :: (doubled '\'' text.toList ++ ['\''])) := by
  have read := unquote_doubled (ends.not_head (by decide : '\'' ∉ _)) text.toList
  rw [List.cons_append, List.append_assoc, List.singleton_append]
  simp [turn, read]

/-- Where no comment or number begins, an operator does. -/
theorem turn_sign (sign : c ∈ ['=', '<', '>', '!', '|', ':', '+', '-', '*', '/', '%', '(', ')', '[', ']', ',', '.', ';'])
    (line : c = '-' → rest.head? ≠ some '-') (block : c = '/' → rest.head? ≠ some '*')
    (point : c = '.' → rest.head?.any Char.isDigit = false) :
    turn L (c :: rest) = (scanOperator (c :: rest)).map fun (token, width) => (some token, (c :: rest).take width) := by
  have letter : isIdentStart L c = false := by
    simp only [List.mem_cons, List.not_mem_nil, or_false] at sign
    rw [isIdentStart]
    rcases sign with rfl | rfl | rfl | rfl | rfl | rfl | rfl | rfl | rfl | rfl | rfl | rfl | rfl | rfl | rfl | rfl | rfl | rfl
    all_goals
      rw [L.alphabetic_ascii _ (by decide)]
      rfl
  have others : (¬ (c = ' ' ∨ c = '\t' ∨ c = '\n' ∨ c = '\r')) ∧ c ≠ '"' ∧ c ≠ '\'' ∧ c.isDigit = false := by
    simp only [List.mem_cons, List.not_mem_nil, or_false] at sign
    rcases sign with rfl | rfl | rfl | rfl | rfl | rfl | rfl | rfl | rfl | rfl | rfl | rfl | rfl | rfl | rfl | rfl | rfl | rfl
    all_goals decide
  obtain ⟨space, double, single, digit_⟩ := others
  have number : ¬ (c.isDigit = true ∨ c = '.' ∧ rest.head?.any Char.isDigit = true) := by
    rintro (yes | ⟨dot, yes⟩)
    · rw [digit_] at yes
      cases yes
    · rw [point dot] at yes
      cases yes
  rw [turn, if_neg space, if_neg fun both => line both.1 both.2, if_neg fun both => block both.1 both.2, if_neg double, if_neg single,
    if_neg number, if_neg (by rw [letter]; decide)]

/-- A token ends where it was written to. -/
theorem spelled_turn {token : Token} {text : List Char} (spells : Spelled L token text) (ends : Ends rest)
    (apart : token = .minus → rest.head? ≠ some '-') : turn L (text ++ rest) = some (some token, text) := by
  have star := ends.not_head (by decide : '*' ∉ _)
  have greater := ends.not_head (by decide : '>' ∉ _)
  have equal := ends.not_head (by decide : '=' ∉ _)
  have digit_ : rest.head?.any Char.isDigit = false := by
    cases rest with
    | nil => rfl
    | cons c rest => exact ends.no_digit c rfl
  cases spells with
  | ident c word start more lower =>
    have taken := turn_ident start more ends
    rwa [lower] at taken
  | quotedIdent name => exact turn_quoted ends name
  | str text => exact turn_str ends text
  | number number => exact turn_number number ends
  | minus =>
    rw [List.singleton_append, turn_sign (by decide) (fun _ => apart rfl) (by simp) (by simp)]
    rfl
  | slash =>
    rw [List.singleton_append, turn_sign (by decide) (by simp) (fun _ => star) (by simp)]
    rfl
  | dot =>
    rw [List.singleton_append, turn_sign (by decide) (by simp) (by simp) (fun _ => digit_)]
    rfl
  | lt | gt =>
    rw [List.singleton_append, turn_sign (by decide) (by simp) (by simp) (by simp)]
    cases rest with
    | nil => rfl
    | cons c rest =>
      simp only [List.head?_cons, ne_eq, Option.some.injEq] at greater equal
      rw [scanOperator]
      all_goals simp [greater, equal]
  | notEq | bangEq | ltEq | gtEq | concat | doubleColon =>
    rw [List.cons_append, turn_sign (by decide) (by simp) (by simp) (by simp)]
    rfl
  | eq | plus | star | percent | lParen | rParen | lBracket | rBracket | comma | semicolon =>
    rw [List.singleton_append, turn_sign (by decide) (by simp) (by simp) (by simp)]
    rfl

end Turns

theorem Ends.gap {rest : List Char} (gap : List Blank) (ends : Ends rest) : Ends (Adelie.blanks gap ++ rest) := by
  cases gap with
  | nil => exact ends
  | cons b gap => exact Ends.blanks (List.cons_ne_nil b gap)

/-- Written tokens are read turn after turn. -/
theorem parted_runs {L : Letters} {tokens : List Token} {text : List Char} (parted : Parted L tokens text) : Runs L text tokens := by
  induction parted with
  | nil last => exact Runs.tail last
  | one gap spells last apart => exact .token (spelled_turn spells ((Ends.tail last).gap gap) apart) (Runs.blanks gap (Runs.tail last))
  | more gap given spells apart later ih => exact .token (spelled_turn spells (Ends.blanks given) apart) (Runs.blanks gap ih)

theorem written_runs {L : Letters} {tokens : List Token} {text : List Char} (written : WrittenTokens L tokens text) : Runs L text tokens := by
  obtain ⟨lead, rest, rfl, parted⟩ := written
  exact Runs.blanks lead (parted_runs parted)

end Lexer

open Lexer

/-- Any text ends in an error of its own or in its tokens, and tokens written out are read back. -/
theorem lexer_law (L : Letters) (source : String) :
    ((∃ e, tokenize L source = .error (.parse e)) ∨ ∃ tokens, tokenize L source = .ok tokens ∧ Spans source.toList 0 tokens) ∧
      ∀ tokens, WrittenTokens L tokens source.toList → ∃ out, tokenize L source = .ok out ∧ out.map (·.token) = tokens ++ [.eof] := by
  have enough : size source.toList < (encode source.toList).length + 1 := Nat.lt_succ_self _
  constructor
  · exact tokensFrom_spans (At.start source.toList) enough
  · intro tokens written
    exact (written_runs written).tokensFrom (At.start source.toList) enough

/-- The letters of ASCII alone. -/
def asciiLetters : Letters where
  alphabetic := Char.isAlpha
  alphanumeric := Char.isAlphanum
  toLowercase := fun s => String.ofList (s.toList.map Char.toLower)
  alphabetic_ascii := fun _ _ => rfl
  alphanumeric_ascii := fun _ _ => rfl

/-- A line comment that a minus sign directly precedes takes the sign into it. -/
theorem minus_comment :
    Spelled asciiLetters .minus ['-'] ∧ Spelled asciiLetters (.number "1") ['1'] ∧
      (tokenize asciiLetters (String.ofList (['-'] ++ blanks [.line [] List.not_mem_nil] ++ ['1']))).toOption.map (·.map (·.token)) =
        some [.number "1", .eof] := by
  have one : Digits ['1'] := by
    intro c member
    rw [List.mem_singleton.mp member]
    rfl
  exact ⟨.minus, .number (.int ['1'] one (List.cons_ne_nil _ _) .none .none), by decide⟩

end Adelie
