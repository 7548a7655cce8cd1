import Adelie.Sql.Lexer

namespace Adelie.Lexer

open Utf8

/-- A comment's characters up to the `*/` that closes it, and with it. -/
def closeBlock : List Char → Option (List Char)
  | [] => none
  | c :: rest => if c = '*' ∧ rest.head? = some '/' then some ['*', '/'] else (closeBlock rest).map (c :: ·)

/-- What stands between quotes, and the characters that takes, the closing quote among them. -/
def unquote (quote : Char) : List Char → Option (List Char × List Char)
  | [] => none
  | [c] => if c = quote then some ([], [quote]) else none
  | c :: d :: rest =>
    if c = quote then
      if d = quote then (unquote quote rest).map fun (read, used) => (quote :: read, quote :: quote :: used)
      else some ([], [quote])
    else (unquote quote (d :: rest)).map fun (read, used) => (c :: read, c :: used)

def signSpan (text : List Char) : List Char := if text.head? = some '+' ∨ text.head? = some '-' then text.take 1 else []

/-- The exponent at the start of a text, where digits are in it. -/
def exponentSpan : List Char → List Char
  | [] => []
  | e :: rest =>
    if e = 'e' ∨ e = 'E' then
      let digits := (rest.drop (signSpan rest).length).takeWhile Char.isDigit
      if digits = [] then [] else e :: (signSpan rest ++ digits)
    else []

/-- The fraction at the start of a text. -/
def fractionSpan (text : List Char) : List Char :=
  if text.head? = some '.' then '.' :: text.tail.takeWhile Char.isDigit else []

/-- The number at the start of a text. -/
def numberSpan (text : List Char) : List Char :=
  let int := text.takeWhile Char.isDigit
  let fraction := fractionSpan (text.drop int.length)
  int ++ fraction ++ exponentSpan (text.drop (int ++ fraction).length)

/-- What one turn takes from a text, with the token it makes of it. -/
def turn (L : Letters) : List Char → Option (Option Token × List Char)
  | [] => none
  | c :: rest =>
    if c = ' ' ∨ c = '\t' ∨ c = '\n' ∨ c = '\r' then some (none, [c])
    else if c = '-' ∧ rest.head? = some '-' then some (none, '-' :: '-' :: rest.tail.takeWhile (· ≠ '\n'))
    else if c = '/' ∧ rest.head? = some '*' then (closeBlock rest.tail).map fun used => (none, '/' :: '*' :: used)
    else if c = '"' then (unquote '"' rest).map fun (name, used) => (some (.quotedIdent (String.ofList name)), '"' :: used)
    else if c = '\'' then (unquote '\'' rest).map fun (text, used) => (some (.str (String.ofList text)), '\'' :: used)
    else if c.isDigit ∨ c = '.' ∧ rest.head?.any Char.isDigit then
      some (some (.number (String.ofList (numberSpan (c :: rest)))), numberSpan (c :: rest))
    else if isIdentStart L c then
      let word := c :: rest.takeWhile (isIdentContinue L)
      some (some (.ident (L.toLowercase (String.ofList word))), word)
    else (scanOperator (c :: rest)).map fun (token, width) => (some token, (c :: rest).take width)

section Scanning

variable {source rest : List Char} {c a : Char} {i : Nat}

theorem skipLine_append {bytes : List UInt8} (tail : List UInt8) (i : Nat) (inside : byteOf '\n' ∉ bytes) :
    skipLine (bytes ++ tail) i = skipLine tail (i + bytes.length) := by
  induction bytes generalizing i with
  | nil => rfl
  | cons b bytes ih =>
    have other : b ≠ byteOf '\n' := fun same => inside (same ▸ List.mem_cons_self)
    rw [List.cons_append, skipLine, if_neg other, ih _ fun member => inside (List.mem_cons_of_mem _ member), List.length_cons]
    congr 1
    omega

/-- A line comment ends where its line does. -/
theorem skipLine_encode (text : List Char) (i : Nat) : skipLine (encode text) i = i + size (text.takeWhile (· ≠ '\n')) := by
  induction text generalizing i with
  | nil => rfl
  | cons c text ih =>
    rw [encode_cons]
    by_cases newline : c = '\n'
    · subst newline
      rw [encodeChar_ascii (by decide), List.singleton_append, skipLine, if_pos rfl]
      rfl
    · rw [skipLine_append _ _ (byte_not_mem (by decide) newline), String.length_utf8EncodeChar, ih,
        List.takeWhile_cons_of_pos (by simpa using newline), size_cons]
      omega

theorem skipBlock_append {bytes : List UInt8} (tail : List UInt8) (i : Nat) (inside : byteOf '*' ∉ bytes) :
    skipBlock (bytes ++ tail) i = skipBlock tail (i + bytes.length) := by
  induction bytes generalizing i with
  | nil => rfl
  | cons b bytes ih =>
    have other : b ≠ byteOf '*' := fun same => inside (same ▸ List.mem_cons_self)
    have rest := ih (i + 1) fun member => inside (List.mem_cons_of_mem _ member)
    have count : i + 1 + bytes.length = i + (b :: bytes).length := by
      rw [List.length_cons]
      omega
    rw [List.cons_append, ← count, ← rest]
    cases bytes ++ tail with
    | nil => rfl
    | cons d more => rw [skipBlock, if_neg fun both => other both.1]

theorem skipBlock_star (tail : List UInt8) (i : Nat) :
    skipBlock (byteOf '*' :: tail) i = if tail.head? = some (byteOf '/') then some (i + 2) else skipBlock tail (i + 1) := by
  cases tail with
  | nil => rfl
  | cons b tail =>
    rw [skipBlock, List.head?_cons]
    simp only [true_and, Option.some.injEq]

/-- A block comment ends past the first `*/`. -/
theorem skipBlock_encode (text : List Char) (i : Nat) : skipBlock (encode text) i = (closeBlock text).map fun used => i + size used := by
  induction text generalizing i with
  | nil => rfl
  | cons c text ih =>
    rw [encode_cons]
    by_cases star : c = '*'
    · subst star
      have slash := @head_encode '/' text (by decide)
      rw [encodeChar_ascii (by decide), List.singleton_append, skipBlock_star, closeBlock]
      by_cases closes : text.head? = some '/'
      · rw [if_pos (slash.mpr closes), if_pos ⟨rfl, closes⟩]
        rfl
      · rw [if_neg fun first => closes (slash.mp first), if_neg fun both => closes both.2, ih, Option.map_map]
        congr 1
        funext used
        simp only [Function.comp_apply, size_cons, utf8Size_ascii (show Ascii '*' by decide)]
        omega
    · rw [skipBlock_append _ _ (byte_not_mem (by decide) star), String.length_utf8EncodeChar, ih, closeBlock, if_neg fun both => star both.1,
        Option.map_map]
      congr 1
      funext used
      simp only [Function.comp_apply, size_cons]
      omega

theorem closeBlock_first {text used : List Char} (closed : closeBlock text = some used) : used <+: text := by
  induction text generalizing used with
  | nil => cases closed
  | cons c text ih =>
    rw [closeBlock] at closed
    split at closed
    · rename_i both
      obtain ⟨rfl, first⟩ := both
      obtain ⟨more, rfl⟩ := List.head?_eq_some_iff.mp first
      cases closed
      exact ⟨more, rfl⟩
    · obtain ⟨tail, inner, rfl⟩ := Option.map_eq_some_iff.mp closed
      exact (List.prefix_cons_inj c).mpr (ih inner)

theorem skipDigits_encode (text : List Char) (i : Nat) : skipDigits (encode text) i = i + size (text.takeWhile Char.isDigit) := by
  induction text generalizing i with
  | nil => rfl
  | cons c text ih =>
    have head := digit_head (c :: text)
    rw [List.head?_cons, Option.any_some] at head
    by_cases digit_ : c.isDigit = true
    · have small := ascii_of_isDigit digit_
      rw [encode_cons, encodeChar_ascii small, List.singleton_append, skipDigits, digit_byteOf small, if_pos digit_, ih,
        List.takeWhile_cons_of_pos digit_, size_cons, utf8Size_ascii small]
      omega
    · rw [List.takeWhile_cons_of_neg digit_, size_nil, Nat.add_zero]
      cases bytes : encode (c :: text) with
      | nil => rfl
      | cons b more =>
        rw [bytes, List.head?_cons, Option.any_some] at head
        rw [skipDigits, head, if_neg digit_]

/-- The bytes a run of digits takes. -/
theorem skipDigits_at {text : List Char} (at_ : At source i text) :
    skipDigits ((encode source).drop i) i = i + size (text.takeWhile Char.isDigit) ∧
      At source (i + size (text.takeWhile Char.isDigit)) (text.drop (text.takeWhile Char.isDigit).length) := by
  rw [at_.drop, skipDigits_encode]
  exact ⟨rfl, at_.past (List.takeWhile_prefix _)⟩

theorem byte_iff (ascii : Ascii a) {text : List Char} (at_ : At source i text) :
    (encode source)[i]? = some (byteOf a) ↔ text.head? = some a := by
  rw [at_.first]
  exact head_encode ascii

theorem join_prefixes {α : Type} {p q l : List α} (first : p <+: l) (second : q <+: l.drop p.length) : p ++ q <+: l := by
  have joined := (List.prefix_append_right_inj p).mpr second
  rwa [List.prefix_iff_eq_append.mp first] at joined

theorem fractionSpan_first (text : List Char) : fractionSpan text <+: text := by
  rw [fractionSpan]
  by_cases dot : text.head? = some '.'
  · obtain ⟨rest, rfl⟩ := List.head?_eq_some_iff.mp dot
    rw [if_pos dot]
    exact (List.prefix_cons_inj '.').mpr (List.takeWhile_prefix _)
  · rw [if_neg dot]
    exact List.nil_prefix

theorem fractionSpan_at {text : List Char} (at_ : At source i text) :
    (if (encode source)[i]? = some (byteOf '.') then skipDigits ((encode source).drop (i + 1)) (i + 1) else i) =
      i + size (fractionSpan text) ∧ At source (i + size (fractionSpan text)) (text.drop (fractionSpan text).length) := by
  rw [fractionSpan]
  by_cases dot : text.head? = some '.'
  · obtain ⟨rest, rfl⟩ := List.head?_eq_some_iff.mp dot
    have one : '.'.utf8Size = 1 := rfl
    have after : At source (i + 1) rest := at_.next
    obtain ⟨count, there⟩ := skipDigits_at after
    rw [if_pos ((byte_iff (by decide) at_).mpr dot), if_pos dot, List.tail_cons, count, size_cons, one, ← Nat.add_assoc]
    exact ⟨rfl, there⟩
  · rw [if_neg fun byte => dot ((byte_iff (by decide) at_).mp byte), if_neg dot]
    exact ⟨rfl, at_⟩

theorem signSpan_at {text : List Char} (at_ : At source i text) :
    (if (encode source)[i]? = some (byteOf '+') ∨ (encode source)[i]? = some (byteOf '-') then i + 1 else i) = i + size (signSpan text) ∧
      At source (i + size (signSpan text)) (text.drop (signSpan text).length) ∧ signSpan text <+: text := by
  have bytes : ((encode source)[i]? = some (byteOf '+') ∨ (encode source)[i]? = some (byteOf '-')) ↔
      (text.head? = some '+' ∨ text.head? = some '-') := or_congr (byte_iff (by decide) at_) (byte_iff (by decide) at_)
  rw [signSpan]
  by_cases sign : text.head? = some '+' ∨ text.head? = some '-'
  · rw [if_pos (bytes.mpr sign), if_pos sign]
    rcases sign with first | first
    all_goals
      obtain ⟨rest, rfl⟩ := List.head?_eq_some_iff.mp first
      exact ⟨rfl, at_.next, ⟨rest, rfl⟩⟩
  · rw [if_neg fun byte => sign (bytes.mp byte), if_neg sign]
    exact ⟨rfl, at_, List.nil_prefix⟩

theorem exponentSpan_at {text : List Char} (at_ : At source i text) :
    (if (encode source)[i]? = some (byteOf 'e') ∨ (encode source)[i]? = some (byteOf 'E') then
      let j := i + 1
      let digitsStart := if (encode source)[j]? = some (byteOf '+') ∨ (encode source)[j]? = some (byteOf '-') then j + 1 else j
      let j := skipDigits ((encode source).drop digitsStart) digitsStart
      if digitsStart < j then j else i
    else i) = i + size (exponentSpan text) ∧ exponentSpan text <+: text := by
  have bytes : ((encode source)[i]? = some (byteOf 'e') ∨ (encode source)[i]? = some (byteOf 'E')) ↔
      (text.head? = some 'e' ∨ text.head? = some 'E') := or_congr (byte_iff (by decide) at_) (byte_iff (by decide) at_)
  by_cases mark : text.head? = some 'e' ∨ text.head? = some 'E'
  · obtain ⟨e, rest, rfl, one, letter⟩ : ∃ e rest, text = e :: rest ∧ e.utf8Size = 1 ∧ (e = 'e' ∨ e = 'E') := by
      rcases mark with first | first
      all_goals
        obtain ⟨rest, rfl⟩ := List.head?_eq_some_iff.mp first
        exact ⟨_, rest, rfl, rfl, by simp⟩
    have after : At source (i + 1) rest := one ▸ at_.next
    obtain ⟨start, past, sign⟩ := signSpan_at after
    obtain ⟨count, _⟩ := skipDigits_at past
    rw [if_pos (bytes.mpr mark), exponentSpan, if_pos letter]
    dsimp only
    rw [start, count]
    by_cases none_ : (rest.drop (signSpan rest).length).takeWhile Char.isDigit = []
    · rw [if_pos none_, none_, size_nil, if_neg (by omega)]
      exact ⟨rfl, List.nil_prefix⟩
    · have some_ : 0 < size ((rest.drop (signSpan rest).length).takeWhile Char.isDigit) := by
        cases digits : (rest.drop (signSpan rest).length).takeWhile Char.isDigit with
        | nil => exact absurd digits none_
        | cons d more =>
          have := d.utf8Size_pos
          rw [size_cons]
          omega
      rw [if_neg none_, if_pos (by omega), size_cons, size_append, one]
      refine ⟨by omega, (List.prefix_cons_inj e).mpr ?_⟩
      exact join_prefixes sign (List.takeWhile_prefix _)
  · rw [if_neg fun byte => mark (bytes.mp byte)]
    have nothing : exponentSpan text = [] := by
      cases text with
      | nil => rfl
      | cons e rest => exact if_neg fun letter => mark (by simpa using letter)
    rw [nothing]
    exact ⟨rfl, List.nil_prefix⟩

/-- The bytes a number takes. -/
theorem scanNumber_at {text : List Char} (at_ : At source i text) :
    scanNumber (encode source) i = i + size (numberSpan text) ∧ numberSpan text <+: text := by
  obtain ⟨int, past⟩ := skipDigits_at at_
  obtain ⟨fraction, past'⟩ := fractionSpan_at past
  obtain ⟨exponent, inside⟩ := exponentSpan_at past'
  have drops : text.drop (text.takeWhile Char.isDigit ++ fractionSpan (text.drop (text.takeWhile Char.isDigit).length)).length =
      (text.drop (text.takeWhile Char.isDigit).length).drop (fractionSpan (text.drop (text.takeWhile Char.isDigit).length)).length := by
    rw [List.length_append, List.drop_drop]
  rw [scanNumber, int, fraction, exponent, numberSpan, drops, size_append, size_append]
  refine ⟨by omega, ?_⟩
  rw [List.append_assoc]
  exact join_prefixes (List.takeWhile_prefix _) (join_prefixes (fractionSpan_first _) inside)

/-- The bytes a word takes. -/
theorem scanIdent_at (L : Letters) {text : List Char} (at_ : At source i text) :
    scanIdent L source i = .ok (i + size (text.takeWhile (isIdentContinue L))) := by
  induction text generalizing i with
  | nil =>
    have end_ : ¬ i < (encode source).length := by
      rw [at_.length, size_nil]
      omega
    rw [scanIdent, if_neg end_]
    rfl
  | cons c text ih =>
    rw [scanIdent, if_pos at_.lt_length, at_.slice]
    dsimp only
    by_cases more : isIdentContinue L c = true
    · rw [if_pos more, ih at_.next, List.takeWhile_cons_of_pos more, size_cons, Nat.add_assoc]
    · rw [if_neg more, List.takeWhile_cons_of_neg more]
      rfl

section Quoted

variable {quote : Char} (ascii : Ascii quote) (start : Nat) {text : List Char} (read : List Char)
include ascii

omit ascii in
theorem scanQuoted_end (at_ : At source i []) : ∃ e, scanQuoted source start quote i read = .error (.parse e) := by
  have end_ : ¬ i < (encode source).length := by
    rw [at_.length, size_nil]
    omega
  rw [scanQuoted, if_neg end_]
  exact ⟨_, rfl⟩

theorem scanQuoted_char (at_ : At source i (c :: text)) (other : c ≠ quote) :
    scanQuoted source start quote i read = scanQuoted source start quote (i + c.utf8Size) (read ++ [c]) := by
  have inside : ¬ (encode source)[i]? = some (byteOf quote) := fun byte => other (by simpa using (byte_iff ascii at_).mp byte)
  rw [scanQuoted, if_pos at_.lt_length, if_neg inside, at_.slice]

theorem scanQuoted_doubled (at_ : At source i (quote :: quote :: text)) :
    scanQuoted source start quote i read = scanQuoted source start quote (i + 2) (read ++ [quote]) := by
  have one := utf8Size_ascii ascii
  have after : At source (i + 1) (quote :: text) := one ▸ at_.next
  rw [scanQuoted, if_pos at_.lt_length, if_pos ((byte_iff ascii at_).mpr rfl), if_pos ((byte_iff ascii after).mpr rfl)]

theorem scanQuoted_close (at_ : At source i (quote :: text)) (closes : ¬ text.head? = some quote) :
    scanQuoted source start quote i read = .ok (String.ofList read, i + 1) := by
  have one := utf8Size_ascii ascii
  have after : At source (i + 1) text := one ▸ at_.next
  rw [scanQuoted, if_pos at_.lt_length, if_pos ((byte_iff ascii at_).mpr rfl), if_neg fun byte => closes ((byte_iff ascii after).mp byte)]

/-- The bytes a quoted text takes, or that no quote closes it. -/
theorem scanQuoted_at (at_ : At source i text) :
    (∀ content used, unquote quote text = some (content, used) →
      scanQuoted source start quote i read = .ok (String.ofList (read ++ content), i + size used) ∧ used <+: text) ∧
    (unquote quote text = none → ∃ e, scanQuoted source start quote i read = .error (.parse e)) := by
  have one := utf8Size_ascii ascii
  induction text using unquote.induct quote generalizing i read with
  | case1 =>
    refine ⟨fun _ _ closed => ?_, fun _ => scanQuoted_end start read at_⟩
    cases closed
  | case2 =>
    refine ⟨fun content used closed => ?_, fun open_ => ?_⟩
    · rw [unquote, if_pos rfl] at closed
      cases closed
      rw [scanQuoted_close ascii start read at_ (by simp), List.append_nil, size_cons, one]
      exact ⟨rfl, List.prefix_rfl⟩
    · rw [unquote, if_pos rfl] at open_
      cases open_
  | case3 c other =>
    refine ⟨fun content used closed => ?_, fun _ => ?_⟩
    · rw [unquote, if_neg other] at closed
      cases closed
    · rw [scanQuoted_char ascii start read at_ other]
      exact scanQuoted_end start _ at_.next
  | case4 text ih =>
    have after : At source (i + 2) text := by
      have past := at_.next.next
      rwa [one, Nat.add_assoc] at past
    obtain ⟨closes, opens⟩ := ih (read ++ [quote]) after
    rw [scanQuoted_doubled ascii start read at_]
    refine ⟨fun content used closed => ?_, fun open_ => ?_⟩
    · rw [unquote, if_pos rfl, if_pos rfl] at closed
      obtain ⟨⟨content, used⟩, inner, same⟩ := Option.map_eq_some_iff.mp closed
      cases same
      obtain ⟨run, inside⟩ := closes content used inner
      rw [run, List.append_assoc, size_cons, size_cons, one]
      refine ⟨?_, (List.prefix_cons_inj _).mpr ((List.prefix_cons_inj _).mpr inside)⟩
      congr 2
      omega
    · rw [unquote, if_pos rfl, if_pos rfl] at open_
      exact opens (Option.map_eq_none_iff.mp open_)
  | case5 d text other =>
    refine ⟨fun content used closed => ?_, fun open_ => ?_⟩
    · rw [unquote, if_pos rfl, if_neg other] at closed
      cases closed
      rw [scanQuoted_close ascii start read at_ (by simpa using other), List.append_nil, size_cons, one]
      exact ⟨rfl, ⟨d :: text, rfl⟩⟩
    · rw [unquote, if_pos rfl, if_neg other] at open_
      cases open_
  | case6 c d text other ih =>
    obtain ⟨closes, opens⟩ := ih (read ++ [c]) at_.next
    rw [scanQuoted_char ascii start read at_ other]
    refine ⟨fun content used closed => ?_, fun open_ => ?_⟩
    · rw [unquote, if_neg other] at closed
      obtain ⟨⟨content, used⟩, inner, same⟩ := Option.map_eq_some_iff.mp closed
      cases same
      obtain ⟨run, inside⟩ := closes content used inner
      rw [run, List.append_assoc, size_cons, Nat.add_assoc]
      exact ⟨rfl, (List.prefix_cons_inj _).mpr inside⟩
    · rw [unquote, if_neg other] at open_
      exact opens (Option.map_eq_none_iff.mp open_)

end Quoted

/-- The widths of operators are the bytes they take. -/
theorem scanOperator_size {text : List Char} {token : Token} {width : Nat} (scanned : scanOperator text = some (token, width)) :
    size (text.take width) = width ∧ text.take width ≠ [] := by
  unfold scanOperator at scanned
  split at scanned
  all_goals
    cases scanned
    try exact ⟨rfl, by simp⟩

theorem numberSpan_ne_nil {rest : List Char} (starts : c.isDigit = true ∨ c = '.' ∧ rest.head?.any Char.isDigit = true) :
    numberSpan (c :: rest) ≠ [] := by
  rw [numberSpan]
  by_cases digit_ : c.isDigit = true
  · rw [List.takeWhile_cons_of_pos digit_]
    simp
  · obtain ⟨rfl, _⟩ := starts.resolve_left digit_
    simp [fractionSpan]

theorem text_at {text used : List Char} (at_ : At source i text) (first : used <+: text) :
    Lexer.text source i (i + size used) = .ok (String.ofList used) := by
  obtain ⟨rest, rfl⟩ := first
  rw [Lexer.text, at_.range]
  rfl

/-- A turn over bytes is a turn over characters. -/
theorem step_turn (L : Letters) {rest : List Char} (at_ : At source i (c :: rest)) :
    (∀ token used, turn L (c :: rest) = some (token, used) →
      step L source i = .ok (token, i + size used) ∧ used <+: c :: rest ∧ used ≠ []) ∧
    (turn L (c :: rest) = none → ∃ e, step L source i = .error (.parse e)) := by
  have next : ∀ {a b : Char}, Ascii a → Ascii b →
      (c = a ∧ (encode source)[i + 1]? = some (byteOf b) ↔ c = a ∧ rest.head? = some b) := by
    intro a b ascii ascii'
    apply and_congr_right
    rintro rfl
    have after : At source (i + 1) rest := utf8Size_ascii ascii ▸ at_.next
    exact byte_iff ascii' after
  have fraction : (c.isDigit = true ∨ c = '.' ∧ (encode source)[i + 1]?.any digit = true) ↔
      (c.isDigit = true ∨ c = '.' ∧ rest.head?.any Char.isDigit = true) := by
    apply or_congr_right
    apply and_congr_right
    rintro rfl
    have after : At source (i + 1) rest := at_.next
    rw [after.first, digit_head]
  have begins : sliceFrom source i = .ok (c :: rest) := by
    rw [sliceFrom, at_.slice]
    rfl
  unfold turn step
  simp only [begins, bind, Except.bind, List.head?_cons, Option.elim_some, next (show Ascii '-' by decide) (show Ascii '-' by decide),
    next (show Ascii '/' by decide) (show Ascii '*' by decide), fraction, pure, Except.pure]
  split_ifs with blank line block quoted str number ident
  · refine ⟨fun token used taken => ?_, fun nothing => ?_⟩
    · cases taken
      have one : c.utf8Size = 1 := by rcases blank with rfl | rfl | rfl | rfl <;> rfl
      rw [size_cons, one, size_nil]
      exact ⟨rfl, ⟨rest, rfl⟩, by simp⟩
    · cases nothing
  · obtain ⟨rfl, second⟩ := line
    obtain ⟨tail, rfl⟩ := List.head?_eq_some_iff.mp second
    have after : At source (i + 2) tail := at_.next.next
    refine ⟨fun token used taken => ?_, fun nothing => ?_⟩
    · cases taken
      rw [after.drop, skipLine_encode, List.tail_cons, size_cons, size_cons, utf8Size_ascii (show Ascii '-' by decide)]
      refine ⟨?_, (List.prefix_cons_inj _).mpr ((List.prefix_cons_inj _).mpr (List.takeWhile_prefix _)), by simp⟩
      congr 2
      omega
    · cases nothing
  · obtain ⟨rfl, second⟩ := block
    obtain ⟨tail, rfl⟩ := List.head?_eq_some_iff.mp second
    have after : At source (i + 2) tail := at_.next.next
    rw [after.drop, skipBlock_encode, List.tail_cons]
    cases closed : closeBlock tail with
    | none =>
      refine ⟨fun _ _ taken => ?_, fun _ => ⟨_, rfl⟩⟩
      cases taken
    | some comment =>
      refine ⟨fun token used taken => ?_, fun nothing => ?_⟩
      · cases taken
        rw [size_cons, size_cons, utf8Size_ascii (show Ascii '/' by decide), utf8Size_ascii (show Ascii '*' by decide)]
        refine ⟨?_, (List.prefix_cons_inj _).mpr ((List.prefix_cons_inj _).mpr (closeBlock_first closed)), by simp⟩
        have sum : i + 2 + size comment = i + (1 + (1 + size comment)) := by omega
        change Except.ok (none, i + 2 + size comment) = _
        rw [sum]
      · cases nothing
  · subst quoted
    obtain ⟨closes, opens⟩ := scanQuoted_at (show Ascii '"' by decide) i [] at_.next
    rw [utf8Size_ascii (show Ascii '"' by decide)] at closes opens
    refine ⟨fun token used taken => ?_, fun nothing => ?_⟩
    · obtain ⟨⟨content, used'⟩, read, same⟩ := Option.map_eq_some_iff.mp taken
      cases same
      obtain ⟨run, inside⟩ := closes content used' read
      rw [run, size_cons, utf8Size_ascii (show Ascii '"' by decide), ← Nat.add_assoc]
      exact ⟨rfl, (List.prefix_cons_inj _).mpr inside, by simp⟩
    · obtain ⟨e, run⟩ := opens (Option.map_eq_none_iff.mp nothing)
      rw [run]
      exact ⟨e, rfl⟩
  · subst str
    obtain ⟨closes, opens⟩ := scanQuoted_at (show Ascii '\'' by decide) i [] at_.next
    rw [utf8Size_ascii (show Ascii '\'' by decide)] at closes opens
    refine ⟨fun token used taken => ?_, fun nothing => ?_⟩
    · obtain ⟨⟨content, used'⟩, read, same⟩ := Option.map_eq_some_iff.mp taken
      cases same
      obtain ⟨run, inside⟩ := closes content used' read
      rw [run, size_cons, utf8Size_ascii (show Ascii '\'' by decide), ← Nat.add_assoc]
      exact ⟨rfl, (List.prefix_cons_inj _).mpr inside, by simp⟩
    · obtain ⟨e, run⟩ := opens (Option.map_eq_none_iff.mp nothing)
      rw [run]
      exact ⟨e, rfl⟩
  · obtain ⟨count, inside⟩ := scanNumber_at at_
    refine ⟨fun token used taken => ?_, fun nothing => ?_⟩
    · cases taken
      rw [count, text_at at_ inside]
      exact ⟨rfl, inside, numberSpan_ne_nil number⟩
    · cases nothing
  · rw [scanIdent_at L at_.next]
    have word : c :: rest.takeWhile (isIdentContinue L) <+: c :: rest := (List.prefix_cons_inj _).mpr (List.takeWhile_prefix _)
    refine ⟨fun token used taken => ?_, fun nothing => ?_⟩
    · cases taken
      have read := text_at at_ word
      rw [size_cons, ← Nat.add_assoc] at read ⊢
      change ((Lexer.text source i _).bind _ = _) ∧ _
      rw [read]
      exact ⟨rfl, word, by simp⟩
    · cases nothing
  · cases scanned : scanOperator (c :: rest) with
    | none =>
      refine ⟨fun _ _ taken => ?_, fun _ => ⟨_, rfl⟩⟩
      cases taken
    | some result =>
      obtain ⟨operator, width⟩ := result
      obtain ⟨count, some_⟩ := scanOperator_size scanned
      refine ⟨fun token used taken => ?_, fun nothing => ?_⟩
      · cases taken
        rw [count]
        exact ⟨rfl, List.take_prefix _ _, some_⟩
      · cases nothing

end Scanning

end Adelie.Lexer
