import Adelie.Lib.Utf8

namespace Adelie

open Utf8

inductive Token where
  | ident (name : String)
  | quotedIdent (name : String)
  | number (text : String)
  | str (text : String)
  | eq | notEq | lt | ltEq | gt | gtEq
  | plus | minus | star | slash | percent
  | concat | doubleColon
  | lParen | rParen | lBracket | rBracket
  | comma | dot | semicolon
  | eof
deriving DecidableEq, Repr

structure SpannedToken where
  token : Token
  offset : Nat
deriving DecidableEq, Repr

structure ParseError where
  message : String
  offset : Nat
  line : Nat
  column : Nat
deriving DecidableEq, Repr

/-- The 1-based line and column of a byte. -/
def lineCol (bytes : List UInt8) (offset : Nat) : Nat × Nat :=
  let offset := min offset bytes.length
  let mark (seen : Nat × Option Nat) (at_ : UInt8 × Nat) : Nat × Option Nat :=
    if at_.1 = 10 then (seen.1 + 1, some at_.2) else seen
  let (line, lastNewline) := (bytes.take offset).zipIdx.foldl mark (1, none)
  (line, lastNewline.elim (offset + 1) (offset - ·))

def ParseError.new (source : List Char) (offset : Nat) (message : String) : ParseError :=
  let (line, column) := lineCol (encode source) offset
  ⟨message, offset, line, column⟩

/-- What stops the lexer: an error of the text, a slice off the characters' boundaries, or steps without end. -/
inductive LexError where
  | parse (e : ParseError)
  | panicked
  | endless
deriving DecidableEq, Repr

/-- The letters of Unicode, which ASCII has its own of, and their lower case. -/
structure Letters where
  alphabetic : Char → Bool
  alphanumeric : Char → Bool
  toLowercase : String → String
  alphabetic_ascii : ∀ c, Ascii c → alphabetic c = c.isAlpha
  alphanumeric_ascii : ∀ c, Ascii c → alphanumeric c = c.isAlphanum

namespace Lexer

def isIdentStart (L : Letters) (c : Char) : Bool := L.alphabetic c || c == '_'

def isIdentContinue (L : Letters) (c : Char) : Bool := L.alphanumeric c || c == '_'

/-- The first newline from here on, or the end. -/
def skipLine : List UInt8 → Nat → Nat
  | [], i => i
  | b :: rest, i => if b = byteOf '\n' then i else skipLine rest (i + 1)

/-- Past the first `*/` from here on. -/
def skipBlock : List UInt8 → Nat → Option Nat
  | b :: c :: rest, i => if b = byteOf '*' ∧ c = byteOf '/' then some (i + 2) else skipBlock (c :: rest) (i + 1)
  | _, _ => none

def skipDigits : List UInt8 → Nat → Nat
  | [], i => i
  | b :: rest, i => if digit b then skipDigits rest (i + 1) else i

/-- The byte just past a number: digits, an optional fraction and an optional exponent. -/
def scanNumber (bytes : List UInt8) (start : Nat) : Nat :=
  let i := skipDigits (bytes.drop start) start
  let i := if bytes[i]? = some (byteOf '.') then skipDigits (bytes.drop (i + 1)) (i + 1) else i
  if bytes[i]? = some (byteOf 'e') ∨ bytes[i]? = some (byteOf 'E') then
    let j := i + 1
    let digitsStart := if bytes[j]? = some (byteOf '+') ∨ bytes[j]? = some (byteOf '-') then j + 1 else j
    let j := skipDigits (bytes.drop digitsStart) digitsStart
    if digitsStart < j then j else i
  else i

/-- The longest operator at the start of a text, and its width. -/
def scanOperator : List Char → Option (Token × Nat)
  | '<' :: '>' :: _ => some (.notEq, 2)
  | '<' :: '=' :: _ => some (.ltEq, 2)
  | '>' :: '=' :: _ => some (.gtEq, 2)
  | '!' :: '=' :: _ => some (.notEq, 2)
  | '|' :: '|' :: _ => some (.concat, 2)
  | ':' :: ':' :: _ => some (.doubleColon, 2)
  | '=' :: _ => some (.eq, 1)
  | '<' :: _ => some (.lt, 1)
  | '>' :: _ => some (.gt, 1)
  | '+' :: _ => some (.plus, 1)
  | '-' :: _ => some (.minus, 1)
  | '*' :: _ => some (.star, 1)
  | '/' :: _ => some (.slash, 1)
  | '%' :: _ => some (.percent, 1)
  | '(' :: _ => some (.lParen, 1)
  | ')' :: _ => some (.rParen, 1)
  | '[' :: _ => some (.lBracket, 1)
  | ']' :: _ => some (.rBracket, 1)
  | ',' :: _ => some (.comma, 1)
  | '.' :: _ => some (.dot, 1)
  | ';' :: _ => some (.semicolon, 1)
  | _ => none

/-- `source[i..]`, which panics off a boundary. -/
def sliceFrom (source : List Char) (i : Nat) : Except LexError (List Char) :=
  (slice source i).elim (.error .panicked) .ok

/-- `source[i..j]`. -/
def text (source : List Char) (i j : Nat) : Except LexError String :=
  (range source i j).elim (.error .panicked) fun cs => .ok (String.ofList cs)

/-- The end of a word, whose next character may begin at `i`. -/
def scanIdent (L : Letters) (source : List Char) (i : Nat) : Except LexError Nat :=
  if i < (encode source).length then
    match slice source i with
    | some (c :: _) => if isIdentContinue L c then scanIdent L source (i + c.utf8Size) else .ok i
    | _ => .error .panicked
  else .ok i
termination_by (encode source).length - i
decreasing_by
  have := c.utf8Size_pos
  omega

/-- What a quote delimits, from `i` on, and the byte past the quote that closes it. -/
def scanQuoted (source : List Char) (start : Nat) (quote : Char) (i : Nat) (read : List Char) : Except LexError (String × Nat) :=
  if i < (encode source).length then
    if (encode source)[i]? = some (byteOf quote) then
      if (encode source)[i + 1]? = some (byteOf quote) then scanQuoted source start quote (i + 2) (read ++ [quote])
      else .ok (String.ofList read, i + 1)
    else
      match slice source i with
      | some (c :: _) => scanQuoted source start quote (i + c.utf8Size) (read ++ [c])
      | _ => .error .panicked
  else
    let what := if quote = '"' then "quoted identifier" else "string literal"
    .error (.parse (.new source start s!"unterminated {what}"))
termination_by (encode source).length - i
decreasing_by
  · omega
  · have := c.utf8Size_pos
    omega

/-- One turn of the loop: the token that begins at `i`, unless a blank or a comment does, and where to go on. -/
def step (L : Letters) (source : List Char) (i : Nat) : Except LexError (Option Token × Nat) := do
  let bytes := encode source
  let rest ← sliceFrom source i
  let c ← rest.head?.elim (.error .panicked) .ok
  let next := bytes[i + 1]?
  if c = ' ' ∨ c = '\t' ∨ c = '\n' ∨ c = '\r' then return (none, i + 1)
  else if c = '-' ∧ next = some (byteOf '-') then return (none, skipLine (bytes.drop (i + 2)) (i + 2))
  else if c = '/' ∧ next = some (byteOf '*') then
    match skipBlock (bytes.drop (i + 2)) (i + 2) with
    | some j => return (none, j)
    | none => .error (.parse (.new source i "unterminated block comment"))
  else if c = '"' then
    let (name, j) ← scanQuoted source i '"' (i + 1) []
    return (some (.quotedIdent name), j)
  else if c = '\'' then
    let (text, j) ← scanQuoted source i '\'' (i + 1) []
    return (some (.str text), j)
  else if c.isDigit ∨ c = '.' ∧ next.any digit then
    let j := scanNumber bytes i
    return (some (.number (← text source i j)), j)
  else if isIdentStart L c then
    let j ← scanIdent L source (i + c.utf8Size)
    return (some (.ident (L.toLowercase (← text source i j))), j)
  else
    match scanOperator rest with
    | some (token, width) => return (some token, i + width)
    | none => .error (.parse (.new source i s!"unexpected character '{c}'"))

/-- The loop from a byte on. -/
def tokensFrom (L : Letters) (source : List Char) : Nat → Nat → Except LexError (List SpannedToken)
  | 0, _ => .error .endless
  | fuel + 1, i =>
    if i < (encode source).length then do
      let (token, j) ← step L source i
      let rest ← tokensFrom L source fuel j
      return match token with
        | some token => ⟨token, i⟩ :: rest
        | none => rest
    else .ok [⟨.eof, (encode source).length⟩]

end Lexer

/-- Every turn takes a byte, so one turn more than there are bytes is turns enough. -/
def tokenize (L : Letters) (source : String) : Except LexError (List SpannedToken) :=
  Lexer.tokensFrom L source.toList ((encode source.toList).length + 1) 0

end Adelie
