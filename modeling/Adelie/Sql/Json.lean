import Adelie.Lib.Utf8
import Adelie.Segment.Wire
import Adelie.Sql.Ingest
import Mathlib.Data.List.DropRight

namespace Adelie

open Utf8

/-- A JSON value. A number keeps its source text. -/
inductive Json where
  | null
  | bool (b : Bool)
  | number (text : String)
  | string (s : String)
  | array (items : List Json)
  | object (members : List (String × Json))

namespace Json

/-- Nested objects and arrays deeper than this are malformed. -/
def MAX_JSON_DEPTH : Nat := 64

/-- What stops the parser: its message, a slice that is no UTF-8, or turns without end. -/
inductive Stop where
  | message (text : String)
  | panicked
  | endless
deriving DecidableEq, Repr

/-- A parser of what is left of the bytes, and what it leaves. -/
abbrev Parse (α : Type) := List UInt8 → Except Stop (α × List UInt8)

def ws (b : UInt8) : Bool := b == byteOf ' ' || b == byteOf '\t' || b == byteOf '\n' || b == byteOf '\r'

def skipWs (bytes : List UInt8) : List UInt8 := bytes.dropWhile ws

/-- The text of a cut between two positions. -/
def strSlice (cut : List UInt8) : Except Stop String := (fromUtf8 cut).elim (.error .panicked) .ok

/-- `to_digit(16)` of a byte as a character. -/
def toDigit (b : UInt8) : Option Nat :=
  if 48 ≤ b.toNat ∧ b.toNat ≤ 57 then some (b.toNat - 48)
  else if 97 ≤ b.toNat ∧ b.toNat ≤ 102 then some (b.toNat - 97 + 10)
  else if 65 ≤ b.toNat ∧ b.toNat ≤ 70 then some (b.toNat - 65 + 10)
  else none

/-- `char::from_u32`. -/
def fromU32 (n : Nat) : Option Char := if n.isValidChar then some (Char.ofNat n) else none

def hexDigits : Nat → Nat → Parse Nat
  | 0, v, bytes => .ok (v, bytes)
  | _ + 1, _, [] => .error (.message "truncated unicode escape")
  | n + 1, v, b :: rest =>
    match toDigit b with
    | some d => hexDigits n (v * 16 + d) rest
    | none => .error (.message "invalid hex digit")

def parseHex4 : Parse Nat := hexDigits 4 0

def pushScalar (n : Nat) (refused : String) (rest : List UInt8) : Except Stop (Char × List UInt8) :=
  (fromU32 n).elim (.error (.message refused)) fun c => .ok (c, rest)

/-- A scalar of two surrogates. -/
def joinLow (cp low : Nat) (rest : List UInt8) : Except Stop (Char × List UInt8) :=
  if ¬ (0xDC00 ≤ low ∧ low ≤ 0xDFFF) then .error (.message "unpaired high surrogate")
  else pushScalar (0x10000 + (cp - 0xD800) * 2 ^ 10 + (low - 0xDC00)) "invalid surrogate pair" rest

def joinHigh (cp : Nat) (rest : List UInt8) : Except Stop (Char × List UInt8) :=
  if 0xDC00 ≤ cp ∧ cp ≤ 0xDFFF then .error (.message "unpaired low surrogate")
  else if ¬ (0xD800 ≤ cp ∧ cp ≤ 0xDBFF) then pushScalar cp "invalid unicode escape" rest
  else if rest.take 2 = [byteOf '\\', byteOf 'u'] then do
    let (low, rest) ← parseHex4 (rest.drop 2)
    joinLow cp low rest
  else .error (.message "unpaired high surrogate")

/-- `\uXXXX` past its `u`, joining a high and a low surrogate into one scalar. -/
def parseUnicodeEscape (bytes : List UInt8) : Except Stop (Char × List UInt8) := do
  let (cp, rest) ← parseHex4 bytes
  joinHigh cp rest

/-- The character that a letter behind a backslash stands for. -/
def shortEscape (b : UInt8) : Option Char :=
  if b = byteOf '"' then some '"'
  else if b = byteOf '\\' then some '\\'
  else if b = byteOf '/' then some '/'
  else if b = byteOf 'b' then some (Char.ofNat 0x8)
  else if b = byteOf 'f' then some (Char.ofNat 0xc)
  else if b = byteOf 'n' then some '\n'
  else if b = byteOf 'r' then some '\r'
  else if b = byteOf 't' then some '\t'
  else none

def parseEscape : Parse Char
  | [] => .error (.message "unterminated escape")
  | b :: rest =>
    match shortEscape b with
    | some c => .ok (c, rest)
    | none => if b = byteOf 'u' then parseUnicodeEscape rest else .error (.message "invalid escape")

/-- The loop of a string: what is read, and the cut that goes on. -/
def stringFrom : Nat → String → List UInt8 → Parse String
  | 0, _, _, _ => .error .endless
  | _ + 1, _, _, [] => .error (.message "unterminated string")
  | fuel + 1, out, cut, b :: rest =>
    if b = byteOf '"' then do return (out ++ (← strSlice cut), rest)
    else if b = byteOf '\\' then do
      let slice ← strSlice cut
      let (c, rest) ← parseEscape rest
      stringFrom fuel ((out ++ slice).push c) [] rest
    else if b.toNat < 0x20 then .error (.message "control character in string")
    else stringFrom fuel out (cut ++ [b]) rest

/-- A string past its opening quote. -/
def parseString (bytes : List UInt8) : Except Stop (String × List UInt8) := stringFrom (bytes.length + 1) "" [] bytes

/-- One cut and the next, as one. -/
def andThen (p q : Parse (List UInt8)) (bytes : List UInt8) : Except Stop (List UInt8 × List UInt8) := do
  let (cut, rest) ← p bytes
  let (cut', rest) ← q rest
  return (cut ++ cut', rest)

def consumeDigits (bytes : List UInt8) : Except Stop (List UInt8 × List UInt8) :=
  if bytes.takeWhile digit = [] then .error (.message "invalid number") else .ok (bytes.takeWhile digit, bytes.dropWhile digit)

/-- What such a byte begins, if it comes next. -/
def optional (mark : UInt8 → Bool) (p : Parse (List UInt8)) : Parse (List UInt8)
  | [] => .ok ([], [])
  | b :: rest =>
    if mark b then do
      let (cut, rest) ← p rest
      return (b :: cut, rest)
    else .ok ([], b :: rest)

def isMinus (b : UInt8) : Bool := b == byteOf '-'

def isPoint (b : UInt8) : Bool := b == byteOf '.'

def isExponent (b : UInt8) : Bool := b == byteOf 'e' || b == byteOf 'E'

def isSign (b : UInt8) : Bool := b == byteOf '+' || b == byteOf '-'

def consumeSign (sign : UInt8 → Bool) : Parse (List UInt8) := optional sign fun bytes => .ok ([], bytes)

def consumeFraction : Parse (List UInt8) := optional isPoint consumeDigits

def consumeExponent : Parse (List UInt8) := optional isExponent (andThen (consumeSign isSign) consumeDigits)

def parseNumber (bytes : List UInt8) : Except Stop (Json × List UInt8) := do
  let (cut, rest) ← andThen (consumeSign isMinus) (andThen consumeDigits (andThen consumeFraction consumeExponent)) bytes
  let text ← strSlice cut
  return (.number text, rest)

/-- A literal at the start of the bytes. -/
def literal (word : String) (value : Json) (bytes : List UInt8) : Option (Json × List UInt8) :=
  if (encode word.toList).isPrefixOf bytes then some (value, bytes.drop (encode word.toList).length) else none

def parseBool (bytes : List UInt8) : Except Stop (Json × List UInt8) :=
  (literal "true" (.bool true) bytes).elim ((literal "false" (.bool false) bytes).elim (.error (.message "invalid literal")) .ok) .ok

def parseNull (bytes : List UInt8) : Except Stop (Json × List UInt8) :=
  (literal "null" .null bytes).elim (.error (.message "invalid literal")) .ok

/-- What goes on behind blanks and a byte that has to come next. -/
def expect {α : Type} (b : UInt8) (message : String) (next : Parse α) (bytes : List UInt8) : Except Stop (α × List UInt8) :=
  match skipWs bytes with
  | [] => .error (.message message)
  | c :: rest => if c = b then next rest else .error (.message message)

/-- What goes on behind a comma, or is done behind what closes. -/
def afterItem {α : Type} (close : UInt8) (message : String) (more done : Parse α) (bytes : List UInt8) : Except Stop (α × List UInt8) :=
  match skipWs bytes with
  | [] => .error (.message message)
  | b :: rest => if b = byteOf ',' then more rest else if b = close then done rest else .error (.message message)

/-- The loop of an object or an array: items with commas between them, up to what closes it. -/
def parseItems {α : Type} (item : Parse α) (close : UInt8) (expected : String) : Nat → List α → Parse (List α)
  | 0, _, _ => .error .endless
  | fuel + 1, items, bytes => do
    let (read, rest) ← item bytes
    afterItem close expected (parseItems item close expected fuel (items ++ [read])) (fun rest => .ok (items ++ [read], rest)) rest

/-- What stands between an object's braces or an array's brackets. -/
def parseAll {α : Type} (item : Parse α) (close : UInt8) (expected : String) (bytes : List UInt8) : Except Stop (List α × List UInt8) :=
  if (skipWs bytes).head? = some close then .ok ([], (skipWs bytes).tail)
  else parseItems item close expected (bytes.length + 1) [] (skipWs bytes)

/-- A key and its value. -/
def parseMember (value : Parse Json) : Parse (String × Json) :=
  expect (byteOf '"') "expected a string key" fun bytes => do
    let (key, rest) ← parseString bytes
    expect (byteOf ':') "expected ':'" (fun bytes => do
      let (read, rest) ← value (skipWs bytes)
      return ((key, read), rest)) rest

/-- An object past its brace. -/
def parseObject (value : Parse Json) (bytes : List UInt8) : Except Stop (Json × List UInt8) := do
  let (members, rest) ← parseAll (parseMember value) (byteOf '\x7d') "expected ',' or '\x7d'" bytes
  return (.object members, rest)

/-- An array past its bracket. -/
def parseArray (value : Parse Json) (bytes : List UInt8) : Except Stop (Json × List UInt8) := do
  let (items, rest) ← parseAll (fun bytes => value (skipWs bytes)) (byteOf ']') "expected ',' or ']'" bytes
  return (.array items, rest)

def tooDeep : Parse Json := fun _ => .error (.message "max nesting depth exceeded")

/-- What the first byte past blanks chooses. -/
def dispatch (object array : Parse Json) (bytes : List UInt8) : Except Stop (Json × List UInt8) :=
  match skipWs bytes with
  | [] => .error (.message "unexpected token")
  | b :: rest =>
    if b = byteOf '\x7b' then object rest
    else if b = byteOf '[' then array rest
    else if b = byteOf '"' then do
      let (s, rest) ← parseString rest
      return (.string s, rest)
    else if b = byteOf 't' ∨ b = byteOf 'f' then parseBool (b :: rest)
    else if b = byteOf 'n' then parseNull (b :: rest)
    else if b = byteOf '-' ∨ digit b then parseNumber (b :: rest)
    else .error (.message "unexpected token")

/-- A value where that many levels of nesting are left: `MAX_JSON_DEPTH` less the depth. -/
def parseValue : Nat → Parse Json
  | 0 => dispatch tooDeep tooDeep
  | left + 1 => dispatch (parseObject (parseValue left)) (parseArray (parseValue left))

def isAsciiWhitespace (c : Char) : Bool := c == ' ' || c == '\t' || c == '\n' || c == Char.ofNat 0xc || c == '\r'

/-- `trim_matches`. -/
def trim (line : List Char) : List Char := (line.dropWhile isAsciiWhitespace).rdropWhile isAsciiWhitespace

/-- What a line is refused for: an error of the ingest, or a stop of the program itself. -/
inductive LineError where
  | ingest (e : IngestError)
  | stop (s : Stop)
deriving DecidableEq, Repr

def malformed (row : Nat) : Stop → LineError
  | .message text => .ingest (.malformed row text)
  | s => .stop s

/-- A line of blanks holds nothing. -/
def parseLine (line : String) (row : Nat) : Except LineError (Option Json) :=
  let trimmed := trim line.toList
  if trimmed = [] then .ok none
  else
    match parseValue MAX_JSON_DEPTH (encode trimmed) with
    | .error s => .error (malformed row s)
    | .ok (value, rest) => if skipWs rest = [] then .ok (some value) else .error (malformed row (.message "trailing data after JSON value"))

def hexDigit (n : Nat) : Char := if n < 10 then Char.ofNat (48 + n) else Char.ofNat (97 + (n - 10))

/-- `\u{:04x}`. -/
def unicodeEscape (c : Char) : List Char :=
  let n := c.toNat
  ['\\', 'u', hexDigit (n / 16 ^ 3 % 16), hexDigit (n / 16 ^ 2 % 16), hexDigit (n / 16 % 16), hexDigit (n % 16)]

def quoteChar (c : Char) : List Char :=
  if c = '"' then ['\\', '"']
  else if c = '\\' then ['\\', '\\']
  else if c = '\n' then ['\\', 'n']
  else if c = '\r' then ['\\', 'r']
  else if c = '\t' then ['\\', 't']
  else if c.toNat < 0x20 then unicodeEscape c
  else [c]

def quoteJsonString (s : String) : List Char := '"' :: (s.toList.flatMap quoteChar ++ ['"'])

/-- The JSON text of a value. -/
def toJsonText : Json → List Char
  | null => "null".toList
  | bool b => if b then "true".toList else "false".toList
  | number text => text.toList
  | string s => quoteJsonString s
  | array items => '[' :: ([','].intercalate (items.map toJsonText) ++ [']'])
  | object members => '\x7b' :: ([','].intercalate (members.map fun m => quoteJsonString m.1 ++ ':' :: toJsonText m.2) ++ ['\x7d'])
termination_by value => sizeOf value
decreasing_by
  · decreasing_tactic
  · rename_i member
    have smaller := List.sizeOf_lt_of_mem member
    obtain ⟨key, value⟩ := m
    simp only [Prod.mk.sizeOf_spec, object.sizeOf_spec] at smaller ⊢
    omega

end Json

end Adelie
