import Adelie.Types.Platform

namespace Adelie

def isAsciiWhitespace (c : Char) : Bool := c == ' ' || c == '\t' || c == '\n' || c == '\x0c' || c == '\r'

/-- `trim_matches`. -/
def trimAscii (text : List Char) : List Char :=
  ((text.dropWhile isAsciiWhitespace).reverse.dropWhile isAsciiWhitespace).reverse

def stripPlus : List Char → List Char
  | '+' :: rest => rest
  | text => text

def digitsValue (digits : List Char) : Nat := digits.foldl (fun n c => 10 * n + (c.toNat - 48)) 0

def readDigits (digits : List Char) : Option Nat :=
  if digits.isEmpty || !digits.all Char.isDigit then none else some (digitsValue digits)

/-- `parse` of an unsigned integer below the bound, which takes a `+` of its own. -/
def parseUnsigned (bound : Nat) (text : List Char) : Option Nat :=
  (readDigits (stripPlus text)).filter (· < bound)

/-- `parse` of a signed integer of `w` bits. -/
def parseSigned (w : Nat) : List Char → Option Int
  | '-' :: rest => (readDigits rest).bind fun n => if n ≤ 2 ^ (w - 1) then some (-n) else none
  | text => (readDigits (stripPlus text)).bind fun n => if n < 2 ^ (w - 1) then some n else none

def parseBool (text : List Char) : Option Value :=
  let lower := String.ofList (text.map Char.toLower)
  if lower = "true" || lower = "t" || lower = "1" then some (.bool true)
  else if lower = "false" || lower = "f" || lower = "0" then some (.bool false)
  else none

/-- `split_once`. -/
def splitOnce (c : Char) (text : List Char) : Option (List Char × List Char) :=
  if c ∈ text then some (text.takeWhile (· != c), (text.dropWhile (· != c)).drop 1) else none

def checkedI128 (n : Int) : Option Int := if -2 ^ 127 ≤ n ∧ n < 2 ^ 127 then some n else none

/-- The fraction's digits, brought up to the scale. Their number is taken `as u8`. -/
def parseFraction (scale : Nat) (fraction : List Char) : Option Int :=
  if fraction.isEmpty || scale < fraction.length % 256 || !fraction.all Char.isDigit then none
  else
    (checkedI128 (digitsValue fraction)).bind fun n => checkedI128 (n * 10 ^ (scale - fraction.length % 256))

/-- A magnitude, scaled exactly. -/
def parseMagnitude (scale : Nat) (text : List Char) : Option Int :=
  let (whole, fraction) :=
    match splitOnce '.' text with
    | some (whole, fraction) => (whole, some fraction)
    | none => (text, none)
  if whole.isEmpty && fraction.all List.isEmpty then none
  else if !whole.all Char.isDigit then none
  else
    (checkedI128 (digitsValue whole)).bind fun n => (checkedI128 (n * 10 ^ scale)).bind fun n =>
      match fraction with
      | none => some n
      | some fraction => (parseFraction scale fraction).bind fun m => checkedI128 (n + m)

def parseDecimal (text : List Char) (t : DecimalType) : Option Value :=
  let unscaled :=
    match stripPlus text with
    | '-' :: rest => (parseMagnitude t.scale rest).map (-·)
    | text => parseMagnitude t.scale text
  unscaled.bind fun n =>
    if 10 ^ t.precision ≤ n.natAbs then none else (Decimal.new n t.scale).toOption.map .decimal

/-- `to_digit(16)`. -/
def hexValue (c : Char) : Option Nat :=
  if c.isDigit then some (c.toNat - 48)
  else if 'a' ≤ c ∧ c ≤ 'f' then some (c.toNat - 87)
  else if 'A' ≤ c ∧ c ≤ 'F' then some (c.toNat - 55)
  else none

def hexBytes : List Char → Option (List UInt8)
  | [] => some []
  | hi :: lo :: rest => do
    let hi ← hexValue hi
    let lo ← hexValue lo
    return UInt8.ofNat (hi * 16 + lo) :: (← hexBytes rest)
  | [_] => none

def parseBytes : List Char → Option Value
  | '\\' :: 'x' :: digits => (hexBytes digits).map .bytes
  | _ => none

def octets16? (bytes : List UInt8) : Option Octets16 := if h : bytes.length = 16 then some ⟨bytes, h⟩ else none

def parseUuid (text : List Char) : Option Value :=
  if text.length = 36 ∧ [8, 13, 18, 23].all fun i => text[i]? == some '-' then
    ((hexBytes (text.eraseIdx 23 |>.eraseIdx 18 |>.eraseIdx 13 |>.eraseIdx 8)).bind octets16?).map .uuid
  else none

def daysInMonth (year : Int) (month : Nat) : Nat :=
  if month = 2 then if year % 4 = 0 ∧ (year % 100 ≠ 0 ∨ year % 400 = 0) then 29 else 28
  else if month = 4 ∨ month = 6 ∨ month = 9 ∨ month = 11 then 30
  else 31

def toI32? (n : Int) : Option I32 := if h : -2 ^ (32 - 1) ≤ n ∧ n < 2 ^ (32 - 1) then some ⟨n, h⟩ else none

def isAscii (c : Char) : Bool := c.toNat < 128

namespace Platform

variable (P : Platform)

/-- The day count of a date. A year far out runs past `i64` on the way. -/
def daysFromCivil (y : I64) (m d : Nat) : Except String I64 := do
  let y ← if m ≤ 2 then P.i64 "subtract" (y.val - 1) else .ok y
  let base ← if 0 ≤ y.val then .ok y else P.i64 "subtract" (y.val - 399)
  let era := base.val.tdiv 400
  let yoe ← P.i64 "subtract" (y.val - era * 400)
  let mp := if 2 < m then m - 3 else m + 9
  let doy : Int := (153 * mp + 2) / 5 + d - 1
  let days ← P.i64 "multiply" (yoe.val * 365)
  let days ← P.i64 "add" (days.val + yoe.val.tdiv 4)
  let days ← P.i64 "subtract" (days.val - yoe.val.tdiv 100)
  let doe ← P.i64 "add" (days.val + doy)
  let eras ← P.i64 "multiply" (era * 146097)
  let days ← P.i64 "add" (eras.val + doe.val)
  P.i64 "subtract" (days.val - 719468)

/-- `none` where the text is no date; the arithmetic of one may still panic. -/
def parseDate (text : List Char) : Except String (Option I32) :=
  if !text.all isAscii || text.length < 6 then .ok none
  else
    let rest := text.drop (text.length - 6)
    if rest[0]? ≠ some '-' ∨ rest[3]? ≠ some '-' then .ok none
    else
      match (parseSigned 64 (text.take (text.length - 6))).bind toI64?, parseUnsigned (2 ^ 32) ((rest.drop 1).take 2),
        parseUnsigned (2 ^ 32) ((rest.drop 4).take 2) with
      | some year, some month, some day =>
        if month < 1 ∨ 12 < month ∨ day = 0 ∨ daysInMonth year.val month < day then .ok none
        else do return toI32? (← P.daysFromCivil year month day).val
      | _, _, _ => .ok none

/-- Hours, minutes and seconds, and a fraction of up to nine digits, in nanoseconds. -/
def parseTime (time : List Char) : Option Int :=
  let (hms, fraction) :=
    match splitOnce '.' time with
    | some (hms, fraction) => (hms, some fraction)
    | none => (time, none)
  if hms.length ≠ 8 ∨ hms[2]? ≠ some ':' ∨ hms[5]? ≠ some ':' then none
  else do
    let h ← parseSigned 64 (hms.take 2)
    let mi ← parseSigned 64 ((hms.drop 3).take 2)
    let s ← parseSigned 64 ((hms.drop 6).take 2)
    if 24 ≤ h ∨ 60 ≤ mi ∨ 60 ≤ s then none
    else do
      let ns ← match fraction with
        | none => some 0
        | some f =>
          if f.isEmpty || 9 < f.length || !f.all Char.isDigit then none
          else some (digitsValue f * 10 ^ (9 - f.length))
      return h * 3600000000000 + mi * 60000000000 + s * 1000000000 + (ns : Nat)

/-- Date and time apart: `T` and a `Z`, or a space with the `Z` left to choice. -/
def splitTimestamp (text : List Char) : Option (List Char × List Char) :=
  match splitOnce 'T' text with
  | some (date, time) => if time.getLast? = some 'Z' then some (date, time.dropLast) else none
  | none => (splitOnce ' ' text).map fun (date, time) =>
      (date, if time.getLast? = some 'Z' then time.dropLast else time)

def parseTimestamp (text : List Char) : Except String (Option I64) := do
  if !text.all isAscii then return none
  match ← P.parseDate text with
  | some days => return toI64? (days.val * 86400000000000)
  | none =>
    match splitTimestamp text with
    | none => return none
    | some (date, time) =>
      match ← P.parseDate date with
      | none => return none
      | some days => return do
        let ofDay ← parseTime time
        let start ← toI64? (days.val * 86400000000000)
        toI64? (start.val + ofDay)

/-- The value a text stands for in a type; an error is a panic. -/
def fromText (text : String) (ty : DataType) : Except String (Option Value) :=
  let trimmed := trimAscii text.toList
  match ty with
  | .string => .ok (some (.string text))
  | .bool => .ok (parseBool trimmed)
  | .int64 => .ok (((parseSigned 64 (stripPlus trimmed)).bind toI64?).map .int64)
  | .uint64 => .ok (((parseUnsigned (2 ^ 64) (stripPlus trimmed)).bind fun n => toU64? n).map .uint64)
  | .float64 => .ok ((P.readFloat (String.ofList (stripPlus trimmed))).map .float64)
  | .decimal t => .ok (parseDecimal trimmed t)
  | .bytes => .ok (parseBytes trimmed)
  | .timestamp => (P.parseTimestamp trimmed).map (·.map .timestamp)
  | .date => (P.parseDate trimmed).map (·.map .date)
  | .uuid => .ok (parseUuid trimmed)
  | .ip => .ok ((P.readIp (String.ofList trimmed)).map .ip)
  | .list _ => .ok none

theorem parseBool_type {text : List Char} {v : Value} (read : parseBool text = some v) : v.HasScalarType .bool := by
  unfold parseBool at read
  dsimp only at read
  split at read
  · cases read
    exact True.intro
  · split at read
    · cases read
      exact True.intro
    · cases read

theorem parseDecimal_type {text : List Char} {t : DecimalType} {v : Value} (read : parseDecimal text t = some v) :
    v.HasScalarType (.decimal t) := by
  unfold parseDecimal at read
  obtain ⟨n, _, read⟩ := Option.bind_eq_some_iff.mp read
  split at read
  · cases read
  · rename_i small
    obtain ⟨d, built, rfl⟩ := Option.map_eq_some_iff.mp read
    obtain ⟨unscaled, scale⟩ := Decimal.new_eq built
    exact ⟨scale, by rw [unscaled]; omega⟩

theorem parseBytes_type {text : List Char} {v : Value} (read : parseBytes text = some v) :
    v.HasScalarType .bytes := by
  unfold parseBytes at read
  split at read
  · obtain ⟨b, _, rfl⟩ := Option.map_eq_some_iff.mp read
    exact True.intro
  · cases read

theorem parseUuid_type {text : List Char} {v : Value} (read : parseUuid text = some v) : v.HasScalarType .uuid := by
  unfold parseUuid at read
  split at read
  · obtain ⟨u, _, rfl⟩ := Option.map_eq_some_iff.mp read
    exact True.intro
  · cases read

/-- What a text is read as is of the type it was read for. -/
theorem fromText_type {text : String} {ty : DataType} {v : Value} (read : P.fromText text ty = .ok (some v)) :
    v.HasType ty := by
  unfold fromText at read
  dsimp only at read
  split at read
  case h_1 =>
    cases read
    exact True.intro
  case h_2 => exact parseBool_type (Except.ok.inj read)
  case h_3 =>
    obtain ⟨_, _, rfl⟩ := Option.map_eq_some_iff.mp (Except.ok.inj read)
    exact True.intro
  case h_4 =>
    obtain ⟨_, _, rfl⟩ := Option.map_eq_some_iff.mp (Except.ok.inj read)
    exact True.intro
  case h_5 =>
    obtain ⟨_, _, rfl⟩ := Option.map_eq_some_iff.mp (Except.ok.inj read)
    exact True.intro
  case h_6 => exact parseDecimal_type (Except.ok.inj read)
  case h_7 => exact parseBytes_type (Except.ok.inj read)
  case h_8 =>
    cases parsed : P.parseTimestamp (trimAscii text.toList) with
    | error e =>
      rw [parsed] at read
      cases read
    | ok found =>
      rw [parsed] at read
      obtain ⟨_, _, rfl⟩ := Option.map_eq_some_iff.mp (Except.ok.inj read)
      exact True.intro
  case h_9 =>
    cases parsed : P.parseDate (trimAscii text.toList) with
    | error e =>
      rw [parsed] at read
      cases read
    | ok found =>
      rw [parsed] at read
      obtain ⟨_, _, rfl⟩ := Option.map_eq_some_iff.mp (Except.ok.inj read)
      exact True.intro
  case h_10 => exact parseUuid_type (Except.ok.inj read)
  case h_11 =>
    obtain ⟨_, _, rfl⟩ := Option.map_eq_some_iff.mp (Except.ok.inj read)
    exact True.intro
  case h_12 => cases read

end Platform

end Adelie
