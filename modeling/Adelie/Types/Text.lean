import Adelie.Types.Platform

namespace Adelie

/-- A day count since 1970-01-01 as year, month and day. -/
def civilFromDays (z : Int) : Int × Nat × Nat :=
  let z := z + 719468
  let era := (if 0 ≤ z then z else z - 146096).tdiv 146097
  let doe := (z - era * 146097).toNat
  let yoe := (doe - doe / 1460 + doe / 36524 - doe / 146096) / 365
  let y := (yoe : Int) + era * 400
  let doy := doe - (365 * yoe + yoe / 4 - yoe / 100)
  let mp := (5 * doy + 2) / 153
  let d := doy - (153 * mp + 2) / 5 + 1
  let m := if mp < 10 then mp + 3 else mp - 9
  (if m ≤ 2 then y + 1 else y, m, d)

/-- Zeros up to the width; the sign counts. -/
def padded (width : Nat) (n : Int) : String :=
  let digits := n.natAbs.repr
  if n < 0 then "-" ++ "".pushn '0' (width - 1 - digits.length) ++ digits
  else "".pushn '0' (width - digits.length) ++ digits

def hexDigit (n : Nat) : Char := Char.ofNat (if n < 10 then 48 + n else 87 + n)

def hex (bytes : List UInt8) : List Char :=
  bytes.flatMap fun b => [hexDigit (b.toNat / 16), hexDigit (b.toNat % 16)]

def formatDecimal (unscaled : Int) (scale : Nat) : String :=
  let sign := if unscaled < 0 then "-" else ""
  let magnitude := unscaled.natAbs
  if scale = 0 then sign ++ magnitude.repr
  else sign ++ (magnitude / 10 ^ scale).repr ++ "." ++ padded scale (magnitude % 10 ^ scale : Nat)

def formatBytes (bytes : List UInt8) : String := String.ofList ('\\' :: 'x' :: hex bytes)

def formatUuid (bytes : List UInt8) : String :=
  let digits := hex bytes
  String.ofList (digits.take 8 ++ '-' :: (digits.drop 8).take 4 ++ '-' :: (digits.drop 12).take 4 ++
    '-' :: (digits.drop 16).take 4 ++ '-' :: digits.drop 20)

def formatDate (days : Int) : String :=
  let (y, m, d) := civilFromDays days
  padded 4 y ++ "-" ++ padded 2 m ++ "-" ++ padded 2 d

def nsPerDay : Int := 86400000000000

/-- The shortest exact group: milli-, micro- or nanoseconds, or nothing. -/
def formatFraction (ns : Nat) : String :=
  if ns = 0 then ""
  else if ns % 1000000 = 0 then "." ++ padded 3 (ns / 1000000 : Nat)
  else if ns % 1000 = 0 then "." ++ padded 6 (ns / 1000 : Nat)
  else "." ++ padded 9 ns

def formatTimestamp (ns : Int) : String :=
  let (y, mo, d) := civilFromDays (ns / nsPerDay)
  let ofDay := (ns % nsPerDay).toNat
  let secs := ofDay / 1000000000
  padded 4 y ++ "-" ++ padded 2 mo ++ "-" ++ padded 2 d ++ "T" ++ padded 2 (secs / 3600 : Nat) ++ ":" ++
    padded 2 (secs % 3600 / 60 : Nat) ++ ":" ++ padded 2 (secs % 60 : Nat) ++ formatFraction (ofDay % 1000000000) ++ "Z"

namespace Platform

variable (P : Platform)

def formatFloat (f : Float64) : String :=
  if f.isNaN then "NaN"
  else if f.isFinite then P.showFloat f
  else if f.negative then "-inf"
  else "inf"

mutual

/-- The canonical text of a value; NULL has none. -/
def toText (v : Value) : Option String :=
  match v with
  | .null => none
  | .bool b => some (if b then "true" else "false")
  | .int64 n => some (toString n.val)
  | .uint64 n => some n.val.repr
  | .float64 f => some (P.formatFloat f)
  | .decimal d => some (formatDecimal d.unscaled d.scale)
  | .string s => some s
  | .bytes b => some (formatBytes b)
  | .timestamp ns => some (formatTimestamp ns.val)
  | .date days => some (formatDate days.val)
  | .uuid u => some (formatUuid u.val)
  | .ip i => some (P.showIp i)
  | .list items => some ("[" ++ ", ".intercalate (itemTexts items) ++ "]")

/-- Each element as a list shows it, a string quoted. -/
def itemTexts (items : List Value) : List String :=
  match items with
  | [] => []
  | v :: rest =>
    let text := match v with
      | .string s => "'" ++ s.replace "'" "''" ++ "'"
      | v => (toText v).getD "NULL"
    text :: itemTexts rest

end

theorem toText_isSome {v : Value} (value : v.isNull = false) : (P.toText v).isSome := by
  cases v <;> simp_all [toText, Value.isNull]

end Platform

end Adelie
