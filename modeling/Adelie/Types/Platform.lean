import Adelie.Types.Fit

namespace Adelie

namespace Float64

/-- `f64::round`: half away from zero. -/
def round? (f : Float64) : Option Int :=
  if f.isFinite then
    let magnitude :=
      if 1075 ≤ f.scale then f.significand * 2 ^ (f.scale - 1075)
      else (2 * f.significand + 2 ^ (1075 - f.scale)) / 2 ^ (1076 - f.scale)
    some (if f.negative then -(magnitude : Int) else magnitude)
  else none

def neg (f : Float64) : Float64 := ⟨⟨(f.bits.val + 2 ^ 63) % 2 ^ 64, Nat.mod_lt _ (by decide)⟩⟩

end Float64

/-- What the language and its library compute: float arithmetic, Unicode case, the text of floats and
    addresses, and whether this build checks its integer arithmetic. -/
structure Platform where
  overflowChecks : Bool
  add : Float64 → Float64 → Float64
  sub : Float64 → Float64 → Float64
  mul : Float64 → Float64 → Float64
  div : Float64 → Float64 → Float64
  rem : Float64 → Float64 → Float64
  /-- `as f64`, to the nearest. -/
  ofInt : Int → Float64
  /-- No rounded float lies between an integer and the float nearest to it. -/
  ofInt_nearest : ∀ (n limit r : Int) (f : Float64), (ofInt n).toInt? = some limit → f.round? = some r →
    (r.natAbs : Int) < limit → (r.natAbs : Int) < n
  showFloat : Float64 → String
  readFloat : String → Option Float64
  showIp : Octets16 → String
  readIp : String → Option Octets16
  toLowercase : String → String
  toUppercase : String → String
  lowercase : Char → List Char
  /-- A compiled regular expression, known by its pattern, on a string. -/
  isMatch : String → String → Bool

/-- Two's complement on 64 bits. -/
def wrapI64 (n : Int) : I64 :=
  ⟨(n + 2 ^ 63) % 2 ^ 64 - 2 ^ 63, by omega, by omega⟩

/-- The outcome of an `i64` operation whose exact result is `n`: past the range a checked build
    panics, and any other wraps. -/
def Platform.i64 (P : Platform) (operation : String) (n : Int) : Except String I64 :=
  match toI64? n with
  | some exact => .ok exact
  | none => if P.overflowChecks then .error s!"attempt to {operation} with overflow" else .ok (wrapI64 n)

/-- `n + 1` on 64 bits. -/
def Platform.increment (P : Platform) (n : Nat) : Except String Nat :=
  if n + 1 < 2 ^ 64 then .ok (n + 1)
  else if P.overflowChecks then .error "attempt to add with overflow"
  else .ok ((n + 1) % 2 ^ 64)

def nan : Float64 := ⟨⟨2047 * 2 ^ 52 + 1, by decide⟩⟩

/-- A build that checks its arithmetic, on inputs without floats, addresses and patterns. -/
def checkedPlatform : Platform where
  overflowChecks := true
  add _ _ := nan
  sub _ _ := nan
  mul _ _ := nan
  div _ _ := nan
  rem _ _ := nan
  ofInt _ := nan
  ofInt_nearest := by
    intro n limit r f whole
    have nothing : nan.toInt? = none := by decide
    rw [nothing] at whole
    cases whole
  showFloat _ := "NaN"
  readFloat _ := none
  showIp _ := ""
  readIp _ := none
  toLowercase s := s
  toUppercase s := s
  lowercase c := [c]
  isMatch _ _ := false

end Adelie
