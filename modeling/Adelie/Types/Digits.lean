import Adelie.Types.Parse
import Adelie.Types.Text

namespace Adelie

/-- A decimal spelling of a number, zeros before it or not. -/
structure Spells (text : List Char) (n : Nat) : Prop where
  some_ : text ≠ []
  digits : text.all Char.isDigit = true
  value : digitsValue text = n

theorem spells_toDigits (n : Nat) : Spells (Nat.toDigits 10 n) n := by
  refine ⟨Nat.toDigits_ne_nil, ?_, Nat.ofDigitChars_ten_toDigits⟩
  rw [List.all_eq_true]
  intro c inside
  exact Nat.isDigit_of_mem_toDigits (by decide) (by decide) inside

theorem toList_pushn (s : String) (c : Char) (n : Nat) : (s.pushn c n).toList = s.toList ++ List.replicate n c := by
  rw [String.pushn_eq_repeat_push]
  induction n with
  | zero => simp [Nat.repeat]
  | succ n ih => simp [Nat.repeat, ih, List.replicate_succ']

namespace Spells

variable {text : List Char} {n : Nat}

theorem zeros (spells : Spells text n) (k : Nat) : Spells (List.replicate k '0' ++ text) n := by
  refine ⟨by simp [spells.some_], by simp [spells.digits], ?_⟩
  have blank : digitsValue (List.replicate k '0') = 0 := Nat.ofDigitChars_replicate_zero
  rw [digitsValue, List.foldl_append, ← digitsValue, blank]
  exact spells.value

theorem readDigits (spells : Spells text n) : readDigits text = some n := by
  rw [Adelie.readDigits, if_neg (by simp [spells.some_, spells.digits]), spells.value]

theorem head (spells : Spells text n) : ∃ c rest, text = c :: rest ∧ c.isDigit = true := by
  obtain ⟨c, rest, rfl⟩ := List.exists_cons_of_ne_nil spells.some_
  exact ⟨c, rest, rfl, List.all_eq_true.mp spells.digits c (.head _)⟩

theorem stripPlus (spells : Spells text n) : stripPlus text = text := by
  obtain ⟨c, rest, rfl, digit⟩ := spells.head
  unfold Adelie.stripPlus
  split
  · rename_i plus
    cases plus
    cases digit
  · rfl

theorem parseUnsigned (spells : Spells text n) {bound : Nat} (fits : n < bound) : parseUnsigned bound text = some n := by
  simp [Adelie.parseUnsigned, spells.stripPlus, spells.readDigits, fits]

theorem parseSigned (spells : Spells text n) {w : Nat} (fits : n < 2 ^ (w - 1)) : parseSigned w text = some (n : Int) := by
  obtain ⟨c, rest, rfl, digit⟩ := spells.head
  unfold Adelie.parseSigned
  split
  · rename_i minus
    cases minus
    cases digit
  · rw [spells.stripPlus, spells.readDigits]
    exact if_pos fits

theorem parseSigned_neg (spells : Spells text n) {w : Nat} (fits : n ≤ 2 ^ (w - 1)) :
    Adelie.parseSigned w ('-' :: text) = some (-n : Int) := by
  rw [Adelie.parseSigned, spells.readDigits]
  exact if_pos fits

end Spells

section Padded

variable {width n : Nat}

theorem spells_padded (width n : Nat) : Spells (padded width n).toList n := by
  rw [padded, if_neg (by omega), String.toList_append, toList_pushn, Nat.toList_repr]
  exact (spells_toDigits n).zeros _

theorem length_padded (positive : 0 < width) (fits : n < 10 ^ width) : (padded width n).toList.length = width := by
  have short := (@Nat.length_toDigits_le_iff 10 n width (by decide) positive).mpr fits
  rw [padded, if_neg (by omega), String.toList_append, toList_pushn, Nat.toList_repr, Int.natAbs_natCast]
  rw [← String.length_toList, Nat.toList_repr]
  simp
  omega

/-- A signed number, zeros after the sign. -/
theorem padded_negative (width : Nat) {n : Int} (negative : n < 0) :
    ∃ text, (padded width n).toList = '-' :: text ∧ Spells text n.natAbs := by
  rw [padded, if_pos negative, String.toList_append, String.toList_append, toList_pushn, Nat.toList_repr]
  exact ⟨_, rfl, (spells_toDigits n.natAbs).zeros _⟩

theorem parseSigned_padded (width : Nat) (n : I64) : parseSigned 64 (padded width n.val).toList = some n.val := by
  obtain ⟨n, low, high⟩ := n
  by_cases negative : n < 0
  · obtain ⟨text, listed, spells⟩ := padded_negative width negative
    rw [listed, spells.parseSigned_neg (by omega)]
    congr 1
    change -((n.natAbs : Nat) : Int) = n
    omega
  · obtain ⟨m, rfl⟩ := Int.eq_ofNat_of_zero_le (by omega : 0 ≤ n)
    exact (spells_padded width m).parseSigned (by omega)

theorem toList_toString (n : Int) : (toString n).toList =
    if n < 0 then '-' :: Nat.toDigits 10 n.natAbs else Nat.toDigits 10 n.natAbs := by
  cases n with
  | ofNat m => exact Nat.toList_repr
  | negSucc m =>
    rw [if_pos (by omega)]
    change ("-" ++ (m + 1).repr).toList = _
    rw [String.toList_append, Nat.toList_repr]
    rfl

theorem parseSigned_toString (n : I64) : parseSigned 64 (toString n.val).toList = some n.val := by
  obtain ⟨n, low, high⟩ := n
  have spells := spells_toDigits n.natAbs
  dsimp only
  rw [toList_toString]
  by_cases negative : n < 0
  · rw [if_pos negative, spells.parseSigned_neg (by omega)]
    congr 1
    omega
  · rw [if_neg negative, spells.parseSigned (by omega)]
    congr 1
    omega

end Padded

section Trim

variable {text : List Char}

theorem trimAscii_eq (solid : ∀ c ∈ text, isAsciiWhitespace c = false) : trimAscii text = text := by
  have front : ∀ l : List Char, (∀ c ∈ l, isAsciiWhitespace c = false) → l.dropWhile isAsciiWhitespace = l := by
    intro l solid
    cases l with
    | nil => rfl
    | cons c rest =>
      rw [List.dropWhile_cons, solid c (.head _)]
      rfl
  rw [trimAscii, front text solid, front text.reverse fun c inside => solid c (List.mem_reverse.mp inside), List.reverse_reverse]

theorem solid_of_isDigit {c : Char} (digit : c.isDigit = true) : isAsciiWhitespace c = false := by
  have ne : ∀ d : Char, d.isDigit = false → (c == d) = false := by
    intro d other
    rw [beq_eq_false_iff_ne]
    rintro rfl
    rw [digit] at other
    cases other
  simp only [isAsciiWhitespace, ne ' ' rfl, ne '\t' rfl, ne '\n' rfl, ne '\x0c' rfl, ne '\r' rfl, Bool.or_self]

end Trim

end Adelie
