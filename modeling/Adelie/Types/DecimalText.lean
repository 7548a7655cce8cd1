import Adelie.Types.Lawful
import Adelie.Types.Lossless
import Adelie.Types.Parse

namespace Adelie

/-- Digits, or digits around a point with one after it at least. -/
def Magnitude (text whole fraction : List Char) : Prop :=
  whole.all Char.isDigit = true ∧ fraction.all Char.isDigit = true ∧
    (text = whole ∧ whole ≠ [] ∧ fraction = [] ∨ text = whole ++ '.' :: fraction ∧ fraction ≠ [])

/-- What follows the sign, as the parser takes it: a `+` and then a `-` may both go before it. -/
def unsignedText (text : List Char) : List Char :=
  match stripPlus text with
  | '-' :: rest => rest
  | text => text

/-- The digits of a magnitude with the point moved `scale` places, where the fraction counts `places`. -/
def scaledDigits (scale places : Nat) (whole fraction : List Char) : Nat :=
  digitsValue whole * 10 ^ scale + digitsValue fraction * 10 ^ (scale - places)

/-- A text of at most one sign is the decimal, to the last place of its type. -/
def Denotes (text : List Char) (t : DecimalType) (d : Decimal) : Prop :=
  ∃ sign whole fraction body, sign ∈ [[], ['+'], ['-']] ∧ text = sign ++ body ∧ Magnitude body whole fraction ∧
    fraction.length ≤ t.scale ∧ d.scale = t.scale ∧ d.unscaled.natAbs < 10 ^ t.precision ∧
    d.number = (if sign = ['-'] then -1 else 1) * (digitsValue whole + digitsValue fraction / 10 ^ fraction.length)

section Split

variable {text whole fraction : List Char} {c : Char}

theorem ne_of_isDigit {c d : Char} (digit : c.isDigit = true) (other : d.isDigit = false) : c ≠ d := by
  rintro rfl
  rw [digit] at other
  cases other

theorem not_mem_of_digits (digits : whole.all Char.isDigit = true) (other : c.isDigit = false) : c ∉ whole := by
  intro member
  exact ne_of_isDigit (List.all_eq_true.mp digits c member) other rfl

theorem splitOnce_of_not_mem (absent : c ∉ text) : splitOnce c text = none := if_neg absent

/-- A text is split where the separator comes first. -/
theorem splitOnce_append (absent : c ∉ whole) : splitOnce c (whole ++ c :: fraction) = some (whole, fraction) := by
  unfold splitOnce
  rw [if_pos (by simp)]
  have each : ∀ x ∈ whole, (x != c) = true := by
    intro x member
    simp only [bne_iff_ne]
    rintro rfl
    exact absent member
  rw [List.takeWhile_append_of_pos each, List.dropWhile_append_of_pos each]
  simp

theorem splitOnce_eq_some {before after : List Char} (split_ : splitOnce c text = some (before, after)) :
    text = before ++ c :: after ∧ c ∉ before := by
  unfold splitOnce at split_
  split at split_
  · rename_i member
    simp only [Option.some.injEq, Prod.mk.injEq] at split_
    obtain ⟨rfl, rfl⟩ := split_
    have rejoined := List.takeWhile_append_dropWhile (p := (· != c)) (l := text)
    have head : ∃ rest, text.dropWhile (· != c) = c :: rest := by
      cases dropped : text.dropWhile (· != c) with
      | nil =>
        have all := List.dropWhile_eq_nil_iff.mp dropped c member
        simp at all
      | cons x rest =>
        have first := List.head_dropWhile_not (· != c) (l := text) (by simp [dropped])
        simp only [dropped, List.head_cons, bne_eq_false_iff_eq] at first
        exact ⟨rest, by rw [first]⟩
    obtain ⟨rest, dropped⟩ := head
    refine ⟨?_, ?_⟩
    · rw [dropped, List.drop_succ_cons, List.drop_zero, ← dropped, rejoined]
    · intro inside
      have := List.mem_takeWhile_imp inside
      simp at this
  · cases split_

theorem Magnitude.split (m : Magnitude text whole fraction) :
    splitOnce '.' text = none ∧ text = whole ∧ whole ≠ [] ∧ fraction = [] ∨
      splitOnce '.' text = some (whole, fraction) ∧ text = whole ++ '.' :: fraction ∧ fraction ≠ [] := by
  have point : ('.' : Char).isDigit = false := rfl
  obtain ⟨digits, _, ⟨rfl, some_, rfl⟩ | ⟨rfl, some_⟩⟩ := m
  · exact .inl ⟨splitOnce_of_not_mem (not_mem_of_digits digits point), rfl, some_, rfl⟩
  · exact .inr ⟨splitOnce_append (not_mem_of_digits digits point), rfl, some_⟩

/-- A magnitude is read in one way. -/
theorem Magnitude.unique {whole' fraction' : List Char} (m : Magnitude text whole fraction)
    (m' : Magnitude text whole' fraction') : whole = whole' ∧ fraction = fraction' := by
  rcases m.split with ⟨none_, rfl, _, rfl⟩ | ⟨some_, _⟩
  · rcases m'.split with ⟨_, rfl, _, rfl⟩ | ⟨some', _⟩
    · exact ⟨rfl, rfl⟩
    · rw [none_] at some'
      cases some'
  · rcases m'.split with ⟨none', _⟩ | ⟨some', _⟩
    · rw [some_] at none'
      cases none'
    · rw [some_] at some'
      cases some'
      exact ⟨rfl, rfl⟩

theorem Magnitude.head (m : Magnitude text whole fraction) : ∃ c rest, text = c :: rest ∧ (c.isDigit = true ∨ c = '.') := by
  obtain ⟨digits, _, ⟨rfl, some_, _⟩ | ⟨rfl, _⟩⟩ := m
  · obtain ⟨c, rest, rfl⟩ := List.exists_cons_of_ne_nil some_
    exact ⟨c, rest, rfl, .inl (List.all_eq_true.mp digits c (.head _))⟩
  · cases whole with
    | nil => exact ⟨'.', fraction, rfl, .inr rfl⟩
    | cons c rest => exact ⟨c, _, rfl, .inl (List.all_eq_true.mp digits c (.head _))⟩

end Split

section Magnitudes

variable {text : List Char} {scale : Nat} {n : Int}

theorem checkedI128_eq_some {m : Int} : checkedI128 m = some n ↔ m = n ∧ -2 ^ 127 ≤ n ∧ n < 2 ^ 127 := by
  unfold checkedI128
  split
  · rename_i fits
    simp only [Option.some.injEq]
    constructor
    · rintro rfl
      exact ⟨rfl, fits⟩
    · exact And.left
  · rename_i runs_over
    constructor
    · rintro ⟨⟩
    · rintro ⟨rfl, fits⟩
      exact absurd fits runs_over

theorem parseFraction_eq_some {fraction : List Char} : parseFraction scale fraction = some n ↔
    fraction ≠ [] ∧ fraction.length % 256 ≤ scale ∧ fraction.all Char.isDigit = true ∧
      n = digitsValue fraction * 10 ^ (scale - fraction.length % 256) ∧ n < 2 ^ 127 := by
  unfold parseFraction
  by_cases good : fraction ≠ [] ∧ fraction.length % 256 ≤ scale ∧ fraction.all Char.isDigit = true
  · obtain ⟨some_, short, digits⟩ := good
    have passes : (fraction.isEmpty || decide (scale < fraction.length % 256) || !fraction.all Char.isDigit) = false := by
      simp [some_, short, digits]
    rw [passes]
    simp only [Bool.false_eq_true, if_false, Option.bind_eq_some_iff, checkedI128_eq_some]
    have positive : 1 ≤ (10 : Int) ^ (scale - fraction.length % 256) := one_le_pow₀ (by decide)
    have grows : (digitsValue fraction : Int) ≤ digitsValue fraction * 10 ^ (scale - fraction.length % 256) :=
      le_mul_of_one_le_right (Int.natCast_nonneg _) positive
    constructor
    · rintro ⟨m, ⟨rfl, _⟩, rfl, fits⟩
      exact ⟨some_, short, digits, rfl, fits.2⟩
    · rintro ⟨_, _, _, rfl, fits⟩
      exact ⟨_, ⟨rfl, by omega, by omega⟩, rfl, by omega, fits⟩
  · have fails : (fraction.isEmpty || decide (scale < fraction.length % 256) || !fraction.all Char.isDigit) = true := by
      by_contra passes
      apply good
      simpa [and_assoc] using passes
    rw [fails]
    simp only [if_true, reduceCtorEq, false_iff]
    rintro ⟨some_, short, digits, _⟩
    exact good ⟨some_, short, digits⟩

/-- The whole part alone, moved up to the scale. -/
theorem wholePart_eq_some {whole : List Char} :
    ((checkedI128 (digitsValue whole)).bind fun m => checkedI128 (m * 10 ^ scale)) = some n ↔
      n = digitsValue whole * 10 ^ scale ∧ n < 2 ^ 127 := by
  simp only [Option.bind_eq_some_iff, checkedI128_eq_some]
  have positive : 1 ≤ (10 : Int) ^ scale := one_le_pow₀ (by decide)
  have grows : (digitsValue whole : Int) ≤ digitsValue whole * 10 ^ scale :=
    le_mul_of_one_le_right (Int.natCast_nonneg _) positive
  constructor
  · rintro ⟨m, ⟨rfl, _⟩, rfl, fits⟩
    exact ⟨rfl, fits.2⟩
  · rintro ⟨rfl, fits⟩
    exact ⟨_, ⟨rfl, by omega, by omega⟩, rfl, by omega, fits⟩

/-- What the parser takes as a magnitude: the digits of the fraction count as their number's last byte. -/
theorem parseMagnitude_eq_some : parseMagnitude scale text = some n ↔
    ∃ whole fraction, Magnitude text whole fraction ∧ fraction.length % 256 ≤ scale ∧
      n = scaledDigits scale (fraction.length % 256) whole fraction ∧ n < 2 ^ 127 := by
  unfold parseMagnitude
  cases split_ : splitOnce '.' text with
  | none =>
    have absent : '.' ∉ text := by
      intro member
      simp [splitOnce, member] at split_
    dsimp only
    constructor
    · intro read
      split at read
      · cases read
      · split at read
        · cases read
        · rename_i some_ digits
          simp only [Option.all_none, Bool.and_true, List.isEmpty_iff] at some_
          have whole : ((checkedI128 (digitsValue text)).bind fun m => checkedI128 (m * 10 ^ scale)) = some n := by
            simpa [Option.bind_assoc] using read
          obtain ⟨rfl, fits⟩ := wholePart_eq_some.mp whole
          refine ⟨text, [], ⟨by simpa using digits, rfl, .inl ⟨rfl, some_, rfl⟩⟩, Nat.zero_le _, ?_, fits⟩
          simp [scaledDigits, digitsValue]
    · rintro ⟨whole, fraction, ⟨digits, _, ⟨rfl, some_, rfl⟩ | ⟨rfl, _⟩⟩, _, rfl, fits⟩
      · rw [if_neg (by simpa using some_), if_neg (by simp [digits])]
        have made := (@wholePart_eq_some scale _ text).mpr ⟨rfl, by simpa [scaledDigits, digitsValue] using fits⟩
        simpa [Option.bind_assoc, scaledDigits, digitsValue] using made
      · simp at absent
  | some parts =>
    obtain ⟨before, after⟩ := parts
    obtain ⟨rfl, absent⟩ := splitOnce_eq_some split_
    dsimp only
    constructor
    · intro read
      split at read
      · cases read
      · split at read
        · cases read
        · rename_i some_ digits
          obtain ⟨m, first, read⟩ := Option.bind_eq_some_iff.mp read
          obtain ⟨k, second, read⟩ := Option.bind_eq_some_iff.mp read
          obtain ⟨j, third, read⟩ := Option.bind_eq_some_iff.mp read
          obtain ⟨rfl, _⟩ := wholePart_eq_some.mp (Option.bind_eq_some_iff.mpr ⟨m, first, second⟩)
          obtain ⟨some', short, digits', rfl, _⟩ := parseFraction_eq_some.mp third
          obtain ⟨rfl, fits⟩ := checkedI128_eq_some.mp read
          refine ⟨before, after, ⟨by simpa using digits, digits', .inr ⟨rfl, some'⟩⟩, short, ?_, fits.2⟩
          simp [scaledDigits]
    · rintro ⟨whole, fraction, m, short, rfl, fits⟩
      rcases m.split with ⟨none_, _⟩ | ⟨some_, _, nonempty⟩
      · rw [split_] at none_
        cases none_
      · rw [split_] at some_
        cases some_
        obtain ⟨digits, digits', _⟩ := m
        rw [if_neg (by simp [nonempty]), if_neg (by simp [digits])]
        have parts : ((scaledDigits scale (after.length % 256) before after : Nat) : Int) =
            digitsValue before * 10 ^ scale + digitsValue after * 10 ^ (scale - after.length % 256) := by
          simp [scaledDigits]
        have nonneg : (0 : Int) ≤ digitsValue before * 10 ^ scale := by positivity
        have nonneg' : (0 : Int) ≤ digitsValue after * 10 ^ (scale - after.length % 256) := by positivity
        rw [parts] at fits ⊢
        obtain ⟨m, first, second⟩ := Option.bind_eq_some_iff.mp
          ((@wholePart_eq_some scale _ before).mpr ⟨rfl, by omega⟩)
        have third := parseFraction_eq_some.mpr ⟨nonempty, short, digits', rfl, by omega⟩
        exact Option.bind_eq_some_iff.mpr ⟨m, first, Option.bind_eq_some_iff.mpr ⟨_, second,
          Option.bind_eq_some_iff.mpr ⟨_, third, checkedI128_eq_some.mpr ⟨rfl, by omega, fits⟩⟩⟩⟩

end Magnitudes

/-- Whether a `-` goes before the magnitude. -/
def negativeText (text : List Char) : Bool := (stripPlus text).head? = some '-'

def signOf (negative : Bool) : Int := if negative then -1 else 1

section Decimals

variable {text whole fraction body : List Char} {t : DecimalType} {d : Decimal}

theorem parseDecimal_eq_some : parseDecimal text t = some (.decimal d) ↔
    ∃ whole fraction, Magnitude (unsignedText text) whole fraction ∧ fraction.length % 256 ≤ t.scale ∧
      d.scale = t.scale ∧ d.unscaled.natAbs < 10 ^ t.precision ∧
      d.unscaled = signOf (negativeText text) * scaledDigits t.scale (fraction.length % 256) whole fraction := by
  have signed : parseDecimal text t = ((parseMagnitude t.scale (unsignedText text)).map (signOf (negativeText text) * ·)).bind
      fun n => if 10 ^ t.precision ≤ n.natAbs then none else (Decimal.new n t.scale).toOption.map .decimal := by
    unfold parseDecimal unsignedText negativeText
    split
    · rename_i rest stripped
      rw [stripped]
      simp [signOf]
    · rename_i other plain
      have head : ¬ (stripPlus text).head? = some '-' := by
        intro first
        obtain ⟨rest, listed⟩ := List.head?_eq_some_iff.mp first
        exact plain rest listed
      simp [signOf, head]
  have narrow : 10 ^ t.precision ≤ 10 ^ 38 := Nat.pow_le_pow_right (by decide) t.precision_le
  rw [signed]
  constructor
  · intro read
    obtain ⟨n, scaled, read⟩ := Option.bind_eq_some_iff.mp read
    obtain ⟨m, found, rfl⟩ := Option.map_eq_some_iff.mp scaled
    obtain ⟨whole, fraction, magnitude, short, rfl, _⟩ := parseMagnitude_eq_some.mp found
    split at read
    · cases read
    · rename_i small
      obtain ⟨e, built, same⟩ := Option.map_eq_some_iff.mp read
      cases same
      obtain ⟨unscaled, scale⟩ := Decimal.new_eq built
      exact ⟨whole, fraction, magnitude, short, scale, by rw [unscaled]; omega, unscaled⟩
  · rintro ⟨whole, fraction, magnitude, short, scale, small, unscaled⟩
    have fits : (scaledDigits t.scale (fraction.length % 256) whole fraction : Int) < 2 ^ 127 := by
      have same : d.unscaled.natAbs = scaledDigits t.scale (fraction.length % 256) whole fraction := by
        rw [unscaled, Int.natAbs_mul]
        cases negativeText text <;> simp [signOf]
      omega
    have found := parseMagnitude_eq_some.mpr ⟨whole, fraction, magnitude, short, rfl, fits⟩
    rw [found, Option.map_some, Option.bind_some, ← unscaled, if_neg (by omega), new_of_typed scale]
    rfl

/-- A text of at most one sign, taken apart. -/
theorem exists_sign (single : ¬ ['+', '-'] <+: text) : ∃ sign ∈ [[], ['+'], ['-']], text = sign ++ unsignedText text ∧
    (negativeText text = true ↔ sign = ['-']) := by
  cases text with
  | nil => exact ⟨[], by simp, rfl, by simp [negativeText, stripPlus]⟩
  | cons c rest =>
    by_cases plus : c = '+'
    · subst plus
      have positive : rest.head? ≠ some '-' := by
        intro first
        obtain ⟨more, rfl⟩ := List.head?_eq_some_iff.mp first
        exact single ⟨more, rfl⟩
      refine ⟨['+'], by simp, ?_, by simp [negativeText, stripPlus, positive]⟩
      cases rest with
      | nil => rfl
      | cons d more =>
        have other : d ≠ '-' := by
          rintro rfl
          exact positive rfl
        simp [unsignedText, stripPlus, other]
    · by_cases minus : c = '-'
      · subst minus
        exact ⟨['-'], by simp, rfl, by simp [negativeText, stripPlus]⟩
      · refine ⟨[], by simp, ?_, by simp [negativeText, stripPlus, plus, minus]⟩
        simp [unsignedText, stripPlus, plus, minus]

/-- A sign before a magnitude is what the parser takes off. -/
theorem unsigned_of_sign {sign : List Char} (one_ : sign ∈ [[], ['+'], ['-']]) (m : Magnitude body whole fraction) :
    unsignedText (sign ++ body) = body ∧ (negativeText (sign ++ body) = true ↔ sign = ['-']) ∧
      ¬ ['+', '-'] <+: sign ++ body := by
  obtain ⟨c, rest, rfl, first⟩ := m.head
  have plus : c ≠ '+' := by
    rintro rfl
    simp at first
  have minus : c ≠ '-' := by
    rintro rfl
    simp at first
  simp only [List.mem_cons, List.not_mem_nil, or_false] at one_
  rcases one_ with rfl | rfl | rfl
  · simp [unsignedText, negativeText, stripPlus, plus, minus, List.cons_prefix_cons, Ne.symm plus]
  · simp [unsignedText, negativeText, stripPlus, minus, List.cons_prefix_cons, Ne.symm minus]
  · simp [unsignedText, negativeText, stripPlus, List.cons_prefix_cons]

theorem number_eq_iff {sign : Int} (scale : d.scale = t.scale) (short : fraction.length ≤ t.scale) :
    d.unscaled = sign * scaledDigits t.scale fraction.length whole fraction ↔
      d.number = sign * (digitsValue whole + digitsValue fraction / 10 ^ fraction.length) := by
  have power : (10 : ℚ) ^ t.scale ≠ 0 := by positivity
  have split_ : (10 : ℚ) ^ t.scale = 10 ^ fraction.length * 10 ^ (t.scale - fraction.length) := by
    rw [← pow_add, Nat.add_sub_cancel' short]
  have digits : (sign * (digitsValue whole + digitsValue fraction / 10 ^ fraction.length) : ℚ) * 10 ^ t.scale =
      ((sign * scaledDigits t.scale fraction.length whole fraction : Int) : ℚ) := by
    simp only [scaledDigits]
    push_cast
    rw [split_]
    field_simp
  rw [Decimal.number, scale, div_eq_iff power, digits]
  exact Int.cast_inj.symm

end Decimals

/-- The parser's reading of a text is the decimal that the text denotes. -/
def ReadExactly (text : List Char) (t : DecimalType) : Prop :=
  ∀ d, parseDecimal text t = some (.decimal d) ↔ Denotes text t d

/-- A `+` before a `-`, or a fraction of 256 digits or more, with nothing else to refuse it by: the digits of the
    fraction counted modulo 256 are no more than the scale and those of the whole are within the precision. -/
def Misread (text : List Char) (t : DecimalType) : Prop :=
  ∃ whole fraction, Magnitude (unsignedText text) whole fraction ∧ (['+', '-'] <+: text ∨ 256 ≤ fraction.length) ∧
    fraction.length % 256 ≤ t.scale ∧ scaledDigits t.scale (fraction.length % 256) whole fraction < 10 ^ t.precision

section Reading

variable {text : List Char} {t : DecimalType} {d : Decimal}

theorem parse_of_denotes (denotes : Denotes text t d) : parseDecimal text t = some (.decimal d) := by
  obtain ⟨sign, whole, fraction, body, one_, rfl, m, short, scale, small, number⟩ := denotes
  obtain ⟨unsigned, negative, _⟩ := unsigned_of_sign one_ m
  have few : fraction.length % 256 = fraction.length := by
    apply Nat.mod_eq_of_lt
    have := t.scale_le
    have := t.precision_le
    omega
  refine parseDecimal_eq_some.mpr ⟨whole, fraction, by rw [unsigned]; exact m, by rw [few]; exact short, scale, small, ?_⟩
  rw [few, number_eq_iff scale short, number]
  congr 1
  by_cases minus : sign = ['-']
  · rw [if_pos minus, negative.mpr minus]
    simp [signOf]
  · have plain : negativeText (sign ++ body) = false := by
      rw [← Bool.not_eq_true, negative]
      exact minus
    simp [signOf, plain, minus]

theorem denotes_of_parse (clear_ : ¬ Misread text t) (read : parseDecimal text t = some (.decimal d)) : Denotes text t d := by
  obtain ⟨whole, fraction, m, short, scale, small, unscaled⟩ := parseDecimal_eq_some.mp read
  have within : scaledDigits t.scale (fraction.length % 256) whole fraction < 10 ^ t.precision := by
    have same : d.unscaled.natAbs = scaledDigits t.scale (fraction.length % 256) whole fraction := by
      rw [unscaled, Int.natAbs_mul]
      cases negativeText text <;> simp [signOf]
    omega
  have plain : ¬ (['+', '-'] <+: text ∨ 256 ≤ fraction.length) := fun wrong =>
    clear_ ⟨whole, fraction, m, wrong, short, within⟩
  have few : fraction.length % 256 = fraction.length := by
    apply Nat.mod_eq_of_lt
    omega
  obtain ⟨sign, one_, listed, negative⟩ := exists_sign fun double => plain (.inl double)
  rw [few] at short unscaled
  refine ⟨sign, whole, fraction, unsignedText text, one_, listed, m, short, scale, small, ?_⟩
  rw [number_eq_iff scale short] at unscaled
  rw [unscaled]
  congr 1
  by_cases minus : sign = ['-']
  · simp [signOf, negative.mpr minus, minus]
  · have positive : negativeText text = false := by
      rw [← Bool.not_eq_true, negative]
      exact minus
    simp [signOf, positive, minus]

/-- A misread text is read as a decimal, and denotes none. -/
theorem Misread.not_readExactly (misread : Misread text t) : ¬ ReadExactly text t := by
  obtain ⟨whole, fraction, m, wrong, short, within⟩ := misread
  have narrow : 10 ^ t.precision ≤ 10 ^ 38 := Nat.pow_le_pow_right (by decide) t.precision_le
  obtain ⟨d, unscaled, scale⟩ : ∃ d : Decimal,
      d.unscaled = signOf (negativeText text) * scaledDigits t.scale (fraction.length % 256) whole fraction ∧ d.scale = t.scale := by
    have size : (signOf (negativeText text) * scaledDigits t.scale (fraction.length % 256) whole fraction).natAbs < 10 ^ 38 := by
      rw [Int.natAbs_mul]
      cases negativeText text <;> simp [signOf] <;> omega
    exact ⟨⟨_, t.scale, t.scale_le.trans t.precision_le, size⟩, rfl, rfl⟩
  have small : d.unscaled.natAbs < 10 ^ t.precision := by
    rw [unscaled, Int.natAbs_mul]
    cases negativeText text <;> simp [signOf] <;> omega
  intro exact_
  obtain ⟨sign, whole', fraction', body, one_, rfl, m', short', _⟩ :=
    (exact_ d).mp (parseDecimal_eq_some.mpr ⟨whole, fraction, m, short, scale, small, unscaled⟩)
  obtain ⟨unsigned, _, single⟩ := unsigned_of_sign one_ m'
  rw [unsigned] at m
  obtain ⟨_, rfl⟩ := m.unique m'
  have := t.scale_le
  have := t.precision_le
  rcases wrong with double | many
  · exact single double
  · omega

end Reading

/-- A decimal text is read exactly, unless it is one of the misread ones. -/
theorem decimal_text_exact_iff (text : List Char) (t : DecimalType) : ReadExactly text t ↔ ¬ Misread text t := by
  constructor
  · intro exact_ misread
    exact misread.not_readExactly exact_
  · intro clear_ d
    exact ⟨denotes_of_parse clear_, parse_of_denotes⟩

theorem digitsValue_zeros (n : Nat) : digitsValue (List.replicate n '0' ++ ['5']) = 5 := by
  have zeros : digitsValue (List.replicate n '0') = 0 := by
    induction n with
    | zero => rfl
    | succ n ih => simpa [digitsValue, List.replicate_succ] using ih
  rw [digitsValue, List.foldl_append, ← digitsValue, zeros]
  rfl

/-- Zeros behind the point, as many as the last byte of their number forgets. -/
theorem misread_zeros {n : Nat} (many : 255 ≤ n) (wraps : (n + 1) % 256 = 0) :
    Misread ('0' :: '.' :: (List.replicate n '0' ++ ['5'])) ⟨1, 0, by decide, by decide, by decide⟩ := by
  have length : (List.replicate n '0' ++ ['5']).length = n + 1 := by simp
  have digits : (List.replicate n '0' ++ ['5']).all Char.isDigit = true := by simp
  refine ⟨['0'], List.replicate n '0' ++ ['5'], ⟨rfl, digits, .inr ⟨rfl, by simp⟩⟩, .inr (by omega), by omega, ?_⟩
  rw [length, wraps, scaledDigits, digitsValue_zeros]
  decide

/-- `5` behind 255 zeros, and `5` behind two signs, both read as DECIMAL(1, 0). -/
theorem decimal_text_misread :
    ¬ ReadExactly ('0' :: '.' :: (List.replicate 255 '0' ++ ['5'])) ⟨1, 0, by decide, by decide, by decide⟩ ∧
    ¬ ReadExactly ['+', '-', '5'] ⟨1, 0, by decide, by decide, by decide⟩ := by
  refine ⟨(misread_zeros (by decide) rfl).not_readExactly, Misread.not_readExactly ?_⟩
  exact ⟨['5'], [], ⟨rfl, rfl, .inl ⟨rfl, by simp, rfl⟩⟩, .inl ⟨['5'], rfl⟩, by simp, by decide⟩

end Adelie
