import Mathlib.Data.List.Basic

namespace Adelie.Utf8

/-- The bytes of a text. -/
def encode (cs : List Char) : List UInt8 := cs.flatMap String.utf8EncodeChar

def size (cs : List Char) : Nat := (encode cs).length

/-- The text from a byte on: none off the boundaries of its characters. -/
def slice : List Char → Nat → Option (List Char)
  | cs, 0 => some cs
  | [], _ + 1 => none
  | c :: cs, n + 1 => if c.utf8Size ≤ n + 1 then slice cs (n + 1 - c.utf8Size) else none

/-- The characters of that many bytes. -/
def takeBytes : List Char → Nat → Option (List Char)
  | _, 0 => some []
  | [], _ + 1 => none
  | c :: cs, n + 1 => if c.utf8Size ≤ n + 1 then (takeBytes cs (n + 1 - c.utf8Size)).map (c :: ·) else none

/-- The text between two bytes. -/
def range (cs : List Char) (i j : Nat) : Option (List Char) :=
  (slice cs i).bind fun rest => if i ≤ j then takeBytes rest (j - i) else none

/-- The one byte of an ASCII character. -/
def byteOf (c : Char) : UInt8 := UInt8.ofNat c.toNat

def Ascii (c : Char) : Prop := c.toNat < 128

instance (c : Char) : Decidable (Ascii c) := inferInstanceAs (Decidable (_ < _))

section Encoding

variable {c a : Char} {cs rest : List Char}

@[simp] theorem encode_nil : encode [] = [] := rfl

@[simp] theorem encode_cons : encode (c :: cs) = String.utf8EncodeChar c ++ encode cs := List.flatMap_cons

@[simp] theorem encode_append : encode (cs ++ rest) = encode cs ++ encode rest := List.flatMap_append

@[simp] theorem size_nil : size [] = 0 := rfl

@[simp] theorem size_cons : size (c :: cs) = c.utf8Size + size cs := by
  rw [size, encode_cons, List.length_append, String.length_utf8EncodeChar]
  rfl

@[simp] theorem size_append : size (cs ++ rest) = size cs + size rest := by
  rw [size, encode_append, List.length_append]
  rfl

theorem encodeChar_ascii (ascii : Ascii c) : String.utf8EncodeChar c = [byteOf c] := by
  have small : c.val.toNat ≤ 0x7f := Nat.le_of_lt_succ ascii
  exact if_pos small

theorem utf8Size_ascii (ascii : Ascii c) : c.utf8Size = 1 := by
  rw [← String.length_utf8EncodeChar, encodeChar_ascii ascii]
  rfl

/-- Past ASCII, no byte is an ASCII character's. -/
theorem encodeChar_high (high : ¬ Ascii c) {b : UInt8} (member : b ∈ String.utf8EncodeChar c) : 128 ≤ b.toNat := by
  have big : ¬ c.val.toNat ≤ 0x7f := fun small => high (Nat.lt_succ_of_le small)
  unfold String.utf8EncodeChar at member
  simp only [if_neg big] at member
  split_ifs at member
  all_goals
    simp only [List.mem_cons, List.not_mem_nil, or_false] at member
    rcases member with rfl | rfl | rfl | rfl <;> rw [UInt8.toNat_ofNat'] <;> omega

theorem byteOf_toNat (ascii : Ascii c) : (byteOf c).toNat = c.toNat := by
  have small : c.toNat < 128 := ascii
  rw [byteOf, UInt8.toNat_ofNat']
  omega

theorem byteOf_inj (ascii : Ascii a) (ascii' : Ascii c) (same : byteOf a = byteOf c) : a = c := by
  have values := congrArg UInt8.toNat same
  rw [byteOf_toNat ascii, byteOf_toNat ascii'] at values
  exact Char.ext (UInt32.toNat_inj.mp values)

/-- A byte of an ASCII character begins that character. -/
theorem head_encode (ascii : Ascii a) : (encode rest).head? = some (byteOf a) ↔ rest.head? = some a := by
  cases rest with
  | nil => simp
  | cons c rest =>
    rw [List.head?_cons, encode_cons, Option.some.injEq]
    by_cases small : Ascii c
    · rw [encodeChar_ascii small, List.singleton_append, List.head?_cons, Option.some.injEq]
      exact ⟨byteOf_inj small ascii, fun same => same ▸ rfl⟩
    · constructor
      · intro first
        have member : byteOf a ∈ String.utf8EncodeChar c := by
          cases bytes : String.utf8EncodeChar c with
          | nil => exact absurd bytes String.utf8EncodeChar_ne_nil
          | cons b more =>
            rw [bytes, List.cons_append, List.head?_cons] at first
            exact Option.some.inj first ▸ List.mem_cons_self
        have big := encodeChar_high small member
        rw [byteOf_toNat ascii] at big
        exact absurd (show a.toNat < 128 from ascii) (Nat.not_lt.mpr big)
      · rintro rfl
        exact absurd ascii small

end Encoding

section Bytes

variable {a c : Char} {b : UInt8}

theorem encode_ascii (ascii : Ascii c) (cs : List Char) : encode (c :: cs) = byteOf c :: encode cs := by
  rw [encode_cons, encodeChar_ascii ascii, List.singleton_append]

theorem encode_high (high : ¬ Ascii c) (cs : List Char) : ∃ b bytes, encode (c :: cs) = b :: bytes ∧ 128 ≤ b.toNat := by
  rw [encode_cons]
  cases bytes : String.utf8EncodeChar c with
  | nil => exact absurd bytes String.utf8EncodeChar_ne_nil
  | cons b more => exact ⟨b, _, rfl, encodeChar_high high (bytes ▸ List.mem_cons_self)⟩

theorem byteOf_eq (ascii : Ascii c) (ascii' : Ascii a) : byteOf c = byteOf a ↔ c = a :=
  ⟨byteOf_inj ascii ascii', fun same => same ▸ rfl⟩

theorem high_ne (high : 128 ≤ b.toNat) (ascii : Ascii a) : b ≠ byteOf a := by
  rintro rfl
  rw [byteOf_toNat ascii] at high
  exact absurd (show a.toNat < 128 from ascii) (Nat.not_lt.mpr high)

/-- An ASCII word begins the bytes where it begins the text. -/
theorem prefix_encode {word : List Char} (ascii : ∀ c ∈ word, Ascii c) (cs : List Char) : encode word <+: encode cs ↔ word <+: cs := by
  constructor
  · intro first
    induction word generalizing cs with
    | nil => exact List.nil_prefix
    | cons w word ih =>
      have small := ascii w List.mem_cons_self
      rw [encode_ascii small] at first
      have head : (encode cs).head? = some (byteOf w) := by
        obtain ⟨more, whole⟩ := first
        rw [← whole]
        rfl
      obtain ⟨rest, rfl⟩ := List.head?_eq_some_iff.mp ((head_encode small).mp head)
      rw [encode_ascii small, List.prefix_cons_inj] at first
      exact (List.prefix_cons_inj w).mpr (ih (fun c member => ascii c (List.mem_cons_of_mem _ member)) rest first)
  · rintro ⟨rest, rfl⟩
    exact ⟨encode rest, encode_append.symm⟩

end Bytes

section Classes

theorem byte_not_mem {c a : Char} (ascii : Ascii a) (other : c ≠ a) : byteOf a ∉ String.utf8EncodeChar c := by
  intro member
  by_cases small : Ascii c
  · rw [encodeChar_ascii small, List.mem_singleton] at member
    exact other (byteOf_inj ascii small member).symm
  · have big := encodeChar_high small member
    rw [byteOf_toNat ascii] at big
    exact absurd (show a.toNat < 128 from ascii) (Nat.not_lt.mpr big)

def digit (b : UInt8) : Bool := 48 ≤ b && b ≤ 57

theorem digit_byteOf {c : Char} (ascii : Ascii c) : digit (byteOf c) = c.isDigit := by
  have value : (byteOf c).toNat = c.val.toNat := byteOf_toNat ascii
  rw [digit, Char.isDigit, ← Bool.coe_iff_coe]
  simp only [Bool.and_eq_true, decide_eq_true_eq, UInt8.le_iff_toNat_le, UInt32.le_iff_toNat_le, ge_iff_le, value]
  rfl

theorem ascii_of_isDigit {c : Char} (digit_ : c.isDigit = true) : Ascii c := by
  rw [Char.isDigit] at digit_
  simp only [Bool.and_eq_true, decide_eq_true_eq, UInt32.le_iff_toNat_le] at digit_
  have value : c.toNat = c.val.toNat := rfl
  have last : '9'.val.toNat = 57 := rfl
  unfold Ascii
  omega

/-- A digit byte begins a digit. -/
theorem digit_head (text : List Char) : (encode text).head?.any digit = text.head?.any Char.isDigit := by
  cases text with
  | nil => rfl
  | cons c text =>
    rw [encode_cons, List.head?_cons, Option.any_some]
    by_cases small : Ascii c
    · rw [encodeChar_ascii small, List.singleton_append, List.head?_cons, Option.any_some, digit_byteOf small]
    · have no : c.isDigit = false := Bool.eq_false_iff.mpr fun digit_ => small (ascii_of_isDigit digit_)
      rw [no]
      cases bytes : String.utf8EncodeChar c with
      | nil => exact absurd bytes String.utf8EncodeChar_ne_nil
      | cons b more =>
        have big := encodeChar_high small (bytes ▸ List.mem_cons_self : b ∈ String.utf8EncodeChar c)
        rw [List.cons_append, List.head?_cons, Option.any_some, digit]
        simp only [Bool.and_eq_false_iff, decide_eq_false_iff_not, UInt8.le_iff_toNat_le]
        right
        have last : (57 : UInt8).toNat = 57 := rfl
        omega

theorem takeWhile_stop {p : Char → Bool} {cs rest : List Char} (all : ∀ c ∈ cs, p c = true) (stop : ∀ c, rest.head? = some c → p c = false) : (cs ++ rest).takeWhile p = cs := by
  rw [List.takeWhile_append_of_pos all]
  cases rest with
  | nil => exact List.append_nil cs
  | cons c rest => rw [List.takeWhile_cons_of_neg (by rw [stop c rfl]; decide), List.append_nil]

theorem dropWhile_stop {p : Char → Bool} {cs rest : List Char} (all : ∀ c ∈ cs, p c = true) (stop : ∀ c, rest.head? = some c → p c = false) :
    (cs ++ rest).dropWhile p = rest := by
  rw [List.dropWhile_append_of_pos all]
  cases rest with
  | nil => rfl
  | cons c rest => exact List.dropWhile_cons_of_neg (by rw [stop c rfl]; decide)

/-- A class of bytes that is a class of ASCII characters. -/
structure Classes (p : UInt8 → Bool) (q : Char → Bool) : Prop where
  ascii : ∀ c, Ascii c → p (byteOf c) = q c
  high : ∀ b : UInt8, 128 ≤ b.toNat → p b = false
  beyond : ∀ c, ¬ Ascii c → q c = false

namespace Classes

variable {p : UInt8 → Bool} {q : Char → Bool}

theorem encode_stop (classes : Classes p q) {c : Char} (other : q c = false) (cs : List Char) :
    ∃ b bytes, encode (c :: cs) = b :: bytes ∧ p b = false := by
  rw [encode_cons]
  by_cases small : Ascii c
  · rw [encodeChar_ascii small, List.singleton_append]
    exact ⟨_, _, rfl, by rw [classes.ascii c small, other]⟩
  · cases bytes : String.utf8EncodeChar c with
    | nil => exact absurd bytes String.utf8EncodeChar_ne_nil
    | cons b more => exact ⟨b, _, rfl, classes.high b (encodeChar_high small (bytes ▸ List.mem_cons_self))⟩

theorem encode_take (classes : Classes p q) {c : Char} (member : q c = true) (cs : List Char) :
    encode (c :: cs) = byteOf c :: encode cs ∧ p (byteOf c) = true := by
  have small : Ascii c := by
    by_contra large
    rw [classes.beyond c large] at member
    cases member
  rw [encode_cons, encodeChar_ascii small, List.singleton_append, classes.ascii c small]
  exact ⟨rfl, member⟩

theorem takeWhile (classes : Classes p q) (cs : List Char) : (encode cs).takeWhile p = encode (cs.takeWhile q) := by
  induction cs with
  | nil => rfl
  | cons c cs ih =>
    by_cases member : q c = true
    · obtain ⟨bytes, known⟩ := classes.encode_take member cs
      rw [bytes, List.takeWhile_cons_of_pos known, List.takeWhile_cons_of_pos member, (classes.encode_take member _).1, ih]
    · obtain ⟨b, more, bytes, known⟩ := classes.encode_stop (Bool.eq_false_iff.mpr member) cs
      rw [bytes, List.takeWhile_cons_of_neg (by rw [known]; decide), List.takeWhile_cons_of_neg member]
      rfl

theorem dropWhile (classes : Classes p q) (cs : List Char) : (encode cs).dropWhile p = encode (cs.dropWhile q) := by
  induction cs with
  | nil => rfl
  | cons c cs ih =>
    by_cases member : q c = true
    · obtain ⟨bytes, known⟩ := classes.encode_take member cs
      rw [bytes, List.dropWhile_cons_of_pos known, List.dropWhile_cons_of_pos member, ih]
    · obtain ⟨b, more, bytes, known⟩ := classes.encode_stop (Bool.eq_false_iff.mpr member) cs
      rw [bytes, List.dropWhile_cons_of_neg (by rw [known]; decide), List.dropWhile_cons_of_neg member, bytes]

end Classes

/-- What the first byte of a text says of its first character. -/
theorem encode_first (c : Char) (rest : List Char) :
    ∃ b bytes, encode (c :: rest) = b :: bytes ∧ (∀ a, Ascii a → (b = byteOf a ↔ c = a)) ∧ (∀ p q, Classes p q → p b = q c) ∧
      (Ascii c → bytes = encode rest) := by
  by_cases small : Ascii c
  · refine ⟨byteOf c, encode rest, encode_ascii small rest, fun a ascii => byteOf_eq small ascii, ?_, fun _ => rfl⟩
    exact fun p q classes => classes.ascii c small
  · obtain ⟨b, bytes, begins, high⟩ := encode_high small rest
    refine ⟨b, bytes, begins, ?_, ?_, fun ascii => absurd ascii small⟩
    · intro a ascii
      constructor
      · exact fun same => absurd same (high_ne high ascii)
      · rintro rfl
        exact absurd ascii small
    · intro p q classes
      rw [classes.high b high, classes.beyond c small]

theorem digit_classes : Classes digit Char.isDigit where
  ascii := fun _ ascii => digit_byteOf ascii
  high := by
    intro b high
    have last : (57 : UInt8).toNat = 57 := rfl
    rw [digit, Bool.and_eq_false_iff, decide_eq_false_iff_not, decide_eq_false_iff_not]
    right
    rw [UInt8.le_iff_toNat_le]
    omega
  beyond := by
    intro c large
    by_contra digit_
    exact large (ascii_of_isDigit (Bool.not_eq_false _ ▸ digit_))

end Classes

/-- A byte of a text at which what is left of it begins. -/
def At (cs : List Char) (i : Nat) (rest : List Char) : Prop := ∃ before, cs = before ++ rest ∧ size before = i

namespace At

variable {cs rest mid : List Char} {c : Char} {i : Nat}

theorem start (cs : List Char) : At cs 0 cs := ⟨[], rfl, rfl⟩

theorem advance (at_ : At cs i (mid ++ rest)) : At cs (i + size mid) rest := by
  obtain ⟨before, rfl, rfl⟩ := at_
  exact ⟨before ++ mid, (List.append_assoc ..).symm, size_append⟩

theorem next (at_ : At cs i (c :: rest)) : At cs (i + c.utf8Size) rest := by
  have moved := @advance cs rest [c] i at_
  rwa [size_cons, size_nil, Nat.add_zero] at moved

theorem past {text used : List Char} (at_ : At cs i text) (first : used <+: text) : At cs (i + size used) (text.drop used.length) := by
  apply advance
  rwa [List.prefix_iff_eq_append.mp first]

theorem slice (at_ : At cs i rest) : slice cs i = some rest := by
  obtain ⟨before, rfl, rfl⟩ := at_
  induction before with
  | nil => cases rest <;> rfl
  | cons c before ih =>
    have pos := c.utf8Size_pos
    rw [size_cons, List.cons_append]
    obtain ⟨n, whole⟩ : ∃ n, c.utf8Size + size before = n + 1 := ⟨c.utf8Size + size before - 1, by omega⟩
    rw [whole, Utf8.slice, if_pos (by omega), ← whole, Nat.add_sub_cancel_left]
    exact ih

theorem range (at_ : At cs i (mid ++ rest)) : range cs i (i + size mid) = some mid := by
  rw [Utf8.range, at_.slice, Option.bind_some, if_pos (Nat.le_add_right _ _), Nat.add_sub_cancel_left]
  clear at_
  induction mid with
  | nil => cases rest <;> rfl
  | cons c mid ih =>
    have pos := c.utf8Size_pos
    rw [size_cons, List.cons_append]
    obtain ⟨n, whole⟩ : ∃ n, c.utf8Size + size mid = n + 1 := ⟨c.utf8Size + size mid - 1, by omega⟩
    rw [whole, takeBytes, if_pos (by omega), ← whole, Nat.add_sub_cancel_left, ih]
    rfl

theorem drop (at_ : At cs i rest) : (encode cs).drop i = encode rest := by
  obtain ⟨before, rfl, rfl⟩ := at_
  rw [encode_append, size, List.drop_left]

theorem byte (at_ : At cs i rest) (k : Nat) : (encode cs)[i + k]? = (encode rest)[k]? := by
  rw [← at_.drop, List.getElem?_drop]

theorem first (at_ : At cs i rest) : (encode cs)[i]? = (encode rest).head? := by
  rw [List.head?_eq_getElem?, ← at_.byte, Nat.add_zero]

theorem length (at_ : At cs i rest) : (encode cs).length = i + size rest := by
  obtain ⟨before, rfl, rfl⟩ := at_
  exact size_append

theorem lt_length (at_ : At cs i (c :: rest)) : i < (encode cs).length := by
  have pos := c.utf8Size_pos
  rw [at_.length, size_cons]
  omega

end At

/-- A byte at which a character begins, or the end. -/
def Boundary (cs : List Char) (i : Nat) : Prop := ∃ rest, At cs i rest

end Adelie.Utf8
