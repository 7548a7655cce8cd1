import Adelie.Sql.Json

namespace Adelie.Json

def isWs (c : Char) : Bool := c == ' ' || c == '\t' || c == '\n' || c == '\r'

def Ws (text : List Char) : Prop := ∀ c ∈ text, isWs c = true

def hexValue (c : Char) : Option Nat :=
  if 48 ≤ c.toNat ∧ c.toNat ≤ 57 then some (c.toNat - 48)
  else if 97 ≤ c.toNat ∧ c.toNat ≤ 102 then some (c.toNat - 87)
  else if 65 ≤ c.toNat ∧ c.toNat ≤ 70 then some (c.toNat - 55)
  else none

/-- Four hexadecimal digits and their value. -/
inductive HexFour : List Char → Nat → Prop
  | mk {a b c d : Char} {w x y z : Nat} (first : hexValue a = some w) (second : hexValue b = some x) (third : hexValue c = some y)
      (fourth : hexValue d = some z) : HexFour [a, b, c, d] (((w * 16 + x) * 16 + y) * 16 + z)

/-- What a letter behind a backslash means. -/
def shortMeaning : Char → Option Char
  | '"' => some '"'
  | '\\' => some '\\'
  | '/' => some '/'
  | 'b' => some (Char.ofNat 0x8)
  | 'f' => some (Char.ofNat 0xc)
  | 'n' => some '\n'
  | 'r' => some '\r'
  | 't' => some '\t'
  | _ => none

/-- The digits of a scalar, or of the two surrogates of one. -/
inductive Unicode : List Char → Char → Prop
  | unit {hex : List Char} {n : Nat} (four : HexFour hex n) (scalar : ¬ (0xD800 ≤ n ∧ n ≤ 0xDFFF)) : Unicode hex (Char.ofNat n)
  | pair {hex hex' : List Char} {m n : Nat} (four : HexFour hex m) (high : 0xD800 ≤ m ∧ m ≤ 0xDBFF) (four' : HexFour hex' n)
      (low : 0xDC00 ≤ n ∧ n ≤ 0xDFFF) : Unicode (hex ++ '\\' :: 'u' :: hex') (Char.ofNat (0x10000 + (m - 0xD800) * 2 ^ 10 + (n - 0xDC00)))

/-- What may stand behind a backslash, and the character it denotes. -/
inductive Escaped : List Char → Char → Prop
  | short {e c : Char} (meaning : shortMeaning e = some c) : Escaped [e] c
  | unicode {text : List Char} {c : Char} (digits : Unicode text c) : Escaped ('u' :: text) c

/-- What stands between quotes, and the text it denotes. -/
inductive StringText : List Char → List Char → Prop
  | nil : StringText [] []
  | plain {c : Char} {body text : List Char} (visible : 0x20 ≤ c.toNat) (quote : c ≠ '"') (slash : c ≠ '\\') (later : StringText body text) :
      StringText (c :: body) (c :: text)
  | escape {written body text : List Char} {c : Char} (escaped : Escaped written c) (later : StringText body text) :
      StringText ('\\' :: (written ++ body)) (c :: text)

def Digits (ds : List Char) : Prop := ds ≠ [] ∧ ∀ c ∈ ds, c.isDigit = true

/-- Digits with no zero in front of others. -/
def Whole (ds : List Char) : Prop := ds = ['0'] ∨ Digits ds ∧ ds.head? ≠ some '0'

inductive Fraction : List Char → Prop
  | none : Fraction []
  | some {ds : List Char} (digits : Digits ds) : Fraction ('.' :: ds)

inductive Exponent : List Char → Prop
  | none : Exponent []
  | some {e : Char} {sign ds : List Char} (mark : e = 'e' ∨ e = 'E') (signed : sign = [] ∨ sign = ['+'] ∨ sign = ['-']) (digits : Digits ds) :
      Exponent (e :: (sign ++ ds))

/-- A number with such digits before its point. -/
inductive Number (int : List Char → Prop) : List Char → Prop
  | mk {sign ds fraction exponent : List Char} (signed : sign = [] ∨ sign = ['-']) (before : int ds) (f : Fraction fraction)
      (x : Exponent exponent) : Number int (sign ++ (ds ++ (fraction ++ exponent)))

/-- A number of which a zero in front of other digits is the first. -/
def ZeroLed (text : List Char) : Prop :=
  ∃ sign d more, (sign = [] ∨ sign = ['-']) ∧ text = sign ++ '0' :: d :: more ∧ d.isDigit = true

/-- A value that holds no other. -/
inductive Scalar (number : List Char → Prop) : List Char → Json → Prop
  | null : Scalar number "null".toList .null
  | true_ : Scalar number "true".toList (.bool true)
  | false_ : Scalar number "false".toList (.bool false)
  | number {text : List Char} (written : number text) : Scalar number text (.number (String.ofList text))
  | string {body text : List Char} (written : StringText body text) : Scalar number ('"' :: (body ++ ['"'])) (.string (String.ofList text))

/-- Items with commas between them. -/
inductive Items {α : Type} (item : List Char → α → Prop) : List Char → List α → Prop
  | one {before text after : List Char} {a : α} (lead : Ws before) (written : item text a) (trail : Ws after) :
      Items item (before ++ (text ++ after)) [a]
  | more {before text after rest : List Char} {a : α} {as : List α} (lead : Ws before) (written : item text a) (trail : Ws after)
      (later : Items item rest as) : Items item (before ++ (text ++ (after ++ ',' :: rest))) (a :: as)

inductive Listed {α : Type} (item : List Char → α → Prop) : List Char → List α → Prop
  | none {text : List Char} (blank : Ws text) : Listed item text []
  | some {text : List Char} {as : List α} (items : Items item text as) : Listed item text as

inductive Member (value : List Char → Json → Prop) : List Char → String × Json → Prop
  | mk {body key before after text : List Char} {v : Json} (name : StringText body key) (lead : Ws before) (trail : Ws after)
      (written : value text v) : Member value ('"' :: (body ++ '"' :: (before ++ ':' :: (after ++ text)))) (String.ofList key, v)

inductive Container (value : List Char → Json → Prop) : List Char → Json → Prop
  | array {text : List Char} {items : List Json} (listed : Listed value text items) : Container value ('[' :: (text ++ [']'])) (.array items)
  | object {text : List Char} {members : List (String × Json)} (listed : Listed (Member value) text members) :
      Container value ('\x7b' :: (text ++ ['\x7d'])) (.object members)

/-- A text of JSON nested at most that deep, with such numbers, and the value it denotes. -/
def Text (number : List Char → Prop) : Nat → List Char → Json → Prop
  | 0 => Scalar number
  | n + 1 => fun text value => Scalar number text value ∨ Container (Text number n) text value

/-- A number that is somewhere in a value. -/
inductive NumberIn (text : String) : Json → Prop
  | number : NumberIn text (.number text)
  | array {items : List Json} {v : Json} (member : v ∈ items) (inside : NumberIn text v) : NumberIn text (.array items)
  | object {members : List (String × Json)} {m : String × Json} (member : m ∈ members) (inside : NumberIn text m.2) :
      NumberIn text (.object members)

section Numbers

variable {text : List Char}

theorem Whole.digits {ds : List Char} (whole : Whole ds) : Digits ds := by
  rcases whole with rfl | ⟨digits, _⟩
  · refine ⟨List.cons_ne_nil _ _, ?_⟩
    intro c member
    rw [List.mem_singleton.mp member]
    rfl
  · exact digits

theorem Number.mono {p q : List Char → Prop} (weaker : ∀ ds, p ds → q ds) (number : Number p text) : Number q text := by
  obtain ⟨signed, before, f, x⟩ := number
  exact .mk signed (weaker _ before) f x

/-- Past the digits before a point comes no digit. -/
theorem no_digit_after {fraction exponent : List Char} (f : Fraction fraction) (x : Exponent exponent) {c : Char} {more : List Char}
    (first : fraction ++ exponent = c :: more) : c.isDigit = false := by
  cases f with
  | none =>
    cases x with
    | none => cases first
    | some mark signed digits =>
      obtain ⟨rfl, _⟩ := List.cons.inj first
      rcases mark with rfl | rfl <;> rfl
  | some digits =>
    obtain ⟨rfl, _⟩ := List.cons.inj first
    rfl

theorem Number.not_zeroLed (number : Number Whole text) : ¬ ZeroLed text := by
  rintro ⟨sign', d, more, signed', same, digit_⟩
  obtain ⟨signed, whole, f, x⟩ := number
  rename_i sign ds fraction exponent
  obtain ⟨given, digits⟩ := whole.digits
  obtain ⟨c, ds, rfl⟩ := List.exists_cons_of_ne_nil given
  have first := digits c List.mem_cons_self
  have tail : (c :: ds) ++ (fraction ++ exponent) = '0' :: d :: more := by
    rcases signed with rfl | rfl <;> rcases signed' with rfl | rfl
    · exact same
    · obtain ⟨rfl, _⟩ := List.cons.inj same
      cases first
    · obtain ⟨different, _⟩ := List.cons.inj same
      exact absurd different (by decide)
    · exact (List.cons.inj same).2
  rw [List.cons_append] at tail
  obtain ⟨zero, behind⟩ := List.cons.inj tail
  rcases whole with single | ⟨_, other⟩
  · rw [(List.cons.inj single).2, List.nil_append] at behind
    rw [no_digit_after f x behind] at digit_
    cases digit_
  · exact other (congrArg some zero)

theorem Number.whole (number : Number Digits text) (plain : ¬ ZeroLed text) : Number Whole text := by
  obtain ⟨signed, digits, f, x⟩ := number
  rename_i sign ds fraction exponent
  refine .mk signed ?_ f x
  by_cases zero : ds.head? = some '0'
  · obtain ⟨more, rfl⟩ := List.head?_eq_some_iff.mp zero
    cases more with
    | nil => exact .inl rfl
    | cons d more =>
      exact absurd ⟨sign, d, _, signed, rfl, digits.2 d (List.mem_cons_of_mem _ List.mem_cons_self)⟩ plain
  · exact .inr ⟨digits, zero⟩

end Numbers

section Values

variable {p q : List Char → Prop} {value value' : List Char → Json → Prop} {text : List Char}

theorem Items.map {α : Type} {item item' : List Char → α → Prop} {as : List α} (items : Items item text as)
    (each : ∀ a ∈ as, ∀ written, item written a → item' written a) : Items item' text as := by
  induction items with
  | one lead written trail => exact .one lead (each _ List.mem_cons_self _ written) trail
  | more lead written trail later ih =>
    exact .more lead (each _ List.mem_cons_self _ written) trail (ih fun a member => each a (List.mem_cons_of_mem _ member))

theorem Listed.map {α : Type} {item item' : List Char → α → Prop} {as : List α} (listed : Listed item text as)
    (each : ∀ a ∈ as, ∀ written, item written a → item' written a) : Listed item' text as := by
  cases listed with
  | none blank => exact .none blank
  | some items => exact .some (items.map each)

theorem Items.of_mem {α : Type} {item : List Char → α → Prop} {as : List α} {a : α} (items : Items item text as) (member : a ∈ as) :
    ∃ written, item written a := by
  induction items with
  | one lead written trail =>
    rw [List.mem_singleton.mp member]
    exact ⟨_, written⟩
  | more lead written trail later ih =>
    rcases List.mem_cons.mp member with rfl | inside
    · exact ⟨_, written⟩
    · exact ih inside

theorem Listed.of_mem {α : Type} {item : List Char → α → Prop} {as : List α} {a : α} (listed : Listed item text as) (member : a ∈ as) :
    ∃ written, item written a := by
  cases listed with
  | none blank => exact absurd member List.not_mem_nil
  | some items => exact items.of_mem member

theorem Text.mono_scalar {n : Nat} {v : Json} (scalar : Scalar p text v) : Text p n text v := by
  cases n with
  | zero => exact scalar
  | succ n => exact .inl scalar

/-- Another rule for numbers admits a text where it admits the numbers in it. -/
theorem Text.refine {n : Nat} {v : Json} (written : Text p n text v) (numbers : ∀ t, NumberIn (String.ofList t) v → p t → q t) :
    Text q n text v := by
  have scalars : ∀ {text v}, Scalar p text v → (∀ t, NumberIn (String.ofList t) v → p t → q t) → Scalar q text v := by
    intro text v scalar numbers
    cases scalar with
    | null => exact .null
    | true_ => exact .true_
    | false_ => exact .false_
    | number written => exact .number (numbers _ .number written)
    | string written => exact .string written
  induction n generalizing text v with
  | zero => exact scalars written numbers
  | succ n ih =>
    rcases written with scalar | container
    · exact .inl (scalars scalar numbers)
    · right
      cases container with
      | array listed => exact .array (listed.map fun v member text written => ih written fun t inside => numbers t (.array member inside))
      | object listed =>
        apply Container.object
        apply listed.map
        rintro m member text ⟨name, lead, trail, written⟩
        exact .mk name lead trail (ih written fun t inside => numbers t (.object member inside))

theorem Text.numbers {n : Nat} {v : Json} {t : String} (written : Text p n text v) (inside : NumberIn t v) : p t.toList := by
  have scalars : ∀ {text v}, Scalar p text v → NumberIn t v → p t.toList := by
    intro text v scalar inside
    cases scalar with
    | number written =>
      cases inside
      rwa [String.toList_ofList]
    | null => cases inside
    | true_ => cases inside
    | false_ => cases inside
    | string written => cases inside
  induction n generalizing text v with
  | zero => exact scalars written inside
  | succ n ih =>
    rcases written with scalar | container
    · exact scalars scalar inside
    · cases container with
      | array listed =>
        cases inside with
        | array member inside =>
          obtain ⟨_, written⟩ := listed.of_mem member
          exact ih written inside
      | object listed =>
        cases inside with
        | object member inside =>
          obtain ⟨_, written⟩ := listed.of_mem member
          cases written with
          | mk name lead trail written => exact ih written inside

end Values

section Writing

variable {p : List Char → Prop} {text : List Char}

theorem hexValue_hexDigit {n : Nat} (small : n < 16) : hexValue (hexDigit n) = some n := by
  have all : ∀ k < 16, hexValue (hexDigit k) = some k := by decide
  exact all n small

theorem hexFour_written {n : Nat} (small : n < 16 ^ 4) :
    HexFour [hexDigit (n / 16 ^ 3 % 16), hexDigit (n / 16 ^ 2 % 16), hexDigit (n / 16 % 16), hexDigit (n % 16)] n := by
  have digit (k : Nat) : hexValue (hexDigit (k % 16)) = some (k % 16) := hexValue_hexDigit (Nat.mod_lt k (by decide))
  have four := HexFour.mk (digit (n / 16 ^ 3)) (digit (n / 16 ^ 2)) (digit (n / 16)) (digit n)
  have whole : ((n / 16 ^ 3 % 16 * 16 + n / 16 ^ 2 % 16) * 16 + n / 16 % 16) * 16 + n % 16 = n := by omega
  rwa [whole] at four

/-- A character as it is quoted. -/
theorem StringText.quoted (c : Char) {body text : List Char} (later : StringText body text) : StringText (quoteChar c ++ body) (c :: text) := by
  rw [quoteChar]
  split_ifs with quote slash newline return_ tab control
  · subst quote
    exact .escape (.short rfl) later
  · subst slash
    exact .escape (.short rfl) later
  · subst newline
    exact .escape (.short rfl) later
  · subst return_
    exact .escape (.short rfl) later
  · subst tab
    exact .escape (.short rfl) later
  · have digits := Unicode.unit (hexFour_written (by omega : c.toNat < 16 ^ 4)) (by omega)
    rw [Char.ofNat_toNat] at digits
    exact .escape (.unicode digits) later
  · exact .plain (by omega) quote slash later

theorem stringText_quote (text : List Char) : StringText (text.flatMap quoteChar) text := by
  induction text with
  | nil => exact .nil
  | cons c text ih =>
    rw [List.flatMap_cons]
    exact ih.quoted c

theorem ws_nil : Ws [] := fun _ member => absurd member List.not_mem_nil

/-- Items joined by commas. -/
theorem Listed.joined {α : Type} {item : List Char → α → Prop} {as : List α} {write : α → List Char} (each : ∀ a ∈ as, item (write a) a) :
    Listed item ([','].intercalate (as.map write)) as := by
  cases as with
  | nil => exact .none ws_nil
  | cons a as =>
    apply Listed.some
    induction as generalizing a with
    | nil =>
      have one := Items.one ws_nil (each a List.mem_cons_self) ws_nil
      simpa using one
    | cons b as ih =>
      have more := Items.more ws_nil (each a List.mem_cons_self) ws_nil (ih b fun c member => each c (List.mem_cons_of_mem _ member))
      simpa [List.intercalate, List.intersperse] using more

/-- A value of a text is written by a text that denotes it. -/
theorem Text.written {n : Nat} {v : Json} (written : Text p n text v) : Text p n (toJsonText v) v := by
  have scalars : ∀ {text v}, Scalar p text v → Scalar p (toJsonText v) v := by
    intro text v scalar
    cases scalar with
    | null =>
      rw [toJsonText]
      exact .null
    | true_ =>
      rw [toJsonText]
      exact .true_
    | false_ =>
      rw [toJsonText]
      exact .false_
    | number written =>
      rw [toJsonText, String.toList_ofList]
      exact .number written
    | string written =>
      rw [toJsonText, quoteJsonString, String.toList_ofList]
      exact .string (stringText_quote _)
  induction n generalizing text v with
  | zero => exact scalars written
  | succ n ih =>
    rcases written with scalar | container
    · exact .inl (scalars scalar)
    · right
      cases container with
      | array listed =>
        rw [toJsonText]
        apply Container.array
        apply Listed.joined
        intro v member
        obtain ⟨_, written⟩ := listed.of_mem member
        exact ih written
      | object listed =>
        rw [toJsonText]
        apply Container.object
        apply Listed.joined
        rintro ⟨key, v⟩ member
        obtain ⟨_, written⟩ := listed.of_mem member
        cases written with
        | @mk body key before after text v name lead trail written =>
          have run := Member.mk (stringText_quote key) ws_nil ws_nil (ih written)
          simpa [quoteJsonString] using run

end Writing

section Ends

variable {text : List Char}

/-- A character that may begin a value. -/
def Begins (c : Char) : Prop := c ∈ ['\x7b', '[', '"', 't', 'f', 'n', '-'] ∨ c.isDigit = true

/-- A value begins with a character of its own and ends with one. -/
theorem Number.begins (number : Number Digits text) : ∃ c more, text = c :: more ∧ (c = '-' ∨ c.isDigit = true) := by
  obtain ⟨signed, ⟨given, digits⟩, f, x⟩ := number
  rename_i sign ds fraction exponent
  obtain ⟨d, ds, rfl⟩ := List.exists_cons_of_ne_nil given
  rcases signed with rfl | rfl
  · exact ⟨d, _, rfl, .inr (digits d List.mem_cons_self)⟩
  · exact ⟨'-', _, rfl, .inl rfl⟩

theorem Scalar.begins {v : Json} (scalar : Scalar (Number Digits) text v) : ∃ c more, text = c :: more ∧ Begins c := by
  cases scalar with
  | null => exact ⟨'n', _, rfl, .inl (by decide)⟩
  | true_ => exact ⟨'t', _, rfl, .inl (by decide)⟩
  | false_ => exact ⟨'f', _, rfl, .inl (by decide)⟩
  | number number =>
    obtain ⟨c, more, rfl, first⟩ := number.begins
    rcases first with rfl | digit_
    · exact ⟨'-', more, rfl, .inl (by decide)⟩
    · exact ⟨c, more, rfl, .inr digit_⟩
  | string written => exact ⟨'"', _, rfl, .inl (by decide)⟩

theorem Text.begins {n : Nat} {v : Json} (written : Text (Number Digits) n text v) : ∃ c more, text = c :: more ∧ Begins c := by
  cases n with
  | zero => exact Scalar.begins written
  | succ n =>
    rcases written with scalar | container
    · exact scalar.begins
    · cases container with
      | array listed => exact ⟨'[', _, rfl, .inl (by decide)⟩
      | object listed => exact ⟨'\x7b', _, rfl, .inl (by decide)⟩

theorem Begins.other {c d : Char} (begins : Begins c) (other : d ∉ ['\x7b', '[', '"', 't', 'f', 'n', '-']) (digit_ : d.isDigit = false) : c ≠ d := by
  rintro rfl
  rcases begins with known | known
  · exact other known
  · rw [digit_] at known
    cases known

theorem Begins.not_ws {c : Char} (begins : Begins c) : isWs c = false := by
  have space := begins.other (by decide : ' ' ∉ _) rfl
  have tab := begins.other (by decide : '\t' ∉ _) rfl
  have newline := begins.other (by decide : '\n' ∉ _) rfl
  have return_ := begins.other (by decide : '\r' ∉ _) rfl
  simp [isWs, space, tab, newline, return_]

end Ends

end Adelie.Json
