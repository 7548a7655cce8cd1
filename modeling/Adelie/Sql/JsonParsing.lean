import Adelie.Sql.JsonText

namespace Adelie.Json

open Utf8

/-- A result of bytes read that is what a grammar makes of their text, before what may follow. -/
structure Reads {α : Type} (written : List Char → α → Prop) (follow : List Char → Prop) (cs : List Char)
    (r : Except Stop (α × List UInt8)) : Prop where
  sound : ∀ a bytes, r = .ok (a, bytes) → ∃ text rest, cs = text ++ rest ∧ written text a ∧ bytes = encode rest
  complete : ∀ text rest a, cs = text ++ rest → written text a → follow rest → r = .ok (a, encode rest)
  safe : ∀ s, r = .error s → ∃ m, s = .message m

namespace Reads

variable {α β : Type} {w : List Char → α → Prop} {f : List Char → Prop} {cs : List Char} {r : Except Stop (α × List UInt8)}

theorem fail (m : String) (none_ : ∀ text rest a, cs = text ++ rest → w text a → ¬ f rest) : Reads w f cs (.error (.message m)) where
  sound := fun _ _ read => by cases read
  complete := fun text rest a whole written follow => absurd follow (none_ text rest a whole written)
  safe := by
    intro s stopped
    cases stopped
    exact ⟨m, rfl⟩

theorem pure (a : α) : Reads (fun text b => text = [] ∧ b = a) f cs (.ok (a, encode cs)) where
  sound := by
    intro b bytes read
    cases read
    exact ⟨[], cs, rfl, ⟨rfl, rfl⟩, rfl⟩
  complete := by
    rintro text rest b rfl ⟨rfl, rfl⟩ _
    rfl
  safe := fun _ stopped => by cases stopped

theorem bind {w' : α → List Char → β → Prop} {g : List Char → Prop} {q : α → List UInt8 → Except Stop (β × List UInt8)}
    (first : Reads w f cs r)
    (second : ∀ a text rest, cs = text ++ rest → w text a → Reads (w' a) g rest (q a (encode rest)))
    (leads : ∀ a text rest b, w' a text b → g rest → f (text ++ rest)) :
    Reads (fun text b => ∃ t t' a, text = t ++ t' ∧ w t a ∧ w' a t' b) g cs (r.bind fun x => q x.1 x.2) where
  sound := by
    intro b bytes read
    cases ran : r with
    | error s =>
      rw [ran] at read
      cases read
    | ok x =>
      obtain ⟨a, bytes'⟩ := x
      obtain ⟨text, rest, rfl, written, rfl⟩ := first.sound a bytes' ran
      rw [ran] at read
      obtain ⟨text', rest', rfl, written', rfl⟩ := (second a text rest rfl written).sound b bytes read
      exact ⟨text ++ text', rest', (List.append_assoc ..).symm, ⟨text, text', a, rfl, written, written'⟩, rfl⟩
  complete := by
    rintro _ rest b whole ⟨t, t', a, rfl, written, written'⟩ follow
    rw [List.append_assoc] at whole
    rw [first.complete t (t' ++ rest) a whole written (leads a t' rest b written' follow)]
    exact (second a t (t' ++ rest) whole written).complete t' rest b rfl written' follow
  safe := by
    intro s stopped
    cases ran : r with
    | error s' =>
      obtain ⟨m, rfl⟩ := first.safe s' ran
      rw [ran] at stopped
      cases stopped
      exact ⟨m, rfl⟩
    | ok x =>
      obtain ⟨a, bytes⟩ := x
      obtain ⟨text, rest, whole, written, rfl⟩ := first.sound a bytes ran
      rw [ran] at stopped
      exact (second a text rest whole written).safe s stopped

theorem congr {w' : List Char → α → Prop} {f' : List Char → Prop} (reads : Reads w f cs r) (same : ∀ text a, w text a ↔ w' text a)
    (follow : ∀ rest, f' rest → f rest) : Reads w' f' cs r where
  sound := by
    intro a bytes read
    obtain ⟨text, rest, whole, written, left⟩ := reads.sound a bytes read
    exact ⟨text, rest, whole, (same text a).mp written, left⟩
  complete := fun text rest a whole written after => reads.complete text rest a whole ((same text a).mpr written) (follow rest after)
  safe := reads.safe

theorem map (reads : Reads w f cs r) (g : α → β) :
    Reads (fun text b => ∃ a, w text a ∧ b = g a) f cs (r.bind fun x => .ok (g x.1, x.2)) where
  sound := by
    intro b bytes read
    obtain ⟨x, ran, made⟩ := Except.bind_eq_ok.mp read
    cases made
    obtain ⟨text, rest, whole, written, left⟩ := reads.sound x.1 x.2 ran
    exact ⟨text, rest, whole, ⟨x.1, written, rfl⟩, left⟩
  complete := by
    rintro text rest b whole ⟨a, written, rfl⟩ follow
    rw [reads.complete text rest a whole written follow]
    rfl
  safe := by
    intro s stopped
    cases ran : r with
    | error s' =>
      rw [ran] at stopped
      cases stopped
      exact reads.safe s ran
    | ok x =>
      rw [ran] at stopped
      cases stopped

/-- Where nothing but the empty text can be read. -/
theorem empty (a : α) (written : w [] a) (only : ∀ text rest b, cs = text ++ rest → w text b → f rest → text = [] ∧ b = a) :
    Reads w f cs (.ok (a, encode cs)) where
  sound := by
    intro b bytes read
    cases read
    exact ⟨[], cs, rfl, written, rfl⟩
  complete := by
    intro text rest b whole known follow
    obtain ⟨rfl, rfl⟩ := only text rest b whole known follow
    rw [whole, List.nil_append]
  safe := fun _ stopped => by cases stopped

/-- Past a first character. -/
theorem cons {c : Char} (reads : Reads (fun text a => w (c :: text) a) f cs r) (some_ : ∀ a, ¬ w [] a) : Reads w f (c :: cs) r where
  sound := by
    intro a bytes read
    obtain ⟨text, rest, rfl, written, rfl⟩ := reads.sound a bytes read
    exact ⟨c :: text, rest, rfl, written, rfl⟩
  complete := by
    intro text rest a whole written follow
    cases text with
    | nil => exact absurd written (some_ a)
    | cons d text =>
      obtain ⟨rfl, rfl⟩ := List.cons.inj whole
      exact reads.complete text rest a rfl written follow
  safe := reads.safe

/-- Where another grammar writes the same of this text. -/
theorem narrow {w' : List Char → α → Prop} (reads : Reads w f cs r) (into : ∀ text a, w text a → w' text a)
    (onto : ∀ text rest a, cs = text ++ rest → w' text a → w text a) : Reads w' f cs r where
  sound := by
    intro a bytes read
    obtain ⟨text, rest, whole, written, left⟩ := reads.sound a bytes read
    exact ⟨text, rest, whole, into text a written, left⟩
  complete := fun text rest a whole written after => reads.complete text rest a whole (onto text rest a whole written) after
  safe := reads.safe

/-- No text that begins otherwise is written. -/
theorem none_of_head {c : Char} (m : String) (other : ∀ text a, w text a → ∃ d more, text = d :: more ∧ d ≠ c) :
    Reads w f (c :: cs) (.error (.message m)) := by
  apply fail
  intro text rest a whole written _
  obtain ⟨d, more, rfl, different⟩ := other text a written
  exact different (List.cons.inj whole).1.symm

theorem none_of_nil (m : String) (some_ : ∀ a, ¬ w [] a) : Reads w f [] (.error (.message m)) := by
  apply fail
  intro text rest a whole written _
  rw [(List.append_eq_nil_iff.mp whole.symm).1] at written
  exact some_ a written

end Reads

section Strings

variable {cs : List Char} {f : List Char → Prop}

theorem utf8_ofList (cs : List Char) : utf8 (String.ofList cs) = encode cs := by
  unfold utf8 encode
  simp [String.ofList, List.utf8Encode]

theorem strSlice_encode (cs : List Char) : strSlice (encode cs) = .ok (String.ofList cs) := by
  rw [strSlice, ← utf8_ofList, fromUtf8_utf8]
  rfl

theorem toDigit_byteOf {c : Char} (ascii : Ascii c) : toDigit (byteOf c) = hexValue c := by
  rw [toDigit, hexValue, byteOf_toNat ascii]
  split_ifs
  all_goals first
    | rfl
    | exact congrArg some (by omega)

theorem toDigit_high {b : UInt8} (high : 128 ≤ b.toNat) : toDigit b = none := by
  rw [toDigit, if_neg (by omega), if_neg (by omega), if_neg (by omega)]

theorem hexValue_high {c : Char} (high : ¬ Ascii c) : hexValue c = none := by
  have big : ¬ c.toNat < 128 := high
  rw [hexValue, if_neg (by omega), if_neg (by omega), if_neg (by omega)]

/-- So many hexadecimal digits behind others. -/
def HexRun : Nat → Nat → List Char → Nat → Prop
  | 0, v, hex, n => hex = [] ∧ n = v
  | k + 1, v, hex, n => ∃ c d more, hex = c :: more ∧ hexValue c = some d ∧ HexRun k (v * 16 + d) more n

theorem hexRun_four {hex : List Char} {n : Nat} : HexRun 4 0 hex n ↔ HexFour hex n := by
  constructor
  · rintro ⟨a, w, _, rfl, first, b, x, _, rfl, second, c, y, _, rfl, third, d, z, _, rfl, fourth, rfl, rfl⟩
    rw [Nat.zero_mul, Nat.zero_add]
    exact .mk first second third fourth
  · rintro ⟨first, second, third, fourth⟩
    refine ⟨_, _, _, rfl, first, _, _, _, rfl, second, _, _, _, rfl, third, _, _, _, rfl, fourth, rfl, ?_⟩
    rw [Nat.zero_mul, Nat.zero_add]

theorem hexDigits_reads (k v : Nat) (cs : List Char) : Reads (HexRun k v) f cs (hexDigits k v (encode cs)) := by
  induction k generalizing v cs with
  | zero => exact Reads.pure v
  | succ k ih =>
    have some_ : ∀ n, ¬ HexRun (k + 1) v [] n := by
      rintro n ⟨_, _, _, same, _⟩
      cases same
    have stops {c : Char} {rest : List Char} (none_ : hexValue c = none) :
        Reads (HexRun (k + 1) v) f (c :: rest) (.error (.message "invalid hex digit")) := by
      apply Reads.none_of_head
      rintro text n ⟨d, _, more, rfl, value, _⟩
      refine ⟨d, more, rfl, ?_⟩
      rintro rfl
      rw [none_] at value
      cases value
    cases cs with
    | nil => exact Reads.none_of_nil _ some_
    | cons c rest =>
      by_cases small : Ascii c
      · rw [encode_ascii small, hexDigits, toDigit_byteOf small]
        cases value : hexValue c with
        | none => exact stops value
        | some d =>
          apply Reads.cons _ some_
          apply (ih (v * 16 + d) rest).congr _ fun _ after => after
          intro text n
          constructor
          · exact fun run => ⟨c, d, text, rfl, value, run⟩
          · rintro ⟨_, _, _, same, value', run⟩
            obtain ⟨rfl, rfl⟩ := List.cons.inj same
            obtain rfl := Option.some.inj (value.symm.trans value')
            exact run
      · obtain ⟨b, bytes, begins, high⟩ := encode_high small rest
        rw [begins, hexDigits, toDigit_high high]
        exact stops (hexValue_high small)

theorem parseHex4_reads (cs : List Char) : Reads HexFour f cs (parseHex4 (encode cs)) :=
  (hexDigits_reads 4 0 cs).congr (fun _ _ => hexRun_four) fun _ after => after

/-- What may follow the first four digits of a scalar. -/
inductive Completed : Nat → List Char → Char → Prop
  | unit {n : Nat} (scalar : ¬ (0xD800 ≤ n ∧ n ≤ 0xDFFF)) : Completed n [] (Char.ofNat n)
  | pair {hex : List Char} {m n : Nat} (high : 0xD800 ≤ m ∧ m ≤ 0xDBFF) (four : HexFour hex n) (low : 0xDC00 ≤ n ∧ n ≤ 0xDFFF) :
      Completed m ('\\' :: 'u' :: hex) (Char.ofNat (0x10000 + (m - 0xD800) * 2 ^ 10 + (n - 0xDC00)))

theorem completed_iff {text : List Char} {c : Char} : (∃ t t' n, text = t ++ t' ∧ HexFour t n ∧ Completed n t' c) ↔ Unicode text c := by
  constructor
  · rintro ⟨t, _, n, rfl, four, scalar | ⟨high, four', low⟩⟩
    · rw [List.append_nil]
      exact .unit four scalar
    · exact .pair four high four' low
  · rintro (⟨four, scalar⟩ | ⟨four, high, four', low⟩)
    · exact ⟨_, [], _, (List.append_nil _).symm, four, .unit scalar⟩
    · exact ⟨_, _, _, rfl, four, .pair high four' low⟩

theorem hexValue_lt {c : Char} {d : Nat} (value : hexValue c = some d) : d < 16 := by
  rw [hexValue] at value
  split_ifs at value
  all_goals
    have same := Option.some.inj value
    omega

theorem HexFour.lt {hex : List Char} {n : Nat} (four : HexFour hex n) : n < 2 ^ 16 := by
  obtain ⟨first, second, third, fourth⟩ := four
  have a := hexValue_lt first
  have b := hexValue_lt second
  have c := hexValue_lt third
  have d := hexValue_lt fourth
  omega

theorem pushScalar_eq {n : Nat} (valid : n.isValidChar) (refused : String) (rest : List UInt8) :
    pushScalar n refused rest = .ok (Char.ofNat n, rest) := by
  rw [pushScalar, fromU32, if_pos valid]
  rfl

theorem joinLow_reads {m n : Nat} (high : 0xD800 ≤ m ∧ m ≤ 0xDBFF) (cs : List Char) :
    Reads (fun text c => (0xDC00 ≤ n ∧ n ≤ 0xDFFF) ∧ text = [] ∧ c = Char.ofNat (0x10000 + (m - 0xD800) * 2 ^ 10 + (n - 0xDC00))) f cs
      (joinLow m n (encode cs)) := by
  rw [joinLow]
  by_cases low : 0xDC00 ≤ n ∧ n ≤ 0xDFFF
  · have valid : (0x10000 + (m - 0xD800) * 2 ^ 10 + (n - 0xDC00)).isValidChar := by
      unfold Nat.isValidChar
      omega
    rw [if_neg (not_not_intro low), pushScalar_eq valid]
    generalize Char.ofNat (0x10000 + (m - 0xD800) * 2 ^ 10 + (n - 0xDC00)) = scalar
    exact (Reads.pure scalar).congr (fun text c => ⟨fun both => ⟨low, both⟩, And.right⟩) fun _ after => after
  · rw [if_pos low]
    exact Reads.fail _ fun _ _ _ _ written _ => low written.1

theorem take_two (cs : List Char) : (encode cs).take 2 = [byteOf '\\', byteOf 'u'] ↔ ∃ rest, cs = '\\' :: 'u' :: rest := by
  have word := @prefix_encode ['\\', 'u'] (by simp [Ascii]) cs
  rw [List.prefix_iff_eq_take] at word
  constructor
  · intro same
    obtain ⟨rest, whole⟩ := word.mp same.symm
    exact ⟨rest, whole.symm⟩
  · rintro ⟨rest, rfl⟩
    exact (word.mpr ⟨rest, rfl⟩).symm

theorem joinHigh_reads {n : Nat} (small : n < 2 ^ 16) (cs : List Char) : Reads (Completed n) f cs (joinHigh n (encode cs)) := by
  rw [joinHigh]
  by_cases low : 0xDC00 ≤ n ∧ n ≤ 0xDFFF
  · rw [if_pos low]
    apply Reads.fail
    intro text rest c whole written _
    cases written with
    | unit scalar => omega
    | pair high four low' => omega
  · rw [if_neg low]
    by_cases high : 0xD800 ≤ n ∧ n ≤ 0xDBFF
    · rw [if_neg (not_not_intro high)]
      by_cases next : ∃ rest, cs = '\\' :: 'u' :: rest
      · rw [if_pos ((take_two cs).mpr next)]
        obtain ⟨rest, rfl⟩ := next
        have some_ (c : Char) : ¬ Completed n [] c := by
          rintro ⟨scalar⟩
          omega
        have some_' (c : Char) : ¬ Completed n ['\\'] c := nofun
        apply Reads.cons _ some_
        apply Reads.cons _ some_'
        have rest_ : (encode ('\\' :: 'u' :: rest)).drop 2 = encode rest := by
          rw [encode_ascii (by decide), encode_ascii (by decide)]
          rfl
        have hex : Reads HexFour (fun _ => True) rest (parseHex4 (encode rest)) := parseHex4_reads rest
        have run := Reads.bind (g := f) hex (fun low text rest _ _ => @joinLow_reads f n low high rest) fun _ _ _ _ _ _ => trivial
        rw [rest_]
        apply run.congr _ fun _ after => after
        intro text c
        constructor
        · rintro ⟨hex, _, m, same, four, low', none_, value⟩
          rw [same, none_, List.append_nil, value]
          exact .pair high four low'
        · rintro (_ | ⟨_, four, low'⟩)
          exact ⟨text, [], _, (List.append_nil _).symm, four, low', rfl, rfl⟩
      · rw [if_neg fun two => next ((take_two cs).mp two)]
        apply Reads.fail
        rintro text rest c whole (scalar | _) _
        · omega
        · exact next ⟨_, whole⟩
    · have valid : n.isValidChar := by
        unfold Nat.isValidChar
        omega
      rw [if_pos high, pushScalar_eq valid]
      apply (Reads.pure (Char.ofNat n)).congr _ fun _ after => after
      intro text c
      constructor
      · rintro ⟨rfl, rfl⟩
        exact .unit (by omega)
      · rintro (scalar | ⟨high', _, _⟩)
        · exact ⟨rfl, rfl⟩
        · exact absurd high' high

theorem parseUnicodeEscape_reads (cs : List Char) : Reads Unicode f cs (parseUnicodeEscape (encode cs)) := by
  have hex : Reads HexFour (fun _ => True) cs (parseHex4 (encode cs)) := parseHex4_reads cs
  have run := Reads.bind (g := f) hex (fun n text rest _ four => @joinHigh_reads f n four.lt rest) fun _ _ _ _ _ _ => trivial
  exact run.congr (fun _ _ => completed_iff) fun _ after => after

theorem shortEscape_byteOf {e : Char} (ascii : Ascii e) : shortEscape (byteOf e) = shortMeaning e := by
  have eq_iff {a : Char} (known : Ascii a) : byteOf e = byteOf a ↔ e = a := byteOf_eq ascii known
  simp only [shortEscape, eq_iff (by decide : Ascii '"'), eq_iff (by decide : Ascii '\\'), eq_iff (by decide : Ascii '/'),
    eq_iff (by decide : Ascii 'b'), eq_iff (by decide : Ascii 'f'), eq_iff (by decide : Ascii 'n'), eq_iff (by decide : Ascii 'r'),
    eq_iff (by decide : Ascii 't')]
  split_ifs with quote slash solidus b f n r t
  · subst quote
    rfl
  · subst slash
    rfl
  · subst solidus
    rfl
  · subst b
    rfl
  · subst f
    rfl
  · subst n
    rfl
  · subst r
    rfl
  · subst t
    rfl
  · unfold shortMeaning
    split
    · exact absurd rfl quote
    · exact absurd rfl slash
    · exact absurd rfl solidus
    · exact absurd rfl b
    · exact absurd rfl f
    · exact absurd rfl n
    · exact absurd rfl r
    · exact absurd rfl t
    · rfl

theorem shortMeaning_ascii {e c : Char} (meaning : shortMeaning e = some c) : Ascii e := by
  unfold shortMeaning at meaning
  split at meaning
  all_goals first
    | decide
    | cases meaning

theorem parseEscape_reads (cs : List Char) : Reads Escaped f cs (parseEscape (encode cs)) := by
  have some_ : ∀ c, ¬ Escaped [] c := nofun
  cases cs with
  | nil => exact Reads.none_of_nil _ some_
  | cons e rest =>
    have stops (none_ : shortMeaning e = none) (other : e ≠ 'u') : Reads Escaped f (e :: rest) (.error (.message "invalid escape")) := by
      apply Reads.none_of_head
      rintro text c (meaning | digits)
      · refine ⟨_, _, rfl, ?_⟩
        rintro rfl
        rw [none_] at meaning
        cases meaning
      · exact ⟨'u', _, rfl, other.symm⟩
    by_cases small : Ascii e
    · rw [encode_ascii small, parseEscape, shortEscape_byteOf small]
      cases meaning : shortMeaning e with
      | some c =>
        apply Reads.cons _ some_
        apply (Reads.pure c).congr _ fun _ after => after
        intro text d
        constructor
        · rintro ⟨rfl, rfl⟩
          exact .short meaning
        · rintro (meaning' | _)
          · exact ⟨rfl, Option.some.inj (meaning'.symm.trans meaning)⟩
          · cases meaning
      | none =>
        by_cases unicode : e = 'u'
        · subst unicode
          rw [if_pos rfl]
          apply Reads.cons _ some_
          apply (parseUnicodeEscape_reads rest).congr _ fun _ after => after
          intro text d
          constructor
          · exact .unicode
          · rintro (meaning' | digits)
            · cases meaning'
            · exact digits
        · rw [if_neg fun same => unicode ((byteOf_eq small (by decide)).mp same)]
          exact stops meaning unicode
    · obtain ⟨b, bytes, begins, high⟩ := encode_high small rest
      have other {a : Char} (known : Ascii a) : b ≠ byteOf a := high_ne high known
      have none_ : shortEscape b = none := by
        simp only [shortEscape, other (by decide : Ascii '"'), other (by decide : Ascii '\\'), other (by decide : Ascii '/'),
          other (by decide : Ascii 'b'), other (by decide : Ascii 'f'), other (by decide : Ascii 'n'), other (by decide : Ascii 'r'),
          other (by decide : Ascii 't'), if_false]
      rw [begins, parseEscape, none_, if_neg (other (by decide))]
      apply stops
      · cases meaning : shortMeaning e with
        | none => rfl
        | some c => exact absurd (shortMeaning_ascii meaning) small
      · rintro rfl
        exact small (by decide)

/-- Bytes that go on with a cut. -/
theorem stringFrom_append {fuel : Nat} {out : String} {cut bytes more : List UInt8}
    (plain : ∀ b ∈ bytes, b ≠ byteOf '"' ∧ b ≠ byteOf '\\' ∧ ¬ b.toNat < 0x20) :
    stringFrom (fuel + bytes.length) out cut (bytes ++ more) = stringFrom fuel out (cut ++ bytes) more := by
  induction bytes generalizing cut with
  | nil => rw [List.append_nil, List.nil_append, List.length_nil, Nat.add_zero]
  | cons b bytes ih =>
    obtain ⟨quote, slash, visible⟩ := plain b List.mem_cons_self
    have later := @ih (cut ++ [b]) fun b member => plain b (List.mem_cons_of_mem _ member)
    rw [List.append_assoc, List.singleton_append] at later
    rw [List.length_cons, ← Nat.add_assoc, List.cons_append, stringFrom, if_neg quote, if_neg slash, if_neg visible, later]

theorem plain_bytes {c : Char} (visible : 0x20 ≤ c.toNat) (quote : c ≠ '"') (slash : c ≠ '\\') :
    ∀ b ∈ String.utf8EncodeChar c, b ≠ byteOf '"' ∧ b ≠ byteOf '\\' ∧ ¬ b.toNat < 0x20 := by
  intro b member
  by_cases small : Ascii c
  · rw [encodeChar_ascii small, List.mem_singleton] at member
    subst member
    refine ⟨fun same => quote (byteOf_inj small (by decide) same), fun same => slash (byteOf_inj small (by decide) same), ?_⟩
    rw [byteOf_toNat small]
    omega
  · have high := encodeChar_high small member
    exact ⟨high_ne high (by decide), high_ne high (by decide), by omega⟩

/-- A string's body with the quote that closes it. -/
inductive Closed : List Char → List Char → Prop
  | quote : Closed ['"'] []
  | plain {c : Char} {body text : List Char} (visible : 0x20 ≤ c.toNat) (quote : c ≠ '"') (slash : c ≠ '\\') (later : Closed body text) :
      Closed (c :: body) (c :: text)
  | escape {written body text : List Char} {c : Char} (escaped : Escaped written c) (later : Closed body text) :
      Closed ('\\' :: (written ++ body)) (c :: text)

theorem closed_iff {written text : List Char} : Closed written text ↔ ∃ body, written = body ++ ['"'] ∧ StringText body text := by
  constructor
  · intro closed
    induction closed with
    | quote => exact ⟨[], rfl, .nil⟩
    | @plain c body text visible quote slash later ih =>
      obtain ⟨body, rfl, denoted⟩ := ih
      exact ⟨c :: body, rfl, .plain visible quote slash denoted⟩
    | @escape written body text c escaped later ih =>
      obtain ⟨body, rfl, denoted⟩ := ih
      exact ⟨'\\' :: (written ++ body), by simp, .escape escaped denoted⟩
  · rintro ⟨body, rfl, denoted⟩
    induction denoted with
    | nil => exact .quote
    | plain visible quote slash later ih => exact .plain visible quote slash ih
    | escape escaped later ih =>
      rw [List.cons_append, List.append_assoc]
      exact .escape escaped ih

theorem joined_cons (out : String) (cut text : List Char) (c : Char) :
    out ++ String.ofList cut ++ String.ofList (c :: text) = out ++ String.ofList (cut ++ [c]) ++ String.ofList text := by
  apply String.toList_inj.mp
  simp

theorem stringFrom_reads {fuel : Nat} {cs : List Char} (enough : size cs < fuel) (out : String) (cut : List Char) :
    Reads (fun written s => ∃ text, Closed written text ∧ s = out ++ String.ofList cut ++ String.ofList text) f cs
      (stringFrom fuel out (encode cut) (encode cs)) := by
  induction fuel using Nat.strong_induction_on generalizing cs out cut with
  | _ fuel ih =>
    have some_ : ∀ s, ¬ ∃ text, Closed [] text ∧ s = out ++ String.ofList cut ++ String.ofList text := by
      rintro s ⟨text, ⟨⟩, _⟩
    obtain ⟨fuel, rfl⟩ := Nat.exists_eq_succ_of_ne_zero (Nat.ne_of_gt (Nat.zero_lt_of_lt enough))
    cases cs with
    | nil => exact Reads.none_of_nil _ some_
    | cons c rest =>
      rw [size_cons] at enough
      have pos := c.utf8Size_pos
      by_cases quote : c = '"'
      · subst quote
        rw [encode_ascii (by decide), stringFrom, if_pos rfl, strSlice_encode]
        apply Reads.cons _ some_
        apply (Reads.pure (out ++ String.ofList cut)).congr _ fun _ after => after
        intro text s
        constructor
        · rintro ⟨rfl, rfl⟩
          exact ⟨[], .quote, by simp⟩
        · rintro ⟨text, closed, rfl⟩
          cases closed with
          | quote => exact ⟨rfl, by simp⟩
          | plain _ quote _ _ => exact absurd rfl quote
      by_cases slash : c = '\\'
      · subst slash
        rw [encode_ascii (by decide), stringFrom, if_neg (by decide), if_pos rfl, strSlice_encode]
        apply Reads.cons _ some_
        have escape : Reads Escaped (fun _ => True) rest (parseEscape (encode rest)) := parseEscape_reads rest
        have run := Reads.bind (g := f) escape (fun d text later whole _ => ih fuel (Nat.lt_succ_self _)
          (by
            rw [whole, size_append] at enough
            omega : size later < fuel)
          ((out ++ String.ofList cut).push d) []) fun _ _ _ _ _ _ => trivial
        apply run.congr _ fun _ after => after
        intro text s
        constructor
        · rintro ⟨t, t', d, rfl, escaped, text, closed, rfl⟩
          refine ⟨d :: text, .escape escaped closed, ?_⟩
          apply String.toList_inj.mp
          simp
        · rintro ⟨text, closed, rfl⟩
          cases closed with
          | plain _ _ slash _ => exact absurd rfl slash
          | escape escaped later =>
            refine ⟨_, _, _, rfl, escaped, _, later, ?_⟩
            apply String.toList_inj.mp
            simp
      by_cases control : c.toNat < 0x20
      · have small : Ascii c := by
          unfold Ascii
          omega
        have first : ¬ byteOf c = byteOf '"' := fun same => quote (byteOf_inj small (by decide) same)
        have second : ¬ byteOf c = byteOf '\\' := fun same => slash (byteOf_inj small (by decide) same)
        rw [encode_ascii small, stringFrom, if_neg first, if_neg second, byteOf_toNat small, if_pos control]
        apply Reads.none_of_head
        rintro text s ⟨text, closed, rfl⟩
        cases closed with
        | quote => exact ⟨_, _, rfl, Ne.symm quote⟩
        | plain visible _ _ _ =>
          refine ⟨_, _, rfl, ?_⟩
          rintro rfl
          omega
        | escape _ _ => exact ⟨_, _, rfl, Ne.symm slash⟩
      · obtain ⟨left, whole⟩ : ∃ left, fuel.succ = left + (String.utf8EncodeChar c).length := by
          rw [String.length_utf8EncodeChar]
          exact ⟨fuel.succ - c.utf8Size, by omega⟩
        have less : left < fuel.succ ∧ size rest < left := by
          rw [String.length_utf8EncodeChar] at whole
          omega
        have later := ih left less.1 less.2 out (cut ++ [c])
        have cut_ : encode (cut ++ [c]) = encode cut ++ String.utf8EncodeChar c := by simp
        rw [cut_] at later
        rw [encode_cons, whole, stringFrom_append (plain_bytes (by omega) quote slash)]
        apply Reads.cons _ some_
        apply later.congr _ fun _ after => after
        intro text s
        constructor
        · rintro ⟨text, closed, rfl⟩
          exact ⟨c :: text, .plain (by omega) quote slash closed, (joined_cons out cut text c).symm⟩
        · rintro ⟨text, closed, rfl⟩
          cases closed with
          | quote => exact absurd rfl quote
          | plain _ _ _ closed => exact ⟨_, closed, joined_cons out cut _ c⟩
          | escape _ _ => exact absurd rfl slash

theorem parseString_reads (cs : List Char) : Reads (fun written s => ∃ text, Closed written text ∧ s = String.ofList text) f cs
    (parseString (encode cs)) := by
  have run := @stringFrom_reads f (size cs + 1) cs (Nat.lt_succ_self _) "" []
  apply run.congr _ fun _ after => after
  intro text s
  simp

end Strings

end Adelie.Json
