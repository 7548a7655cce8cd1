import Adelie.Sql.JsonParsing

namespace Adelie.Json

open Utf8

section Numbers

variable {cs : List Char} {f f' : List Char → Prop} {p q : List Char → Prop}

/-- A cut of just what a rule admits. -/
abbrev Cuts (rule follow : List Char → Prop) (cs : List Char) (r : Except Stop (List UInt8 × List UInt8)) : Prop :=
  Reads (fun text cut => rule text ∧ cut = encode text) follow cs r

theorem Cuts.andThen {r s : Parse (List UInt8)} (first : ∀ cs, Cuts p f cs (r (encode cs))) (second : ∀ cs, Cuts q f' cs (s (encode cs)))
    (leads : ∀ text rest, q text → f' rest → f (text ++ rest)) (cs : List Char) :
    Cuts (fun text => ∃ t t', text = t ++ t' ∧ p t ∧ q t') f' cs (andThen r s (encode cs)) := by
  have later : ∀ cut text rest, cs = text ++ rest → p text ∧ cut = encode text →
      Reads (fun text b => ∃ a, (q text ∧ a = encode text) ∧ b = cut ++ a) f' rest ((s (encode rest)).bind fun x => .ok (cut ++ x.1, x.2)) :=
    fun cut text rest _ _ => (second rest).map (cut ++ ·)
  have run := Reads.bind (q := fun cut bytes => (s bytes).bind fun x => .ok (cut ++ x.1, x.2)) (first cs) later
    fun cut text rest b ⟨_, ⟨known, _⟩, _⟩ after => leads text rest known after
  apply run.congr _ fun _ after => after
  intro text cut
  constructor
  · rintro ⟨t, t', _, rfl, ⟨known, rfl⟩, _, ⟨known', rfl⟩, rfl⟩
    exact ⟨⟨t, t', rfl, known, known'⟩, encode_append.symm⟩
  · rintro ⟨⟨t, t', rfl, known, known'⟩, rfl⟩
    exact ⟨t, t', _, rfl, ⟨known, rfl⟩, _, ⟨known', rfl⟩, encode_append⟩

theorem encode_eq_nil {cs : List Char} : encode cs = [] ↔ cs = [] := by
  cases cs with
  | nil => exact ⟨fun _ => rfl, fun _ => rfl⟩
  | cons c cs =>
    obtain ⟨b, bytes, begins, _⟩ := encode_first c cs
    rw [begins]
    exact ⟨nofun, nofun⟩

/-- What does not begin with a character of a class. -/
def Off (class_ : Char → Bool) (text : List Char) : Prop := ∀ c, text.head? = some c → class_ c = false

theorem consumeDigits_cuts (cs : List Char) : Cuts Digits (Off Char.isDigit) cs (consumeDigits (encode cs)) := by
  rw [consumeDigits, digit_classes.takeWhile, digit_classes.dropWhile]
  by_cases none_ : cs.takeWhile Char.isDigit = []
  · rw [if_pos (encode_eq_nil.mpr none_)]
    apply Reads.fail
    rintro text rest cut rfl ⟨⟨given, digits⟩, _⟩ _
    obtain ⟨d, ds, rfl⟩ := List.exists_cons_of_ne_nil given
    rw [List.cons_append, List.takeWhile_cons_of_pos (digits d List.mem_cons_self)] at none_
    cases none_
  · rw [if_neg fun same => none_ (encode_eq_nil.mp same)]
    constructor
    · intro cut bytes read
      cases read
      refine ⟨_, _, List.takeWhile_append_dropWhile.symm, ⟨⟨none_, ?_⟩, rfl⟩, rfl⟩
      exact fun c member => List.mem_takeWhile_imp member
    · rintro text rest cut rfl ⟨⟨given, digits⟩, rfl⟩ stop
      rw [takeWhile_stop digits stop, dropWhile_stop digits stop]
    · intro s stopped
      cases stopped

theorem optional_cuts {mark : UInt8 → Bool} {mark' : Char → Bool} {r : Parse (List UInt8)} (classes : Classes mark mark')
    (body : ∀ cs, Cuts q f cs (r (encode cs))) (cs : List Char) :
    Cuts (fun text => text = [] ∨ ∃ c t, text = c :: t ∧ mark' c = true ∧ q t) (fun rest => f rest ∧ Off mark' rest) cs
      (optional mark r (encode cs)) := by
  cases cs with
  | nil =>
    apply Reads.empty [] ⟨.inl rfl, rfl⟩
    rintro text rest cut whole ⟨_, rfl⟩ _
    rw [(List.append_eq_nil_iff.mp whole.symm).1]
    exact ⟨rfl, rfl⟩
  | cons c rest =>
    by_cases known : mark' c = true
    · obtain ⟨begins, member⟩ := classes.encode_take known rest
      have made := (body rest).map (byteOf c :: ·)
      rw [begins, optional, if_pos member]
      constructor
      · intro cut bytes read
        obtain ⟨text, left, rfl, ⟨_, ⟨admitted, rfl⟩, rfl⟩, rfl⟩ := made.sound cut bytes read
        exact ⟨c :: text, left, rfl, ⟨.inr ⟨c, text, rfl, known, admitted⟩, (classes.encode_take known text).1.symm⟩, rfl⟩
      · rintro text left cut whole ⟨rfl | ⟨d, t, rfl, _, admitted⟩, rfl⟩ ⟨stop, off⟩
        · rw [← List.nil_append left, ← whole] at off
          rw [off c rfl] at known
          cases known
        · obtain ⟨rfl, rfl⟩ := List.cons.inj whole
          exact made.complete t left _ rfl ⟨_, ⟨admitted, rfl⟩, (classes.encode_take known t).1⟩ stop
      · exact made.safe
    · obtain ⟨b, bytes, begins, off⟩ := classes.encode_stop (Bool.eq_false_iff.mpr known) rest
      have run : optional mark r (encode (c :: rest)) = .ok ([], encode (c :: rest)) := by
        rw [begins, optional, if_neg (by rw [off]; decide)]
      rw [run]
      apply Reads.empty [] ⟨.inl rfl, rfl⟩
      rintro text left cut whole ⟨rfl | ⟨d, t, rfl, marked, _⟩, rfl⟩ _
      · exact ⟨rfl, rfl⟩
      · obtain ⟨rfl, _⟩ := List.cons.inj whole
        exact absurd marked known

theorem Cuts.congr {r : Except Stop (List UInt8 × List UInt8)} (cuts : Cuts p f cs r) (same : ∀ text, p text ↔ q text)
    (follow : ∀ rest, f' rest → f rest) : Cuts q f' cs r :=
  Reads.congr cuts (fun text _ => and_congr_left' (same text)) follow

/-- Some ASCII characters are a class. -/
theorem classes_of_chars (members : List Char) (ascii : ∀ a ∈ members, Ascii a) :
    Classes (fun b => members.any fun a => b == byteOf a) fun c => members.any fun a => c == a where
  ascii := by
    intro c small
    rw [Bool.eq_iff_iff, List.any_eq_true, List.any_eq_true]
    apply exists_congr
    intro a
    apply and_congr_right
    intro member
    rw [beq_iff_eq, beq_iff_eq, byteOf_eq small (ascii a member)]
  high := by
    intro b high
    rw [List.any_eq_false]
    intro a member same
    exact high_ne high (ascii a member) (beq_iff_eq.mp same)
  beyond := by
    intro c large
    rw [List.any_eq_false]
    intro a member same
    exact large (beq_iff_eq.mp same ▸ ascii a member)

theorem minus_classes : Classes isMinus fun c => c == '-' := by
  have classes := classes_of_chars ['-'] (by simp [Ascii])
  simp only [List.any_cons, List.any_nil, Bool.or_false] at classes
  exact classes

theorem point_classes : Classes isPoint fun c => c == '.' := by
  have classes := classes_of_chars ['.'] (by simp [Ascii])
  simp only [List.any_cons, List.any_nil, Bool.or_false] at classes
  exact classes

theorem exponent_classes : Classes isExponent fun c => c == 'e' || c == 'E' := by
  have classes := classes_of_chars ['e', 'E'] (by simp [Ascii])
  simp only [List.any_cons, List.any_nil, Bool.or_false] at classes
  exact classes

theorem sign_classes : Classes isSign fun c => c == '+' || c == '-' := by
  have classes := classes_of_chars ['+', '-'] (by simp [Ascii])
  simp only [List.any_cons, List.any_nil, Bool.or_false] at classes
  exact classes

/-- Nothing that a number could go on with. -/
def Halts (rest : List Char) : Prop :=
  Off Char.isDigit rest ∧ Off (fun c => c == '.') rest ∧ Off (fun c => c == 'e' || c == 'E') rest

theorem consumeSign_cuts {sign : UInt8 → Bool} {sign' : Char → Bool} (classes : Classes sign sign') (cs : List Char) :
    Cuts (fun text => text = [] ∨ ∃ c, text = [c] ∧ sign' c = true) (Off sign') cs (consumeSign sign (encode cs)) := by
  have nothing (cs : List Char) : Cuts (· = []) (fun _ => True) cs (.ok ([], encode cs)) := by
    apply (Reads.pure []).congr _ fun _ after => after
    rintro text cut
    constructor
    · rintro ⟨rfl, rfl⟩
      exact ⟨rfl, rfl⟩
    · rintro ⟨rfl, rfl⟩
      exact ⟨rfl, rfl⟩
  apply (optional_cuts classes nothing cs).congr _ fun _ off => ⟨trivial, off⟩
  intro text
  constructor
  · rintro (rfl | ⟨c, _, rfl, known, rfl⟩)
    · exact .inl rfl
    · exact .inr ⟨c, rfl, known⟩
  · rintro (rfl | ⟨c, rfl, known⟩)
    · exact .inl rfl
    · exact .inr ⟨c, [], rfl, known, rfl⟩

theorem Digits.off {ds : List Char} (digits : Digits ds) {class_ : Char → Bool} (apart : ∀ c, c.isDigit = true → class_ c = false)
    (rest : List Char) : Off class_ (ds ++ rest) := by
  obtain ⟨given, all⟩ := digits
  obtain ⟨d, ds, rfl⟩ := List.exists_cons_of_ne_nil given
  intro c first
  cases first
  exact apart d (all d List.mem_cons_self)

theorem consumeFraction_cuts (cs : List Char) : Cuts Fraction (fun rest => Off Char.isDigit rest ∧ Off (fun c => c == '.') rest) cs
    (consumeFraction (encode cs)) := by
  apply (optional_cuts point_classes consumeDigits_cuts cs).congr _ fun _ after => after
  intro text
  constructor
  · rintro (rfl | ⟨c, ds, rfl, point, digits⟩)
    · exact .none
    · rw [beq_iff_eq.mp point]
      exact .some digits
  · rintro (_ | digits)
    · exact .inl rfl
    · exact .inr ⟨'.', _, rfl, rfl, digits⟩

theorem consumeExponent_cuts (cs : List Char) : Cuts Exponent Halts cs (consumeExponent (encode cs)) := by
  have signed := Cuts.andThen (consumeSign_cuts sign_classes) consumeDigits_cuts fun text rest digits _ => digits.off (by
    intro c digit_
    rw [Bool.or_eq_false_iff, beq_eq_false_iff_ne, beq_eq_false_iff_ne]
    constructor <;> rintro rfl <;> cases digit_) rest
  apply (optional_cuts exponent_classes signed cs).congr _ fun rest after => ⟨after.1, after.2.2⟩
  intro text
  constructor
  · rintro (rfl | ⟨e, _, rfl, mark, sign, ds, rfl, signed, digits⟩)
    · exact .none
    · rw [Bool.or_eq_true, beq_iff_eq, beq_iff_eq] at mark
      apply Exponent.some mark _ digits
      rcases signed with rfl | ⟨c, rfl, known⟩
      · exact .inl rfl
      · rw [Bool.or_eq_true, beq_iff_eq, beq_iff_eq] at known
        rcases known with rfl | rfl
        · exact .inr (.inl rfl)
        · exact .inr (.inr rfl)
  · rintro (_ | ⟨mark, signed, digits⟩)
    · exact .inl rfl
    · refine .inr ⟨_, _, rfl, ?_, _, _, rfl, ?_, digits⟩
      · rcases mark with rfl | rfl <;> rfl
      · rcases signed with rfl | rfl | rfl
        · exact .inl rfl
        · exact .inr ⟨'+', rfl, rfl⟩
        · exact .inr ⟨'-', rfl, rfl⟩

theorem Exponent.halts {exponent rest : List Char} (x : Exponent exponent) (halts : Halts rest) :
    Off Char.isDigit (exponent ++ rest) ∧ Off (fun c => c == '.') (exponent ++ rest) := by
  cases x with
  | none => exact ⟨halts.1, halts.2.1⟩
  | some mark signed digits =>
    constructor
    all_goals
      intro c first
      cases first
      rcases mark with rfl | rfl <;> rfl

theorem Fraction.off {fraction rest : List Char} (f : Fraction fraction) (off : Off Char.isDigit rest) : Off Char.isDigit (fraction ++ rest) := by
  cases f with
  | none => exact off
  | some digits =>
    intro c first
    cases first
    rfl

/-- A number is cut where it ends. -/
theorem number_cuts (cs : List Char) : Cuts (Number Digits) Halts cs
    (andThen (consumeSign isMinus) (andThen consumeDigits (andThen consumeFraction consumeExponent)) (encode cs)) := by
  have tail := Cuts.andThen consumeFraction_cuts consumeExponent_cuts fun text rest x halts => x.halts halts
  have digits := Cuts.andThen consumeDigits_cuts tail (by
    rintro _ rest ⟨fraction, exponent, rfl, f, x⟩ halts
    rw [List.append_assoc]
    exact f.off (x.halts halts).1)
  have whole := Cuts.andThen (consumeSign_cuts minus_classes) digits (by
    rintro _ rest ⟨ds, tail, rfl, digits, _⟩ _
    rw [List.append_assoc]
    apply digits.off
    intro c digit_
    rw [beq_eq_false_iff_ne]
    rintro rfl
    cases digit_)
  apply (whole cs).congr _ fun _ after => after
  intro text
  constructor
  · rintro ⟨sign, _, rfl, signed, ds, _, rfl, digits, fraction, exponent, rfl, f, x⟩
    refine .mk ?_ digits f x
    rcases signed with rfl | ⟨c, rfl, known⟩
    · exact .inl rfl
    · rw [beq_iff_eq.mp known]
      exact .inr rfl
  · rintro ⟨signed, digits, f, x⟩
    refine ⟨_, _, rfl, ?_, _, _, rfl, digits, _, _, rfl, f, x⟩
    rcases signed with rfl | rfl
    · exact .inl rfl
    · exact .inr ⟨'-', rfl, rfl⟩

theorem parseNumber_reads (cs : List Char) :
    Reads (fun text v => Number Digits text ∧ v = .number (String.ofList text)) Halts cs (parseNumber (encode cs)) := by
  have cuts := number_cuts cs
  rw [parseNumber]
  constructor
  · intro v bytes read
    obtain ⟨⟨cut, after⟩, ran, made⟩ := Except.bind_eq_ok.mp read
    obtain ⟨text, rest, whole, ⟨number, rfl⟩, left⟩ := cuts.sound cut after ran
    change (strSlice (encode text)).bind _ = _ at made
    rw [strSlice_encode] at made
    cases made
    exact ⟨text, rest, whole, ⟨number, rfl⟩, left⟩
  · rintro text rest v whole ⟨number, rfl⟩ halts
    rw [cuts.complete text rest _ whole ⟨number, rfl⟩ halts]
    change (strSlice (encode text)).bind _ = _
    rw [strSlice_encode]
    rfl
  · intro s stopped
    cases ran : andThen (consumeSign isMinus) (andThen consumeDigits (andThen consumeFraction consumeExponent)) (encode cs) with
    | error s' =>
      rw [ran] at stopped
      cases stopped
      exact cuts.safe s ran
    | ok x =>
      obtain ⟨cut, after⟩ := x
      obtain ⟨text, rest, whole, ⟨number, rfl⟩, left⟩ := cuts.sound cut after ran
      rw [ran] at stopped
      change (strSlice (encode text)).bind _ = _ at stopped
      rw [strSlice_encode] at stopped
      cases stopped

end Numbers

section Blanks

variable {α : Type} {cs : List Char} {f : List Char → Prop} {w : List Char → α → Prop}

theorem ws_classes : Classes ws isWs := by
  have classes := classes_of_chars [' ', '\t', '\n', '\r'] (by simp [Ascii])
  simp only [List.any_cons, List.any_nil, Bool.or_false, ← Bool.or_assoc] at classes
  exact classes

theorem skipWs_encode (cs : List Char) : skipWs (encode cs) = encode (cs.dropWhile isWs) := ws_classes.dropWhile cs

/-- Behind blanks. -/
def Led (w : List Char → α → Prop) (text : List Char) (a : α) : Prop := ∃ before t, text = before ++ t ∧ Ws before ∧ w t a

/-- What is written begins with something else than a blank. -/
def Starts (w : List Char → α → Prop) : Prop := ∀ text a, w text a → ∃ c more, text = c :: more ∧ isWs c = false

theorem dropWhile_led {before text rest : List Char} {a : α} (starts : Starts w) (blank : Ws before) (written : w text a) :
    (before ++ text ++ rest).dropWhile isWs = text ++ rest := by
  obtain ⟨c, more, rfl, other⟩ := starts text a written
  rw [List.append_assoc]
  apply dropWhile_stop blank
  intro d first
  cases first
  exact other

theorem ws_takeWhile (cs : List Char) : Ws (cs.takeWhile isWs) := fun _ member => List.mem_takeWhile_imp member

/-- Past the blanks. -/
theorem Reads.skip {r : Except Stop (α × List UInt8)} (reads : Reads w f (cs.dropWhile isWs) r) (starts : Starts w) : Reads (Led w) f cs r where
  sound := by
    intro a bytes read
    obtain ⟨text, rest, whole, written, left⟩ := reads.sound a bytes read
    refine ⟨cs.takeWhile isWs ++ text, rest, ?_, ⟨_, text, rfl, ws_takeWhile cs, written⟩, left⟩
    rw [List.append_assoc, ← whole, List.takeWhile_append_dropWhile]
  complete := by
    rintro _ rest a rfl ⟨before, text, rfl, blank, written⟩ follow
    exact reads.complete text rest a (dropWhile_led starts blank written) written follow
  safe := reads.safe

theorem Reads.skip_led {r : Parse α} (reads : ∀ cs, Reads (Led w) f cs (r (encode cs))) (starts : Starts w) (cs : List Char) :
    Reads (Led w) f cs (r (skipWs (encode cs))) where
  sound := by
    intro a bytes read
    rw [skipWs_encode] at read
    obtain ⟨_, rest, whole, ⟨before, text, rfl, blank, written⟩, left⟩ := (reads _).sound a bytes read
    refine ⟨cs.takeWhile isWs ++ before ++ text, rest, ?_, ⟨_, text, rfl, ?_, written⟩, left⟩
    · rw [List.append_assoc, List.append_assoc, ← List.append_assoc before, ← whole, List.takeWhile_append_dropWhile]
    · intro c member
      rcases List.mem_append.mp member with inside | inside
      · exact ws_takeWhile cs c inside
      · exact blank c inside
  complete := by
    rintro _ rest a rfl ⟨before, text, rfl, blank, written⟩ follow
    rw [skipWs_encode]
    apply (reads _).complete text rest a (dropWhile_led starts blank written) ⟨[], text, rfl, ws_nil, written⟩ follow
  safe := by
    intro s stopped
    rw [skipWs_encode] at stopped
    exact (reads _).safe s stopped

variable {c close : Char}

theorem expect_reads {next : Parse α} (ascii : Ascii c) (other : isWs c = false) (m : String)
    (later : ∀ rest, Reads w f rest (next (encode rest))) :
    Reads (Led fun text a => ∃ t, text = c :: t ∧ w t a) f cs (expect (byteOf c) m next (encode cs)) := by
  have starts : Starts fun text (a : α) => ∃ t, text = c :: t ∧ w t a := by
    rintro text a ⟨t, rfl, _⟩
    exact ⟨c, t, rfl, other⟩
  have some_ : ∀ a : α, ¬ ∃ t, [] = c :: t ∧ w t a := by
    rintro a ⟨t, same, _⟩
    cases same
  apply Reads.skip _ starts
  rw [expect, skipWs_encode]
  cases cs.dropWhile isWs with
  | nil => exact Reads.none_of_nil m some_
  | cons d rest =>
    obtain ⟨b, bytes, begins, equal, _, tail⟩ := encode_first d rest
    rw [begins]
    by_cases same : d = c
    · subst same
      dsimp only
      rw [if_pos ((equal d ascii).mpr rfl), tail ascii]
      apply Reads.cons _ some_
      apply (later rest).congr _ fun _ after => after
      intro text a
      constructor
      · exact fun written => ⟨text, rfl, written⟩
      · rintro ⟨_, same, written⟩
        rwa [(List.cons.inj same).2]
    · dsimp only
      rw [if_neg fun byte => same ((equal c ascii).mp byte)]
      apply Reads.none_of_head
      rintro text a ⟨t, rfl, _⟩
      exact ⟨c, t, rfl, Ne.symm same⟩

theorem afterItem_reads {w' : List Char → α → Prop} {more done : Parse α} (ascii : Ascii close) (other : isWs close = false) (apart : close ≠ ',')
    (m : String) (later : ∀ before rest, cs = before ++ ',' :: rest → Reads w f rest (more (encode rest)))
    (last : ∀ rest, Reads w' f rest (done (encode rest))) :
    Reads (Led fun text a => (∃ t, text = ',' :: t ∧ w t a) ∨ ∃ t, text = close :: t ∧ w' t a) f cs
      (afterItem (byteOf close) m more done (encode cs)) := by
  have starts : Starts fun text (a : α) => (∃ t, text = ',' :: t ∧ w t a) ∨ ∃ t, text = close :: t ∧ w' t a := by
    rintro text a (⟨t, rfl, _⟩ | ⟨t, rfl, _⟩)
    · exact ⟨',', t, rfl, rfl⟩
    · exact ⟨close, t, rfl, other⟩
  have some_ : ∀ a : α, ¬ ((∃ t, [] = ',' :: t ∧ w t a) ∨ ∃ t, [] = close :: t ∧ w' t a) := by
    rintro a (⟨t, same, _⟩ | ⟨t, same, _⟩) <;> cases same
  apply Reads.skip _ starts
  rw [afterItem, skipWs_encode]
  have whole := @List.takeWhile_append_dropWhile _ isWs cs
  cases left : cs.dropWhile isWs with
  | nil => exact Reads.none_of_nil m some_
  | cons d rest =>
    rw [left] at whole
    obtain ⟨b, bytes, begins, equal, _, tail⟩ := encode_first d rest
    rw [begins]
    dsimp only
    by_cases comma : d = ','
    · subst comma
      rw [if_pos ((equal ',' (by decide)).mpr rfl), tail (by decide)]
      apply Reads.cons _ some_
      apply (later _ rest whole.symm).congr _ fun _ after => after
      intro text a
      constructor
      · exact fun written => .inl ⟨text, rfl, written⟩
      · rintro (⟨_, same, written⟩ | ⟨_, same, _⟩)
        · rwa [(List.cons.inj same).2]
        · exact absurd (List.cons.inj same).1.symm apart
    · rw [if_neg fun byte => comma ((equal ',' (by decide)).mp byte)]
      by_cases same : d = close
      · subst same
        rw [if_pos ((equal d ascii).mpr rfl), tail ascii]
        apply Reads.cons _ some_
        apply (last rest).congr _ fun _ after => after
        intro text a
        constructor
        · exact fun written => .inr ⟨text, rfl, written⟩
        · rintro (⟨_, same, _⟩ | ⟨_, same, written⟩)
          · exact absurd (List.cons.inj same).1 apart
          · rwa [(List.cons.inj same).2]
      · rw [if_neg fun byte => same ((equal close ascii).mp byte)]
        apply Reads.none_of_head
        rintro text a (⟨t, rfl, _⟩ | ⟨t, rfl, _⟩)
        · exact ⟨',', t, rfl, Ne.symm comma⟩
        · exact ⟨close, t, rfl, Ne.symm same⟩

end Blanks

end Adelie.Json
