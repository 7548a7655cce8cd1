import Adelie.Sql.JsonValues

namespace Adelie.Json

open Utf8

/-- What may stand behind a value. -/
def Follow (rest : List Char) : Prop := ∀ c, rest.head? = some c → isWs c = true ∨ c = ',' ∨ c = ']' ∨ c = '\x7d'

theorem Follow.halts {rest : List Char} (follow : Follow rest) : Halts rest := by
  have each : ∀ c, rest.head? = some c → c.isDigit = false ∧ (c == '.') = false ∧ (c == 'e' || c == 'E') = false := by
    intro c first
    have known := follow c first
    simp only [isWs, Bool.or_eq_true, beq_iff_eq] at known
    rcases known with (((rfl | rfl) | rfl) | rfl) | rfl | rfl | rfl
    all_goals decide
  exact ⟨fun c first => (each c first).1, fun c first => (each c first).2.1, fun c first => (each c first).2.2⟩

theorem follow_cons {c : Char} {rest : List Char} (known : isWs c = true ∨ c = ',' ∨ c = ']' ∨ c = '\x7d') : Follow (c :: rest) := by
  intro d first
  cases first
  exact known

theorem follow_blank {before rest : List Char} (blank : Ws before) (follow : Follow rest) : Follow (before ++ rest) := by
  cases before with
  | nil => exact follow
  | cons c before => exact follow_cons (.inl (blank c List.mem_cons_self))

section Items

variable {α : Type} {cs : List Char} {f : List Char → Prop} {w : List Char → α → Prop} {item : Parse α} {close : Char}

/-- Items and what closes them, behind others. -/
def Rest (w : List Char → α → Prop) (close : Char) (items : List α) (text : List Char) (as : List α) : Prop :=
  ∃ body later, text = body ++ [close] ∧ Items w body later ∧ as = items ++ later

theorem parseItems_reads (each : ∀ cs, Reads (Led w) Follow cs (item (encode cs))) (ascii : Ascii close) (other : isWs close = false)
    (ends : close = ']' ∨ close = '\x7d') (m : String) {fuel : Nat} (enough : size cs < fuel) (items : List α) :
    Reads (Rest w close items) f cs (parseItems item (byteOf close) m fuel items (encode cs)) := by
  have apart : close ≠ ',' := by
    rcases ends with rfl | rfl <;> decide
  induction fuel generalizing cs items with
  | zero => exact absurd enough (Nat.not_lt_zero _)
  | succ fuel ih =>
    have later : ∀ a text rest, cs = text ++ rest → Led w text a → Reads (Led fun text as =>
        (∃ t, text = ',' :: t ∧ Rest w close (items ++ [a]) t as) ∨ ∃ t, text = close :: t ∧ (t = [] ∧ as = items ++ [a])) f rest
        (afterItem (byteOf close) m (parseItems item (byteOf close) m fuel (items ++ [a])) (fun rest => .ok (items ++ [a], rest)) (encode rest)) := by
      intro a text rest whole _
      apply afterItem_reads ascii other apart m
      · intro before rest' whole'
        apply ih
        have pos := ','.utf8Size_pos
        rw [whole, whole', size_append, size_append, size_cons] at enough
        omega
      · intro rest
        exact Reads.pure (items ++ [a])
    have run := Reads.bind (q := fun a bytes => afterItem (byteOf close) m (parseItems item (byteOf close) m fuel (items ++ [a]))
      (fun rest => .ok (items ++ [a], rest)) bytes) (each cs) later (by
        rintro a _ rest as ⟨before, _, rfl, blank, ⟨t, rfl, _⟩ | ⟨t, rfl, _⟩⟩ _
        all_goals
          rw [List.append_assoc]
          apply follow_blank blank
        · exact follow_cons (.inr (.inl rfl))
        · exact follow_cons (.inr (.inr ends)))
    apply run.congr _ fun _ after => after
    intro text as
    constructor
    · rintro ⟨_, _, a, rfl, ⟨lead, t, rfl, blank, written⟩, after, _, rfl, blank', ⟨_, rfl, body, more, rfl, list, rfl⟩ | ⟨_, rfl, rfl, rfl⟩⟩
      · refine ⟨lead ++ (t ++ (after ++ ',' :: body)), a :: more, by simp, .more blank written blank' list, by simp⟩
      · exact ⟨lead ++ (t ++ after), [a], by simp, .one blank written blank', rfl⟩
    · rintro ⟨body, more, rfl, list, rfl⟩
      cases list with
      | @one before t after a blank written blank' =>
        exact ⟨before ++ t, after ++ [close], a, by simp, ⟨before, t, rfl, blank, written⟩, after, [close], rfl, blank',
          .inr ⟨[], rfl, rfl, rfl⟩⟩
      | @more before t after body a more blank written blank' list =>
        exact ⟨before ++ t, after ++ ',' :: (body ++ [close]), a, by simp, ⟨before, t, rfl, blank, written⟩, after, _, rfl, blank',
          .inl ⟨_, rfl, body, more, rfl, list, by simp⟩⟩

theorem Items.led {before body : List Char} {as : List α} (blank : Ws before) (items : Items w body as) : Items w (before ++ body) as := by
  have both {lead : List Char} (blank' : Ws lead) : Ws (before ++ lead) := by
    intro c member
    rcases List.mem_append.mp member with inside | inside
    · exact blank c inside
    · exact blank' c inside
  cases items with
  | one lead written trail =>
    rw [← List.append_assoc]
    exact .one (both lead) written trail
  | more lead written trail later =>
    rw [← List.append_assoc]
    exact .more (both lead) written trail later

theorem Items.trimmed {body : List Char} {as : List α} (items : Items w body as) :
    ∃ before text rest, body = before ++ (text ++ rest) ∧ Ws before ∧ (∃ a, w text a) ∧ Items w (text ++ rest) as := by
  cases items with
  | one lead written trail => exact ⟨_, _, _, rfl, lead, ⟨_, written⟩, .one ws_nil written trail⟩
  | more lead written trail later => exact ⟨_, _, _, rfl, lead, ⟨_, written⟩, .more ws_nil written trail later⟩

/-- A list past what opens it. -/
theorem parseAll_reads (each : ∀ cs, Reads (Led w) Follow cs (item (encode cs))) (starts : Starts w) (ascii : Ascii close)
    (other : isWs close = false) (ends : close = ']' ∨ close = '\x7d') (apart : ∀ text a, w text a → text.head? ≠ some close) (m : String) :
    Reads (fun text as => ∃ body, text = body ++ [close] ∧ Listed w body as) f cs (parseAll item (byteOf close) m (encode cs)) := by
  have whole := @List.takeWhile_append_dropWhile _ isWs cs
  have stop (rest : List Char) : ∀ c, (close :: rest).head? = some c → isWs c = false := by
    intro c first
    cases first
    exact other
  have first (items : List α) (body rest : List Char) (list : Items w body items) :
      ∃ text more, (body ++ rest).dropWhile isWs = text ++ more ++ rest ∧ (∃ a, w text a) ∧ Items w (text ++ more) items := by
    obtain ⟨before, text, more, rfl, blank, ⟨a, written⟩, list⟩ := list.trimmed
    refine ⟨text, more, ?_, ⟨a, written⟩, list⟩
    have left := @dropWhile_led _ w before text (more ++ rest) a starts blank written
    simpa using left
  have head (text more : List Char) (written : ∃ a, w text a) : (text ++ more).head? ≠ some close := by
    obtain ⟨a, written⟩ := written
    obtain ⟨c, more', rfl, _⟩ := starts text a written
    exact apart (c :: more') a written
  have byte := @head_encode close (cs.dropWhile isWs) ascii
  rw [parseAll, skipWs_encode]
  by_cases closed : (cs.dropWhile isWs).head? = some close
  · rw [if_pos (byte.mpr closed)]
    obtain ⟨rest, left⟩ := List.head?_eq_some_iff.mp closed
    have tail : (encode (close :: rest)).tail = encode rest := by
      rw [encode_ascii ascii]
      rfl
    rw [left] at whole ⊢
    rw [tail]
    constructor
    · intro as bytes read
      cases read
      exact ⟨cs.takeWhile isWs ++ [close], rest, by simp [whole], ⟨_, rfl, .none (ws_takeWhile cs)⟩, rfl⟩
    · rintro _ rest' as rfl ⟨body, rfl, blank | list⟩ _
      · rw [List.append_assoc, List.singleton_append, dropWhile_stop blank (stop rest')] at left
        rw [(List.cons.inj left).2]
      · obtain ⟨text, more, same, written, _⟩ := first as body ([close] ++ rest') list
        rw [List.append_assoc body, same, List.append_assoc] at closed
        exact absurd closed (head text _ written)
    · intro s stopped
      cases stopped
  · rw [if_neg fun first => closed (byte.mp first)]
    have enough : size (cs.dropWhile isWs) < (encode cs).length + 1 := by
      have total := congrArg size whole
      have length : (encode cs).length = size cs := rfl
      rw [size_append] at total
      omega
    have run := @parseItems_reads α _ f w item close each ascii other ends m _ enough []
    constructor
    · intro as bytes read
      obtain ⟨_, rest, left, ⟨body, _, rfl, list, rfl⟩, after⟩ := run.sound as bytes read
      refine ⟨cs.takeWhile isWs ++ body ++ [close], rest, ?_, ⟨_, rfl, .some (list.led (ws_takeWhile cs))⟩, after⟩
      rw [left] at whole
      rw [List.append_assoc, List.append_assoc, ← List.append_assoc body, whole]
    · rintro _ rest as rfl ⟨body, rfl, blank | list⟩ follow
      · rw [List.append_assoc, List.singleton_append, dropWhile_stop blank (stop rest)] at closed
        exact absurd rfl closed
      · obtain ⟨text, more, same, written, list'⟩ := first as body ([close] ++ rest) list
        apply run.complete (text ++ more ++ [close]) rest as _ ⟨_, _, rfl, list', rfl⟩ follow
        rw [List.append_assoc body, same]
        simp
    · exact run.safe

end Items

section Values

variable {cs : List Char} {f : List Char → Prop} {w : List Char → Json → Prop}

theorem member_starts : Starts (Member w) := by
  rintro _ _ ⟨_, _, _, _⟩
  exact ⟨'"', _, rfl, rfl⟩

theorem parseMember_reads {value : Parse Json} (each : ∀ cs, Reads (Led w) Follow cs (value (encode cs))) (starts : Starts w) (cs : List Char) :
    Reads (Led (Member w)) Follow cs (parseMember value (encode cs)) := by
  have behind (key : String) (cs : List Char) : Reads (Led fun t m => ∃ u, t = ':' :: u ∧ ∃ v, Led w u v ∧ m = (key, v)) Follow cs
      (expect (byteOf ':') "expected ':'" (fun bytes => (value (skipWs bytes)).bind fun x => .ok ((key, x.1), x.2)) (encode cs)) :=
    expect_reads (by decide) rfl _ fun rest => (Reads.skip_led each starts rest).map fun v => (key, v)
  have named (cs : List Char) := Reads.bind (q := fun key bytes => expect (byteOf ':') "expected ':'"
    (fun bytes => (value (skipWs bytes)).bind fun x => .ok ((key, x.1), x.2)) bytes)
    (@parseString_reads (fun _ => True) cs) (fun key _ rest _ _ => behind key rest) fun _ _ _ _ _ _ => trivial
  have run : Reads _ Follow cs (parseMember value (encode cs)) := expect_reads (by decide) rfl "expected a string key" named
  apply run.congr _ fun _ after => after
  intro text m
  apply exists_congr
  intro before
  apply exists_congr
  intro t
  apply and_congr_right
  intro _
  apply and_congr_right
  intro _
  constructor
  · rintro ⟨_, rfl, _, _, _, rfl, ⟨key, closed, rfl⟩, lead, _, rfl, blank, _, rfl, v, ⟨trail, text, rfl, blank', written⟩, rfl⟩
    obtain ⟨body, rfl, name⟩ := closed_iff.mp closed
    have made := Member.mk name blank blank' written
    simpa using made
  · rintro ⟨name, blank, blank', written⟩
    exact ⟨_, rfl, _, _, _, by simp, ⟨_, closed_iff.mpr ⟨_, rfl, name⟩, rfl⟩, _, _, rfl, blank, _, rfl, _,
      ⟨_, _, rfl, blank', written⟩, rfl⟩

theorem literal_encode {word : List Char} (ascii : ∀ c ∈ word, Ascii c) (v : Json) (cs : List Char) :
    literal (String.ofList word) v (encode cs) = if word <+: cs then some (v, encode (cs.drop word.length)) else none := by
  rw [literal, String.toList_ofList]
  by_cases first : word <+: cs
  · obtain ⟨rest, rfl⟩ := first
    have bytes : (encode word).isPrefixOf (encode (word ++ rest)) = true := by
      rw [List.isPrefixOf_iff_prefix, encode_append]
      exact List.prefix_append _ _
    rw [if_pos bytes, if_pos (List.prefix_append _ _), List.drop_left, encode_append, List.drop_left]
  · have bytes : ¬ (encode word).isPrefixOf (encode cs) = true := by
      rw [List.isPrefixOf_iff_prefix, prefix_encode ascii]
      exact first
    rw [if_neg bytes, if_neg first]

theorem literal_reads {word : List Char} {v : Json} (first : word <+: cs) :
    Reads (fun text v' => text = word ∧ v' = v) f cs (.ok (v, encode (cs.drop word.length))) where
  sound := by
    obtain ⟨rest, rfl⟩ := first
    intro v' bytes read
    cases read
    exact ⟨word, rest, rfl, ⟨rfl, rfl⟩, by rw [List.drop_left]⟩
  complete := by
    rintro text rest v' rfl ⟨rfl, rfl⟩ _
    rw [List.drop_left]
  safe := fun _ stopped => by cases stopped

theorem parseNull_reads (cs : List Char) : Reads (fun text v => text = "null".toList ∧ v = Json.null) f cs (parseNull (encode cs)) := by
  have same := literal_encode (by simp [Ascii] : ∀ c ∈ ['n', 'u', 'l', 'l'], Ascii c) .null cs
  rw [parseNull]
  change Reads _ f cs (Option.elim (literal (String.ofList ['n', 'u', 'l', 'l']) .null (encode cs)) _ _)
  rw [same]
  by_cases first : ['n', 'u', 'l', 'l'] <+: cs
  · rw [if_pos first]
    exact literal_reads first
  · rw [if_neg first]
    apply Reads.fail
    rintro _ rest v rfl ⟨rfl, rfl⟩ _
    exact first (List.prefix_append _ _)

/-- One of the two literals of a truth value. -/
def Truth (text : List Char) (v : Json) : Prop := text = "true".toList ∧ v = .bool true ∨ text = "false".toList ∧ v = .bool false

theorem parseBool_reads (cs : List Char) : Reads Truth f cs (parseBool (encode cs)) := by
  have same := literal_encode (by simp [Ascii] : ∀ c ∈ ['t', 'r', 'u', 'e'], Ascii c) (.bool true) cs
  have same' := literal_encode (by simp [Ascii] : ∀ c ∈ ['f', 'a', 'l', 's', 'e'], Ascii c) (.bool false) cs
  rw [parseBool]
  change Reads _ f cs (Option.elim (literal (String.ofList ['t', 'r', 'u', 'e']) (.bool true) (encode cs))
    (Option.elim (literal (String.ofList ['f', 'a', 'l', 's', 'e']) (.bool false) (encode cs)) _ _) _)
  rw [same, same']
  by_cases first : ['t', 'r', 'u', 'e'] <+: cs
  · rw [if_pos first]
    apply (literal_reads first).narrow
    · exact fun text v written => .inl written
    · rintro text rest v rfl (written | ⟨rfl, rfl⟩)
      · exact written
      · obtain ⟨_, whole⟩ := first
        exact absurd (List.cons.inj whole).1 (by decide)
  · rw [if_neg first]
    by_cases second : ['f', 'a', 'l', 's', 'e'] <+: cs
    · rw [if_pos second]
      apply (literal_reads second).narrow
      · exact fun text v written => .inr written
      · rintro text rest v rfl (⟨rfl, rfl⟩ | written)
        · exact absurd (List.prefix_append _ _) first
        · exact written
    · rw [if_neg second]
      apply Reads.fail
      rintro _ rest v rfl (⟨rfl, _⟩ | ⟨rfl, _⟩) _
      · exact first (List.prefix_append _ _)
      · exact second (List.prefix_append _ _)

/-- What the first character of a value says of it. -/
def Headed (w : List Char → Json → Prop) (c : Char) (t : List Char) (v : Json) : Prop :=
  if c = '\x7b' ∨ c = '[' then w (c :: t) v
  else if c = '"' then ∃ s, Closed t s ∧ v = .string (String.ofList s)
  else if c = 't' ∨ c = 'f' then Truth (c :: t) v
  else if c = 'n' then c :: t = "null".toList ∧ v = .null
  else if c = '-' ∨ c.isDigit = true then Number Digits (c :: t) ∧ v = .number (String.ofList (c :: t))
  else False

theorem headed_number {c : Char} (first : c = '-' ∨ c.isDigit = true) (t : List Char) (v : Json) :
    Headed w c t v ↔ Number Digits (c :: t) ∧ v = .number (String.ofList (c :: t)) := by
  have other : (¬ (c = '\x7b' ∨ c = '[')) ∧ c ≠ '"' ∧ (¬ (c = 't' ∨ c = 'f')) ∧ c ≠ 'n' := by
    rcases first with rfl | digit_
    · decide
    · refine ⟨?_, ?_, ?_, ?_⟩
      · rintro (rfl | rfl) <;> cases digit_
      · rintro rfl
        cases digit_
      · rintro (rfl | rfl) <;> cases digit_
      · rintro rfl
        cases digit_
  obtain ⟨opens, quote, truth, null⟩ := other
  rw [Headed, if_neg opens, if_neg quote, if_neg truth, if_neg null, if_pos first]

theorem headed_of {text t : List Char} {c : Char} {v : Json} (opens : ∀ text v, w text v → ∃ t, text = '\x7b' :: t ∨ text = '[' :: t)
    (written : Scalar (Number Digits) text v ∨ w text v) (begins : text = c :: t) : Headed w c t v := by
  rcases written with scalar | written
  · cases scalar with
    | null =>
      obtain ⟨rfl, rfl⟩ := List.cons.inj begins
      exact ⟨rfl, rfl⟩
    | true_ =>
      obtain ⟨rfl, rfl⟩ := List.cons.inj begins
      exact .inl ⟨rfl, rfl⟩
    | false_ =>
      obtain ⟨rfl, rfl⟩ := List.cons.inj begins
      exact .inr ⟨rfl, rfl⟩
    | number number =>
      obtain ⟨d, more, same, first⟩ := number.begins
      rw [begins] at same
      obtain ⟨rfl, rfl⟩ := List.cons.inj same
      rw [begins] at number ⊢
      exact (headed_number first t _).mpr ⟨number, rfl⟩
    | string denoted =>
      obtain ⟨rfl, rfl⟩ := List.cons.inj begins
      exact ⟨_, closed_iff.mpr ⟨_, rfl, denoted⟩, rfl⟩
  · obtain ⟨more, same | same⟩ := opens text v written
    all_goals
      rw [begins] at same written
      obtain ⟨rfl, rfl⟩ := List.cons.inj same
      exact written

/-- What a first character chooses. -/
theorem dispatch_reads {object array : Parse Json} (opens : ∀ text v, w text v → ∃ t, text = '\x7b' :: t ∨ text = '[' :: t)
    (braced : ∀ rest, Reads (fun text v => w ('\x7b' :: text) v) Follow rest (object (encode rest)))
    (bracketed : ∀ rest, Reads (fun text v => w ('[' :: text) v) Follow rest (array (encode rest))) (cs : List Char) :
    Reads (Led fun text v => Scalar (Number Digits) text v ∨ w text v) Follow cs (dispatch object array (encode cs)) := by
  have starts : Starts fun text v => Scalar (Number Digits) text v ∨ w text v := by
    rintro text v (scalar | written)
    · obtain ⟨c, more, rfl, begins⟩ := scalar.begins
      exact ⟨c, more, rfl, begins.not_ws⟩
    · obtain ⟨t, rfl | rfl⟩ := opens text v written
      · exact ⟨_, t, rfl, rfl⟩
      · exact ⟨_, t, rfl, rfl⟩
  have some_ : ∀ v, ¬ (Scalar (Number Digits) [] v ∨ w [] v) := by
    intro v written
    obtain ⟨c, more, same, _⟩ := starts [] v written
    cases same
  apply Reads.skip _ starts
  rw [dispatch, skipWs_encode]
  cases cs.dropWhile isWs with
  | nil => exact Reads.none_of_nil _ some_
  | cons d rest =>
    have onto {text rest' : List Char} {v : Json} (whole : d :: rest = text ++ rest') (written : Scalar (Number Digits) text v ∨ w text v) :
        ∃ t, text = d :: t ∧ Headed w d t v := by
      obtain ⟨c, t, rfl, _⟩ := starts text v written
      obtain ⟨rfl, _⟩ := List.cons.inj whole
      exact ⟨t, rfl, headed_of opens written rfl⟩
    obtain ⟨b, bytes, begins, equal, classes, tail⟩ := encode_first d rest
    rw [begins]
    dsimp only
    by_cases brace : d = '\x7b'
    · subst brace
      rw [if_pos ((equal _ (by decide)).mpr rfl), tail (by decide)]
      apply Reads.cons _ some_
      exact (braced rest).congr (fun text v => ⟨.inr, fun written => headed_of opens written rfl⟩) fun _ after => after
    rw [if_neg fun byte => brace ((equal _ (by decide)).mp byte)]
    by_cases bracket : d = '['
    · subst bracket
      rw [if_pos ((equal _ (by decide)).mpr rfl), tail (by decide)]
      apply Reads.cons _ some_
      exact (bracketed rest).congr (fun text v => ⟨.inr, fun written => headed_of opens written rfl⟩) fun _ after => after
    rw [if_neg fun byte => bracket ((equal _ (by decide)).mp byte)]
    by_cases quote : d = '"'
    · subst quote
      rw [if_pos ((equal _ (by decide)).mpr rfl), tail (by decide)]
      apply Reads.cons _ some_
      have run := (@parseString_reads Follow rest).map Json.string
      apply run.congr _ fun _ after => after
      intro text v
      constructor
      · rintro ⟨_, ⟨s, closed, rfl⟩, rfl⟩
        obtain ⟨body, rfl, denoted⟩ := closed_iff.mp closed
        exact .inl (.string denoted)
      · intro written
        obtain ⟨s, closed, rfl⟩ : ∃ s, Closed text s ∧ v = .string (String.ofList s) := headed_of opens written rfl
        exact ⟨_, ⟨s, closed, rfl⟩, rfl⟩
    rw [if_neg fun byte => quote ((equal _ (by decide)).mp byte), ← begins]
    have both : (b = byteOf 't' ∨ b = byteOf 'f') ↔ (d = 't' ∨ d = 'f') := or_congr (equal _ (by decide)) (equal _ (by decide))
    have number : (b = byteOf '-' ∨ digit b = true) ↔ (d = '-' ∨ d.isDigit = true) := by
      rw [equal _ (by decide), classes _ _ digit_classes]
    by_cases truth : d = 't' ∨ d = 'f'
    · rw [if_pos (both.mpr truth)]
      apply (parseBool_reads (d :: rest)).narrow
      · rintro text v (⟨rfl, rfl⟩ | ⟨rfl, rfl⟩)
        · exact .inl .true_
        · exact .inl .false_
      · intro text rest' v whole written
        obtain ⟨t, rfl, headed⟩ := onto whole written
        rcases truth with rfl | rfl <;> exact headed
    rw [if_neg fun byte => truth (both.mp byte)]
    by_cases null : d = 'n'
    · subst null
      rw [if_pos ((equal _ (by decide)).mpr rfl)]
      apply (parseNull_reads ('n' :: rest)).narrow
      · rintro text v ⟨rfl, rfl⟩
        exact .inl .null
      · intro text rest' v whole written
        obtain ⟨t, rfl, headed⟩ := onto whole written
        exact headed
    rw [if_neg fun byte => null ((equal _ (by decide)).mp byte)]
    by_cases first : d = '-' ∨ d.isDigit = true
    · rw [if_pos (number.mpr first)]
      have run := (parseNumber_reads (d :: rest)).congr (fun _ _ => Iff.rfl) fun rest follow => Follow.halts follow
      apply run.narrow
      · rintro text v ⟨number, rfl⟩
        exact .inl (.number number)
      · intro text rest' v whole written
        obtain ⟨t, rfl, headed⟩ := onto whole written
        exact (headed_number first t v).mp headed
    · rw [if_neg fun byte => first (number.mp byte)]
      apply Reads.fail
      intro text rest' v whole written _
      obtain ⟨t, rfl, headed⟩ := onto whole written
      rw [Headed, if_neg (not_or.mpr ⟨brace, bracket⟩), if_neg quote, if_neg truth, if_neg null, if_neg first] at headed
      exact headed

theorem text_starts {n : Nat} : Starts (Text (Number Digits) n) := by
  intro text v written
  obtain ⟨c, more, rfl, begins⟩ := written.begins
  exact ⟨c, more, rfl, begins.not_ws⟩

theorem container_reads {value : Parse Json} (starts : Starts w) (apart : ∀ text v, w text v → text.head? ≠ some ']')
    (each : ∀ cs, Reads (Led w) Follow cs (value (encode cs))) (rest : List Char) :
    Reads (fun t v => Container w ('\x7b' :: t) v) Follow rest (parseObject value (encode rest)) ∧
      Reads (fun t v => Container w ('[' :: t) v) Follow rest (parseArray value (encode rest)) := by
  have member_apart : ∀ text m, Member w text m → text.head? ≠ some '\x7d' := by
    rintro _ _ ⟨_, _, _, _⟩ same
    exact absurd (Option.some.inj same) (by decide)
  constructor
  · have run := (@parseAll_reads _ rest Follow (Member w) (parseMember value) '\x7d' (parseMember_reads each starts) member_starts (by decide) rfl
      (.inr rfl) member_apart "expected ',' or '\x7d'").map Json.object
    apply run.congr _ fun _ after => after
    intro text v
    constructor
    · rintro ⟨members, ⟨body, rfl, listed⟩, rfl⟩
      exact .object listed
    · rintro (_ | listed)
      exact ⟨_, ⟨_, rfl, listed⟩, rfl⟩
  · have run := (@parseAll_reads _ rest Follow w (fun bytes => value (skipWs bytes)) ']' (Reads.skip_led each starts) starts (by decide) rfl
      (.inl rfl) apart "expected ',' or ']'").map Json.array
    apply run.congr _ fun _ after => after
    intro text v
    constructor
    · rintro ⟨items, ⟨body, rfl, listed⟩, rfl⟩
      exact .array listed
    · rintro (listed | _)
      exact ⟨_, ⟨_, rfl, listed⟩, rfl⟩

/-- A value is read where it is written no deeper than that. -/
theorem parseValue_reads (n : Nat) (cs : List Char) : Reads (Led (Text (Number Digits) n)) Follow cs (parseValue n (encode cs)) := by
  induction n generalizing cs with
  | zero =>
    have refused (c : Char) (rest : List Char) : Reads (fun (_ : List Char) (_ : Json) => False) Follow rest (tooDeep (encode rest)) :=
      Reads.fail _ fun _ _ _ _ none_ _ => none_
    have run := @dispatch_reads (fun _ _ => False) tooDeep tooDeep (fun _ _ none_ => none_.elim) (refused '\x7b') (refused '[') cs
    apply run.congr _ fun _ after => after
    intro text v
    simp only [Led, or_false]
    rfl
  | succ n ih =>
    have apart : ∀ text v, Text (Number Digits) n text v → text.head? ≠ some ']' := by
      intro text v written same
      obtain ⟨c, more, rfl, begins⟩ := written.begins
      exact begins.other (by decide) rfl (Option.some.inj same)
    have opens : ∀ text v, Container (Text (Number Digits) n) text v → ∃ t, text = '\x7b' :: t ∨ text = '[' :: t := by
      rintro _ _ (_ | _)
      · exact ⟨_, .inr rfl⟩
      · exact ⟨_, .inl rfl⟩
    exact dispatch_reads opens (fun rest => (container_reads text_starts apart ih rest).1)
      (fun rest => (container_reads text_starts apart ih rest).2) cs

end Values

section Lines

variable {line : String} {row : Nat} {v : Json}

/-- A line, without what surrounds it, is such a text of JSON no deeper than the parser allows. -/
def Denotes (number : List Char → Prop) (line : String) (v : Json) : Prop :=
  ∃ before text after, trim line.toList = before ++ (text ++ after) ∧ Ws before ∧ Ws after ∧ Text number MAX_JSON_DEPTH text v

theorem dropWhile_ws {text : List Char} : text.dropWhile isWs = [] ↔ Ws text := List.dropWhile_eq_nil_iff

theorem parseLine_iff : parseLine line row = .ok (some v) ↔ Denotes (Number Digits) line v := by
  have reads := parseValue_reads MAX_JSON_DEPTH (trim line.toList)
  rw [parseLine]
  by_cases blank : trim line.toList = []
  · rw [if_pos blank]
    constructor
    · intro none_
      cases none_
    · rintro ⟨before, text, after, whole, _, _, written⟩
      obtain ⟨c, more, rfl, _⟩ := written.begins
      rw [blank] at whole
      simp at whole
  · rw [if_neg blank]
    constructor
    · intro read
      cases ran : parseValue MAX_JSON_DEPTH (encode (trim line.toList)) with
      | error s =>
        rw [ran] at read
        cases read
      | ok x =>
        obtain ⟨v', bytes⟩ := x
        rw [ran] at read
        dsimp only at read
        split at read
        · rename_i done
          cases read
          obtain ⟨_, rest, whole, ⟨before, text, rfl, lead, written⟩, rfl⟩ := reads.sound v bytes ran
          rw [skipWs_encode, encode_eq_nil, dropWhile_ws] at done
          exact ⟨before, text, rest, by rw [whole, List.append_assoc], lead, done, written⟩
        · cases read
    · rintro ⟨before, text, after, whole, lead, trail, written⟩
      have follow : Follow after := List.append_nil after ▸ follow_blank trail (fun _ none_ => by cases none_)
      have ran := reads.complete (before ++ text) after v (by rw [whole, List.append_assoc]) ⟨before, text, rfl, lead, written⟩ follow
      have done : skipWs (encode after) = [] := by
        rw [skipWs_encode, encode_eq_nil, dropWhile_ws]
        exact trail
      rw [ran]
      exact if_pos done

/-- A line is refused by a message, never by a stop of the parser itself. -/
theorem parseLine_error {e : LineError} (refused : parseLine line row = .error e) : ∃ m, e = .ingest (.malformed row m) := by
  have reads := parseValue_reads MAX_JSON_DEPTH (trim line.toList)
  rw [parseLine] at refused
  by_cases blank : trim line.toList = []
  · rw [if_pos blank] at refused
    cases refused
  · rw [if_neg blank] at refused
    cases ran : parseValue MAX_JSON_DEPTH (encode (trim line.toList)) with
    | error s =>
      obtain ⟨m, rfl⟩ := reads.safe s ran
      rw [ran] at refused
      cases refused
      exact ⟨m, rfl⟩
    | ok x =>
      rw [ran] at refused
      dsimp only at refused
      split at refused
      · cases refused
      · cases refused
        exact ⟨_, rfl⟩

theorem Digits.ended {ds : List Char} (digits : Digits ds) : ∃ front c, ds = front ++ [c] ∧ c.isDigit = true := by
  obtain ⟨given, all⟩ := digits
  obtain rfl | ⟨front, c, rfl⟩ := List.eq_nil_or_concat' ds
  · exact absurd rfl given
  · exact ⟨front, c, rfl, all c (by simp)⟩

theorem Number.ended {text : List Char} (number : Number Digits text) : ∃ front c, text = front ++ [c] ∧ c.isDigit = true := by
  obtain ⟨_, digits, f, x⟩ := number
  rename_i sign ds fraction exponent _
  cases x with
  | some mark signed digits' =>
    obtain ⟨front, c, rfl, digit_⟩ := digits'.ended
    exact ⟨_, c, by simp only [← List.append_assoc, ← List.cons_append]; rfl, digit_⟩
  | none =>
    cases f with
    | some digits' =>
      obtain ⟨front, c, rfl, digit_⟩ := digits'.ended
      exact ⟨sign ++ (ds ++ '.' :: front), c, by simp, digit_⟩
    | none =>
      obtain ⟨front, c, rfl, digit_⟩ := digits.ended
      exact ⟨sign ++ front, c, by simp, digit_⟩

theorem not_whitespace_of_digit {c : Char} (digit_ : c.isDigit = true) : isAsciiWhitespace c = false := by
  simp only [isAsciiWhitespace, Bool.or_eq_false_iff, beq_eq_false_iff_ne]
  refine ⟨⟨⟨⟨?_, ?_⟩, ?_⟩, ?_⟩, ?_⟩
  all_goals
    rintro rfl
    cases digit_

theorem Begins.not_whitespace {c : Char} (begins : Begins c) : isAsciiWhitespace c = false := by
  rcases begins with known | digit_
  · simp only [List.mem_cons, List.not_mem_nil, or_false] at known
    rcases known with rfl | rfl | rfl | rfl | rfl | rfl | rfl <;> decide
  · exact not_whitespace_of_digit digit_

theorem Text.ended {n : Nat} {text : List Char} (written : Text (Number Digits) n text v) :
    ∃ front c, text = front ++ [c] ∧ isAsciiWhitespace c = false := by
  have scalars : ∀ {text v}, Scalar (Number Digits) text v → ∃ front c, text = front ++ [c] ∧ isAsciiWhitespace c = false := by
    intro text v scalar
    cases scalar with
    | null => exact ⟨['n', 'u', 'l'], 'l', rfl, by decide⟩
    | true_ => exact ⟨['t', 'r', 'u'], 'e', rfl, by decide⟩
    | false_ => exact ⟨['f', 'a', 'l', 's'], 'e', rfl, by decide⟩
    | number number =>
      obtain ⟨front, c, rfl, digit_⟩ := number.ended
      exact ⟨front, c, rfl, not_whitespace_of_digit digit_⟩
    | string denoted => exact ⟨'"' :: _, '"', rfl, by decide⟩
  cases n with
  | zero => exact scalars written
  | succ n =>
    rcases written with scalar | container
    · exact scalars scalar
    · cases container with
      | array listed => exact ⟨'[' :: _, ']', rfl, by decide⟩
      | object listed => exact ⟨'\x7b' :: _, '\x7d', rfl, by decide⟩

/-- A text of JSON has nothing around it to trim. -/
theorem trim_text {n : Nat} {text : List Char} (written : Text (Number Digits) n text v) : trim text = text := by
  obtain ⟨front, d, same, last⟩ := written.ended
  obtain ⟨c, more, begins, first⟩ := written.begins
  have left : text.dropWhile isAsciiWhitespace = text := by
    rw [begins, List.dropWhile_cons_of_neg (by rw [first.not_whitespace]; decide)]
  rw [trim, left, same, List.rdropWhile_concat_neg _ _ _ (by rw [last]; decide)]

/-- What is read off a line is read off its own text again. -/
theorem denotes_again (denoted : Denotes (Number Digits) line v) : Denotes (Number Digits) (String.ofList (toJsonText v)) v := by
  obtain ⟨_, text, _, _, _, _, written⟩ := denoted
  have again := written.written
  refine ⟨[], toJsonText v, [], ?_, ws_nil, ws_nil, again⟩
  rw [String.toList_ofList, trim_text again, List.append_nil, List.nil_append]

end Lines

/-- What a parser of JSON lines owes a line: the value it denotes and no other, no stop of its own, and that value again from its own text. -/
structure JsonLaw (line : String) : Prop where
  exact_ : ∀ row v, parseLine line row = .ok (some v) ↔ Denotes (Number Whole) line v
  safe : ∀ row e, parseLine line row = .error e → ∃ m, e = .ingest (.malformed row m)
  again : ∀ row v, parseLine line row = .ok (some v) → ∀ row', parseLine (String.ofList (toJsonText v)) row' = .ok (some v)

/-- A line of JSON, but for a number with a zero in front of its digits. -/
def LeadingZero (line : String) : Prop := ∃ v t, Denotes (Number Digits) line v ∧ NumberIn t v ∧ ZeroLed t.toList

theorem Denotes.whole {line : String} {v : Json} (denoted : Denotes (Number Digits) line v) (plain : ¬ LeadingZero line) :
    Denotes (Number Whole) line v := by
  have kept := denoted
  obtain ⟨before, text, after, same, lead, trail, written⟩ := denoted
  refine ⟨before, text, after, same, lead, trail, written.refine ?_⟩
  intro t inside number
  apply number.whole
  intro zero
  exact plain ⟨v, _, kept, inside, by rwa [String.toList_ofList]⟩

theorem Denotes.digits {line : String} {v : Json} (denoted : Denotes (Number Whole) line v) : Denotes (Number Digits) line v := by
  obtain ⟨before, text, after, same, lead, trail, written⟩ := denoted
  exact ⟨before, text, after, same, lead, trail, written.refine fun _ _ number => number.mono fun _ => Whole.digits⟩

theorem Denotes.not_zeroLed {line t : String} {v : Json} (denoted : Denotes (Number Whole) line v) (inside : NumberIn t v) : ¬ ZeroLed t.toList := by
  obtain ⟨_, _, _, _, _, _, written⟩ := denoted
  exact (written.numbers inside).not_zeroLed

theorem json_exact (line : String) : JsonLaw line ↔ ¬ LeadingZero line := by
  constructor
  · rintro law ⟨v, t, denoted, inside, zero⟩
    have read : parseLine line 0 = .ok (some v) := parseLine_iff.mpr denoted
    exact ((law.exact_ 0 v).mp read).not_zeroLed inside zero
  · intro plain
    constructor
    · intro row v
      rw [parseLine_iff]
      exact ⟨fun denoted => denoted.whole plain, Denotes.digits⟩
    · exact fun row e => parseLine_error
    · intro row v read row'
      exact parseLine_iff.mpr (denotes_again (parseLine_iff.mp read))

theorem json_leading_zero : parseLine "01" 1 = .ok (some (.number "01")) ∧ ¬ ∃ v, Denotes (Number Whole) "01" v := by
  have read : parseLine "01" 1 = .ok (some (.number "01")) := by rfl
  refine ⟨read, ?_⟩
  rintro ⟨v, denoted⟩
  have same := (parseLine_iff.mpr denoted.digits : parseLine "01" 1 = _).symm.trans read
  cases same
  exact denoted.not_zeroLed .number ⟨[], '1', [], .inl rfl, rfl, rfl⟩

end Adelie.Json
