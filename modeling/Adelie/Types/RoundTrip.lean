import Adelie.Types.DateText
import Adelie.Types.Ip

namespace Adelie

section Hex

variable {bytes : List UInt8}

theorem hexValue_hexDigit {n : Nat} (small : n < 16) : hexValue (hexDigit n) = some n := by
  have each : ∀ k : Fin 16, hexValue (hexDigit k.val) = some k.val := by decide
  exact each ⟨n, small⟩

theorem hexBytes_hex (bytes : List UInt8) : hexBytes (hex bytes) = some bytes := by
  induction bytes with
  | nil => rfl
  | cons b rest ih =>
    have small := b.toNat_lt
    have whole : b.toNat / 16 * 16 + b.toNat % 16 = b.toNat := by omega
    change hexBytes (hexDigit (b.toNat / 16) :: hexDigit (b.toNat % 16) :: hex rest) = _
    rw [hexBytes, hexValue_hexDigit (by omega), hexValue_hexDigit (by omega), ih]
    simp only [Option.bind_eq_bind, Option.bind_some, whole, UInt8.ofNat_toNat]
    rfl

theorem length_hex (bytes : List UInt8) : (hex bytes).length = 2 * bytes.length := by
  induction bytes with
  | nil => rfl
  | cons b rest ih =>
    change (hex rest).length + 2 = 2 * (rest.length + 1)
    omega

theorem hex_solid : ∀ c ∈ hex bytes, isAsciiWhitespace c = false := by
  have each : ∀ k : Fin 16, isAsciiWhitespace (hexDigit k.val) = false := by decide
  intro c inside
  obtain ⟨b, _, inside⟩ := List.mem_flatMap.mp inside
  have small := b.toNat_lt
  simp only [List.mem_cons, List.not_mem_nil, or_false] at inside
  rcases inside with rfl | rfl
  · exact each ⟨b.toNat / 16, by omega⟩
  · exact each ⟨b.toNat % 16, by omega⟩

theorem eraseIdx_between (front : List Char) (c : Char) (back : List Char) :
    (front ++ c :: back).eraseIdx front.length = front ++ back := by
  rw [List.eraseIdx_append_of_length_le (Nat.le_refl _), Nat.sub_self, List.eraseIdx_cons_zero]

theorem getElem?_between (front : List Char) (c : Char) (back : List Char) : (front ++ c :: back)[front.length]? = some c := by
  simp

/-- The dashes of a UUID are where the parser looks for them, and its digits are what they leave. -/
theorem parseUuid_chars {a b c d e : List Char} (ha : a.length = 8) (hb : b.length = 4) (hc : c.length = 4) (hd : d.length = 4)
    (he : e.length = 12) : parseUuid (a ++ '-' :: b ++ '-' :: c ++ '-' :: d ++ '-' :: e) =
      ((hexBytes (a ++ b ++ c ++ d ++ e)).bind octets16?).map .uuid := by
  have first : (a ++ '-' :: (b ++ '-' :: c ++ '-' :: d ++ '-' :: e))[8]? = some '-' := by
    rw [← ha]
    exact getElem?_between _ _ _
  have second : ((a ++ '-' :: b) ++ '-' :: (c ++ '-' :: d ++ '-' :: e))[13]? = some '-' := by
    have length : 13 = (a ++ '-' :: b).length := by simp [ha, hb]
    rw [length]
    exact getElem?_between _ _ _
  have third : ((a ++ '-' :: b ++ '-' :: c) ++ '-' :: (d ++ '-' :: e))[18]? = some '-' := by
    have length : 18 = (a ++ '-' :: b ++ '-' :: c).length := by simp [ha, hb, hc]
    rw [length]
    exact getElem?_between _ _ _
  have fourth : ((a ++ '-' :: b ++ '-' :: c ++ '-' :: d) ++ '-' :: e)[23]? = some '-' := by
    have length : 23 = (a ++ '-' :: b ++ '-' :: c ++ '-' :: d).length := by simp [ha, hb, hc, hd]
    rw [length]
    exact getElem?_between _ _ _
  have erase_fourth : (a ++ '-' :: b ++ '-' :: c ++ '-' :: d ++ '-' :: e).eraseIdx 23 = a ++ '-' :: b ++ '-' :: c ++ '-' :: (d ++ e) := by
    have length : 23 = (a ++ '-' :: b ++ '-' :: c ++ '-' :: d).length := by simp [ha, hb, hc, hd]
    rw [length, eraseIdx_between, List.append_assoc]
    rfl
  have erase_third : (a ++ '-' :: b ++ '-' :: c ++ '-' :: (d ++ e)).eraseIdx 18 = a ++ '-' :: b ++ '-' :: (c ++ (d ++ e)) := by
    have length : 18 = (a ++ '-' :: b ++ '-' :: c).length := by simp [ha, hb, hc]
    rw [length, eraseIdx_between, List.append_assoc]
    rfl
  have erase_second : (a ++ '-' :: b ++ '-' :: (c ++ (d ++ e))).eraseIdx 13 = a ++ '-' :: (b ++ (c ++ (d ++ e))) := by
    have length : 13 = (a ++ '-' :: b).length := by simp [ha, hb]
    rw [length, eraseIdx_between, List.append_assoc]
    rfl
  have erase_first : (a ++ '-' :: (b ++ (c ++ (d ++ e)))).eraseIdx 8 = a ++ b ++ c ++ d ++ e := by
    rw [← ha, eraseIdx_between]
    simp
  have dashed : [8, 13, 18, 23].all (fun i => (a ++ '-' :: b ++ '-' :: c ++ '-' :: d ++ '-' :: e)[i]? == some '-') = true := by
    simp only [List.append_assoc, List.cons_append] at first second third fourth ⊢
    simp [first, second, third, fourth]
  have length : (a ++ '-' :: b ++ '-' :: c ++ '-' :: d ++ '-' :: e).length = 36 := by simp [ha, hb, hc, hd, he]
  rw [parseUuid, if_pos ⟨length, dashed⟩, erase_fourth, erase_third, erase_second, erase_first]

theorem parseUuid_formatUuid (u : Octets16) : parseUuid (formatUuid u.val).toList = some (.uuid u) := by
  have length : (hex u.val).length = 32 := by rw [length_hex, u.property]
  have whole : (hex u.val).take 8 ++ ((hex u.val).drop 8).take 4 ++ ((hex u.val).drop 12).take 4 ++ ((hex u.val).drop 16).take 4 ++
      (hex u.val).drop 20 = hex u.val := by
    rw [← List.take_add, ← List.take_add, ← List.take_add, List.take_append_drop]
  rw [formatUuid, String.toList_ofList]
  rw [parseUuid_chars (by simp [length]) (by simp [length]) (by simp [length]) (by simp [length]) (by simp [length])]
  rw [whole, hexBytes_hex, Option.bind_some, octets16?_val]
  rfl

theorem parseBytes_formatBytes (bytes : List UInt8) : parseBytes (formatBytes bytes).toList = some (.bytes bytes) := by
  rw [formatBytes, String.toList_ofList, parseBytes, hexBytes_hex]
  rfl

end Hex

section Decimals

theorem formatDecimal_chars (u : Int) (scale : Nat) : ∃ whole fraction body,
    (formatDecimal u scale).toList = (if u < 0 then ['-'] else []) ++ body ∧ Magnitude body whole fraction ∧
      fraction.length ≤ scale ∧ scaledDigits scale fraction.length whole fraction = u.natAbs := by
  have sign : (if u < 0 then "-" else "").toList = if u < 0 then ['-'] else [] := by
    split <;> rfl
  unfold formatDecimal
  dsimp only
  by_cases unit : scale = 0
  · subst unit
    have spells := spells_toDigits u.natAbs
    refine ⟨Nat.toDigits 10 u.natAbs, [], Nat.toDigits 10 u.natAbs, ?_, ?_, Nat.le_refl _, ?_⟩
    · rw [if_pos rfl, String.toList_append, sign, Nat.toList_repr]
    · exact ⟨spells.digits, rfl, .inl ⟨rfl, spells.some_, rfl⟩⟩
    · rw [scaledDigits, spells.value]
      simp [digitsValue]
  · have whole := spells_toDigits (u.natAbs / 10 ^ scale)
    have fraction := spells_padded scale (u.natAbs % 10 ^ scale)
    have length : (padded scale (u.natAbs % 10 ^ scale : Nat)).toList.length = scale :=
      length_padded (by omega) (Nat.mod_lt _ (by positivity))
    refine ⟨Nat.toDigits 10 (u.natAbs / 10 ^ scale), (padded scale (u.natAbs % 10 ^ scale : Nat)).toList,
      Nat.toDigits 10 (u.natAbs / 10 ^ scale) ++ '.' :: (padded scale (u.natAbs % 10 ^ scale : Nat)).toList, ?_, ?_, length.le, ?_⟩
    · rw [if_neg unit]
      simp only [String.toList_append, sign, Nat.toList_repr, List.append_assoc]
      rfl
    · exact ⟨whole.digits, fraction.digits, .inr ⟨rfl, fraction.some_⟩⟩
    · rw [scaledDigits, whole.value, fraction.value, length, Nat.sub_self, pow_zero, Nat.mul_one]
      exact Nat.div_add_mod' _ _

/-- A decimal's text denotes it, in as many places as its type has. -/
theorem denotes_formatDecimal {d : Decimal} {t : DecimalType} (scale : d.scale = t.scale)
    (small : d.unscaled.natAbs < 10 ^ t.precision) : Denotes (formatDecimal d.unscaled d.scale).toList t d := by
  obtain ⟨whole, fraction, body, listed, magnitude, short, digits⟩ := formatDecimal_chars d.unscaled d.scale
  rw [scale] at short digits
  by_cases negative : d.unscaled < 0
  · rw [if_pos negative] at listed
    refine ⟨['-'], whole, fraction, body, by simp, listed, magnitude, short, scale, small, ?_⟩
    have number := (@number_eq_iff whole fraction t d (-1) scale short).mp (by rw [digits]; omega)
    simpa using number
  · rw [if_neg negative] at listed
    refine ⟨[], whole, fraction, body, by simp, listed, magnitude, short, scale, small, ?_⟩
    have number := (@number_eq_iff whole fraction t d 1 scale short).mp (by rw [digits]; omega)
    simpa using number

theorem decimal_solid (u : Int) (scale : Nat) : ∀ c ∈ (formatDecimal u scale).toList, isAsciiWhitespace c = false := by
  obtain ⟨whole, fraction, body, listed, ⟨whole_digits, fraction_digits, shape⟩, _⟩ := formatDecimal_chars u scale
  have number : ∀ c ∈ body, isAsciiWhitespace c = false := by
    intro c inside
    rcases shape with ⟨rfl, _⟩ | ⟨rfl, _⟩
    · exact solid_of_isDigit (List.all_eq_true.mp whole_digits c inside)
    · rcases List.mem_append.mp inside with inside | inside
      · exact solid_of_isDigit (List.all_eq_true.mp whole_digits c inside)
      · rcases List.mem_cons.mp inside with rfl | inside
        · rfl
        · exact solid_of_isDigit (List.all_eq_true.mp fraction_digits c inside)
  intro c inside
  rw [listed] at inside
  rcases List.mem_append.mp inside with inside | inside
  · split at inside
    · rw [List.mem_singleton] at inside
      subst inside
      rfl
    · cases inside
  · exact number c inside

end Decimals

section Solid

variable {c : Char}

theorem solid_or_minus (plain : c.isDigit = true ∨ c = '-') : isAsciiWhitespace c = false := by
  rcases plain with digit | rfl
  · exact solid_of_isDigit digit
  · rfl

theorem toString_plain (n : Int) : ∀ c ∈ (toString n).toList, c.isDigit = true ∨ c = '-' := by
  have digits := (spells_toDigits n.natAbs).digits
  intro c inside
  rw [toList_toString] at inside
  split at inside
  · rcases List.mem_cons.mp inside with rfl | inside
    · exact .inr rfl
    · exact .inl (List.all_eq_true.mp digits c inside)
  · exact .inl (List.all_eq_true.mp digits c inside)

theorem timestamp_solid (ns : Int) : ∀ c ∈ (formatTimestamp ns).toList, isAsciiWhitespace c = false := by
  have day : (ns % nsPerDay).toNat < 86400000000000 := by
    unfold nsPerDay
    omega
  intro c inside
  rw [formatTimestamp_chars] at inside
  simp only [List.mem_append, List.mem_cons, List.not_mem_nil, or_false] at inside
  rcases inside with inside | rfl | inside | rfl
  · exact solid_or_minus (formatDate_chars _ c inside)
  · rfl
  · rcases timeText_chars day c inside with digit | rfl | rfl
    · exact solid_of_isDigit digit
    · rfl
    · rfl
  · rfl

/-- What `{:x}` prints. -/
theorem toDigits_solid {b : Nat} (base : 1 < b) (few : b ≤ 16) (n : Nat) : ∀ c ∈ Nat.toDigits b n, isAsciiWhitespace c = false := by
  intro c inside
  obtain ⟨d, _, value⟩ := (toDigits_reads base few n).1 c inside
  have ne : ∀ blank : Char, hexValue blank = none → (c == blank) = false := by
    intro blank other
    rw [beq_eq_false_iff_ne]
    rintro rfl
    rw [value] at other
    cases other
  simp only [isAsciiWhitespace, ne ' ' rfl, ne '\t' rfl, ne '\n' rfl, ne '\x0c' rfl, ne '\r' rfl, Bool.or_self]

theorem ip_solid (ip : Octets16) : ∀ c ∈ formatIp ip, isAsciiWhitespace c = false := by
  have groups_solid : ∀ groups : List Nat, ∀ c ∈ groups.flatMap (fun g => ':' :: Nat.toDigits 16 g), isAsciiWhitespace c = false := by
    intro groups c inside
    obtain ⟨g, _, inside⟩ := List.mem_flatMap.mp inside
    rcases List.mem_cons.mp inside with rfl | inside
    · rfl
    · exact toDigits_solid (by decide) (by decide) g c inside
  have format_solid : ∀ groups : List Nat, ∀ c ∈ formatGroups groups, isAsciiWhitespace c = false := by
    intro groups c inside
    cases groups with
    | nil => cases inside
    | cons g groups => exact groups_solid (g :: groups) c (.tail _ inside)
  intro c inside
  unfold formatIp at inside
  split at inside
  · cases listed : ip.val.drop 12 with
    | nil =>
      rw [listed] at inside
      cases inside
    | cons first rest =>
      rw [listed, formatIpv4, List.mem_append] at inside
      rcases inside with inside | inside
      · exact toDigits_solid (by decide) (by decide) _ c inside
      · obtain ⟨b, _, inside⟩ := List.mem_flatMap.mp inside
        rcases List.mem_cons.mp inside with rfl | inside
        · rfl
        · exact toDigits_solid (by decide) (by decide) _ c inside
  · unfold formatIpv6 at inside
    dsimp only at inside
    split at inside
    · simp only [List.mem_append, List.mem_cons] at inside
      rcases inside with inside | rfl | rfl | inside
      · exact format_solid _ c inside
      · rfl
      · rfl
      · exact format_solid _ c inside
    · exact format_solid _ c inside

theorem stripPlus_eq {text : List Char} (plain : '+' ∉ text) : stripPlus text = text := by
  unfold stripPlus
  split
  · simp at plain
  · rfl

theorem plus_not_mem {text : List Char} (plain : ∀ c ∈ text, c.isDigit = true ∨ c = '-') : '+' ∉ text := by
  intro inside
  rcases plain _ inside with digit | minus
  · cases digit
  · cases minus

end Solid

namespace Platform

variable (P : Platform)

/-- Addresses have the library's text. -/
structure StandardIp : Prop where
  shown : ∀ ip, (P.showIp ip).toList = formatIp ip
  read : ∀ text, P.readIp text = Adelie.readIp text.toList

/-- A float prints exactly and parses exactly; its text has no blanks around it and no `+` before it. -/
structure ExactFloat (f : Float64) : Prop where
  read : P.readFloat (P.formatFloat f) = some f
  solid : ∀ c ∈ (P.formatFloat f).toList, isAsciiWhitespace c = false
  unsigned : (P.formatFloat f).toList.head? ≠ some '+'

/-- A value's text is read as the value again. -/
def RoundTrips (v : Value) (t : ScalarType) : Prop :=
  ∃ text, P.toText v = some text ∧ P.fromText text (.scalar t) = .ok (some v)

end Platform

/-- A timestamp on the day that `i64` begins in, after its midnight. -/
def Value.BeforeFirstMidnight : Value → Prop
  | .timestamp ns => ns.val < -9223286400000000000
  | _ => False

namespace Platform

variable {P : Platform}

section Members

variable {text : String}

theorem fromText_bool (b : Bool) : P.fromText (if b then "true" else "false") .bool = .ok (some (.bool b)) := by
  have read : ∀ b : Bool, parseBool (trimAscii (if b then "true" else "false").toList) = some (.bool b) := by
    intro b
    cases b <;> rfl
  rw [fromText, read]

theorem fromText_int64 (n : I64) : P.fromText (toString n.val) .int64 = .ok (some (.int64 n)) := by
  have plain := toString_plain n.val
  have trimmed := trimAscii_eq fun c inside => solid_or_minus (plain c inside)
  rw [fromText, trimmed, stripPlus_eq (plus_not_mem plain), parseSigned_toString, Option.bind_some, toI64?_of_val n rfl]
  rfl

theorem fromText_uint64 (n : U64) : P.fromText n.val.repr .uint64 = .ok (some (.uint64 n)) := by
  have spells := spells_toDigits n.val
  have plain : ∀ c ∈ n.val.repr.toList, isAsciiWhitespace c = false := by
    intro c inside
    rw [Nat.toList_repr] at inside
    exact solid_of_isDigit (List.all_eq_true.mp spells.digits c inside)
  have fits : toU64? n.val = some n := by
    rw [toU64?, dif_pos ⟨by omega, Int.ofNat_lt.mpr n.property⟩]
    rfl
  rw [fromText, trimAscii_eq plain, Nat.toList_repr, spells.stripPlus, spells.parseUnsigned n.property, Option.bind_some, fits]
  rfl

theorem fromText_decimal {d : Decimal} {t : DecimalType} (scale : d.scale = t.scale) (small : d.unscaled.natAbs < 10 ^ t.precision) :
    P.fromText (formatDecimal d.unscaled d.scale) (.decimal t) = .ok (some (.decimal d)) := by
  rw [fromText, trimAscii_eq (decimal_solid d.unscaled d.scale), parse_of_denotes (denotes_formatDecimal scale small)]

theorem fromText_bytes (bytes : List UInt8) : P.fromText (formatBytes bytes) .bytes = .ok (some (.bytes bytes)) := by
  have plain : ∀ c ∈ (formatBytes bytes).toList, isAsciiWhitespace c = false := by
    intro c inside
    rw [formatBytes, String.toList_ofList] at inside
    rcases List.mem_cons.mp inside with rfl | inside
    · rfl
    · rcases List.mem_cons.mp inside with rfl | inside
      · rfl
      · exact hex_solid c inside
  rw [fromText, trimAscii_eq plain, parseBytes_formatBytes]

theorem fromText_date (days : I32) : P.fromText (formatDate days.val) .date = .ok (some (.date days)) := by
  have low := days.property.1
  have high := days.property.2
  have plain := fun c inside => solid_or_minus (formatDate_chars days.val c inside)
  rw [fromText, trimAscii_eq plain, P.parseDate_formatDate ⟨by omega, by omega⟩, toI32?, dif_pos days.property]
  rfl

theorem fromText_timestamp (ns : I64) : P.fromText (formatTimestamp ns.val) .timestamp =
    .ok (if -9223286400000000000 ≤ ns.val then some (.timestamp ns) else none) := by
  have plain := timestamp_solid ns.val
  rw [fromText, trimAscii_eq plain, P.parseTimestamp_formatTimestamp]
  split <;> rfl

theorem fromText_uuid (u : Octets16) : P.fromText (formatUuid u.val) .uuid = .ok (some (.uuid u)) := by
  have plain : ∀ c ∈ (formatUuid u.val).toList, isAsciiWhitespace c = false := by
    intro c inside
    rw [formatUuid, String.toList_ofList] at inside
    by_cases dash : c = '-'
    · subst dash
      rfl
    · apply @hex_solid u.val
      simp only [List.mem_append, List.mem_cons, dash, false_or] at inside
      rcases inside with (((inside | inside) | inside) | inside) | inside
      · exact List.mem_of_mem_take inside
      · exact List.mem_of_mem_drop (List.mem_of_mem_take inside)
      · exact List.mem_of_mem_drop (List.mem_of_mem_take inside)
      · exact List.mem_of_mem_drop (List.mem_of_mem_take inside)
      · exact List.mem_of_mem_drop inside
  rw [fromText, trimAscii_eq plain, parseUuid_formatUuid]

theorem fromText_ip (std : P.StandardIp) (ip : Octets16) : P.fromText (P.showIp ip) .ip = .ok (some (.ip ip)) := by
  have plain : ∀ c ∈ (P.showIp ip).toList, isAsciiWhitespace c = false := by
    rw [std.shown]
    exact ip_solid ip
  rw [fromText, trimAscii_eq plain, std.read, String.toList_ofList, std.shown, readIp_formatIp]
  rfl

theorem fromText_float64 {f : Float64} (exact_ : P.ExactFloat f) : P.fromText (P.formatFloat f) .float64 = .ok (some (.float64 f)) := by
  have unsigned : stripPlus (P.formatFloat f).toList = (P.formatFloat f).toList := by
    unfold stripPlus
    split
    · rename_i rest plus
      exact absurd (by rw [plus]; rfl) exact_.unsigned
    · rfl
  rw [fromText, trimAscii_eq exact_.solid, unsigned, String.ofList_toList, exact_.read]
  rfl

end Members

/-- Every text of a value is read as the value again, but a timestamp's whose day begins before `i64` does. -/
theorem text_round_trip_iff (std : P.StandardIp) {v : Value} {t : ScalarType} (typed : v.HasScalarType t) (value : v.isNull = false)
    (floats : ∀ f, v = .float64 f → P.ExactFloat f) : P.RoundTrips v t ↔ ¬ v.BeforeFirstMidnight := by
  have whole : ∀ {text : String}, ¬ v.BeforeFirstMidnight → P.toText v = some text →
      P.fromText text (.scalar t) = .ok (some v) → (P.RoundTrips v t ↔ ¬ v.BeforeFirstMidnight) := by
    intro text other shown read
    exact ⟨fun _ => other, fun _ => ⟨text, shown, read⟩⟩
  cases v with
  | null => cases value
  | bool b =>
    obtain rfl : t = .bool := by cases t <;> first | rfl | exact typed.elim
    exact whole id (by rw [toText]) (fromText_bool b)
  | int64 n =>
    obtain rfl : t = .int64 := by cases t <;> first | rfl | exact typed.elim
    exact whole id (by rw [toText]) (fromText_int64 n)
  | uint64 n =>
    obtain rfl : t = .uint64 := by cases t <;> first | rfl | exact typed.elim
    exact whole id (by rw [toText]) (fromText_uint64 n)
  | float64 f =>
    obtain rfl : t = .float64 := by cases t <;> first | rfl | exact typed.elim
    exact whole id (by rw [toText]) (fromText_float64 (floats f rfl))
  | decimal d =>
    cases t with
    | decimal t => exact whole id (by rw [toText]) (fromText_decimal typed.1 typed.2)
    | _ => exact typed.elim
  | string s =>
    obtain rfl : t = .string := by cases t <;> first | rfl | exact typed.elim
    exact whole id (by rw [toText]) rfl
  | bytes b =>
    obtain rfl : t = .bytes := by cases t <;> first | rfl | exact typed.elim
    exact whole id (by rw [toText]) (fromText_bytes b)
  | timestamp ns =>
    obtain rfl : t = .timestamp := by cases t <;> first | rfl | exact typed.elim
    by_cases reached : -9223286400000000000 ≤ ns.val
    · refine whole (Int.not_lt.mpr reached) (by rw [toText]) ?_
      rw [fromText_timestamp, if_pos reached]
    · refine iff_of_false ?_ (fun other => other (Int.not_le.mp reached))
      rintro ⟨text, shown, read⟩
      rw [toText, Option.some.injEq] at shown
      rw [← shown, fromText_timestamp, if_neg reached] at read
      cases read
  | date days =>
    obtain rfl : t = .date := by cases t <;> first | rfl | exact typed.elim
    exact whole id (by rw [toText]) (fromText_date days)
  | uuid u =>
    obtain rfl : t = .uuid := by cases t <;> first | rfl | exact typed.elim
    exact whole id (by rw [toText]) (fromText_uuid u)
  | ip i =>
    obtain rfl : t = .ip := by cases t <;> first | rfl | exact typed.elim
    exact whole id (by rw [toText]) (fromText_ip std i)
  | list items => exact (by cases t <;> exact typed.elim)

end Platform

/-- Addresses as the library prints and reads them. -/
def addressPlatform : Platform := { checkedPlatform with
  showIp := fun ip => String.ofList (formatIp ip)
  readIp := fun text => readIp text.toList }

theorem addressPlatform_standard : addressPlatform.StandardIp :=
  ⟨fun _ => String.toList_ofList, fun _ => rfl⟩

/-- `::ffff:127.0.0.1`. -/
def loopback : Octets16 := ⟨mappedPrefix ++ [127, 0, 0, 1], rfl⟩

theorem text_round_trip_iff_loopback : addressPlatform.RoundTrips (.ip loopback) .ip ↔ ¬ (Value.ip loopback).BeforeFirstMidnight :=
  Platform.text_round_trip_iff addressPlatform_standard True.intro rfl (fun _ same => by cases same)

/-- The first instant of all is printed, and not read. -/
theorem first_instant_not_read :
    ¬ addressPlatform.RoundTrips (.timestamp ⟨-2 ^ 63, by decide, by decide⟩) .timestamp := by
  rintro ⟨text, shown, read⟩
  rw [Platform.toText, Option.some.injEq] at shown
  rw [← shown, Platform.fromText_timestamp, if_neg (by decide)] at read
  cases read

end Adelie
