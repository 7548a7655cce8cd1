import Adelie.Types.Parse
import Adelie.Types.Text

namespace Adelie

/-- Eight groups of 16 bits, the higher octet first. -/
def segments : List UInt8 → List Nat
  | hi :: lo :: rest => (hi.toNat * 256 + lo.toNat) :: segments rest
  | _ => []

def octets (groups : List Nat) : List UInt8 := groups.flatMap fun g => [UInt8.ofNat (g / 256), UInt8.ofNat (g % 256)]

/-- What goes before an IPv4 address in its mapped form. -/
def mappedPrefix : List UInt8 := List.replicate 10 0 ++ [255, 255]

def formatIpv4 (octets : List UInt8) : List Char :=
  match octets with
  | [] => []
  | first :: rest => Nat.toDigits 10 first.toNat ++ rest.flatMap fun b => '.' :: Nat.toDigits 10 b.toNat

structure Span where
  start : Nat
  len : Nat
deriving DecidableEq

/-- The first of the longest runs of zeros. -/
def longestZeros (groups : List Nat) (i : Nat) (current longest : Span) : Span :=
  match groups with
  | [] => longest
  | 0 :: rest =>
    let current : Span := ⟨if current.len = 0 then i else current.start, current.len + 1⟩
    longestZeros rest (i + 1) current (if longest.len < current.len then current else longest)
  | _ :: rest => longestZeros rest (i + 1) ⟨0, 0⟩ longest

/-- `fmt_subslice`. -/
def formatGroups (groups : List Nat) : List Char :=
  match groups with
  | [] => []
  | first :: tail => Nat.toDigits 16 first ++ tail.flatMap fun g => ':' :: Nat.toDigits 16 g

def formatIpv6 (groups : List Nat) : List Char :=
  let zeroes := longestZeros groups 0 ⟨0, 0⟩ ⟨0, 0⟩
  if 1 < zeroes.len then
    formatGroups (groups.take zeroes.start) ++ ':' :: ':' :: formatGroups (groups.drop (zeroes.start + zeroes.len))
  else formatGroups groups

/-- The library's text of `to_ip_addr`, which folds a mapped address back to IPv4. -/
def formatIp (ip : Octets16) : List Char :=
  if ip.val.take 12 = mappedPrefix then formatIpv4 (ip.val.drop 12) else formatIpv6 (segments ip.val)

/-- `read_number`, of no more digits than `most`. -/
def readNumber (radix most : Nat) (zeroFirst : Bool) (bound : Nat) (text : List Char) : Option (Nat × List Char) :=
  let digits := text.takeWhile fun c => ((hexValue c).filter (· < radix)).isSome
  if digits.isEmpty || most < digits.length || !zeroFirst && digits.head? == some '0' && 1 < digits.length then none
  else
    let n := digits.foldl (fun n c => n * radix + (hexValue c).getD 0) 0
    if n < bound then some (n, text.drop digits.length) else none

/-- `read_separator`: none goes before the first. -/
def readSeparator (c : Char) (first : Bool) (text : List Char) : Option (List Char) :=
  if first then some text
  else
    match text with
    | d :: rest => if d = c then some rest else none
    | [] => none

def readIpv4 (text : List Char) : Option (List UInt8 × List Char) := do
  let (a, text) ← readNumber 10 3 false 256 text
  let (b, text) ← (readSeparator '.' false text).bind (readNumber 10 3 false 256)
  let (c, text) ← (readSeparator '.' false text).bind (readNumber 10 3 false 256)
  let (d, text) ← (readSeparator '.' false text).bind (readNumber 10 3 false 256)
  return ([UInt8.ofNat a, UInt8.ofNat b, UInt8.ofNat c, UInt8.ofNat d], text)

/-- Groups up to the limit, and whether an IPv4 address took the place of the last two. -/
def readGroups (limit : Nat) (first : Bool) (text : List Char) : List Nat × Bool × List Char :=
  match limit with
  | 0 => ([], false, text)
  | limit + 1 =>
    match if 0 < limit then (readSeparator ':' first text).bind readIpv4 else none with
    | some (v4, rest) => (segments v4, true, rest)
    | none =>
      match (readSeparator ':' first text).bind (readNumber 16 4 true 65536) with
      | some (g, rest) =>
        let (groups, v4, rest) := readGroups limit false rest
        (g :: groups, v4, rest)
      | none => ([], false, text)

def readIpv6 (text : List Char) : Option (List Nat × List Char) :=
  let (head, v4, rest) := readGroups 8 true text
  if head.length = 8 then some (head, rest)
  else if v4 then none
  else
    match rest with
    | ':' :: ':' :: rest =>
      let (tail, _, rest) := readGroups (8 - (head.length + 1)) true rest
      some (head ++ List.replicate (8 - tail.length - head.length) 0 ++ tail, rest)
    | _ => none

/-- `parse` of an `IpAddr`, and the octets it is kept as. -/
def readIp (text : List Char) : Option Octets16 :=
  match readIpv4 text with
  | some (v4, rest) => if rest.isEmpty then octets16? (mappedPrefix ++ v4) else none
  | none => (readIpv6 text).bind fun (groups, rest) => if rest.isEmpty then octets16? (octets groups) else none

example : String.ofList (formatIpv6 [0x2001, 0xdb8, 0, 0, 1, 0, 0, 0]) = "2001:db8:0:0:1::" := by decide +kernel

section Numbers

variable {b n : Nat}

theorem hexValue_digitChar (small : n < 16) : hexValue n.digitChar = some n := by
  have each : ∀ k : Fin 16, hexValue k.val.digitChar = some k.val := by decide
  exact each ⟨n, small⟩

/-- Every digit of a number is one of its base, and together they are the number. -/
theorem toDigits_reads (base : 1 < b) (few : b ≤ 16) (n : Nat) :
    (∀ c ∈ Nat.toDigits b n, ∃ d < b, hexValue c = some d) ∧
      (Nat.toDigits b n).foldl (fun n c => n * b + (hexValue c).getD 0) 0 = n := by
  induction n using Nat.strongRecOn with
  | _ n ih =>
    by_cases single : n < b
    · rw [Nat.toDigits_of_lt_base single]
      have value : hexValue n.digitChar = some n := hexValue_digitChar (by omega)
      refine ⟨?_, by simp [value]⟩
      intro c inside
      rw [List.mem_singleton] at inside
      subst inside
      exact ⟨n, single, value⟩
    · have smaller : n / b < n := Nat.div_lt_self (by omega) base
      obtain ⟨digits, value⟩ := ih (n / b) smaller
      have last : n % b < b := Nat.mod_lt n (by omega)
      have last_value : hexValue (n % b).digitChar = some (n % b) := hexValue_digitChar (by omega)
      rw [Nat.toDigits_of_base_le base (by omega)]
      refine ⟨?_, ?_⟩
      · intro c inside
        rcases List.mem_append.mp inside with inside | inside
        · exact digits c inside
        · rw [List.mem_singleton] at inside
          subst inside
          exact ⟨n % b, last, last_value⟩
      · rw [List.foldl_append, value]
        simp [last_value, Nat.div_add_mod']

/-- A number of more digits than one begins with none that is `0`. -/
theorem toDigits_head (base : 1 < b) (few : b ≤ 16) (n : Nat) :
    (Nat.toDigits b n).head? = some '0' → (Nat.toDigits b n).length = 1 := by
  induction n using Nat.strongRecOn with
  | _ n ih =>
    by_cases single : n < b
    · rw [Nat.toDigits_of_lt_base single]
      intro _
      rfl
    · have smaller : n / b < n := Nat.div_lt_self (by omega) base
      rw [Nat.toDigits_of_base_le base (by omega), List.head?_append_of_ne_nil _ Nat.toDigits_ne_nil]
      intro zero
      have one_ := ih (n / b) smaller zero
      by_cases small : n / b < b
      · rw [Nat.toDigits_of_lt_base small] at zero
        simp only [List.head?_cons, Option.some.injEq, Nat.digitChar_eq_zero] at zero
        have := Nat.div_eq_zero_iff.mp zero
        omega
      · rw [Nat.toDigits_of_base_le base (by omega)] at one_
        have := @Nat.length_toDigits_pos b (n / b / b)
        simp at one_

end Numbers

/-- No digit of the base comes first. -/
def Stops (radix : Nat) (text : List Char) : Prop := ∀ c rest, text = c :: rest → (hexValue c).filter (· < radix) = none

section Reading

variable {radix most bound n : Nat} {zeroFirst : Bool} {rest text : List Char} {groups : List Nat}

theorem readNumber_toDigits (base : 1 < radix) (few : radix ≤ 16) (some_ : 0 < most) (short : n < radix ^ most) (fits : n < bound)
    (stops : Stops radix rest) : readNumber radix most zeroFirst bound (Nat.toDigits radix n ++ rest) = some (n, rest) := by
  obtain ⟨digits, value⟩ := toDigits_reads base few n
  have each : ∀ c ∈ Nat.toDigits radix n, ((hexValue c).filter (· < radix)).isSome = true := by
    intro c inside
    obtain ⟨d, below, value⟩ := digits c inside
    simp [value, below]
  have stop : rest.takeWhile (fun c => ((hexValue c).filter (· < radix)).isSome) = [] := by
    cases rest with
    | nil => rfl
    | cons c rest =>
      rw [List.takeWhile_cons, stops c rest rfl]
      rfl
  have taken : (Nat.toDigits radix n ++ rest).takeWhile (fun c => ((hexValue c).filter (· < radix)).isSome) = Nat.toDigits radix n := by
    rw [List.takeWhile_append_of_pos each, stop, List.append_nil]
  have length := (Nat.length_toDigits_le_iff base some_).mpr short
  have plain : (!zeroFirst && (Nat.toDigits radix n).head? == some '0' && decide (1 < (Nat.toDigits radix n).length)) = false := by
    by_cases zero : (Nat.toDigits radix n).head? = some '0'
    · simp [toDigits_head base few n zero]
    · simp [zero]
  unfold readNumber
  rw [taken]
  dsimp only
  have empty : (Nat.toDigits radix n).isEmpty = false := by simp
  rw [empty, plain, decide_eq_false (by omega : ¬ most < (Nat.toDigits radix n).length), if_neg (by simp), value,
    if_pos fits, List.drop_left]

theorem readNumber_none (stops : Stops radix text) : readNumber radix most zeroFirst bound text = none := by
  have stop : text.takeWhile (fun c => ((hexValue c).filter (· < radix)).isSome) = [] := by
    cases text with
    | nil => rfl
    | cons c rest =>
      rw [List.takeWhile_cons, stops c rest rfl]
      rfl
  rw [readNumber, stop]
  rfl

theorem readNumber_mem (read : readNumber radix most zeroFirst bound text = some (n, rest)) : ∀ c ∈ rest, c ∈ text := by
  unfold readNumber at read
  dsimp only at read
  split at read
  · cases read
  · split at read
    · cases read
      intro c inside
      exact List.mem_of_mem_drop inside
    · cases read

/-- No address of four numbers is without its points. -/
theorem readIpv4_none (absent : '.' ∉ text) : readIpv4 text = none := by
  unfold readIpv4
  cases first : readNumber 10 3 false 256 text with
  | none => rfl
  | some read =>
    obtain ⟨a, rest⟩ := read
    have no_point : readSeparator '.' false rest = none := by
      cases rest with
      | nil => rfl
      | cons c rest =>
        rw [readSeparator, if_neg (by decide)]
        apply if_neg
        rintro rfl
        exact absent (readNumber_mem first '.' (.head _))
    simp only [Option.bind_eq_bind, Option.bind_some]
    rw [no_point]
    rfl

theorem stops_char {c : Char} (other : (hexValue c).filter (· < radix) = none) : Stops radix (c :: rest) := by
  rintro _ _ ⟨⟩
  exact other

theorem stops_nil : Stops radix [] := by
  rintro _ _ ⟨⟩

theorem readIpv4_formatIpv4 (a b c d : UInt8) : readIpv4 (formatIpv4 [a, b, c, d]) = some ([a, b, c, d], []) := by
  have number : ∀ (x : UInt8) (rest : List Char), Stops 10 rest →
      readNumber 10 3 false 256 (Nat.toDigits 10 x.toNat ++ rest) = some (x.toNat, rest) := by
    intro x rest stops
    have := x.toNat_lt
    exact readNumber_toDigits (by decide) (by decide) (by decide) (by omega) (by omega) stops
  have point : ∀ rest : List Char, Stops 10 ('.' :: rest) := fun rest => stops_char rfl
  have listed : formatIpv4 [a, b, c, d] = Nat.toDigits 10 a.toNat ++ '.' :: (Nat.toDigits 10 b.toNat ++
      '.' :: (Nat.toDigits 10 c.toNat ++ '.' :: (Nat.toDigits 10 d.toNat ++ []))) := by
    simp [formatIpv4]
  rw [listed, readIpv4, number a _ (point _)]
  simp only [Option.bind_eq_bind, Option.bind_some, readSeparator, Bool.false_eq_true, if_false, if_true]
  rw [number b _ (point _)]
  simp only [Option.bind_some, if_true]
  rw [number c _ (point _)]
  simp only [Option.bind_some, if_true]
  rw [number d _ stops_nil]
  simp

/-- What ends a series of groups: the text's end, or the `::`. -/
def EndsGroups (text : List Char) : Prop := text = [] ∨ ∃ rest, text = ':' :: ':' :: rest

theorem stops_groups (ends : EndsGroups rest) (groups : List Nat) :
    Stops 16 (groups.flatMap (fun g => ':' :: Nat.toDigits 16 g) ++ rest) := by
  cases groups with
  | nil =>
    rcases ends with rfl | ⟨more, rfl⟩
    · exact stops_nil
    · exact stops_char rfl
  | cons g groups => exact stops_char rfl

/-- Groups end where they must: nothing of what follows is read as one. -/
theorem readGroups_ends (ends : EndsGroups rest) (limit : Nat) (first : Bool) : readGroups limit first rest = ([], false, rest) := by
  have none_ : ∀ t, (readSeparator ':' first rest) = some t → Stops 16 t := by
    intro t separated
    unfold readSeparator at separated
    split at separated
    · cases separated
      exact stops_groups ends []
    · rcases ends with rfl | ⟨more, rfl⟩
      · cases separated
      · cases separated
        exact stops_char rfl
  have no_number : (readSeparator ':' first rest).bind (readNumber 16 4 true 65536) = none := by
    rw [Option.bind_eq_none_iff]
    intro t separated
    exact readNumber_none (none_ t separated)
  have no_address : (readSeparator ':' first rest).bind readIpv4 = none := by
    rw [Option.bind_eq_none_iff]
    intro t separated
    have stops : Stops 10 t := by
      intro c more listed
      have wide := none_ t separated c more listed
      rw [Option.filter_eq_none_iff] at wide ⊢
      intro d value small
      exact wide d value (by simp only [decide_eq_true_eq] at small ⊢; omega)
    rw [readIpv4, readNumber_none stops]
    rfl
  cases limit with
  | zero => rfl
  | succ limit =>
    rw [readGroups, no_address, no_number]
    simp

theorem point_not_mem_groups (groups : List Nat) : '.' ∉ groups.flatMap fun g => ':' :: Nat.toDigits 16 g := by
  intro inside
  obtain ⟨g, _, inside⟩ := List.mem_flatMap.mp inside
  rcases List.mem_cons.mp inside with other | inside
  · cases other
  · obtain ⟨d, _, value⟩ := (toDigits_reads (by decide : 1 < 16) (by decide) g).1 '.' inside
    cases value

theorem point_not_mem_formatGroups (groups : List Nat) : '.' ∉ formatGroups groups := by
  cases groups with
  | nil => exact List.not_mem_nil
  | cons g groups =>
    intro inside
    apply point_not_mem_groups (g :: groups)
    exact .tail _ inside

/-- One group is read, and what follows it. -/
theorem readGroups_group {g : Nat} {after : List Char} {v4 : Bool} (first : Bool) (limit : Nat) (small : g < 65536)
    (stops : Stops 16 text) (absent : '.' ∉ text) (next : readGroups limit false text = (groups, v4, after)) :
    readGroups (limit + 1) first ((if first then [] else [':']) ++ Nat.toDigits 16 g ++ text) = (g :: groups, v4, after) := by
  have separated : readSeparator ':' first ((if first then [] else [':']) ++ Nat.toDigits 16 g ++ text) =
      some (Nat.toDigits 16 g ++ text) := by
    cases first with
    | true => rfl
    | false => rfl
  have pointless : '.' ∉ Nat.toDigits 16 g ++ text := by
    rw [List.mem_append]
    rintro (inside | inside)
    · obtain ⟨d, _, value⟩ := (toDigits_reads (by decide : 1 < 16) (by decide) g).1 '.' inside
      cases value
    · exact absent inside
  have number : readNumber 16 4 true 65536 (Nat.toDigits 16 g ++ text) = some (g, text) :=
    readNumber_toDigits (by decide) (by decide) (by decide) small small stops
  rw [readGroups, separated, Option.bind_some, Option.bind_some, readIpv4_none pointless, number, ite_self]
  dsimp only
  rw [next]

/-- Groups, each behind its separator, are read up to their end. -/
theorem readGroups_tail (ends : EndsGroups rest) (absent : '.' ∉ rest) (small : ∀ g ∈ groups, g < 65536) :
    ∀ limit, groups.length ≤ limit →
      readGroups limit false (groups.flatMap (fun g => ':' :: Nat.toDigits 16 g) ++ rest) = (groups, false, rest) := by
  induction groups with
  | nil =>
    intro limit _
    exact readGroups_ends ends limit false
  | cons g groups ih =>
    intro limit few
    obtain ⟨limit, rfl⟩ : ∃ k, limit = k + 1 := ⟨limit - 1, by simp at few; omega⟩
    have next := ih (fun g inside => small g (.tail _ inside)) limit (by simpa using few)
    have pointless : '.' ∉ groups.flatMap (fun g => ':' :: Nat.toDigits 16 g) ++ rest := by
      rw [List.mem_append]
      rintro (inside | inside)
      · exact point_not_mem_groups groups inside
      · exact absent inside
    have step := readGroups_group false limit (small g (.head _)) (stops_groups ends groups) pointless next
    rw [List.flatMap_cons]
    simpa using step

theorem readGroups_formatGroups (ends : EndsGroups rest) (absent : '.' ∉ rest) (small : ∀ g ∈ groups, g < 65536) {limit : Nat}
    (few : groups.length ≤ limit) : readGroups limit true (formatGroups groups ++ rest) = (groups, false, rest) := by
  cases groups with
  | nil => exact readGroups_ends ends limit true
  | cons g groups =>
    obtain ⟨limit, rfl⟩ : ∃ k, limit = k + 1 := ⟨limit - 1, by simp at few; omega⟩
    have next := readGroups_tail ends absent (fun g inside => small g (.tail _ inside)) limit (by simpa using few)
    have pointless : '.' ∉ groups.flatMap (fun g => ':' :: Nat.toDigits 16 g) ++ rest := by
      rw [List.mem_append]
      rintro (inside | inside)
      · exact point_not_mem_groups groups inside
      · exact absent inside
    have step := readGroups_group true limit (small g (.head _)) (stops_groups ends groups) pointless next
    rw [formatGroups, List.append_assoc]
    simpa using step

end Reading

section Zeros

variable {all groups : List Nat} {i : Nat} {current longest : Span}

/-- A run of zeros inside the groups. -/
def Span.Zeros (s : Span) (all : List Nat) : Prop :=
  s.start + s.len ≤ all.length ∧ (all.drop s.start).take s.len = List.replicate s.len 0

theorem Span.Zeros.extend (zeros : current.Zeros all) (ends : current.len = 0 ∨ current.start + current.len = i)
    (zero : all[i]? = some 0) : Span.Zeros ⟨if current.len = 0 then i else current.start, current.len + 1⟩ all := by
  have below : i < all.length := (List.getElem?_eq_some_iff.mp zero).1
  have here : all[i] = 0 := (List.getElem?_eq_some_iff.mp zero).2
  by_cases none_ : current.len = 0
  · refine ⟨?_, ?_⟩
    · simp [none_]
      omega
    · simp only [none_, if_true, Nat.zero_add]
      rw [List.drop_eq_getElem_cons below, here]
      rfl
  · have at_end : current.start + current.len = i := ends.resolve_left none_
    refine ⟨?_, ?_⟩
    · simp only [none_, if_false]
      omega
    · simp only [none_, if_false]
      have inside : current.len < (all.drop current.start).length := by simp; omega
      rw [List.take_succ_eq_append_getElem inside, zeros.2, List.replicate_succ', List.getElem_drop]
      simp only [at_end, here]

/-- The run found is one of zeros. -/
theorem longestZeros_zeros (rest : all.drop i = groups) (current_zeros : current.Zeros all)
    (ends : current.len = 0 ∨ current.start + current.len = i) (longest_zeros : longest.Zeros all) :
    (longestZeros groups i current longest).Zeros all := by
  induction groups generalizing i current longest with
  | nil => exact longest_zeros
  | cons g groups ih =>
    have next : all.drop (i + 1) = groups := by
      rw [← List.drop_drop, rest]
      rfl
    cases g with
    | zero =>
      have zero : all[i]? = some 0 := by
        have first := congrArg (fun l => l[0]?) rest
        simpa using first
      have extended := current_zeros.extend ends zero
      have kept : Span.Zeros (if longest.len < current.len + 1 then
          ⟨if current.len = 0 then i else current.start, current.len + 1⟩ else longest) all := by
        split_ifs
        · simpa [*] using extended
        · simpa [*] using extended
        · exact longest_zeros
      apply ih next extended _ kept
      right
      rcases ends with none_ | at_end
      · simp [none_]
      · dsimp only
        split <;> omega
    | succ g => exact ih next ⟨Nat.zero_le _, rfl⟩ (.inl rfl) longest_zeros

end Zeros

section Addresses

variable {groups : List Nat}

/-- Eight groups are read as they are written, the longest run of zeros left out or not. -/
theorem readIpv6_formatIpv6 (eight : groups.length = 8) (small : ∀ g ∈ groups, g < 65536) :
    readIpv6 (formatIpv6 groups) = some (groups, []) := by
  have zeros : (longestZeros groups 0 ⟨0, 0⟩ ⟨0, 0⟩).Zeros groups :=
    longestZeros_zeros rfl ⟨Nat.zero_le _, rfl⟩ (.inl rfl) ⟨Nat.zero_le _, rfl⟩
  unfold formatIpv6
  dsimp only
  split
  · rename_i several
    generalize longestZeros groups 0 ⟨0, 0⟩ ⟨0, 0⟩ = run at zeros several ⊢
    obtain ⟨inside, blank⟩ := zeros
    have head_length : (groups.take run.start).length = run.start := by simp; omega
    have tail_length : (groups.drop (run.start + run.len)).length = 8 - (run.start + run.len) := by simp [eight]
    have tail : readGroups (8 - (run.start + 1)) true (formatGroups (groups.drop (run.start + run.len)) ++ []) =
        (groups.drop (run.start + run.len), false, []) :=
      readGroups_formatGroups (.inl rfl) (by simp) (fun g member => small g (List.mem_of_mem_drop member)) (by omega)
    have pointless : '.' ∉ ':' :: ':' :: formatGroups (groups.drop (run.start + run.len)) := by
      simp [point_not_mem_formatGroups]
    have head : readGroups 8 true (formatGroups (groups.take run.start) ++ ':' :: ':' :: formatGroups (groups.drop (run.start + run.len))) =
        (groups.take run.start, false, ':' :: ':' :: formatGroups (groups.drop (run.start + run.len))) :=
      readGroups_formatGroups (.inr ⟨_, rfl⟩) pointless (fun g member => small g (List.mem_of_mem_take member)) (by omega)
    have split_ : groups.take run.start ++ List.replicate run.len 0 ++ groups.drop (run.start + run.len) = groups := by
      rw [← blank, List.append_assoc, ← List.drop_drop, List.take_append_drop, List.take_append_drop]
    have between : 8 - (8 - (run.start + run.len)) - run.start = run.len := by omega
    rw [List.append_nil] at tail
    unfold readIpv6
    rw [head]
    dsimp only
    rw [if_neg (by omega), head_length, if_neg (by decide)]
    simp only [tail, tail_length, between, split_]
  · have whole : readGroups 8 true (formatGroups groups ++ []) = (groups, false, []) :=
      readGroups_formatGroups (.inl rfl) (by simp) small (by omega)
    rw [List.append_nil] at whole
    unfold readIpv6
    rw [whole]
    dsimp only
    rw [if_pos eight]

theorem segments_length (bytes : List UInt8) : (segments bytes).length = bytes.length / 2 := by
  induction bytes using segments.induct with
  | case1 hi lo rest ih =>
    simp only [segments, List.length_cons, ih]
    omega
  | case2 bytes short =>
    rw [segments]
    · rcases bytes with _ | ⟨a, _ | ⟨b, rest⟩⟩
      · rfl
      · simp
      · exact absurd rfl (short a b rest)
    · exact short

theorem segments_small (bytes : List UInt8) : ∀ g ∈ segments bytes, g < 65536 := by
  induction bytes using segments.induct with
  | case1 hi lo rest ih =>
    intro g inside
    rcases List.mem_cons.mp inside with rfl | inside
    · have := hi.toNat_lt
      have := lo.toNat_lt
      omega
    · exact ih g inside
  | case2 bytes short =>
    rw [segments]
    · intro g inside
      cases inside
    · exact short

theorem octets_segments {bytes : List UInt8} {n : Nat} (pairs : bytes.length = 2 * n) : octets (segments bytes) = bytes := by
  induction bytes using segments.induct generalizing n with
  | case1 hi lo rest ih =>
    have before : rest.length = 2 * (n - 1) := by
      simp only [List.length_cons] at pairs
      omega
    have low := lo.toNat_lt
    have high : (hi.toNat * 256 + lo.toNat) / 256 = hi.toNat := by omega
    have rest_ : (hi.toNat * 256 + lo.toNat) % 256 = lo.toNat := by omega
    rw [segments, octets, List.flatMap_cons, ← octets, ih before, high, rest_, UInt8.ofNat_toNat, UInt8.ofNat_toNat]
    rfl
  | case2 bytes short =>
    rcases bytes with _ | ⟨a, _ | ⟨b, rest⟩⟩
    · rfl
    · simp at pairs
      omega
    · exact absurd rfl (short a b rest)

theorem octets16?_val (ip : Octets16) : octets16? ip.val = some ip := dif_pos ip.property

/-- An address reads as what it was printed from. -/
theorem readIp_formatIp (ip : Octets16) : readIp (formatIp ip) = some ip := by
  unfold formatIp
  split
  · rename_i mapped
    have four : (ip.val.drop 12).length = 4 := by simp [ip.property]
    obtain ⟨a, b, c, d, listed⟩ : ∃ a b c d, ip.val.drop 12 = [a, b, c, d] := by
      obtain ⟨a, three, first⟩ := List.exists_cons_of_length_eq_add_one four
      rw [first, List.length_cons] at four
      obtain ⟨b, c, d, rfl⟩ := List.length_eq_three.mp (by omega : three.length = 3)
      exact ⟨a, b, c, d, first⟩
    have whole : mappedPrefix ++ [a, b, c, d] = ip.val := by
      rw [← mapped, ← listed, List.take_append_drop]
    rw [listed, readIp, readIpv4_formatIpv4]
    dsimp only
    rw [whole]
    exact octets16?_val ip
  · have eight : (segments ip.val).length = 8 := by rw [segments_length, ip.property]
    have pointless : '.' ∉ formatIpv6 (segments ip.val) := by
      unfold formatIpv6
      dsimp only
      split
      · simp [point_not_mem_formatGroups]
      · exact point_not_mem_formatGroups _
    have pairs : ip.val.length = 2 * 8 := ip.property
    rw [readIp, readIpv4_none pointless, readIpv6_formatIpv6 eight (segments_small ip.val)]
    dsimp only
    rw [Option.bind_some, octets_segments pairs]
    exact octets16?_val ip

end Addresses

end Adelie
