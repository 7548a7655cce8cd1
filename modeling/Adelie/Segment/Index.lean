import Adelie.Lib.Search
import Adelie.Segment.Stats
import Adelie.Segment.Wire

namespace Adelie

namespace Xxh64

def p1 : Nat := 0x9E3779B185EBCA87
def p2 : Nat := 0xC2B2AE3D27D4EB4F
def p3 : Nat := 0x165667B19E3779F9
def p4 : Nat := 0x85EBCA77C2B2AE63
def p5 : Nat := 0x27D4EB2F165667C5

def rotateLeft (x r : Nat) : Nat := (x <<< r) % 2 ^ 64 ||| x >>> (64 - r)

def round (acc input : Nat) : Nat := rotateLeft ((acc + input * p2) % 2 ^ 64) 31 * p1 % 2 ^ 64

def mergeRound (acc val : Nat) : Nat := ((acc ^^^ round 0 val) * p1 + p4) % 2 ^ 64

/-- The four lanes, a stripe of 32 bytes at a time. -/
def stripes : Nat → Nat × Nat × Nat × Nat → List UInt8 → Nat × Nat × Nat × Nat
  | 0, lanes, _ => lanes
  | n + 1, (v1, v2, v3, v4), b =>
    stripes n (round v1 (leNat (b.take 8)), round v2 (leNat ((b.drop 8).take 8)), round v3 (leNat ((b.drop 16).take 8)),
      round v4 (leNat ((b.drop 24).take 8))) (b.drop 32)

def start (b : List UInt8) (seed : Nat) : Nat :=
  if 32 ≤ b.length then
    let (v1, v2, v3, v4) := stripes (b.length / 32)
      ((seed + p1 + p2) % 2 ^ 64, (seed + p2) % 2 ^ 64, seed, (seed + 2 ^ 64 - p1) % 2 ^ 64) b
    let h := (rotateLeft v1 1 + rotateLeft v2 7 + rotateLeft v3 12 + rotateLeft v4 18) % 2 ^ 64
    mergeRound (mergeRound (mergeRound (mergeRound h v1) v2) v3) v4
  else (seed + p5) % 2 ^ 64

def words : Nat → Nat → List UInt8 → Nat
  | 0, h, _ => h
  | n + 1, h, b => words n ((rotateLeft (h ^^^ round 0 (leNat (b.take 8))) 27 * p1 + p4) % 2 ^ 64) (b.drop 8)

def tail (h : Nat) (b : List UInt8) : Nat :=
  b.foldl (fun h byte => rotateLeft (h ^^^ byte.toNat * p5 % 2 ^ 64) 11 * p1 % 2 ^ 64) h

def half (h : Nat) (b : List UInt8) : Nat :=
  if 4 ≤ b.length then
    tail ((rotateLeft (h ^^^ leNat (b.take 4) * p1 % 2 ^ 64) 23 * p2 + p3) % 2 ^ 64) (b.drop 4)
  else tail h b

def avalanche (h : Nat) : Nat :=
  let h := (h ^^^ h >>> 33) * p2 % 2 ^ 64
  let h := (h ^^^ h >>> 29) * p3 % 2 ^ 64
  h ^^^ h >>> 32

end Xxh64

open Xxh64 in
def xxh64 (b : List UInt8) (seed : Nat) : Nat :=
  let h := (start b seed + b.length) % 2 ^ 64
  let rest := b.drop (b.length / 32 * 32)
  let h := words (rest.length / 8) h rest
  avalanche (half h (rest.drop (rest.length / 8 * 8)))

example : xxh64 [] 0 = 0xEF46DB3751D8E999 := by decide
example : xxh64 [97, 98, 99] 0 = 0x44BC2CF5AD770999 := by decide
example : xxh64 ((List.range 32).map .ofNat) 0 = 0xCBF59C5116FF32B4 := by decide
example : xxh64 ((List.range 40).map .ofNat) 1 = 0x421D36A2FFE6CA63 := by decide

/-- A value as statistics, value sets and hashes hold it; `none` where the encoder panics. A DECIMAL is
    its unscaled number alone, a float its bits. -/
def encodeValue : Value → ScalarType → Option (List UInt8)
  | .bool b, .bool => some (Sink.u8 b.toNat)
  | .int64 n, .int64 => some (Sink.i64 n.val)
  | .uint64 n, .uint64 => some (Sink.u64 n.val)
  | .float64 f, .float64 => some (Sink.u64 f.bits.val)
  | .decimal d, .decimal _ => some (Sink.i128 d.unscaled)
  | .string s, .string => some (Sink.str s)
  | .bytes b, .bytes => some (Sink.bytes b)
  | .timestamp n, .timestamp => some (Sink.i64 n.val)
  | .date n, .date => some (Sink.i32 n.val)
  | .uuid u, .uuid => some u.val
  | .ip u, .ip => some u.val
  | _, _ => none

def valueBytes (v : Value) (t : ScalarType) : List UInt8 := (encodeValue v t).getD []

inductive IndexKind where
  | bloom | valueSet | ngram
deriving DecidableEq, Repr

structure Bloom where
  k : Nat
  log2Bits : Nat
  words : List Nat

namespace Bloom

/-- The bit positions of a key: the second hash is forced odd. -/
def probe (b : List UInt8) (k bits : Nat) : List Nat :=
  (List.range k).map fun i => (xxh64 b 0 + i * (xxh64 b 1 ||| 1)) % 2 ^ 64 % bits

def setBit (words : List Nat) (b : Nat) : List Nat := words.modify (b / 64) (· ||| 1 <<< (b % 64))

def getBit (words : List Nat) (b : Nat) : Bool := (words[b / 64]?.getD 0).testBit (b % 64)

def insertBytes (bloom : Bloom) (b : List UInt8) : Bloom :=
  { bloom with words := (probe b bloom.k (2 ^ bloom.log2Bits)).foldl setBit bloom.words }

def testBytes (bloom : Bloom) (b : List UInt8) : Bool :=
  (probe b bloom.k (2 ^ bloom.log2Bits)).all (getBit bloom.words)

/-- Doubles from 512 bits, to at most `2^20`, until ten bits a key fit. -/
def sizeFrom (want : Nat) : Nat → Nat → Nat
  | 0, log2 => log2
  | left + 1, log2 => if 2 ^ log2 < want then sizeFrom want left (log2 + 1) else log2

def sizeLog2 (distinct : Nat) : Nat := sizeFrom (max (min (10 * distinct) (2 ^ 64 - 1)) (2 ^ 9)) 11 9

def empty (distinct : Nat) : Bloom :=
  let log2 := sizeLog2 distinct
  ⟨7, log2, List.replicate (2 ^ log2 / 64) 0⟩

/-- The keys, each once, into a filter sized for them. -/
def ofKeys (keys : List (List UInt8)) : Bloom :=
  let keys := dedupBy (· == ·) (keys.insertionSort fun a b => compare a b ≠ .gt)
  keys.foldl insertBytes (empty keys.length)

def build (t : ScalarType) (cells : List Value) : Bloom := ofKeys ((presentCells cells).map (valueBytes · t))

/-- A NULL and a value of another kind cannot be ruled out. -/
def mightContain (bloom : Bloom) (t : ScalarType) (v : Value) : Bool :=
  if v.isNull || !matchesScalarKind t v then true else bloom.testBytes (valueBytes v t)

end Bloom

def valueSetMax : Nat := 256

namespace ValueSet

/-- The distinct values in order; not kept when there are too many. -/
def build (cells : List Value) : Option (List Value) :=
  let values := dedupBy (fun a b => totalCmp a b == some .eq)
    ((presentCells cells).insertionSort fun a b => totalCmp a b ≠ some .gt)
  if valueSetMax < values.length then none else some values

def mightContain (values : List Value) (t : ScalarType) (v : Value) : Bool :=
  if v.isNull || !matchesScalarKind t v then true
  else binarySearch (fun probe => (totalCmp probe v).getD .eq) values

end ValueSet

namespace Ngram

def trigrams : List UInt8 → List (List UInt8)
  | a :: b :: c :: rest => [a, b, c] :: trigrams (b :: c :: rest)
  | _ => []

def text : Value → List UInt8
  | .string s => utf8 s
  | _ => []

def build (cells : List Value) : Bloom := Bloom.ofKeys ((presentCells cells).flatMap fun v => trigrams (text v))

def mightContainSubstring (bloom : Bloom) (s : String) : Bool := (trigrams (utf8 s)).all bloom.testBytes

end Ngram

inductive SkipIndex where
  | bloom (t : ScalarType) (bloom : Bloom)
  | valueSet (t : ScalarType) (values : List Value)
  | ngram (bloom : Bloom)

namespace SkipIndex

def mightContain : SkipIndex → Value → Bool
  | .bloom t b, v => b.mightContain t v
  | .valueSet t values, v => ValueSet.mightContain values t v
  | .ngram _, _ => true

def mightContainSubstring : SkipIndex → String → Bool
  | .ngram b, s => Ngram.mightContainSubstring b s
  | _, _ => true

end SkipIndex

/-- The index of a column, where the kind applies to it and is worth its bytes. -/
def buildIndex (kind : IndexKind) (c : Column) : Option SkipIndex :=
  match kind, c.ty with
  | .bloom, .scalar t => some (.bloom t (Bloom.build t c.cells))
  | .valueSet, .scalar t => (ValueSet.build c.cells).map (.valueSet t)
  | .ngram, .scalar .string => some (.ngram (Ngram.build c.cells))
  | _, _ => none

section Bits

open Bloom

variable {words : List Nat} {b b' : Nat}

@[simp] theorem setBit_length (words : List Nat) (b : Nat) : (setBit words b).length = words.length :=
  List.length_modify _ _ _

theorem getBit_setBit (within : b / 64 < words.length) : getBit (setBit words b) b' = (getBit words b' || b == b') := by
  unfold getBit setBit
  rw [List.getElem?_modify]
  by_cases word : b / 64 = b' / 64
  · have inside : b' / 64 < words.length := word ▸ within
    rw [List.getElem?_eq_getElem inside]
    simp only [word, if_true, Option.map_eq_map, Option.map_some, Option.getD_some, Nat.testBit_or]
    congr 1
    rw [Nat.one_shiftLeft, Nat.testBit_two_pow]
    by_cases same : b = b'
    · simp [same]
    · have apart : b % 64 ≠ b' % 64 := by omega
      simp [same, apart]
  · have apart : b ≠ b' := fun same => word (by rw [same])
    simp [word, apart]

theorem foldl_setBit_length (positions : List Nat) (words : List Nat) :
    (positions.foldl setBit words).length = words.length := by
  induction positions generalizing words with
  | nil => rfl
  | cons p rest ih => rw [List.foldl_cons, ih, setBit_length]

theorem getBit_foldl {positions : List Nat} (within : ∀ p ∈ positions, p / 64 < words.length) :
    getBit (positions.foldl setBit words) b = true ↔ getBit words b = true ∨ b ∈ positions := by
  induction positions generalizing words with
  | nil => simp
  | cons p rest ih =>
    have tail : ∀ q ∈ rest, q / 64 < (setBit words p).length := by
      intro q member
      rw [setBit_length]
      exact within q (.tail _ member)
    rw [List.foldl_cons, ih tail, getBit_setBit (within p (.head _)), Bool.or_eq_true, beq_iff_eq, List.mem_cons, or_assoc,
      eq_comm (a := p)]

theorem sizeFrom_le (want left log2 : Nat) : log2 ≤ sizeFrom want left log2 := by
  induction left generalizing log2 with
  | zero => exact Nat.le_refl _
  | succ left ih =>
    unfold sizeFrom
    split
    · exact Nat.le_of_succ_le (ih (log2 + 1))
    · exact Nat.le_refl _

/-- Bits of the filter for these keys. -/
def Bloom.bitsFor (keys : List (List UInt8)) : Nat :=
  2 ^ sizeLog2 (dedupBy (· == ·) (keys.insertionSort fun a b => compare a b ≠ .gt)).length

theorem probe_lt {key : List UInt8} {k log2 p : Nat} (member : p ∈ probe key k (2 ^ log2)) : p < 2 ^ log2 := by
  obtain ⟨i, _, rfl⟩ := List.mem_map.mp member
  exact Nat.mod_lt _ (by positivity)

theorem insertBytes_foldl (keys : List (List UInt8)) {bloom : Bloom} (deep : 6 ≤ bloom.log2Bits)
    (sized : bloom.words.length = 2 ^ bloom.log2Bits / 64) :
    (keys.foldl insertBytes bloom).k = bloom.k ∧ (keys.foldl insertBytes bloom).log2Bits = bloom.log2Bits ∧
    ∀ b, getBit (keys.foldl insertBytes bloom).words b = true ↔
      getBit bloom.words b = true ∨ ∃ key ∈ keys, b ∈ probe key bloom.k (2 ^ bloom.log2Bits) := by
  induction keys generalizing bloom with
  | nil => simp
  | cons key rest ih =>
    have within : ∀ p ∈ probe key bloom.k (2 ^ bloom.log2Bits), p / 64 < bloom.words.length := by
      intro p member
      have small := probe_lt member
      have divides : 64 ∣ 2 ^ bloom.log2Bits := Nat.pow_dvd_pow 2 deep
      rw [sized]
      exact Nat.div_lt_div_of_lt_of_dvd divides small
    have grown : (bloom.insertBytes key).words.length = 2 ^ (bloom.insertBytes key).log2Bits / 64 := by
      unfold insertBytes
      dsimp only
      rw [foldl_setBit_length]
      exact sized
    have deep' : 6 ≤ (bloom.insertBytes key).log2Bits := deep
    obtain ⟨k, log2, bits⟩ := ih deep' grown
    refine ⟨k, log2, fun b => ?_⟩
    rw [List.foldl_cons, bits b]
    unfold insertBytes
    dsimp only
    rw [getBit_foldl within]
    simp [or_assoc]

/-- A key tests positive when each of its positions is one of a key that was put in. -/
theorem testBytes_ofKeys (keys : List (List UInt8)) (key : List UInt8) :
    (ofKeys keys).testBytes key = true ↔
      ∀ p ∈ probe key 7 (bitsFor keys), ∃ other ∈ keys, p ∈ probe other 7 (bitsFor keys) := by
  generalize distinct : dedupBy (· == ·) (keys.insertionSort fun a b => compare a b ≠ .gt) = kept
  have members : ∀ other, other ∈ kept ↔ other ∈ keys := by
    intro other
    rw [← distinct]
    constructor
    · intro member
      exact (List.perm_insertionSort _ keys).mem_iff.mp ((dedupBy_sublist _).subset member)
    · intro member
      have sorted : other ∈ keys.insertionSort fun a b => compare a b ≠ .gt :=
        (List.perm_insertionSort _ keys).mem_iff.mpr member
      have found : ∃ y ∈ dedupBy (· == ·) (keys.insertionSort fun a b => compare a b ≠ .gt),
          other = y ∨ (other == y) = true := exists_mem_dedupBy sorted
      obtain ⟨y, inside, like⟩ := found
      have same : other = y := like.elim id fun equal => by simpa using equal
      exact same ▸ inside
  have deep : 6 ≤ sizeLog2 kept.length := Nat.le_trans (by decide) (sizeFrom_le _ _ _)
  have bits : bitsFor keys = 2 ^ sizeLog2 kept.length := by rw [bitsFor, distinct]
  have sized : (Bloom.empty kept.length).words.length = 2 ^ (Bloom.empty kept.length).log2Bits / 64 := by
    simp [Bloom.empty]
  obtain ⟨k, log2, set⟩ := insertBytes_foldl kept deep sized
  have blank : ∀ b, getBit (Bloom.empty kept.length).words b = false := by
    intro b
    unfold getBit Bloom.empty
    dsimp only
    rw [List.getElem?_replicate]
    split <;> simp
  unfold testBytes ofKeys
  rw [distinct]
  dsimp only
  rw [k, log2, List.all_eq_true]
  change (∀ p ∈ probe key 7 (2 ^ sizeLog2 kept.length), _) ↔ _
  rw [bits]
  apply forall₂_congr
  intro p _
  rw [set p, blank p]
  simp only [Bool.false_eq_true, false_or, members]
  rfl

end Bits

section Equal

variable {a b x v : Value} {t : ScalarType} {cells : List Value}

theorem scalarCmp_congr (same : scalarCmp x v = some .eq) {o : Ordering} (made : scalarCmp a x = some o) :
    scalarCmp a v = some o := by
  obtain ⟨k, p, q, rfl, rfl⟩ := exists_kind made
  obtain ⟨r, rfl⟩ := k.closed q v .eq same
  have := k.trans
  rw [k.cmp_wrap] at same made ⊢
  cases made
  have equal : k.cmp q r = .eq := by simpa using same
  rw [Std.TransCmp.congr_right equal]

/-- A value SQL-equal to a probe is one of the column's, in the same place of the order. -/
theorem present_of_sqlEq (typed : ∀ y ∈ cells, y.HasScalarType t) (member : x ∈ cells) (same : sqlEq x v = some true) :
    Present t x ∧ scalarCmp x v = some .eq := by
  have listed := typed x member
  have scalar : sqlEq x v = scalarSqlEq x v := by
    cases x with
    | list items => cases t <;> cases listed
    | _ => unfold sqlEq; rfl
  rw [scalar] at same
  refine ⟨⟨?_, listed⟩, scalarCmp_of_sqlEq same⟩
  cases x with
  | null => cases v <;> simp [scalarSqlEq] at same
  | _ => rfl

theorem valueSet_sorted (typed : ∀ y ∈ cells, y.HasScalarType t) :
    ((presentCells cells).insertionSort fun a b => totalCmp a b ≠ some .gt).Pairwise AtMost := by
  have present := present_of_mem typed
  have atMost : ∀ a b, Present t a → Present t b → totalCmp a b ≠ some .gt → AtMost a b := by
    intro a b left right below
    obtain ⟨o, made⟩ := left.comparable right
    rw [left.totalCmp, made] at below
    cases o with
    | lt => exact atMost_of_lt made
    | eq => exact atMost_of_eq made
    | gt => exact absurd rfl below
  have sorted := pairwise_insertionSort_of (r := fun a b => totalCmp a b ≠ some .gt) (P := Present t) ?_ ?_ present
  · refine List.Pairwise.imp_of_mem ?_ sorted
    intro a b left right below
    have in_a := (List.perm_insertionSort _ (presentCells cells)).mem_iff.mp left
    have in_b := (List.perm_insertionSort _ (presentCells cells)).mem_iff.mp right
    exact atMost a b (present a in_a) (present b in_b) below
  · intro a b left right
    obtain ⟨o, made⟩ := left.comparable right
    rw [left.totalCmp, right.totalCmp, made, scalarCmp_swap made]
    cases o <;> simp
  · intro a b c first second third below above
    have le := (atMost a b first second below).trans (atMost b c second third above)
    rw [first.totalCmp]
    exact le.not_gt

/-- A value set answers for every value SQL-equal to one of the column. -/
theorem valueSet_mightContain (typed : ∀ y ∈ cells, y.HasScalarType t) {values : List Value}
    (built : ValueSet.build cells = some values) (member : x ∈ cells) (same : sqlEq x v = some true) :
    ValueSet.mightContain values t v = true := by
  obtain ⟨present, equal⟩ := present_of_sqlEq typed member same
  unfold ValueSet.build at built
  dsimp only at built
  split at built
  · cases built
  · cases built
    unfold ValueSet.mightContain
    split
    · rfl
    · have sorted := valueSet_sorted typed
      have kept : (dedupBy (fun a b => totalCmp a b == some .eq)
          ((presentCells cells).insertionSort fun a b => totalCmp a b ≠ some .gt)).Sublist
          ((presentCells cells).insertionSort fun a b => totalCmp a b ≠ some .gt) := dedupBy_sublist _
      have listed : ∀ y ∈ (presentCells cells).insertionSort fun a b => totalCmp a b ≠ some .gt, Present t y := by
        intro y inside
        exact present_of_mem typed y ((List.perm_insertionSort _ (presentCells cells)).mem_iff.mp inside)
      have at_ : ∀ y, Present t y → ∃ o, totalCmp y v = some o ∧ scalarCmp y x = some o := by
        intro y good
        obtain ⟨o, made⟩ := good.comparable present
        exact ⟨o, by rw [good.totalCmp]; exact scalarCmp_congr equal made, made⟩
      have split : Split (fun probe => (totalCmp probe v).getD .eq)
          (dedupBy (fun a b => totalCmp a b == some .eq)
            ((presentCells cells).insertionSort fun a b => totalCmp a b ≠ some .gt)) := by
        refine List.Pairwise.imp_of_mem ?_ (sorted.sublist kept)
        intro a b left right le
        obtain ⟨o, made, versus⟩ := at_ a (listed a (kept.subset left))
        obtain ⟨o', made', versus'⟩ := at_ b (listed b (kept.subset right))
        simp only [made, made', Option.getD_some]
        intro below
        have under : AtMost b x := by
          rcases below with rfl | rfl
          · exact atMost_of_lt versus'
          · exact atMost_of_eq versus'
        refine ⟨?_, ?_⟩
        · rintro rfl
          exact (le.trans under).not_gt versus
        · rintro rfl
          cases o with
          | lt => rfl
          | eq => exact absurd versus' ((atMost_of_eq (scalarCmp_swap versus)).trans le).not_lt
          | gt => exact absurd versus (le.trans under).not_gt
      have inside : x ∈ (presentCells cells).insertionSort fun a b => totalCmp a b ≠ some .gt :=
        (List.perm_insertionSort _ _).mem_iff.mpr (mem_presentCells.mpr ⟨member, present.1⟩)
      have found : ∃ y ∈ dedupBy (fun a b => totalCmp a b == some .eq)
          ((presentCells cells).insertionSort fun a b => totalCmp a b ≠ some .gt),
          x = y ∨ (totalCmp x y == some .eq) = true := exists_mem_dedupBy inside
      obtain ⟨y, held, like⟩ := found
      refine binarySearch_finds split held ?_
      rcases like with rfl | like
      · rw [present.totalCmp, equal]
        rfl
      · have good := listed y (kept.subset held)
        rw [present.totalCmp, beq_iff_eq] at like
        rw [good.totalCmp, scalarCmp_congr equal (scalarCmp_swap like)]
        rfl

end Equal

section Substring

open Ngram

theorem trigrams_short {l : List UInt8} (short : l.length < 3) : trigrams l = [] := by
  match l with
  | [] => rfl
  | [_] => rfl
  | [_, _] => rfl
  | _ :: _ :: _ :: _ => simp only [List.length_cons] at short; omega

theorem mem_trigrams {gram l : List UInt8} : gram ∈ trigrams l ↔ gram.length = 3 ∧ gram <:+: l := by
  induction l with
  | nil =>
    rw [trigrams_short (by decide)]
    constructor
    · intro member
      cases member
    · rintro ⟨length, inside⟩
      have := inside.length_le
      rw [length] at this
      cases this
  | cons a tail ih =>
    match tail with
    | b :: c :: rest =>
      rw [trigrams, List.mem_cons, ih]
      conv_rhs => rw [List.infix_cons_iff]
      constructor
      · intro either
        rcases either with rfl | ⟨length, inside⟩
        · exact ⟨rfl, Or.inl ⟨rest, rfl⟩⟩
        · exact ⟨length, Or.inr inside⟩
      · intro both
        obtain ⟨length, start | inside⟩ := both
        · left
          obtain ⟨more, whole⟩ := start
          have cut := congrArg (List.take 3) whole
          rw [List.take_left' length] at cut
          simpa using cut
        · exact Or.inr ⟨length, inside⟩
    | [] | [_] =>
      rw [trigrams_short (by simp)]
      constructor
      · intro member
        cases member
      · rintro ⟨length, inside⟩
        have := inside.length_le
        rw [length] at this
        simp at this

/-- An n-gram index answers for every part of a string of the column. -/
theorem ngram_mightContain {cells : List Value} {s part : String} (member : .string s ∈ cells)
    (inside : utf8 part <:+: utf8 s) : mightContainSubstring (Ngram.build cells) part = true := by
  unfold mightContainSubstring
  rw [List.all_eq_true]
  intro gram listed
  have held : gram ∈ (presentCells cells).flatMap fun v => trigrams (text v) := by
    refine List.mem_flatMap.mpr ⟨.string s, mem_presentCells.mpr ⟨member, rfl⟩, ?_⟩
    obtain ⟨length, within⟩ := mem_trigrams.mp listed
    exact mem_trigrams.mpr ⟨length, within.trans inside⟩
  rw [Ngram.build, testBytes_ofKeys]
  exact fun p at_ => ⟨gram, held, at_⟩

end Substring

end Adelie
