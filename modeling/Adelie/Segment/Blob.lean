import Adelie.Segment.Footer

namespace Adelie

open Cursor

namespace Bloom

def encode (bloom : Bloom) : List UInt8 := Sink.u8 bloom.k ++ (Sink.u8 bloom.log2Bits ++ bloom.words.flatMap Sink.u64)

def load : Cursor Bloom := do
  let k ← u8
  if k < 1 ∨ 16 < k then fail (.malformed "bloom k out of range")
  else
    let log2Bits ← u8
    if log2Bits < 9 ∨ 20 < log2Bits then fail (.malformed "bloom log2_bits out of range")
    else
      let nwords ← guardLen (1 <<< log2Bits / 64) 8
      let words ← repeatDecode u64 nwords
      if ← isEmpty then return ⟨k, log2Bits, words⟩ else fail (.malformed "bloom blob has trailing bytes")

end Bloom

namespace ValueSet

/-- `none` is a panic, on a value of another type. -/
def encode (t : ScalarType) (values : List Value) : Option (List UInt8) := do
  return Sink.uvarint values.length ++ (← values.mapM (encodeValue · t)).flatten

/-- Each value less than the next. -/
def increasing : List Value → Bool
  | a :: b :: rest => totalCmp a b == some .lt && increasing (b :: rest)
  | _ => true

def load (ty : DataType) : Cursor (List Value) := do
  let n ← uvarint
  let n ← guardLen n 1
  let values ← repeatDecode (decodeValue ty) n
  if ← isEmpty then
    if increasing values then return values else fail (.malformed "value set is not strictly increasing")
  else fail (.malformed "value set blob has trailing bytes")

end ValueSet

def SkipIndex.encode : SkipIndex → Option (List UInt8)
  | .bloom _ b => some b.encode
  | .valueSet t values => ValueSet.encode t values
  | .ngram b => some b.encode

/-- A LIST is indexed by no kind, which the reader's entries are checked for. -/
def loadIndex (kind : IndexKind) (ty : DataType) (blob : List UInt8) : Except DecodeError SkipIndex :=
  match kind, ty with
  | .bloom, .scalar t => (Bloom.load blob).map fun out => .bloom t out.1
  | .valueSet, .scalar t => (ValueSet.load (.scalar t) blob).map fun out => .valueSet t out.1
  | .ngram, _ => (Bloom.load blob).map fun out => .ngram out.1
  | _, .list _ => .error (.malformed "list has no value codec")

section Filters

variable {words : List Nat} {bloom : Bloom}

/-- A filter of a size that `load` takes, its words whole. -/
structure Bloom.Sized (bloom : Bloom) : Prop where
  k : 1 ≤ bloom.k ∧ bloom.k ≤ 16
  log2Bits : 9 ≤ bloom.log2Bits ∧ bloom.log2Bits ≤ 20
  words : bloom.words.length = 2 ^ bloom.log2Bits / 64
  small : ∀ w ∈ bloom.words, w < 2 ^ 64

theorem setBit_small (small : ∀ w ∈ words, w < 2 ^ 64) (b : Nat) : ∀ w ∈ Bloom.setBit words b, w < 2 ^ 64 := by
  intro w member
  obtain ⟨i, inside, rfl⟩ := List.mem_iff_getElem.mp member
  have within : i < words.length := by simpa using inside
  have own : words[i] < 2 ^ 64 := small _ (List.getElem_mem within)
  simp only [Bloom.setBit, List.getElem_modify]
  split
  · apply Nat.or_lt_two_pow own
    rw [Nat.one_shiftLeft]
    exact Nat.pow_lt_pow_right (by decide) (Nat.mod_lt _ (by decide))
  · exact own

theorem foldl_setBit_small (positions : List Nat) (small : ∀ w ∈ words, w < 2 ^ 64) :
    ∀ w ∈ positions.foldl Bloom.setBit words, w < 2 ^ 64 := by
  induction positions generalizing words with
  | nil => exact small
  | cons p rest ih => exact ih (setBit_small small p)

theorem insertBytes_sized (sized : bloom.Sized) (key : List UInt8) : (bloom.insertBytes key).Sized :=
  ⟨sized.k, sized.log2Bits, (foldl_setBit_length _ _).trans sized.words, foldl_setBit_small _ sized.small⟩

theorem sizeFrom_le_add (want left log2 : Nat) : Bloom.sizeFrom want left log2 ≤ log2 + left := by
  induction left generalizing log2 with
  | zero => exact Nat.le_refl _
  | succ left ih =>
    unfold Bloom.sizeFrom
    split
    · have := ih (log2 + 1)
      omega
    · omega

theorem empty_sized (distinct : Nat) : (Bloom.empty distinct).Sized := by
  have seven : 1 ≤ 7 ∧ 7 ≤ 16 := by decide
  refine ⟨seven, ⟨sizeFrom_le _ _ _, sizeFrom_le_add _ 11 9⟩, by simp [Bloom.empty], ?_⟩
  intro w member
  rw [List.eq_of_mem_replicate member]
  decide

/-- Every filter that is built can be loaded. -/
theorem ofKeys_sized (keys : List (List UInt8)) : (Bloom.ofKeys keys).Sized := by
  unfold Bloom.ofKeys
  dsimp only
  generalize dedupBy (· == ·) (keys.insertionSort fun a b => compare a b ≠ .gt) = kept
  have start := empty_sized kept.length
  generalize Bloom.empty kept.length = bloom at start
  induction kept generalizing bloom with
  | nil => exact start
  | cons key rest ih => exact ih _ (insertBytes_sized start key)

theorem load_encode (sized : bloom.Sized) : Bloom.load bloom.encode = .ok (bloom, []) := by
  obtain ⟨k, log2, words, small⟩ := sized
  have count : 1 <<< bloom.log2Bits / 64 = bloom.words.length := by rw [Nat.one_shiftLeft, words]
  have few : bloom.words.length ≤ maxDecodeRows := by
    rw [words]
    calc 2 ^ bloom.log2Bits / 64 ≤ 2 ^ bloom.log2Bits := Nat.div_le_self _ _
      _ ≤ 2 ^ 20 := Nat.pow_le_pow_right (by decide) log2.2
      _ ≤ maxDecodeRows := by decide
  have room : bloom.words.length * 8 ≤ (bloom.words.flatMap Sink.u64).length := by
    rw [List.length_flatMap]
    calc bloom.words.length * 8 = (bloom.words.map fun _ => 8).sum := by simp
      _ ≤ (bloom.words.map fun w => (Sink.u64 w).length).sum := by
        apply le_of_eq
        congr 1
  have all := (Decodes.repeat fun w member => decodes_u64 (small w member)).whole
  rw [Bloom.encode, Bloom.load, (decodes_u8 (by omega)).bind_eq, if_neg (by omega), (decodes_u8 (by omega)).bind_eq, if_neg (by omega),
    count, guardLen_bind_eq few (by decide) room, bind_apply, all]
  rfl

end Filters

section Values

variable {t : ScalarType} {cells values : List Value}

theorem encodeValue_some {v : Value} (present : Present t v) : ∃ bytes, encodeValue v t = some bytes := by
  obtain ⟨value, typed⟩ := present
  cases v with
  | null => cases value
  | list items => cases t <;> cases typed
  | _ => cases t <;> first | exact typed.elim | exact ⟨_, rfl⟩

theorem encodeValue_pos {v : Value} {bytes : List UInt8} (made : encodeValue v t = some bytes) : 0 < bytes.length := by
  cases v with
  | null => cases t <;> cases made
  | list items => cases t <;> cases made
  | string s =>
    cases t <;> cases made
    exact record_pos (utf8 s)
  | bytes b =>
    cases t <;> cases made
    exact record_pos b
  | uuid u =>
    cases t <;> cases made
    rw [u.property]
    decide
  | ip u =>
    cases t <;> cases made
    rw [u.property]
    decide
  | _ =>
    cases t <;> cases made
    simp [Sink.u8, Sink.i64, Sink.u64, Sink.i32, Sink.i128]

theorem dedupFrom_increasing {last : Value} {l : List Value} (present : ∀ v ∈ last :: l, Present t v)
    (sorted : (last :: l).Pairwise AtMost) :
    ValueSet.increasing (last :: dedupFrom (fun a b => totalCmp a b == some .eq) last l) = true := by
  induction l generalizing last with
  | nil => rfl
  | cons v rest ih =>
    have own := present last (.head _)
    have other := present v (.tail _ (.head _))
    obtain ⟨least, inner⟩ := List.pairwise_cons.mp sorted
    have le := least v (.head _)
    unfold dedupFrom
    split
    · apply ih
      · intro w member
        rcases List.mem_cons.mp member with rfl | member
        · exact own
        · exact present w (.tail _ (.tail _ member))
      · exact List.pairwise_cons.mpr ⟨fun w member => least w (.tail _ member), (List.pairwise_cons.mp inner).2⟩
    · rename_i apart
      have less : totalCmp last v = some .lt := by
        obtain ⟨o, made, below⟩ := le
        rw [own.totalCmp, made]
        cases o with
        | lt => rfl
        | eq =>
          have swapped := scalarCmp_swap made
          rw [other.totalCmp, swapped] at apart
          exact absurd rfl apart
        | gt => cases below
      rw [ValueSet.increasing, less, ih (fun w member => present w (.tail _ member)) inner]
      rfl

/-- A value set that is built holds values of the type, each less than the next. -/
theorem build_increasing (typed : ∀ y ∈ cells, y.HasScalarType t) (built : ValueSet.build cells = some values) :
    (∀ v ∈ values, Present t v) ∧ values.length ≤ valueSetMax ∧ ValueSet.increasing values = true := by
  unfold ValueSet.build at built
  dsimp only at built
  split at built
  · cases built
  · rename_i few
    cases built
    have sorted := valueSet_sorted typed
    have present : ∀ v ∈ (presentCells cells).insertionSort fun a b => totalCmp a b ≠ some .gt, Present t v := by
      intro v member
      exact present_of_mem typed v ((List.perm_insertionSort _ (presentCells cells)).mem_iff.mp member)
    refine ⟨fun v member => present v ((dedupBy_sublist _).subset member), Nat.not_lt.mp few, ?_⟩
    generalize (presentCells cells).insertionSort (fun a b => totalCmp a b ≠ some .gt) = l at sorted present
    cases l with
    | nil => rfl
    | cons v rest => exact dedupFrom_increasing present sorted

theorem load_valueSet {blob : List UInt8} (present : ∀ v ∈ values, Present t v) (few : values.length ≤ valueSetMax)
    (sorted : ValueSet.increasing values = true) (made : ValueSet.encode t values = some blob) (small : blob.length < 2 ^ 64) :
    ValueSet.load (.scalar t) blob = .ok (values, []) := by
  obtain ⟨parts, encoded, made⟩ := Option.bind_eq_some_iff.mp made
  cases made
  have parts_eq := map_of_mapM_some encoded []
  have laid : parts.flatten = values.flatMap fun v => (encodeValue v t).getD [] := by rw [parts_eq, List.flatMap_def]
  rw [laid, List.length_append] at small
  rw [laid]
  have count : values.length ≤ 256 := few
  have all : Decodes (repeatDecode (decodeValue (.scalar t)) values.length) (values.flatMap fun v => (encodeValue v t).getD []) values := by
    apply Decodes.repeat
    intro v member
    have own := present v member
    have room := length_le_flatMap (f := fun v => (encodeValue v t).getD []) member
    obtain ⟨bytes, made⟩ := encodeValue_some own
    rw [made, Option.getD_some] at room ⊢
    obtain ⟨bytes', made', reads⟩ := decodes_value own.2 own.1 (sized_of_encoded made (by omega))
    rw [made] at made'
    cases made'
    exact reads
  have least : values.length ≤ (values.flatMap fun v => (encodeValue v t).getD []).length := by
    rw [List.length_flatMap]
    calc values.length = (values.map fun _ => 1).sum := by simp
      _ ≤ (values.map fun v => ((encodeValue v t).getD []).length).sum := by
        apply List.sum_le_sum
        intro v member
        obtain ⟨bytes, made⟩ := encodeValue_some (present v member)
        rw [made]
        exact encodeValue_pos made
  have cap : maxDecodeRows = 2 ^ 22 := rfl
  rw [ValueSet.load, (decodes_uvarint (by omega)).bind_eq, guardLen_bind_eq (by omega) (by decide) (by omega), bind_apply, all.whole]
  change (if ValueSet.increasing values = true then _ else _ : Cursor (List Value)) [] = _
  rw [if_pos sorted]
  rfl

end Values

theorem built_loads {kind : IndexKind} {c : Column} {index : SkipIndex} (typed : ∀ v ∈ c.cells, v.HasType c.ty)
    (built : buildIndex kind c = some index) :
    ∃ blob, index.encode = some blob ∧ (blob.length < 2 ^ 64 → loadIndex kind c.ty blob = .ok index) := by
  obtain ⟨ty, cells⟩ := c
  cases ty with
  | list t => cases kind <;> cases built
  | scalar t =>
    cases kind with
    | bloom =>
      cases built
      refine ⟨_, rfl, fun _ => ?_⟩
      exact congrArg (Except.map _) (load_encode (ofKeys_sized _))
    | valueSet =>
      obtain ⟨values, kept, rfl⟩ := Option.map_eq_some_iff.mp built
      obtain ⟨present, few, sorted⟩ := build_increasing typed kept
      obtain ⟨parts, encoded⟩ := mapM_some fun v member => encodeValue_some (present v member)
      have made : ValueSet.encode t values = some (Sink.uvarint values.length ++ parts.flatten) := by
        rw [ValueSet.encode, encoded]
        rfl
      refine ⟨_, made, fun small => ?_⟩
      rw [loadIndex, load_valueSet present few sorted made small]
      rfl
    | ngram =>
      cases t <;> cases built
      refine ⟨_, rfl, fun _ => ?_⟩
      exact congrArg (Except.map _) (load_encode (ofKeys_sized _))

/-- The blob of an index that was built of a column loads as that index. -/
theorem load_buildIndex {kind : IndexKind} {c : Column} {index : SkipIndex} (typed : ∀ v ∈ c.cells, v.HasType c.ty)
    (built : buildIndex kind c = some index) :
    ∃ blob, index.encode = some blob ∧ (blob.length < 2 ^ 64 → loadIndex kind c.ty blob = .ok index) :=
  built_loads typed built

/-- Two flags and a null. -/
def flagCells : Column := ⟨.bool, [.bool true, .null, .bool false]⟩

theorem load_buildIndex_flags : ∃ index blob, buildIndex .valueSet flagCells = some index ∧ index.encode = some blob ∧
    (blob.length < 2 ^ 64 → loadIndex .valueSet .bool blob = .ok index) := by
  have typed : ∀ v ∈ flagCells.cells, v.HasType flagCells.ty := by
    simp [flagCells, Value.HasType, Value.HasScalarType]
  obtain ⟨index, built⟩ : ∃ index, buildIndex .valueSet flagCells = some index := ⟨_, rfl⟩
  obtain ⟨blob, made, read⟩ := load_buildIndex typed built
  exact ⟨index, blob, built, made, read⟩

end Adelie
