import Adelie.Lib.Decode

namespace Adelie

/-- Fields of bits, each a value and a width, laid out one after another with the first lowest. -/
def packed : List (Nat × Nat) → Nat
  | [] => 0
  | (v, w) :: rest => v % 2 ^ w + 2 ^ w * packed rest

/-- How many bits the fields take. -/
def widths (fields : List (Nat × Nat)) : Nat := (fields.map Prod.snd).sum

section Packed

variable {fields more : List (Nat × Nat)} {v w n p : Nat}

@[simp] theorem packed_nil : packed [] = 0 := rfl

@[simp] theorem widths_nil : widths [] = 0 := rfl

@[simp] theorem widths_cons : widths ((v, w) :: fields) = w + widths fields := rfl

@[simp] theorem widths_append : widths (fields ++ more) = widths fields + widths more := by
  simp [widths]

theorem packed_lt (fields : List (Nat × Nat)) : packed fields < 2 ^ widths fields := by
  induction fields with
  | nil => decide
  | cons f rest ih =>
    obtain ⟨v, w⟩ := f
    have low : v % 2 ^ w < 2 ^ w := Nat.mod_lt _ (by positivity)
    have high : 2 ^ w * (packed rest + 1) ≤ 2 ^ w * 2 ^ widths rest := Nat.mul_le_mul_left _ ih
    rw [packed, widths_cons, pow_add]
    rw [Nat.mul_add, Nat.mul_one] at high
    omega

theorem packed_append (fields more : List (Nat × Nat)) :
    packed (fields ++ more) = packed fields + 2 ^ widths fields * packed more := by
  induction fields with
  | nil => simp
  | cons f rest ih =>
    obtain ⟨v, w⟩ := f
    rw [List.cons_append, packed, packed, ih, widths_cons, pow_add]
    ring

theorem packed_one : packed [(v, w)] = v % 2 ^ w := by
  simp [packed]

/-- A field is the two halves it is written in. -/
theorem packed_split {a b : Nat} : packed [(v, a + b)] = packed [(v, a), (v / 2 ^ a, b)] := by
  rw [packed_one, packed, packed_one, pow_add, Nat.mod_mul]

/-- The number at hand starts with the fields: the first can be taken off. -/
theorem packed_cons_mod (same : n % 2 ^ widths ((v, w) :: fields) = packed ((v, w) :: fields)) :
    n % 2 ^ w = v % 2 ^ w ∧ n / 2 ^ w % 2 ^ widths fields = packed fields := by
  have positive : 0 < 2 ^ w := by positivity
  rw [widths_cons, pow_add, Nat.mod_mul, packed] at same
  have low : n % 2 ^ w < 2 ^ w := Nat.mod_lt _ positive
  have low' : v % 2 ^ w < 2 ^ w := Nat.mod_lt _ positive
  have lows := congrArg (· % 2 ^ w) same
  have highs := congrArg (· / 2 ^ w) same
  simp only [Nat.add_mul_mod_self_left, Nat.mod_mod] at lows
  simp only [Nat.add_mul_div_left _ _ positive, Nat.div_eq_of_lt low, Nat.div_eq_of_lt low', Nat.zero_add] at highs
  exact ⟨lows, highs⟩

end Packed

/-- The bits of a run of bytes from a byte boundary on. -/
theorem leNat_append (a b : List UInt8) : leNat (a ++ b) = leNat a + 256 ^ a.length * leNat b := by
  induction a with
  | nil => simp [leNat]
  | cons x a ih =>
    rw [List.cons_append, leNat, leNat, ih, List.length_cons, pow_succ]
    ring

theorem leNat_drop (a : List UInt8) (i : Nat) : leNat (a.drop i) = leNat a / 256 ^ i := by
  induction i generalizing a with
  | zero => simp
  | succ i ih =>
    cases a with
    | nil => simp [leNat]
    | cons x a =>
      have byte := x.toNat_lt
      have above : (x.toNat + 256 * leNat a) / 256 = leNat a := by omega
      rw [List.drop_succ_cons, ih, leNat, pow_succ', ← Nat.div_div_eq_div_mul, above]

theorem getD_leNat (a : List UInt8) (i : Nat) : (a.getD i 0).toNat = leNat a / 256 ^ i % 256 := by
  rw [← leNat_drop]
  by_cases inside : i < a.length
  · have byte := a[i].toNat_lt
    rw [List.getD_eq_getElem _ _ inside, List.drop_eq_getElem_cons inside, leNat]
    omega
  · rw [List.getD_eq_default _ _ (by omega), List.drop_of_length_le (by omega)]
    rfl

/-- Low bits and bits above them do not meet. -/
theorem or_shift {low high k : Nat} (below : low < 2 ^ k) : low ||| (high <<< k) = low + high * 2 ^ k := by
  rw [Nat.or_comm, Nat.shiftLeft_eq, Nat.mul_comm high, ← Nat.two_pow_add_eq_or_of_lt below, Nat.add_comm]

section Consumes

variable {σ ε ι α β : Type} {holds : σ → List ι → Prop} {d : StateT σ (Except ε) α} {items more : List ι} {v : α}

/-- From any state that holds these items, the reader takes them and no more. -/
def Consumes (holds : σ → List ι → Prop) (d : StateT σ (Except ε) α) (items : List ι) (v : α) : Prop :=
  ∀ s rest, holds s (items ++ rest) → ∃ s', d s = .ok (v, s') ∧ holds s' rest

theorem Consumes.pure (v : α) : Consumes holds (Pure.pure v : StateT σ (Except ε) α) [] v :=
  fun s _ held => ⟨s, rfl, held⟩

theorem Consumes.bind {f : α → StateT σ (Except ε) β} {u : β} (first : Consumes holds d items v)
    (second : Consumes holds (f v) more u) : Consumes holds (d >>= f) (items ++ more) u := by
  intro s rest held
  rw [List.append_assoc] at held
  obtain ⟨mid, read, held⟩ := first s _ held
  obtain ⟨last, read', held⟩ := second mid _ held
  refine ⟨last, ?_, held⟩
  change (d s >>= fun p => f p.1 p.2) = _
  rw [read]
  exact read'

/-- A step after which nothing is taken. -/
theorem Consumes.bind_last {f : α → StateT σ (Except ε) β} {u : β} (first : Consumes holds d items v)
    (second : Consumes holds (f v) [] u) : Consumes holds (d >>= f) items u := by
  rw [← List.append_nil items]
  exact first.bind second

theorem Consumes.map {f : α → β} (first : Consumes holds d items v) : Consumes holds (f <$> d) items (f v) := by
  intro s rest held
  obtain ⟨mid, read, held⟩ := first s rest held
  refine ⟨mid, ?_, held⟩
  change (d s >>= fun p => Except.ok (f p.1, p.2)) = _
  rw [read]
  rfl

/-- `n` reads, one after the other. -/
def repeatRead (d : StateT σ (Except ε) α) : Nat → StateT σ (Except ε) (List α)
  | 0 => Pure.pure []
  | n + 1 => do
    let v ← d
    let rest ← repeatRead d n
    return v :: rest

theorem Consumes.repeat {vs : List α} {item : α → ι} (each : ∀ v ∈ vs, Consumes holds d [item v] v) :
    Consumes holds (repeatRead d vs.length) (vs.map item) vs := by
  induction vs with
  | nil => exact Consumes.pure []
  | cons v rest ih =>
    have tail := ih fun v member => each v (.tail _ member)
    have items : Consumes holds (repeatRead d rest.length >>= fun vs => Pure.pure (v :: vs) : StateT σ (Except ε) (List α))
        (rest.map item ++ []) (v :: rest) := tail.bind (Consumes.pure _)
    rw [List.append_nil] at items
    exact (each v (.head _)).bind items

/-- A run from a state that holds just these items. -/
theorem Consumes.run (reads : Consumes holds d items v) {s : σ} (held : holds s items) :
    ∃ s', d s = .ok (v, s') := by
  rw [← List.append_nil items] at held
  obtain ⟨s', read, _⟩ := reads s [] held
  exact ⟨s', read⟩

end Consumes

section Gives

variable {σ ε α β : Type} {d : StateT σ (Except ε) α} {good : α → Prop} {good' : β → Prop}

/-- Whatever the state, what is read is of the kind. -/
def Gives (d : StateT σ (Except ε) α) (good : α → Prop) : Prop := ∀ s v s', d s = .ok (v, s') → good v

theorem Gives.pure {v : α} (holds : good v) : Gives (Pure.pure v : StateT σ (Except ε) α) good := by
  intro s w s' made
  cases made
  exact holds

theorem Gives.throw (e : ε) : Gives (MonadExcept.throw e : StateT σ (Except ε) α) good := by
  intro s v s' made
  cases made

theorem Gives.bind {f : α → StateT σ (Except ε) β} (first : Gives d good) (second : ∀ v, good v → Gives (f v) good') :
    Gives (d >>= f) good' := by
  intro s w s' made
  change (d s >>= fun p => f p.1 p.2) = _ at made
  cases read : d s with
  | error e =>
    rw [read] at made
    cases made
  | ok p =>
    rw [read] at made
    exact second p.1 (first s p.1 p.2 read) p.2 w s' made

theorem Gives.repeat (each : Gives d good) (n : Nat) : Gives (repeatRead d n) fun vs => vs.length = n ∧ ∀ v ∈ vs, good v := by
  induction n with
  | zero => exact Gives.pure ⟨rfl, by simp⟩
  | succ n ih =>
    rw [repeatRead]
    refine each.bind ?_
    intro v holds
    refine ih.bind ?_
    rintro vs ⟨length, others⟩
    exact Gives.pure ⟨congrArg (· + 1) length, List.forall_mem_cons.mpr ⟨holds, others⟩⟩

end Gives

end Adelie
