import Adelie.Lib.Bytes

namespace Adelie

/-- A reader of bytes: what is left to read is the state. -/
abbrev Decoder (ε α : Type) := StateT (List UInt8) (Except ε) α

section

variable {ε α β : Type} {d : Decoder ε α} {bytes rest : List UInt8} {v : α}

/-- The decoder reads exactly these bytes, whatever follows them. -/
def Decodes (d : Decoder ε α) (bytes : List UInt8) (v : α) : Prop := ∀ rest, d (bytes ++ rest) = .ok (v, rest)

theorem Decodes.pure (v : α) : Decodes (Pure.pure v : Decoder ε α) [] v := fun _ => rfl

theorem Decodes.bind {f : α → Decoder ε β} {more : List UInt8} {w : β} (first : Decodes d bytes v)
    (second : Decodes (f v) more w) : Decodes (d >>= f) (bytes ++ more) w := by
  intro rest
  change (d (bytes ++ more ++ rest) >>= fun p => f p.1 p.2) = _
  rw [List.append_assoc, first]
  exact second rest

theorem Decodes.map {f : α → β} (first : Decodes d bytes v) : Decodes (f <$> d) bytes (f v) := by
  intro rest
  change (d (bytes ++ rest) >>= fun p => Except.ok (f p.1, p.2)) = _
  rw [first]
  rfl

theorem Decodes.whole (reads : Decodes d bytes v) : d bytes = .ok (v, []) := by
  simpa using reads []

theorem bind_apply (d : Decoder ε α) (f : α → Decoder ε β) (bytes : List UInt8) :
    (d >>= f) bytes = d bytes >>= fun p => f p.1 p.2 := rfl

theorem map_apply (f : α → β) (d : Decoder ε α) (bytes : List UInt8) :
    (f <$> d) bytes = (d bytes).map fun p => (f p.1, p.2) := by
  change (d bytes >>= fun p => Except.ok (f p.1, p.2)) = _
  cases d bytes <;> rfl

/-- What goes on after bytes that are read, goes on from what follows them. -/
theorem Decodes.bind_eq (first : Decodes d bytes v) (f : α → Decoder ε β) (rest : List UInt8) :
    (d >>= f) (bytes ++ rest) = f v rest := by
  rw [bind_apply, first]
  rfl

theorem bind_eq_ok {f : α → Decoder ε β} {w : β} (made : (d >>= f) bytes = .ok (w, rest)) :
    ∃ v mid, d bytes = .ok (v, mid) ∧ f v mid = .ok (w, rest) := by
  rw [bind_apply] at made
  cases first : d bytes with
  | error e =>
    rw [first] at made
    cases made
  | ok p =>
    rw [first] at made
    exact ⟨p.1, p.2, rfl, made⟩

/-- `n` items, one after the other. -/
def repeatDecode (d : Decoder ε α) : Nat → Decoder ε (List α)
  | 0 => Pure.pure []
  | n + 1 => do
    let v ← d
    let rest ← repeatDecode d n
    return v :: rest

theorem Decodes.repeat {vs : List α} {enc : α → List UInt8} (each : ∀ v ∈ vs, Decodes d (enc v) v) :
    Decodes (repeatDecode d vs.length) (vs.flatMap enc) vs := by
  induction vs with
  | nil => exact Decodes.pure []
  | cons v rest ih =>
    have tail := ih fun v member => each v (.tail _ member)
    have items : Decodes (repeatDecode d rest.length >>= fun vs => Pure.pure (v :: vs) : Decoder ε (List α))
        (rest.flatMap enc ++ []) (v :: rest) := tail.bind (Decodes.pure _)
    rw [List.append_nil] at items
    exact (each v (.head _)).bind items

end

end Adelie
