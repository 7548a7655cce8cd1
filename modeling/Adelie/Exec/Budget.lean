import Adelie.Exec.Expr

namespace Adelie

namespace Budget

/-- A byte budget shared by every reservation drawn from one context. -/
structure MemoryBudget where
  limit : Nat
  used : Nat
  peak : Nat

/-- `usize::checked_add`. -/
def checkedAdd (a b : Nat) : Option Nat := if a + b < 2 ^ 64 then some (a + b) else none

namespace MemoryBudget

def new (limit : Nat) : MemoryBudget := ⟨limit, 0, 0⟩

/-- `used.fetch_update`: the value before, unless the closure declines. -/
def fetchUpdate (b : MemoryBudget) (f : Nat → Option Nat) : MemoryBudget × Except Nat Nat :=
  match f b.used with
  | some next => ({ b with used := next }, .ok b.used)
  | none => (b, .error b.used)

/-- `peak.fetch_max`. -/
def fetchMax (b : MemoryBudget) (n : Nat) : MemoryBudget := { b with peak := max b.peak n }

/-- What `grow` does first, in one atomic step. -/
def raise (b : MemoryBudget) (bytes : Nat) : MemoryBudget × Except ExecError Nat :=
  match b.fetchUpdate fun used => (checkedAdd used bytes).filter (· ≤ b.limit) with
  | (b', .ok prev) => (b', .ok prev)
  | (b', .error used) => (b', .error (.budgetExceeded bytes used b.limit))

def grow (b : MemoryBudget) (bytes : Nat) : MemoryBudget × Except ExecError Unit :=
  match b.raise bytes with
  | (b', .ok prev) => (b'.fetchMax (prev + bytes), .ok ())
  | (b', .error e) => (b', .error e)

/-- Saturating at zero. -/
def shrink (b : MemoryBudget) (bytes : Nat) : MemoryBudget := (b.fetchUpdate fun used => some (used - bytes)).1

end MemoryBudget

namespace Reservation

/-- `own` is what the reservation holds. -/
def grow (b : MemoryBudget) (own bytes : Nat) : MemoryBudget × Nat × Except ExecError Unit :=
  match b.grow bytes with
  | (b', .ok _) => (b', own + bytes, .ok ())
  | (b', .error e) => (b', own, .error e)

def shrink (b : MemoryBudget) (own bytes : Nat) : MemoryBudget × Nat := (b.shrink (min bytes own), own - min bytes own)

def resize (b : MemoryBudget) (own bytes : Nat) : MemoryBudget × Nat × Except ExecError Unit :=
  if own < bytes then grow b own (bytes - own)
  else ((shrink b own (own - bytes)).1, (shrink b own (own - bytes)).2, .ok ())

end Reservation

/-- A budget and the bytes of every reservation made of it, none once it is dropped. -/
structure ExecContext where
  budget : MemoryBudget
  held : List (Option Nat)

inductive Call where
  | reserve (bytes : Nat)
  | grow (i bytes : Nat)
  | shrink (i bytes : Nat)
  | resize (i bytes : Nat)
  | drop (i : Nat)

namespace ExecContext

def new (limit : Nat) : ExecContext := ⟨.new limit, []⟩

/-- A call on a live reservation; on another there is none to make. -/
def on (c : ExecContext) (i : Nat) (f : MemoryBudget → Nat → MemoryBudget × Nat × Except ExecError Unit) :
    Option (ExecContext × Except ExecError Unit) :=
  c.held[i]?.join.map fun own =>
    let out := f c.budget own
    (⟨out.1, c.held.set i (some out.2.1)⟩, out.2.2)

def call (c : ExecContext) : Call → Option (ExecContext × Except ExecError Unit)
  | .reserve bytes =>
    match c.budget.grow bytes with
    | (b, .ok _) => some (⟨b, c.held ++ [some bytes]⟩, .ok ())
    | (b, .error e) => some (⟨b, c.held⟩, .error e)
  | .grow i bytes => c.on i fun b own => Reservation.grow b own bytes
  | .shrink i bytes => c.on i fun b own => ((Reservation.shrink b own bytes).1, (Reservation.shrink b own bytes).2, .ok ())
  | .resize i bytes => c.on i fun b own => Reservation.resize b own bytes
  | .drop i => c.held[i]?.join.map fun own => (⟨c.budget.shrink own, c.held.set i none⟩, .ok ())

end ExecContext

/-- Calls one after another, on any of the reservations, and every value `used` has had. -/
inductive Ran (limit : Nat) : ExecContext → List Nat → Prop
  | new : Ran limit (.new limit) [0]
  | call {c c' : ExecContext} {seen : List Nat} {op : Call} {r : Except ExecError Unit} (ran : Ran limit c seen)
      (made : c.call op = some (c', r)) : Ran limit c' (c'.budget.used :: seen)

def total (held : List (Option Nat)) : Nat := (held.map (·.getD 0)).sum

section Raise

variable {b b' : MemoryBudget} {bytes prev : Nat} {e : ExecError}

/-- Room for so many bytes more. -/
def Room (limit used bytes : Nat) : Prop := used + bytes < 2 ^ 64 ∧ used + bytes ≤ limit

/-- Either all the bytes are in, or nothing has moved. -/
theorem raise_cases (b : MemoryBudget) (bytes : Nat) :
    (Room b.limit b.used bytes ∧ b.raise bytes = ({ b with used := b.used + bytes }, .ok b.used)) ∨
      (¬Room b.limit b.used bytes ∧ b.raise bytes = (b, .error (.budgetExceeded bytes b.used b.limit))) := by
  have refused (none_ : (checkedAdd b.used bytes).filter (· ≤ b.limit) = none) :
      b.raise bytes = (b, .error (.budgetExceeded bytes b.used b.limit)) := by
    simp only [MemoryBudget.raise, MemoryBudget.fetchUpdate, none_]
  unfold checkedAdd at refused
  by_cases small : b.used + bytes < 2 ^ 64
  · have sum : checkedAdd b.used bytes = some (b.used + bytes) := if_pos small
    rw [if_pos small] at refused
    by_cases room : b.used + bytes ≤ b.limit
    · have next : (checkedAdd b.used bytes).filter (· ≤ b.limit) = some (b.used + bytes) := by
        rw [sum]
        simp [room]
      exact .inl ⟨⟨small, room⟩, by simp only [MemoryBudget.raise, MemoryBudget.fetchUpdate, next]⟩
    · refine .inr ⟨fun fits => room fits.2, refused ?_⟩
      simp
      omega
  · rw [if_neg small] at refused
    exact .inr ⟨fun fits => small fits.1, refused rfl⟩

theorem grow_cases (b : MemoryBudget) (bytes : Nat) :
    (Room b.limit b.used bytes ∧ b.grow bytes = (⟨b.limit, b.used + bytes, max b.peak (b.used + bytes)⟩, .ok ())) ∨
      (¬Room b.limit b.used bytes ∧ b.grow bytes = (b, .error (.budgetExceeded bytes b.used b.limit))) := by
  unfold MemoryBudget.grow
  rcases raise_cases b bytes with ⟨room, raised⟩ | ⟨full, refused⟩
  · rw [raised]
    exact .inl ⟨room, rfl⟩
  · rw [refused]
    exact .inr ⟨full, rfl⟩

theorem grow_ok (room : Room b.limit b.used bytes) :
    b.grow bytes = (⟨b.limit, b.used + bytes, max b.peak (b.used + bytes)⟩, .ok ()) :=
  (grow_cases b bytes).elim (·.2) fun refused => absurd room refused.1

theorem raise_ok (raised : b.raise bytes = (b', .ok prev)) :
    Room b.limit b.used bytes ∧ prev = b.used ∧ b' = { b with used := b.used + bytes } := by
  rcases raise_cases b bytes with ⟨room, done⟩ | ⟨_, refused⟩
  · rw [done] at raised
    cases raised
    exact ⟨room, rfl, rfl⟩
  · rw [refused] at raised
    cases raised

theorem raise_error (raised : b.raise bytes = (b', .error e)) : b' = b := by
  rcases raise_cases b bytes with ⟨_, done⟩ | ⟨_, refused⟩
  · rw [done] at raised
    cases raised
  · rw [refused] at raised
    cases raised
    rfl

theorem shrink_eq (b : MemoryBudget) (bytes : Nat) : b.shrink bytes = { b with used := b.used - bytes } := rfl

end Raise

section Calls

variable {limit : Nat} {c c' : ExecContext} {seen : List Nat} {op : Call} {r : Except ExecError Unit}

theorem exists_split {α : Type} {l : List α} {i : Nat} {a : α} (found : l[i]? = some a) :
    ∃ before after, l = before ++ a :: after ∧ ∀ b, l.set i b = before ++ b :: after := by
  induction l generalizing i with
  | nil => cases found
  | cons x l ih =>
    cases i with
    | zero =>
      cases found
      exact ⟨[], l, rfl, fun _ => rfl⟩
    | succ i =>
      obtain ⟨before, after, same, set⟩ := ih found
      exact ⟨x :: before, after, by rw [same]; rfl, fun b => by rw [List.set_cons_succ, set]; rfl⟩

theorem total_append (xs ys : List (Option Nat)) : total (xs ++ ys) = total xs + total ys := by simp [total]

theorem total_cons (x : Option Nat) (xs : List (Option Nat)) : total (x :: xs) = x.getD 0 + total xs := by simp [total]

theorem exists_held {i own : Nat} (live : c.held[i]?.join = some own) :
    ∃ before after, c.held = before ++ some own :: after ∧ ∀ left, c.held.set i left = before ++ left :: after := by
  apply exists_split
  cases found : c.held[i]? with
  | none =>
    rw [found] at live
    cases live
  | some slot =>
    rw [found] at live
    exact congrArg some live

theorem on_cases {i : Nat} {f : MemoryBudget → Nat → MemoryBudget × Nat × Except ExecError Unit} (made : c.on i f = some (c', r)) :
    ∃ before after own, c.held = before ++ some own :: after ∧ c' = ⟨(f c.budget own).1, before ++ some (f c.budget own).2.1 :: after⟩ ∧
      r = (f c.budget own).2.2 := by
  obtain ⟨own, live, made⟩ := Option.map_eq_some_iff.mp made
  obtain ⟨before, after, held, set⟩ := exists_held live
  cases made
  exact ⟨before, after, own, held, by rw [set], rfl⟩

/-- What a call does: takes more for one reservation, gives some of one back, or is refused with nothing moved. -/
inductive Effect (c : ExecContext) : ExecContext → Except ExecError Unit → Prop
  | taken (more : Nat) (before own after : List (Option Nat)) (held : c.held = before ++ own ++ after)
      (room : c.budget.used + more ≤ c.budget.limit) :
      Effect c ⟨⟨c.budget.limit, c.budget.used + more, max c.budget.peak (c.budget.used + more)⟩,
        before ++ some (total own + more) :: after⟩ (.ok ())
  | returned (less own : Nat) (left : Option Nat) (before after : List (Option Nat)) (held : c.held = before ++ some own :: after)
      (rest : left.getD 0 + less = own) : Effect c ⟨{ c.budget with used := c.budget.used - less }, before ++ left :: after⟩ (.ok ())
  | refused (e : ExecError) : Effect c c (.error e)

theorem effect_grow {before after : List (Option Nat)} {own bytes : Nat} (held : c.held = before ++ some own :: after) :
    Effect c ⟨(Reservation.grow c.budget own bytes).1, before ++ some (Reservation.grow c.budget own bytes).2.1 :: after⟩
      (Reservation.grow c.budget own bytes).2.2 := by
  unfold Reservation.grow
  rcases grow_cases c.budget bytes with ⟨room, grown⟩ | ⟨_, refused⟩
  · rw [grown]
    have effect := Effect.taken (c := c) bytes before [some own] after (by simpa using held) room.2
    simpa [total] using effect
  · rw [refused]
    dsimp only
    rw [← held]
    exact .refused _

theorem effect_shrink {before after : List (Option Nat)} {own bytes : Nat} (held : c.held = before ++ some own :: after) :
    Effect c ⟨(Reservation.shrink c.budget own bytes).1, before ++ some (Reservation.shrink c.budget own bytes).2 :: after⟩ (.ok ()) := by
  apply Effect.returned (min bytes own) own _ before after held
  change own - min bytes own + min bytes own = own
  omega

theorem call_effect (made : c.call op = some (c', r)) : Effect c c' r := by
  cases op with
  | reserve bytes =>
    simp only [ExecContext.call] at made
    rcases grow_cases c.budget bytes with ⟨room, grown⟩ | ⟨_, refused⟩
    · rw [grown] at made
      cases made
      have effect := Effect.taken (c := c) bytes c.held [] [] (by simp) room.2
      simpa [total] using effect
    · rw [refused] at made
      cases made
      exact .refused _
  | grow i bytes =>
    simp only [ExecContext.call] at made
    obtain ⟨before, after, own, held, rfl, rfl⟩ := on_cases made
    exact effect_grow held
  | shrink i bytes =>
    simp only [ExecContext.call] at made
    obtain ⟨before, after, own, held, rfl, rfl⟩ := on_cases made
    exact effect_shrink held
  | resize i bytes =>
    simp only [ExecContext.call] at made
    obtain ⟨before, after, own, held, rfl, rfl⟩ := on_cases made
    unfold Reservation.resize
    split
    · exact effect_grow held
    · exact effect_shrink held
  | drop i =>
    obtain ⟨own, live, made⟩ := Option.map_eq_some_iff.mp made
    obtain ⟨before, after, held, set⟩ := exists_held live
    cases made
    rw [set]
    exact .returned own own none before after held (Nat.zero_add own)

/-- What the counters say of the reservations there are. -/
structure Accounts (limit : Nat) (c : ExecContext) (seen : List Nat) : Prop where
  limit_eq : c.budget.limit = limit
  used_eq : c.budget.used = total c.held
  used_le : c.budget.used ≤ limit
  now : c.budget.used ∈ seen
  had : c.budget.peak ∈ seen
  most : ∀ u ∈ seen, u ≤ c.budget.peak

theorem Accounts.effect (accounts : Accounts limit c seen) (effect : Effect c c' r) : Accounts limit c' (c'.budget.used :: seen) := by
  obtain ⟨limit_eq, used_eq, used_le, now, had, most⟩ := accounts
  cases effect with
  | taken more before own after held room =>
    refine ⟨limit_eq, ?_, by rw [← limit_eq]; exact room, .head _, ?_, ?_⟩
    · change c.budget.used + more = _
      rw [used_eq, held, total_append, total_append, total_append, total_cons, Option.getD_some]
      omega
    · rcases Nat.le_total c.budget.peak (c.budget.used + more) with le | le
      · simp [Nat.max_eq_right le]
      · simp [Nat.max_eq_left le, had]
    · intro u member
      rcases List.mem_cons.mp member with rfl | member
      · exact Nat.le_max_right _ _
      · exact Nat.le_trans (most u member) (Nat.le_max_left _ _)
  | returned less own left before after held rest =>
    have below : c.budget.used ≤ c.budget.peak := most _ now
    refine ⟨limit_eq, ?_, by change c.budget.used - less ≤ limit; omega, .head _, .tail _ had, ?_⟩
    · change c.budget.used - less = _
      rw [used_eq, held, total_append, total_append, total_cons, total_cons, Option.getD_some]
      omega
    · intro u member
      rcases List.mem_cons.mp member with rfl | member
      · change c.budget.used - less ≤ c.budget.peak
        omega
      · exact most u member
  | refused e =>
    refine ⟨limit_eq, used_eq, used_le, .head _, .tail _ had, ?_⟩
    intro u member
    rcases List.mem_cons.mp member with rfl | member
    · exact most _ now
    · exact most u member

theorem Ran.accounts (ran : Ran limit c seen) : Accounts limit c seen := by
  induction ran with
  | new => exact ⟨rfl, rfl, Nat.zero_le _, .head _, .head _, by simp [ExecContext.new, MemoryBudget.new]⟩
  | call _ made ih => exact ih.effect (call_effect made)

end Calls

section Steps

/-- A reservation amid its own calls. Between the atomic steps of one, `own` is what its `bytes` field still says, none for a
    reservation that is being made. -/
inductive Owner where
  | dropped
  | held (bytes : Nat)
  | raised (own : Option Nat) (more next : Nat)
  | peaked (own : Option Nat) (more : Nat)
  | lowered (own less : Nat)

structure World where
  budget : MemoryBudget
  owners : List Owner

/-- The atomic steps of every worker's calls; a `resize` takes those of a `grow` or of a `shrink`. -/
inductive Step : World → World → Prop
  | reserve {b b' owners bytes prev} (raised : MemoryBudget.raise b bytes = (b', .ok prev)) :
      Step ⟨b, owners⟩ ⟨b', owners ++ [.raised none bytes (prev + bytes)]⟩
  | grow {b b' owners bytes prev i own} (here : owners[i]? = some (.held own)) (raised : MemoryBudget.raise b bytes = (b', .ok prev)) :
      Step ⟨b, owners⟩ ⟨b', owners.set i (.raised (some own) bytes (prev + bytes))⟩
  | refused {b b' owners bytes e} (raised : MemoryBudget.raise b bytes = (b', .error e)) : Step ⟨b, owners⟩ ⟨b', owners⟩
  | max {b owners i own more next} (here : owners[i]? = some (.raised own more next)) :
      Step ⟨b, owners⟩ ⟨b.fetchMax next, owners.set i (.peaked own more)⟩
  | grown {b owners i own more} (here : owners[i]? = some (.peaked own more)) :
      Step ⟨b, owners⟩ ⟨b, owners.set i (.held (own.getD 0 + more))⟩
  | shrink {b owners i own bytes} (here : owners[i]? = some (.held own)) :
      Step ⟨b, owners⟩ ⟨b.shrink (min bytes own), owners.set i (.lowered own (min bytes own))⟩
  | shrunk {b owners i own less} (here : owners[i]? = some (.lowered own less)) : Step ⟨b, owners⟩ ⟨b, owners.set i (.held (own - less))⟩
  | drop {b owners i own} (here : owners[i]? = some (.held own)) : Step ⟨b, owners⟩ ⟨b.shrink own, owners.set i .dropped⟩

/-- Steps of any calls in any order, and every value `used` has had. -/
inductive Interleaved (limit : Nat) : World → List Nat → Prop
  | new : Interleaved limit ⟨.new limit, []⟩ [0]
  | step {w w' : World} {seen : List Nat} (ran : Interleaved limit w seen) (stepped : Step w w') :
      Interleaved limit w' (w'.budget.used :: seen)

/-- What the reservation holds once its call has returned: the call takes effect where it moves `used`. -/
def Owner.settled : Owner → Option Nat
  | .dropped => none
  | .held bytes => some bytes
  | .raised own more _ => some (own.getD 0 + more)
  | .peaked own more => some (own.getD 0 + more)
  | .lowered own less => some (own - less)

/-- The peak the reservation's call has still to report. -/
def Owner.due : Owner → Nat
  | .raised _ _ next => next
  | _ => 0

def due (owners : List Owner) : Nat := (owners.map Owner.due).foldr max 0

def World.settled (w : World) : ExecContext :=
  ⟨{ w.budget with peak := max w.budget.peak (due w.owners) }, w.owners.map Owner.settled⟩

/-- No call is under way. -/
def World.Quiet (w : World) : Prop := ∀ o ∈ w.owners, o = .dropped ∨ ∃ bytes, o = .held bytes

theorem due_append (xs ys : List Owner) : due (xs ++ ys) = max (due xs) (due ys) := by
  induction xs with
  | nil => simp [due]
  | cons x xs ih =>
    have first : due (x :: xs ++ ys) = max x.due (due (xs ++ ys)) := rfl
    have second : due (x :: xs) = max x.due (due xs) := rfl
    rw [first, ih, second, max_assoc]

theorem due_cons (x : Owner) (xs : List Owner) : due (x :: xs) = max x.due (due xs) := rfl

theorem due_set {owners : List Owner} {i : Nat} {old : Owner} (here : owners[i]? = some old) (paid : old.due = 0) (o : Owner) :
    due (owners.set i o) = max (due owners) o.due := by
  obtain ⟨before, after, rfl, set⟩ := exists_split here
  rw [set, due_append, due_append, due_cons, due_cons, paid]
  omega

theorem on_eq {c : ExecContext} {i own : Nat} {f : MemoryBudget → Nat → MemoryBudget × Nat × Except ExecError Unit}
    (live : c.held[i]? = some (some own)) :
    c.on i f = some (⟨(f c.budget own).1, c.held.set i (some (f c.budget own).2.1)⟩, (f c.budget own).2.2) := by
  rw [ExecContext.on, live]
  rfl

theorem settled_held {b : MemoryBudget} {owners : List Owner} {i own : Nat} (here : owners[i]? = some (.held own)) :
    (World.mk b owners).settled.held[i]? = some (some own) := by
  change (owners.map Owner.settled)[i]? = _
  rw [List.getElem?_map, here]
  rfl

variable {limit : Nat} {w w' : World} {seen : List Nat}

/-- A step is a call's whole effect or none of it. -/
theorem Step.effect (stepped : Step w w') : w'.settled = w.settled ∨ ∃ op, w.settled.call op = some (w'.settled, .ok ()) := by
  cases stepped with
  | @reserve b b' owners bytes prev raised =>
    obtain ⟨room, rfl, rfl⟩ := raise_ok raised
    refine .inr ⟨.reserve bytes, ?_⟩
    simp only [ExecContext.call, grow_ok (b := (World.mk b owners).settled.budget) room]
    simp only [World.settled, due_append, List.map_append, List.map_singleton, Owner.settled, Option.getD_none, Nat.zero_add]
    rw [show due [.raised none bytes (b.used + bytes)] = b.used + bytes from Nat.max_zero _, max_assoc]
  | @grow b b' owners bytes prev i own here raised =>
    obtain ⟨room, rfl, rfl⟩ := raise_ok raised
    refine .inr ⟨.grow i bytes, ?_⟩
    simp only [ExecContext.call]
    rw [on_eq (settled_held here), Reservation.grow, grow_ok (b := (World.mk b owners).settled.budget) room]
    simp only [World.settled, due_set here rfl, Owner.due, List.map_set, Owner.settled, Option.getD_some, max_assoc]
  | refused raised =>
    rw [raise_error raised]
    exact .inl rfl
  | @max b owners i own more next here =>
    obtain ⟨before, after, rfl, set⟩ := exists_split here
    left
    simp only [World.settled, MemoryBudget.fetchMax, set, due_append, due_cons, Owner.due, List.map_append, List.map_cons, Owner.settled]
    congr 2
    omega
  | @grown b owners i own more here =>
    obtain ⟨before, after, rfl, set⟩ := exists_split here
    left
    simp only [World.settled, set, due_append, due_cons, Owner.due, List.map_append, List.map_cons, Owner.settled]
  | @shrink b owners i own bytes here =>
    refine .inr ⟨.shrink i bytes, ?_⟩
    simp only [ExecContext.call]
    rw [on_eq (settled_held here)]
    simp only [World.settled, due_set here rfl, Owner.due, List.map_set, Owner.settled, Nat.max_zero, Reservation.shrink, shrink_eq]
  | @shrunk b owners i own less here =>
    obtain ⟨before, after, rfl, set⟩ := exists_split here
    left
    simp only [World.settled, set, due_append, due_cons, Owner.due, List.map_append, List.map_cons, Owner.settled]
  | @drop b owners i own here =>
    refine .inr ⟨.drop i, ?_⟩
    simp only [ExecContext.call]
    rw [settled_held here]
    simp only [World.settled, due_set here rfl, Owner.due, List.map_set, Owner.settled, Nat.max_zero, shrink_eq, Option.join_some,
      Option.map_some]

/-- However calls overlap, `used` and the reservations are as after whole calls one after another. -/
theorem Interleaved.ran (ran : Interleaved limit w seen) : ∃ whole, Ran limit w.settled whole ∧ ∀ u, u ∈ seen ↔ u ∈ whole := by
  induction ran with
  | new => exact ⟨[0], .new, fun _ => Iff.rfl⟩
  | @step w w' seen _ stepped ih =>
    obtain ⟨whole, ran, same⟩ := ih
    rcases stepped.effect with still | ⟨op, called⟩
    · refine ⟨whole, by rw [still]; exact ran, ?_⟩
      have used : w'.budget.used = w.budget.used := congrArg (fun c : ExecContext => c.budget.used) still
      intro u
      rw [List.mem_cons, same, used]
      constructor
      · rintro (rfl | member)
        · exact ran.accounts.now
        · exact member
      · exact .inr
    · refine ⟨_, .call ran called, ?_⟩
      intro u
      rw [List.mem_cons, List.mem_cons, same]
      rfl

theorem due_quiet (quiet : w.Quiet) : due w.owners = 0 := by
  unfold due
  have none_ : w.owners.map Owner.due = w.owners.map fun _ => 0 := by
    apply List.map_congr_left
    intro o member
    rcases quiet o member with rfl | ⟨bytes, rfl⟩
    · rfl
    · rfl
  rw [none_]
  induction w.owners with
  | nil => rfl
  | cons o rest ih => simpa using ih

end Steps

/-- After any calls on any reservations `used` is what the live ones hold, within the limit, and `peak` the most it has been; a refused
    call moves nothing. However the atomic steps of concurrent calls interleave, they are whole calls in some order, and while none
    is under way the counters are those of its reservations. -/
theorem budget_exact (limit : Nat) :
    (∀ c seen, Ran limit c seen → c.budget.used = total c.held ∧ c.budget.used ≤ limit ∧ c.budget.peak ∈ seen ∧
      (∀ u ∈ seen, u ≤ c.budget.peak) ∧ ∀ op c' e, c.call op = some (c', .error e) → c' = c) ∧
    (∀ w seen, Interleaved limit w seen → w.budget.used = total (w.owners.map Owner.settled) ∧ w.budget.used ≤ limit ∧
      (∃ whole, Ran limit w.settled whole ∧ ∀ u, u ∈ seen ↔ u ∈ whole) ∧
      (w.Quiet → w.budget.peak ∈ seen ∧ ∀ u ∈ seen, u ≤ w.budget.peak)) := by
  refine ⟨?_, ?_⟩
  · intro c seen ran
    have accounts := ran.accounts
    refine ⟨accounts.used_eq, accounts.used_le, accounts.had, accounts.most, ?_⟩
    intro op c' e refused
    have effect := call_effect refused
    cases effect
    rfl
  · intro w seen ran
    obtain ⟨whole, settled, same⟩ := ran.ran
    have accounts := settled.accounts
    refine ⟨accounts.used_eq, accounts.used_le, ⟨whole, settled, same⟩, ?_⟩
    intro quiet
    have peak : w.settled.budget.peak = w.budget.peak := by
      change max w.budget.peak (due w.owners) = _
      rw [due_quiet quiet]
      exact Nat.max_zero _
    rw [← peak]
    exact ⟨(same _).mpr accounts.had, fun u member => accounts.most u ((same u).mp member)⟩

end Budget

end Adelie
