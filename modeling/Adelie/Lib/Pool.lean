import Adelie.Lib.Traverse

namespace Adelie

/-- Workers that take items off one counter, each feeding those it takes to a state of its own. -/
structure Pool (σ β ε : Type) where
  total : Nat
  fresh : Except ε σ
  read : Nat → Except ε (List β)
  push : σ → β → Except ε σ
  done : σ → Bool
  /-- What may stop a worker at any point, whatever it holds. -/
  interrupts : ε → Prop
  /-- An error that unwinds its worker and is reported to no other. -/
  panics : ε → Bool

namespace Pool

variable {σ β ε : Type} (p : Pool σ β ε)

/-- One batch after another, until the state needs no more. -/
def feedAll : List β → σ → Except ε (σ × Bool)
  | [], s => .ok (s, false)
  | b :: rest, s => do
    let s ← p.push s b
    if p.done s then return (s, true) else feedAll rest s

def feed (i : Nat) (s : σ) : Except ε (σ × Bool) := do p.feedAll (← p.read i) s

/-- What one worker holds after the items it took. It takes no other once it has enough. -/
inductive Fed : List Nat → σ → Bool → Prop
  | fresh {s : σ} (made : p.fresh = .ok s) : Fed [] s false
  | more {items : List Nat} {s s' : σ} {i : Nat} {done : Bool} (before : Fed items s false)
      (made : p.feed i s = .ok (s', done)) : Fed (items ++ [i]) s' done

/-- How a worker comes to fail. -/
inductive Breaks : List Nat → ε → Prop
  | fresh {e : ε} (made : p.fresh = .error e) : Breaks [] e
  | more {items : List Nat} {s : σ} {i : Nat} {e : ε} (before : p.Fed items s false)
      (made : p.feed i s = .error e) : Breaks (items ++ [i]) e

inductive Phase (σ ε : Type) where
  | waiting
  | head (s : σ) (done : Bool)
  | working (i : Nat) (s : σ)
  | ended (s : σ)
  | failed (e : ε)

/-- The shared counter, stop flag and error slot, and every worker. No step reads `taken`: it is the
    history of what each worker took. -/
structure State (σ ε : Type) (n : Nat) where
  next : Nat
  stop : Bool
  slot : Option ε
  workers : Fin n → Phase σ ε
  taken : Fin n → List Nat

variable {n : Nat}

def initial : State σ ε n := ⟨0, false, none, fun _ => .waiting, fun _ => []⟩

def State.become (st : State σ ε n) (w : Fin n) (phase : Phase σ ε) : State σ ε n :=
  { st with workers := Function.update st.workers w phase }

/-- The first error recorded stays. -/
def fail (st : State σ ε n) (w : Fin n) (e : ε) : State σ ε n :=
  let st := st.become w (.failed e)
  if p.panics e then st else { st with stop := true, slot := st.slot.or (some e) }

/-- The flag is loaded with no ordering, so a worker may take an item after it is set. -/
inductive Step : State σ ε n → State σ ε n → Prop
  | opened {st : State σ ε n} {w : Fin n} {s : σ} (phase : st.workers w = .waiting) (made : p.fresh = .ok s) :
    Step st (st.become w (.head s false))
  | refused {st : State σ ε n} {w : Fin n} {e : ε} (phase : st.workers w = .waiting) (made : p.fresh = .error e) :
    Step st (p.fail st w e)
  | took {st : State σ ε n} {w : Fin n} {s : σ} (phase : st.workers w = .head s false) (left : st.next < p.total) :
    Step st { st.become w (.working st.next s) with
      next := st.next + 1, taken := Function.update st.taken w (st.taken w ++ [st.next]) }
  | exhausted {st : State σ ε n} {w : Fin n} {s : σ} (phase : st.workers w = .head s false)
      (left : p.total ≤ st.next) : Step st { st.become w (.ended s) with next := st.next + 1 }
  | stopped {st : State σ ε n} {w : Fin n} {s : σ} (phase : st.workers w = .head s false) (stop : st.stop = true) :
    Step st (st.become w (.ended s))
  | finished {st : State σ ε n} {w : Fin n} {s : σ} (phase : st.workers w = .head s true) :
    Step st (st.become w (.ended s))
  | worked {st : State σ ε n} {w : Fin n} {i : Nat} {s s' : σ} {done : Bool}
      (phase : st.workers w = .working i s) (made : p.feed i s = .ok (s', done)) :
    Step st (st.become w (.head s' done))
  | broke {st : State σ ε n} {w : Fin n} {i : Nat} {s : σ} {e : ε}
      (phase : st.workers w = .working i s) (made : p.feed i s = .error e) : Step st (p.fail st w e)
  | interrupted {st : State σ ε n} {w : Fin n} {i : Nat} {s : σ} {e : ε}
      (phase : st.workers w = .working i s) (made : p.interrupts e) : Step st (p.fail st w e)

def Reachable : State σ ε n → Prop := Relation.ReflTransGen p.Step initial

def Phase.Over : Phase σ ε → Prop
  | .ended _ | .failed _ => True
  | _ => False

/-- The first panic goes on in the caller; else the error recorded is returned; else every worker has
    a state to give. The log is what each worker took, in the order of the workers. -/
inductive Ends (n : Nat) : List (List Nat) → Except ε (List σ) → Prop
  | joined {st : State σ ε n} {held : Fin n → σ} (reached : p.Reachable st)
      (all : ∀ w, st.workers w = .ended (held w)) : Ends n (List.ofFn st.taken) (.ok (List.ofFn held))
  | unwound {st : State σ ε n} {w : Fin n} {e : ε} (reached : p.Reachable st) (all : ∀ w, (st.workers w).Over)
      (phase : st.workers w = .failed e) (panic : p.panics e = true)
      (first : ∀ v < w, ∀ e, st.workers v = .failed e → p.panics e = false) : Ends n (List.ofFn st.taken) (.error e)
  | reported {st : State σ ε n} {e : ε} (reached : p.Reachable st) (all : ∀ w, (st.workers w).Over)
      (calm : ∀ w e, st.workers w = .failed e → p.panics e = false) (slot : st.slot = some e) :
    Ends n (List.ofFn st.taken) (.error e)

/-- How a worker's phase follows from what it took. -/
def Follows (st : State σ ε n) (taken : List Nat) : Phase σ ε → Prop
  | .waiting => taken = []
  | .head s done => p.Fed taken s done
  | .working i s => ∃ before, taken = before ++ [i] ∧ p.Fed before s false
  | .ended s => ∃ done, p.Fed taken s done ∧ (done = true ∨ st.stop = true ∨ p.total ≤ st.next)
  | .failed e => p.Breaks taken e ∨ p.interrupts e

structure Kept (st : State σ ε n) : Prop where
  follows : ∀ w, p.Follows st (st.taken w) (st.workers w)
  ascending : ∀ w, (st.taken w).Pairwise (· < ·)
  below : ∀ w, ∀ i ∈ st.taken w, i < st.next ∧ i < p.total
  once : ∀ w v i, i ∈ st.taken w → i ∈ st.taken v → w = v
  covered : ∀ i < st.next, i < p.total → ∃ w, i ∈ st.taken w
  /-- The flag is set only by a worker that failed. -/
  flagged : st.stop = true → ∃ w e, st.workers w = .failed e

variable {p}

section Phases

variable {st : State σ ε n} {w : Fin n} {phase : Phase σ ε}

@[simp] theorem become_self : (st.become w phase).workers w = phase := Function.update_self ..

@[simp] theorem become_other {v : Fin n} (other : v ≠ w) : (st.become w phase).workers v = st.workers v :=
  Function.update_of_ne other ..

@[simp] theorem fail_taken (e : ε) : (p.fail st w e).taken = st.taken := by
  unfold fail
  dsimp only
  split <;> rfl

@[simp] theorem fail_next (e : ε) : (p.fail st w e).next = st.next := by
  unfold fail
  dsimp only
  split <;> rfl

@[simp] theorem fail_workers (e : ε) : (p.fail st w e).workers = Function.update st.workers w (.failed e) := by
  unfold fail
  dsimp only
  split <;> rfl

/-- A set flag, a higher counter and the end of other workers leave what was taken as it was. -/
theorem Follows.mono {st' : State σ ε n} {taken : List Nat} (follows : p.Follows st taken phase)
    (stop : st.stop = true → st'.stop = true) (next : st.next ≤ st'.next) : p.Follows st' taken phase := by
  cases phase with
  | ended s =>
    obtain ⟨done, made, why⟩ := follows
    refine ⟨done, made, ?_⟩
    rcases why with done | set | past
    · exact Or.inl done
    · exact Or.inr (Or.inl (stop set))
    · exact Or.inr (Or.inr (past.trans next))
  | waiting => exact follows
  | head s done => exact follows
  | working i s => exact follows
  | failed e => exact follows

end Phases

namespace Kept

variable {st st' : State σ ε n} {w : Fin n}

theorem initial : p.Kept (initial : State σ ε n) where
  follows := fun _ => rfl
  ascending := fun _ => List.Pairwise.nil
  below := fun _ _ member => by cases member
  once := fun _ _ _ member => by cases member
  covered := fun i small => absurd small (Nat.not_lt_zero i)
  flagged := fun set => by cases set

/-- One worker moves on; what is taken stays. -/
theorem moved (kept : p.Kept st) (taken : st'.taken = st.taken) (next : st.next ≤ st'.next)
    (room : st.next < st'.next → p.total ≤ st.next) (stop : st.stop = true → st'.stop = true)
    (others : ∀ v ≠ w, st'.workers v = st.workers v) (self : p.Follows st' (st.taken w) (st'.workers w))
    (flag : st'.stop = true → ∃ v e, st'.workers v = .failed e) : p.Kept st' where
  follows := by
    intro v
    rw [taken]
    by_cases same : v = w
    · rw [same]
      exact self
    · rw [others v same]
      exact (kept.follows v).mono stop next
  ascending := by
    rw [taken]
    exact kept.ascending
  below := by
    intro v i member
    rw [taken] at member
    have := kept.below v i member
    omega
  once := by
    rw [taken]
    exact kept.once
  covered := by
    intro i small inside
    rw [taken]
    apply kept.covered i _ inside
    by_cases more : st.next < st'.next
    · have := room more
      omega
    · omega
  flagged := flag

/-- A worker that has not failed moves on, and whoever set the flag is still there. -/
theorem become (kept : p.Kept st) {phase : Phase σ ε} (live : ∀ e, st.workers w ≠ .failed e)
    (self : p.Follows st (st.taken w) phase) : p.Kept (st.become w phase) := by
  refine kept.moved (w := w) rfl le_rfl (fun more => absurd more (lt_irrefl _)) id ?_ ?_ ?_
  · intro v other
    exact become_other other
  · rw [become_self]
    exact self.mono id le_rfl
  · intro set
    obtain ⟨v, e, failed⟩ := kept.flagged set
    refine ⟨v, e, ?_⟩
    rw [become_other]
    · exact failed
    · intro same
      exact live e (same ▸ failed)

theorem fail (kept : p.Kept st) {e : ε} (self : p.Breaks (st.taken w) e ∨ p.interrupts e) :
    p.Kept (p.fail st w e) := by
  have failed : (p.fail st w e).workers w = .failed e := by rw [fail_workers, Function.update_self]
  apply kept.moved (fail_taken e) (fail_next e).ge (fun more => absurd more (by simp))
  · intro set
    unfold Pool.fail
    dsimp only
    split
    · exact set
    · rfl
  · intro v other
    rw [fail_workers, Function.update_of_ne other]
  · rw [failed]
    exact self
  · intro _
    exact ⟨w, e, failed⟩

theorem took (kept : p.Kept st) {s : σ} (phase : st.workers w = .head s false) (left : st.next < p.total) :
    p.Kept { st.become w (.working st.next s) with
      next := st.next + 1, taken := Function.update st.taken w (st.taken w ++ [st.next]) } where
  follows := by
    intro v
    by_cases same : v = w
    · subst v
      dsimp only
      rw [become_self, Function.update_self]
      have held := kept.follows w
      rw [phase] at held
      exact ⟨st.taken w, rfl, held⟩
    · dsimp only
      rw [become_other same, Function.update_of_ne same]
      exact (kept.follows v).mono id (Nat.le_succ _)
  ascending := by
    intro v
    by_cases same : v = w
    · subst v
      dsimp only
      rw [Function.update_self, List.pairwise_append]
      refine ⟨kept.ascending w, List.pairwise_singleton _ _, ?_⟩
      intro i member j last
      rw [List.mem_singleton.mp last]
      exact (kept.below w i member).1
    · dsimp only
      rw [Function.update_of_ne same]
      exact kept.ascending v
  below := by
    intro v i member
    dsimp only at member ⊢
    by_cases same : v = w
    · subst v
      rw [Function.update_self] at member
      rcases List.mem_append.mp member with member | last
      · have := kept.below w i member
        omega
      · rw [List.mem_singleton.mp last]
        omega
    · rw [Function.update_of_ne same] at member
      have := kept.below v i member
      omega
  once := by
    -- the new item is above everything taken before
    have fresh : ∀ v, st.next ∉ st.taken v := fun v member => absurd (kept.below v _ member).1 (lt_irrefl _)
    have entry : ∀ v i, i ∈ Function.update st.taken w (st.taken w ++ [st.next]) v →
        i ∈ st.taken v ∨ v = w ∧ i = st.next := by
      intro v i member
      by_cases same : v = w
      · subst v
        rw [Function.update_self] at member
        rcases List.mem_append.mp member with member | last
        · exact Or.inl member
        · exact Or.inr ⟨rfl, List.mem_singleton.mp last⟩
      · rw [Function.update_of_ne same] at member
        exact Or.inl member
    intro v u i left right
    dsimp only at left right
    rcases entry v i left with old | ⟨rfl, rfl⟩
    · rcases entry u i right with old' | ⟨rfl, rfl⟩
      · exact kept.once v u i old old'
      · exact absurd old (fresh v)
    · rcases entry u _ right with old' | ⟨rfl, _⟩
      · exact absurd old' (fresh u)
      · rfl
  covered := by
    intro i small inside
    dsimp only at small ⊢
    by_cases last : i = st.next
    · exact ⟨w, by rw [Function.update_self, last]; simp⟩
    · obtain ⟨v, member⟩ := kept.covered i (by omega) inside
      refine ⟨v, ?_⟩
      by_cases same : v = w
      · subst v
        rw [Function.update_self]
        exact List.mem_append_left _ member
      · rw [Function.update_of_ne same]
        exact member
  flagged := by
    intro set
    obtain ⟨v, e, failed⟩ := kept.flagged set
    refine ⟨v, e, ?_⟩
    dsimp only
    rw [become_other]
    · exact failed
    · intro same
      subst v
      rw [phase] at failed
      cases failed

theorem exhausted (kept : p.Kept st) {s : σ} (phase : st.workers w = .head s false) (left : p.total ≤ st.next) :
    p.Kept { st.become w (.ended s) with next := st.next + 1 } := by
  have held := kept.follows w
  rw [phase] at held
  refine kept.moved (w := w) rfl (Nat.le_succ _) (fun _ => left) id ?_ ?_ ?_
  · intro v other
    exact become_other other
  · dsimp only
    rw [become_self]
    exact ⟨false, held, Or.inr (Or.inr (left.trans (Nat.le_succ _)))⟩
  · intro set
    obtain ⟨v, e, failed⟩ := kept.flagged set
    refine ⟨v, e, ?_⟩
    dsimp only
    rw [become_other]
    · exact failed
    · intro same
      subst v
      rw [phase] at failed
      cases failed

theorem step (kept : p.Kept st) (stepped : p.Step st st') : p.Kept st' := by
  cases stepped with
  | @opened w s phase made =>
    apply kept.become (by simp [phase])
    have held := kept.follows w
    rw [phase] at held
    rw [show st.taken w = [] from held]
    exact .fresh made
  | @refused w e phase made =>
    apply kept.fail
    left
    have held := kept.follows w
    rw [phase] at held
    rw [show st.taken w = [] from held]
    exact .fresh made
  | @took w s phase left => exact kept.took phase left
  | @exhausted w s phase left => exact kept.exhausted phase left
  | @stopped w s phase stop =>
    apply kept.become (by simp [phase])
    have held := kept.follows w
    rw [phase] at held
    exact ⟨false, held, Or.inr (Or.inl stop)⟩
  | @finished w s phase =>
    apply kept.become (by simp [phase])
    have held := kept.follows w
    rw [phase] at held
    exact ⟨true, held, Or.inl rfl⟩
  | @worked w i s s' done phase made =>
    apply kept.become (by simp [phase])
    have held := kept.follows w
    rw [phase] at held
    obtain ⟨before, taken, fed⟩ := held
    rw [taken]
    exact .more fed made
  | @broke w i s e phase made =>
    apply kept.fail
    left
    have held := kept.follows w
    rw [phase] at held
    obtain ⟨before, taken, fed⟩ := held
    rw [taken]
    exact .more fed made
  | @interrupted w i s e phase made => exact kept.fail (Or.inr made)

/-- What every state that the workers reach keeps. -/
theorem reached (reached : p.Reachable st) : p.Kept st := by
  induction reached with
  | refl => exact initial
  | tail _ stepped ih => exact ih.step stepped

/-- Between them the workers took a first part of the items, each once. -/
theorem perm_range (kept : p.Kept st) :
    (List.ofFn st.taken).flatten.Perm (List.range (min st.next p.total)) := by
  rw [List.perm_ext_iff_of_nodup _ List.nodup_range]
  · intro i
    simp only [List.mem_flatten, List.mem_ofFn, List.mem_range, lt_min_iff]
    constructor
    · rintro ⟨_, ⟨w, rfl⟩, member⟩
      exact kept.below w i member
    · rintro ⟨small, inside⟩
      obtain ⟨w, member⟩ := kept.covered i small inside
      exact ⟨_, ⟨w, rfl⟩, member⟩
  · rw [List.nodup_flatten]
    constructor
    · intro l member
      obtain ⟨w, rfl⟩ := List.mem_ofFn.mp member
      exact (kept.ascending w).imp (fun less => less.ne)
    · rw [List.pairwise_ofFn]
      intro w v less i left right
      exact absurd (kept.once w v i left right) less.ne

end Kept

/-- A run that gives states: each is what its worker's items make of a fresh one, and unless every
    worker had enough the items were all taken. -/
theorem Ends.ok {log : List (List Nat)} {held : List σ} (ends : p.Ends n log (.ok held)) :
    ∃ m ≤ p.total, log.flatten.Perm (List.range m) ∧ (∀ items ∈ log, items.Pairwise (· < ·)) ∧ log.length = n ∧
      List.Forall₂ (fun items s => ∃ done, p.Fed items s done ∧ (done = true ∨ m = p.total)) log held := by
  cases ends with
  | @joined st held reached all =>
    have kept := Kept.reached reached
    have calm : st.stop ≠ true := by
      intro set
      obtain ⟨w, e, failed⟩ := kept.flagged set
      rw [all w] at failed
      cases failed
    refine ⟨min st.next p.total, min_le_right _ _, kept.perm_range, ?_, by simp, ?_⟩
    · intro items member
      obtain ⟨w, rfl⟩ := List.mem_ofFn.mp member
      exact kept.ascending w
    · rw [List.forall₂_iff_get]
      refine ⟨by simp, ?_⟩
      intro i inside inside'
      simp only [List.get_ofFn]
      have own := kept.follows (Fin.cast (by simp) (⟨i, inside⟩ : Fin (List.ofFn st.taken).length))
      rw [all] at own
      obtain ⟨done, made, why⟩ := own
      refine ⟨done, made, ?_⟩
      rcases why with done | set | past
      · exact Or.inl done
      · exact absurd set calm
      · exact Or.inr (min_eq_right past)

section Assigned

variable {items rest : List Nat} {s s' : σ} {done done' : Bool} {i : Nat}

theorem fed_nil : p.Fed [] s done ↔ p.fresh = .ok s ∧ done = false := by
  constructor
  · intro fed
    generalize none : ([] : List Nat) = items at fed
    cases fed with
    | fresh made => exact ⟨made, rfl⟩
    | more before made => simp at none
  · rintro ⟨made, rfl⟩
    exact .fresh made

theorem fed_concat : p.Fed (items ++ [i]) s' done ↔ ∃ s, p.Fed items s false ∧ p.feed i s = .ok (s', done) := by
  constructor
  · intro fed
    generalize whole : items ++ [i] = items' at fed
    cases fed with
    | fresh made => simp at whole
    | more before made =>
      obtain ⟨rfl, last⟩ := List.append_inj' whole rfl
      cases last
      exact ⟨_, before, made⟩
  · rintro ⟨s, before, made⟩
    exact .more before made

/-- What a worker holds is a function of what it took. -/
theorem Fed.unique (fed : p.Fed items s done) (fed' : p.Fed items s' done') : s = s' ∧ done = done' := by
  induction items using List.reverseRecOn generalizing s s' done done' with
  | nil =>
    obtain ⟨made, rfl⟩ := fed_nil.mp fed
    obtain ⟨made', rfl⟩ := fed_nil.mp fed'
    exact ⟨Except.ok.inj (made.symm.trans made'), rfl⟩
  | append_singleton items i ih =>
    obtain ⟨t, before, made⟩ := fed_concat.mp fed
    obtain ⟨t', before', made'⟩ := fed_concat.mp fed'
    obtain ⟨rfl, _⟩ := ih before before'
    exact Prod.mk.inj (Except.ok.inj (made.symm.trans made'))

theorem Fed.before (fed : p.Fed (items ++ rest) s false) : ∃ s, p.Fed items s false := by
  induction rest using List.reverseRecOn generalizing s with
  | nil =>
    rw [List.append_nil] at fed
    exact ⟨s, fed⟩
  | append_singleton rest i ih =>
    rw [← List.append_assoc] at fed
    obtain ⟨t, before, _⟩ := fed_concat.mp fed
    exact ih before

/-- The items below `k` that go to a worker. -/
def share (assign : Nat → Fin n) (k : Nat) (w : Fin n) : List Nat := (List.range k).filter fun i => assign i = w

variable {assign : Nat → Fin n} {held : Fin n → σ}

theorem share_succ (assign : Nat → Fin n) (k : Nat) (w : Fin n) :
    share assign (k + 1) w = if assign k = w then share assign k w ++ [k] else share assign k w := by
  unfold share
  rw [List.range_succ, List.filter_append]
  by_cases here : assign k = w
  · simp [here]
  · simp [here]

theorem share_split (assign : Nat → Fin n) {k total : Nat} (small : k ≤ total) (w : Fin n) :
    ∃ rest, share assign total w = share assign k w ++ rest := by
  obtain ⟨more, rfl⟩ := Nat.exists_eq_add_of_le small
  unfold share
  rw [List.range_add, List.filter_append]
  exact ⟨_, rfl⟩

theorem exists_opened {s : σ} (fresh : p.fresh = .ok s) (k : Nat) (small : k ≤ n) :
    ∃ st : State σ ε n, p.Reachable st ∧ st.next = 0 ∧ (∀ w, st.taken w = []) ∧
      ∀ w, st.workers w = if w.val < k then .head s false else .waiting := by
  induction k with
  | zero => exact ⟨Pool.initial, .refl, rfl, fun _ => rfl, fun w => by simp [Pool.initial]⟩
  | succ k ih =>
    obtain ⟨st, reached, next, taken, phases⟩ := ih (by omega)
    have waiting : st.workers ⟨k, small⟩ = .waiting := by rw [phases]; simp
    refine ⟨st.become ⟨k, small⟩ (.head s false), reached.tail (.opened waiting fresh), next, taken, ?_⟩
    intro w
    by_cases same : w = ⟨k, small⟩
    · rw [same, become_self]
      simp
    · have other : w.val ≠ k := fun at_ => same (Fin.ext at_)
      rw [become_other same, phases]
      congr 1
      simp only [eq_iff_iff]
      omega

theorem exists_worked (fed : ∀ w, p.Fed (share assign p.total w) (held w) false) (k : Nat) (small : k ≤ p.total) :
    ∃ st : State σ ε n, p.Reachable st ∧ st.next = k ∧ (∀ w, st.taken w = share assign k w) ∧
      ∀ w, ∃ s, st.workers w = .head s false ∧ p.Fed (share assign k w) s false := by
  induction k with
  | zero =>
    obtain ⟨s, first⟩ := (show p.Fed ([] ++ share assign p.total (assign 0)) _ false from fed (assign 0)).before
    obtain ⟨made, _⟩ := fed_nil.mp first
    obtain ⟨st, reached, next, taken, phases⟩ := exists_opened made n le_rfl
    exact ⟨st, reached, next, taken, fun w => ⟨s, by rw [phases, if_pos w.isLt], first⟩⟩
  | succ k ih =>
    obtain ⟨st, reached, next, taken, phases⟩ := ih (by omega)
    obtain ⟨s, phase, own⟩ := phases (assign k)
    have took := reached.tail (Step.took phase (by omega))
    rw [next] at took
    -- the worker's next item is this one
    obtain ⟨rest, split⟩ := share_split assign small (assign k)
    have more := fed (assign k)
    rw [split, share_succ, if_pos rfl] at more
    obtain ⟨s', after⟩ := more.before
    obtain ⟨t, before, made⟩ := fed_concat.mp after
    obtain ⟨rfl, _⟩ := own.unique before
    refine ⟨_, took.tail (Step.worked (w := assign k) (become_self) made), rfl, ?_, ?_⟩
    · intro w
      rw [share_succ]
      by_cases same : assign k = w
      · subst same
        rw [if_pos rfl, ← taken]
        exact Function.update_self ..
      · rw [if_neg same, ← taken]
        exact Function.update_of_ne (Ne.symm same) ..
    · intro w
      rw [share_succ]
      by_cases same : assign k = w
      · subst same
        rw [if_pos rfl]
        exact ⟨s', become_self, after⟩
      · rw [if_neg same]
        obtain ⟨t, phase', other⟩ := phases w
        refine ⟨t, ?_, other⟩
        rw [become_other (Ne.symm same)]
        exact (become_other (Ne.symm same)).trans phase'

theorem exists_ended (fed : ∀ w, p.Fed (share assign p.total w) (held w) false) (k : Nat) (small : k ≤ n) :
    ∃ st : State σ ε n, p.Reachable st ∧ p.total ≤ st.next ∧ (∀ w, st.taken w = share assign p.total w) ∧
      ∀ w, st.workers w = if w.val < k then .ended (held w) else .head (held w) false := by
  induction k with
  | zero =>
    obtain ⟨st, reached, next, taken, phases⟩ := exists_worked fed p.total le_rfl
    refine ⟨st, reached, next.ge, taken, fun w => ?_⟩
    obtain ⟨s, phase, own⟩ := phases w
    rw [(own.unique (fed w)).1] at phase
    simpa using phase
  | succ k ih =>
    obtain ⟨st, reached, next, taken, phases⟩ := ih (by omega)
    have phase : st.workers ⟨k, small⟩ = .head (held ⟨k, small⟩) false := by rw [phases]; simp
    refine ⟨_, reached.tail (.exhausted phase next), next.trans (Nat.le_succ _), taken, ?_⟩
    intro w
    by_cases same : w = ⟨k, small⟩
    · rw [same]
      exact become_self.trans (by simp)
    · have other : w.val ≠ k := fun at_ => same (Fin.ext at_)
      refine (become_other same).trans ?_
      rw [phases]
      congr 1
      simp only [eq_iff_iff]
      omega

/-- Whatever worker each item is given to, the run can happen. -/
theorem Ends.of_assignment (fed : ∀ w, p.Fed (share assign p.total w) (held w) false) :
    p.Ends n (List.ofFn (share assign p.total)) (.ok (List.ofFn held)) := by
  obtain ⟨st, reached, _, taken, phases⟩ := exists_ended fed n le_rfl
  have same : st.taken = share assign p.total := funext taken
  rw [← same]
  refine .joined reached fun w => ?_
  rw [phases, if_pos w.isLt]

end Assigned

end Pool

end Adelie
