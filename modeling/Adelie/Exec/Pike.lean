import Adelie.Exec.Thompson

namespace Adelie

namespace Regexp

open Relation

/-- Where an instruction goes on without a character. -/
def Inst.follow (pos len : Nat) : Inst → List Nat
  | .jmp n => [n]
  | .split a b => [a, b]
  | .start n => if pos = 0 then [n] else []
  | .end_ n => if pos = len then [n] else []
  | .char _ _ | .any _ | .cls _ _ | .match_ => []

/-- An instruction on a character. -/
def Inst.Takes : Inst → Prop
  | .char _ _ | .any _ | .cls _ _ => True
  | _ => False

namespace Threads

/-- An instruction entered, and listed where it is one on a character. -/
def visit (t : Threads) (pc : Nat) : Inst → Threads
  | .char _ _ | .any _ | .cls _ _ => { t.enter pc with list := t.list ++ [pc] }
  | _ => t.enter pc

def Seen (t : Threads) (p : Nat) : Prop := t.seen[p]? = some true

end Threads

variable {prog : List Inst} {pos len pc : Nat} {stack : List Nat} {t : Threads}

theorem addLoop_seen (seen : t.Seen pc) : addLoop prog pos len (pc :: stack) t = addLoop prog pos len stack t := by
  have seen : t.seen[pc]? = some true := seen
  rw [addLoop]
  split
  · rename_i none_
    rw [seen] at none_
    cases none_
  · rfl
  · rename_i unseen
    rw [seen] at unseen
    cases unseen

theorem addLoop_match (unseen : t.seen[pc]? = some false) (at_ : prog[pc]? = some .match_) :
    addLoop prog pos len (pc :: stack) t = some (true, t.enter pc) := by
  rw [addLoop]
  split
  · rename_i none_
    rw [unseen] at none_
    cases none_
  · rename_i seen
    rw [unseen] at seen
    cases seen
  · rw [at_]

/-- Any other instruction is entered, and what follows it comes next. -/
theorem addLoop_visit {inst : Inst} (unseen : t.seen[pc]? = some false) (at_ : prog[pc]? = some inst) (other : inst ≠ .match_) :
    addLoop prog pos len (pc :: stack) t = addLoop prog pos len (inst.follow pos len ++ stack) (t.visit pc inst) := by
  rw [addLoop]
  split
  · rename_i none_
    rw [unseen] at none_
    cases none_
  · rename_i seen
    rw [unseen] at seen
    cases seen
  · rw [at_]
    cases inst with
    | start n =>
      dsimp only [Inst.follow]
      split <;> rfl
    | end_ n =>
      dsimp only [Inst.follow]
      split <;> rfl
    | match_ => exact absurd rfl other
    | _ => rfl

theorem visit_seen {inst : Inst} : (t.visit pc inst).seen = t.seen.set pc true := by
  cases inst <;> rfl

theorem visit_entered {inst : Inst} : (t.visit pc inst).entered = t.entered ++ [pc] := by
  cases inst <;> rfl

/-- One more instruction seen. -/
theorem seen_visit {inst : Inst} (unseen : t.seen[pc]? = some false) (p : Nat) :
    (t.visit pc inst).Seen p ↔ p = pc ∨ t.Seen p := by
  unfold Threads.Seen
  rw [visit_seen, List.getElem?_set]
  obtain ⟨inside, _⟩ := List.getElem?_eq_some_iff.mp unseen
  by_cases here : pc = p
  · subst here
    simp [inside]
  · simp [here, Ne.symm here]

theorem mem_visit_list {inst : Inst} (p : Nat) : p ∈ (t.visit pc inst).list ↔ p ∈ t.list ∨ p = pc ∧ inst.Takes := by
  cases inst <;> simp [Threads.visit, Threads.enter, Inst.Takes]

section Machine

variable {classes : List CharClass} {s : List Char} {entry : Nat}

/-- What is reached from the start of the text. -/
def Reached (prog : List Inst) (classes : List CharClass) (s : List Char) (entry pos p : Nat) : Prop :=
  ReflTransGen (Step prog classes s) (entry, 0) (p, pos)

/-- An instruction with its class, where it has one. -/
def Fine (prog : List Inst) (classes : List CharClass) (p : Nat) : Prop :=
  ∃ inst, prog[p]? = some inst ∧ ∀ idx next, inst = .cls idx next → ∃ cc, classes[idx]? = some cc

theorem Inside.fine {p : Nat} (inside : Inside prog classes p) : Fine prog classes p := by
  obtain ⟨inst, at_, _, known⟩ := inside
  exact ⟨inst, at_, known⟩

/-- A step at one position is one of those that follow. -/
theorem step_same_iff {p q : Nat} {inst : Inst} (at_ : prog[p]? = some inst) :
    Step prog classes s (p, pos) (q, pos) ↔ q ∈ inst.follow pos s.length := by
  unfold Step
  rw [at_]
  simp only [Option.some.injEq, exists_eq_left']
  cases inst <;> simp [Inst.Goes, Inst.follow]

theorem step_pos {a b : Nat × Nat} (step : Step prog classes s a b) : b.2 = a.2 ∨ b.2 = a.2 + 1 ∧ a.2 < s.length := by
  obtain ⟨inst, _, goes⟩ := step
  have inside {c : Char} (here : s[a.2]? = some c) : a.2 < s.length := (List.getElem?_eq_some_iff.mp here).1
  cases inst with
  | char c next => exact .inr ⟨goes.2.2, inside goes.1⟩
  | any next => exact .inr ⟨goes.2.2, goes.1⟩
  | cls idx next =>
    obtain ⟨⟨_, c, _, here, _⟩, _, there⟩ := goes
    exact .inr ⟨there, inside here⟩
  | split a b => exact .inl goes.2
  | jmp next => exact .inl goes.2
  | start next => exact .inl goes.2.2
  | end_ next => exact .inl goes.2.2
  | match_ => exact goes.elim

theorem Reached.le {p : Nat} (reached : Reached prog classes s entry pos p) : pos ≤ s.length := by
  have all : ∀ z, ReflTransGen (Step prog classes s) (entry, 0) z → z.2 ≤ s.length := by
    intro z path
    induction path with
    | refl => exact Nat.zero_le _
    | tail _ step ih =>
      have := step_pos step
      omega
  exact all _ reached

/-- The threads of a position, all of them reached. -/
structure Tidy (prog : List Inst) (Reach : Nat → Prop) (stack : List Nat) (t : Threads) : Prop where
  size : t.seen.length = prog.length
  waiting : ∀ p ∈ stack, Reach p
  reached : ∀ p, t.Seen p → Reach p
  list : ∀ p, p ∈ t.list ↔ t.Seen p ∧ ∃ inst, prog[p]? = some inst ∧ inst.Takes
  listed : t.list.Nodup
  entered : ∀ p, p ∈ t.entered ↔ t.Seen p
  once : t.entered.Nodup

/-- Nothing seen is a match, and all that follows it is seen or on the stack. -/
structure Closed (prog : List Inst) (pos len : Nat) (stack : List Nat) (t : Threads) : Prop where
  follows : ∀ p inst, t.Seen p → prog[p]? = some inst → ∀ q ∈ inst.follow pos len, q ∈ stack ∨ t.Seen q
  unmatched : ∀ p, t.Seen p → prog[p]? ≠ some .match_

theorem fresh_unseen (p : Nat) : ¬ (Threads.fresh prog).Seen p := by
  intro seen
  unfold Threads.Seen Threads.fresh at seen
  simp [List.getElem?_replicate] at seen

theorem Tidy.fresh {Reach : Nat → Prop} : Tidy prog Reach [] (.fresh prog) where
  size := by simp [Threads.fresh]
  waiting _ member := by cases member
  reached p seen := absurd seen (fresh_unseen p)
  list p := ⟨fun member => (by cases member), fun seen => absurd seen.1 (fresh_unseen p)⟩
  listed := List.nodup_nil
  entered p := ⟨fun member => (by cases member), fun seen => absurd seen (fresh_unseen p)⟩
  once := List.nodup_nil

theorem Closed.fresh : Closed prog pos len [] (.fresh prog) where
  follows p _ seen := absurd seen (fresh_unseen p)
  unmatched p seen := absurd seen (fresh_unseen p)

section Loop

variable {Reach : Nat → Prop} {inst : Inst}

theorem Tidy.push (tidy : Tidy prog Reach [] t) (reached : Reach pc) : Tidy prog Reach [pc] t := by
  have waiting : ∀ p ∈ [pc], Reach p := by
    intro p member
    rw [List.mem_singleton.mp member]
    exact reached
  exact { tidy with waiting := waiting }

theorem Tidy.pop (tidy : Tidy prog Reach (pc :: stack) t) : Tidy prog Reach stack t :=
  { tidy with waiting := fun p member => tidy.waiting p (List.mem_cons_of_mem _ member) }

theorem Tidy.visit (tidy : Tidy prog Reach (pc :: stack) t) (unseen : t.seen[pc]? = some false) (at_ : prog[pc]? = some inst)
    (follows : ∀ q ∈ inst.follow pos len, Reach q) : Tidy prog Reach (inst.follow pos len ++ stack) (t.visit pc inst) := by
  have here : ¬ t.Seen pc := by
    intro seen
    have seen : t.seen[pc]? = some true := seen
    rw [unseen] at seen
    cases seen
  refine ⟨?_, ?_, ?_, ?_, ?_, ?_, ?_⟩
  · rw [visit_seen, List.length_set, tidy.size]
  · intro p member
    rcases List.mem_append.mp member with new | old
    · exact follows p new
    · exact tidy.waiting p (List.mem_cons_of_mem _ old)
  · intro p seen
    rcases (seen_visit unseen p).mp seen with rfl | seen
    · exact tidy.waiting _ List.mem_cons_self
    · exact tidy.reached p seen
  · intro p
    rw [mem_visit_list, seen_visit unseen, tidy.list]
    constructor
    · rintro (⟨seen, takes⟩ | ⟨rfl, takes⟩)
      · exact ⟨.inr seen, takes⟩
      · exact ⟨.inl rfl, inst, at_, takes⟩
    · rintro ⟨rfl | seen, inst', at', takes⟩
      · rw [at_] at at'
        cases at'
        exact .inr ⟨rfl, takes⟩
      · exact .inl ⟨seen, inst', at', takes⟩
  · have new : pc ∉ t.list := fun member => here ((tidy.list pc).mp member).1
    have both : (t.list ++ [pc]).Nodup := by
      rw [← List.concat_eq_append]
      exact tidy.listed.concat new
    cases inst with
    | char _ _ => exact both
    | any _ => exact both
    | cls _ _ => exact both
    | _ => exact tidy.listed
  · intro p
    rw [visit_entered, seen_visit unseen, List.mem_append, tidy.entered, List.mem_singleton, or_comm]
  · have new : pc ∉ t.entered := fun member => here ((tidy.entered pc).mp member)
    rw [visit_entered, ← List.concat_eq_append]
    exact tidy.once.concat new

theorem Closed.visit (closed : Closed prog pos len (pc :: stack) t) (unseen : t.seen[pc]? = some false) (at_ : prog[pc]? = some inst)
    (other : inst ≠ .match_) : Closed prog pos len (inst.follow pos len ++ stack) (t.visit pc inst) where
  follows := by
    intro p inst' seen at' q member
    rw [seen_visit unseen]
    rcases (seen_visit unseen p).mp seen with rfl | seen
    · rw [at_] at at'
      cases at'
      exact .inl (List.mem_append_left _ member)
    · rcases closed.follows p inst' seen at' q member with waiting | seen
      · rcases List.mem_cons.mp waiting with rfl | waiting
        · exact .inr (.inl rfl)
        · exact .inl (List.mem_append_right _ waiting)
      · exact .inr (.inr seen)
  unmatched := by
    intro p seen
    rcases (seen_visit unseen p).mp seen with rfl | seen
    · rw [at_]
      intro same
      cases same
      exact other rfl
    · exact closed.unmatched p seen

theorem Closed.pop (closed : Closed prog pos len (pc :: stack) t) (seen : t.Seen pc) : Closed prog pos len stack t where
  follows := by
    intro p inst seen' at_ q member
    rcases closed.follows p inst seen' at_ q member with waiting | seen'
    · rcases List.mem_cons.mp waiting with rfl | waiting
      · exact .inr seen
      · exact .inl waiting
    · exact .inr seen'
  unmatched := closed.unmatched

theorem Closed.push (closed : Closed prog pos len [] t) : Closed prog pos len stack t where
  follows p inst seen at_ q member := (closed.follows p inst seen at_ q member).imp (fun none_ => by cases none_) id
  unmatched := closed.unmatched

variable (follows : ∀ p inst, Reach p → prog[p]? = some inst → ∀ q ∈ inst.follow pos len, Reach q)
  (there : ∀ p, Reach p → ∃ inst, prog[p]? = some inst)

include follows there

/-- The loop ends: at a match that is reached, or with all that follows the stack seen. -/
theorem addLoop_spec (stack : List Nat) (t : Threads) (tidy : Tidy prog Reach stack t) :
    ∃ hit t', addLoop prog pos len stack t = some (hit, t') ∧ Tidy prog Reach [] t' ∧ (∀ p, t.Seen p → t'.Seen p) ∧
      (hit = true → ∃ p, Reach p ∧ prog[p]? = some .match_) ∧
      (hit = false → (∀ p ∈ stack, t'.Seen p) ∧ (Closed prog pos len stack t → Closed prog pos len [] t')) := by
  match stack with
  | [] => exact ⟨false, t, by rw [addLoop], tidy, fun _ seen => seen, by simp, fun _ => ⟨by simp, id⟩⟩
  | pc :: stack =>
    have reached := tidy.waiting pc List.mem_cons_self
    obtain ⟨inst, at_⟩ := there pc reached
    have inside : pc < t.seen.length := tidy.size ▸ (List.getElem?_eq_some_iff.mp at_).1
    cases state : t.seen[pc]? with
    | none =>
      have := List.getElem?_eq_none_iff.mp state
      omega
    | some seen =>
      cases seen with
      | true =>
        obtain ⟨hit, t', run, tidy', grows, hits, misses⟩ := addLoop_spec stack t tidy.pop
        refine ⟨hit, t', (addLoop_seen state).trans run, tidy', grows, hits, fun missed => ?_⟩
        obtain ⟨all, closed⟩ := misses missed
        exact ⟨List.forall_mem_cons.mpr ⟨grows pc state, all⟩, fun before => closed (before.pop state)⟩
      | false =>
        by_cases match_ : inst = .match_
        · subst match_
          have none_ : ∀ q ∈ Inst.match_.follow pos len, Reach q := by simp [Inst.follow]
          have one := tidy.visit state at_ none_
          have tidy' : Tidy prog Reach [] (t.enter pc) := { one with waiting := fun _ member => (by cases member) }
          have grows : ∀ p, t.Seen p → (t.enter pc).Seen p := fun p seen => (@seen_visit _ _ .match_ state p).mpr (.inr seen)
          exact ⟨true, _, addLoop_match state at_, tidy', grows, fun _ => ⟨pc, reached, at_⟩, by simp⟩
        · have next := tidy.visit state at_ (follows pc inst reached at_)
          obtain ⟨hit, t', run, tidy', grows, hits, misses⟩ := addLoop_spec _ (t.visit pc inst) next
          have more : ∀ p, t.Seen p → t'.Seen p := fun p seen => grows p ((seen_visit state p).mpr (.inr seen))
          refine ⟨hit, t', (addLoop_visit state at_ match_).trans run, tidy', more, hits, fun missed => ?_⟩
          obtain ⟨all, closed⟩ := misses missed
          refine ⟨List.forall_mem_cons.mpr ⟨grows pc ((seen_visit state pc).mpr (.inl rfl)), ?_⟩, ?_⟩
          · exact fun p member => all p (List.mem_append_right _ member)
          · exact fun before => closed (before.visit state at_ match_)
termination_by (t.seen.count false, stack.length)
decreasing_by
  · rw [visit_seen]
    exact .left _ _ (count_set_lt state)
  · exact .right _ (by simp)

end Loop

end Machine

end Regexp

end Adelie
