import Adelie.Exec.Regexp
import Adelie.Lib.Times

namespace Adelie

namespace Regexp

open Relation

section Language

mutual

/-- The parts of the text, from one position to another, that a tree stands for. -/
def Ast.lang (s : List Char) : Ast → Nat → Nat → Prop
  | .empty => fun i j => j = i
  | .char c => fun i j => s[i]? = some c ∧ j = i + 1
  | .any => fun i j => i < s.length ∧ j = i + 1
  | .cls cc => fun i j => ∃ c, s[i]? = some c ∧ classMatch cc c = true ∧ j = i + 1
  | .concat first rest => Comp (first.lang s) (Ast.langAll s rest)
  | .alt first rest => fun i j => first.lang s i j ∨ Ast.langAny s rest i j
  | .star inner => ReflTransGen (inner.lang s)
  | .plus inner => TransGen (inner.lang s)
  | .question inner => ReflGen (inner.lang s)
  | .rep inner bound => fun i j => ∃ k, bound.m ≤ k ∧ (∀ most ∈ bound.n, k ≤ most) ∧ Times (inner.lang s) k i j
  | .startAnchor => fun i j => i = 0 ∧ j = i
  | .endAnchor => fun i j => i = s.length ∧ j = i

/-- One part after another. -/
def Ast.langAll (s : List Char) : List Ast → Nat → Nat → Prop
  | [] => fun i j => j = i
  | part :: rest => Comp (part.lang s) (Ast.langAll s rest)

def Ast.langAny (s : List Char) : List Ast → Nat → Nat → Prop
  | [] => fun _ _ => False
  | branch :: rest => fun i j => branch.lang s i j ∨ Ast.langAny s rest i j

end

variable {s : List Char} {i j : Nat}

theorem langAll_append (xs ys : List Ast) : Ast.langAll s (xs ++ ys) i j ↔ ∃ k, Ast.langAll s xs i k ∧ Ast.langAll s ys k j := by
  induction xs generalizing i with
  | nil => simp [Ast.langAll]
  | cons x xs ih =>
    simp only [List.cons_append, Ast.langAll, Comp, ih]
    constructor
    · rintro ⟨a, first, b, left, right⟩
      exact ⟨b, ⟨a, first, left⟩, right⟩
    · rintro ⟨b, ⟨a, first, left⟩, right⟩
      exact ⟨a, first, b, left, right⟩

theorem langAll_replicate (k : Nat) (ast : Ast) : Ast.langAll s (List.replicate k ast) i j ↔ Times (ast.lang s) k i j := by
  induction k generalizing i with
  | zero => rfl
  | succ k ih => simp only [List.replicate_succ, Ast.langAll, Comp, ih, times_succ]

theorem lang_ofParts (parts : List Ast) : (Ast.ofParts parts).lang s i j ↔ Ast.langAll s parts i j := by
  match parts with
  | [] => simp [Ast.ofParts, Ast.lang, Ast.langAll]
  | [part] => simp [Ast.ofParts, Ast.langAll, Comp]
  | first :: second :: rest => simp only [Ast.ofParts, Ast.lang, Ast.langAll]

/-- A counted repeat is what it is written out as. -/
theorem lang_expandRepeat (inner : Ast) (bound : Bound) :
    (expandRepeat inner bound).lang s i j ↔ (Ast.rep inner bound).lang s i j := by
  obtain ⟨m, n, ordered⟩ := bound
  unfold expandRepeat
  rw [lang_ofParts, langAll_append]
  simp only [langAll_replicate, Ast.lang]
  cases n with
  | none =>
    simp only [Ast.langAll, Ast.lang, Comp]
    constructor
    · rintro ⟨a, left, _, right, rfl⟩
      obtain ⟨k, right⟩ := reflTransGen_iff_times.mp right
      exact ⟨m + k, Nat.le_add_right m k, by simp, times_add.mpr ⟨a, left, right⟩⟩
    · rintro ⟨k, le, _, path⟩
      obtain ⟨d, rfl⟩ := Nat.exists_eq_add_of_le le
      obtain ⟨a, left, right⟩ := times_add.mp path
      exact ⟨a, left, j, right.reflTransGen, rfl⟩
  | some most =>
    have least : m ≤ most := by simpa using ordered
    simp only [langAll_replicate, Ast.lang, times_reflGen]
    constructor
    · rintro ⟨a, left, k, le, right⟩
      refine ⟨m + k, Nat.le_add_right m k, ?_, times_add.mpr ⟨a, left, right⟩⟩
      rintro _ ⟨⟩
      omega
    · rintro ⟨k, le, upTo, path⟩
      have upTo := upTo most rfl
      obtain ⟨d, rfl⟩ := Nat.exists_eq_add_of_le le
      obtain ⟨a, left, right⟩ := times_add.mp path
      exact ⟨a, left, d, by omega, right⟩

end Language

section Machine

/-- Where an instruction goes on from, at one position of the text, and where it goes. -/
def Inst.Goes (classes : List CharClass) (s : List Char) (inst : Inst) (i q j : Nat) : Prop :=
  match inst with
  | .char c next => s[i]? = some c ∧ q = next ∧ j = i + 1
  | .any next => i < s.length ∧ q = next ∧ j = i + 1
  | .cls idx next => (∃ cc c, classes[idx]? = some cc ∧ s[i]? = some c ∧ classMatch cc c = true) ∧ q = next ∧ j = i + 1
  | .split a b => (q = a ∨ q = b) ∧ j = i
  | .jmp next => q = next ∧ j = i
  | .start next => i = 0 ∧ q = next ∧ j = i
  | .end_ next => i = s.length ∧ q = next ∧ j = i
  | .match_ => False

/-- One instruction, from (instruction, position) to (instruction, position). -/
def Step (prog : List Inst) (classes : List CharClass) (s : List Char) (a b : Nat × Nat) : Prop :=
  ∃ inst, prog[a.1]? = some inst ∧ inst.Goes classes s a.2 b.1 b.2

/-- An instruction that is there, with its class, and is not the match. -/
def Inside (prog : List Inst) (classes : List CharClass) (p : Nat) : Prop :=
  ∃ inst, prog[p]? = some inst ∧ inst ≠ .match_ ∧ ∀ idx next, inst = .cls idx next → ∃ cc, classes[idx]? = some cc

/-- The code of a tree, from an instruction on to another. -/
inductive Code (prog : List Inst) (classes : List CharClass) : Ast → Nat → Nat → Prop where
  | empty {p q} : prog[p]? = some (.jmp q) → Code prog classes .empty p q
  | char {c p q} : prog[p]? = some (.char c q) → Code prog classes (.char c) p q
  | any {p q} : prog[p]? = some (.any q) → Code prog classes .any p q
  | cls {cc idx p q} : prog[p]? = some (.cls idx q) → classes[idx]? = some cc → Code prog classes (.cls cc) p q
  | startAnchor {p q} : prog[p]? = some (.start q) → Code prog classes .startAnchor p q
  | endAnchor {p q} : prog[p]? = some (.end_ q) → Code prog classes .endAnchor p q
  | concatOne {first p q} : Code prog classes first p q → Code prog classes (.concat first []) p q
  | concatMore {first second rest p q r} : Code prog classes first p r → Code prog classes (.concat second rest) r q →
      Code prog classes (.concat first (second :: rest)) p q
  | altOne {first p q} : Code prog classes first p q → Code prog classes (.alt first []) p q
  | altMore {first second rest p q a b} : prog[p]? = some (.split a b) → Code prog classes first a q →
      Code prog classes (.alt second rest) b q → Code prog classes (.alt first (second :: rest)) p q
  | star {inner p q r} : prog[p]? = some (.split r q) → Code prog classes inner r p → Code prog classes (.star inner) p q
  | plus {inner p q r} : Code prog classes inner p r → prog[r]? = some (.split p q) → Code prog classes (.plus inner) p q
  | question {inner p q r} : prog[p]? = some (.split r q) → Code prog classes inner r q → Code prog classes (.question inner) p q
  | rep {inner bound p q} : Code prog classes (expandRepeat inner bound) p q → Code prog classes (.rep inner bound) p q

variable {prog : List Inst} {classes : List CharClass} {s : List Char} {ast : Ast} {p q i j : Nat}

theorem step_left {a b : Nat} (at_ : prog[p]? = some (.split a b)) : Step prog classes s (p, i) (a, i) := ⟨_, at_, .inl rfl, rfl⟩

theorem step_right {a b : Nat} (at_ : prog[p]? = some (.split a b)) : Step prog classes s (p, i) (b, i) := ⟨_, at_, .inr rfl, rfl⟩

theorem Code.reaches (code : Code prog classes ast p q) : ∀ i j, ast.lang s i j →
    ReflTransGen (Step prog classes s) (p, i) (q, j) := by
  induction code with
  | empty at_ =>
    rintro i _ rfl
    exact .single ⟨_, at_, rfl, rfl⟩
  | char at_ =>
    rintro i _ ⟨here, rfl⟩
    exact .single ⟨_, at_, here, rfl, rfl⟩
  | any at_ =>
    rintro i _ ⟨here, rfl⟩
    exact .single ⟨_, at_, here, rfl, rfl⟩
  | cls at_ known =>
    rintro i _ ⟨c, here, takes, rfl⟩
    exact .single ⟨_, at_, ⟨_, c, known, here, takes⟩, rfl, rfl⟩
  | startAnchor at_ =>
    rintro i _ ⟨rfl, rfl⟩
    exact .single ⟨_, at_, rfl, rfl, rfl⟩
  | endAnchor at_ =>
    rintro i _ ⟨rfl, rfl⟩
    exact .single ⟨_, at_, rfl, rfl, rfl⟩
  | concatOne _ ih =>
    rintro i j ⟨k, first, rfl⟩
    exact ih i _ first
  | concatMore _ _ ih ih' =>
    rintro i j ⟨k, first, rest⟩
    exact (ih i k first).trans (ih' k j rest)
  | altOne _ ih =>
    rintro i j (first | none_)
    · exact ih i j first
    · exact none_.elim
  | altMore at_ _ _ ih ih' =>
    rintro i j (first | others)
    · exact .head (step_left at_) (ih i j first)
    · exact .head (step_right at_) (ih' i j others)
  | star at_ _ ih =>
    intro i j path
    induction path using ReflTransGen.head_induction_on with
    | refl => exact .single (step_right at_)
    | head first _ more => exact .head (step_left at_) ((ih _ _ first).trans more)
  | plus _ at_ ih =>
    intro i j path
    induction path using TransGen.head_induction_on with
    | single once => exact (ih _ _ once).tail (step_right at_)
    | head first _ more => exact ((ih _ _ first).tail (step_left at_)).trans more
  | question at_ _ ih =>
    intro i j path
    cases path with
    | refl => exact .single (step_right at_)
    | single once => exact .head (step_left at_) (ih i j once)
  | rep _ ih =>
    intro i j path
    exact ih i j ((lang_expandRepeat _ _).mpr path)

/-- A path from an instruction is there, or takes it first. -/
theorem Inside.of_path {inst : Inst} (at_ : prog[p]? = some inst) (other : inst ≠ .match_)
    (known : ∀ idx next, inst = .cls idx next → ∃ cc, classes[idx]? = some cc) {n : Nat} {z : Nat × Nat}
    (path : Times (Step prog classes s) n (p, i) z) :
    Inside prog classes z.1 ∨ ∃ m q j, n = m + 1 ∧ inst.Goes classes s i q j ∧ Times (Step prog classes s) m (q, j) z := by
  cases n with
  | zero =>
    cases path
    exact .inl ⟨inst, at_, other, known⟩
  | succ n =>
    obtain ⟨⟨q, j⟩, ⟨inst', here, goes⟩, path⟩ := path
    rw [at_] at here
    cases here
    exact .inr ⟨n, q, j, rfl, goes, path⟩

/-- A path into the code of a tree is still inside it, or has gone through a part of its language. -/
theorem Code.path (code : Code prog classes ast p q) : ∀ n i z, Times (Step prog classes s) n (p, i) z →
    Inside prog classes z.1 ∨ ∃ m j, m < n ∧ ast.lang s i j ∧ Times (Step prog classes s) m (q, j) z := by
  induction code with
  | empty at_ =>
    intro n i z path
    rcases Inside.of_path at_ (by simp) (by simp) path with inside | ⟨m, q, j, rfl, ⟨rfl, rfl⟩, path'⟩
    · exact .inl inside
    · exact .inr ⟨m, _, Nat.lt_succ_self m, rfl, path'⟩
  | char at_ =>
    intro n i z path
    rcases Inside.of_path at_ (by simp) (by simp) path with inside | ⟨m, q, j, rfl, ⟨here, rfl, rfl⟩, path'⟩
    · exact .inl inside
    · exact .inr ⟨m, _, Nat.lt_succ_self m, ⟨here, rfl⟩, path'⟩
  | any at_ =>
    intro n i z path
    rcases Inside.of_path at_ (by simp) (by simp) path with inside | ⟨m, q, j, rfl, ⟨here, rfl, rfl⟩, path'⟩
    · exact .inl inside
    · exact .inr ⟨m, _, Nat.lt_succ_self m, ⟨here, rfl⟩, path'⟩
  | @cls cc idx p q at_ known =>
    intro n i z path
    have has : ∀ idx' next, Inst.cls idx q = .cls idx' next → ∃ cc, classes[idx']? = some cc := by
      rintro _ _ ⟨⟩
      exact ⟨_, known⟩
    rcases Inside.of_path at_ (by simp) has path with inside | ⟨m, q, j, rfl, ⟨⟨cc', c, here, char, takes⟩, rfl, rfl⟩, path'⟩
    · exact .inl inside
    · rw [known] at here
      cases here
      exact .inr ⟨m, _, Nat.lt_succ_self m, ⟨c, char, takes, rfl⟩, path'⟩
  | startAnchor at_ =>
    intro n i z path
    rcases Inside.of_path at_ (by simp) (by simp) path with inside | ⟨m, q, j, rfl, ⟨here, rfl, rfl⟩, path'⟩
    · exact .inl inside
    · exact .inr ⟨m, _, Nat.lt_succ_self m, ⟨here, rfl⟩, path'⟩
  | endAnchor at_ =>
    intro n i z path
    rcases Inside.of_path at_ (by simp) (by simp) path with inside | ⟨m, q, j, rfl, ⟨here, rfl, rfl⟩, path'⟩
    · exact .inl inside
    · exact .inr ⟨m, _, Nat.lt_succ_self m, ⟨here, rfl⟩, path'⟩
  | concatOne _ ih =>
    intro n i z path
    rcases ih n i z path with inside | ⟨m, j, less, first, path⟩
    · exact .inl inside
    · exact .inr ⟨m, j, less, ⟨j, first, rfl⟩, path⟩
  | concatMore _ _ ih ih' =>
    intro n i z path
    rcases ih n i z path with inside | ⟨m, j, less, first, path⟩
    · exact .inl inside
    · rcases ih' m j z path with inside | ⟨m', k, less', others, path⟩
      · exact .inl inside
      · exact .inr ⟨m', k, less'.trans less, ⟨j, first, others⟩, path⟩
  | altOne _ ih =>
    intro n i z path
    rcases ih n i z path with inside | ⟨m, j, less, first, path⟩
    · exact .inl inside
    · exact .inr ⟨m, j, less, .inl first, path⟩
  | altMore at_ _ _ ih ih' =>
    intro n i z path
    rcases Inside.of_path at_ (by simp) (by simp) path with inside | ⟨n, r, j, rfl, ⟨which, rfl⟩, path'⟩
    · exact .inl inside
    · rcases which with rfl | rfl
      · rcases ih n _ z path' with inside | ⟨m, k, less, first, path⟩
        · exact .inl inside
        · exact .inr ⟨m, k, by omega, .inl first, path⟩
      · rcases ih' n _ z path' with inside | ⟨m, k, less, others, path⟩
        · exact .inl inside
        · exact .inr ⟨m, k, by omega, .inr others, path⟩
  | star at_ _ ih =>
    -- each turn of the loop leaves a shorter path
    intro n
    induction n using Nat.strong_induction_on with
    | _ n turns =>
      intro i z path
      rcases Inside.of_path at_ (by simp) (by simp) path with inside | ⟨n, r, j, rfl, ⟨which, rfl⟩, path'⟩
      · exact .inl inside
      · rcases which with rfl | rfl
        · rcases ih n _ z path' with inside | ⟨m, k, less, first, path⟩
          · exact .inl inside
          · rcases turns m (by omega) k z path with inside | ⟨m', l, less', others, path⟩
            · exact .inl inside
            · exact .inr ⟨m', l, by omega, .head first others, path⟩
        · exact .inr ⟨n, _, Nat.lt_succ_self n, .refl, path'⟩
  | plus _ at_ ih =>
    intro n
    induction n using Nat.strong_induction_on with
    | _ n turns =>
      intro i z path
      rcases ih n i z path with inside | ⟨m, k, less, first, path⟩
      · exact .inl inside
      · rcases Inside.of_path at_ (by simp) (by simp) path with inside | ⟨m, r, j, rfl, ⟨which, rfl⟩, path'⟩
        · exact .inl inside
        · rcases which with rfl | rfl
          · rcases turns m (by omega) _ z path' with inside | ⟨m', l, less', others, path⟩
            · exact .inl inside
            · exact .inr ⟨m', l, by omega, .head first others, path⟩
          · exact .inr ⟨m, _, by omega, .single first, path'⟩
  | question at_ _ ih =>
    intro n i z path
    rcases Inside.of_path at_ (by simp) (by simp) path with inside | ⟨n, r, j, rfl, ⟨which, rfl⟩, path'⟩
    · exact .inl inside
    · rcases which with rfl | rfl
      · rcases ih n _ z path' with inside | ⟨m, k, less, once, path⟩
        · exact .inl inside
        · exact .inr ⟨m, k, by omega, .single once, path⟩
      · exact .inr ⟨n, _, Nat.lt_succ_self n, .refl, path'⟩
  | rep _ ih =>
    intro n i z path
    rcases ih n i z path with inside | ⟨m, j, less, once, path⟩
    · exact .inl inside
    · exact .inr ⟨m, j, less, (lang_expandRepeat _ _).mp once, path⟩

end Machine

end Regexp

end Adelie
