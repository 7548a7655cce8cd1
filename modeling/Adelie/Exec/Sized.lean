import Adelie.Exec.Matching

namespace Adelie

namespace Regexp

open Relation

section Size

mutual

/-- The instructions of a tree's code. -/
def Ast.emits : Ast → Nat
  | .empty | .char _ | .any | .cls _ | .startAnchor | .endAnchor => 1
  | .concat first rest => first.emits + Ast.emitsAll rest
  | .alt first rest => first.emits + Ast.emitsAny rest
  | .star inner | .plus inner | .question inner => inner.emits + 1
  | .rep inner bound => max 1 (bound.m * inner.emits + match bound.n with
    | none => inner.emits + 1
    | some n => (n - bound.m) * (inner.emits + 1))

def Ast.emitsAll : List Ast → Nat
  | [] => 0
  | part :: rest => part.emits + Ast.emitsAll rest

/-- The branches after a first, each with its split. -/
def Ast.emitsAny : List Ast → Nat
  | [] => 0
  | branch :: rest => branch.emits + 1 + Ast.emitsAny rest

end

theorem emitsAll_append (xs ys : List Ast) : Ast.emitsAll (xs ++ ys) = Ast.emitsAll xs + Ast.emitsAll ys := by
  induction xs with
  | nil => simp [Ast.emitsAll]
  | cons x xs ih =>
    simp only [List.cons_append, Ast.emitsAll, ih]
    omega

theorem emitsAll_replicate (k : Nat) (ast : Ast) : Ast.emitsAll (List.replicate k ast) = k * ast.emits := by
  induction k with
  | zero => simp [Ast.emitsAll]
  | succ k ih =>
    simp only [List.replicate_succ, Ast.emitsAll, ih, Nat.succ_mul]
    omega

/-- A tree has some code. -/
theorem emits_pos (ast : Ast) : 0 < ast.emits := by
  induction size : ast.weight using Nat.strong_induction_on generalizing ast with
  | _ n ih =>
    subst size
    cases ast with
    | concat first rest =>
      have := ih first.weight (by rw [Ast.weight]; omega) first rfl
      rw [Ast.emits]
      omega
    | alt first rest =>
      have := ih first.weight (by rw [Ast.weight]; omega) first rfl
      rw [Ast.emits]
      omega
    | _ =>
      rw [Ast.emits]
      omega

theorem emits_ofParts (parts : List Ast) : (Ast.ofParts parts).emits = max 1 (Ast.emitsAll parts) := by
  match parts with
  | [] => simp [Ast.ofParts, Ast.emits, Ast.emitsAll]
  | [part] =>
    have := emits_pos part
    simp only [Ast.ofParts, Ast.emitsAll]
    omega
  | first :: second :: rest =>
    have := emits_pos first
    simp only [Ast.ofParts, Ast.emits, Ast.emitsAll]
    omega

theorem emits_expandRepeat (inner : Ast) (bound : Bound) : (expandRepeat inner bound).emits = (Ast.rep inner bound).emits := by
  obtain ⟨m, n, _⟩ := bound
  unfold expandRepeat
  rw [emits_ofParts, emitsAll_append, emitsAll_replicate]
  cases n with
  | none => simp [Ast.emitsAll, Ast.emits]
  | some n => simp [emitsAll_replicate, Ast.emits]

theorem compileRest_length {b : Builder} {frag : Frag} (rest : List Ast)
    (each : ∀ part ∈ rest, ∀ b, (compileAst b part).1.prog.length = b.prog.length + part.emits) :
    (compileRest b frag rest).1.prog.length = b.prog.length + Ast.emitsAll rest := by
  induction rest generalizing b frag with
  | nil =>
    rw [compileRest]
    rfl
  | cons part rest ih =>
    have all := List.forall_mem_cons.mp each
    rw [compileRest, ih all.2]
    change (Regexp.patch _ _ _).length + _ = _
    rw [length_patch, all.1 b, Ast.emitsAll]
    omega

theorem compileBranches_length (first : Ast) (rest : List Ast)
    (each : ∀ branch ∈ first :: rest, ∀ b, (compileAst b branch).1.prog.length = b.prog.length + branch.emits) (b : Builder) :
    (compileBranches b first rest).1.prog.length = b.prog.length + first.emits + Ast.emitsAny rest := by
  induction rest generalizing first with
  | nil =>
    rw [compileBranches, each first List.mem_cons_self b]
    rfl
  | cons second rest ih =>
    have all := List.forall_mem_cons.mp each
    rw [compileBranches]
    change (Builder.push _ _).prog.length = _
    rw [length_push, all.1, ih second all.2, Ast.emitsAny]
    omega

theorem compileAst_length (ast : Ast) (b : Builder) : (compileAst b ast).1.prog.length = b.prog.length + ast.emits := by
  induction size : ast.weight using Nat.strong_induction_on generalizing ast b with
  | _ n ih =>
    subst size
    cases ast with
    | concat first rest =>
      rw [compileAst]
      have head := ih first.weight (by rw [Ast.weight]; omega) first b rfl
      have each : ∀ part ∈ rest, ∀ b, (compileAst b part).1.prog.length = b.prog.length + part.emits := by
        intro part member b
        have := weight_lt_of_mem member
        exact ih part.weight (by rw [Ast.weight]; omega) part b rfl
      refine (compileRest_length rest each).trans ?_
      rw [head, Ast.emits]
      omega
    | alt first rest =>
      rw [compileAst, compileBranches_length, Ast.emits]
      · omega
      · intro branch member b
        have less : branch.weight < (Ast.alt first rest).weight := by
          rw [Ast.weight]
          rcases List.mem_cons.mp member with rfl | inside
          · omega
          · have := weight_lt_of_mem inside
            omega
        exact ih branch.weight less branch b rfl
    | star inner =>
      have body := ih inner.weight (by rw [Ast.weight]; omega) inner b rfl
      rw [compileAst, Ast.emits]
      change (Regexp.patch _ _ _).length = _
      rw [length_patch, length_push, body]
      omega
    | plus inner =>
      have body := ih inner.weight (by rw [Ast.weight]; omega) inner b rfl
      rw [compileAst, Ast.emits]
      change (Regexp.patch _ _ _).length = _
      rw [length_patch, length_push, body]
      omega
    | question inner =>
      have body := ih inner.weight (by rw [Ast.weight]; omega) inner b rfl
      rw [compileAst, Ast.emits]
      change (Builder.push _ _).prog.length = _
      rw [length_push, body]
      omega
    | rep inner bound =>
      rw [compileAst, ih _ (weight_expandRepeat inner bound) _ b rfl, emits_expandRepeat]
    | _ =>
      rw [compileAst, Ast.emits]
      exact length_push

end Size

section Cap

/-- The largest `u64`. -/
def top : Nat := 2 ^ 64 - 1

theorem satAdd_ge {a b x y : Nat} (le : min a top ≤ x) (le' : min b top ≤ y) : min (a + b) top ≤ satAdd x y := by
  unfold satAdd top at *
  omega

theorem satMul_ge {a k x y : Nat} (le : min a top ≤ x) (le' : min k top ≤ y) (some_ : 0 < a) (some' : 0 < k) :
    min (a * k) top ≤ satMul x y := by
  unfold satMul
  change min (a * k) top ≤ min (x * y) top
  have big : 1 ≤ top := by decide
  have x_pos : 1 ≤ x := by omega
  have y_pos : 1 ≤ y := by omega
  rcases Nat.le_total a top with small | large
  · rcases Nat.le_total k top with small' | large'
    · have low : a * k ≤ x * y := Nat.mul_le_mul (by omega) (by omega)
      omega
    · have low : 1 * top ≤ x * y := Nat.mul_le_mul x_pos (by omega)
      omega
  · have low : top * 1 ≤ x * y := Nat.mul_le_mul (by omega) y_pos
    omega

/-- A copy of the tree and one instruction more, for each count and one. -/
theorem emits_rep_le (inner : Ast) (bound : Bound) :
    (Ast.rep inner bound).emits ≤ (inner.emits + 1) * (max (bound.n.getD bound.m) bound.m + 1) := by
  obtain ⟨m, n, _⟩ := bound
  rw [Ast.emits]
  cases n with
  | none =>
    simp only [Option.getD_none, max_self, Nat.add_mul, Nat.mul_add, Nat.mul_comm m]
    omega
  | some n =>
    simp only [Option.getD_some]
    have copies : m * inner.emits ≤ m * (inner.emits + 1) := Nat.mul_le_mul_left _ (by omega)
    have all : m * (inner.emits + 1) + (n - m) * (inner.emits + 1) = (inner.emits + 1) * max n m := by
      rw [← Nat.add_mul, Nat.mul_comm]
      congr 1
      omega
    have one_more : (inner.emits + 1) * (max n m + 1) = (inner.emits + 1) * max n m + (inner.emits + 1) := Nat.mul_succ _ _
    omega

theorem weight_lt_rep (inner : Ast) (bound : Bound) : inner.weight < (Ast.rep inner bound).weight := by
  rw [Ast.weight]
  have := Nat.le_mul_of_pos_left (inner.weight + 2) (Nat.succ_pos (max (bound.n.getD bound.m) bound.m))
  rw [Nat.succ_eq_add_one] at this
  omega

theorem concatSize_ge {sum done : Nat} (rest : List Ast) (low : min done top ≤ sum)
    (each : ∀ part ∈ rest, min part.emits top ≤ programSize part) : min (done + Ast.emitsAll rest) top ≤ concatSize sum rest := by
  induction rest generalizing sum done with
  | nil =>
    rw [concatSize, Ast.emitsAll]
    exact low
  | cons part rest ih =>
    have all := List.forall_mem_cons.mp each
    rw [concatSize, Ast.emitsAll, ← Nat.add_assoc]
    exact ih (satAdd_ge low all.1) all.2

theorem altSize_ge {sum done : Nat} (rest : List Ast) (low : min done top ≤ sum)
    (each : ∀ branch ∈ rest, min branch.emits top ≤ programSize branch) : min (done + Ast.emitsAny rest) top ≤ altSize sum rest := by
  induction rest generalizing sum done with
  | nil =>
    rw [altSize, Ast.emitsAny]
    exact low
  | cons branch rest ih =>
    have all := List.forall_mem_cons.mp each
    rw [altSize, Ast.emitsAny, ← Nat.add_assoc, ← Nat.add_assoc]
    exact ih (satAdd_ge (satAdd_ge low all.1) (Nat.min_le_left 1 top)) all.2

/-- The bound that is checked is one. -/
theorem programSize_ge (ast : Ast) : min ast.emits top ≤ programSize ast := by
  induction size : ast.weight using Nat.strong_induction_on generalizing ast with
  | _ n ih =>
    subst size
    cases ast with
    | concat first rest =>
      have head := ih first.weight (by rw [Ast.weight]; omega) first rfl
      rw [programSize, Ast.emits]
      apply concatSize_ge rest
      · have := satAdd_ge (a := 0) (x := 0) (by omega) head
        rwa [Nat.zero_add] at this
      · intro part member
        have := weight_lt_of_mem member
        exact ih part.weight (by rw [Ast.weight]; omega) part rfl
    | alt first rest =>
      have head := ih first.weight (by rw [Ast.weight]; omega) first rfl
      rw [programSize, Ast.emits]
      apply altSize_ge rest
      · have low := satAdd_ge (a := 0) (x := 0) (by omega) head
        have := satAdd_ge low (Nat.min_le_left 1 top)
        omega
      · intro branch member
        have := weight_lt_of_mem member
        exact ih branch.weight (by rw [Ast.weight]; omega) branch rfl
    | star inner =>
      have body := ih inner.weight (by rw [Ast.weight]; omega) inner rfl
      rw [programSize, Ast.emits]
      exact satAdd_ge body (Nat.min_le_left 1 top)
    | plus inner =>
      have body := ih inner.weight (by rw [Ast.weight]; omega) inner rfl
      rw [programSize, Ast.emits]
      exact satAdd_ge body (Nat.min_le_left 1 top)
    | question inner =>
      have body := ih inner.weight (by rw [Ast.weight]; omega) inner rfl
      rw [programSize, Ast.emits]
      exact satAdd_ge body (Nat.min_le_left 1 top)
    | rep inner bound =>
      have body := ih inner.weight (weight_lt_rep inner bound) inner rfl
      have copies := emits_rep_le inner bound
      have low := satMul_ge (satAdd_ge body (Nat.min_le_left 1 top))
        (satAdd_ge (Nat.min_le_left (max (bound.n.getD bound.m) bound.m) top) (Nat.min_le_left 1 top))
        (Nat.succ_pos _) (Nat.succ_pos _)
      rw [programSize]
      omega
    | _ =>
      rw [programSize, Ast.emits]
      exact Nat.min_le_left 1 top

theorem emits_le {ast : Ast} (within : programSize ast ≤ maxProgram) : ast.emits ≤ maxProgram := by
  have low := programSize_ge ast
  have big : maxProgram < top := by decide
  omega

end Cap

section Whole

variable {pattern : String} {re : Regex}

/-- The last two instructions, behind the rest. -/
theorem looped_getElem? (front : List Inst) (skip loop : Inst) :
    (∀ p < front.length, ((front ++ [Inst.any unset] ++ [loop]).set front.length skip)[p]? = front[p]?) ∧
      ((front ++ [Inst.any unset] ++ [loop]).set front.length skip)[front.length]? = some skip ∧
      ((front ++ [Inst.any unset] ++ [loop]).set front.length skip)[(front ++ [Inst.any unset]).length]? = some loop := by
  refine ⟨?_, ?_, ?_⟩
  · intro p less
    rw [List.getElem?_set_ne (by omega), List.append_assoc, List.getElem?_append_left less]
  · rw [List.getElem?_set_self (by simp)]
  · rw [List.getElem?_set_ne (by simp), List.getElem?_append_right le_rfl]
    simp

theorem laid_looped {b : Builder} {frag : Frag} {ast : Ast} (built : Built ⟨[], []⟩ b frag ast) (front : List Inst)
    (whole : front = patch (b.prog ++ [.match_]) frag.out b.prog.length) :
    Laid ⟨pattern, (front ++ [Inst.any unset] ++ [Inst.split frag.start front.length]).set front.length (.any (front ++ [Inst.any unset]).length),
      b.classes, (front ++ [Inst.any unset]).length⟩ ast frag.start b.prog.length front.length := by
  obtain ⟨old, skip, loop⟩ := looped_getElem? front (.any (front ++ [Inst.any unset]).length) (.split frag.start front.length)
  have size : front.length = b.prog.length + 1 := by simp [whole]
  refine ⟨?_, ?_, skip, loop⟩
  · apply built.code _ _ _ _ (List.prefix_refl _)
    intro p _ less
    dsimp only
    rw [old p (by omega), whole]
    exact patch_congr (List.getElem?_append_left less)
  · dsimp only
    rw [old b.prog.length (by omega), whole, patch_outside]
    · simp
    · intro o member
      have := (built.outs o member).2
      omega

/-- A pattern is compiled where its tree is within the cap, to the tree's code and three instructions more. -/
theorem compile_laid (compiled : Regex.compile pattern = .ok re) : ∃ ast, parse pattern = .ok ast ∧ programSize ast ≤ maxProgram ∧
    re.prog.length = ast.emits + 3 ∧ ∃ start last skip, Laid re ast start last skip := by
  unfold Regex.compile at compiled
  obtain ⟨ast, parsed, compiled⟩ := Except.bind_eq_ok.mp compiled
  split at compiled
  · cases compiled
  · rename_i within
    have built := compileAst_built ast ⟨[], []⟩
    have size := compileAst_length ast ⟨[], []⟩
    generalize compileAst ⟨[], []⟩ ast = pair at compiled built size
    obtain ⟨b, frag⟩ := pair
    dsimp only at built size
    have size : b.prog.length = ast.emits := size.trans (Nat.zero_add _)
    cases compiled
    exact ⟨ast, parsed, by omega, by simp [size], frag.start, b.prog.length, _, laid_looped built _ rfl⟩

/-- A part of the text that a tree stands for lies in it. -/
theorem Code.within {prog : List Inst} {classes : List CharClass} {ast : Ast} {p q : Nat} (code : Code prog classes ast p q)
    {s : List Char} {i j : Nat} (le : i ≤ s.length) (found : ast.lang s i j) : i ≤ j ∧ j ≤ s.length := by
  have all : ∀ a b : Nat × Nat, ReflTransGen (Step prog classes s) a b → a.2 ≤ s.length → a.2 ≤ b.2 ∧ b.2 ≤ s.length := by
    intro a b path low
    induction path with
    | refl => exact ⟨le_rfl, low⟩
    | tail _ step ih =>
      have := step_pos step
      omega
  exact all _ _ (code.reaches i j found) le

/-- A pattern is refused, or compiled to at most the cap and three instructions more, with a program that matches exactly the
    texts with a part in the language of the pattern's tree, at each position entering and running an instruction once at most. -/
theorem regex_matches (pattern : String) : (∃ e, Regex.compile pattern = .error e) ∨
    ∃ re ast, Regex.compile pattern = .ok re ∧ parse pattern = .ok ast ∧ re.prog.length ≤ maxProgram + 3 ∧
      ∀ text : String, ∃ hit visits, re.search text = some (hit, visits) ∧ re.isMatch text = some hit ∧
        (hit = true ↔ ∃ i j, i ≤ j ∧ j ≤ text.toList.length ∧ ast.lang text.toList i j) ∧
        visits.entered.Nodup ∧ visits.stepped.Nodup := by
  cases compiled : Regex.compile pattern with
  | error e => exact .inl ⟨e, rfl⟩
  | ok re =>
    obtain ⟨ast, parsed, within, size, start, last, skip, laid⟩ := compile_laid compiled
    have small := emits_le within
    refine .inr ⟨re, ast, rfl, parsed, by omega, fun text => ?_⟩
    obtain ⟨hit, visits, ran, entered, stepped, exact_⟩ := search_spec text laid.fine
    refine ⟨hit, visits, ran, by rw [Regex.isMatch, ran]; rfl, ?_, entered, stepped⟩
    rw [exact_, laid.accepts_iff]
    constructor
    · rintro ⟨i, j, le, found⟩
      obtain ⟨low, high⟩ := laid.code.within le found
      exact ⟨i, j, low, high, found⟩
    · rintro ⟨i, j, low, high, found⟩
      exact ⟨i, j, low.trans high, found⟩

theorem parseRepeat_plain (depth n : Nat) : ∃ r, parseRepeat depth ('a' :: List.replicate n 'a') = .ok (.char 'a', r) ∧
    r.val = List.replicate n 'a' := by
  have atom : parseAtom depth ('a' :: List.replicate n 'a') = .ok (.char 'a', ⟨List.replicate n 'a', by simp⟩) := by
    rw [parseAtom]
    rfl
  rw [parseRepeat, atom]
  cases n with
  | zero => exact ⟨_, rfl, rfl⟩
  | succ n => exact ⟨_, rfl, rfl⟩

theorem parseParts_plain (depth n : Nat) : ∃ r, parseParts depth (List.replicate n 'a') = .ok (List.replicate n (.char 'a'), r) ∧
    r.val = [] := by
  induction n with
  | zero =>
    rw [List.replicate_zero, parseParts]
    exact ⟨_, rfl, rfl⟩
  | succ n ih =>
    obtain ⟨r, parsed, empty⟩ := ih
    obtain ⟨⟨l, less⟩, first, same⟩ := parseRepeat_plain depth n
    dsimp only at same
    subst same
    rw [List.replicate_succ, parseParts, if_neg (by decide), first]
    change ∃ r', (parseParts depth (List.replicate n 'a') >>= _) = _ ∧ _
    rw [parsed]
    exact ⟨_, rfl, empty⟩

theorem parse_plain (n : Nat) : parse (String.ofList (List.replicate n 'a')) = .ok (.ofParts (List.replicate n (.char 'a'))) := by
  obtain ⟨⟨l, le⟩, parsed, empty⟩ := parseParts_plain 0 n
  dsimp only at empty
  subst empty
  have whole : parseConcat 0 (List.replicate n 'a') = .ok (.ofParts (List.replicate n (.char 'a')), ⟨[], le⟩) := by
    rw [parseConcat, parsed]
    rfl
  have none_ : parseBranches 0 [] = .ok ([], ⟨[], le_rfl⟩) := by
    rw [parseBranches]
    simp
  have alt : ∀ s, s = List.replicate n 'a' → ∃ le, parseAlt 0 s = .ok (.ofParts (List.replicate n (.char 'a')), ⟨[], le⟩) := by
    rintro _ rfl
    rw [parseAlt, whole]
    change ∃ le, (parseBranches 0 [] >>= _) = _
    rw [none_]
    exact ⟨_, rfl⟩
  obtain ⟨le, alt⟩ := alt _ String.toList_ofList
  rw [parse, alt]
  rfl

theorem concatSize_plain (n sum : Nat) (small : sum + n ≤ top) : concatSize sum (List.replicate n (.char 'a')) = sum + n := by
  induction n generalizing sum with
  | zero => rfl
  | succ n ih =>
    have one_more : satAdd sum (programSize (.char 'a')) = sum + 1 := by
      rw [programSize]
      unfold satAdd top at *
      omega
    rw [List.replicate_succ, concatSize, one_more, ih _ (by omega)]
    omega

/-- As many letters as the cap compile to three instructions more. -/
theorem compile_plain (n : Nat) (within : n + 2 ≤ maxProgram) :
    ∃ re, Regex.compile (String.ofList (List.replicate (n + 2) 'a')) = .ok re ∧ re.prog.length = n + 2 + 3 := by
  have size : programSize (.ofParts (List.replicate (n + 2) (.char 'a'))) = n + 2 := by
    have big : maxProgram < top := by decide
    have first : satAdd 0 (programSize (.char 'a')) = 1 := by
      rw [programSize]
      rfl
    rw [List.replicate_succ, List.replicate_succ]
    change programSize (.concat (.char 'a') (.char 'a' :: List.replicate n (.char 'a'))) = _
    rw [programSize, first, ← List.replicate_succ, concatSize_plain _ _ (by omega)]
    omega
  have emits : Ast.emits (.ofParts (List.replicate (n + 2) (.char 'a'))) = n + 2 := by
    rw [emits_ofParts, emitsAll_replicate, Ast.emits]
    omega
  have made : ∃ re, Regex.compile (String.ofList (List.replicate (n + 2) 'a')) = .ok re := by
    unfold Regex.compile
    rw [parse_plain]
    change ∃ re, (if maxProgram < programSize _ then _ else _) = Except.ok re
    rw [size, if_neg (by omega)]
    exact ⟨_, rfl⟩
  obtain ⟨re, made⟩ := made
  obtain ⟨ast, parsed, _, length, _⟩ := compile_laid made
  rw [parse_plain] at parsed
  cases parsed
  exact ⟨re, made, by rw [length, emits]⟩

/-- A hundred thousand letters compile to more instructions than that. -/
theorem compile_over_cap : ∃ pattern re, Regex.compile pattern = .ok re ∧ maxProgram < re.prog.length := by
  obtain ⟨re, made, length⟩ := compile_plain (maxProgram - 2) (by decide)
  refine ⟨_, re, made, ?_⟩
  rw [length]
  decide

end Whole

end Regexp

end Adelie
