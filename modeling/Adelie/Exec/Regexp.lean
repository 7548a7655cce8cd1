import Adelie.Exec.Expr
import Adelie.Types.Parse

namespace Adelie

namespace Regexp

def maxDepth : Nat := 128

def maxRepeat : Nat := 1000

def maxProgram : Nat := 100000

inductive ClassItem where
  | range (lo hi : Char)
  | digit
  | notDigit
  | word
  | notWord
  | space
  | notSpace

structure CharClass where
  items : List ClassItem
  negate : Bool

def isWordChar (c : Char) : Bool := c.isAlphanum || c == '_'

/-- Unicode's White_Space. -/
def isWhitespace (c : Char) : Bool :=
  (9 ≤ c.toNat && c.toNat ≤ 13) || (0x2000 ≤ c.toNat && c.toNat ≤ 0x200A) ||
    c.toNat ∈ [0x20, 0x85, 0xA0, 0x1680, 0x2028, 0x2029, 0x202F, 0x205F, 0x3000]

def itemMatch (item : ClassItem) (c : Char) : Bool :=
  match item with
  | .range lo hi => lo ≤ c && c ≤ hi
  | .digit => c.isDigit
  | .notDigit => !c.isDigit
  | .word => isWordChar c
  | .notWord => !isWordChar c
  | .space => isWhitespace c
  | .notSpace => !isWhitespace c

def classMatch (cc : CharClass) (c : Char) : Bool := (cc.items.any fun it => itemMatch it c) != cc.negate

/-- The counts of a repeat, in order. -/
structure Bound where
  m : Nat
  n : Option Nat
  ordered : n.all (m ≤ ·) = true

/-- The list of a `Concat` or an `Alt` is not empty. -/
inductive Ast where
  | empty
  | char (c : Char)
  | any
  | cls (cc : CharClass)
  | concat (first : Ast) (rest : List Ast)
  | alt (first : Ast) (rest : List Ast)
  | star (inner : Ast)
  | plus (inner : Ast)
  | question (inner : Ast)
  | rep (inner : Ast) (bound : Bound)
  | startAnchor
  | endAnchor

/-- Several parts as one. -/
def Ast.ofParts : List Ast → Ast
  | [] => .empty
  | [part] => part
  | first :: rest => .concat first rest

section Parser

inductive ClassAtom where
  | ch (c : Char)
  | item (item : ClassItem)

/-- What is left of the pattern. -/
abbrev UpTo (s : List Char) := { r : List Char // r.length ≤ s.length }

abbrev Short (s : List Char) := { r : List Char // r.length < s.length }

def invalid (message : String) : Except ExecError α := .error (.invalid message)

def escapeChar : (s : List Char) → Except ExecError (ClassAtom × UpTo s)
  | [] => invalid "trailing '\\' in regex"
  | c :: s =>
    if c ∈ ['.', '\\', '(', ')', '[', ']', '{', '}', '|', '*', '+', '?', '^', '$', '/', '-'] then .ok (.ch c, ⟨s, by simp⟩)
    else if c = 'd' then .ok (.item .digit, ⟨s, by simp⟩)
    else if c = 'D' then .ok (.item .notDigit, ⟨s, by simp⟩)
    else if c = 'w' then .ok (.item .word, ⟨s, by simp⟩)
    else if c = 'W' then .ok (.item .notWord, ⟨s, by simp⟩)
    else if c = 's' then .ok (.item .space, ⟨s, by simp⟩)
    else if c = 'S' then .ok (.item .notSpace, ⟨s, by simp⟩)
    else invalid s!"unsupported escape '\\{c}'"

def parseClassChar : (s : List Char) → Except ExecError (ClassAtom × Short s)
  | [] => invalid "unterminated character class"
  | c :: s =>
    if c = '\\' then do
      let ⟨atom, r, le⟩ ← escapeChar s
      return (atom, ⟨r, by simp only [List.length_cons]; omega⟩)
    else if c = '[' then invalid "nested '[' in character class"
    else .ok (.ch c, ⟨s, by simp⟩)

/-- A range's end, past the `-`. -/
def parseRange (lo : Char) (s : List Char) : Except ExecError (ClassItem × Short s) := do
  let ⟨hi, r⟩ ← parseClassChar s
  match hi with
  | .item _ => invalid "character class range cannot end with a shorthand class"
  | .ch hi =>
    if hi < lo then invalid "character class range is out of order"
    else return (.range lo hi, r)

/-- A `-` right before the end of the class is no range. -/
def parseClassMember (s : List Char) : Except ExecError (ClassItem × Short s) := do
  let ⟨atom, r, less⟩ ← parseClassChar s
  match atom with
  | .item it => return (it, ⟨r, less⟩)
  | .ch lo =>
    match r, less with
    | '-' :: c :: r, less =>
      if c = ']' then return (.range lo lo, ⟨'-' :: c :: r, less⟩)
      else
        let ⟨item, r', less'⟩ ← parseRange lo (c :: r)
        return (item, ⟨r', by simp only [List.length_cons] at less less' ⊢; omega⟩)
    | r, less => return (.range lo lo, ⟨r, less⟩)

def parseMembers (first : Bool) (s : List Char) : Except ExecError (List ClassItem × UpTo s) :=
  match s with
  | [] => invalid "unterminated character class"
  | c :: rest =>
    if c = ']' ∧ first = false then .ok ([], ⟨rest, by simp⟩)
    else do
      let ⟨item, r, less⟩ ← parseClassMember (c :: rest)
      let ⟨items, r', le⟩ ← parseMembers false r
      return (item :: items, ⟨r', by omega⟩)
termination_by s.length
decreasing_by exact less

def classOf (negate : Bool) (s : List Char) : Except ExecError (Ast × UpTo s) := do
  let ⟨items, r⟩ ← parseMembers true s
  if items.isEmpty then invalid "empty character class"
  else return (.cls ⟨items, negate⟩, r)

def parseClass : (s : List Char) → Except ExecError (Ast × UpTo s)
  | '^' :: s => do
    let ⟨ast, r, le⟩ ← classOf true s
    return (ast, ⟨r, by simp only [List.length_cons]; omega⟩)
  | s => classOf false s

def rejectLazy (s : List Char) : Except ExecError Unit :=
  ensure (s.head? ≠ some '?') (.invalid "lazy quantifiers are not supported")

def parseNumber (s : List Char) : Except ExecError (Nat × UpTo s) :=
  match parseUnsigned (2 ^ 32) (s.takeWhile Char.isDigit) with
  | some n => .ok (n, ⟨s.dropWhile Char.isDigit, (List.dropWhile_sublist _).length_le⟩)
  | none => invalid "expected a number in a repetition bound"

/-- The bound after the first number. -/
def parseUpper (m : Nat) : (s : List Char) → Except ExecError (Option Nat × UpTo s)
  | ',' :: '}' :: s => .ok (none, ⟨'}' :: s, by simp⟩)
  | ',' :: s => do
    let ⟨n, r, le⟩ ← parseNumber s
    return (some n, ⟨r, by simp only [List.length_cons]; omega⟩)
  | s => .ok (some m, ⟨s, le_rfl⟩)

/-- A bound past its opening brace. -/
def parseBound (atom : Ast) (s : List Char) : Except ExecError (Ast × UpTo s) := do
  let ⟨m, r, le⟩ ← parseNumber s
  let ⟨n, r', le'⟩ ← parseUpper m r
  match r', le' with
  | '}' :: r', le' =>
    ensure (m ≤ maxRepeat ∧ n.all (· ≤ maxRepeat)) (.invalid s!"repetition bound exceeds {maxRepeat}")
    if ordered : n.all (m ≤ ·) = true then
      rejectLazy r'
      return (.rep atom ⟨m, n, ordered⟩, ⟨r', by simp only [List.length_cons] at le'; omega⟩)
    else invalid "repetition bound \x7bm,n\x7d has n < m"
  | _, _ => invalid "unterminated repetition bound"

theorem lex_of_le {a b i j : Nat} (le : a ≤ b) (less : i < j) : Prod.Lex (· < ·) (· < ·) (a, i) (b, j) := by
  rcases Nat.lt_or_eq_of_le le with short | rfl
  · exact .left _ _ short
  · exact .right _ less

mutual

def parseAlt (depth : Nat) (s : List Char) : Except ExecError (Ast × UpTo s) := do
  let ⟨first, r, le⟩ ← parseConcat depth s
  let ⟨others, r', le'⟩ ← parseBranches depth r
  let ast := match others with
    | [] => first
    | branch :: others => .alt first (branch :: others)
  return (ast, ⟨r', by omega⟩)
termination_by (s.length, 5)
decreasing_by
  · exact lex_of_le le_rfl (by decide)
  · exact lex_of_le le (by decide)

def parseBranches (depth : Nat) (s : List Char) : Except ExecError (List Ast × UpTo s) :=
  match s with
  | '|' :: s' => do
    let ⟨branch, r, le⟩ ← parseConcat depth s'
    let ⟨others, r', le'⟩ ← parseBranches depth r
    return (branch :: others, ⟨r', by simp only [List.length_cons]; omega⟩)
  | s => .ok ([], ⟨s, le_rfl⟩)
termination_by (s.length, 4)
decreasing_by
  · exact Prod.Lex.left _ _ (by simp)
  · exact Prod.Lex.left _ _ (by simp only [List.length_cons]; omega)

def parseConcat (depth : Nat) (s : List Char) : Except ExecError (Ast × UpTo s) := do
  let ⟨parts, r⟩ ← parseParts depth s
  return (.ofParts parts, r)
termination_by (s.length, 4)

def parseParts (depth : Nat) (s : List Char) : Except ExecError (List Ast × UpTo s) :=
  match s with
  | [] => .ok ([], ⟨[], le_rfl⟩)
  | c :: s' =>
    if c = '|' ∨ c = ')' then .ok ([], ⟨c :: s', le_rfl⟩)
    else do
      let ⟨part, r, less⟩ ← parseRepeat depth (c :: s')
      let ⟨parts, r', le⟩ ← parseParts depth r
      return (part :: parts, ⟨r', by omega⟩)
termination_by (s.length, 3)
decreasing_by
  · exact Prod.Lex.right _ (by decide)
  · exact Prod.Lex.left _ _ less

def parseRepeat (depth : Nat) (s : List Char) : Except ExecError (Ast × Short s) := do
  let ⟨atom, r, less⟩ ← parseAtom depth s
  match r, less with
  | '*' :: r, less => do
    rejectLazy r
    return (.star atom, ⟨r, by simp only [List.length_cons] at less; omega⟩)
  | '+' :: r, less => do
    rejectLazy r
    return (.plus atom, ⟨r, by simp only [List.length_cons] at less; omega⟩)
  | '?' :: r, less => do
    rejectLazy r
    return (.question atom, ⟨r, by simp only [List.length_cons] at less; omega⟩)
  | '{' :: r, less => do
    let ⟨ast, r', le⟩ ← parseBound atom r
    return (ast, ⟨r', by simp only [List.length_cons] at less; omega⟩)
  | r, less => return (atom, ⟨r, less⟩)
termination_by (s.length, 2)

def parseAtom (depth : Nat) (s : List Char) : Except ExecError (Ast × Short s) :=
  match s with
  | [] => invalid "unexpected end of regex"
  | c :: s' =>
    if c = '.' then .ok (.any, ⟨s', by simp⟩)
    else if c = '^' then .ok (.startAnchor, ⟨s', by simp⟩)
    else if c = '$' then .ok (.endAnchor, ⟨s', by simp⟩)
    else if c = '(' then do
      let ⟨ast, r, le⟩ ← parseGroup depth s'
      return (ast, ⟨r, by simp only [List.length_cons]; omega⟩)
    else if c = '[' then do
      let ⟨ast, r, le⟩ ← parseClass s'
      return (ast, ⟨r, by simp only [List.length_cons]; omega⟩)
    else if c = '\\' then do
      let ⟨atom, r, le⟩ ← escapeChar s'
      let ast := match atom with
        | .ch c => .char c
        | .item item => .cls ⟨[item], false⟩
      return (ast, ⟨r, by simp only [List.length_cons]; omega⟩)
    else if c = ')' then invalid "unmatched ')' in regex"
    else if c = '*' ∨ c = '+' ∨ c = '?' then invalid s!"'{c}' has nothing to repeat"
    else .ok (.char c, ⟨s', by simp⟩)
termination_by (s.length, 1)
decreasing_by exact Prod.Lex.left _ _ (by simp)

/-- A group past its opening parenthesis. -/
def parseGroup (depth : Nat) (s : List Char) : Except ExecError (Ast × UpTo s) :=
  if maxDepth < depth + 1 then invalid s!"regex nesting exceeds depth {maxDepth}"
  else
    match s with
    | '?' :: ':' :: s' => do
      let ⟨inner, r, le⟩ ← parseAlt (depth + 1) s'
      match r, le with
      | ')' :: r, le => return (inner, ⟨r, by simp only [List.length_cons] at le ⊢; omega⟩)
      | _, _ => invalid "unterminated group"
    | '?' :: _ => invalid "unsupported group construct '(?...)' (lookaround is not supported)"
    | s' => do
      let ⟨inner, r, le⟩ ← parseAlt (depth + 1) s'
      match r, le with
      | ')' :: r, le => return (inner, ⟨r, by simp only [List.length_cons] at le ⊢; omega⟩)
      | _, _ => invalid "unterminated group"
termination_by (s.length, 6)
decreasing_by
  · exact Prod.Lex.left _ _ (by simp only [List.length_cons]; omega)
  · exact Prod.Lex.right _ (by decide)

end

def parse (pattern : String) : Except ExecError Ast := do
  let ⟨ast, r⟩ ← parseAlt 0 pattern.toList
  match r.val with
  | [] => return ast
  | c :: _ => invalid s!"unexpected '{c}' in regex"

end Parser

section Program

/-- A pointer not yet known. -/
def unset : Nat := 2 ^ 64 - 1

inductive Inst where
  | char (c : Char) (next : Nat)
  | any (next : Nat)
  | cls (idx next : Nat)
  | split (a b : Nat)
  | jmp (next : Nat)
  | start (next : Nat)
  | end_ (next : Nat)
  | match_

/-- A pointer that `patch` fills in. -/
inductive Out where
  | next (i : Nat)
  | split2 (i : Nat)

def Out.index : Out → Nat
  | .next i => i
  | .split2 i => i

def Out.fill (target : Nat) : Out → Inst → Inst
  | .next _, .char c _ => .char c target
  | .next _, .any _ => .any target
  | .next _, .cls idx _ => .cls idx target
  | .next _, .jmp _ => .jmp target
  | .next _, .start _ => .start target
  | .next _, .end_ _ => .end_ target
  | .split2 _, .split a _ => .split a target
  | _, inst => inst

structure Frag where
  start : Nat
  out : List Out

def patch (prog : List Inst) (outs : List Out) (target : Nat) : List Inst :=
  outs.foldl (fun prog o => prog.modify o.index (o.fill target)) prog

structure Builder where
  prog : List Inst
  classes : List CharClass

def Builder.push (b : Builder) (inst : Inst) : Builder := { b with prog := b.prog ++ [inst] }

def Builder.patch (b : Builder) (outs : List Out) (target : Nat) : Builder := { b with prog := Regexp.patch b.prog outs target }

def leaf (b : Builder) (inst : Inst) : Builder × Frag := (b.push inst, ⟨b.prog.length, [.next b.prog.length]⟩)

/-- `m` copies, then either a star or a question mark for each copy more. -/
def expandRepeat (inner : Ast) (bound : Bound) : Ast :=
  .ofParts (List.replicate bound.m inner ++ match bound.n with
    | none => [.star inner]
    | some n => List.replicate (n - bound.m) (.question inner))

mutual

/-- What shrinks as a counted repeat is written out. -/
def Ast.weight : Ast → Nat
  | .concat first rest | .alt first rest => 2 + first.weight + Ast.weights rest
  | .star inner | .plus inner | .question inner => 1 + inner.weight
  | .rep inner bound => 3 + (max (bound.n.getD bound.m) bound.m + 1) * (inner.weight + 2)
  | .empty | .char _ | .any | .cls _ | .startAnchor | .endAnchor => 1

def Ast.weights : List Ast → Nat
  | [] => 0
  | ast :: rest => 1 + ast.weight + Ast.weights rest

end

theorem weights_append (xs ys : List Ast) : Ast.weights (xs ++ ys) = Ast.weights xs + Ast.weights ys := by
  induction xs with
  | nil => simp [Ast.weights]
  | cons x xs ih =>
    simp only [List.cons_append, Ast.weights, ih]
    omega

theorem weights_replicate (k : Nat) (ast : Ast) : Ast.weights (List.replicate k ast) = k * (ast.weight + 1) := by
  induction k with
  | zero => simp [Ast.weights]
  | succ k ih =>
    simp only [List.replicate_succ, Ast.weights, ih, Nat.succ_mul]
    omega

theorem weight_ofParts (parts : List Ast) : (Ast.ofParts parts).weight ≤ 1 + Ast.weights parts := by
  match parts with
  | [] => simp [Ast.ofParts, Ast.weight, Ast.weights]
  | [part] =>
    simp only [Ast.ofParts, Ast.weights]
    omega
  | first :: second :: rest =>
    simp only [Ast.ofParts, Ast.weight, Ast.weights]
    omega

theorem weight_expandRepeat (inner : Ast) (bound : Bound) : (expandRepeat inner bound).weight < (Ast.rep inner bound).weight := by
  obtain ⟨m, n, _⟩ := bound
  apply Nat.lt_of_le_of_lt (weight_ofParts _)
  rw [weights_append, weights_replicate]
  cases n with
  | none =>
    simp only [Ast.weights, Ast.weight, Option.getD_none, max_self, Nat.add_mul, Nat.mul_add]
    omega
  | some n =>
    simp only [weights_replicate, Ast.weight, Option.getD_some]
    have copies : m * (inner.weight + 1) ≤ m * (inner.weight + 2) := Nat.mul_le_mul_left _ (by omega)
    have more : (n - m) * (1 + inner.weight + 1) = (n - m) * (inner.weight + 2) := by rw [Nat.add_comm 1]
    have all : m * (inner.weight + 2) + (n - m) * (inner.weight + 2) = max n m * (inner.weight + 2) := by
      rw [← Nat.add_mul]
      congr 1
      omega
    rw [Nat.add_mul]
    omega

mutual

/-- Thompson's construction. -/
def compileAst (b : Builder) (ast : Ast) : Builder × Frag :=
  match ast with
  | .empty => leaf b (.jmp unset)
  | .char c => leaf b (.char c unset)
  | .any => leaf b (.any unset)
  | .cls cc => leaf { b with classes := b.classes ++ [cc] } (.cls b.classes.length unset)
  | .startAnchor => leaf b (.start unset)
  | .endAnchor => leaf b (.end_ unset)
  | .concat first rest =>
    let (b, frag) := compileAst b first
    compileRest b frag rest
  | .alt first rest => compileBranches b first rest
  | .star inner =>
    let (b, f) := compileAst b inner
    let idx := b.prog.length
    ((b.push (.split f.start unset)).patch f.out idx, ⟨idx, [.split2 idx]⟩)
  | .plus inner =>
    let (b, f) := compileAst b inner
    let idx := b.prog.length
    ((b.push (.split f.start unset)).patch f.out idx, ⟨f.start, [.split2 idx]⟩)
  | .question inner =>
    let (b, f) := compileAst b inner
    let idx := b.prog.length
    (b.push (.split f.start unset), ⟨idx, f.out ++ [.split2 idx]⟩)
  | .rep inner bound => compileAst b (expandRepeat inner bound)
termination_by ast.weight
decreasing_by
  · rw [Ast.weight]; omega
  · rw [Ast.weight]; omega
  · rw [Ast.weight]; omega
  · rw [Ast.weight]; omega
  · rw [Ast.weight]; omega
  · rw [Ast.weight]; omega
  · exact weight_expandRepeat inner bound

/-- The parts after those of `frag`. -/
def compileRest (b : Builder) (frag : Frag) (parts : List Ast) : Builder × Frag :=
  match parts with
  | [] => (b, frag)
  | part :: rest =>
    let (b, next) := compileAst b part
    compileRest (b.patch frag.out next.start) ⟨frag.start, next.out⟩ rest
termination_by Ast.weights parts
decreasing_by
  · rw [Ast.weights]; omega
  · rw [Ast.weights]; omega

/-- The last branch first. -/
def compileBranches (b : Builder) (first : Ast) (rest : List Ast) : Builder × Frag :=
  match rest with
  | [] => compileAst b first
  | second :: rest =>
    let (b, acc) := compileBranches b second rest
    let (b, f) := compileAst b first
    (b.push (.split f.start acc.start), ⟨b.prog.length, f.out ++ acc.out⟩)
termination_by 1 + first.weight + Ast.weights rest
decreasing_by
  · omega
  · simp only [Ast.weights]; omega
  · omega

end

def satAdd (a b : Nat) : Nat := min (a + b) (2 ^ 64 - 1)

def satMul (a b : Nat) : Nat := min (a * b) (2 ^ 64 - 1)

mutual

def programSize : Ast → Nat
  | .empty | .char _ | .any | .cls _ | .startAnchor | .endAnchor => 1
  | .concat first rest => concatSize (satAdd 0 (programSize first)) rest
  | .alt first rest => altSize (satAdd (satAdd 0 (programSize first)) 1) rest
  | .star inner | .plus inner | .question inner => satAdd (programSize inner) 1
  | .rep inner bound => satMul (satAdd (programSize inner) 1) (satAdd (max (bound.n.getD bound.m) bound.m) 1)

def concatSize (sum : Nat) : List Ast → Nat
  | [] => sum
  | part :: rest => concatSize (satAdd sum (programSize part)) rest

def altSize (sum : Nat) : List Ast → Nat
  | [] => sum
  | branch :: rest => altSize (satAdd (satAdd sum (programSize branch)) 1) rest

end

structure Regex where
  pattern : String
  prog : List Inst
  classes : List CharClass
  entry : Nat

/-- The tree's code, then what skips a character and tries it again. -/
def Regex.compile (pattern : String) : Except ExecError Regex := do
  let ast ← parse pattern
  if maxProgram < programSize ast then invalid s!"regex compiles to more than {maxProgram} instructions"
  else
    let (b, frag) := compileAst ⟨[], []⟩ ast
    let matchIdx := b.prog.length
    let prog := patch (b.prog ++ [.match_]) frag.out matchIdx
    let anyIdx := prog.length
    let prog := prog ++ [.any unset]
    let splitIdx := prog.length
    let prog := prog ++ [.split frag.start anyIdx]
    return ⟨pattern, prog.set anyIdx (.any splitIdx), b.classes, splitIdx⟩

end Program

section Machine

/-- The threads of a position, and the instructions entered there in order. -/
structure Threads where
  list : List Nat
  seen : List Bool
  entered : List Nat

def Threads.fresh (prog : List Inst) : Threads := ⟨[], List.replicate prog.length false, []⟩

def Threads.enter (t : Threads) (pc : Nat) : Threads := { t with seen := t.seen.set pc true, entered := t.entered ++ [pc] }

theorem count_set_lt {seen : List Bool} {pc : Nat} (unseen : seen[pc]? = some false) :
    (seen.set pc true).count false < seen.count false := by
  obtain ⟨inside, same⟩ := List.getElem?_eq_some_iff.mp unseen
  have some_ : 0 < seen.count false := List.count_pos_iff.mpr (same ▸ List.getElem_mem inside)
  rw [List.count_set inside, same]
  simp only [beq_self_eq_true, if_true, if_false, beq_iff_eq, Bool.true_eq_false]
  omega

/-- The stack, top first. Nothing is an index out of bounds. -/
def addLoop (prog : List Inst) (pos len : Nat) (stack : List Nat) (t : Threads) : Option (Bool × Threads) :=
  match stack with
  | [] => some (false, t)
  | pc :: stack =>
    match _unseen : t.seen[pc]? with
    | none => none
    | some true => addLoop prog pos len stack t
    | some false =>
      match prog[pc]? with
      | none => none
      | some (.jmp n) => addLoop prog pos len (n :: stack) (t.enter pc)
      | some (.split a b) => addLoop prog pos len (a :: b :: stack) (t.enter pc)
      | some (.start n) => addLoop prog pos len (if pos = 0 then n :: stack else stack) (t.enter pc)
      | some (.end_ n) => addLoop prog pos len (if pos = len then n :: stack else stack) (t.enter pc)
      | some .match_ => some (true, t.enter pc)
      | some (.char _ _) | some (.any _) | some (.cls _ _) =>
        addLoop prog pos len stack { t.enter pc with list := t.list ++ [pc] }
termination_by (t.seen.count false, stack.length)
decreasing_by
  · exact .right _ (by simp)
  all_goals exact .left _ _ (count_set_lt _unseen)

def addThread (prog : List Inst) (t : Threads) (pc pos len : Nat) : Option (Bool × Threads) := addLoop prog pos len [pc] t

namespace Regex

/-- Whether a thread takes the character, and where it goes on. Nothing is an instruction that takes none. -/
def consume (re : Regex) (c : Char) (pc : Nat) : Option (Bool × Nat) :=
  match re.prog[pc]? with
  | some (.char want next) => some (want == c, next)
  | some (.any next) => some (true, next)
  | some (.cls idx next) => re.classes[idx]?.map fun cc => (classMatch cc c, next)
  | _ => none

/-- The threads of one position on its character, into those of the next. -/
def advance (re : Regex) (c : Char) (pos len : Nat) (clist : List Nat) (t : Threads) (matched : Bool) : Option (Bool × Threads) :=
  match clist with
  | [] => some (matched, t)
  | pc :: rest => do
    let (consumes, next) ← re.consume c pc
    if consumes then
      let (hit, t) ← addThread re.prog t next (pos + 1) len
      re.advance c pos len rest t (matched || hit)
    else re.advance c pos len rest t matched

/-- The (instruction, position) pairs entered, and those run on their character, in order. -/
structure Visits where
  entered : List (Nat × Nat)
  stepped : List (Nat × Nat)

def scan (re : Regex) (len : Nat) (pos : Nat) (clist : List Nat) (visits : Visits) : List Char → Option (Bool × Visits)
  | [] => some (false, visits)
  | c :: chars => do
    let (matched, t) ← re.advance c pos len clist (.fresh re.prog) false
    let visits := ⟨visits.entered ++ t.entered.map (·, pos + 1), visits.stepped ++ clist.map (·, pos)⟩
    if matched then return (true, visits)
    else re.scan len (pos + 1) t.list visits chars

def search (re : Regex) (s : String) : Option (Bool × Visits) := do
  let (hit, t) ← addThread re.prog (.fresh re.prog) re.entry 0 s.toList.length
  if hit then return (true, ⟨t.entered.map (·, 0), []⟩)
  else re.scan s.toList.length 0 t.list ⟨t.entered.map (·, 0), []⟩ s.toList

def isMatch (re : Regex) (s : String) : Option Bool := (re.search s).map Prod.fst

end Regex

end Machine

end Regexp

end Adelie
