import Adelie.Exec.Thompson

namespace Adelie

namespace Regexp

section Patch

variable {prog prog' : List Inst} {outs outs' : List Out} {target p : Nat}

@[simp] theorem length_patch : (patch prog outs target).length = prog.length := by
  induction outs generalizing prog with
  | nil => rfl
  | cons o outs ih =>
    change (patch (prog.modify o.index (o.fill target)) outs target).length = _
    rw [ih, List.length_modify]

theorem patch_append : patch prog (outs ++ outs') target = patch (patch prog outs target) outs' target := List.foldl_append

theorem patch_congr (same : prog[p]? = prog'[p]?) : (patch prog outs target)[p]? = (patch prog' outs target)[p]? := by
  induction outs generalizing prog prog' with
  | nil => exact same
  | cons o outs ih =>
    apply ih
    rw [List.getElem?_modify, List.getElem?_modify, same]

theorem patch_outside (outside : ∀ o ∈ outs, o.index ≠ p) : (patch prog outs target)[p]? = prog[p]? := by
  induction outs generalizing prog with
  | nil => rfl
  | cons o outs ih =>
    have all := List.forall_mem_cons.mp outside
    have rest : (patch (prog.modify o.index (o.fill target)) outs target)[p]? = _ := ih all.2
    change (patch (prog.modify o.index (o.fill target)) outs target)[p]? = _
    rw [rest, List.getElem?_modify]
    simp [all.1]

theorem patch_one {o : Out} {inst : Inst} (at_ : prog[p]? = some inst) (here : o.index = p) :
    (patch prog [o] target)[p]? = some (o.fill target inst) := by
  change (prog.modify o.index (o.fill target))[p]? = _
  rw [List.getElem?_modify, at_]
  simp [here]

theorem patch_split2 {a b : Nat} (at_ : prog[p]? = some (.split a b)) : (patch prog [.split2 p] target)[p]? = some (.split a target) :=
  patch_one at_ rfl

end Patch

section Built

/-- The code that building a tree has added, but for the pointers still out. -/
structure Built (b₀ b : Builder) (frag : Frag) (ast : Ast) : Prop where
  grows : b₀.prog.length ≤ b.prog.length
  same : ∀ p < b₀.prog.length, b.prog[p]? = b₀.prog[p]?
  classes : b₀.classes <+: b.classes
  outs : ∀ o ∈ frag.out, b₀.prog.length ≤ o.index ∧ o.index < b.prog.length
  code : ∀ prog classes target, (∀ p, b₀.prog.length ≤ p → p < b.prog.length → prog[p]? = (patch b.prog frag.out target)[p]?) →
    b.classes <+: classes → Code prog classes ast frag.start target

variable {b₀ b b₁ : Builder} {frag next : Frag} {ast part : Ast}

theorem getElem?_push {inst : Inst} {p : Nat} (old : p < b.prog.length) : (b.push inst).prog[p]? = b.prog[p]? :=
  List.getElem?_append_left old

theorem push_last {inst : Inst} : (b.push inst).prog[b.prog.length]? = some inst := by
  simp [Builder.push]

theorem length_push {inst : Inst} : (b.push inst).prog.length = b.prog.length + 1 := by simp [Builder.push]

theorem classes_getElem? {xs ys : List CharClass} {cc : CharClass} (more : xs ++ [cc] <+: ys) : ys[xs.length]? = some cc := by
  obtain ⟨rest, rfl⟩ := more
  simp

/-- An instruction on its own. -/
theorem Built.leaf {inst : Inst} (code : ∀ prog classes target, prog[b.prog.length]? = some ((Out.next b.prog.length).fill target inst) →
    b.classes <+: classes → Code prog classes ast b.prog.length target) :
    Built b (Regexp.leaf b inst).1 (Regexp.leaf b inst).2 ast where
  grows := by
    change _ ≤ (b.push inst).prog.length
    rw [length_push]
    omega
  same p old := getElem?_push old
  classes := List.prefix_refl _
  outs := by
    intro o member
    rw [List.mem_singleton.mp member]
    change b.prog.length ≤ b.prog.length ∧ b.prog.length < (b.push inst).prog.length
    rw [length_push]
    omega
  code := by
    intro prog classes target agree more
    apply code prog classes target _ more
    rw [agree b.prog.length le_rfl (by change _ < (b.push inst).prog.length; rw [length_push]; omega)]
    exact patch_one push_last rfl

theorem Code.append {prog : List Inst} {classes : List CharClass} {first : Ast} {rest : List Ast} {p q r : Nat}
    (front : Code prog classes (.concat first rest) p r) (back : Code prog classes part r q) :
    Code prog classes (.concat first (rest ++ [part])) p q := by
  induction rest generalizing first p with
  | nil =>
    cases front with
    | concatOne front => exact .concatMore front (.concatOne back)
  | cons second rest ih =>
    cases front with
    | concatMore front others => exact .concatMore front (ih others)

/-- A part after what was built, its start filled in where that goes on. -/
theorem Built.concat {first : Ast} {done : List Ast} (built : Built b₀ b frag (.concat first done)) (more : Built b b₁ next part) :
    Built b₀ (b₁.patch frag.out next.start) ⟨frag.start, next.out⟩ (.concat first (done ++ [part])) where
  grows := by
    change _ ≤ (Regexp.patch _ _ _).length
    rw [length_patch]
    exact built.grows.trans more.grows
  same p old := by
    have outside : ∀ o ∈ frag.out, o.index ≠ p := fun o member => by
      have := (built.outs o member).1
      omega
    have within : p < b.prog.length := Nat.lt_of_lt_of_le old built.grows
    exact (patch_outside outside).trans ((more.same p within).trans (built.same p old))
  classes := built.classes.trans more.classes
  outs o member := by
    have := more.outs o member
    have := built.grows
    change _ ∧ _ < (Regexp.patch _ _ _).length
    rw [length_patch]
    omega
  code := by
    intro prog classes target agree known
    have size : (b₁.patch frag.out next.start).prog.length = b₁.prog.length := length_patch
    have grows := more.grows
    have grows' := built.grows
    rw [size] at agree
    apply Code.append (r := next.start)
    · apply built.code prog classes next.start _ (more.classes.trans known)
      intro p low high
      have later : ∀ o ∈ next.out, o.index ≠ p := fun o member => by
        have := (more.outs o member).1
        omega
      rw [agree p low (by omega), patch_outside later]
      exact patch_congr (more.same p high)
    · apply more.code prog classes target _ known
      intro p low high
      have earlier : ∀ o ∈ frag.out, o.index ≠ p := fun o member => by
        have := (built.outs o member).2
        omega
      rw [agree p (by omega) high]
      exact patch_congr (patch_outside earlier)

theorem Built.single (built : Built b₀ b frag ast) : Built b₀ b frag (.concat ast []) :=
  { built with code := fun prog classes target agree known => .concatOne (built.code prog classes target agree known) }

theorem Built.only (built : Built b₀ b frag ast) : Built b₀ b frag (.alt ast []) :=
  { built with code := fun prog classes target agree known => .altOne (built.code prog classes target agree known) }

theorem Built.rep {inner : Ast} {bound : Bound} (built : Built b₀ b frag (expandRepeat inner bound)) :
    Built b₀ b frag (.rep inner bound) :=
  { built with code := fun prog classes target agree known => .rep (built.code prog classes target agree known) }

/-- A branch before those built, and the split between them. -/
theorem Built.branch {second : Ast} {rest : List Ast} (built : Built b₀ b frag (.alt second rest)) (more : Built b b₁ next ast) :
    Built b₀ (b₁.push (.split next.start frag.start)) ⟨b₁.prog.length, next.out ++ frag.out⟩ (.alt ast (second :: rest)) where
  grows := by
    have := built.grows
    have := more.grows
    rw [length_push]
    omega
  same p old := by
    have within : p < b.prog.length := Nat.lt_of_lt_of_le old built.grows
    rw [getElem?_push (Nat.lt_of_lt_of_le within more.grows), more.same p within, built.same p old]
  classes := built.classes.trans more.classes
  outs o member := by
    have := built.grows
    have := more.grows
    rw [length_push]
    rcases List.mem_append.mp member with member | member
    · have := more.outs o member
      omega
    · have := built.outs o member
      omega
  code := by
    intro prog classes target agree known
    have grows := built.grows
    have grows' := more.grows
    have low : ∀ o ∈ frag.out, b₀.prog.length ≤ o.index ∧ o.index < b.prog.length := built.outs
    have high : ∀ o ∈ next.out, b.prog.length ≤ o.index ∧ o.index < b₁.prog.length := more.outs
    rw [length_push, patch_append] at agree
    apply Code.altMore (a := next.start) (b := frag.start)
    · rw [agree b₁.prog.length (by omega) (by omega), patch_outside, patch_outside]
      · exact push_last
      · intro o member
        have := high o member
        omega
      · intro o member
        have := low o member
        omega
    · apply more.code prog classes target _ known
      intro p low' high'
      rw [agree p (by omega) (by omega), patch_outside]
      · exact patch_congr (getElem?_push high')
      · intro o member
        have := low o member
        omega
    · apply built.code prog classes target _ (more.classes.trans known)
      intro p low' high'
      rw [agree p low' (by omega)]
      apply patch_congr
      rw [patch_outside]
      · exact (getElem?_push (by omega)).trans (more.same p high')
      · intro o member
        have := high o member
        omega

/-- A split after a tree's code, that the tree goes on to. -/
theorem Built.loop (built : Built b₀ b frag ast) {start : Nat} {whole : Ast}
    (code : ∀ prog classes target, Code prog classes ast frag.start b.prog.length →
      prog[b.prog.length]? = some (.split frag.start target) → Code prog classes whole start target) :
    Built b₀ ((b.push (.split frag.start unset)).patch frag.out b.prog.length) ⟨start, [.split2 b.prog.length]⟩ whole where
  grows := by
    have := built.grows
    change _ ≤ (Regexp.patch _ _ _).length
    rw [length_patch, length_push]
    omega
  same p old := by
    have grows := built.grows
    have outside : ∀ o ∈ frag.out, o.index ≠ p := fun o member => by
      have := (built.outs o member).1
      omega
    exact (patch_outside outside).trans ((getElem?_push (by omega)).trans (built.same p old))
  classes := built.classes
  outs o member := by
    rw [List.mem_singleton.mp member]
    refine ⟨built.grows, ?_⟩
    change b.prog.length < (Regexp.patch _ _ _).length
    rw [length_patch, length_push]
    omega
  code := by
    intro prog classes target agree known
    have grows := built.grows
    have size : ((b.push (.split frag.start unset)).patch frag.out b.prog.length).prog.length = b.prog.length + 1 :=
      length_patch.trans length_push
    have low : ∀ o ∈ frag.out, b₀.prog.length ≤ o.index ∧ o.index < b.prog.length := built.outs
    rw [size] at agree
    apply code prog classes target
    · apply built.code prog classes b.prog.length _ known
      intro p low' high'
      rw [agree p low' (by omega), patch_outside]
      · exact patch_congr (getElem?_push high')
      · intro o member
        rw [List.mem_singleton.mp member]
        change b.prog.length ≠ p
        omega
    · rw [agree b.prog.length (by omega) (by omega)]
      apply patch_split2 (b := unset)
      apply Eq.trans (patch_outside _) push_last
      intro o member
      have := low o member
      omega

theorem Built.question (built : Built b₀ b frag ast) :
    Built b₀ (b.push (.split frag.start unset)) ⟨b.prog.length, frag.out ++ [.split2 b.prog.length]⟩ (.question ast) where
  grows := by
    have := built.grows
    rw [length_push]
    omega
  same p old := by
    have := built.grows
    rw [getElem?_push (by omega), built.same p old]
  classes := built.classes
  outs o member := by
    have := built.grows
    rw [length_push]
    rcases List.mem_append.mp member with member | member
    · have := built.outs o member
      omega
    · rw [List.mem_singleton.mp member]
      exact ⟨built.grows, Nat.lt_succ_self _⟩
  code := by
    intro prog classes target agree known
    have grows := built.grows
    have low : ∀ o ∈ frag.out, b₀.prog.length ≤ o.index ∧ o.index < b.prog.length := built.outs
    rw [length_push, patch_append] at agree
    apply Code.question (r := frag.start)
    · rw [agree b.prog.length (by omega) (by omega)]
      apply patch_split2 (b := unset)
      apply Eq.trans (patch_outside _) push_last
      intro o member
      have := low o member
      omega
    · apply built.code prog classes target _ known
      intro p low' high'
      rw [agree p low' (by omega), patch_outside]
      · exact patch_congr (getElem?_push high')
      · intro o member
        rw [List.mem_singleton.mp member]
        change b.prog.length ≠ p
        omega

end Built

section Compile

theorem compileRest_built {b₀ b : Builder} {frag : Frag} {first : Ast} {done : List Ast} (rest : List Ast)
    (each : ∀ part ∈ rest, ∀ b, Built b (compileAst b part).1 (compileAst b part).2 part)
    (built : Built b₀ b frag (.concat first done)) :
    Built b₀ (compileRest b frag rest).1 (compileRest b frag rest).2 (.concat first (done ++ rest)) := by
  induction rest generalizing b frag done with
  | nil =>
    rw [compileRest, List.append_nil]
    exact built
  | cons part rest ih =>
    have all := List.forall_mem_cons.mp each
    rw [compileRest, ← List.singleton_append, ← List.append_assoc]
    exact ih all.2 (built.concat (all.1 b))

theorem compileBranches_built (first : Ast) (rest : List Ast)
    (each : ∀ branch ∈ first :: rest, ∀ b, Built b (compileAst b branch).1 (compileAst b branch).2 branch) (b : Builder) :
    Built b (compileBranches b first rest).1 (compileBranches b first rest).2 (.alt first rest) := by
  induction rest generalizing first with
  | nil =>
    rw [compileBranches]
    exact (each first List.mem_cons_self b).only
  | cons second rest ih =>
    have all := List.forall_mem_cons.mp each
    rw [compileBranches]
    exact (ih second all.2).branch (all.1 _)

theorem weight_lt_of_mem {part : Ast} {parts : List Ast} (member : part ∈ parts) : part.weight < Ast.weights parts := by
  induction parts with
  | nil => cases member
  | cons first parts ih =>
    rw [Ast.weights]
    rcases List.mem_cons.mp member with rfl | inside
    · omega
    · have := ih inside
      omega

/-- Every tree is built as its code. -/
theorem compileAst_built (ast : Ast) (b : Builder) : Built b (compileAst b ast).1 (compileAst b ast).2 ast := by
  induction size : ast.weight using Nat.strong_induction_on generalizing ast b with
  | _ n ih =>
    subst size
    cases ast with
    | empty =>
      rw [compileAst]
      exact .leaf fun prog classes target at_ _ => .empty at_
    | char c =>
      rw [compileAst]
      exact .leaf fun prog classes target at_ _ => .char at_
    | any =>
      rw [compileAst]
      exact .leaf fun prog classes target at_ _ => .any at_
    | cls cc =>
      rw [compileAst]
      have built : Built { b with classes := b.classes ++ [cc] } (Regexp.leaf { b with classes := b.classes ++ [cc] } (.cls b.classes.length unset)).1
          (Regexp.leaf { b with classes := b.classes ++ [cc] } (.cls b.classes.length unset)).2 (.cls cc) :=
        .leaf fun prog classes target at_ known => .cls at_ (classes_getElem? known)
      exact { built with classes := (List.prefix_append _ _).trans built.classes }
    | startAnchor =>
      rw [compileAst]
      exact .leaf fun prog classes target at_ _ => .startAnchor at_
    | endAnchor =>
      rw [compileAst]
      exact .leaf fun prog classes target at_ _ => .endAnchor at_
    | concat first rest =>
      rw [compileAst]
      have head := ih first.weight (by rw [Ast.weight]; omega) first b rfl
      have each : ∀ part ∈ rest, ∀ b, Built b (compileAst b part).1 (compileAst b part).2 part := by
        intro part member b
        have := weight_lt_of_mem member
        exact ih part.weight (by rw [Ast.weight]; omega) part b rfl
      exact compileRest_built rest each head.single
    | alt first rest =>
      rw [compileAst]
      apply compileBranches_built
      intro branch member b
      have less : branch.weight < (Ast.alt first rest).weight := by
        rw [Ast.weight]
        rcases List.mem_cons.mp member with rfl | inside
        · omega
        · have := weight_lt_of_mem inside
          omega
      exact ih branch.weight less branch b rfl
    | star inner =>
      rw [compileAst]
      have body := ih inner.weight (by rw [Ast.weight]; omega) inner b rfl
      exact body.loop fun prog classes target code at_ => .star at_ code
    | plus inner =>
      rw [compileAst]
      have body := ih inner.weight (by rw [Ast.weight]; omega) inner b rfl
      exact body.loop fun prog classes target code at_ => .plus code at_
    | question inner =>
      rw [compileAst]
      exact (ih inner.weight (by rw [Ast.weight]; omega) inner b rfl).question
    | rep inner bound =>
      rw [compileAst]
      exact (ih _ (weight_expandRepeat inner bound) _ b rfl).rep

end Compile

end Regexp

end Adelie
