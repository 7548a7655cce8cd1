import Adelie.Sql.Binder

namespace Adelie

open Ast

/-- Why a binding stops: an error of the binder, or a table name that has found a CTE out of its sight. -/
inductive Stop where
  | error (e : SqlError)
  | captured (name : String)
deriving DecidableEq, Repr

/-- A CTE in scope, with the places in the scope of those in sight of its body. -/
structure ScopedCte where
  cte : Cte
  inSight : List Nat

/-- The place of the last CTE of a name. -/
def lastAt : List Cte → String → Option Nat
  | [], _ => none
  | c :: rest, name =>
    match lastAt rest name with
    | some i => some (i + 1)
    | none => if c.name = name then some 0 else none

/-- The CTEs of one WITH, put after `depth` others: each sees what is in sight and those before it. -/
def place (depth : Nat) : List Nat → List Cte → List ScopedCte
  | _, [] => []
  | inSight, c :: rest => ⟨c, inSight⟩ :: place (depth + 1) (inSight ++ [depth]) rest

/-- The last CTE of a name, with what stands before it and after it. -/
def cteScope : List Cte → String → Option (List Cte × Cte × List Cte)
  | [], _ => none
  | c :: rest, name =>
    match cteScope rest name with
    | some (before, d, after) => some (c :: before, d, after)
    | none => if c.name = name then some ([], c, rest) else none

section Runs

variable {σ ρ δ π : Type} (C : Clauses σ ρ δ π)

/-- The code's binding, stopped where a table name finds a CTE that is not in sight: neither written before, in the
    same WITH, nor in a query around the definition. -/
def watchQueryWith : Nat → Query → List ScopedCte → List Nat → Binding (BindState σ) Stop π
  | 0, _, _, _ => Binding.starve
  | fuel + 1, q, outer, inSight =>
    let ctes := outer ++ place outer.length inSight q.ctes
    let inSight := inSight ++ List.range' outer.length q.ctes.length
    bindBody C .error (fun inner => watchQueryWith fuel inner ctes inSight)
      (fun name => (lastAt (ctes.map ScopedCte.cte) name).map fun i =>
        match ctes[i]? with
        | some found => if i ∈ inSight then watchQueryWith fuel found.cte.query ctes found.inSight
          else Binding.stop (.captured name)
        | none => Binding.starve) q

/-- Binding under the CTEs in sight alone. `masked` names belong to a CTE that is in scope at the place of use and was
    not where the body was written: the CTE itself, a later one of its WITH, one introduced at the place of use. -/
def sightQueryWith : Nat → Query → List Cte → List String → Binding (BindState σ) Stop π
  | 0, _, _, _ => Binding.starve
  | fuel + 1, q, outer, masked =>
    let ctes := outer ++ q.ctes
    let masked := masked.filter fun n => n ∉ q.ctes.map Cte.name
    bindBody C .error (fun inner => sightQueryWith fuel inner ctes masked)
      (fun name =>
        if name ∈ masked then some (Binding.stop (.captured name))
        else (cteScope ctes name).map fun (before, c, after) =>
          sightQueryWith fuel c.query before (masked ++ (c :: after).map Cte.name)) q

/-- The binder returns, with a plan or an error, and no table name has found a CTE out of its sight on the way. -/
def LexicallyScoped (q : Query) (s : BindState σ) : Prop :=
  ∃ fuel r, bindQuery C fuel q s = some r ∧ watchQueryWith C fuel q [] [] s = some (r.mapError .error)

/-- Bound under the CTEs in sight, up to its first error, no table name is masked. -/
def Unmasked (q : Query) (s : BindState σ) : Prop :=
  ∀ fuel name, sightQueryWith C fuel q [] [] s ≠ some (.error (.captured name))

end Runs

section Related

variable {σ ρ δ π ε ε' : Type} {C : Clauses σ ρ δ π} {error : SqlError → ε} {error' : SqlError → ε'}

/-- What two ways to bind may have in common, kept by everything the binder does around its table names. -/
structure Congruent (error : SqlError → ε) (error' : SqlError → ε')
    (R : ∀ {α : Type}, Binding (BindState σ) ε α → Binding (BindState σ) ε' α → Prop) : Prop where
  pure : ∀ {α : Type} (a : α), R (pure a) (pure a)
  bind : ∀ {α β : Type} {b : Binding (BindState σ) ε α} {b' : Binding (BindState σ) ε' α}
    {f : α → Binding (BindState σ) ε β} {f' : α → Binding (BindState σ) ε' β},
    R b b' → (∀ a, R (f a) (f' a)) → R (b >>= f) (b' >>= f')
  lift : ∀ {α : Type} (f : σ → Except SqlError (α × σ)), R (Binding.lift error f) (Binding.lift error' f)
  stop : ∀ {α : Type} (e : SqlError), R (Binding.stop (error e) : Binding (BindState σ) ε α) (Binding.stop (error' e))
  nextRel : R nextRel nextRel

variable {R : ∀ {α : Type}, Binding (BindState σ) ε α → Binding (BindState σ) ε' α → Prop}
  (keeps : Congruent error error' R) {nested : Query → Binding (BindState σ) ε π}
  {nested' : Query → Binding (BindState σ) ε' π} {resolve : String → Option (Binding (BindState σ) ε π)}
  {resolve' : String → Option (Binding (BindState σ) ε' π)}

/-- Both leave a name to the catalog, or both bind a body for it. -/
def SameMeaning (R : ∀ {α : Type}, Binding (BindState σ) ε α → Binding (BindState σ) ε' α → Prop)
    (resolve : String → Option (Binding (BindState σ) ε π)) (resolve' : String → Option (Binding (BindState σ) ε' π)) :
    Prop :=
  ∀ name, Option.Rel R (resolve name) (resolve' name)

variable (names : SameMeaning R resolve resolve')

include keeps in
theorem bindBaseTable_rel (name : ObjectName) (label : String) :
    R (bindBaseTable C error name label) (bindBaseTable C error' name label) := by
  unfold bindBaseTable
  dsimp only
  split
  · apply keeps.bind keeps.nextRel
    intro rel
    split
    · exact keeps.stop _
    · exact keeps.pure _
  · exact keeps.stop _

include keeps in
theorem wrapRelation_rel (plan : π) (label : String) :
    R (wrapRelation C plan label : Binding (BindState σ) ε ρ) (wrapRelation C plan label) := by
  unfold wrapRelation
  apply keeps.bind keeps.nextRel
  intro rel
  exact keeps.pure _

include keeps names in
theorem bindTableRef_rel (t : TableRef) (inner : ∀ q, sizeOf q < sizeOf t → R (nested q) (nested' q)) :
    R (bindTableRef C error nested resolve t) (bindTableRef C error' nested' resolve' t) := by
  cases t with
  | table name label =>
    unfold bindTableRef
    dsimp only
    by_cases plain : name.db.isNone = true
    · simp only [plain, if_true]
      have same := names name.name
      cases found : resolve name.name with
      | none =>
        rw [found] at same
        cases same_ : resolve' name.name with
        | none => exact bindBaseTable_rel keeps name _
        | some b => rw [same_] at same; cases same
      | some b =>
        rw [found] at same
        cases same_ : resolve' name.name with
        | none => rw [same_] at same; cases same
        | some b' =>
          rw [same_] at same
          cases same with
          | some related =>
            apply keeps.bind related
            intro plan
            exact wrapRelation_rel keeps plan _
    · simp only [plain, Bool.false_eq_true, if_false]
      exact bindBaseTable_rel keeps name _
  | subquery q label =>
    apply keeps.bind (inner q (by simp; omega))
    intro plan
    exact wrapRelation_rel keeps plan label

include keeps names in
theorem bindJoins_rel (joins : List Join) (left : ρ)
    (inner : ∀ q, sizeOf q < sizeOf joins → R (nested q) (nested' q)) :
    R (bindJoins C error nested resolve left joins) (bindJoins C error' nested' resolve' left joins) := by
  induction joins generalizing left with
  | nil => exact keeps.pure _
  | cons j rest ih =>
    have table : sizeOf j.table < sizeOf j := by
      cases j
      simp only [Join.table, Join.mk.sizeOf_spec]
      omega
    simp only [List.cons.sizeOf_spec] at inner
    unfold bindJoins
    apply keeps.bind (bindTableRef_rel keeps names j.table fun q small => inner q (by omega))
    intro right
    apply keeps.bind (keeps.lift _)
    intro joined
    exact ih joined fun q small => inner q (by omega)

include keeps names in
theorem bindFromItem_rel (item : FromItem) (inner : ∀ q, sizeOf q < sizeOf item → R (nested q) (nested' q)) :
    R (bindFromItem C error nested resolve item) (bindFromItem C error' nested' resolve' item) := by
  cases item with
  | mk table joins =>
    simp only [FromItem.mk.sizeOf_spec] at inner
    apply keeps.bind (bindTableRef_rel keeps names table fun q small => inner q (by omega))
    intro left
    exact bindJoins_rel keeps names joins left fun q small => inner q (by omega)

include keeps names in
theorem bindSelect_rel (s : Select) (inner : ∀ q, sizeOf q < sizeOf s → R (nested q) (nested' q)) :
    R (bindSelect C error nested resolve s) (bindSelect C error' nested' resolve' s) := by
  obtain ⟨distinct, projection, source, selection, groupBy, having⟩ := s
  match source with
  | [] => exact keeps.lift _
  | [item] =>
    simp only [Select.mk.sizeOf_spec, List.cons.sizeOf_spec] at inner
    apply keeps.bind (bindFromItem_rel keeps names item fun q small => inner q (by omega))
    intro rel
    exact keeps.lift _
  | _ :: _ :: _ => exact keeps.stop _

include keeps names in
theorem bindSelectBody_rel (b : SelectBody) (inner : ∀ q, sizeOf q < sizeOf b → R (nested q) (nested' q)) :
    R (bindSelectBody C error nested resolve b) (bindSelectBody C error' nested' resolve' b) := by
  cases b with
  | select s =>
    simp only [SelectBody.select.sizeOf_spec] at inner
    exact bindSelect_rel keeps names s fun q small => inner q (by omega)
  | query q =>
    simp only [SelectBody.query.sizeOf_spec] at inner
    apply keeps.bind (inner q (by omega))
    intro plan
    exact keeps.pure _

include keeps names in
theorem bindBranches_rel (body : List SelectBody) (inner : ∀ q, sizeOf q < sizeOf body → R (nested q) (nested' q)) :
    R (bindBranches C error nested resolve body) (bindBranches C error' nested' resolve' body) := by
  induction body with
  | nil => exact keeps.pure _
  | cons b rest ih =>
    simp only [List.cons.sizeOf_spec] at inner
    unfold bindBranches
    apply keeps.bind (bindSelectBody_rel keeps names b fun q small => inner q (by omega))
    intro sr
    apply keeps.bind (keeps.lift _)
    intro branch
    apply keeps.bind (ih fun q small => inner q (by omega))
    intro others
    exact keeps.pure _

include keeps names in
theorem bindSetExpr_rel (body : List SelectBody) (inner : ∀ q, sizeOf q < sizeOf body → R (nested q) (nested' q)) :
    R (bindSetExpr C error nested resolve body) (bindSetExpr C error' nested' resolve' body) := by
  unfold bindSetExpr
  split
  · simp only [List.cons.sizeOf_spec] at inner
    exact bindSelectBody_rel keeps names _ fun q small => inner q (by omega)
  · apply keeps.bind (bindBranches_rel keeps names body inner)
    intro branches
    exact keeps.lift _

include keeps names in
/-- What holds of the queries nested in the body and of its table names holds of the whole. -/
theorem bindBody_rel (q : Query) (inner : ∀ q', sizeOf q' + sizeOf q.ctes < sizeOf q → R (nested q') (nested' q')) :
    R (bindBody C error nested resolve q) (bindBody C error' nested' resolve' q) := by
  have body : ∀ q', sizeOf q' < sizeOf q.body → R (nested q') (nested' q') := by
    intro q' small
    apply inner
    cases q
    simp only [Query.body, Query.ctes, Query.mk.sizeOf_spec] at small ⊢
    omega
  apply keeps.bind (bindSetExpr_rel keeps names q.body body)
  intro sr
  exact keeps.lift _

end Related

section Outcomes

variable {σ ρ δ π ε : Type} {α β : Type}

/-- What follows an outcome. -/
def Binding.next (f : α → Binding (BindState σ) ε β) :
    Option (Except ε (α × BindState σ)) → Option (Except ε (β × BindState σ))
  | none => none
  | some (.error e) => some (.error e)
  | some (.ok (a, s)) => f a s

theorem Binding.bind_run (b : Binding (BindState σ) ε α) (f : α → Binding (BindState σ) ε β) (s : BindState σ) :
    (b >>= f) s = Binding.next f (b s) := by
  show (b s >>= fun p => f p.1 p.2 : ExceptT ε Option (β × BindState σ)) = _
  simp only [bind, ExceptT.bind, ExceptT.mk, Option.bind]
  cases b s with
  | none => rfl
  | some r => cases r <;> rfl

/-- A watched binding that ends, and not at a capture, ends as the code's does. -/
def Erases (b : Binding (BindState σ) Stop α) (b' : Binding (BindState σ) SqlError α) : Prop :=
  ∀ s, b s = none ∨ (∃ name, b s = some (.error (.captured name))) ∨
    (∃ e, b s = some (.error (.error e)) ∧ b' s = some (.error e)) ∨ ∃ r, b s = some (.ok r) ∧ b' s = some (.ok r)

theorem erases_congruent :
    Congruent Stop.error id fun {α} (b : Binding (BindState σ) Stop α) b' => Erases b b' where
  pure a s := .inr (.inr (.inr ⟨(a, s), rfl, rfl⟩))
  bind := by
    intro α β b b' f f' first next s
    rw [Binding.bind_run, Binding.bind_run]
    rcases first s with none | ⟨name, captured⟩ | ⟨e, left, right⟩ | ⟨⟨a, s'⟩, left, right⟩
    · rw [none]
      exact .inl rfl
    · rw [captured]
      exact .inr (.inl ⟨name, rfl⟩)
    · rw [left, right]
      exact .inr (.inr (.inl ⟨e, rfl, rfl⟩))
    · rw [left, right]
      exact next a s'
  lift := by
    intro α f s
    unfold Binding.lift
    cases f s.rest with
    | ok r => exact .inr (.inr (.inr ⟨_, rfl, rfl⟩))
    | error e => exact .inr (.inr (.inl ⟨e, rfl, rfl⟩))
  stop e s := .inr (.inr (.inl ⟨e, rfl, rfl⟩))
  nextRel s := .inr (.inr (.inr ⟨_, rfl, rfl⟩))

/-- A binding with fuel enough. -/
def Fed (b : Binding (BindState σ) ε α) : Prop := ∀ s, b s ≠ none

theorem Fed.bind {b : Binding (BindState σ) ε α} {f : α → Binding (BindState σ) ε β} (first : Fed b)
    (next : ∀ a, Fed (f a)) : Fed (b >>= f) := by
  intro s
  rw [Binding.bind_run]
  cases here : b s with
  | none => exact absurd here (first s)
  | some r =>
    cases r with
    | error e => exact Option.some_ne_none _
    | ok r => exact next r.1 r.2

def BothFed (b b' : Binding (BindState σ) ε α) : Prop := Fed b ∧ Fed b'

theorem fed_congruent (error : SqlError → ε) :
    Congruent error error fun {α} (b b' : Binding (BindState σ) ε α) => BothFed b b' where
  pure a := ⟨fun s => Option.some_ne_none _, fun s => Option.some_ne_none _⟩
  bind first next := ⟨first.1.bind fun a => (next a).1, first.2.bind fun a => (next a).2⟩
  lift := by
    intro α f
    have fed : Fed (Binding.lift error f) := by
      intro s
      unfold Binding.lift
      cases f s.rest <;> exact Option.some_ne_none _
    exact ⟨fed, fed⟩
  stop e := ⟨fun s => Option.some_ne_none _, fun s => Option.some_ne_none _⟩
  nextRel := ⟨fun s => Option.some_ne_none _, fun s => Option.some_ne_none _⟩

/-- More fuel changes nothing for a binding that has ended. -/
def EndsAlike (b b' : Binding (BindState σ) ε α) : Prop := ∀ s, b s ≠ none → b' s = b s

theorem endsAlike_congruent (error : SqlError → ε) :
    Congruent error error fun {α} (b b' : Binding (BindState σ) ε α) => EndsAlike b b' where
  pure a s _ := rfl
  bind := by
    intro α β b b' f f' first next s ended
    rw [Binding.bind_run] at ended ⊢
    rw [Binding.bind_run]
    cases here : b s with
    | none => rw [here] at ended; exact absurd rfl ended
    | some r =>
      rw [first s (by rw [here]; exact Option.some_ne_none _), here]
      rw [here] at ended
      cases r with
      | error e => rfl
      | ok r => exact next r.1 r.2 ended
  lift f s _ := rfl
  stop e s _ := rfl
  nextRel s _ := rfl

end Outcomes

section Places

variable {ctes : List Cte} {name : String}

theorem lastAt_lt {i : Nat} (found : lastAt ctes name = some i) : ∃ c, ctes[i]? = some c ∧ c.name = name := by
  induction ctes generalizing i with
  | nil => cases found
  | cons c rest ih =>
    rw [lastAt] at found
    cases later : lastAt rest name with
    | some j =>
      rw [later] at found
      cases found
      exact ih later
    | none =>
      rw [later] at found
      dsimp only at found
      split at found
      · rename_i same
        cases found
        exact ⟨c, rfl, same⟩
      · cases found

theorem le_lastAt {i : Nat} {c : Cte} (at_ : ctes[i]? = some c) (same : c.name = name) :
    ∃ j, lastAt ctes name = some j ∧ i ≤ j := by
  induction ctes generalizing i with
  | nil => cases at_
  | cons d rest ih =>
    rw [lastAt]
    cases i with
    | zero =>
      cases at_
      cases lastAt rest name with
      | some j => exact ⟨j + 1, rfl, by omega⟩
      | none => exact ⟨0, by simp [same], le_rfl⟩
    | succ i =>
      obtain ⟨j, later, le⟩ := ih at_
      rw [later]
      exact ⟨j + 1, rfl, by omega⟩

theorem lastAt_append_of_mem (ctes : List Cte) {more : List Cte} (member : ∃ c ∈ more, c.name = name) :
    ∃ j, lastAt (ctes ++ more) name = some j ∧ ctes.length ≤ j := by
  obtain ⟨c, member, same⟩ := member
  obtain ⟨i, within, rfl⟩ := List.getElem_of_mem member
  have at_ : (ctes ++ more)[ctes.length + i]? = some more[i] := by simp [within]
  obtain ⟨j, found, le⟩ := le_lastAt at_ same
  exact ⟨j, found, by omega⟩

theorem lastAt_append_of_not_mem {more : List Cte} (none : ∀ c ∈ more, c.name ≠ name) :
    lastAt (ctes ++ more) name = lastAt ctes name := by
  induction ctes with
  | nil =>
    cases found : lastAt more name with
    | none => simpa [lastAt] using found
    | some i =>
      obtain ⟨c, at_, same⟩ := lastAt_lt found
      exact absurd same (none c (List.mem_of_getElem? at_))
  | cons c rest ih => rw [List.cons_append, lastAt, lastAt, ih]

/-- The code's lookup, by place. -/
theorem lastCte_eq (ctes : List Cte) (name : String) : lastCte ctes name = (lastAt ctes name).bind fun i => ctes[i]? := by
  unfold lastCte
  induction ctes with
  | nil => rfl
  | cons c rest ih =>
    rw [List.reverse_cons, List.find?_append, ih, lastAt]
    cases later : lastAt rest name with
    | some i =>
      obtain ⟨d, at_, _⟩ := lastAt_lt later
      simp [at_]
    | none => by_cases same : c.name = name <;> simp [same]

theorem cteScope_eq (ctes : List Cte) (name : String) :
    cteScope ctes name = (lastAt ctes name).bind fun i => (ctes[i]?).map fun c => (ctes.take i, c, ctes.drop (i + 1)) := by
  induction ctes with
  | nil => rfl
  | cons c rest ih =>
    rw [cteScope, ih, lastAt]
    cases later : lastAt rest name with
    | some i =>
      obtain ⟨d, at_, _⟩ := lastAt_lt later
      simp [at_]
    | none => by_cases same : c.name = name <;> simp [same]

end Places

section Lockstep

variable {σ ρ δ π : Type} {C : Clauses σ ρ δ π}

/-- Where the code's scope and the CTEs in sight stand to each other: `places` are the places of `sight` in `scope`, and
    `masked` are the names whose last CTE in scope is out of sight. -/
structure InStep (scope : List ScopedCte) (places : List Nat) (sight : List Cte) (masked : List String) : Prop where
  ordered : places.Pairwise (· < ·)
  seen : List.Forall₂ (fun i c => ∃ p, scope[i]? = some p ∧ p.cte = c) places sight
  inSight : ∀ k i, places[k]? = some i → ∃ p, scope[i]? = some p ∧ p.inSight = places.take k
  hidden : ∀ name i, lastAt (scope.map ScopedCte.cte) name = some i → (name ∈ masked ↔ i ∉ places)
  known : ∀ name ∈ masked, lastAt (scope.map ScopedCte.cte) name ≠ none

theorem length_place (depth : Nat) (inSight : List Nat) (ctes : List Cte) :
    (place depth inSight ctes).length = ctes.length := by
  induction ctes generalizing depth inSight with
  | nil => rfl
  | cons c rest ih => simp [place, ih]

theorem map_place (depth : Nat) (inSight : List Nat) (ctes : List Cte) :
    (place depth inSight ctes).map ScopedCte.cte = ctes := by
  induction ctes generalizing depth inSight with
  | nil => rfl
  | cons c rest ih => simp [place, ih]

theorem place_inSight {depth : Nat} {inSight : List Nat} {ctes : List Cte} {k : Nat} {p : ScopedCte}
    (at_ : (place depth inSight ctes)[k]? = some p) : p.inSight = inSight ++ List.range' depth k := by
  induction ctes generalizing depth inSight k with
  | nil => cases at_
  | cons c rest ih =>
    cases k with
    | zero =>
      cases at_
      simp
    | succ k =>
      rw [ih at_, List.append_assoc, List.range'_succ]
      rfl

/-- A WITH puts its CTEs in scope and in sight at once. -/
theorem InStep.extend {scope : List ScopedCte} {places : List Nat} {sight : List Cte} {masked : List String}
    (step : InStep scope places sight masked) (ctes : List Cte) :
    InStep (scope ++ place scope.length places ctes) (places ++ List.range' scope.length ctes.length) (sight ++ ctes)
      (masked.filter fun n => n ∉ ctes.map Cte.name) := by
  have below : ∀ i ∈ places, i < scope.length := by
    intro i member
    obtain ⟨k, within, rfl⟩ := List.getElem_of_mem member
    obtain ⟨p, at_, _⟩ := step.inSight k _ (List.getElem?_eq_getElem within)
    exact (List.getElem?_eq_some_iff.mp at_).1
  have names : ∀ name, (name ∉ ctes.map Cte.name) ↔ ∀ c ∈ ctes, c.name ≠ name := by
    intro name
    simp
  refine ⟨?_, ?_, ?_, ?_, ?_⟩
  · rw [List.pairwise_append]
    refine ⟨step.ordered, List.pairwise_lt_range', ?_⟩
    intro i left j right
    have := below i left
    have := (List.mem_range'_1.mp right).1
    omega
  · apply List.rel_append
    · apply step.seen.imp
      rintro i c ⟨p, at_, same⟩
      exact ⟨p, by rw [List.getElem?_append_left (List.getElem?_eq_some_iff.mp at_).1]; exact at_, same⟩
    · rw [List.forall₂_iff_get]
      refine ⟨by simp, ?_⟩
      intro k left right
      have within : k < (place scope.length places ctes).length := by rw [length_place]; exact right
      refine ⟨(place scope.length places ctes)[k], ?_, ?_⟩
      · rw [List.getElem?_append_right (by simp)]
        simp [within]
      · have := List.getElem_of_eq (map_place scope.length places ctes) (i := k) (by simpa using within)
        simpa using this
  · intro k i at_
    by_cases early : k < places.length
    · rw [List.getElem?_append_left early] at at_
      obtain ⟨p, found, same⟩ := step.inSight k i at_
      refine ⟨p, by rw [List.getElem?_append_left (List.getElem?_eq_some_iff.mp found).1]; exact found, ?_⟩
      rw [same, List.take_append_of_le_length (by omega)]
    · obtain ⟨k, rfl⟩ := Nat.exists_eq_add_of_le (Nat.not_lt.mp early)
      rw [List.getElem?_append_right (by omega), Nat.add_sub_cancel_left] at at_
      obtain ⟨short, rfl⟩ := List.getElem?_eq_some_iff.mp at_
      have within : k < (place scope.length places ctes).length := by
        rw [length_place]
        simpa using short
      refine ⟨(place scope.length places ctes)[k], ?_, ?_⟩
      · rw [List.getElem?_append_right (by simp)]
        simp [within]
      · rw [List.length_range'] at short
        rw [place_inSight (List.getElem?_eq_getElem within), List.take_length_add_append,
          List.take_range'_of_length_ge (by omega)]
  · intro name i found
    rw [List.map_append, map_place] at found
    rw [List.mem_filter, decide_eq_true_eq]
    by_cases own : name ∈ ctes.map Cte.name
    · have member : ∃ c ∈ ctes, c.name = name := by simpa using own
      obtain ⟨j, found', late⟩ := lastAt_append_of_mem (scope.map ScopedCte.cte) member
      cases found.symm.trans found'
      obtain ⟨c, at_, _⟩ := lastAt_lt found
      have short := (List.getElem?_eq_some_iff.mp at_).1
      rw [List.length_map] at late
      rw [List.length_append, List.length_map] at short
      simp only [own, not_true_eq_false, and_false, List.mem_append, List.mem_range'_1, false_iff, not_not]
      exact .inr ⟨late, short⟩
    · rw [lastAt_append_of_not_mem ((names name).mp own)] at found
      obtain ⟨c, at_, _⟩ := lastAt_lt found
      have short := (List.getElem?_eq_some_iff.mp at_).1
      rw [List.length_map] at short
      rw [step.hidden name i found, List.mem_append, List.mem_range'_1]
      simp only [own, not_false_eq_true, and_true]
      constructor
      · rintro out (inside | late)
        · exact out inside
        · omega
      · intro out inside
        exact out (.inl inside)
  · intro name member
    rw [List.mem_filter, decide_eq_true_eq] at member
    rw [List.map_append, map_place, lastAt_append_of_not_mem ((names name).mp member.2)]
    exact step.known name member.1

/-- A body is bound in the same scope, with less in sight: what it sees no longer, it must not ask for. -/
theorem InStep.enter {scope : List ScopedCte} {places : List Nat} {sight : List Cte} {masked : List String}
    (step : InStep scope places sight masked) {k : Nat} {c : Cte} (at_ : sight[k]? = some c) :
    InStep scope (places.take k) (sight.take k) (masked ++ (c :: sight.drop (k + 1)).map Cte.name) := by
  have lengths : places.length = sight.length := step.seen.length_eq
  have within : k < sight.length := (List.getElem?_eq_some_iff.mp at_).1
  have rest : c :: sight.drop (k + 1) = sight.drop k := by
    rw [List.drop_eq_getElem_cons within, (List.getElem?_eq_some_iff.mp at_).2]
  have named : ∀ j (inside : j < sight.length), ∃ p, scope[places[j]]? = some p ∧ p.cte = sight[j] :=
    fun j inside => step.seen.get (by omega) inside
  have last : ∀ j (inside : j < sight.length), ∃ i, lastAt (scope.map ScopedCte.cte) sight[j].name = some i ∧ places[j] ≤ i := by
    intro j inside
    obtain ⟨p, found, same⟩ := named j inside
    exact le_lastAt (by rw [List.getElem?_map, found, Option.map_some, same]) rfl
  rw [rest]
  refine ⟨step.ordered.sublist (List.take_sublist k places), ?_, ?_, ?_, ?_⟩
  · exact List.forall₂_take k step.seen
  · intro j i at_
    rw [List.getElem?_take] at at_
    split at at_
    · rename_i early
      obtain ⟨p, found, same⟩ := step.inSight j i at_
      exact ⟨p, found, by rw [same, List.take_take, Nat.min_eq_left (by omega)]⟩
    · cases at_
  · intro name i found
    rw [List.mem_append, step.hidden name i found]
    constructor
    · rintro (out | later) inside
      · exact out (List.mem_of_mem_take inside)
      · -- the last of that name is no earlier than one out of sight
        obtain ⟨d, member, rfl⟩ := List.mem_map.mp later
        obtain ⟨j, late, rfl⟩ := List.mem_drop_iff_getElem.mp member
        obtain ⟨m, early, rfl⟩ := List.mem_take_iff_getElem.mp inside
        obtain ⟨i, found', le⟩ := last (k + j) (by omega)
        cases found.symm.trans found'
        have less := List.pairwise_iff_getElem.mp step.ordered m (k + j) (by omega) (by omega) (by omega)
        omega
    · intro out
      by_contra none
      push Not at none
      obtain ⟨seen, unnamed⟩ := none
      obtain ⟨m, inside, rfl⟩ := List.getElem_of_mem seen
      have late : k ≤ m := by
        by_contra early
        exact out (List.mem_take_iff_getElem.mpr ⟨m, by omega, rfl⟩)
      obtain ⟨p, at_, same⟩ := named m (by omega)
      obtain ⟨c, at', named⟩ := lastAt_lt found
      rw [List.getElem?_map, at_, Option.map_some, same] at at'
      cases at'
      apply unnamed
      refine List.mem_map.mpr ⟨sight[m], ?_, named⟩
      obtain ⟨j, rfl⟩ := Nat.exists_eq_add_of_le late
      exact List.mem_drop_iff_getElem.mpr ⟨j, by omega, rfl⟩
  · intro name member
    rcases List.mem_append.mp member with member | member
    · exact step.known name member
    · obtain ⟨d, dropped, rfl⟩ := List.mem_map.mp member
      obtain ⟨j, late, rfl⟩ := List.mem_drop_iff_getElem.mp dropped
      obtain ⟨i, found, _⟩ := last (k + j) (by omega)
      rw [found]
      exact Option.some_ne_none _

/-- In sight, a name's last CTE is the one that is last in scope. -/
theorem InStep.lastAt_sight {scope : List ScopedCte} {places : List Nat} {sight : List Cte} {masked : List String}
    (step : InStep scope places sight masked) {name : String} (clear : name ∉ masked) :
    (lastAt (scope.map ScopedCte.cte) name = none ∧ lastAt sight name = none) ∨
      ∃ k i c p, lastAt (scope.map ScopedCte.cte) name = some i ∧ lastAt sight name = some k ∧ places[k]? = some i ∧
        sight[k]? = some c ∧ scope[i]? = some p ∧ p.cte = c ∧ p.inSight = places.take k := by
  have lengths : places.length = sight.length := step.seen.length_eq
  have named : ∀ j (inside : j < sight.length), ∃ p, scope[places[j]]? = some p ∧ p.cte = sight[j] :=
    fun j inside => step.seen.get (by omega) inside
  have above : ∀ (k : Nat) (c : Cte), sight[k]? = some c → c.name = name →
      ∃ i, lastAt (scope.map ScopedCte.cte) name = some i ∧ ∃ j, places[k]? = some j ∧ j ≤ i := by
    intro k c at_ same
    obtain ⟨within, rfl⟩ := List.getElem?_eq_some_iff.mp at_
    obtain ⟨p, found, cte⟩ := named k within
    have there : (scope.map ScopedCte.cte)[places[k]]? = some sight[k] := by
      rw [List.getElem?_map, found, Option.map_some, cte]
    obtain ⟨i, last, le⟩ := le_lastAt there same
    exact ⟨i, last, places[k], List.getElem?_eq_getElem (by omega), le⟩
  cases found : lastAt (scope.map ScopedCte.cte) name with
  | none =>
    refine .inl ⟨rfl, ?_⟩
    by_contra some_
    obtain ⟨k, found'⟩ := Option.ne_none_iff_exists'.mp some_
    obtain ⟨c, at_, same⟩ := lastAt_lt found'
    obtain ⟨i, last, _⟩ := above k c at_ same
    rw [found] at last
    cases last
  | some i =>
    have seen : i ∈ places := by
      by_contra out
      exact clear ((step.hidden name i found).mpr out)
    obtain ⟨k, inside, rfl⟩ := List.getElem_of_mem seen
    obtain ⟨p, at_, cte⟩ := named k (by omega)
    obtain ⟨c, at', same⟩ := lastAt_lt found
    rw [List.getElem?_map, at_, Option.map_some, cte] at at'
    cases at'
    obtain ⟨m, last, le⟩ := le_lastAt (List.getElem?_eq_getElem (show k < sight.length by omega)) same
    obtain ⟨d, atm, samem⟩ := lastAt_lt last
    obtain ⟨i, found', j, placed, le'⟩ := above m d atm samem
    cases found.symm.trans found'
    obtain ⟨inside', rfl⟩ := List.getElem?_eq_some_iff.mp placed
    have equal : m = k := by
      by_contra apart
      have := List.pairwise_iff_getElem.mp step.ordered k m inside inside' (by omega)
      omega
    subst equal
    obtain ⟨p', at'', visible⟩ := step.inSight m _ (List.getElem?_eq_getElem inside)
    cases at_.symm.trans at''
    exact .inr ⟨m, _, _, p, rfl, last, List.getElem?_eq_getElem inside, List.getElem?_eq_getElem (by omega), at_, cte,
      visible⟩

/-- The watched binding is the binding in sight, stopped at masked names. -/
theorem watch_eq_sight (fuel : Nat) (q : Query) {scope : List ScopedCte} {places : List Nat} {sight : List Cte}
    {masked : List String} (step : InStep scope places sight masked) :
    watchQueryWith C fuel q scope places = sightQueryWith C fuel q sight masked := by
  induction fuel generalizing q scope places sight masked with
  | zero => rfl
  | succ fuel ih =>
    have own := step.extend q.ctes
    unfold watchQueryWith sightQueryWith
    dsimp only
    congr 1
    · funext inner
      exact ih inner own
    · funext name
      by_cases hidden : name ∈ masked.filter fun n => n ∉ q.ctes.map Cte.name
      · obtain ⟨i, found⟩ := Option.ne_none_iff_exists'.mp (own.known name hidden)
        have out := (own.hidden name i found).mp hidden
        obtain ⟨c, at_, _⟩ := lastAt_lt found
        rw [List.getElem?_map] at at_
        obtain ⟨p, at_, _⟩ := Option.map_eq_some_iff.mp at_
        rw [if_pos hidden, found, Option.map_some, at_]
        simp only [out, if_false]
      · rw [if_neg hidden, cteScope_eq]
        rcases own.lastAt_sight hidden with ⟨none, none'⟩ | ⟨k, i, c, p, found, last, placed, at_, at', rfl, visible⟩
        · rw [none, none']
          rfl
        · rw [found, last, Option.map_some, Option.bind_some, at_, at']
          simp only [List.mem_of_getElem? placed, if_true, Option.map_some, visible]
          congr 1
          exact ih p.cte.query (own.enter at_)

end Lockstep

section Scoping

variable {σ ρ δ π : Type} (C : Clauses σ ρ δ π)

/-- Watching changes nothing but the stop at a capture. -/
theorem watch_erases (fuel : Nat) (q : Query) (scope : List ScopedCte) (places : List Nat) :
    Erases (watchQueryWith C fuel q scope places) (bindQueryWith C fuel q (scope.map ScopedCte.cte)) := by
  induction fuel generalizing q scope places with
  | zero =>
    intro s
    exact .inl rfl
  | succ fuel ih =>
    have names : (scope ++ place scope.length places q.ctes).map ScopedCte.cte = scope.map ScopedCte.cte ++ q.ctes := by
      rw [List.map_append, map_place]
    unfold watchQueryWith bindQueryWith
    dsimp only
    rw [← names]
    apply bindBody_rel erases_congruent
    · intro name
      dsimp only
      rw [lastCte_eq]
      cases found : lastAt ((scope ++ place scope.length places q.ctes).map ScopedCte.cte) name with
      | none => exact .none
      | some i =>
        obtain ⟨c, at_, _⟩ := lastAt_lt found
        rw [List.getElem?_map] at at_
        obtain ⟨p, at', rfl⟩ := Option.map_eq_some_iff.mp at_
        rw [Option.map_some, Option.bind_some, List.getElem?_map, at', Option.map_some, Option.map_some]
        apply Option.Rel.some
        dsimp only
        split
        · exact ih _ _ _
        · intro s
          exact .inr (.inl ⟨name, rfl⟩)
    · intro inner _
      exact ih inner _ _

/-- What a binding in sight still has before it. -/
noncomputable def remaining (q : Query) (sight : List Cte) : Nat := sizeOf q + (sight.map sizeOf).sum

theorem sum_sizeOf_le (ctes : List Cte) : (ctes.map sizeOf).sum ≤ sizeOf ctes := by
  induction ctes with
  | nil => simp
  | cons c rest ih =>
    rw [List.map_cons, List.sum_cons, List.cons.sizeOf_spec]
    omega

theorem bindBody_fed {ε : Type} (error : SqlError → ε) {nested : Query → Binding (BindState σ) ε π}
    {resolve : String → Option (Binding (BindState σ) ε π)} (names : ∀ name b, resolve name = some b → Fed b) (q : Query)
    (inner : ∀ q', sizeOf q' + sizeOf q.ctes < sizeOf q → Fed (nested q')) :
    Fed (bindBody C error nested resolve q) := by
  have same : SameMeaning (fun {α} (b b' : Binding (BindState σ) ε α) => BothFed b b') resolve resolve := by
    intro name
    cases found : resolve name with
    | none => exact .none
    | some b => exact .some ⟨names name b found, names name b found⟩
  have both : BothFed (bindBody C error nested resolve q) (bindBody C error nested resolve q) :=
    bindBody_rel (fed_congruent error) same q fun q' small => ⟨inner q' small, inner q' small⟩
  exact both.1

/-- A body is smaller than the CTEs in sight of its reference, so binding in sight ends. -/
theorem sight_fed (fuel : Nat) (q : Query) (sight : List Cte) (masked : List String) (enough : remaining q sight < fuel) :
    Fed (sightQueryWith C fuel q sight masked) := by
  induction fuel generalizing q sight masked with
  | zero => omega
  | succ fuel ih =>
    have own := sum_sizeOf_le q.ctes
    have part : sizeOf q.ctes < sizeOf q := by
      cases q
      simp only [Query.ctes, Query.mk.sizeOf_spec]
      omega
    unfold remaining at enough ih
    unfold sightQueryWith
    apply bindBody_fed
    · intro name b meant
      split at meant
      · cases meant
        exact fun s => Option.some_ne_none _
      · rw [cteScope_eq] at meant
        obtain ⟨⟨before, c, after⟩, found, rfl⟩ := Option.map_eq_some_iff.mp meant
        obtain ⟨k, _, found⟩ := Option.bind_eq_some_iff.mp found
        obtain ⟨d, at_, same⟩ := Option.map_eq_some_iff.mp found
        cases same
        obtain ⟨within, rfl⟩ := List.getElem?_eq_some_iff.mp at_
        apply ih
        have parts := congrArg (fun l => (l.map sizeOf).sum) (List.take_append_drop k (sight ++ q.ctes))
        rw [List.drop_eq_getElem_cons within] at parts
        simp only [List.map_append, List.map_cons, List.sum_append, List.sum_cons] at parts
        have body : sizeOf (sight ++ q.ctes)[k].query < sizeOf (sight ++ q.ctes)[k] := by
          cases (sight ++ q.ctes)[k]
          simp only [Cte.query, Cte.mk.sizeOf_spec]
          omega
        omega
    · intro inner small
      apply ih
      rw [List.map_append, List.sum_append]
      omega

theorem sight_endsAlike (fuel : Nat) (q : Query) (sight : List Cte) (masked : List String) :
    EndsAlike (sightQueryWith C fuel q sight masked) (sightQueryWith C (fuel + 1) q sight masked) := by
  induction fuel generalizing q sight masked with
  | zero =>
    intro s ended
    exact absurd rfl ended
  | succ fuel ih =>
    rw [sightQueryWith, sightQueryWith]
    apply bindBody_rel (endsAlike_congruent Stop.error)
    · intro name
      dsimp only
      split
      · exact .some fun s _ => rfl
      · cases cteScope (sight ++ q.ctes) name with
        | none => exact .none
        | some found => exact .some (ih _ _ _)
    · intro inner _
      exact ih inner _ _

theorem sight_of_le {fuel fuel' : Nat} (le : fuel ≤ fuel') {q : Query} {sight : List Cte} {masked : List String}
    {s : BindState σ} {r : Except Stop (π × BindState σ)} (ended : sightQueryWith C fuel q sight masked s = some r) :
    sightQueryWith C fuel' q sight masked s = some r := by
  induction le with
  | refl => exact ended
  | @step m _ ih => rw [sight_endsAlike C m q sight masked s (by rw [ih]; exact Option.some_ne_none _), ih]

theorem inStep_nil : InStep [] [] [] [] where
  ordered := .nil
  seen := .nil
  inSight := by
    intro k i at_
    cases at_
  hidden := by
    intro name i found
    cases found
  known := by
    intro name member
    cases member

end Scoping

section SelfReference

def fromTable (name : String) : SelectBody := .select (.mk false [.wildcard] [.mk (.table ⟨none, name⟩ none) []] none [] none)

/-- `SELECT * FROM a`. -/
def selectA : Query := .mk [] [fromTable "a"] [] none none

/-- `WITH a AS (SELECT * FROM a) SELECT * FROM a`. -/
def selfReference : Query := .mk [.mk "a" selectA] [fromTable "a"] [] none none

/-- Every table exists and every clause binds. -/
def anyClauses : Clauses Unit Unit Unit Unit where
  defaultDb := "main"
  exists? _ _ := true
  scan _ _ _ _ := ()
  wrap _ _ _ := ()
  joinOn _ _ _ s := .ok ((), s)
  noFrom := ()
  select _ _ s := .ok ((), s)
  ofPlan _ := ()
  finalizeBranch _ s := .ok ((), s)
  unionAll _ s := .ok ((), s)
  finish _ _ s := .ok ((), s)

theorem fromTable_starves {nested : Query → Binding (BindState Unit) SqlError Unit}
    {resolve : String → Option (Binding (BindState Unit) SqlError Unit)} {b : Binding (BindState Unit) SqlError Unit}
    {ctes : List Cte} {s : BindState Unit} (meant : resolve "a" = some b) (starved : b s = none) :
    bindBody anyClauses id nested resolve (.mk ctes [fromTable "a"] [] none none) s = none := by
  have item : bindTableRef anyClauses id nested resolve (.table ⟨none, "a"⟩ none) s = none := by
    unfold bindTableRef
    simp only [Option.isNone_none, if_true, meant]
    rw [Binding.bind_run, starved]
    rfl
  have select : bindSelect anyClauses id nested resolve
      (.mk false [.wildcard] [.mk (.table ⟨none, "a"⟩ none) []] none [] none) s = none := by
    simp only [bindSelect, Select.source, bindFromItem, FromItem.table]
    rw [Binding.bind_run, Binding.bind_run, item]
    rfl
  simp only [bindBody, Query.body, bindSetExpr, fromTable, bindSelectBody]
  rw [Binding.bind_run, select]
  rfl

theorem selectA_starves (fuel : Nat) (s : BindState Unit) :
    bindQueryWith anyClauses fuel selectA [.mk "a" selectA] s = none := by
  induction fuel generalizing s with
  | zero => rfl
  | succ fuel ih => exact fromTable_starves rfl (ih s)

end SelfReference

end Adelie
