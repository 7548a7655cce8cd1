import Mathlib

namespace Adelie

variable {α β ε : Type}

/-- A traversal that succeeds has succeeded on every element, in order. -/
theorem forall₂_of_mapM_option {f : α → Option β} :
    ∀ {l : List α} {r : List β}, l.mapM f = some r → List.Forall₂ (fun a b => f a = some b) l r
  | [], r, mapped => by
    simp only [List.mapM_nil, Option.pure_def, Option.some.injEq] at mapped
    subst mapped
    exact .nil
  | a :: l, r, mapped => by
    simp only [List.mapM_cons, Option.pure_def, Option.bind_eq_bind, Option.bind_eq_some_iff,
      Option.some.injEq] at mapped
    obtain ⟨b, head, rest, tail, rfl⟩ := mapped
    exact .cons head (forall₂_of_mapM_option tail)

theorem forall₂_of_mapM_except {f : α → Except ε β} :
    ∀ {l : List α} {r : List β}, l.mapM f = .ok r → List.Forall₂ (fun a b => f a = .ok b) l r
  | [], r, mapped => by
    simp only [List.mapM_nil, pure, Except.pure, Except.ok.injEq] at mapped
    subst mapped
    exact .nil
  | a :: l, r, mapped => by
    rw [List.mapM_cons] at mapped
    cases head : f a with
    | error e => rw [head] at mapped; cases mapped
    | ok b =>
      cases tail : l.mapM f with
      | error e => rw [head, tail] at mapped; cases mapped
      | ok rest =>
        rw [head, tail] at mapped
        cases mapped
        exact .cons head (forall₂_of_mapM_except tail)

theorem mapM_except_of_forall₂ {f : α → Except ε β} {l : List α} {r : List β}
    (each : List.Forall₂ (fun a b => f a = .ok b) l r) : l.mapM f = .ok r := by
  induction each with
  | nil => rfl
  | cons head _ tail => rw [List.mapM_cons, head, tail]; rfl

/-- Where every result is known, so are all. -/
theorem eq_map_of_mapM {f : α → Except ε β} {g : α → β} {l : List α} {r : List β} (made : l.mapM f = .ok r)
    (each : ∀ x ∈ l, ∀ y, f x = .ok y → y = g x) : r = l.map g := by
  have all := forall₂_of_mapM_except made
  clear made
  induction all with
  | nil => rfl
  | @cons x y l r head _ tail =>
    rw [List.map_cons, each x (.head _) y head, tail fun z member => each z (.tail _ member)]

/-- Where what is read of every result is known, so is what is read of all. -/
theorem map_of_mapM {γ : Type} {f : α → Except ε β} {g : β → γ} {h : α → γ} {l : List α} {r : List β}
    (made : l.mapM f = .ok r) (each : ∀ x ∈ l, ∀ y, f x = .ok y → g y = h x) : r.map g = l.map h := by
  have all := forall₂_of_mapM_except made
  clear made
  induction all with
  | nil => rfl
  | @cons x y l r head _ tail =>
    rw [List.map_cons, List.map_cons, each x (.head _) y head, tail fun z member => each z (.tail _ member)]

theorem map_eq_map_ok {f : α → Except ε β} {l : List α} {r : List β} (made : l.mapM f = .ok r) :
    l.map f = r.map .ok := by
  have all := forall₂_of_mapM_except made
  clear made
  induction all with
  | nil => rfl
  | cons head _ tail => rw [List.map_cons, List.map_cons, head, tail]

theorem getElem?_of_mapM {f : α → Except ε β} {l : List α} {r : List β} (made : l.mapM f = .ok r) {i : Nat} {y : β}
    (at_ : r[i]? = some y) : ∃ x, l[i]? = some x ∧ f x = .ok y := by
  have each := forall₂_of_mapM_except made
  obtain ⟨within, rfl⟩ := List.getElem?_eq_some_iff.mp at_
  have inside : i < l.length := by rw [each.length_eq]; exact within
  exact ⟨l[i], List.getElem?_eq_getElem inside, each.get inside within⟩

theorem exists_of_mapM_error {f : α → Except ε β} {l : List α} {e : ε} (refused : l.mapM f = .error e) :
    ∃ x ∈ l, f x = .error e := by
  induction l with
  | nil => cases refused
  | cons x rest ih =>
    rw [List.mapM_cons] at refused
    cases here : f x with
    | error e' =>
      rw [here] at refused
      cases refused
      exact ⟨x, .head _, here⟩
    | ok y =>
      rw [here] at refused
      cases later : rest.mapM f with
      | error e' =>
        simp only [later, bind, Except.bind] at refused
        cases refused
        obtain ⟨z, member, failed⟩ := ih later
        exact ⟨z, .tail _ member, failed⟩
      | ok ys =>
        simp only [later, bind, Except.bind] at refused
        cases refused

theorem exists_mapM_eq_ok {f : α → Except ε β} {l : List α} (each : ∀ x ∈ l, ∃ y, f x = .ok y) :
    ∃ r, l.mapM f = .ok r := by
  induction l with
  | nil => exact ⟨[], rfl⟩
  | cons x rest ih =>
    obtain ⟨y, head⟩ := each x (.head _)
    obtain ⟨r, tail⟩ := ih fun z member => each z (.tail _ member)
    exact ⟨y :: r, by rw [List.mapM_cons, head, tail]; rfl⟩

/-- The elements of a successful traversal come from elements of its list. -/
theorem List.Forall₂.source {R : α → β → Prop} {l : List α} {r : List β} (all : List.Forall₂ R l r)
    {b : β} (member : b ∈ r) : ∃ a ∈ l, R a b := by
  induction all with
  | nil => cases member
  | cons head _ tail =>
    cases member with
    | head => exact ⟨_, .head _, head⟩
    | tail _ member =>
      obtain ⟨a, inside, related⟩ := tail member
      exact ⟨a, .tail _ inside, related⟩

theorem List.Forall₂.image {R : α → β → Prop} {l : List α} {r : List β} (all : List.Forall₂ R l r)
    {a : α} (member : a ∈ l) : ∃ b ∈ r, R a b := by
  obtain ⟨b, inside, related⟩ := List.Forall₂.source all.flip member
  exact ⟨b, inside, related⟩

/-- Peels one step off a fallible computation. -/
theorem Except.bind_eq_ok {γ : Type} {x : Except ε β} {f : β → Except ε γ} {r : γ} :
    (x >>= f) = .ok r ↔ ∃ b, x = .ok b ∧ f b = .ok r := by
  cases x with
  | error e => exact ⟨nofun, nofun⟩
  | ok b => exact ⟨fun h => ⟨b, rfl, h⟩, fun ⟨_, same, h⟩ => by cases same; exact h⟩

/-- A check of a fallible computation: it goes on only where the test holds. -/
def ensure (test : Bool) (e : ε) : Except ε Unit := if test then .ok () else .error e

theorem mapError_eq_ok {ε' : Type} {x : Except ε α} {f : ε → ε'} {a : α} (made : x.mapError f = .ok a) : x = .ok a := by
  cases x with
  | ok b =>
    cases made
    rfl
  | error e => cases made

theorem ensure_eq_ok {test : Bool} {e : ε} {u : Unit} : ensure test e = .ok u ↔ test = true := by
  unfold ensure
  split <;> simp_all

/-- A loop of checks passes where each of them does. -/
theorem forM_eq_ok {f : α → Except ε Unit} {l : List α} {u : Unit} : l.forM f = .ok u ↔ ∀ x ∈ l, f x = .ok () := by
  induction l with
  | nil => exact ⟨fun _ => nofun, fun _ => rfl⟩
  | cons x rest ih =>
    change (f x >>= fun _ => rest.forM f) = _ ↔ _
    rw [Except.bind_eq_ok, List.forall_mem_cons]
    exact ⟨fun ⟨_, head, tail⟩ => ⟨head, ih.mp tail⟩, fun ⟨head, tail⟩ => ⟨(), head, ih.mpr tail⟩⟩

/-- What one step of a fold keeps, with the part of the list already passed, the fold keeps. -/
theorem foldl_prefix_invariant {σ : Type} (step : σ → α → σ) (Inv : List α → σ → Prop) {whole : List α}
    (keeps : ∀ done a rest s, whole = done ++ a :: rest → Inv done s → Inv (done ++ [a]) (step s a))
    {s : σ} (holds : Inv [] s) : Inv whole (whole.foldl step s) := by
  suffices walked : ∀ done rest s, whole = done ++ rest → Inv done s → Inv whole (rest.foldl step s) from
    walked [] whole s rfl holds
  intro done rest
  induction rest generalizing done with
  | nil =>
    intro s split_ holds
    rw [List.append_nil] at split_
    rwa [← split_] at holds
  | cons a rest ih =>
    intro s split_ holds
    exact ih (done ++ [a]) (step s a) (by simp [split_]) (keeps done a rest s split_ holds)

def firstRepeatFrom [DecidableEq α] (seen : List α) : List α → Option α
  | [] => none
  | x :: xs => if x ∈ seen then some x else firstRepeatFrom (x :: seen) xs

/-- The first element that stands earlier in the list too. -/
def firstRepeat [DecidableEq α] (l : List α) : Option α := firstRepeatFrom [] l

theorem firstRepeatFrom_eq_none [DecidableEq α] {seen l : List α} (once : firstRepeatFrom seen l = none) :
    l.Nodup ∧ ∀ x ∈ l, x ∉ seen := by
  induction l generalizing seen with
  | nil => exact ⟨.nil, nofun⟩
  | cons x xs ih =>
    unfold firstRepeatFrom at once
    split at once
    · cases once
    · rename_i fresh
      obtain ⟨nodup, apart⟩ := ih once
      refine ⟨List.nodup_cons.mpr ⟨fun member => apart x member (.head _), nodup⟩, ?_⟩
      intro y member
      rcases List.mem_cons.mp member with rfl | member
      · exact fresh
      · exact fun inside => apart y member (.tail _ inside)

theorem nodup_of_firstRepeat [DecidableEq α] {l : List α} (once : firstRepeat l = none) : l.Nodup :=
  (firstRepeatFrom_eq_none once).1

end Adelie
