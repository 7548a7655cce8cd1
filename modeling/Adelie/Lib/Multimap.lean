import Mathlib

namespace Adelie

variable {κ α β : Type} [DecidableEq κ]

/-- Keys with everything pushed under each, in the order pushed. -/
abbrev Multimap (κ α : Type) := List (κ × List α)

namespace Multimap

def push : Multimap κ α → κ → α → Multimap κ α
  | [], k, x => [(k, [x])]
  | (l, xs) :: rest, k, x => if l = k then (l, xs ++ [x]) :: rest else (l, xs) :: push rest k x

def get? (m : Multimap κ α) (k : κ) : Option (List α) := (m.find? fun p => p.1 = k).map Prod.snd

theorem get?_push (m : Multimap κ α) (k l : κ) (x : α) :
    (m.push k x).get? l = if k = l then some ((m.get? l).getD [] ++ [x]) else m.get? l := by
  induction m with
  | nil => by_cases same : k = l <;> simp [push, get?, same]
  | cons p rest ih =>
    obtain ⟨o, xs⟩ := p
    by_cases here : o = k
    · subst here
      by_cases same : o = l <;> simp [push, get?, same]
    · by_cases same : o = l
      · subst same
        simp [push, get?, here, Ne.symm here]
      · simp only [push, here, if_false, get?, List.find?_cons, same, decide_false] at ih ⊢
        exact ih

/-- Every element under its key, where it has one. -/
def group (key : β → Option κ) (id : β → α) (l : List β) : Multimap κ α :=
  l.foldl (fun m x => match key x with
    | some k => m.push k (id x)
    | none => m) []

/-- A key's entry holds the elements with that key, in order; there is none where no element has it. -/
theorem get?_group (key : β → Option κ) (id : β → α) (l : List β) (k : κ) :
    (group key id l).get? k =
      if (l.filter fun x => key x = some k).isEmpty then none
      else some ((l.filter fun x => key x = some k).map id) := by
  induction l using List.reverseRecOn with
  | nil => rfl
  | append_singleton l x ih =>
    simp only [group, List.foldl_append, List.foldl_cons, List.foldl_nil, List.filter_append] at ih ⊢
    cases here : key x with
    | none => simpa [here] using ih
    | some o =>
      simp only [get?_push, ih]
      by_cases same : o = k
      · subst same
        by_cases first : (l.filter fun x => key x = some o) = []
        · simp [here, first]
        · simp [here, first]
      · simp [here, same]

end Multimap

end Adelie
