import Adelie.Lib.Traverse

namespace Adelie

section Batch

variable {σ ι ε : Type} (step : σ → ι → Except ε σ)

/-- The states a batch passes through, each after the input that led to it, up to a refusal. -/
def visited (s : σ) : List ι → List (ι × σ)
  | [] => []
  | i :: rest =>
    match step s i with
    | .ok s' => (i, s') :: visited s' rest
    | .error _ => []

/-- Every input of a batch meets `P` in the state it is applied to. -/
def Supplied (P : σ → ι → Prop) (s : σ) : List ι → Prop
  | [] => True
  | i :: rest => P s i ∧ ∀ s', step s i = .ok s' → Supplied P s' rest

variable {step} {P : σ → ι → Prop}

instance decidableSupplied [∀ s i, Decidable (P s i)] (s : σ) (inputs : List ι) :
    Decidable (Supplied step P s inputs) :=
  match inputs with
  | [] => isTrue True.intro
  | i :: rest =>
    match stepped : step s i with
    | .ok s' =>
      have := decidableSupplied s' rest
      decidable_of_iff (P s i ∧ Supplied step P s' rest) (by simp [Supplied, stepped])
    | .error _ => decidable_of_iff (P s i) (by simp [Supplied, stepped])

theorem Supplied.mono {Q : σ → ι → Prop} (weaker : ∀ s i, P s i → Q s i) {s : σ} {inputs : List ι}
    (supplied : Supplied step P s inputs) : Supplied step Q s inputs := by
  induction inputs generalizing s with
  | nil => exact True.intro
  | cons i rest ih => exact ⟨weaker s i supplied.1, fun s' stepped => ih (supplied.2 s' stepped)⟩

theorem supplied_all (step : σ → ι → Except ε σ) (s : σ) (inputs : List ι) :
    Supplied step (fun _ _ => True) s inputs := by
  induction inputs generalizing s with
  | nil => exact True.intro
  | cons i rest ih => exact ⟨True.intro, fun s' _ => ih s'⟩

theorem Supplied.concat {s : σ} {inputs : List ι} {i : ι} (supplied : Supplied step P s inputs)
    (last : ∀ s, P s i) : Supplied step P s (inputs ++ [i]) := by
  induction inputs generalizing s with
  | nil => exact ⟨last s, fun _ _ => True.intro⟩
  | cons j rest ih => exact ⟨supplied.1, fun s' stepped => ih (supplied.2 s' stepped)⟩

/-- What one step keeps, of the state and of the steps so far, a whole accepted batch keeps. -/
theorem batch_trace_invariant (Inv : List (ι × σ) → σ → Prop)
    (keeps : ∀ trace s i s', P s i → Inv trace s → step s i = .ok s' → Inv (trace ++ [(i, s')]) s')
    (trace : List (ι × σ)) {s s' : σ} {inputs : List ι} (supplied : Supplied step P s inputs)
    (holds : Inv trace s) (ran : inputs.foldlM step s = .ok s') :
    Inv (trace ++ visited step s inputs) s' := by
  induction inputs generalizing s trace with
  | nil =>
    cases ran
    simpa [visited] using holds
  | cons i rest ih =>
    rw [List.foldlM_cons] at ran
    obtain ⟨mid, stepped, ran⟩ := Except.bind_eq_ok.mp ran
    have next := keeps trace s i mid supplied.1 holds stepped
    have all := ih _ (supplied.2 mid stepped) next ran
    rw [List.append_assoc, List.singleton_append] at all
    simpa only [visited, stepped] using all

theorem batch_invariant (Inv : σ → Prop)
    (keeps : ∀ s i s', P s i → Inv s → step s i = .ok s' → Inv s') {s s' : σ} {inputs : List ι}
    (supplied : Supplied step P s inputs) (holds : Inv s) (ran : inputs.foldlM step s = .ok s') :
    Inv s' :=
  batch_trace_invariant (fun _ => Inv) (fun _ => keeps) [] supplied holds ran

/-- Where a step always succeeds and keeps the invariant, so does a batch. -/
theorem batch_succeeds (Inv : σ → Prop) (progress : ∀ s i, P s i → Inv s → ∃ s', step s i = .ok s' ∧ Inv s')
    {s : σ} {inputs : List ι} (supplied : Supplied step P s inputs) (holds : Inv s) :
    ∃ s', inputs.foldlM step s = .ok s' ∧ Inv s' := by
  induction inputs generalizing s with
  | nil => exact ⟨s, rfl, holds⟩
  | cons i rest ih =>
    obtain ⟨mid, stepped, kept⟩ := progress s i supplied.1 holds
    obtain ⟨last, ran, holds⟩ := ih (supplied.2 mid stepped) kept
    exact ⟨last, by rw [List.foldlM_cons, stepped]; exact ran, holds⟩

/-- What an invariant gives at each step, every input of the batch has. -/
theorem Supplied.of_invariant {Q : σ → ι → Prop} (Inv : σ → Prop)
    (keeps : ∀ s i s', P s i → Inv s → step s i = .ok s' → Inv s') (gives : ∀ s i, P s i → Inv s → Q s i)
    {s : σ} {inputs : List ι} (holds : Inv s) (supplied : Supplied step P s inputs) : Supplied step Q s inputs := by
  induction inputs generalizing s with
  | nil => exact True.intro
  | cons i rest ih =>
    refine ⟨gives s i supplied.1 holds, ?_⟩
    intro s' stepped
    exact ih (keeps s i s' supplied.1 holds stepped) (supplied.2 s' stepped)

end Batch

end Adelie
