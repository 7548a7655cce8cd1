import Mathlib

namespace Adelie

section Runs

variable {α : Type} [DecidableEq α] {runs : List (α × Nat)} {v : List α} {x : α}

/-- A value joins the last run when it is that run's, and else begins one. -/
def pushRun (runs : List (α × Nat)) (x : α) : List (α × Nat) :=
  match runs.getLast? with
  | some (last, len) => if last = x then runs.dropLast ++ [(last, len + 1)] else runs ++ [(x, 1)]
  | none => runs ++ [(x, 1)]

/-- Maximal runs of equal values, in order. -/
def runLengths (v : List α) : List (α × Nat) := v.foldl pushRun []

def expand {α : Type} (runs : List (α × Nat)) : List α := runs.flatMap fun r => List.replicate r.2 r.1

omit [DecidableEq α] in
theorem expand_append (a b : List (α × Nat)) : expand (a ++ b) = expand a ++ expand b := List.flatMap_append

omit [DecidableEq α] in
theorem expand_one (x : α) (n : Nat) : expand [(x, n)] = List.replicate n x := by simp [expand]

theorem expand_pushRun (runs : List (α × Nat)) (x : α) : expand (pushRun runs x) = expand runs ++ [x] := by
  unfold pushRun
  split
  · rename_i last len found
    obtain ⟨init, rfl⟩ : ∃ init, runs = init ++ [(last, len)] := ⟨_, (List.dropLast_append_getLast? _ found).symm⟩
    split
    · rename_i same
      rw [List.dropLast_concat, expand_append, expand_append, expand_one, expand_one, List.replicate_succ', same,
        List.append_assoc]
    · rw [expand_append _ [(x, 1)], expand_one]
      rfl
  · rw [expand_append, expand_one]
    rfl

theorem pushRun_pos (pos : ∀ r ∈ runs, 0 < r.2) : ∀ r ∈ pushRun runs x, 0 < r.2 := by
  intro r member
  unfold pushRun at member
  split at member
  · split at member
    · rcases List.mem_append.mp member with member | member
      · exact pos r (List.mem_of_mem_dropLast member)
      · rw [List.mem_singleton.mp member]
        exact Nat.succ_pos _
    · rcases List.mem_append.mp member with member | member
      · exact pos r member
      · rw [List.mem_singleton.mp member]
        exact Nat.one_pos
  · rcases List.mem_append.mp member with member | member
    · exact pos r member
    · rw [List.mem_singleton.mp member]
      exact Nat.one_pos

theorem foldl_pushRun (v : List α) (pos : ∀ r ∈ runs, 0 < r.2) :
    expand (v.foldl pushRun runs) = expand runs ++ v ∧ ∀ r ∈ v.foldl pushRun runs, 0 < r.2 := by
  induction v generalizing runs with
  | nil => exact ⟨(List.append_nil _).symm, pos⟩
  | cons x rest ih =>
    obtain ⟨whole, each⟩ := ih (pushRun_pos pos (x := x))
    refine ⟨?_, each⟩
    rw [List.foldl_cons, whole, expand_pushRun, List.append_assoc]
    rfl

theorem expand_runLengths (v : List α) : expand (runLengths v) = v := (foldl_pushRun v (by simp)).1

theorem runLengths_pos : ∀ r ∈ runLengths v, 0 < r.2 := (foldl_pushRun v (by simp)).2

omit [DecidableEq α] in
theorem length_expand (runs : List (α × Nat)) : (expand runs).length = (runs.map Prod.snd).sum := by
  simp [expand, List.length_flatMap]

omit [DecidableEq α] in
theorem length_le_expand (pos : ∀ r ∈ runs, 0 < r.2) : runs.length ≤ (expand runs).length := by
  rw [length_expand]
  have each : ∀ n ∈ runs.map Prod.snd, 1 ≤ n := by
    rw [List.forall_mem_map]
    exact pos
  simpa using List.length_le_sum_of_one_le _ each

/-- Values of runs are values of the list. -/
theorem runLengths_mem {r : α × Nat} (member : r ∈ runLengths v) : r.1 ∈ v := by
  have inside : r.1 ∈ expand (runLengths v) :=
    List.mem_flatMap.mpr ⟨r, member, List.mem_replicate.mpr ⟨(runLengths_pos r member).ne', rfl⟩⟩
  rwa [expand_runLengths] at inside

end Runs

section Toggled

variable {state : Bool} {runs : List Nat} {run : Nat}

/-- Bits in runs that alternate, the first run of `state`. -/
def toggled : Bool → List Nat → List Bool
  | _, [] => []
  | state, r :: rest => List.replicate r state ++ toggled (!state) rest

/-- What the runs read so far turn the state to. -/
def turned (state : Bool) (runs : List Nat) : Bool := runs.foldl (fun s _ => !s) state

theorem turned_concat (state : Bool) (runs : List Nat) (run : Nat) : turned state (runs ++ [run]) = !turned state runs := by
  simp [turned]

theorem toggled_concat (state : Bool) (runs : List Nat) (run : Nat) :
    toggled state (runs ++ [run]) = toggled state runs ++ List.replicate run (turned state runs) := by
  induction runs generalizing state with
  | nil => simp [toggled, turned]
  | cons r rest ih =>
    rw [List.cons_append, toggled, toggled, ih, List.append_assoc]
    rfl

theorem length_toggled (state : Bool) (runs : List Nat) : (toggled state runs).length = runs.sum := by
  induction runs generalizing state with
  | nil => rfl
  | cons r rest ih => rw [toggled, List.length_append, List.length_replicate, ih, List.sum_cons]

/-- One more bit: the run goes on, or the next begins. -/
def toggleStep (acc : List Nat × Bool × Nat) (bit : Bool) : List Nat × Bool × Nat :=
  if bit = acc.2.1 then (acc.1, acc.2.1, acc.2.2 + 1) else (acc.1 ++ [acc.2.2], !acc.2.1, 1)

/-- The runs of bits, the first of set ones. -/
def toggleRuns (bits : List Bool) : List Nat :=
  let acc := bits.foldl toggleStep ([], true, 0)
  acc.1 ++ [acc.2.2]

theorem foldl_toggleStep (bits : List Bool) {acc : List Nat × Bool × Nat} (at_ : acc.2.1 = turned true acc.1) :
    toggled true ((bits.foldl toggleStep acc).1 ++ [(bits.foldl toggleStep acc).2.2]) =
      toggled true (acc.1 ++ [acc.2.2]) ++ bits ∧
      (bits.foldl toggleStep acc).1.length ≤ acc.1.length + bits.length := by
  induction bits generalizing acc with
  | nil => exact ⟨(List.append_nil _).symm, Nat.le_refl _⟩
  | cons bit rest ih =>
    obtain ⟨runs, state, run⟩ := acc
    dsimp only at at_
    subst at_
    rw [List.foldl_cons, toggleStep]
    by_cases same : bit = turned true runs
    · rw [if_pos same]
      obtain ⟨whole, short⟩ := @ih (runs, turned true runs, run + 1) rfl
      refine ⟨?_, ?_⟩
      · rw [whole, toggled_concat, toggled_concat, List.replicate_succ', same]
        simp
      · dsimp only at short ⊢
        rw [List.length_cons]
        omega
    · rw [if_neg same]
      have other : bit = !turned true runs := by
        exact Bool.eq_not_of_ne same
      obtain ⟨whole, short⟩ := @ih (runs ++ [run], !turned true runs, 1) (turned_concat _ _ _).symm
      refine ⟨?_, ?_⟩
      · rw [whole, toggled_concat _ (runs ++ [run]), turned_concat, other]
        simp
      · dsimp only at short ⊢
        rw [List.length_append, List.length_singleton] at short
        rw [List.length_cons]
        omega

theorem toggled_toggleRuns (bits : List Bool) : toggled true (toggleRuns bits) = bits := by
  have whole := (@foldl_toggleStep bits ([], true, 0) rfl).1
  rw [toggleRuns]
  simpa [toggled] using whole

theorem length_toggleRuns (bits : List Bool) : (toggleRuns bits).length ≤ bits.length + 1 := by
  have short := (@foldl_toggleStep bits ([], true, 0) rfl).2
  rw [toggleRuns, List.length_append, List.length_singleton]
  simpa using short

end Toggled

end Adelie
