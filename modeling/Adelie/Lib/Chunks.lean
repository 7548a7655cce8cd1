import Mathlib

namespace Adelie

variable {α β : Type}

/-- Pieces of `n`, the last as long as what is left. -/
def chunksIn (n : Nat) : Nat → List α → List (List α)
  | 0, _ => []
  | fuel + 1, l => if l = [] then [] else l.take n :: chunksIn n fuel (l.drop n)

def chunks (n : Nat) (l : List α) : List (List α) := chunksIn n l.length l

theorem flatten_chunksIn {n : Nat} (pos : 0 < n) (fuel : Nat) (l : List α) (enough : l.length ≤ fuel) :
    (chunksIn n fuel l).flatten = l := by
  induction fuel generalizing l with
  | zero =>
    rw [List.eq_nil_of_length_eq_zero (Nat.le_zero.mp enough)]
    rfl
  | succ fuel ih =>
    rw [chunksIn]
    split
    · subst l
      rfl
    · rw [List.flatten_cons, ih _ (by rw [List.length_drop]; omega), List.take_append_drop]

theorem flatten_chunks {n : Nat} (pos : 0 < n) (l : List α) : (chunks n l).flatten = l :=
  flatten_chunksIn pos _ l le_rfl

theorem chunksIn_map (f : α → β) (n fuel : Nat) (l : List α) :
    chunksIn n fuel (l.map f) = (chunksIn n fuel l).map (List.map f) := by
  induction fuel generalizing l with
  | zero => rfl
  | succ fuel ih =>
    by_cases none : l = []
    · simp [chunksIn, none]
    · simp [chunksIn, none, ← List.map_take, ← List.map_drop, ih]

theorem chunks_map (f : α → β) (n : Nat) (l : List α) : chunks n (l.map f) = (chunks n l).map (List.map f) := by
  rw [chunks, chunks, List.length_map, chunksIn_map]

theorem ne_nil_of_mem_chunks {n : Nat} (pos : 0 < n) {l piece : List α} (member : piece ∈ chunks n l) : piece ≠ [] := by
  suffices general : ∀ (fuel : Nat) (l : List α), piece ∈ chunksIn n fuel l → piece ≠ [] from general _ l member
  intro fuel
  induction fuel with
  | zero => intro l member; cases member
  | succ fuel ih =>
    intro l member
    rw [chunksIn] at member
    split at member
    · cases member
    · rename_i some
      rcases List.mem_cons.mp member with rfl | member
      · simp [some]
        omega
      · exact ih _ member

end Adelie
