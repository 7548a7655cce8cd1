import Mathlib

namespace Adelie

/-- The offsets of rows of these lengths laid out one after another: where each starts, and last where all end. -/
def sums (lengths : List Nat) : List Nat := (List.range (lengths.length + 1)).map fun i => (lengths.take i).sum

section Sums

variable {lengths more : List Nat} {i : Nat}

@[simp] theorem length_sums (lengths : List Nat) : (sums lengths).length = lengths.length + 1 := by simp [sums]

theorem getD_sums (inside : i ≤ lengths.length) : (sums lengths).getD i 0 = (lengths.take i).sum := by
  rw [sums, List.getD_eq_getElem _ _ (by simp; omega)]
  simp

theorem getLast?_sums (lengths : List Nat) : (sums lengths).getLast? = some lengths.sum := by
  simp [sums, List.range_succ]

theorem head?_sums (lengths : List Nat) : (sums lengths).head? = some 0 := by
  simp [sums, List.range_succ_eq_map]

@[simp] theorem sums_nil : sums [] = [0] := rfl

theorem sums_append (lengths more : List Nat) : sums (lengths ++ more) = sums lengths ++ (sums more).tail.map (lengths.sum + ·) := by
  apply List.ext_getElem
  · simp
    omega
  · intro i left right
    simp only [length_sums, List.length_append] at left
    by_cases inside : i ≤ lengths.length
    · rw [List.getElem_append_left (by simp; omega)]
      simp only [sums, List.getElem_map, List.getElem_range, List.take_append_of_le_length inside]
    · rw [List.getElem_append_right (by simp; omega)]
      simp only [sums, List.getElem_map, List.getElem_range, List.getElem_tail, List.take_append, List.take_of_length_le (by omega : lengths.length ≤ i),
        List.sum_append, List.length_map, List.length_range]
      congr 3
      omega

theorem sums_push (lengths : List Nat) (n : Nat) : sums (lengths ++ [n]) = sums lengths ++ [lengths.sum + n] := by
  rw [sums_append]
  simp [sums, List.range_succ]

theorem sum_take_add_sum_take_drop (lengths : List Nat) (start len : Nat) :
    (lengths.take start).sum + ((lengths.drop start).take len).sum = (lengths.take (start + len)).sum := by
  rw [← List.sum_append, ← List.take_add]

/-- Offsets of a run of rows, counted from where it starts. -/
theorem sums_slice {start len : Nat} (inside : start + len ≤ lengths.length) :
    (((sums lengths).drop start).take (len + 1)).map (· - (lengths.take start).sum) = sums ((lengths.drop start).take len) := by
  apply List.ext_getElem
  · simp
    omega
  · intro i left right
    simp only [length_sums, List.length_take, List.length_drop] at right
    have whole := sum_take_add_sum_take_drop lengths start i
    simp only [sums, List.getElem_map, List.getElem_take, List.getElem_drop, List.getElem_range]
    rw [List.take_take, Nat.min_eq_left (by omega)]
    omega

theorem sum_take_le (lengths : List Nat) (i : Nat) : (lengths.take i).sum ≤ lengths.sum := by
  have whole : (lengths.take i ++ lengths.drop i).sum = (lengths.take i).sum + (lengths.drop i).sum := List.sum_append
  rw [List.take_append_drop] at whole
  omega

theorem sum_take_mono {i j : Nat} (le : i ≤ j) : (lengths.take i).sum ≤ (lengths.take j).sum := by
  have whole := sum_take_add_sum_take_drop lengths i (j - i)
  rw [Nat.add_sub_cancel' le] at whole
  omega

end Sums

/-- The elements from one offset up to another. -/
def between {α : Type} (data : List α) (start end_ : Nat) : List α := (data.drop start).take (end_ - start)

section Between

variable {α : Type} {data more : List α} {a b c d : Nat}

theorem length_between (inside : b ≤ data.length) : (between data a b).length = b - a := by
  simp [between]
  omega

/-- A range of a range. -/
theorem between_between (inside : b + d ≤ c) : between (between data a (a + c)) b (b + d) = between data (a + b) (a + (b + d)) := by
  unfold between
  rw [List.drop_take, List.take_take, List.drop_drop]
  congr 1
  omega

theorem between_append_left (inside : b ≤ data.length) : between (data ++ more) a b = between data a b := by
  unfold between
  rw [List.drop_append, List.take_append]
  by_cases empty : b ≤ a
  · simp [Nat.sub_eq_zero_of_le empty]
  · have none_ : b - a - (data.drop a).length = 0 := by
      rw [List.length_drop]
      omega
    rw [none_, List.take_zero, List.append_nil]

theorem between_append_right : between (data ++ more) (data.length + a) (data.length + b) = between more a b := by
  unfold between
  rw [List.drop_append, List.drop_of_length_le (by omega), List.nil_append]
  congr 1
  · omega
  · congr 1
    omega

theorem between_zero_length (data : List α) : between data 0 data.length = data := by simp [between]

theorem between_append_between (first : a ≤ b) (second : b ≤ c) : between data a b ++ between data b c = between data a c := by
  unfold between
  have reach : c - a = b - a + (c - b) := by omega
  rw [reach, List.take_add, List.drop_drop]
  congr 3
  omega

end Between

/-- The rows that offsets mark in data. -/
def rowsAt {α : Type} (offsets : List Nat) (data : List α) : List (List α) :=
  (List.range (offsets.length - 1)).map fun i => between data (offsets.getD i 0) (offsets.getD (i + 1) 0)

section Rows

variable {α : Type} {lengths more : List Nat} {data rest : List α}

@[simp] theorem length_rowsAt (offsets : List Nat) (data : List α) : (rowsAt offsets data).length = offsets.length - 1 := by
  simp [rowsAt]

theorem getElem_rowsAt_sums {i : Nat} (inside : i < (rowsAt (sums lengths) data).length) :
    (rowsAt (sums lengths) data)[i] = between data (lengths.take i).sum (lengths.take (i + 1)).sum := by
  have below : i < lengths.length := by simpa using inside
  simp only [rowsAt, List.getElem_map, List.getElem_range]
  rw [getD_sums (by omega), getD_sums (by omega)]

theorem rowsAt_append (whole : data.length = lengths.sum) :
    rowsAt (sums (lengths ++ more)) (data ++ rest) = rowsAt (sums lengths) data ++ rowsAt (sums more) rest := by
  apply List.ext_getElem
  · simp
  · intro i left right
    rw [getElem_rowsAt_sums]
    by_cases inside : i < lengths.length
    · rw [List.getElem_append_left (by simpa using inside), getElem_rowsAt_sums]
      rw [List.take_append_of_le_length (by omega), List.take_append_of_le_length (by omega)]
      apply between_append_left
      rw [whole]
      exact sum_take_le lengths (i + 1)
    · have past : lengths.length ≤ i := by omega
      have index : i + 1 - lengths.length = i - lengths.length + 1 := by omega
      rw [List.getElem_append_right (by simpa using past), getElem_rowsAt_sums]
      simp only [length_rowsAt, length_sums, Nat.add_sub_cancel]
      rw [List.take_append, List.take_append, List.take_of_length_le past,
        List.take_of_length_le (by omega : lengths.length ≤ i + 1), List.sum_append, List.sum_append, index, ← whole]
      exact between_append_right

theorem rowsAt_push {row : List α} (whole : data.length = lengths.sum) :
    rowsAt (sums (lengths ++ [row.length])) (data ++ row) = rowsAt (sums lengths) data ++ [row] := by
  rw [rowsAt_append whole]
  simp [rowsAt, sums, List.range_succ, between]

/-- Rows laid out one after another are the rows that their offsets mark. -/
theorem rowsAt_flatten (rows : List (List α)) : rowsAt (sums (rows.map List.length)) rows.flatten = rows := by
  induction rows using List.reverseRecOn with
  | nil => rfl
  | append_singleton rows row ih =>
    have whole : rows.flatten.length = (rows.map List.length).sum := List.length_flatten
    rw [List.map_append, List.map_singleton, List.flatten_append, List.flatten_singleton, rowsAt_push whole, ih]

/-- The rows of a run of rows. -/
theorem rowsAt_slice {start len : Nat} (inside : start + len ≤ lengths.length) :
    rowsAt (sums ((lengths.drop start).take len)) (between data (lengths.take start).sum (lengths.take (start + len)).sum) =
      ((rowsAt (sums lengths) data).drop start).take len := by
  apply List.ext_getElem
  · simp
  · intro i left right
    have below : i < len := by
      simp at left
      omega
    have first := sum_take_add_sum_take_drop lengths start i
    have next := sum_take_add_sum_take_drop lengths start (i + 1)
    have all := sum_take_add_sum_take_drop lengths start len
    have mono := @sum_take_mono (lengths.drop start) (i + 1) len (by omega)
    have step := @sum_take_mono (lengths.drop start) i (i + 1) (by omega)
    rw [List.getElem_take, List.getElem_drop, getElem_rowsAt_sums, getElem_rowsAt_sums, List.take_take, List.take_take,
      Nat.min_eq_left (by omega), Nat.min_eq_left (by omega), ← all, ← first, Nat.add_assoc start i 1, ← next]
    obtain ⟨width, stepped⟩ := Nat.exists_eq_add_of_le step
    rw [stepped, between_between (by omega)]

end Rows

end Adelie
