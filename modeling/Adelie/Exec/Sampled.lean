import Adelie.Exec.Layout

namespace Adelie

/-- Windows of rows, each a start and a length, in order and apart. -/
def Apart : Nat → List (Nat × Nat) → Nat → Prop
  | lo, [], hi => lo ≤ hi
  | lo, (s, l) :: ws, hi => lo ≤ s ∧ Apart (s + l) ws hi

section Apart

variable {ws : List (Nat × Nat)} {lo hi : Nat} {lengths : List Nat}

theorem Apart.le (apart : Apart lo ws hi) : lo ≤ hi := by
  induction ws generalizing lo with
  | nil => exact apart
  | cons w ws ih =>
    have := ih apart.2
    have := apart.1
    omega

theorem Apart.inside (apart : Apart lo ws hi) : ∀ w ∈ ws, w.1 + w.2 ≤ hi := by
  induction ws generalizing lo with
  | nil => simp
  | cons w ws ih => exact List.forall_mem_cons.mpr ⟨apart.2.le, ih apart.2⟩

/-- Rows that windows apart from each other pick are no more than there are. -/
theorem sum_windows_le (apart : Apart lo ws lengths.length) :
    (lengths.take lo).sum + (ws.flatMap fun w => (lengths.drop w.1).take w.2).sum ≤ lengths.sum := by
  induction ws generalizing lo with
  | nil => simpa using sum_take_le lengths lo
  | cons w ws ih =>
    obtain ⟨s, l⟩ := w
    have rest := ih apart.2
    have low := @sum_take_mono lengths _ _ apart.1
    have own := sum_take_add_sum_take_drop lengths s l
    rw [List.flatMap_cons, List.sum_append]
    dsimp only at low own ⊢
    omega

/-- The windows of the elements that windows of rows mark. -/
theorem apart_sums (apart : Apart lo ws lengths.length) :
    Apart (lengths.take lo).sum (ws.map fun w => ((lengths.take w.1).sum, (lengths.take (w.1 + w.2)).sum - (lengths.take w.1).sum))
      lengths.sum := by
  induction ws generalizing lo with
  | nil => exact sum_take_le lengths lo
  | cons w ws ih =>
    obtain ⟨s, l⟩ := w
    have low := @sum_take_mono lengths _ _ apart.1
    have own := @sum_take_mono lengths s (s + l) (by omega)
    refine ⟨low, ?_⟩
    dsimp only
    rw [Nat.add_sub_cancel' own]
    exact ih apart.2

end Apart

namespace Physical

/-- Slices of windows apart from each other always join. -/
def Joins (δ : Type) [LawfulLayout δ] : Prop := ∀ {ty : DataType} {d : δ} {ws : List (Nat × Nat)}, LawfulLayout.Sound ty d →
  Apart 0 ws (Layout.rows d) → ws ≠ [] →
  ∃ parts d', ws.mapM (fun w => Layout.slice d w.1 w.2) = some parts ∧ Layout.concat ty parts = .ok d'

/-- The slice of every row is the data itself. -/
def SlicesWhole (δ : Type) [LawfulLayout δ] : Prop :=
  ∀ {ty : DataType} {d : δ}, LawfulLayout.Sound ty d → Layout.slice d 0 (Layout.rows d) = some d

namespace Buffer

variable {k : Varwidth} {lengths acc : List Nat} {data bytes : List UInt8} {ws : List (Nat × Nat)}

theorem foldlM_slices (inside : ∀ w ∈ ws, w.1 + w.2 ≤ lengths.length)
    (small : (acc ++ ws.flatMap fun w => (lengths.drop w.1).take w.2).sum < 2 ^ 32) :
    ∃ out, (ws.map fun w => (Buffer.var k (sums lengths) data).slice w.1 w.2).foldlM (addVar k) (sums acc, bytes) = .ok out := by
  induction ws generalizing acc bytes with
  | nil => exact ⟨_, rfl⟩
  | cons w ws ih =>
    obtain ⟨s, l⟩ := w
    rw [List.forall_mem_cons] at inside
    rw [List.flatMap_cons, ← List.append_assoc] at small
    have part : (Buffer.var k (sums lengths) data).slice s l = .var k (sums ((lengths.drop s).take l))
        (between data ((sums lengths).getD s 0) ((sums lengths).getD (s + l) 0)) := by
      rw [slice, rebaseOffsets_sums inside.1]
    have below : (acc ++ (lengths.drop s).take l).sum < 2 ^ 32 := by
      rw [List.sum_append] at small
      dsimp only at small
      omega
    rw [List.map_cons, List.foldlM_cons, part, addVar_sums.mpr ⟨rfl, .inr below⟩]
    exact ih inside.2 small

theorem mapM_slices (d : Buffer) (ws : List (Nat × Nat)) :
    ws.mapM (fun w => Layout.slice d w.1 w.2) = some (ws.map fun w => d.slice w.1 w.2) := by
  induction ws with
  | nil => rfl
  | cons w ws ih => rw [List.mapM_cons, ih]; rfl

theorem joins : Joins Buffer := by
  intro ty d ws sound apart some_
  cases ty with
  | list t => cases sound
  | scalar t =>
    have inside := apart.inside
    suffices joined : ∃ d', Buffer.concat t (ws.map fun w => d.slice w.1 w.2) = .ok d' by
      obtain ⟨d', made⟩ := joined
      exact ⟨_, d', mapM_slices d ws, made⟩
    have sounds : ∀ part ∈ ws.map fun w => d.slice w.1 w.2, Sound (.scalar t) part := by
      rw [List.forall_mem_map]
      exact fun w member => (Sound.slice_ok sound (inside w member)).1
    rcases scalar_cases t with rfl | ⟨k, kind⟩ | ⟨k, rfl⟩
    · obtain ⟨m, folded, _⟩ := foldlM_addBool sounds []
      exact ⟨_, congrArg (Except.map Buffer.bool) folded⟩
    · obtain ⟨m, folded, _⟩ := foldlM_addFixed kind sounds []
      rw [concat_of_fixed kind]
      exact ⟨_, congrArg (Except.map (Buffer.fixed k)) folded⟩
    · obtain ⟨lengths, data, rfl, whole, small, reads⟩ := Sound.inv_var sound
      have rows : Layout.rows (Buffer.var k (sums lengths) data) = lengths.length := by simp [Layout.rows, Buffer.rows]
      rw [rows] at apart inside
      have total := sum_windows_le apart
      obtain ⟨out, folded⟩ := @foldlM_slices k lengths [] data [] ws inside (by
        rw [List.nil_append]
        omega)
      rw [concat_of_var]
      exact ⟨_, congrArg (Except.map fun out : List Nat × List UInt8 => Buffer.var k out.1 out.2) folded⟩

theorem slice_whole : SlicesWhole Buffer := by
  intro ty d sound
  apply congrArg some
  change d.slice 0 d.rows = d
  cases sound with
  | @bool bits whole =>
    rw [Buffer.rows, Buffer.slice, Bitmap.slice_eq (by omega), List.drop_zero, ← Bitmap.length_bits, List.take_length, ← whole.eq_ofBits]
  | @fixed t k v kind fits => rw [Buffer.rows, Buffer.slice, Nat.zero_add, between_zero_length]
  | @var k lengths data whole small reads =>
    have rows : (Buffer.var k (sums lengths) data).rows = lengths.length := by simp [Buffer.rows]
    rw [rows, Buffer.slice, rebaseOffsets_sums (by omega), Nat.zero_add, getD_sums (Nat.zero_le _), getD_sums (Nat.le_refl _),
      List.drop_zero, List.take_length, List.take_zero, List.sum_nil, ← whole, between_zero_length]

end Buffer

namespace Nulled

variable {δ : Type} [LawfulLayout δ] {c : Nulled δ} {ws : List (Nat × Nat)}

theorem slice_whole (whole : SlicesWhole δ) (sound : c.Sound) : c.slice 0 c.len = some c := by
  have bits : c.validity.map (·.slice 0 c.len) = c.validity := by
    cases found : c.validity with
    | none => rfl
    | some bm =>
      obtain ⟨own, len⟩ := sound.whole bm found
      rw [Option.map_some, ← len, Bitmap.slice_eq (by omega), List.drop_zero, ← Bitmap.length_bits, List.take_length, ← own.eq_ofBits]
  have cut : Layout.slice c.data 0 c.len = some c.data := whole sound.data
  rw [slice, if_pos (by omega), cut, bits]
  dsimp only
  rw [← sound.nulls]
  rfl

/-- The windows of a column are the windows of its data. -/
theorem mapM_slice (sound : c.Sound) (inside : ∀ w ∈ ws, w.1 + w.2 ≤ c.len) {datas : List δ}
    (made : ws.mapM (fun w => Layout.slice c.data w.1 w.2) = some datas) :
    ∃ parts : List (Nulled δ), ws.mapM (fun w => c.slice w.1 w.2) = some parts ∧ parts.map Nulled.data = datas ∧
      ∀ part ∈ parts, part.Sound ∧ part.ty = c.ty := by
  induction ws generalizing datas with
  | nil =>
    cases made
    exact ⟨[], rfl, rfl, by simp⟩
  | cons w ws ih =>
    rw [List.forall_mem_cons] at inside
    rw [List.mapM_cons] at made
    obtain ⟨first, cut, made⟩ := Option.bind_eq_some_iff.mp made
    obtain ⟨others, rest, made⟩ := Option.bind_eq_some_iff.mp made
    cases made
    obtain ⟨parts, all, datas, sounds⟩ := ih inside.2 rest
    obtain ⟨part, sliced, own, typed, _⟩ := slice_ok sound inside.1
    have data := (slice_parts sliced).1
    rw [cut] at data
    cases data
    refine ⟨part :: parts, ?_, by rw [List.map_cons, datas], List.forall_mem_cons.mpr ⟨⟨own, typed⟩, sounds⟩⟩
    rw [List.mapM_cons, sliced, all]
    rfl

theorem joins (joins : Joins δ) (sound : c.Sound) (apart : Apart 0 ws c.len) (some_ : ws ≠ []) :
    ∃ parts c', ws.mapM (fun w => c.slice w.1 w.2) = some parts ∧ concat c.ty parts = .ok c' ∧ c'.Sound ∧ c'.ty = c.ty := by
  obtain ⟨datas, d', cut, joined⟩ := joins sound.data apart some_
  obtain ⟨parts, made, rfl, sounds⟩ := mapM_slice sound apart.inside cut
  have some' : parts ≠ [] := by
    rintro rfl
    have count := (forall₂_of_mapM_option made).length_eq
    exact some_ (List.length_eq_zero_iff.mp count)
  have concat : ∃ c', Nulled.concat c.ty parts = .ok c' := by
    unfold Nulled.concat
    rw [if_neg (by simpa using some'), joined]
    exact ⟨_, rfl⟩
  obtain ⟨c', concat⟩ := concat
  obtain ⟨own, typed, _⟩ := concat_ok sounds some' concat
  exact ⟨parts, c', made, concat, own, typed⟩

end Nulled

namespace ColumnData

variable {lengths acc : List Nat} {child : Nulled Buffer} {ws : List (Nat × Nat)}

theorem foldlM_slices {children slices : List (Nulled Buffer)} (inside : ∀ w ∈ ws, w.1 + w.2 ≤ lengths.length)
    (cut : ws.mapM (fun w => child.slice (lengths.take w.1).sum ((lengths.take (w.1 + w.2)).sum - (lengths.take w.1).sum)) = some slices)
    (small : (acc ++ ws.flatMap fun w => (lengths.drop w.1).take w.2).sum < 2 ^ 32) :
    ∃ parts offsets, ws.mapM (fun w => Layout.slice (ColumnData.list (sums lengths) child) w.1 w.2) = some parts ∧
      parts.foldlM addList (sums acc, children) = .ok (offsets, children ++ slices) := by
  induction ws generalizing acc children slices with
  | nil =>
    rw [List.mapM_nil] at cut
    cases cut
    exact ⟨[], sums acc, rfl, by rw [List.append_nil]; rfl⟩
  | cons w ws ih =>
    obtain ⟨s, l⟩ := w
    rw [List.forall_mem_cons] at inside
    rw [List.mapM_cons] at cut
    obtain ⟨first, own, cut⟩ := Option.bind_eq_some_iff.mp cut
    obtain ⟨others, rest, cut⟩ := Option.bind_eq_some_iff.mp cut
    cases cut
    have within : s + l ≤ lengths.length := inside.1
    have below : (acc ++ (lengths.drop s).take l).sum < 2 ^ 32 := by
      rw [List.flatMap_cons, ← List.append_assoc, List.sum_append] at small
      dsimp only at small
      omega
    obtain ⟨parts, offsets, made, folded⟩ := @ih (acc ++ (lengths.drop s).take l) (children ++ [first]) others inside.2 rest (by
      rwa [List.flatMap_cons, ← List.append_assoc] at small)
    have part : Layout.slice (ColumnData.list (sums lengths) child) s l = some (.list (sums ((lengths.drop s).take l)) first) := by
      change (child.slice ((sums lengths).getD s 0) ((sums lengths).getD (s + l) 0 - (sums lengths).getD s 0) >>= fun v =>
        some (ColumnData.list (rebaseOffsets (sums lengths) s l) v)) = _
      rw [getD_sums (by omega), getD_sums (by omega), rebaseOffsets_sums within, own]
      rfl
    refine ⟨.list (sums ((lengths.drop s).take l)) first :: parts, offsets, ?_, ?_⟩
    · rw [List.mapM_cons, part, made]
      rfl
    · rw [List.foldlM_cons, addList_sums.mpr ⟨rfl, .inr below⟩]
      change List.foldlM addList _ parts = _
      rw [folded, List.append_assoc]
      rfl

theorem joins : Joins ColumnData := by
  intro ty d ws sound apart some_
  cases sound with
  | @flat ty buffer own =>
    obtain ⟨parts, d', cut, joined⟩ := Buffer.joins own apart some_
    have cut' : ws.mapM (fun w => Layout.slice (ColumnData.flat buffer) w.1 w.2) = some (parts.map .flat) := by
      rw [Buffer.mapM_slices] at cut
      cases cut
      clear joined apart some_
      induction ws with
      | nil => rfl
      | cons w ws ih => rw [List.mapM_cons, ih]; rfl
    cases ty with
    | list t => cases own
    | scalar t =>
      have flat : (parts.map ColumnData.flat).mapM ColumnData.flat? = .ok parts := by
        apply mapM_except_of_forall₂
        rw [List.forall₂_map_left_iff, List.forall₂_same]
        exact fun _ _ => rfl
      refine ⟨_, .flat d', cut', ?_⟩
      change ((parts.map ColumnData.flat).mapM ColumnData.flat? >>= fun buffers => Buffer.concat t buffers >>= fun out => pure (ColumnData.flat out)) = _
      have joined : Buffer.concat t parts = .ok d' := joined
      rw [flat]
      change (Buffer.concat t parts >>= _) = _
      rw [joined]
      rfl
  | @list t lengths child own typed count small =>
    have rows : Layout.rows (ColumnData.list (sums lengths) child) = lengths.length := by simp [Layout.rows]
    rw [rows] at apart
    have windows := apart_sums apart
    rw [List.take_zero, List.sum_nil, ← count] at windows
    obtain ⟨slices, child', cut, joined, _, _⟩ := Nulled.joins Buffer.joins own windows (by simpa using some_)
    rw [List.mapM_map] at cut
    have total := sum_windows_le apart
    obtain ⟨parts, offsets, made, folded⟩ := @foldlM_slices lengths [] child ws [] slices apart.inside cut (by
      rw [List.nil_append]
      omega)
    refine ⟨parts, .list offsets child', made, ?_⟩
    change (parts.foldlM addList ([0], []) >>= fun out => Nulled.concat (.scalar t) out.2 >>= fun v => pure (ColumnData.list out.1 v)) = _
    have folded : parts.foldlM addList ([0], []) = .ok (offsets, [] ++ slices) := folded
    rw [folded]
    change (Nulled.concat (.scalar t) ([] ++ slices) >>= _) = _
    rw [List.nil_append, ← typed, joined]
    rfl

theorem slice_whole : SlicesWhole ColumnData := by
  intro ty d sound
  cases sound with
  | @flat ty buffer own => exact congrArg (Option.map ColumnData.flat) (Buffer.slice_whole own)
  | @list t lengths child own typed count small =>
    have rows : Layout.rows (ColumnData.list (sums lengths) child) = lengths.length := by simp [Layout.rows]
    have whole := Nulled.slice_whole Buffer.slice_whole own
    rw [rows]
    change (child.slice ((sums lengths).getD 0 0) ((sums lengths).getD (0 + lengths.length) 0 - (sums lengths).getD 0 0) >>= fun v =>
      some (ColumnData.list (rebaseOffsets (sums lengths) 0 lengths.length) v)) = _
    rw [Nat.zero_add, getD_sums (Nat.zero_le _), getD_sums (Nat.le_refl _), rebaseOffsets_sums (by omega), List.drop_zero,
      List.take_length, List.take_zero, List.sum_nil, Nat.sub_zero, ← count, whole]
    rfl

end ColumnData

end Physical

end Adelie
