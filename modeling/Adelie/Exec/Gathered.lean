import Adelie.Exec.Pipeline

namespace Adelie

/-- At most one batch a morsel. -/
def Stream.Single (s : Stream) : Prop := ∀ r ∈ s.reads, ∀ batches, r = .ok batches → batches.length ≤ 1

section Feeding

variable {σ : Type} {ctx : ExecContext} {s : Stream} {sink : Sink σ}

/-- The batches a sink is given: all the chain makes of the source's, unless it had enough before the last. -/
theorem feedAll_ok {batches : List ColumnBatch} {held held' : σ} {done : Bool}
    (made : (pipeline ctx s sink).feedAll batches held = .ok (held', done)) :
    ∃ out, out.foldlM sink.push held = .ok held' ∧ (done = true → sink.done held' = true) ∧
      (done = false ∨ batches.length ≤ 1 → ∃ parts, batches.mapM s.through = .ok parts ∧ out = parts.flatten) := by
  induction batches generalizing held with
  | nil =>
    cases made
    exact ⟨[], rfl, fun wrong => (Bool.false_ne_true wrong).elim, fun _ => ⟨[], rfl, rfl⟩⟩
  | cons b rest ih =>
    unfold Pool.feedAll at made
    obtain ⟨middle, pushed, made⟩ := Except.bind_eq_ok.mp made
    obtain ⟨first, emitted, pushed⟩ := Except.bind_eq_ok.mp pushed
    split at made
    · rename_i enough
      cases made
      refine ⟨first, pushed, fun _ => enough, ?_⟩
      rintro (wrong | short)
      · exact (Bool.false_ne_true wrong.symm).elim
      · rw [List.length_cons] at short
        rw [List.eq_nil_of_length_eq_zero (by omega : rest.length = 0), List.mapM_cons, emitted]
        exact ⟨[first], rfl, by simp⟩
    · obtain ⟨out, folded, enough, whole⟩ := ih made
      refine ⟨first ++ out, ?_, enough, ?_⟩
      · rw [List.foldlM_append, pushed]
        exact folded
      · intro all
        obtain ⟨parts, mapped, rfl⟩ := whole (all.imp id fun short => by rw [List.length_cons] at short; omega)
        rw [List.mapM_cons, emitted, mapped]
        exact ⟨first :: parts, rfl, by simp⟩

theorem feed_ok {i : Nat} {held held' : σ} {done : Bool} (made : (pipeline ctx s sink).feed i held = .ok (held', done)) :
    ∃ out, out.foldlM sink.push held = .ok held' ∧ (done = true → sink.done held' = true) ∧
      (done = false ∨ s.Single → s.emits i = .ok out) := by
  unfold Pool.feed at made
  obtain ⟨batches, read, made⟩ := Except.bind_eq_ok.mp made
  obtain ⟨out, folded, enough, whole⟩ := feedAll_ok made
  refine ⟨out, folded, enough, ?_⟩
  intro all
  have short : done = false ∨ batches.length ≤ 1 := by
    rcases all with all | single
    · exact Or.inl all
    · right
      change s.reads[i]?.getD _ = _ at read
      cases entry : s.reads[i]? with
      | none =>
        rw [entry] at read
        cases read
      | some r =>
        rw [entry] at read
        exact single r (List.mem_of_getElem? entry) batches read
  obtain ⟨parts, mapped, rfl⟩ := whole short
  unfold Stream.emits
  rw [show s.reads[i]?.getD _ = _ from read]
  simp only [bind, Except.bind, mapped]
  rfl

/-- What one worker holds, as one fold over the batches it was given. -/
theorem Fed.ok {items : List Nat} {held : σ} {done : Bool} (fed : (pipeline ctx s sink).Fed items held done) :
    ∃ out, out.foldlM sink.push sink.empty = .ok held ∧ (done = true → sink.done held = true) ∧
      (done = false ∨ s.Single → ∃ parts, items.mapM s.emits = .ok parts ∧ out = parts.flatten) := by
  induction fed with
  | fresh made =>
    cases made
    exact ⟨[], rfl, fun wrong => (Bool.false_ne_true wrong).elim, fun _ => ⟨[], rfl, rfl⟩⟩
  | @more items held held' i done before made ih =>
    obtain ⟨out, folded, _, whole⟩ := ih
    obtain ⟨out', folded', enough, whole'⟩ := feed_ok made
    refine ⟨out ++ out', ?_, enough, ?_⟩
    · rw [List.foldlM_append, folded]
      exact folded'
    · intro all
      obtain ⟨parts, mapped, rfl⟩ := whole (Or.inl rfl)
      rw [List.mapM_append, mapped, List.mapM_cons, whole' all]
      exact ⟨parts ++ [out'], rfl, by simp⟩

end Feeding

section Merging

variable {σ : Type} {ctx : ExecContext} {s : Stream} {sink : Sink σ} {log : List (List Nat)} {held : σ}

/-- A run that gives a sink: the workers' partial sinks, and what each took. -/
theorem Ran.ok (ran : Ran ctx s sink log (.ok held)) :
    ∃ m ≤ s.reads.length, log.flatten.Perm (List.range m) ∧ (∀ items ∈ log, items.Pairwise (· < ·)) ∧
      ∃ first rest, rest.foldlM sink.merge first = .ok held ∧
        List.Forall₂ (fun items part => ∃ done, (pipeline ctx s sink).Fed items part done ∧
          (done = true ∨ m = s.reads.length)) log (first :: rest) := by
  generalize result : Except.ok held = r at ran
  cases ran with
  | failed ends => cases result
  | interrupted ends stopped => cases result
  | @merged first rest ends =>
    obtain ⟨m, small, perm, ascending, _, each⟩ := ends.ok
    exact ⟨m, small, perm, ascending, first, rest, rfl, each⟩

/-- What pushing and merging keep, of a sink and the batches it was given, a whole run keeps. With one batch a
    morsel, or a sink that never has enough, no morsel is left half read. -/
theorem Ran.holds (H : σ → List ColumnBatch → Prop) (fine : ColumnBatch → Prop) (empty : H sink.empty [])
    (push : ∀ held out b held', H held out → fine b → sink.push held b = .ok held' → H held' (out ++ [b]))
    (merge : ∀ held out other out' held', H held out → H other out' → sink.merge held other = .ok held' →
      H held' (out ++ out'))
    (emits : ∀ i out, s.emits i = .ok out → ∀ b ∈ out, fine b)
    (complete : s.Single ∨ ∀ held, sink.done held = false) (ran : Ran ctx s sink log (.ok held)) :
    ∃ m ≤ s.reads.length, log.flatten.Perm (List.range m) ∧ ∃ parts, log.flatten.mapM s.emits = .ok parts ∧
      H held parts.flatten ∧ (m = s.reads.length ∨
        ∃ part out more, H part out ∧ sink.done part = true ∧ parts.flatten = out ++ more) := by
  obtain ⟨m, small, perm, _, first, rest, merged, each⟩ := ran.ok
  have spec : ∀ items part, (∃ done, (pipeline ctx s sink).Fed items part done ∧ (done = true ∨ m = s.reads.length)) →
      ∃ parts, items.mapM s.emits = .ok parts ∧ H part parts.flatten ∧
        (m = s.reads.length ∨ sink.done part = true) := by
    rintro items part ⟨done, fed, why⟩
    obtain ⟨out, folded, enough, whole⟩ := Fed.ok fed
    have all : done = false ∨ s.Single := by
      rcases complete with single | never
      · exact Or.inr single
      · left
        cases done with
        | false => rfl
        | true => exact absurd (enough rfl) (by rw [never]; exact Bool.false_ne_true)
    obtain ⟨parts, mapped, rfl⟩ := whole all
    refine ⟨parts, mapped, ?_, ?_⟩
    · have goods : ∀ b ∈ parts.flatten, fine b := by
        intro b member
        obtain ⟨part, inside, member⟩ := List.mem_flatten.mp member
        obtain ⟨i, _, emitted⟩ := List.Forall₂.source (forall₂_of_mapM_except mapped) inside
        exact emits i part emitted b member
      have general : ∀ (rest : List ColumnBatch) (before : List ColumnBatch) (start : σ), (∀ b ∈ rest, fine b) →
          H start before → rest.foldlM sink.push start = .ok part → H part (before ++ rest) := by
        intro rest
        induction rest with
        | nil =>
          intro before start _ holds folded
          cases folded
          simpa using holds
        | cons b rest ih =>
          intro before start goods holds folded
          rw [List.forall_mem_cons] at goods
          rw [List.foldlM_cons] at folded
          obtain ⟨next, pushed, folded⟩ := Except.bind_eq_ok.mp folded
          have := ih (before ++ [b]) next goods.2 (push start before b next holds goods.1 pushed) folded
          simpa using this
      simpa using general _ [] _ goods empty folded
    · rcases why with done | whole
      · exact Or.inr (enough done)
      · exact Or.inl whole
  cases each with
  | @cons items _ log' _ head tail =>
    obtain ⟨parts, mapped, holds, why⟩ := spec items first head
    have general : ∀ (log : List (List Nat)) (rest : List σ) (start : σ) (before : List ColumnBatch),
        List.Forall₂ (fun items part => ∃ done, (pipeline ctx s sink).Fed items part done ∧
          (done = true ∨ m = s.reads.length)) log rest → H start before → rest.foldlM sink.merge start = .ok held →
        ∃ parts, log.flatten.mapM s.emits = .ok parts ∧ H held (before ++ parts.flatten) := by
      intro log rest start before all
      induction all generalizing start before with
      | nil =>
        intro holds folded
        cases folded
        exact ⟨[], rfl, by simpa using holds⟩
      | @cons items part log rest head _ ih =>
        intro holds folded
        rw [List.foldlM_cons] at folded
        obtain ⟨next, merged, folded⟩ := Except.bind_eq_ok.mp folded
        obtain ⟨parts, mapped, own, _⟩ := spec items part head
        obtain ⟨parts', mapped', whole⟩ := ih next _ (merge start before part _ next holds own merged) folded
        refine ⟨parts ++ parts', ?_, by simpa using whole⟩
        rw [List.flatten_cons, List.mapM_append, mapped, mapped']
        rfl
    obtain ⟨parts', mapped', whole⟩ := general log' rest first _ tail holds merged
    refine ⟨m, small, perm, parts ++ parts', ?_, by simpa using whole, ?_⟩
    · rw [List.flatten_cons, List.mapM_append, mapped, mapped']
      rfl
    · rcases why with whole | done
      · exact Or.inl whole
      · exact Or.inr ⟨first, _, parts'.flatten, holds, done, by simp⟩

/-- The morsels are merged in their own order. -/
theorem flatten_eq_range {m : Nat} (perm : log.flatten.Perm (List.range m)) (ordered : log.flatten.Pairwise (· < ·)) :
    log.flatten = List.range m :=
  perm.eq_of_pairwise (fun a _ _ _ below above => absurd (below.trans above) (lt_irrefl a)) ordered
    List.pairwise_lt_range

theorem bufferSink_merge (held other : List ColumnBatch) : bufferSink.merge held other = .ok (held ++ other) := by
  change other.foldlM (fun held b => (.ok (held ++ [b]) : Except ExecError (List ColumnBatch))) held = _
  induction other generalizing held with
  | nil =>
    rw [List.append_nil]
    rfl
  | cons b rest ih =>
    rw [List.foldlM_cons]
    exact (ih (held ++ [b])).trans (by simp)

/-- Every batch is kept, in the order of the log. -/
theorem Ran.buffered {held : List ColumnBatch} (ran : Ran ctx s bufferSink log (.ok held)) :
    log.flatten.Perm (List.range s.reads.length) ∧ ∃ parts, log.flatten.mapM s.emits = .ok parts ∧
      held = parts.flatten := by
  obtain ⟨m, _, perm, parts, mapped, same, why⟩ := ran.holds (fun held out => held = out)
    (fun _ => True) rfl
    (fun held out b held' same _ pushed => by subst same; cases pushed; rfl)
    (fun held out other out' held' same same' merged => by
      subst same same'
      exact (Except.ok.inj ((bufferSink_merge held other).symm.trans merged)).symm)
    (fun _ _ _ _ _ => True.intro) (Or.inr fun _ => rfl)
  have whole : m = s.reads.length := by
    rcases why with whole | ⟨_, _, _, _, done, _⟩
    · exact whole
    · cases done
  rw [whole] at perm
  exact ⟨perm, parts, mapped, same⟩

theorem rows_of_emits {items : List Nat} {parts : List (List ColumnBatch)} (mapped : items.mapM s.emits = .ok parts) :
    parts.flatten.flatMap ColumnBatch.toRows = items.flatMap s.rowsAt := by
  have each := map_of_mapM (g := fun out => out.flatMap ColumnBatch.toRows) (h := s.rowsAt) mapped
    (fun i _ out emitted => by simp only [Stream.rowsAt, emitted])
  rw [List.flatMap_def (f := s.rowsAt), ← each, ← List.flatMap_def, ← List.flatMap_id, List.flatMap_assoc]
  rfl

end Merging

end Adelie
