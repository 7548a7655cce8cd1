import Adelie.Manifest.Remade

namespace Adelie

/-- A segment without the view a table has of it: what garbage keeps, and what names its file. -/
def SegmentEntry.stem (s : SegmentEntry) : SegmentEntry :=
  { s with columns := [], fieldIds := [], fileFieldIds := [] }

@[simp] theorem SegmentEntry.stem_projectOnto (s : SegmentEntry) (schema : List SchemaField) :
    (s.projectOnto schema).stem = s.stem := rfl

/-- The segments an edit brings in from its caller. -/
def Edit.newSegments : Edit → List SegmentEntry
  | .addSegments _ segments | .advanceJob _ _ _ segments => segments
  | _ => []

/-- One of the segments is the given one, under whatever view. -/
def StemOf (segments : List SegmentEntry) (x : SegmentEntry) : Prop := ∃ s ∈ segments, s.stem = x

@[simp] theorem stemOf_nil {x : SegmentEntry} : ¬StemOf [] x := by
  rintro ⟨s, inside, _⟩
  cases inside

@[simp] theorem stemOf_append {l l' : List SegmentEntry} {x : SegmentEntry} :
    StemOf (l ++ l') x ↔ StemOf l x ∨ StemOf l' x := by
  simp only [StemOf, List.mem_append, or_and_right, exists_or]

@[simp] theorem stemOf_sortByKey {κ : Type} [LinearOrder κ] {key : SegmentEntry → κ} {l : List SegmentEntry}
    {x : SegmentEntry} : StemOf (sortByKey key l) x ↔ StemOf l x := by
  simp only [StemOf, mem_sortByKey]

theorem StemOf.mono {l l' : List SegmentEntry} {x : SegmentEntry} (inside : StemOf l x) (within : l ⊆ l') :
    StemOf l' x := by
  obtain ⟨s, member, same⟩ := inside
  exact ⟨s, within member, same⟩

theorem Edit.newIds_eq (e : Edit) : e.newIds = e.newSegments.map (·.id) := by
  cases e <;> rfl

namespace Manifest

variable {m m' : Manifest} {version nowMs : Nat} {e : Edit} {x : SegmentEntry}

/-- Some definition holds the segment, under whatever view. -/
def Holds (m : Manifest) (x : SegmentEntry) : Prop := ∃ t ∈ m.entries, StemOf t.segments x

theorem Holds.references (held : m.Holds x) : m.References x.id := by
  obtain ⟨t, inside, s, member, rfl⟩ := held
  exact ⟨t, inside, List.mem_map.mpr ⟨s, member, rfl⟩⟩

theorem References.holds {id : Nat} (held : m.References id) : ∃ x, m.Holds x ∧ x.id = id := by
  obtain ⟨t, inside, member⟩ := held
  obtain ⟨s, live, rfl⟩ := List.mem_map.mp member
  exact ⟨s.stem, ⟨t, inside, s, live, rfl⟩, rfl⟩

theorem Advanced.stemOf {source : TableEntry} {j j' : Job} {reused rewritten : List Nat}
    {segments carried : List SegmentEntry} (advanced : Advanced source j reused rewritten segments carried j')
    (inside : StemOf carried x) : StemOf source.segments x := by
  obtain ⟨s', member, rfl⟩ := inside
  obtain ⟨_, _, s, live, _, rfl⟩ := List.Forall₂.source advanced.projected member
  exact ⟨s, live, rfl⟩

theorem restored_stemOf {r : Retired} {cur : TableEntry} {tombstones : List Tombstone}
    (inside : StemOf (restored r cur tombstones).segments x) : StemOf r.entry.segments x ∨ StemOf cur.segments x := by
  obtain ⟨s, member, rfl⟩ := inside
  rcases List.mem_append.mp (mem_sortByKey.mp member) with old | since
  · exact .inl ⟨s, old, rfl⟩
  · obtain ⟨s₀, later, rfl⟩ := List.mem_map.mp since
    exact .inr ⟨s₀, List.mem_of_mem_filter later, rfl⟩

theorem Remade.stemOf {t : TableEntry} (made : Remade m e t) (inside : StemOf t.segments x) :
    m.Holds x ∨ StemOf e.newSegments x := by
  cases made with
  | created new => simp [new.segments] at inside
  | @added t segments live aligned =>
    rw [stemOf_sortByKey, stemOf_append] at inside
    exact inside.imp_left fun old => ⟨t, entries_of_table live, old⟩
  | @thinned t ids live =>
    exact .inl ⟨t, entries_of_table live, inside.mono (List.filter_subset_self _)⟩
  | @marked t predicates stored live each => exact .inl ⟨t, entries_of_table live, inside⟩
  | planned live plan =>
    dsimp only at inside
    rw [(planAlter_frame plan).1] at inside
    exact absurd inside stemOf_nil
  | @advanced j j' source reused rewritten segments carried running _ live from_ advanced =>
    rw [advanced.job] at inside
    dsimp only at inside
    rw [stemOf_sortByKey, stemOf_append, stemOf_append] at inside
    rcases inside with old | reused | brought
    · exact .inl ⟨_, entries_of_job running, old⟩
    · exact .inl ⟨_, entries_of_table live, advanced.stemOf reused⟩
    · exact .inr brought
  | @swapped j source tombstones running _ live from_ handled renamed =>
    exact .inl ⟨j.target, entries_of_job running, inside⟩
  | @reverted r cur tombstones at_ kept reason named live stale renamed =>
    rcases restored_stemOf inside with old | since
    · exact .inl ⟨_, entries_of_retired kept, old⟩
    · exact .inl ⟨_, entries_of_table live, since⟩
  | emptied live => exact absurd inside stemOf_nil

/-- An edit makes no segment up: what a definition holds after it was held before, or is new. -/
theorem applyEdit_holds (applied : applyEdit version nowMs m e = .ok m') (held : m'.Holds x) :
    m.Holds x ∨ StemOf e.newSegments x := by
  obtain ⟨t, inside, stem⟩ := held
  rcases applyEdit_remade applied t inside with old | made
  · exact .inl ⟨t, old, stem⟩
  · exact made.stemOf stem

/-- What a definition holds after a commit was held before it, or is new. -/
theorem apply_holds {c : Commit} (applied : c.apply m nowMs = .ok m') (held : m'.Holds x) :
    m.Holds x ∨ ∃ e ∈ c.edits, StemOf e.newSegments x := by
  refine apply_invariant (fun s => ∀ x, s.Holds x → m.Holds x ∨ ∃ e ∈ c.edits, StemOf e.newSegments x)
    ?_ ?_ (fun x held => .inl held) applied x held
  · intro e member s s' before applied x held
    rcases applyEdit_holds applied held with held | brought
    · exact before x held
    · exact .inr ⟨e, member, brought⟩
  · exact fun s version before x held => before x held

/-- New segments are stamped with the version the commit lands at, or an earlier one. -/
def Stamped (m : Manifest) (e : Edit) : Prop := ∀ s ∈ e.newSegments, s.seq ≤ m.version + 1

instance (m : Manifest) (e : Edit) : Decidable (m.Stamped e) :=
  inferInstanceAs (Decidable (∀ s ∈ e.newSegments, s.seq ≤ m.version + 1))

/-- Between commits no segment is newer than the manifest. -/
def SeqsBelow (m : Manifest) : Prop := ∀ x, m.Holds x → x.seq ≤ m.version

theorem seqsBelow_of_run {commits : List Timed} (stamped : Admits Stamped m commits) (below : m.SeqsBelow) :
    (m.run commits).SeqsBelow := by
  refine run_staged_invariant SeqsBelow (fun m => ∀ x, m.Holds x → x.seq ≤ m.version + 1) ?_ ?_ ?_ stamped below
  · exact fun m below x held => (below x held).trans (Nat.le_succ _)
  · intro nowMs m e m' stamped during applied x held
    rw [(applyEdit_counters applied).version]
    rcases applyEdit_holds applied held with held | ⟨s, brought, rfl⟩
    · exact during x held
    · exact stamped s brought
  · exact fun m during x held => during x held

theorem SeqsBelow.empty : Manifest.empty.SeqsBelow := by
  rintro x ⟨t, inside, _⟩
  cases inside

theorem SeqsBelow.segment (below : m.SeqsBelow) {t : TableEntry} (inside : t ∈ m.entries) {s : SegmentEntry}
    (member : s ∈ t.segments) : s.seq ≤ m.version :=
  below s.stem ⟨t, inside, s, member, rfl⟩

end Manifest

end Adelie
