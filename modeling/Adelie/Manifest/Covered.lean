import Adelie.Manifest.Reached

namespace Adelie.Manifest

variable {m m' : Manifest} {version nowMs : Nat} {e : Edit}

/-- The engine of a definition is the one of the definition it was made from, or of its spec. -/
theorem Remade.engine {t : TableEntry} (made : Remade m e t) :
    (∃ t₀ ∈ m.entries, t.engine = t₀.engine) ∨ ∃ spec, e = .createTable spec ∧ t.engine = spec.engine := by
  cases made with
  | created new => exact .inr ⟨_, rfl, new.engine⟩
  | added live _ => exact .inl ⟨_, entries_of_table live, rfl⟩
  | thinned live => exact .inl ⟨_, entries_of_table live, rfl⟩
  | marked live _ => exact .inl ⟨_, entries_of_table live, rfl⟩
  | planned live plan => exact .inl ⟨_, entries_of_table live, (planAlter_frame plan).2.1⟩
  | advanced running _ _ _ advanced =>
    rw [advanced.job]
    exact .inl ⟨_, entries_of_job running, rfl⟩
  | swapped running _ _ _ _ _ => exact .inl ⟨_, entries_of_job running, rfl⟩
  | reverted _ kept _ _ _ _ _ => exact .inl ⟨_, entries_of_retired kept, rfl⟩
  | emptied live => exact .inl ⟨_, entries_of_table live, rfl⟩

/-- Every segment id the manifest knows of, referenced or in garbage. -/
def Knows (m : Manifest) (id : Nat) : Prop := m.References id ∨ id ∈ m.garbageIds

/-- The counter is past every segment id the manifest knows of. -/
structure Covered (m : Manifest) : Prop where
  below : IdsBelow m
  garbage : ∀ id ∈ m.garbageIds, id < m.nextSegmentId

theorem Covered.knows (covered : Covered m) {id : Nat} (known : m.Knows id) : id < m.nextSegmentId :=
  known.elim (fun held => (covered.below id held).1) (covered.garbage id)

theorem Covered.empty : Covered Manifest.empty := ⟨Sound.empty.below, nofun⟩

theorem applyEdit_covered (small : ∀ id ∈ e.newIds, id + 1 < 2 ^ 64) (covered : Covered m)
    (applied : applyEdit version nowMs m e = .ok m') : Covered m' := by
  refine ⟨applyEdit_idsBelow small covered.below applied, ?_⟩
  have segments := (applyEdit_counters applied).segments
  intro id listed
  rcases applyEdit_exchange applied with ⟨ids, rfl, rfl⟩ | exchange
  · obtain ⟨g, inside, rfl⟩ := List.mem_map.mp listed
    exact covered.garbage _ (List.mem_map_of_mem (List.mem_of_mem_filter inside))
  · obtain ⟨dropped, whole, _, from_⟩ := exchange.dropped
    rw [whole] at listed
    rcases List.mem_append.mp listed with old | new
    · exact (covered.garbage id old).trans_le segments
    · exact (covered.below id (from_ id new).1).1.trans_le segments

end Adelie.Manifest
