import Adelie.Manifest.Definition
import Adelie.Manifest.Remade
import Adelie.Manifest.Run

namespace Adelie

/-- A definition under change, its columns by identity: `order` is what the last ORDER BY clause
    denoted where it stood. -/
structure Altered where
  schema : List SchemaField
  next : Nat
  order : Option (List Nat)

def idIn (schema : List SchemaField) (name : String) : Nat :=
  ((schema.find? (·.field.name == name)).map (·.id)).getD 0

/-- What one clause means. -/
def Alter.act (a : Altered) : Alter → Altered
  | .addColumn f => { a with schema := a.schema ++ [⟨a.next, f⟩], next := a.next + 1 }
  | .dropColumn c => { a with schema := a.schema.filter fun f => !AlterState.named c f }
  | .renameColumn old new => { a with
      schema := a.schema.map fun f => if AlterState.named old f then ⟨f.id, ⟨new, f.field.ty⟩⟩ else f }
  | .orderBy cols => { a with order := some (cols.map (idIn a.schema)) }
  | .partitionBy _ => a
  | .setType _ _ => a

def altered (source : TableEntry) (ops : List Alter) : Altered :=
  ops.foldl Alter.act ⟨source.schema, source.nextFieldId, none⟩

/-- The sort an ORDER BY clause asks for: no column means KEY on a keyed engine, and no clause the sort
    the table has. -/
def denotedOrder (source : TableEntry) : Option (List Nat) → List Nat
  | none => source.orderBy
  | some ids => if ids.isEmpty && (engineRules source.engine).any (·.keyed) then source.key else ids

/-- A column that a clause or a tombstone of the source names. -/
def Pinned (source : TableEntry) (id : Nat) : Prop :=
  id ∈ source.key ∨ id ∈ source.version ∨ (∃ p ∈ source.partitionBy, p.column = id) ∨
    (∃ l ∈ source.ttl, l.column = id) ∨
    ∃ t ∈ source.tombstones, ∃ p ∈ t.predicates, ∃ f ∈ source.schema, f.field.name = p.column ∧ f.id = id

/-- A TIMESTAMP column of the schema. -/
def TimestampIn (schema : List SchemaField) (id : Nat) : Prop := ∃ f ∈ schema, f.id = id ∧ f.field.ty = .timestamp

/-- What every definition of a store keeps: its clauses name its columns, and its sort is resolved. -/
structure TableEntry.Defined (t : TableEntry) : Prop where
  schema : t.SchemaOk
  key_live : ∀ id ∈ t.key, id ∈ t.schemaIds
  version_live : ∀ id ∈ t.version, id ∈ t.schemaIds
  orderBy_live : ∀ id ∈ t.orderBy, id ∈ t.schemaIds
  partitionBy_live : ∀ p ∈ t.partitionBy, TimestampIn t.schema p.column
  ttl_live : ∀ l ∈ t.ttl, TimestampIn t.schema l.column
  keyed : t.key ≠ [] → (engineRules t.engine).any (·.keyed) = true
  resolved : t.orderBy = [] → t.key = []

/-- What an accepted plan makes of a table. -/
structure AlterLaw (source : TableEntry) (ops : List Alter) (target : TableEntry) : Prop where
  schema : target.schema = (altered source ops).schema
  kept : ∀ f ∈ target.schema, ∀ g ∈ source.schema, g.id = f.id → g.field.ty = f.field.ty
  added : ∀ f ∈ target.schema, f.id ∉ source.schemaIds → source.nextFieldId ≤ f.id
  ids_nodup : target.schemaIds.Nodup
  clauses : target.key = source.key ∧ target.version = source.version ∧ target.partitionBy = source.partitionBy ∧
    target.ttl = source.ttl
  defined_ : target.Defined
  orderBy : target.orderBy = denotedOrder source (altered source ops).order
  tombstones : ∀ t ∈ source.tombstones, ∀ p ∈ t.predicates, ∀ f ∈ source.schema, f.field.name = p.column →
    f.id ∈ target.schemaIds
  rewrites : rewritesSegments source target = true ↔
    target.orderBy ≠ source.orderBy ∨ target.partitionBy ≠ source.partitionBy

section Schema

variable {schema : List SchemaField} {name : String} {spot : Located SchemaField}

theorem names_ne (nodup : (schema.map (·.field.name)).Nodup) (at_ : position (AlterState.named name) schema = some spot) :
    ∀ f ∈ spot.removed, AlterState.named name f = false := by
  obtain ⟨whole, found, _⟩ := position_eq_some at_
  have here : spot.found.field.name = name := by simpa [AlterState.named] using found
  rw [whole] at nodup
  have apart := (((spot.replaced_perm spot.found).map (·.field.name)).nodup_iff.mp nodup)
  rw [List.map_cons, List.nodup_cons] at apart
  intro f member
  have other : f.field.name ≠ name := by
    intro same
    exact apart.1 (here ▸ same ▸ List.mem_map_of_mem member)
  simpa [AlterState.named] using other

theorem removed_eq_filter (nodup : (schema.map (·.field.name)).Nodup)
    (at_ : position (AlterState.named name) schema = some spot) :
    spot.removed = schema.filter fun f => !AlterState.named name f := by
  have others := names_ne nodup at_
  obtain ⟨whole, found, _⟩ := position_eq_some at_
  rw [whole, Located.replaced, List.filter_append, List.filter_cons]
  simp only [found, Bool.not_true, Bool.false_eq_true, if_false]
  rw [List.filter_eq_self.mpr, List.filter_eq_self.mpr]
  · rfl
  · intro f member
    rw [others f (List.mem_append_right _ member)]
    rfl
  · intro f member
    rw [others f (List.mem_append_left _ member)]
    rfl

theorem replaced_eq_map (nodup : (schema.map (·.field.name)).Nodup)
    (at_ : position (AlterState.named name) schema = some spot) (new : String) :
    spot.replaced ⟨spot.found.id, ⟨new, spot.found.field.ty⟩⟩ =
      schema.map fun f => if AlterState.named name f then ⟨f.id, ⟨new, f.field.ty⟩⟩ else f := by
  have others := names_ne nodup at_
  obtain ⟨whole, found, _⟩ := position_eq_some at_
  have same : ∀ l : List SchemaField, (∀ f ∈ l, AlterState.named name f = false) →
      (l.map fun f => if AlterState.named name f then (⟨f.id, ⟨new, f.field.ty⟩⟩ : SchemaField) else f) = l := by
    intro l free
    refine (List.map_congr_left fun f member => ?_).trans (List.map_id l)
    rw [free f member]
    rfl
  conv_rhs => rw [whole, Located.replaced, List.map_append, List.map_cons]
  rw [same _ fun f member => others f (List.mem_append_left _ member),
    same _ fun f member => others f (List.mem_append_right _ member), found]
  rfl

end Schema

/-- The columns a sort names while it is planned: an ORDER BY equal to KEY stands for no clause. -/
def orderOf (source : TableEntry) (a : Altered) : List Nat :=
  a.order.getD (if source.orderBy = source.key then [] else source.orderBy)

/-- The planner's state, which goes by names, and the columns it stands for. -/
structure Mirrors (source : TableEntry) (a : Altered) (st : AlterState) : Prop where
  schema : st.schema = a.schema
  next : st.nextFieldId = a.next
  ids : SchemaIds st.schema st.nextFieldId
  next_pos : 0 < st.nextFieldId
  names : (st.schema.map (·.field.name)).Nodup
  descends : Descends source st.schema st.nextFieldId
  order : st.orderBy = (orderOf source a).map (nameIn st.schema)
  order_live : ∀ id ∈ orderOf source a, id ∈ st.schema.map (·.id)
  pinned : ∀ id, Pinned source id → id ∈ st.schema.map (·.id)

namespace Mirrors

variable {source : TableEntry} {a : Altered} {st st' : AlterState} {op : Alter}

theorem start (ok : source.Defined) :
    Mirrors source ⟨source.schema, source.nextFieldId, none⟩
      ⟨source.schema, source.nextFieldId, source.spec.orderBy⟩ := by
  refine ⟨rfl, rfl, ok.schema.ids, ok.schema.next_pos, ok.schema.names_nodup, ⟨Nat.le_refl _, ?_⟩, ?_, ?_, ?_⟩
  · intro f member
    exact .inr ⟨f, member, rfl, rfl⟩
  · show source.spec.orderBy = (if source.orderBy = source.key then [] else source.orderBy).map _
    unfold TableEntry.spec
    by_cases same : source.orderBy = source.key
    · simp [same]
    · by_cases none_ : source.orderBy = []
      · simp [none_]
      · simp only [same, if_false]
        rw [if_pos (by simp [same, none_])]
        rfl
  · intro id member
    have listed : id ∈ (if source.orderBy = source.key then [] else source.orderBy) := member
    split at listed
    · cases listed
    · exact ok.orderBy_live id listed
  · rintro id (key | version | ⟨p, is, rfl⟩ | ⟨l, is, rfl⟩ | ⟨t, _, p, _, f, member, _, rfl⟩)
    · exact ok.key_live id key
    · exact ok.version_live id version
    · obtain ⟨f, member, same, _⟩ := ok.partitionBy_live p is
      exact same ▸ List.mem_map_of_mem member
    · obtain ⟨f, member, same, _⟩ := ok.ttl_live l is
      exact same ▸ List.mem_map_of_mem member
    · exact List.mem_map_of_mem member

/-- The rest of the invariant follows from what the step makes of the schema and of the sort. -/
theorem of_step (mirrors : Mirrors source a st) (stepped : AlterState.step source st op = .ok st') {b : Altered}
    (schema : st'.schema = b.schema) (next : st'.nextFieldId = b.next)
    (names : (st'.schema.map (·.field.name)).Nodup)
    (order : ∀ id ∈ orderOf source b, ∃ f ∈ st'.schema, f.id = id)
    (spelled : st'.orderBy = (orderOf source b).map (nameIn st'.schema))
    (pinned : ∀ id, Pinned source id → ∃ f ∈ st'.schema, f.id = id) : Mirrors source b st' := by
  obtain ⟨ids, next_pos⟩ := AlterState.step_ids stepped mirrors.ids mirrors.next_pos
  refine ⟨schema, next, ids, next_pos, names, AlterState.step_descends stepped mirrors.descends, spelled, ?_, ?_⟩
  · intro id member
    obtain ⟨f, inside, rfl⟩ := order id member
    exact List.mem_map_of_mem inside
  · intro id held
    obtain ⟨f, inside, rfl⟩ := pinned id held
    exact List.mem_map_of_mem inside

theorem found (mirrors : Mirrors source a st) {id : Nat} (member : id ∈ st.schema.map (·.id)) :
    ∃ f ∈ st.schema, f.id = id ∧ nameIn st.schema id = f.field.name := by
  obtain ⟨f, inside, rfl⟩ := List.mem_map.mp member
  exact ⟨f, inside, rfl, nameIn_of_mem mirrors.ids.nodup inside⟩

theorem add (mirrors : Mirrors source a st) {f : Field} (stepped : AlterState.step source st (.addColumn f) = .ok st') :
    Mirrors source (Alter.act a (.addColumn f)) st' := by
  obtain ⟨ids, _⟩ := AlterState.step_ids stepped mirrors.ids mirrors.next_pos
  have step := stepped
  simp only [AlterState.step] at step
  obtain ⟨_, new, made⟩ := Except.bind_eq_ok.mp step
  rw [ensure_eq_ok] at new
  cases made
  have kept : ∀ g ∈ st.schema, g ∈ st.schema ++ [⟨st.nextFieldId, f⟩] := fun g => List.mem_append_left _
  refine mirrors.of_step stepped ?_ ?_ ?_ ?_ ?_ ?_
  · show st.schema ++ [⟨st.nextFieldId, f⟩] = a.schema ++ [⟨a.next, f⟩]
    rw [mirrors.schema, mirrors.next]
  · show st.nextFieldId + 1 = a.next + 1
    rw [mirrors.next]
  · rw [List.map_append]
    refine List.nodup_append.mpr ⟨mirrors.names, List.nodup_singleton _, ?_⟩
    rintro name member name' fresh rfl
    obtain ⟨g, inside, rfl⟩ := List.mem_map.mp member
    have same : g.field.name = f.name := by simpa using fresh
    simp only [Bool.not_eq_true', List.any_eq_false, AlterState.named] at new
    exact new g inside (by simpa using same)
  · intro id member
    obtain ⟨g, inside, rfl, _⟩ := mirrors.found (mirrors.order_live id member)
    exact ⟨g, kept g inside, rfl⟩
  · show st.orderBy = _
    rw [mirrors.order]
    refine List.map_congr_left fun id member => ?_
    obtain ⟨g, inside, rfl, named⟩ := mirrors.found (mirrors.order_live id member)
    rw [named, nameIn_of_mem ids.nodup (kept g inside)]
  · intro id held
    obtain ⟨g, inside, rfl, _⟩ := mirrors.found (mirrors.pinned id held)
    exact ⟨g, kept g inside, rfl⟩

/-- A column DROP COLUMN lets go is named by no clause of the source and by no tombstone. -/
theorem free_of_checkDrop (mirrors : Mirrors source a st) (nodup : source.schemaIds.Nodup) {id : Nat} {c : String}
    {u : Unit} (passed : AlterState.checkDrop source st id c = .ok u) : ¬ Pinned source id ∧ c ∉ st.orderBy := by
  unfold AlterState.checkDrop at passed
  obtain ⟨_, _, passed⟩ := Except.bind_eq_ok.mp passed
  obtain ⟨_, key, passed⟩ := Except.bind_eq_ok.mp passed
  obtain ⟨_, version, passed⟩ := Except.bind_eq_ok.mp passed
  obtain ⟨_, order, passed⟩ := Except.bind_eq_ok.mp passed
  obtain ⟨_, partitioned, passed⟩ := Except.bind_eq_ok.mp passed
  obtain ⟨_, ttl, passed⟩ := Except.bind_eq_ok.mp passed
  rw [ensure_eq_ok] at key version order partitioned ttl
  refine ⟨?_, by simpa using order⟩
  rintro (held | held | ⟨p, is, rfl⟩ | ⟨l, is, rfl⟩ | ⟨t, marked, p, named, f, member, same, rfl⟩)
  · simp [held] at key
  · rw [Option.mem_def] at held
    simp [held] at version
  · rw [Option.mem_def] at is
    simp [is] at partitioned
  · rw [Option.mem_def] at is
    simp [is] at ttl
  · have name : ((source.field f.id).map (·.field.name)).getD c = p.column := by
      have found : source.field f.id = some f := by
        cases at_ : source.field f.id with
        | none =>
          have missing := List.find?_eq_none.mp at_ f member
          simp at missing
        | some g =>
          have inside := List.mem_of_find?_eq_some at_
          have sameId : g.id = f.id := by simpa using List.find?_some at_
          rw [List.inj_on_of_nodup_map nodup inside member sameId]
      rw [found]
      exact same
    simp only [name] at passed
    cases at_ : AlterState.tombstoneOn source p.column with
    | some seq => simp [at_] at passed
    | none =>
      unfold AlterState.tombstoneOn at at_
      have missing := List.find?_eq_none.mp (Option.map_eq_none_iff.mp at_) t marked
      refine missing (List.any_eq_true.mpr ⟨p, named, by simp⟩)

theorem drop (mirrors : Mirrors source a st) (nodup : source.schemaIds.Nodup) {c : String}
    (stepped : AlterState.step source st (.dropColumn c) = .ok st') :
    Mirrors source (Alter.act a (.dropColumn c)) st' := by
  obtain ⟨ids, _⟩ := AlterState.step_ids stepped mirrors.ids mirrors.next_pos
  have step := stepped
  simp only [AlterState.step] at step
  split at step
  · cases step
  · rename_i spot at_
    obtain ⟨_, passed, made⟩ := Except.bind_eq_ok.mp step
    cases made
    obtain ⟨free, unsorted⟩ := mirrors.free_of_checkDrop nodup passed
    obtain ⟨whole, found, _⟩ := position_eq_some at_
    have here : spot.found.field.name = c := by simpa [AlterState.named] using found
    have sub : spot.removed.Sublist st.schema := by
      rw [whole]
      exact spot.removed_sublist _
    -- a column other than the dropped one stays
    have kept : ∀ g ∈ st.schema, g.id ≠ spot.found.id → g ∈ spot.removed := by
      intro g inside other
      rw [whole] at inside
      rcases Located.mem_replaced.mp inside with rfl | inside
      · exact absurd rfl other
      · exact inside
    have sorted : ∀ id ∈ orderOf source a, ∃ g ∈ spot.removed, g.id = id ∧ nameIn st.schema id = g.field.name := by
      intro id member
      obtain ⟨g, inside, rfl, named⟩ := mirrors.found (mirrors.order_live id member)
      refine ⟨g, kept g inside ?_, rfl, named⟩
      intro same
      have dropped : spot.found ∈ st.schema := by
        rw [whole]
        exact Located.mem_replaced.mpr (.inl rfl)
      have twin := List.inj_on_of_nodup_map mirrors.ids.nodup inside dropped same
      apply unsorted
      rw [mirrors.order, ← here, ← twin, ← named]
      exact List.mem_map_of_mem member
    refine mirrors.of_step stepped ?_ mirrors.next ?_ ?_ ?_ ?_
    · show spot.removed = a.schema.filter _
      rw [removed_eq_filter mirrors.names at_, mirrors.schema]
    · exact mirrors.names.sublist (sub.map _)
    · intro id member
      obtain ⟨g, inside, same, _⟩ := sorted id member
      exact ⟨g, inside, same⟩
    · show st.orderBy = _
      rw [mirrors.order]
      refine List.map_congr_left fun id member => ?_
      obtain ⟨g, inside, rfl, named⟩ := sorted id member
      rw [named, nameIn_of_mem ids.nodup inside]
    · intro id held
      obtain ⟨g, inside, rfl, _⟩ := mirrors.found (mirrors.pinned id held)
      refine ⟨g, kept g inside ?_, rfl⟩
      intro same
      exact free (same ▸ held)

theorem rename (mirrors : Mirrors source a st) {old new : String}
    (stepped : AlterState.step source st (.renameColumn old new) = .ok st') :
    Mirrors source (Alter.act a (.renameColumn old new)) st' := by
  obtain ⟨ids, _⟩ := AlterState.step_ids stepped mirrors.ids mirrors.next_pos
  have step := stepped
  simp only [AlterState.step] at step
  split at step
  · cases step
  · rename_i spot at_
    obtain ⟨_, fresh, made⟩ := Except.bind_eq_ok.mp step
    rw [ensure_eq_ok] at fresh
    cases made
    have shape := replaced_eq_map mirrors.names at_ new
    have absent : ∀ g ∈ st.schema, g.field.name ≠ new := by
      simpa [AlterState.named] using fresh
    let renamed : SchemaField → SchemaField := fun f =>
      if AlterState.named old f then ⟨f.id, ⟨new, f.field.ty⟩⟩ else f
    have shape : spot.replaced ⟨spot.found.id, ⟨new, spot.found.field.ty⟩⟩ = st.schema.map renamed := shape
    have sameId : ∀ g, (renamed g).id = g.id := by
      intro g
      show (if AlterState.named old g then (⟨g.id, ⟨new, g.field.ty⟩⟩ : SchemaField) else g).id = g.id
      split <;> rfl
    have name : ∀ g, (renamed g).field.name = if g.field.name = old then new else g.field.name := by
      intro g
      by_cases is : g.field.name = old
      · simp [renamed, AlterState.named, is]
      · simp [renamed, AlterState.named, is]
    refine mirrors.of_step stepped ?_ mirrors.next ?_ ?_ ?_ ?_
    · show spot.replaced _ = a.schema.map _
      rw [shape, mirrors.schema]
    · show ((spot.replaced _).map (·.field.name)).Nodup
      rw [shape, List.map_map]
      refine List.Nodup.map_on ?_ (List.Nodup.of_map _ mirrors.names)
      intro g inside h member same
      simp only [Function.comp_apply, name] at same
      apply List.inj_on_of_nodup_map mirrors.names inside member
      have := absent g inside
      have := absent h member
      split at same <;> split at same <;> simp_all
    · intro id member
      obtain ⟨g, inside, rfl, _⟩ := mirrors.found (mirrors.order_live id member)
      exact ⟨renamed g, shape ▸ List.mem_map_of_mem inside, sameId g⟩
    · show st.orderBy.map (fun n => if n = old then new else n) = _
      rw [mirrors.order, List.map_map]
      refine List.map_congr_left fun id member => ?_
      obtain ⟨g, inside, rfl, named⟩ := mirrors.found (mirrors.order_live id member)
      have here : nameIn (spot.replaced ⟨spot.found.id, ⟨new, spot.found.field.ty⟩⟩) (renamed g).id =
          (renamed g).field.name := nameIn_of_mem ids.nodup (shape ▸ List.mem_map_of_mem inside)
      rw [sameId, name] at here
      rw [Function.comp_apply, named]
      exact here.symm
    · intro id held
      obtain ⟨g, inside, rfl, _⟩ := mirrors.found (mirrors.pinned id held)
      exact ⟨renamed g, shape ▸ List.mem_map_of_mem inside, sameId g⟩

theorem orderBy (mirrors : Mirrors source a st) {cols : List String}
    (stepped : AlterState.step source st (.orderBy cols) = .ok st') :
    Mirrors source (Alter.act a (.orderBy cols)) st' := by
  have step := stepped
  simp only [AlterState.step] at step
  split at step
  · cases step
  · rename_i known
    cases step
    have each : ∀ c ∈ cols, ∃ f ∈ st.schema, f.id = idIn a.schema c ∧ f.field.name = c := by
      intro c member
      have listed : st.schema.any (AlterState.named c) = true := by
        simpa using List.find?_eq_none.mp known c member
      obtain ⟨g, inside, named⟩ := List.any_eq_true.mp listed
      cases at_ : st.schema.find? (·.field.name == c) with
      | none => exact absurd named (List.find?_eq_none.mp at_ g inside)
      | some f =>
        refine ⟨f, List.mem_of_find?_eq_some at_, ?_, by simpa using List.find?_some at_⟩
        rw [idIn, ← mirrors.schema, at_]
        rfl
    refine mirrors.of_step stepped mirrors.schema mirrors.next mirrors.names ?_ ?_ ?_
    · intro id member
      obtain ⟨c, listed, rfl⟩ := List.mem_map.mp (show id ∈ cols.map (idIn a.schema) from member)
      obtain ⟨f, inside, same, _⟩ := each c listed
      exact ⟨f, inside, same⟩
    · show cols = (cols.map (idIn a.schema)).map (nameIn st.schema)
      rw [List.map_map]
      refine ((List.map_congr_left fun c member => ?_).trans (List.map_id cols)).symm
      obtain ⟨f, inside, same, named⟩ := each c member
      rw [Function.comp_apply, ← same, nameIn_of_mem mirrors.ids.nodup inside]
      exact named
    · intro id held
      obtain ⟨g, inside, rfl, _⟩ := mirrors.found (mirrors.pinned id held)
      exact ⟨g, inside, rfl⟩

theorem step (mirrors : Mirrors source a st) (nodup : source.schemaIds.Nodup)
    (stepped : AlterState.step source st op = .ok st') : Mirrors source (Alter.act a op) st' := by
  cases op with
  | addColumn f => exact mirrors.add stepped
  | dropColumn c => exact mirrors.drop nodup stepped
  | renameColumn old new => exact mirrors.rename stepped
  | orderBy cols => exact mirrors.orderBy stepped
  | partitionBy clause => cases stepped
  | setType column ty =>
    simp only [AlterState.step] at stepped
    split at stepped
    · cases stepped
    · obtain ⟨_, _, made⟩ := Except.bind_eq_ok.mp stepped
      cases made

theorem run (mirrors : Mirrors source a st) (nodup : source.schemaIds.Nodup) {ops : List Alter}
    (ran : AlterState.run source st ops = .ok st') : Mirrors source (ops.foldl Alter.act a) st' := by
  induction ops generalizing a st with
  | nil =>
    cases ran
    exact mirrors
  | cons op ops ih =>
    obtain ⟨mid, stepped, rest⟩ := Except.bind_eq_ok.mp (by simpa [AlterState.run] using ran)
    exact ih (mirrors.step nodup stepped) rest

/-- The names of live columns resolve to those columns again. -/
theorem resolve (mirrors : Mirrors source a st) (message : String) {ids : List Nat}
    (live : ∀ id ∈ ids, id ∈ st.schema.map (·.id)) :
    (ids.map (nameIn st.schema)).mapM (expectFieldId st.schema message) = .ok ids := by
  induction ids with
  | nil => rfl
  | cons id rest ih =>
    obtain ⟨here, there⟩ := List.forall_mem_cons.mp live
    obtain ⟨f, inside, rfl, named⟩ := mirrors.found here
    have own : expectFieldId st.schema message f.field.name = .ok f.id := by
      cases at_ : st.schema.find? (·.field.name == f.field.name) with
      | none =>
        have missing := List.find?_eq_none.mp at_ f inside
        simp at missing
      | some g =>
        have sameName : g.field.name = f.field.name := by simpa using List.find?_some at_
        have twin := List.inj_on_of_nodup_map mirrors.names (List.mem_of_find?_eq_some at_) inside sameName
        rw [expectFieldId, at_, twin]
    rw [List.map_cons, List.mapM_cons, named, own, ih there]
    rfl

end Mirrors

/-- The columns the target of a plan sorts by. -/
def sortIds (source : TableEntry) (a : Altered) : List Nat :=
  if (orderOf source a).isEmpty && (engineRules source.engine).any (·.keyed) && !source.key.isEmpty then source.key
  else orderOf source a

theorem sortIds_eq {source : TableEntry} (ok : source.Defined) (a : Altered) :
    sortIds source a = denotedOrder source a.order := by
  unfold sortIds orderOf denotedOrder
  cases a.order with
  | some ids =>
    by_cases bare : source.key = []
    · by_cases none_ : ids = [] <;> simp [bare, none_]
    · simp [bare]
  | none =>
    by_cases same : source.orderBy = source.key
    · by_cases bare : source.key = []
      · simp [same, bare]
      · simp [same, bare, ok.keyed bare]
    · have some_ : source.orderBy ≠ [] := by
        intro none_
        exact same (none_.trans (ok.resolved none_).symm)
      simp [same, some_]

variable {source target : TableEntry} {ops : List Alter}

/-- A plan that is accepted does what its clauses say, by identity. -/
theorem planAlter_lawful (ok : source.Defined) (planned : planAlter source ops = .ok target) :
    AlterLaw source ops target := by
  have spec := planAlter_spec planned ok.schema
  unfold planAlter at planned
  obtain ⟨_, _, planned⟩ := Except.bind_eq_ok.mp planned
  obtain ⟨st, ran, planned⟩ := Except.bind_eq_ok.mp planned
  have mirrors := (Mirrors.start ok).run ok.schema.ids.nodup ran
  obtain ⟨orderBy, resolved, planned⟩ := Except.bind_eq_ok.mp planned
  obtain ⟨_, _, made⟩ := Except.bind_eq_ok.mp planned
  cases made
  have live : ∀ id ∈ sortIds source (altered source ops), id ∈ st.schema.map (·.id) := by
    intro id member
    unfold sortIds at member
    split at member
    · exact mirrors.pinned id (.inl member)
    · exact mirrors.order_live id member
  have sorted : orderBy = denotedOrder source (altered source ops).order := by
    rw [← sortIds_eq ok]
    have names := mirrors.resolve "resolved_order_by only names columns already checked to exist" live
    have spelled : (if st.orderBy.isEmpty && (engineRules source.engine).any (·.keyed) &&
        !(source.key.map (nameIn st.schema)).isEmpty then source.key.map (nameIn st.schema) else st.orderBy) =
        (sortIds source (altered source ops)).map (nameIn st.schema) := by
      rw [mirrors.order]
      unfold sortIds altered
      simp only [List.isEmpty_map]
      split <;> rfl
    rw [← spelled] at names
    exact Except.ok.inj (resolved.symm.trans names)
  have timestamp : ∀ id, TimestampIn source.schema id → Pinned source id → TimestampIn st.schema id := by
    rintro id ⟨g, inside, rfl, ty⟩ held
    obtain ⟨f, member, same, _⟩ := mirrors.found (mirrors.pinned _ held)
    refine ⟨f, member, same, ?_⟩
    rw [← ty]
    exact mirrors.descends.typesAgree ok.schema.ids f member g inside same
  refine ⟨mirrors.schema, ?_, ?_, spec.schema.ids.nodup, ⟨rfl, rfl, rfl, rfl⟩, ?_, sorted, ?_, ?_⟩
  · intro f member g inside same
    exact (mirrors.descends.typesAgree ok.schema.ids f member g inside same.symm).symm
  · intro f member absent
    rcases mirrors.descends.origin f member with fresh | ⟨g, inside, same, _⟩
    · exact fresh
    · exact absurd (same ▸ List.mem_map_of_mem inside) absent
  · refine ⟨spec.schema, fun id held => mirrors.pinned id (.inl held),
      fun id held => mirrors.pinned id (.inr (.inl held)), ?_, ?_, ?_, ok.keyed, ?_⟩
    · show ∀ id ∈ orderBy, id ∈ st.schema.map (·.id)
      rw [sorted, ← sortIds_eq ok]
      exact live
    · intro p is
      exact timestamp _ (ok.partitionBy_live p is) (.inr (.inr (.inl ⟨p, is, rfl⟩)))
    · intro l is
      exact timestamp _ (ok.ttl_live l is) (.inr (.inr (.inr (.inl ⟨l, is, rfl⟩))))
    · show orderBy = [] → source.key = []
      rw [sorted, ← sortIds_eq ok]
      intro none_
      unfold sortIds at none_
      by_contra bare
      simp only [ok.keyed bare, Bool.and_true] at none_
      split at none_
      · exact bare none_
      · rename_i explicit
        simp [none_, bare] at explicit
  · intro t marked p named f inside same
    exact mirrors.pinned f.id (.inr (.inr (.inr (.inr ⟨t, marked, p, named, f, inside, same, rfl⟩))))
  · unfold rewritesSegments
    simp only [Bool.or_eq_true, bne_iff_ne]
    exact or_congr ne_comm ne_comm

theorem expectFieldId_mem {schema : List SchemaField} {message name : String} {id : Nat}
    (made : expectFieldId schema message name = .ok id) :
    ∃ f, schema.find? (·.field.name == name) = some f ∧ f ∈ schema ∧ f.id = id := by
  unfold expectFieldId at made
  split at made
  · rename_i f found
    cases made
    exact ⟨f, found, List.mem_of_find?_eq_some found, rfl⟩
  · cases made

theorem find?_numbered (columns : List Field) (name : String) :
    ((numbered columns).find? (·.field.name == name)).map (·.field) = columns.find? (·.name == name) := by
  conv_rhs => rw [← numbered_fields columns]
  rw [List.find?_map]
  rfl

/-- A clause on a TIMESTAMP column resolves to that column. -/
theorem newFieldId_timestamp {s : TableSpec} {table clause name : String} {id : Nat} {u : Unit}
    (typed : s.checkTimestampColumn table clause name = .ok u) (made : newFieldId s.columns name = .ok id) :
    TimestampIn (numbered s.columns) id := by
  obtain ⟨f, found, inside, same⟩ := expectFieldId_mem made
  have column : s.column name = some f.field := by
    rw [TableSpec.column, ← find?_numbered, found]
    rfl
  unfold TableSpec.checkTimestampColumn at typed
  rw [column] at typed
  exact ⟨f, inside, same, of_decide_eq_true (ensure_eq_ok.mp typed)⟩

namespace Reads

variable {s : TableSpec} {entry : TableEntry}

theorem durations (valid : s.validate = .ok ()) : s.checkDurations s.name.display = .ok () := by
  unfold TableSpec.validate at valid
  obtain ⟨_, _, valid⟩ := Except.bind_eq_ok.mp valid
  obtain ⟨_, _, valid⟩ := Except.bind_eq_ok.mp valid
  split at valid
  · cases valid
  · obtain ⟨_, _, valid⟩ := Except.bind_eq_ok.mp valid
    obtain ⟨_, _, timed⟩ := Except.bind_eq_ok.mp valid
    exact timed

theorem partition_timestamp (timed : s.checkDurations s.name.display = .ok ()) :
    ∀ p ∈ s.partitionBy, s.checkTimestampColumn s.name.display "PARTITION BY" p.1 = .ok () := by
  intro p is
  unfold TableSpec.checkDurations at timed
  rw [Option.mem_def.mp is] at timed
  obtain ⟨_, typed, _⟩ := Except.bind_eq_ok.mp timed
  exact typed

theorem ttl_timestamp (timed : s.checkDurations s.name.display = .ok ()) :
    ∀ p ∈ s.ttl, s.checkTimestampColumn s.name.display "TTL" p.1 = .ok () := by
  intro p is
  unfold TableSpec.checkDurations at timed
  rw [Option.mem_def.mp is] at timed
  cases given : s.partitionBy with
  | none =>
    rw [given] at timed
    obtain ⟨_, typed, _⟩ := Except.bind_eq_ok.mp timed
    exact typed
  | some bucket =>
    rw [given] at timed
    obtain ⟨_, _, timed⟩ := Except.bind_eq_ok.mp timed
    obtain ⟨_, _, timed⟩ := Except.bind_eq_ok.mp timed
    obtain ⟨_, typed, _⟩ := Except.bind_eq_ok.mp timed
    exact typed

/-- PARTITION BY and TTL, as they are resolved. -/
theorem clause_timestamp {β : Type} (make : Nat → Duration → β) (column : β → Nat)
    (made_column : ∀ id after, column (make id after) = id) {clause : Option (String × Duration)} {found : Option β}
    {label : String}
    (made : clause.mapM (fun p => do return make (← newFieldId s.columns p.1) p.2) = .ok found)
    (typed : ∀ p ∈ clause, s.checkTimestampColumn s.name.display label p.1 = .ok ()) :
    ∀ p ∈ found, TimestampIn (numbered s.columns) (column p) := by
  intro p is
  rw [Option.mem_def] at is
  cases clause with
  | none =>
    cases made
    cases is
  | some pair =>
    rw [Option.mapM_some] at made
    obtain ⟨b, here, same⟩ := Except.bind_eq_ok.mp made
    obtain ⟨id, resolved, whole⟩ := Except.bind_eq_ok.mp here
    cases whole
    cases same
    cases is
    rw [made_column]
    exact newFieldId_timestamp (typed pair rfl) resolved

theorem schemaOk (reads : Reads s entry) (valid : s.validate = .ok ()) : entry.SchemaOk := by
  have nodup := numbered_ids s.columns
  have bounds : ∀ f ∈ numbered s.columns, 0 < f.id ∧ f.id < s.columns.length + 1 := by
    intro f member
    obtain ⟨i, small, rfl⟩ := List.mem_mapIdx.mp member
    exact ⟨Nat.succ_pos i, Nat.succ_lt_succ small⟩
  refine ⟨⟨?_, ?_, ?_⟩, ?_, ?_⟩
  · rw [reads.schema]
    exact nodup
  · rw [reads.schema]
    exact fun f member => (bounds f member).1
  · rw [reads.schema, reads.nextFieldId]
    exact fun f member => (bounds f member).2
  · have names := (TableSpec.valid_of_validate valid).names_nodup
    rw [← numbered_fields s.columns, List.map_map] at names
    rw [reads.schema]
    exact names
  · rw [reads.nextFieldId]
    exact Nat.succ_pos _

/-- A table is defined when it is made. -/
theorem defined_ (reads : Reads s entry) (valid : s.validate = .ok ()) : entry.Defined := by
  have made := reads.resolves
  have keyed := TableSpec.keyed_of_validate valid
  have timed := durations valid
  have listed : ∀ (names : List String) (ids : List Nat), names.mapM (newFieldId s.columns) = .ok ids →
      ∀ id ∈ ids, id ∈ entry.schemaIds := by
    intro names ids each id member
    obtain ⟨name, _, found⟩ := List.Forall₂.source (forall₂_of_mapM_except each) member
    obtain ⟨f, _, inside, rfl⟩ := expectFieldId_mem found
    rw [TableEntry.schemaIds, reads.schema]
    exact List.mem_map_of_mem inside
  refine ⟨reads.schemaOk valid, listed _ _ made.key, ?_, listed _ _ made.orderBy, ?_, ?_, ?_, ?_⟩
  · intro id is
    have found := made.version
    rw [Option.mem_def] at is
    cases given : s.version with
    | none =>
      rw [given, is] at found
      cases found
    | some name =>
      rw [given, Option.mapM_some] at found
      obtain ⟨v, here, same⟩ := Except.bind_eq_ok.mp found
      obtain ⟨f, _, inside, rfl⟩ := expectFieldId_mem here
      rw [is] at same
      cases same
      rw [TableEntry.schemaIds, reads.schema]
      exact List.mem_map_of_mem inside
  · intro p is
    rw [reads.schema]
    exact clause_timestamp PartitionBy.mk PartitionBy.column (fun _ _ => rfl) made.partitionBy
      (partition_timestamp timed) p is
  · intro l is
    rw [reads.schema]
    exact clause_timestamp Ttl.mk Ttl.column (fun _ _ => rfl) made.ttl (ttl_timestamp timed) l is
  · intro some_
    have names : s.key ≠ [] := by
      rw [← reads.key]
      simpa using some_
    rw [reads.engine, keyed]
    simp [names]
  · intro none_
    have sorted : s.resolvedOrderBy = [] := by
      rw [← reads.orderBy, none_]
      rfl
    have bare : s.key = [] := by
      unfold TableSpec.resolvedOrderBy at sorted
      rw [keyed] at sorted
      by_contra some_
      split at sorted
      · exact some_ sorted
      · rename_i explicit
        simp [sorted, some_] at explicit
    rw [← reads.key] at bare
    simpa using bare

end Reads

namespace Manifest

/-- Every definition, live, retired or in the making, keeps its clauses in order. -/
def AllDefined (m : Manifest) : Prop := ∀ t ∈ m.entries, t.Defined

/-- Segments and tombstones are no part of a definition. -/
theorem Defined.with_rows {t u : TableEntry} (ok : t.Defined) (engine : u.engine = t.engine) (schema : u.schema = t.schema)
    (next : t.nextFieldId ≤ u.nextFieldId) (key : u.key = t.key) (version : u.version = t.version)
    (orderBy : u.orderBy = t.orderBy) (partitionBy : u.partitionBy = t.partitionBy) (ttl : u.ttl = t.ttl) : u.Defined := by
  have ids : u.schemaIds = t.schemaIds := by rw [TableEntry.schemaIds, schema]; rfl
  have schemaOk : u.SchemaOk := by
    refine ⟨⟨?_, ?_, ?_⟩, ?_, ok.schema.next_pos.trans_le next⟩
    · rw [schema]
      exact ok.schema.ids.nodup
    · rw [schema]
      exact ok.schema.ids.positive
    · rw [schema]
      exact fun f member => (ok.schema.ids.below f member).trans_le next
    · rw [schema]
      exact ok.schema.names_nodup
  refine ⟨schemaOk, ?_, ?_, ?_, ?_, ?_, ?_, ?_⟩
  · rw [key, ids]
    exact ok.key_live
  · rw [version, ids]
    exact ok.version_live
  · rw [orderBy, ids]
    exact ok.orderBy_live
  · rw [partitionBy, schema]
    exact ok.partitionBy_live
  · rw [ttl, schema]
    exact ok.ttl_live
  · rw [key, engine]
    exact ok.keyed
  · rw [orderBy, key]
    exact ok.resolved

theorem Remade.defined_ {m : Manifest} {e : Edit} {t : TableEntry} (made : Remade m e t) (ok : m.AllDefined)
    (old : ∀ spec, e ≠ .createTable spec) : t.Defined := by
  cases made with
  | created new => exact absurd rfl (old _)
  | added live _ => exact Defined.with_rows (ok _ (entries_of_table live)) rfl rfl (Nat.le_refl _) rfl rfl rfl rfl rfl
  | thinned live => exact Defined.with_rows (ok _ (entries_of_table live)) rfl rfl (Nat.le_refl _) rfl rfl rfl rfl rfl
  | marked live _ => exact Defined.with_rows (ok _ (entries_of_table live)) rfl rfl (Nat.le_refl _) rfl rfl rfl rfl rfl
  | planned live plan =>
    exact Defined.with_rows (planAlter_lawful (ok _ (entries_of_table live)) plan).defined_ rfl rfl (Nat.le_refl _)
      rfl rfl rfl rfl rfl
  | advanced running _ _ _ advanced =>
    rw [advanced.job]
    exact Defined.with_rows (ok _ (entries_of_job running)) rfl rfl (Nat.le_refl _) rfl rfl rfl rfl rfl
  | swapped running _ _ _ _ _ =>
    exact Defined.with_rows (ok _ (entries_of_job running)) rfl rfl (Nat.le_refl _) rfl rfl rfl rfl rfl
  | reverted _ kept _ _ _ _ _ =>
    exact Defined.with_rows (ok _ (entries_of_retired kept)) rfl rfl (Nat.le_max_left _ _) rfl rfl rfl rfl rfl
  | emptied live => exact Defined.with_rows (ok _ (entries_of_table live)) rfl rfl (Nat.le_refl _) rfl rfl rfl rfl rfl

theorem applyEdit_defined {m m' : Manifest} {version nowMs : Nat} {e : Edit} (ok : m.AllDefined)
    (applied : applyEdit version nowMs m e = .ok m') : m'.AllDefined := by
  by_cases creates : ∃ spec, e = .createTable spec
  · obtain ⟨spec, rfl⟩ := creates
    obtain ⟨entry, valid, reads, rfl⟩ := createTable_reads applied
    intro t inside
    rcases mem_entries.mp inside with live | ⟨r, kept, rfl⟩ | ⟨j, running, rfl⟩
    · rcases mem_insertByKey.mp live with rfl | live
      · exact reads.defined_ valid
      · exact ok t (entries_of_table live)
    · exact ok _ (entries_of_retired kept)
    · exact ok _ (entries_of_job running)
  · intro t inside
    rcases applyEdit_remade applied t inside with old | made
    · exact ok t old
    · exact made.defined_ ok fun spec same => creates ⟨spec, same⟩

theorem admits_all (m : Manifest) (commits : List Timed) : Admits (fun _ _ => True) m commits := by
  induction commits generalizing m with
  | nil => exact True.intro
  | cons c rest ih => exact ⟨supplied_all _ _ _, ih _⟩

theorem allDefined_of_run (commits : List Timed) : (Manifest.empty.run commits).AllDefined := by
  refine @run_invariant (fun _ _ => True) AllDefined ?_ ?_ _ _ ?_ ?_
  · intro version nowMs m e m' _ ok applied
    exact applyEdit_defined ok applied
  · intro m version ok
    exact ok
  · exact admits_all _ _
  · intro t inside
    simp [entries, Manifest.empty] at inside

end Manifest

/-- A plan that is accepted over a table whose clauses are in order does what its own clauses say,
    whatever the order of renames, drops and additions; and every table of every store is so. -/
theorem planAlter_follows_clauses :
    (∀ (source target : TableEntry) (ops : List Alter), source.Defined → planAlter source ops = .ok target →
      AlterLaw source ops target) ∧
    ∀ commits : List Manifest.Timed, ∀ t ∈ (Manifest.empty.run commits).entries, t.Defined :=
  ⟨fun _ _ _ ok planned => planAlter_lawful ok planned, Manifest.allDefined_of_run⟩

/-- A keyed table, made by one commit. -/
def madeKeyed : List Manifest.Timed := [(⟨0, [.createTable keyedSpec]⟩, 0)]

def keyedEntry : TableEntry :=
  { id := 1
    name := ⟨"main", "events"⟩
    engine := "latest"
    schema := [⟨1, ⟨"id", .int64⟩⟩, ⟨2, ⟨"at", .timestamp⟩⟩]
    nextFieldId := 3
    key := [1]
    version := none
    orderBy := [1]
    partitionBy := none
    ttl := some ⟨2, 1000⟩
    options := []
    segments := []
    tombstones := [] }

/-- Two columns swap their names, and a new one takes up the name in between. -/
def swapNames : List Alter :=
  [.renameColumn "id" "t", .renameColumn "at" "id", .renameColumn "t" "at", .addColumn ⟨"t", .string⟩,
    .orderBy ["at", "t"]]

def swappedEntry : TableEntry :=
  { keyedEntry with
    id := 0
    schema := [⟨1, ⟨"at", .int64⟩⟩, ⟨2, ⟨"id", .timestamp⟩⟩, ⟨3, ⟨"t", .string⟩⟩]
    nextFieldId := 4
    orderBy := [1, 3] }

theorem planAlter_follows_clauses_swapped :
    keyedEntry ∈ (Manifest.empty.run madeKeyed).entries ∧ planAlter keyedEntry swapNames = .ok swappedEntry ∧
      AlterLaw keyedEntry swapNames swappedEntry := by
  have live : keyedEntry ∈ (Manifest.empty.run madeKeyed).entries := by
    have made : (Manifest.empty.run madeKeyed).tables = [keyedEntry] := by rfl
    exact Manifest.entries_of_table (by simp [made])
  have planned : planAlter keyedEntry swapNames = .ok swappedEntry := by rfl
  exact ⟨live, planned, planAlter_follows_clauses.1 _ _ _ (planAlter_follows_clauses.2 madeKeyed _ live) planned⟩

end Adelie
