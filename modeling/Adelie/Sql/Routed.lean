import Adelie.Exec.Joined
import Adelie.Lib.Run
import Adelie.Manifest.Spec
import Adelie.Sql.Ingest
import Adelie.Types.Exact

namespace Adelie

/-- The columns a row's calls have put a cell in, with the cells. -/
abbrev Placement := List (Nat × Value)

def placedCell (p : Placement) (i : Nat) : Value := (p.lookup i).getD .null

/-- A column of the rows done and of the row under construction. -/
def filled (done : List Placement) (started : Placement) (i : Nat) : List Value :=
  done.map (placedCell · i) ++ (started.lookup i).toList

def setsColumn (p : Placement) (i : Nat) : Bool := (p.lookup i).isSome

theorem lookup_single (col : Nat) (w : Value) (i : Nat) : [(col, w)].lookup i = if i = col then some w else none := by
  by_cases same : i = col
  · rw [same, List.lookup_cons_self, if_pos rfl]
  · have apart : (i == col) = false := by simpa using same
    rw [List.lookup_cons, apart, if_neg same]
    rfl

@[simp] theorem setsColumn_append (p q : Placement) (i : Nat) :
    setsColumn (p ++ q) i = (setsColumn p i || setsColumn q i) := by
  rw [setsColumn, List.lookup_append, Option.isSome_or, setsColumn, setsColumn]

@[simp] theorem setsColumn_single (col : Nat) (w : Value) (i : Nat) : setsColumn [(col, w)] i = decide (i = col) := by
  rw [setsColumn, lookup_single]
  by_cases same : i = col
  · simp [same]
  · simp [same]

theorem lookup_of_unset {p : Placement} {col : Nat} (unset : setsColumn p col = false) : p.lookup col = none := by
  unfold setsColumn at unset
  exact Option.isSome_eq_false_iff.mp unset |> Option.isNone_iff_eq_none.mp

theorem not_mem_of_unset {p : Placement} {col : Nat} (unset : setsColumn p col = false) : col ∉ p.map Prod.fst := by
  intro member
  obtain ⟨⟨i, w⟩, inside, rfl⟩ := List.mem_map.mp member
  have none_ := List.lookup_eq_none_iff.mp (lookup_of_unset unset) (i, w) inside
  simp at none_

theorem filled_append {done : List Placement} {p : Placement} {col : Nat} {w : Value} (unset : setsColumn p col = false)
    (i : Nat) : filled done (p ++ [(col, w)]) i = if i = col then filled done p i ++ [w] else filled done p i := by
  unfold filled
  rw [List.lookup_append, lookup_single]
  by_cases same : i = col
  · rw [if_pos same, if_pos same, same, lookup_of_unset unset]
    simp
  · rw [if_neg same, if_neg same, Option.or_none]

/-- The builder holds the rows done and the cells of the row under construction, and nothing else. -/
structure Tracks (fields : List Field) (b : RowBuilder) (done : List Placement) (started : Placement) : Prop where
  fields_eq : b.fields = fields
  companions : b.companionOf = fields.map (companionOf fields)
  set_length : b.setThisRow.length = fields.length
  set_at : ∀ i, i < fields.length → b.setThisRow[i]? = some (setsColumn started i)
  builders_length : b.builders.length = fields.length
  builder_at : ∀ i f, fields[i]? = some f → b.builders[i]? = some (ColumnBuilder.mk f.ty (filled done started i) [])
  sound : ∀ i f, fields[i]? = some f → Column.Sound ⟨f.ty, filled done started i⟩
  once : (started.map Prod.fst).Nodup
  pending : b.pendingRows = done.length
  counted : b.pendingRows ≤ b.totalRows ∧ b.totalRows + 1 < 2 ^ 64

inductive RowCall where
  | setValue (col : Nat) (v : Value)
  | setText (col : Nat) (text : String)
  | endRow
  | finish

/-- A type whose columns keep a buffer beside the rows. -/
def DataType.isVarWidth : DataType → Bool
  | .string | .bytes | .list _ => true
  | _ => false

/-- Where a call that succeeds puts what it was given: in its own column, the same in value, or as text in the
    companion with its own column NULL. -/
inductive Lands (P : Platform) (fields : List Field) : RowCall → Placement → Prop
  | own {col : Nat} {f : Field} {v w : Value} : fields[col]? = some f → coerce v f.ty = some w → SameValue v w →
      Lands P fields (.setValue col v) [(col, w)]
  | routed {col comp : Nat} {f : Field} {v : Value} {text : String} : fields[col]? = some f →
      companionOf fields f = some comp → coerce v f.ty = none ∨ f.ty.isVarWidth = true → P.toText v = some text →
      Lands P fields (.setValue col v) [(col, .null), (comp, .string text)]
  | text {col : Nat} {f : Field} {text : String} : fields[col]? = some f → f.ty = .string →
      Lands P fields (.setText col text) [(col, .string text)]
  | empty {col : Nat} {f : Field} : fields[col]? = some f → f.ty ≠ .string → Lands P fields (.setText col "") [(col, .null)]
  | read {col : Nat} {f : Field} {text : String} {v : Value} : fields[col]? = some f →
      P.fromText text f.ty = .ok (some v) → Lands P fields (.setText col text) [(col, v)]
  | routedText {col comp : Nat} {f : Field} {text : String} : fields[col]? = some f →
      companionOf fields f = some comp → P.fromText text f.ty = .ok none →
      Lands P fields (.setText col text) [(col, .null), (comp, .string text)]

theorem index_eq_ok {α : Type} {xs : List α} {i : Nat} {x : α} (found : xs[i]? = some x) : index xs i = .ok x := by
  rw [index, found]

theorem exceeds_eq_false {used : Nat} {v : Value} (below : used < 2 ^ 32) (room : exceeds used v = false) :
    used + (rowBytes v).length < 2 ^ 32 := by
  cases v <;> simp_all [exceeds, rowBytes]

/-- A child that takes every item has room for them all. -/
theorem fillChild_all {items : List Value} {used : Nat} (below : used < 2 ^ 32)
    (all : ¬(fillChild used items).length < items.length) : used + dataLen items < 2 ^ 32 := by
  induction items generalizing used with
  | nil => simpa using below
  | cons v rest ih =>
    unfold fillChild at all
    by_cases full : exceeds used v = true
    · simp [full] at all
    · rw [if_neg full] at all
      have next := ih (exceeds_eq_false below (by simpa using full)) (by simpa using all)
      rw [dataLen_cons]
      omega

namespace ColumnBuilder

/-- A list whose first item still fits the child's buffer, and a later one does not. -/
def CutsList (b : ColumnBuilder) (v : Value) : Prop :=
  ∃ first rest, coerce v b.ty = some (.list (first :: rest)) ∧ b.child.length + (first :: rest).length < 2 ^ 32 ∧
    exceeds (dataLen b.child) first = false ∧ (fillChild (dataLen b.child) (first :: rest)).length < (first :: rest).length

/-- No room for a value the column would take. -/
def Full (b : ColumnBuilder) : Value → Prop
  | .list items => 2 ^ 32 ≤ b.child.length + items.length ∨ (fillChild (dataLen b.child) items).length < items.length
  | v => exceeds (dataLen b.cells) v

/-- The column takes the value. -/
def Fits (b : ColumnBuilder) (v : Value) : Prop := ∃ w, coerce v b.ty = some w ∧ ¬b.Full w

variable {ty : DataType} {cells : List Value} {v w : Value}

theorem pushCoerced_fits (b : ColumnBuilder) (clean : b.stray = []) (room : ¬b.Full w) :
    b.pushCoerced w = ({ b with cells := b.cells ++ [w] }, .ok ()) := by
  cases w with
  | list items =>
    obtain ⟨short, all⟩ := not_or.mp room
    rw [pushCoerced, if_neg short]
    dsimp only
    rw [if_neg all, clean]
    rfl
  | _ =>
    simp only [Full] at room
    simp only [pushCoerced, room, Bool.false_eq_true, if_false]

theorem push_fits (b : ColumnBuilder) (clean : b.stray = []) (fits : coerce v b.ty = some w) (room : ¬b.Full w) :
    b.push v = ({ b with cells := b.cells ++ [w] }, .ok ()) := by
  unfold push
  by_cases null : v.isNull = true
  · have none_ : v = .null := by
      cases v <;> first | rfl | cases null
    subst none_
    have same : w = .null := by
      cases ty_ : b.ty <;> rw [ty_] at fits <;> exact (Option.some.inj fits).symm
    rw [if_pos null, same]
    rfl
  · rw [if_neg null, fits]
    exact b.pushCoerced_fits clean room

theorem sound_append {cells : List Value} {ty : DataType} (sound : Column.Sound ⟨ty, cells⟩) (typed : w.HasType ty)
    (room : ¬(ColumnBuilder.mk ty cells []).Full w) : Column.Sound ⟨ty, cells ++ [w]⟩ := by
  obtain ⟨each, data, children, childData⟩ := sound
  dsimp only at each data children childData
  have all : ∀ v ∈ cells ++ [w], v.HasType ty := by
    intro v member
    rcases List.mem_append.mp member with member | member
    · exact each v member
    · rw [List.mem_singleton.mp member]
      exact typed
  have count : childLen cells = (cells.flatMap elements).length := by rw [childLen, List.length_flatMap]
  cases w with
  | list items =>
    obtain ⟨short, taken⟩ := not_or.mp room
    simp only [child, List.append_nil, ← count] at short taken
    have data' := fillChild_all childData taken
    refine ⟨all, ?_, ?_, ?_⟩
    · simpa [rowBytes] using data
    · simp only [childLen_append, childLen_cons, childLen_nil, elements]
      omega
    · simpa [elements] using data'
  | _ =>
    simp only [Full, Bool.not_eq_true] at room
    have data' := exceeds_eq_false data room
    refine ⟨all, ?_, ?_, ?_⟩
    · simpa using data'
    · simpa [elements] using children
    · simpa [elements] using childData

/-- A value the column does not take leaves the column as it was, unless a list is cut. -/
theorem push_unfit (b : ColumnBuilder) (whole : ¬b.CutsList v) (unfit : ¬b.Fits v) :
    ∃ e, b.push v = (b, .error e) := by
  cases fits : coerce v b.ty with
  | none =>
    have value : v.isNull = false := by
      cases v <;> first | rfl | cases ty_ : b.ty <;> rw [ty_] at fits <;> cases fits
    exact ⟨.doesNotFit v b.ty, by simp [push, value, fits]⟩
  | some w =>
    have full : b.Full w := not_not.mp fun room => unfit ⟨w, fits, room⟩
    have value : v.isNull = false := by
      cases v <;> first | rfl | skip
      cases ty_ : b.ty <;> rw [ty_] at fits <;> cases fits <;> cases full
    refine ⟨.tooLarge, ?_⟩
    simp only [push, value, Bool.false_eq_true, if_false, fits]
    cases w with
    | list items =>
      by_cases long : 2 ^ 32 ≤ b.child.length + items.length
      · rw [pushCoerced, if_pos long]
      · have cut := full.resolve_left long
        cases items with
        | nil => cases cut
        | cons first rest =>
          -- nothing was taken, for otherwise the list was cut
          have refused : exceeds (dataLen b.child) first = true := by
            by_contra taken
            exact whole ⟨first, rest, fits, by omega, by simpa using taken, cut⟩
          simp [pushCoerced, fillChild, refused]
    | _ =>
      simp only [Full] at full
      simp only [pushCoerced, full, if_true]

end ColumnBuilder

/-- The text has room in a STRING column. -/
def ColumnBuilder.TakesText (b : ColumnBuilder) (text : String) : Prop :=
  b.ty = .string ∧ dataLen b.cells + (utf8 text).length < 2 ^ 32

theorem ColumnBuilder.TakesText.push {b : ColumnBuilder} {text : String} (takes : b.TakesText text)
    (clean : b.stray = []) : b.push (.string text) = ({ b with cells := b.cells ++ [.string text] }, .ok ()) := by
  apply b.push_fits clean
  · rw [takes.1]
    rfl
  · have := takes.2
    simp only [Full, exceeds, decide_eq_true_eq]
    omega

theorem ColumnBuilder.sound_nil (ty : DataType) : Column.Sound ⟨ty, []⟩ :=
  ⟨by simp, by simp, by simp, by simp⟩

theorem ColumnBuilder.sound_null {ty : DataType} {cells : List Value} (sound : Column.Sound ⟨ty, cells⟩) :
    Column.Sound ⟨ty, cells ++ [.null]⟩ :=
  sound_append sound (by cases ty <;> exact True.intro) fun full => (by cases full)

theorem ColumnBuilder.TakesText.sound {ty : DataType} {cells : List Value} {text : String}
    (takes : (ColumnBuilder.mk ty cells []).TakesText text) (sound : Column.Sound ⟨ty, cells⟩) :
    Column.Sound ⟨ty, cells ++ [.string text]⟩ := by
  have typed : (Value.string text).HasType ty := by
    rw [show ty = .string from takes.1]
    exact True.intro
  refine sound_append sound typed ?_
  have room : dataLen cells + (utf8 text).length < 2 ^ 32 := takes.2
  simp only [Full, exceeds, decide_eq_true_eq]
  omega

theorem Platform.fromText_room {P : Platform} {b : ColumnBuilder} {text : String} {v : Value}
    (read : P.fromText text b.ty = .ok (some v)) (room : exceeds (dataLen b.cells) v = false) : ¬b.Full v := by
  have typed := P.fromText_type read
  cases v with
  | list items =>
    -- no text is read as a list
    cases ty : b.ty with
    | scalar t => 
      rw [ty] at typed
      cases t <;> exact typed.elim
    | list t =>
      rw [ty] at read
      cases read
  | _ => simpa only [ColumnBuilder.Full, Bool.not_eq_true] using room

theorem companionOf_eq {fields : List Field} {f : Field} {comp : Nat} (declared : companionOf fields f = some comp) :
    ∃ g, fields[comp]? = some g ∧ g.name = companionName f.name := by
  unfold companionOf at declared
  split at declared
  · cases declared
  · obtain ⟨within, named, _⟩ := List.findIdx?_eq_some_iff_getElem.mp declared
    exact ⟨fields[comp], List.getElem?_eq_getElem within, by simpa using named⟩

theorem companionOf_ne {fields : List Field} {f : Field} {col comp : Nat} (at_ : fields[col]? = some f)
    (declared : companionOf fields f = some comp) : comp ≠ col := by
  intro same
  obtain ⟨g, found, named⟩ := companionOf_eq declared
  rw [same, at_] at found
  have equal : f.name = companionName f.name := by
    rw [← named, Option.some.inj found]
  have longer := congrArg String.length equal
  simp [companionName] at longer

theorem ColumnBuilder.isNull_of_unfit {b : ColumnBuilder} {v : Value} (unfit : ¬b.Fits v) : v.isNull = false := by
  cases v <;> first | rfl | skip
  refine (unfit ⟨.null, ?_, fun full => by cases full⟩).elim
  cases b.ty <;> rfl

/-- Only a buffer runs full. -/
theorem ColumnBuilder.unfit_reason {b : ColumnBuilder} {v : Value} (unfit : ¬b.Fits v) :
    coerce v b.ty = none ∨ b.ty.isVarWidth = true := by
  cases fits : coerce v b.ty with
  | none => exact .inl rfl
  | some w =>
    have full : b.Full w := not_not.mp fun room => unfit ⟨w, fits, room⟩
    have typed := coerce_type fits
    right
    generalize b.ty = ty at typed
    cases w <;> first | cases full | skip
    all_goals
      cases ty with
      | list t => rfl
      | scalar t => cases t <;> first | rfl | exact typed.elim

/-- A text bound for a companion finds it STRING, with room, where it is not set already. -/
def RowBuilder.CompanionTakes (b : RowBuilder) (comp : Nat) (text : String) : Prop :=
  ∀ builder, b.builders[comp]? = some builder → b.setThisRow[comp]? = some false → builder.TakesText text

/-- What a call needs of the builder it is made on. -/
def RowCall.Clear (P : Platform) (b : RowBuilder) : RowCall → Prop
  | .setValue col v => col < b.fields.length ∧ (b.setThisRow[col]? = some false →
      ∀ builder ∈ b.builders[col]?, ¬builder.CutsList v ∧ (¬builder.Fits v →
        ∀ comp, b.companionOf[col]? = some (some comp) → ∀ text ∈ P.toText v, b.CompanionTakes comp text))
  | .setText col text => col < b.fields.length ∧ (b.setThisRow[col]? = some false →
      ∀ builder ∈ b.builders[col]?, (builder.ty = .string → builder.TakesText text) ∧
        (builder.ty ≠ .string → text ≠ "" → ∃ read, P.fromText text builder.ty = .ok read ∧
          (∀ v ∈ read, exceeds (dataLen builder.cells) v = false) ∧
          (read = none → ∀ comp, b.companionOf[col]? = some (some comp) → b.CompanionTakes comp text)))
  | .endRow => b.totalRows + 2 < 2 ^ 64
  | .finish => ∀ set ∈ b.setThisRow, set = false

/-- A row, column by column. -/
def rowOf (fields : List Field) (p : Placement) : Row := (List.range fields.length).map (placedCell p)

/-- A call is refused and changes nothing, or its value is placed. -/
def Answered (P : Platform) (fields : List Field) (b : RowBuilder) (done : List Placement) (started : Placement)
    (call : RowCall) (result : Except String (RowBuilder × Reply Unit)) : Prop :=
  (∃ e, result = .ok (b, .error e)) ∨
    ∃ b' p, result = .ok (b', .ok ()) ∧ Lands P fields call p ∧ Tracks fields b' done (started ++ p)

namespace Tracks

variable {P : Platform} {fields : List Field} {b : RowBuilder} {done : List Placement} {started : Placement}

theorem put (tracks : Tracks fields b done started) {col : Nat} {f : Field} (at_ : fields[col]? = some f)
    (unset : setsColumn started col = false) {w : Value} (grown : Column.Sound ⟨f.ty, filled done started col ++ [w]⟩) :
    Tracks fields (b.put col ⟨f.ty, filled done started col ++ [w], []⟩) done (started ++ [(col, w)]) := by
  have within : col < fields.length := (List.getElem?_eq_some_iff.mp at_).1
  refine ⟨tracks.fields_eq, tracks.companions, ?_, ?_, ?_, ?_, ?_, ?_, tracks.pending, tracks.counted⟩
  · simpa [RowBuilder.put] using tracks.set_length
  · intro i inside
    simp only [RowBuilder.put, List.getElem?_set, setsColumn_append, setsColumn_single]
    by_cases same : col = i
    · subst same
      simp [tracks.set_length, within]
    · have apart : ¬i = col := fun other => same other.symm
      simp [same, apart, tracks.set_at i inside]
  · simpa [RowBuilder.put] using tracks.builders_length
  · intro i g found
    simp only [RowBuilder.put, List.getElem?_set, filled_append unset]
    by_cases same : col = i
    · subst same
      rw [at_] at found
      cases found
      simp [tracks.builders_length, within]
    · have apart : ¬i = col := fun other => same other.symm
      simp [same, apart, tracks.builder_at i g found]
  · intro i g found
    rw [filled_append unset]
    by_cases same : i = col
    · subst same
      rw [at_] at found
      cases found
      rw [if_pos rfl]
      exact grown
    · rw [if_neg same]
      exact tracks.sound i g found
  · rw [List.map_append, List.nodup_append]
    refine ⟨tracks.once, by simp, ?_⟩
    intro i member j single same
    have last : j = col := by simpa using single
    rw [same, last] at member
    exact not_mem_of_unset unset member

theorem currentRow (tracks : Tracks fields b done started) : b.currentRow P = .ok (b.totalRows + 1) := by
  rw [RowBuilder.currentRow, Platform.increment, if_pos tracks.counted.2]

theorem doesNotFit (tracks : Tracks fields b done started) {col : Nat} (within : col < fields.length) (text : String) :
    ∃ e, b.doesNotFit P col text = .ok (b, .error e) := by
  have found : b.fields[col]? = some fields[col] := by
    rw [tracks.fields_eq, List.getElem?_eq_getElem within]
  rw [RowBuilder.doesNotFit, index_eq_ok found, tracks.currentRow]
  exact ⟨_, rfl⟩

theorem alreadySet (tracks : Tracks fields b done started) {col : Nat} (within : col < fields.length) :
    ∃ e, b.alreadySet P col = .ok (b, .error e) := by
  have found : b.fields[col]? = some fields[col] := by
    rw [tracks.fields_eq, List.getElem?_eq_getElem within]
  rw [RowBuilder.alreadySet, tracks.currentRow, index_eq_ok found]
  exact ⟨_, rfl⟩

theorem expectPush (tracks : Tracks fields b done started) {col : Nat} {f : Field} {v w : Value}
    (at_ : fields[col]? = some f)
    (pushed : (ColumnBuilder.mk f.ty (filled done started col) []).push v =
      (⟨f.ty, filled done started col ++ [w], []⟩, .ok ())) (message : String) :
    b.expectPush col v message = .ok (b.put col ⟨f.ty, filled done started col ++ [w], []⟩, .ok ()) := by
  rw [RowBuilder.expectPush, index_eq_ok (tracks.builder_at col f at_)]
  simp only [bind, Except.bind, pushed]
  rfl

theorem route (tracks : Tracks fields b done started) {col comp : Nat} {f : Field} {text : String} {call : RowCall}
    (at_ : fields[col]? = some f) (unset : setsColumn started col = false)
    (declared : Adelie.companionOf fields f = some comp) (takes : b.CompanionTakes comp text)
    (placed : Lands P fields call [(col, .null), (comp, .string text)]) :
    Answered P fields b done started call (b.route P col comp text) := by
  obtain ⟨g, beside, _⟩ := companionOf_eq declared
  have apart := companionOf_ne at_ declared
  have within : comp < fields.length := (List.getElem?_eq_some_iff.mp beside).1
  have set := tracks.set_at comp within
  unfold RowBuilder.route
  rw [index_eq_ok set]
  cases already : setsColumn started comp with
  | true =>
    obtain ⟨e, refused⟩ := tracks.alreadySet (P := P) within
    exact .inl ⟨e, refused⟩
  | false =>
    have own := tracks.builder_at col f at_
    rw [already] at set
    have room := takes _ (tracks.builder_at comp g beside) set
    have first := tracks.put at_ unset (ColumnBuilder.sound_null (tracks.sound col f at_))
    have unset' : setsColumn (started ++ [(col, .null)]) comp = false := by simp [already, apart]
    have kept : filled done (started ++ [(col, .null)]) comp = filled done started comp := by
      rw [filled_append unset, if_neg apart]
    have grown : Column.Sound ⟨g.ty, filled done (started ++ [(col, .null)]) comp ++ [.string text]⟩ := by
      rw [kept]
      exact room.sound (tracks.sound comp g beside)
    have second := first.put beside unset' grown
    rw [List.append_assoc] at second
    refine .inr ⟨_, [(col, .null), (comp, .string text)], ?_, placed, second⟩
    simp only [bind, Except.bind, Bool.false_eq_true, if_false, index_eq_ok own]
    exact first.expectPush beside (by rw [kept]; exact room.push rfl) _

theorem setValue (tracks : Tracks fields b done started) {col : Nat} {v : Value}
    (clear : RowCall.Clear P b (.setValue col v)) :
    Answered P fields b done started (.setValue col v) (b.setValue P col v) := by
  obtain ⟨within, clear⟩ := clear
  rw [tracks.fields_eq] at within
  have at_ := List.getElem?_eq_getElem within
  have set := tracks.set_at col within
  have own := tracks.builder_at col _ at_
  unfold RowBuilder.setValue
  rw [index_eq_ok set]
  cases already : setsColumn started col with
  | true =>
    obtain ⟨e, refused⟩ := @alreadySet P _ _ _ _ tracks _ within
    exact .inl ⟨e, refused⟩
  | false =>
    rw [already] at set
    obtain ⟨whole, routes⟩ := clear set _ own
    simp only [bind, Except.bind, Bool.false_eq_true, if_false, index_eq_ok own]
    by_cases fits : (ColumnBuilder.mk fields[col].ty (filled done started col) []).Fits v
    · obtain ⟨w, fit, room⟩ := fits
      rw [ColumnBuilder.push_fits _ rfl fit room]
      have grown := ColumnBuilder.sound_append (tracks.sound col _ at_) (coerce_type fit) room
      exact .inr ⟨_, _, rfl, .own at_ fit (coerce_same fit), tracks.put at_ already grown⟩
    · obtain ⟨e, refused⟩ := ColumnBuilder.push_unfit _ whole fits
      have value : v.isNull = false := ColumnBuilder.isNull_of_unfit fits
      obtain ⟨text, spelled⟩ := Option.isSome_iff_exists.mp (P.toText_isSome value)
      have same : ({ b with builders := b.builders.set col ⟨fields[col].ty, filled done started col, []⟩ } : RowBuilder) = b := by
        obtain ⟨_, found⟩ := List.getElem?_eq_some_iff.mp own
        rw [← found, List.set_getElem_self]
      have declared : b.companionOf[col]? = some (Adelie.companionOf fields fields[col]) := by
        rw [tracks.companions, List.getElem?_map, at_]
        rfl
      rw [refused]
      simp only [same, index_eq_ok declared, spelled]
      cases comp : Adelie.companionOf fields fields[col] with
      | none =>
        obtain ⟨e, refused⟩ := @doesNotFit P _ _ _ _ tracks _ within text
        exact .inl ⟨e, refused⟩
      | some comp_ =>
        rw [comp] at declared
        exact tracks.route at_ already comp (routes fits comp_ declared text spelled)
          (.routed at_ comp (ColumnBuilder.unfit_reason fits) spelled)

theorem setText (tracks : Tracks fields b done started) {col : Nat} {text : String}
    (clear : RowCall.Clear P b (.setText col text)) :
    Answered P fields b done started (.setText col text) (b.setText P col text) := by
  obtain ⟨within, clear⟩ := clear
  rw [tracks.fields_eq] at within
  have at_ := List.getElem?_eq_getElem within
  have set := tracks.set_at col within
  have own := tracks.builder_at col _ at_
  have field : b.fields[col]? = some fields[col] := by rw [tracks.fields_eq, at_]
  unfold RowBuilder.setText
  rw [index_eq_ok set]
  cases already : setsColumn started col with
  | true =>
    obtain ⟨e, refused⟩ := @alreadySet P _ _ _ _ tracks _ within
    exact .inl ⟨e, refused⟩
  | false =>
    rw [already] at set
    obtain ⟨verbatim, reads⟩ := clear set _ own
    simp only [bind, Except.bind, Bool.false_eq_true, if_false, index_eq_ok own, index_eq_ok field]
    by_cases string : fields[col].ty = .string
    · rw [if_pos string]
      have takes := verbatim string
      exact .inr ⟨_, _, tracks.expectPush at_ (takes.push rfl) _, .text at_ string,
        tracks.put at_ already (takes.sound (tracks.sound col _ at_))⟩
    · rw [if_neg string]
      by_cases empty : text = ""
      · rw [if_pos empty, empty]
        exact .inr ⟨_, _, rfl, .empty at_ string,
          tracks.put at_ already (ColumnBuilder.sound_null (tracks.sound col _ at_))⟩
      · rw [if_neg empty]
        obtain ⟨read, parsed, room, routes⟩ := reads string empty
        dsimp only at parsed
        simp only [parsed]
        cases read with
        | some v =>
          have typed := P.fromText_type parsed
          have pushed := @ColumnBuilder.push_fits v v (.mk fields[col].ty (filled done started col) []) rfl
            (coerce_self typed) (P.fromText_room parsed (room v rfl))
          have grown := ColumnBuilder.sound_append (tracks.sound col _ at_) typed (P.fromText_room parsed (room v rfl))
          exact .inr ⟨_, _, tracks.expectPush at_ pushed _, .read at_ parsed, tracks.put at_ already grown⟩
        | none =>
          have declared : b.companionOf[col]? = some (Adelie.companionOf fields fields[col]) := by
            rw [tracks.companions, List.getElem?_map, at_]
            rfl
          simp only [index_eq_ok declared]
          cases comp : Adelie.companionOf fields fields[col] with
          | none =>
            obtain ⟨e, refused⟩ := @doesNotFit P _ _ _ _ tracks _ within text
            exact .inl ⟨e, refused⟩
          | some comp_ =>
            rw [comp] at declared
            exact tracks.route at_ already comp (routes rfl comp_ declared) (.routedText at_ comp parsed)

theorem endRow (tracks : Tracks fields b done started) (clear : RowCall.Clear P b .endRow) :
    ∃ b', b.endRow P = .ok (b', .ok ()) ∧ Tracks fields b' (done ++ [started]) [] := by
  have room : b.totalRows + 2 < 2 ^ 64 := clear
  have pending := tracks.counted.1
  have first : P.increment b.pendingRows = .ok (b.pendingRows + 1) := by
    rw [Platform.increment, if_pos (by omega)]
  have second : P.increment b.totalRows = .ok (b.totalRows + 1) := by
    rw [Platform.increment, if_pos (by omega)]
  unfold RowBuilder.endRow
  simp only [bind, Except.bind, first, second]
  refine ⟨_, rfl, tracks.fields_eq, tracks.companions, ?_, ?_, ?_, ?_, ?_, List.nodup_nil, ?_, ?_⟩
  · simpa using tracks.set_length
  · intro i within
    rw [List.getElem?_map, tracks.set_at i within]
    rfl
  · simp [tracks.builders_length, tracks.set_length]
  · intro i f at_
    have within : i < fields.length := (List.getElem?_eq_some_iff.mp at_).1
    have zipped : (b.builders.zip b.setThisRow)[i]? =
        some (.mk f.ty (filled done started i) [], setsColumn started i) := by
      rw [List.getElem?_zip_eq_some]
      exact ⟨tracks.builder_at i f at_, tracks.set_at i within⟩
    rw [List.getElem?_map, zipped]
    unfold setsColumn
    cases set : started.lookup i with
    | some w => simp [filled, placedCell, set]
    | none => simp [filled, placedCell, set, ColumnBuilder.pushNull]
  · intro i f at_
    have sound := tracks.sound i f at_
    cases set : started.lookup i with
    | some w => simpa [filled, placedCell, set] using sound
    | none =>
      have grown := ColumnBuilder.sound_null sound
      simpa [filled, placedCell, set] using grown
  · simp [tracks.pending]
  · simp only
    omega

theorem finish (tracks : Tracks fields b done started) (clear : RowCall.Clear P b .finish) (some_ : fields = [] → done = [])
    (distinct : (fields.map Field.name).Nodup) :
    ∃ b' batch, b.finish = (b', .ok batch) ∧ batch.fields = fields ∧ batch.toRows = done.map (rowOf fields) ∧
      batch.Sound ∧ Tracks fields b' [] started := by
  have unset : ∀ i, i < fields.length → started.lookup i = none := by
    intro i within
    exact lookup_of_unset (clear _ (List.mem_of_getElem? (tracks.set_at i within)))
  have columns : b.builders.map ColumnBuilder.finish =
      fields.zipIdx.map fun p => (⟨p.1.ty, done.map (placedCell · p.2)⟩ : Column) := by
    apply List.ext_getElem?
    intro i
    rw [List.getElem?_map, List.getElem?_map, List.getElem?_zipIdx]
    cases at_ : fields[i]? with
    | none =>
      have past : b.builders[i]? = none := by
        rw [List.getElem?_eq_none_iff, tracks.builders_length]
        exact List.getElem?_eq_none_iff.mp at_
      simp [past]
    | some f =>
      have within : i < fields.length := (List.getElem?_eq_some_iff.mp at_).1
      simp [tracks.builder_at i f at_, ColumnBuilder.finish, filled, unset i within]
  have rows : (ColumnBatch.mk fields (b.builders.map ColumnBuilder.finish)).rows = done.length := by
    rw [columns, ColumnBatch.rows]
    cases fields with
    | nil => simp [some_ rfl]
    | cons f rest => simp
  have typed : List.Forall₂ (fun (c : Column) (f : Field) => c.ty = f.ty) (b.builders.map ColumnBuilder.finish)
      fields := by
    rw [columns, List.forall₂_map_left_iff]
    nth_rewrite 2 [← List.zipIdx_map_fst 0 fields]
    rw [List.forall₂_map_right_iff, List.forall₂_same]
    intro p _
    rfl
  have even : ∀ c ∈ b.builders.map ColumnBuilder.finish,
      c.cells.length = (ColumnBatch.mk fields (b.builders.map ColumnBuilder.finish)).rows := by
    intro c member
    rw [rows]
    rw [columns] at member
    obtain ⟨p, _, rfl⟩ := List.mem_map.mp member
    simp
  have made := ColumnBatch.new_eq_ok.mpr ⟨rfl, typed, even, distinct⟩
  unfold RowBuilder.finish
  rw [tracks.fields_eq, made]
  refine ⟨_, _, rfl, rfl, ?_, ⟨typed, even, distinct, ?_⟩, rfl, tracks.companions, tracks.set_length, tracks.set_at, ?_,
    ?_, ?_, tracks.once, rfl, ?_⟩
  · rw [ColumnBatch.toRows, rows]
    apply List.ext_getElem
    · simp
    · intro j within _
      have inside : j < done.length := by simpa using within
      rw [List.getElem_map, List.getElem_map, List.getElem_range, ColumnBatch.row, columns, rowOf]
      apply List.ext_getElem
      · simp
      · intro i _ _
        simp [inside]
  · intro c member
    rw [columns] at member
    obtain ⟨p, inside, rfl⟩ := List.mem_map.mp member
    have at_ := List.mem_zipIdx_iff_getElem?.mp inside
    have within : p.2 < fields.length := (List.getElem?_eq_some_iff.mp at_).1
    simpa [filled, unset _ within] using tracks.sound p.2 p.1 at_
  · simp [tracks.builders_length]
  · intro i f at_
    have within : i < fields.length := (List.getElem?_eq_some_iff.mp at_).1
    have zipped : (b.builders.zip fields)[i]? = some (.mk f.ty (filled done started i) [], f) := by
      rw [List.getElem?_zip_eq_some]
      exact ⟨tracks.builder_at i f at_, at_⟩
    rw [List.getElem?_map, zipped]
    simp [filled, unset i within, ColumnBuilder.new]
  · intro i f at_
    have within : i < fields.length := (List.getElem?_eq_some_iff.mp at_).1
    simp only [filled, unset i within, List.map_nil, Option.toList_none, List.append_nil]
    exact ColumnBuilder.sound_nil f.ty
  · have := tracks.counted
    simp only
    omega

end Tracks

/-- A call that returns no batch. -/
def unbatched (result : Except String (RowBuilder × Reply Unit)) :
    Except String (RowBuilder × Reply (Option ColumnBatch)) :=
  result.map fun r => (r.1, r.2.map fun _ => none)

def RowBuilder.call (P : Platform) (b : RowBuilder) :
    RowCall → Except String (RowBuilder × Reply (Option ColumnBatch))
  | .setValue col v => unbatched (b.setValue P col v)
  | .setText col text => unbatched (b.setText P col text)
  | .endRow => unbatched (b.endRow P)
  | .finish => .ok (b.finish.1, b.finish.2.map some)

/-- A builder and the calls made on it, each with what it returned. -/
structure Session where
  builder : RowBuilder
  log : List (RowCall × Reply (Option ColumnBatch))

namespace Session

def new (fields : List Field) : Session := ⟨.new fields, []⟩

def step (P : Platform) (s : Session) (call : RowCall) : Except String Session :=
  (s.builder.call P call).map fun r => ⟨r.1, s.log ++ [(call, r.2)]⟩

/-- The rows ended since the last `finish`, and the row under construction: each the set calls that succeeded in it. -/
def account (acc : List (List RowCall) × List RowCall) : RowCall × Reply (Option ColumnBatch) → List (List RowCall) × List RowCall
  | (_, .error _) => acc
  | (.endRow, .ok _) => (acc.1 ++ [acc.2], [])
  | (.finish, .ok _) => ([], acc.2)
  | (call, .ok _) => (acc.1, acc.2 ++ [call])

def rows (s : Session) : List (List RowCall) × List RowCall := s.log.foldl account ([], [])

end Session

/-- The cells a row's calls come to; no column is given two. -/
def Fills (P : Platform) (fields : List Field) (sets : List RowCall) (p : Placement) : Prop :=
  (p.map Prod.fst).Nodup ∧ ∃ placed, List.Forall₂ (Lands P fields) sets placed ∧ placed.flatten = p

/-- The row holds what its calls set, each once, and NULL besides. -/
def HoldsSets (P : Platform) (fields : List Field) (sets : List RowCall) (row : Row) : Prop :=
  ∃ p, Fills P fields sets p ∧ row = rowOf fields p

/-- The builder holds what the log says was set. -/
def Session.Routed (P : Platform) (fields : List Field) (s : Session) : Prop :=
  ∃ done started, Tracks fields s.builder done started ∧ List.Forall₂ (Fills P fields) s.rows.1 done ∧
    Fills P fields s.rows.2 started

variable {P : Platform} {fields : List Field}

theorem Fills.append {sets : List RowCall} {p q : Placement} {call : RowCall} (fills : Fills P fields sets p)
    (placed : Lands P fields call q) (once : ((p ++ q).map Prod.fst).Nodup) :
    Fills P fields (sets ++ [call]) (p ++ q) := by
  obtain ⟨_, each, all, rfl⟩ := fills
  exact ⟨once, each ++ [q], List.rel_append all (.cons placed .nil), by simp⟩

theorem RowBuilder.new_tracks (fields : List Field) : Tracks fields (.new fields) [] [] := by
  refine ⟨rfl, rfl, ?_, ?_, ?_, ?_, ?_, List.nodup_nil, rfl, ?_⟩
  · simp [RowBuilder.new]
  · intro i within
    simp [RowBuilder.new, setsColumn, within]
  · simp [RowBuilder.new]
  · intro i f at_
    simp [RowBuilder.new, at_, filled, ColumnBuilder.new]
  · exact fun i f _ => ColumnBuilder.sound_nil f.ty
  · simp [RowBuilder.new]

theorem Session.new_routed (fields : List Field) : (Session.new fields).Routed P fields :=
  ⟨[], [], RowBuilder.new_tracks fields, .nil, List.nodup_nil, [], .nil, rfl⟩

/-- A set call, answered. -/
theorem Session.step_set {s : Session} {call : RowCall} {done : List Placement} {started : Placement}
    {result : Except String (RowBuilder × Reply Unit)} (tracks : Tracks fields s.builder done started)
    (ended : List.Forall₂ (Fills P fields) s.rows.1 done) (fills : Fills P fields s.rows.2 started)
    (answered : Answered P fields s.builder done started call result)
    (called : s.builder.call P call = unbatched result) :
    ∃ s', s.step P call = .ok s' ∧ s'.Routed P fields := by
  rcases answered with ⟨e, refused⟩ | ⟨b, p, accepted, placed, next⟩
  · rw [refused] at called
    refine ⟨⟨s.builder, s.log ++ [(call, .error e)]⟩, ?_, done, started, tracks, ?_, ?_⟩
    · rw [Session.step, called]
      rfl
    · simpa [Session.rows, Session.account] using ended
    · simpa [Session.rows, Session.account] using fills
  · rw [accepted] at called
    have counted : (Session.mk b (s.log ++ [(call, .ok none)])).rows = (s.rows.1, s.rows.2 ++ [call]) := by
      rw [Session.rows, List.foldl_append]
      cases placed <;> rfl
    refine ⟨⟨b, s.log ++ [(call, .ok none)]⟩, ?_, done, started ++ p, next, ?_, ?_⟩
    · rw [Session.step, called]
      rfl
    · rw [counted]
      exact ended
    · rw [counted]
      exact fills.append placed next.once

theorem Session.step_routed (some_ : fields ≠ []) (distinct : (fields.map Field.name).Nodup) (s : Session)
    (call : RowCall) (clear : call.Clear P s.builder) (routed : s.Routed P fields) :
    ∃ s', s.step P call = .ok s' ∧ s'.Routed P fields := by
  obtain ⟨done, started, tracks, ended, fills⟩ := routed
  cases call with
  | setValue col v => exact Session.step_set tracks ended fills (tracks.setValue clear) rfl
  | setText col text => exact Session.step_set tracks ended fills (tracks.setText clear) rfl
  | endRow =>
    obtain ⟨b, ended_, next⟩ := tracks.endRow clear
    refine ⟨⟨b, s.log ++ [(.endRow, .ok none)]⟩, ?_, _, _, next, ?_, ?_⟩
    · simp only [Session.step, RowBuilder.call, ended_]
      rfl
    · simpa [Session.rows, Session.account] using List.rel_append ended (.cons fills .nil)
    · simp only [Session.rows, Session.account, List.foldl_append, List.foldl_cons, List.foldl_nil]
      exact ⟨List.nodup_nil, [], .nil, rfl⟩
  | finish =>
    obtain ⟨b, batch, finished, _, _, _, next⟩ := tracks.finish clear (fun none_ => absurd none_ some_) distinct
    refine ⟨⟨b, s.log ++ [(.finish, .ok (some batch))]⟩, ?_, _, _, next, ?_, ?_⟩
    · simp only [Session.step, RowBuilder.call, finished]
      rfl
    · simp [Session.rows, Session.account]
    · simpa [Session.rows, Session.account] using fills

/-- No run of clear calls panics, and between rows `finish` returns the rows that were set. -/
theorem rows_routed {spec : TableSpec} (valid : spec.validate = .ok ()) (some_ : spec.columns ≠ []) {calls : List RowCall}
    (clear : Supplied (Session.step P) (fun s => RowCall.Clear P s.builder) (.new spec.columns) calls) :
    ∃ s : Session, calls.foldlM (Session.step P) (.new spec.columns) = .ok s ∧
      (RowCall.Clear P s.builder .finish → ∃ b batch, s.builder.finish = (b, .ok batch) ∧ batch.fields = spec.columns ∧
        List.Forall₂ (HoldsSets P spec.columns) s.rows.1 batch.toRows) := by
  have distinct := (TableSpec.valid_of_validate valid).names_nodup
  obtain ⟨s, ran, done, started, tracks, ended, _⟩ :=
    batch_succeeds (Session.Routed P spec.columns) (Session.step_routed some_ distinct) clear (Session.new_routed _)
  refine ⟨s, ran, fun between => ?_⟩
  obtain ⟨b, batch, finished, named, same, _⟩ := tracks.finish between (fun none_ => absurd none_ some_) distinct
  refine ⟨b, batch, finished, named, ?_⟩
  rw [same, List.forall₂_map_right_iff]
  exact ended.imp fun sets p fills => ⟨p, fills, rfl⟩

def companionSpec (ty : DataType) : TableSpec := .new ⟨"d", "t"⟩ [⟨"x", .int64⟩, ⟨"x::string", ty⟩]

theorem rows_routed_companion : ∃ s : Session,
    [.setValue 0 (.string "500"), .endRow].foldlM (Session.step checkedPlatform) (.new (companionSpec .string).columns) =
      .ok s ∧
    (RowCall.Clear checkedPlatform s.builder .finish → ∃ b batch, s.builder.finish = (b, .ok batch) ∧
      batch.fields = (companionSpec .string).columns ∧
      List.Forall₂ (HoldsSets checkedPlatform (companionSpec .string).columns) s.rows.1 batch.toRows) := by
  refine rows_routed rfl (by decide) ⟨⟨by decide, fun _ builder found => ?_⟩, fun s stepped => ⟨?_, fun _ _ => True.intro⟩⟩
  · cases found
    refine ⟨fun ⟨_, _, fit, _⟩ => (by cases fit), fun _ comp declared text spelled => ?_⟩
    cases declared
    cases spelled
    intro builder found _
    cases found
    exact ⟨rfl, by decide⟩
  · cases stepped
    show 0 + 2 < 2 ^ 64
    decide

theorem companion_panics : (companionSpec .int64).validate = .ok () ∧
    Session.step checkedPlatform (.new (companionSpec .int64).columns) (.setValue 0 (.string "500")) =
      .error "STRING always fits a STRING companion column" := ⟨rfl, rfl⟩

end Adelie
