import Adelie.Segment.Wire
import Adelie.Sql.Ingest

namespace Adelie.Csv

/-- Absent, as nothing unquoted is, or text. -/
abbrev RawField := Option String

def quote : UInt8 := 34

def lf : UInt8 := 10

def cr : UInt8 := 13

/-- A record as far as it is read. -/
structure State where
  fields : List RawField
  buf : List UInt8
  quoted : Bool
  inQuotes : Bool
  lineHasContent : Bool

def State.fresh : State := ⟨[], [], false, false, false⟩

def finishField (buf : List UInt8) (quoted : Bool) (row : Nat) : Except IngestError RawField :=
  if buf.isEmpty && !quoted then .ok none
  else
    match fromUtf8 buf with
    | some text => .ok (some text)
    | none => .error (.malformed row "invalid UTF-8")

namespace State

variable (st : State)

def push (b : UInt8) : State := { st with buf := st.buf ++ [b], lineHasContent := true }

/-- A line with nothing on it. -/
def blank : Bool := !st.lineHasContent && st.buf.isEmpty && st.fields.isEmpty

def finish (row : Nat) : Except IngestError (List RawField) := do
  return st.fields ++ [← finishField st.buf st.quoted row]

end State

/-- The loop of a record over what is left of the input; `none` is its clean end. -/
def readFrom (delimiter : UInt8) (row : Nat) : State → List UInt8 → Except IngestError (Option (List RawField) × List UInt8)
  | st, [] => if st.blank then .ok (none, []) else do return (some (← st.finish row), [])
  | st, b :: rest =>
    if st.inQuotes then
      if b = quote then
        if rest.head? = some quote then readFrom delimiter row (st.push quote) rest.tail
        else readFrom delimiter row { st with inQuotes := false, lineHasContent := true } rest
      else readFrom delimiter row (st.push b) rest
    else if b = lf then
      if st.blank then readFrom delimiter row .fresh rest
      else do return (some (← st.finish row), rest)
    else if b = cr ∧ rest.head? = some lf then
      if st.blank then readFrom delimiter row .fresh rest.tail
      else do return (some (← st.finish row), rest.tail)
    -- a lone CR is data
    else if b = cr then readFrom delimiter row (st.push cr) rest
    else if b = quote ∧ st.buf.isEmpty ∧ !st.quoted then
      readFrom delimiter row { st with quoted := true, inQuotes := true, lineHasContent := true } rest
    else if b = delimiter then do
      let fields ← st.finish row
      readFrom delimiter row ⟨fields, [], false, false, true⟩ rest
    else readFrom delimiter row (st.push b) rest
termination_by _ bytes => bytes.length
decreasing_by all_goals simp

def readRecord (delimiter : UInt8) (row : Nat) (input : List UInt8) : Except IngestError (Option (List RawField) × List UInt8) :=
  readFrom delimiter row .fresh input

/-- A record takes some of the input, where there is any. -/
theorem readFrom_length {delimiter : UInt8} {row : Nat} {st : State} {bytes rest : List UInt8} {record : List RawField}
    (read : readFrom delimiter row st bytes = .ok (some record, rest)) :
    rest.length < bytes.length ∨ bytes = [] ∧ rest = [] ∧ st.blank = false := by
  fun_induction readFrom delimiter row st bytes with
  | case1 => cases read
  | case2 st some_ =>
    obtain ⟨_, _, done⟩ := Except.bind_eq_ok.mp read
    cases done
    exact .inr ⟨rfl, rfl, by simpa using some_⟩
  | case3 | case8 =>
    rename_i ih
    left
    rcases ih read with less | ⟨_, rfl, _⟩
    · rw [List.length_tail] at less
      rw [List.length_cons]
      omega
    · exact Nat.succ_pos _
  | case7 | case9 =>
    obtain ⟨_, _, done⟩ := Except.bind_eq_ok.mp read
    cases done
    simp
  | case12 =>
    rename_i ih
    left
    obtain ⟨fields, _, read⟩ := Except.bind_eq_ok.mp read
    rcases ih fields read with less | ⟨_, rfl, _⟩
    · exact Nat.lt_succ_of_lt less
    · exact Nat.succ_pos _
  | case4 | case5 | case6 | case10 | case11 | case13 =>
    rename_i ih
    left
    rcases ih read with less | ⟨_, rfl, _⟩
    · exact Nat.lt_succ_of_lt less
    · exact Nat.succ_pos _

theorem readRecord_length {delimiter : UInt8} {row : Nat} {input rest : List UInt8} {record : List RawField}
    (read : readRecord delimiter row input = .ok (some record, rest)) : rest.length < input.length := by
  rcases readFrom_length read with less | ⟨_, _, filled⟩
  · exact less
  · cases filled

/-- Record after record, from a row on, to the end of the input. -/
def readRecords (delimiter : UInt8) (row : Nat) (input : List UInt8) : Except IngestError (List (List RawField)) :=
  match read : readRecord delimiter row input with
  | .error e => .error e
  | .ok (none, _) => .ok []
  | .ok (some record, rest) => do return record :: (← readRecords delimiter (row + 1) rest)
termination_by input.length
decreasing_by exact readRecord_length read

section Reading

variable {delimiter : UInt8} {row : Nat} {input rest : List UInt8}

theorem readRecords_none (read : readRecord delimiter row input = .ok (none, rest)) : readRecords delimiter row input = .ok [] := by
  rw [readRecords]
  split <;> simp_all

theorem readRecords_error {e : IngestError} (read : readRecord delimiter row input = .error e) :
    readRecords delimiter row input = .error e := by
  rw [readRecords]
  split <;> simp_all

theorem readRecords_some {record : List RawField} (read : readRecord delimiter row input = .ok (some record, rest)) :
    readRecords delimiter row input = do return record :: (← readRecords delimiter (row + 1) rest) := by
  rw [readRecords]
  split
  · simp_all
  · simp_all
  · rename_i read'
    rw [read] at read'
    cases read'
    rfl

theorem readRecords_nil (delimiter : UInt8) (row : Nat) : readRecords delimiter row [] = .ok [] := by
  have clean : readRecord delimiter row [] = .ok (none, []) := by
    rw [readRecord, readFrom]
    rfl
  exact readRecords_none clean

end Reading

/-- Quotes within a text are doubled. -/
def escape : List UInt8 → List UInt8
  | [] => []
  | b :: text => if b = quote then quote :: quote :: escape text else b :: escape text

def writeField : RawField → List UInt8
  | none => []
  | some text => quote :: (escape (utf8 text) ++ [quote])

def writeRecord (delimiter : UInt8) : List RawField → List UInt8
  | [] => []
  | [field] => writeField field
  | field :: fields => writeField field ++ delimiter :: writeRecord delimiter fields

/-- A line end. -/
inductive LineEnd where
  | lf | crlf
deriving DecidableEq, Repr

def LineEnd.bytes : LineEnd → List UInt8
  | .lf => [Csv.lf]
  | .crlf => [cr, Csv.lf]

/-- Records as RFC 4180 has them, each under its line end and the last one's left out at will. -/
inductive Written (delimiter : UInt8) : List (List RawField) → List UInt8 → Prop
  | nil : Written delimiter [] []
  | last (record : List RawField) : Written delimiter [record] (writeRecord delimiter record)
  | line {records : List (List RawField)} {bytes : List UInt8} (record : List RawField) (end_ : LineEnd)
      (rest : Written delimiter records bytes) : Written delimiter (record :: records) (writeRecord delimiter record ++ end_.bytes ++ bytes)

section Writing

variable {delimiter : UInt8} {row : Nat} {st : State}

theorem readFrom_quoted (open_ : st.inQuotes = true) (text rest : List UInt8) (ends : rest.head? ≠ some quote) :
    readFrom delimiter row st (escape text ++ quote :: rest) =
      readFrom delimiter row { st with buf := st.buf ++ text, inQuotes := false, lineHasContent := true } rest := by
  induction text generalizing st with
  | nil =>
    rw [escape, List.nil_append, readFrom, if_pos open_, if_pos rfl, if_neg ends, List.append_nil]
  | cons b text ih =>
    have pushed : (st.push b).inQuotes = true := open_
    have next := ih pushed
    rw [State.push, List.append_assoc] at next
    by_cases doubled : b = quote
    · subst doubled
      rw [escape, if_pos rfl, List.cons_append, List.cons_append, readFrom, if_pos open_, if_pos rfl, if_pos List.head?_cons]
      exact next
    · rw [escape, if_neg doubled, List.cons_append, readFrom, if_pos open_, if_neg doubled]
      exact next

/-- A field as it stands at its end. -/
def State.after (st : State) : RawField → State
  | none => st
  | some text => { st with buf := utf8 text, quoted := true, lineHasContent := true }

/-- At the start of a field. -/
structure State.AtField (st : State) : Prop where
  buf : st.buf = []
  quoted : st.quoted = false
  inQuotes : st.inQuotes = false

theorem readFrom_field (start : st.AtField) (field : RawField) (rest : List UInt8) (ends : rest.head? ≠ some quote) :
    readFrom delimiter row st (writeField field ++ rest) = readFrom delimiter row (st.after field) rest := by
  cases field with
  | none => rfl
  | some text =>
    obtain ⟨fields, buf, quoted, inQuotes, content⟩ := st
    obtain ⟨rfl, rfl, rfl⟩ := start
    rw [writeField, List.cons_append, List.append_assoc, readFrom]
    rw [if_neg Bool.false_ne_true, if_neg (by decide), if_neg (by simp [quote, cr]), if_neg (by decide), if_pos (by simp)]
    exact readFrom_quoted rfl (utf8 text) rest ends

theorem finish_after (start : st.AtField) (field : RawField) : (st.after field).finish row = .ok (st.fields ++ [field]) := by
  obtain ⟨fields, buf, quoted, inQuotes, content⟩ := st
  obtain ⟨rfl, rfl, rfl⟩ := start
  cases field with
  | none => rfl
  | some text =>
    have read : finishField (utf8 text) true row = .ok (some text) := by
      rw [finishField, if_neg (by simp), fromUtf8_utf8]
    rw [State.finish]
    change (do return fields ++ [← finishField (utf8 text) true row]) = _
    rw [read]
    rfl

/-- What ends a record, and what the input is after it. -/
inductive Ends : List UInt8 → List UInt8 → Prop
  | input : Ends [] []
  | line (end_ : LineEnd) (rest : List UInt8) : Ends (end_.bytes ++ rest) rest

theorem Ends.head {tail rest : List UInt8} (ends : Ends tail rest) : tail.head? ≠ some quote := by
  cases ends with
  | input => simp
  | line end_ rest => cases end_ <;> simp [LineEnd.bytes, quote, Csv.lf, cr]

/-- A record's last field. -/
theorem readFrom_last (outside : st.inQuotes = false) (shown : st.blank = false) {fields : List RawField}
    (finished : st.finish row = .ok fields) {tail rest : List UInt8} (ends : Ends tail rest) :
    readFrom delimiter row st tail = .ok (some fields, rest) := by
  have closed : ¬ st.inQuotes = true := by simp [outside]
  have filled : ¬ st.blank = true := by simp [shown]
  cases ends with
  | input =>
    rw [readFrom, if_neg filled, finished]
    rfl
  | line end_ rest =>
    cases end_ with
    | lf =>
      change readFrom delimiter row st (Csv.lf :: rest) = _
      rw [readFrom, if_neg closed, if_pos rfl, if_neg filled, finished]
      rfl
    | crlf =>
      change readFrom delimiter row st (cr :: Csv.lf :: rest) = _
      rw [readFrom, if_neg closed, if_neg (by decide), if_pos ⟨rfl, List.head?_cons⟩, if_neg filled, finished]
      rfl

/-- A delimiter no other rule is about. -/
def Delimits (delimiter : UInt8) : Prop := delimiter ∉ [quote, cr, lf]

theorem readFrom_delimiter (fair : Delimits delimiter) (outside : st.inQuotes = false) {fields : List RawField}
    (finished : st.finish row = .ok fields) (rest : List UInt8) :
    readFrom delimiter row st (delimiter :: rest) = readFrom delimiter row ⟨fields, [], false, false, true⟩ rest := by
  obtain ⟨noQuote, noCr, noLf⟩ : delimiter ≠ quote ∧ delimiter ≠ cr ∧ delimiter ≠ lf := by simpa [Delimits] using fair
  rw [readFrom, if_neg (by simp [outside]), if_neg noLf, if_neg (fun both => noCr both.1), if_neg noCr,
    if_neg (fun both => noQuote both.1), if_pos rfl, finished]
  rfl

theorem after_inQuotes (start : st.AtField) (field : RawField) : (st.after field).inQuotes = false := by
  cases field <;> exact start.inQuotes

theorem after_blank {field : RawField} (shown : st.lineHasContent = true ∨ field ≠ none) :
    (st.after field).blank = false := by
  cases field with
  | none =>
    rcases shown with content | absent
    · simp [State.after, State.blank, content]
    · exact absurd rfl absent
  | some text => rfl

/-- A record as it is written is read. -/
theorem readFrom_record (fair : Delimits delimiter) (start : st.AtField) {record : List RawField} (fields : record ≠ [])
    (shown : st.lineHasContent = true ∨ record ≠ [none]) {tail rest : List UInt8} (ends : Ends tail rest) :
    readFrom delimiter row st (writeRecord delimiter record ++ tail) = .ok (some (st.fields ++ record), rest) := by
  obtain ⟨noQuote, _, _⟩ : delimiter ≠ quote ∧ delimiter ≠ cr ∧ delimiter ≠ lf := by simpa [Delimits] using fair
  induction record generalizing st with
  | nil => exact absurd rfl fields
  | cons field record ih =>
    cases record with
    | nil =>
      rw [writeRecord, readFrom_field start field tail ends.head]
      apply readFrom_last (after_inQuotes start field) _ (finish_after start field) ends
      apply after_blank
      exact shown.imp_right fun several absent => several (by rw [absent])
    | cons next record =>
      rw [writeRecord, List.append_assoc, List.cons_append]
      · rw [readFrom_field start field _ (by simpa using noQuote),
          readFrom_delimiter fair (after_inQuotes start field) (finish_after start field),
          ih ⟨rfl, rfl, rfl⟩ (by simp) (.inl rfl), List.append_assoc]
        rfl
      · simp

end Writing

/-- A record a line shows: it has fields, and one alone is present. -/
def Shown (record : List RawField) : Prop := record ≠ [] ∧ record ≠ [none]

theorem readRecord_written {delimiter : UInt8} (fair : Delimits delimiter) {record : List RawField} (shown : Shown record) (row : Nat)
    {tail rest : List UInt8} (ends : Ends tail rest) :
    readRecord delimiter row (writeRecord delimiter record ++ tail) = .ok (some record, rest) :=
  readFrom_record fair ⟨rfl, rfl, rfl⟩ shown.1 (.inr shown.2) ends

/-- Records as they are written are read back, all of them and no more. -/
theorem readRecords_written {delimiter : UInt8} (fair : Delimits delimiter) {records : List (List RawField)} {bytes : List UInt8}
    (written : Written delimiter records bytes) (shown : ∀ record ∈ records, Shown record) (row : Nat) :
    readRecords delimiter row bytes = .ok records := by
  induction written generalizing row with
  | nil => exact readRecords_nil delimiter row
  | last record =>
    have read := readRecord_written fair (shown record List.mem_cons_self) row Ends.input
    rw [List.append_nil] at read
    rw [readRecords_some read, readRecords_nil]
    rfl
  | @line records bytes record end_ rest ih =>
    have read := readRecord_written fair (shown record List.mem_cons_self) row (Ends.line end_ bytes)
    rw [← List.append_assoc] at read
    rw [readRecords_some read, ih (fun record member => shown record (List.mem_cons_of_mem _ member)) (row + 1)]
    rfl

/-- Where a byte stands: at the start of a field, within one, within quotes, or after a quote that may close them. -/
inductive Mode where
  | start | plain | quoted | closing
deriving DecidableEq, Repr

def Mode.step (delimiter : UInt8) : Mode → UInt8 → Mode
  | .quoted, b => if b = quote then .closing else .quoted
  | m, b =>
    if b = quote ∧ (m = .closing ∨ m = .start) then .quoted
    else if b = lf ∨ b = delimiter then .start
    else .plain

/-- The input ends within quotes that nothing closes. -/
def Unterminated (delimiter : UInt8) (input : List UInt8) : Prop := input.foldl (Mode.step delimiter) .start = .quoted

/-- The bytes of each field in turn, without the quotes around them. -/
def pieces (delimiter : UInt8) : Mode → List UInt8 → List UInt8 → List (List UInt8)
  | _, field, [] => [field]
  | .quoted, field, b :: rest =>
    if b = quote then pieces delimiter .closing field rest else pieces delimiter .quoted (field ++ [b]) rest
  | m, field, b :: rest =>
    if b = quote ∧ m = .closing then pieces delimiter .quoted (field ++ [quote]) rest
    else if b = quote ∧ m = .start then pieces delimiter .quoted field rest
    else if b = lf ∨ b = delimiter then field :: pieces delimiter .start [] rest
    else if b = cr ∧ rest.head? = some lf then pieces delimiter .plain field rest
    else pieces delimiter .plain (field ++ [b]) rest

def IsText (bytes : List UInt8) : Prop := (fromUtf8 bytes).isSome

def AllText (fields : List (List UInt8)) : Prop := ∀ field ∈ fields, IsText field

theorem isText_nil : IsText [] := by
  have read := fromUtf8_utf8 ""
  have empty : utf8 "" = [] := rfl
  rw [empty] at read
  rw [IsText, read]
  rfl

theorem allText_cons {field : List UInt8} {fields : List (List UInt8)} : AllText (field :: fields) ↔ IsText field ∧ AllText fields :=
  List.forall_mem_cons

theorem finish_cases (st : State) (row : Nat) : (∃ fields, st.finish row = .ok fields ∧ IsText st.buf) ∨
    st.finish row = .error (.malformed row "invalid UTF-8") ∧ ¬ IsText st.buf := by
  unfold State.finish finishField
  by_cases absent : (st.buf.isEmpty && !st.quoted) = true
  · left
    rw [if_pos absent]
    have empty : st.buf = [] := by simp_all
    exact ⟨_, rfl, empty ▸ isText_nil⟩
  · rw [if_neg absent]
    cases text : fromUtf8 st.buf with
    | some s => exact .inl ⟨_, rfl, by rw [IsText, text]; rfl⟩
    | none => exact .inr ⟨rfl, by rw [IsText, text]; simp⟩

def State.mode (st : State) : Mode :=
  if st.inQuotes then .quoted else if st.buf.isEmpty && !st.quoted then .start else .plain

/-- What a read accounts for: with a record, the rest of the input has the same texts yet to come. -/
structure Accounts (delimiter : UInt8) (row : Nat) (fields : List (List UInt8))
    (r : Except IngestError (Option (List RawField) × List UInt8)) : Prop where
  ended : ∀ rest, r = .ok (none, rest) → AllText fields
  next : ∀ record rest, r = .ok (some record, rest) → (AllText fields ↔ AllText (pieces delimiter .start [] rest))
  refused : ∀ e, r = .error e → (∃ message, e = .malformed row message) ∧ ¬ AllText fields

section Accounting

variable {delimiter : UInt8} {row : Nat} {st : State} {rest : List UInt8}

theorem Accounts.congr {fields fields' : List (List UInt8)} {r : Except IngestError (Option (List RawField) × List UInt8)}
    (accounts : Accounts delimiter row fields' r) (same : AllText fields ↔ AllText fields') : Accounts delimiter row fields r where
  ended rest read := same.mpr (accounts.ended rest read)
  next record rest read := same.trans (accounts.next record rest read)
  refused e read := ⟨(accounts.refused e read).1, fun all => (accounts.refused e read).2 (same.mp all)⟩

/-- A record that ends here. -/
theorem accounts_finish (st : State) (rest : List UInt8) : Accounts delimiter row (st.buf :: pieces delimiter .start [] rest)
    (do return (some (← st.finish row), rest)) := by
  rcases finish_cases st row with ⟨fields, finished, text⟩ | ⟨refused, garbage⟩
  · rw [finished]
    refine ⟨fun _ read => ?_, fun _ _ read => ?_, fun _ read => ?_⟩
    · cases read
    · cases read
      rw [allText_cons]
      exact and_iff_right text
    · cases read
  · rw [refused]
    refine ⟨fun _ read => ?_, fun _ _ read => ?_, fun e read => ?_⟩
    · cases read
    · cases read
    · cases read
      exact ⟨⟨_, rfl⟩, fun all => garbage (allText_cons.mp all).1⟩

theorem pieces_closing {field : List UInt8} (ends : rest.head? ≠ some quote) :
    pieces delimiter .closing field rest = pieces delimiter .plain field rest := by
  cases rest with
  | nil => rfl
  | cons b rest =>
    have other : b ≠ quote := fun same => ends (by rw [same, List.head?_cons])
    rw [pieces, pieces]
    · simp only [other, false_and, if_false]
    · simp
    · simp

theorem pieces_doubled {field : List UInt8} (doubled : rest.head? = some quote) :
    pieces delimiter .closing field rest = pieces delimiter .quoted (field ++ [quote]) rest.tail := by
  cases rest with
  | nil => cases doubled
  | cons b rest =>
    cases doubled
    rw [pieces, if_pos ⟨rfl, rfl⟩, List.tail_cons]
    simp

theorem mode_quoted (open_ : st.inQuotes = true) : st.mode = .quoted := if_pos open_

theorem mode_push_quoted (open_ : st.inQuotes = true) (b : UInt8) : (st.push b).mode = .quoted := if_pos open_

/-- Outside quotes, a field is at its start or past it. -/
theorem mode_outside (outside : ¬ st.inQuotes = true) : st.mode = .start ∧ st.buf = [] ∧ st.quoted = false ∨
    st.mode = .plain ∧ ¬ (st.buf.isEmpty = true ∧ (!st.quoted) = true) := by
  unfold State.mode
  rw [if_neg outside]
  by_cases start : (st.buf.isEmpty && !st.quoted) = true
  · rw [if_pos start]
    exact .inl ⟨rfl, by simp_all⟩
  · rw [if_neg start]
    exact .inr ⟨rfl, by simpa using start⟩

theorem mode_push (outside : ¬ st.inQuotes = true) (b : UInt8) : (st.push b).mode = .plain := by
  have past : ¬ ((st.push b).buf.isEmpty && !(st.push b).quoted) = true := by simp [State.push]
  exact (if_neg outside).trans (if_neg past)

/-- A byte outside quotes that opens none. -/
theorem pieces_outside (outside : ¬ st.inQuotes = true) {b : UInt8} (plain : ¬ (b = quote ∧ st.buf.isEmpty = true ∧ (!st.quoted) = true)) :
    pieces delimiter st.mode st.buf (b :: rest) =
      if b = lf ∨ b = delimiter then st.buf :: pieces delimiter .start [] rest
      else if b = cr ∧ rest.head? = some lf then pieces delimiter .plain st.buf rest
      else pieces delimiter .plain (st.buf ++ [b]) rest := by
  rcases mode_outside outside with ⟨start, empty, bare⟩ | ⟨past, _⟩
  · have other : b ≠ quote := fun same => plain ⟨same, by simp [empty], by simp [bare]⟩
    rw [start, pieces]
    · simp only [other, false_and, if_false]
    · simp
  · rw [past, pieces]
    · simp
    · simp

/-- A line end right where the field stands. -/
theorem pieces_lf {m : Mode} (outside : m ≠ .quoted) (field : List UInt8) :
    pieces delimiter m field (lf :: rest) = field :: pieces delimiter .start [] rest := by
  rw [pieces]
  · simp [quote, lf]
  · exact outside

/-- What a record reads, it accounts for. -/
theorem readFrom_accounts (fair : Delimits delimiter) (st : State) (bytes : List UInt8) (inside : st.inQuotes = true → st.quoted = true) :
    Accounts delimiter row (pieces delimiter st.mode st.buf bytes) (readFrom delimiter row st bytes) := by
  obtain ⟨noQuote, noCr, noLf⟩ : delimiter ≠ quote ∧ delimiter ≠ cr ∧ delimiter ≠ lf := by simpa [Delimits] using fair
  have neither : ¬ (cr = lf ∨ cr = delimiter) := not_or.mpr ⟨by decide, noCr.symm⟩
  fun_induction readFrom delimiter row st bytes with
  | case1 st blank =>
    refine ⟨fun _ _ => ?_, fun _ _ read => ?_, fun _ read => ?_⟩
    · have empty : st.buf = [] := by simp_all [State.blank]
      rw [pieces, allText_cons, empty]
      exact ⟨isText_nil, by simp [AllText]⟩
    · cases read
    · cases read
  | case2 st filled =>
    apply (accounts_finish st []).congr
    rw [pieces, pieces, allText_cons, allText_cons]
    simp [AllText, isText_nil]
  | case3 st rest open_ doubled ih =>
    rw [mode_quoted open_, pieces, if_pos rfl, pieces_doubled doubled]
    have read := ih inside
    rwa [mode_push_quoted open_] at read
  | case4 st rest open_ lone ih =>
    rw [mode_quoted open_, pieces, if_pos rfl, pieces_closing lone]
    have read := ih (fun closed => by cases closed)
    have past : State.mode { st with inQuotes := false, lineHasContent := true } = .plain := by
      unfold State.mode
      simp [inside open_]
    rwa [past] at read
  | case5 st b rest open_ other ih =>
    rw [mode_quoted open_, pieces, if_neg other]
    have read := ih inside
    rwa [mode_push_quoted open_] at read
  | case6 st rest outside blank ih =>
    have empty : st.buf = [] := by simp_all [State.blank]
    apply (ih (fun open_ => by cases open_)).congr
    rw [pieces_outside outside (by simp [quote, lf]), if_pos (.inl rfl), allText_cons, empty]
    exact and_iff_right isText_nil
  | case7 st rest outside filled =>
    rw [pieces_outside outside (by simp [quote, lf]), if_pos (.inl rfl)]
    exact accounts_finish st rest
  | case8 st b rest outside noLf' crlf blank ih =>
    obtain ⟨rfl, next⟩ := crlf
    have empty : st.buf = [] := by simp_all [State.blank]
    obtain ⟨after, rfl⟩ := List.head?_eq_some_iff.mp next
    apply (ih (fun open_ => by cases open_)).congr
    rw [pieces_outside outside (by simp [quote, cr]), if_neg neither, if_pos ⟨rfl, next⟩, pieces_lf (by simp),
      allText_cons, empty]
    exact and_iff_right isText_nil
  | case9 st b rest outside noLf' crlf filled =>
    obtain ⟨rfl, next⟩ := crlf
    obtain ⟨after, rfl⟩ := List.head?_eq_some_iff.mp next
    rw [pieces_outside outside (by simp [quote, cr]), if_neg neither, if_pos ⟨rfl, next⟩, pieces_lf (by simp)]
    exact accounts_finish st after
  | case10 st rest outside _ lone ih =>
    rw [pieces_outside outside (by simp [quote, cr]), if_neg neither, if_neg lone]
    have read := ih inside
    rwa [mode_push outside] at read
  | case11 st b rest outside noLf' crlf noCr' opens ih =>
    obtain ⟨rfl, empty, bare⟩ := opens
    rcases mode_outside outside with ⟨start, _, _⟩ | ⟨_, past⟩
    · rw [start, pieces, if_neg (by simp), if_pos ⟨rfl, rfl⟩]
      · exact ih (fun _ => rfl)
      · simp
    · exact absurd ⟨empty, bare⟩ past
  | case12 st rest outside noLf' crlf noCr' plain ih =>
    rw [pieces_outside outside plain, if_pos (.inr rfl)]
    rcases finish_cases st row with ⟨fields, finished, text⟩ | ⟨refused, garbage⟩
    · rw [finished]
      apply (ih fields (fun open_ => by cases open_)).congr
      rw [allText_cons]
      exact and_iff_right text
    · rw [refused]
      refine ⟨fun _ read => ?_, fun _ _ read => ?_, fun e read => ?_⟩
      · cases read
      · cases read
      · cases read
        exact ⟨⟨_, rfl⟩, fun all => garbage (allText_cons.mp all).1⟩
  | case13 st b rest outside noLf' crlf noCr' plain other ih =>
    rw [pieces_outside outside plain, if_neg (by simp [noLf', other]), if_neg crlf]
    have read := ih (fun open_ => absurd open_ outside)
    rwa [mode_push outside] at read

/-- Every record is read where every field is text, and else the field is reported. -/
theorem readRecords_cases (fair : Delimits delimiter) (row : Nat) (input : List UInt8) :
    (∃ records, readRecords delimiter row input = .ok records ∧ AllText (pieces delimiter .start [] input)) ∨
      ∃ at_ message, readRecords delimiter row input = .error (.malformed at_ message) ∧ ¬ AllText (pieces delimiter .start [] input) := by
  have accounts : Accounts delimiter row (pieces delimiter .start [] input) (readRecord delimiter row input) :=
    readFrom_accounts fair .fresh input (fun open_ => by cases open_)
  cases read : readRecord delimiter row input with
  | error e =>
    obtain ⟨⟨message, rfl⟩, garbage⟩ := accounts.refused e read
    exact .inr ⟨row, message, readRecords_error read, garbage⟩
  | ok result =>
    obtain ⟨record, rest⟩ := result
    cases record with
    | none => exact .inl ⟨[], readRecords_none read, accounts.ended rest read⟩
    | some record =>
      have shorter := readRecord_length read
      have same := accounts.next record rest read
      rcases readRecords_cases fair (row + 1) rest with ⟨records, later, text⟩ | ⟨at_, message, later, garbage⟩
      · exact .inl ⟨record :: records, by rw [readRecords_some read, later]; rfl, same.mpr text⟩
      · exact .inr ⟨at_, message, by rw [readRecords_some read, later]; rfl, fun all => garbage (same.mp all)⟩
termination_by input.length

end Accounting

/-- Records as they are written are read back; an input that ends within quotes is refused just where a field is no text. -/
theorem csv_exact (delimiter : UInt8) (fair : Delimits delimiter) :
    (∀ records bytes row, Written delimiter records bytes → (∀ record ∈ records, Shown record) →
      readRecords delimiter row bytes = .ok records) ∧
    ∀ bytes row, (Unterminated delimiter bytes → ∃ at_ message, readRecords delimiter row bytes = .error (.malformed at_ message)) ↔
      ¬ Unterminated delimiter bytes ∨ ∃ field ∈ pieces delimiter .start [] bytes, ¬ IsText field := by
  refine ⟨fun records bytes row written shown => readRecords_written fair written shown row, fun bytes row => ?_⟩
  rcases readRecords_cases fair row bytes with ⟨records, read, text⟩ | ⟨at_, message, read, garbage⟩
  · constructor
    · intro refused
      left
      intro unterminated
      obtain ⟨_, _, other⟩ := refused unterminated
      rw [read] at other
      cases other
    · rintro (closed | ⟨field, member, no⟩)
      · exact fun unterminated => absurd unterminated closed
      · exact absurd (text field member) no
  · constructor
    · intro _
      right
      by_contra none_
      push Not at none_
      exact garbage none_
    · exact fun _ _ => ⟨at_, message, read⟩

theorem csv_exact_comma : Delimits 44 ∧ (readRecords 44 1 [34, 97, 34, 44, 10] = .ok [[some "a", none]]) := by
  have fair : Delimits 44 := by
    unfold Delimits
    decide
  refine ⟨fair, (csv_exact 44 fair).1 [[some "a", none]] _ 1 ?_ ?_⟩
  · exact Written.line [some "a", none] .lf Written.nil
  · intro record member
    rw [List.mem_singleton.mp member]
    exact ⟨by simp, by simp⟩

/-- A text that no quote closes. -/
theorem csv_unterminated : Unterminated 44 [34, 97] ∧ readRecords 44 1 [34, 97] = .ok [[some "a"]] := by
  have text : fromUtf8 [97] = some "a" := fromUtf8_utf8 "a"
  have read : readRecord 44 1 [34, 97] = .ok (some [some "a"], []) := by
    simp [readRecord, readFrom, State.fresh, State.push, State.blank, State.finish, finishField, quote, lf, cr, text]
  constructor
  · unfold Unterminated
    decide
  · rw [readRecords_some read, readRecords_nil]
    rfl

end Adelie.Csv
