import Adelie.Lib.Ordered
import Adelie.Manifest.Inversion
import Adelie.Types.Parse

namespace Adelie

inductive MigrateMode where
  | apply | dryRun
deriving DecidableEq, Repr

structure PendingMigration where
  name : String
  checksum : Nat
  sql : String
deriving DecidableEq, Repr

/-- One `.sql` file found in the migrations directory, parsed and hashed. -/
structure MigrationFile where
  name : String
  number : Nat
  checksum : Nat
  sql : String
deriving DecidableEq, Repr

inductive LedgerError where
  | io (message : String)
  | migrationInvalid (name detail : String)
  | migrationMissing (name : String)
  | migrationChanged (name : String)
  | migrationFailed (name message : String)
  | manifest (e : Error)

/-- What `read_dir` yields: the name where it is UTF-8, and what asking for the type and the bytes gives. -/
structure DirEntry where
  name : Option String
  isDir : Except String Bool
  bytes : Except String (List UInt8)

/-- The number before the first `_` of a stem. -/
def parseNumber (stem : List Char) : Option Nat :=
  if '_' ∈ stem then
    let digits := stem.takeWhile (· != '_')
    if digits.isEmpty || !digits.all Char.isDigit then none
    else if digitsValue digits < 2 ^ 64 then some (digitsValue digits)
    else none
  else none

/-- `strip_suffix(".sql")`. -/
def stripSql (name : String) : Option (List Char) :=
  if (".sql".toList).isSuffixOf name.toList then some (name.toList.take (name.toList.length - 4)) else none

def numberOf (name : String) : Option Nat := (stripSql name).bind parseNumber

def ioError {α : Type} : Except String α → Except LedgerError α
  | .ok a => .ok a
  | .error message => .error (.io message)

def decodeUtf8 (name : String) (bytes : List UInt8) : Except LedgerError String :=
  match String.fromUTF8? ⟨bytes.toArray⟩ with
  | some sql => .ok sql
  | none => .error (.migrationInvalid name "file is not valid UTF-8")

section List

variable (hash : List UInt8 → Nat)

/-- One `.sql` entry: its number has to be there and to be new. -/
def addFile (files : List MigrationFile) (name : String) (stem : List Char) (bytes : Except String (List UInt8)) :
    Except LedgerError (List MigrationFile) :=
  match parseNumber stem with
  | none => .error (.migrationInvalid name "expected <number>_<name>.sql")
  | some number => do
    ensure (!files.any (·.number == number)) (.migrationInvalid name s!"duplicate migration number {number}")
    let content ← ioError bytes
    let sql ← decodeUtf8 name content
    return files ++ [⟨name, number, hash content, sql⟩]

/-- Directories, names that are no UTF-8 and other extensions are passed over. -/
def addEntry (files : List MigrationFile) (e : DirEntry) : Except LedgerError (List MigrationFile) := do
  if ← ioError e.isDir then return files
  match e.name with
  | none => return files
  | some name =>
    match stripSql name with
    | none => return files
    | some stem => addFile hash files name stem e.bytes

def listDir (entries : List DirEntry) : Except LedgerError (List MigrationFile) := do
  let files ← entries.foldlM (addEntry hash) []
  return sortByKey (·.number) files

end List

/-- A recorded file is still there, unchanged. -/
def checkRecorded (files : List MigrationFile) (r : MigrationRecord) : Except LedgerError Unit :=
  match files.find? (·.name == r.name) with
  | none => .error (.migrationMissing r.name)
  | some f => ensure (f.checksum = r.checksum) (.migrationChanged r.name)

/-- `max_by_key` keeps the last of the greatest. -/
def laterMax (best : Option (Nat × String)) (c : Nat × String) : Option (Nat × String) :=
  match best with
  | none => some c
  | some b => if b.1 ≤ c.1 then some c else some b

def highestRecorded (recorded : List MigrationRecord) : Option (Nat × String) :=
  (recorded.filterMap fun r => (numberOf r.name).map (·, r.name)).foldl laterMax none

def isRecorded (recorded : List MigrationRecord) (f : MigrationFile) : Bool := recorded.any (·.name == f.name)

/-- The files the ledger does not list. -/
def fresh (files : List MigrationFile) (recorded : List MigrationRecord) : List MigrationFile :=
  files.filter fun f => !isRecorded recorded f

def checkNew (highest : Option (Nat × String)) (f : MigrationFile) : Except LedgerError Unit :=
  match highest with
  | none => .ok ()
  | some (number, name) =>
    ensure (number < f.number) (.migrationInvalid f.name s!"numbered below applied migration {name}")

/-- What is left to run, oldest first, once every check has passed. -/
def pendingFiles (files : List MigrationFile) (recorded : List MigrationRecord) :
    Except LedgerError (List MigrationFile) := do
  recorded.forM (checkRecorded files)
  (fresh files recorded).forM (checkNew (highestRecorded recorded))
  return fresh files recorded

def toPending (f : MigrationFile) : PendingMigration := ⟨f.name, f.checksum, f.sql⟩

/-- What a run of migrations meets: the statements of a file against the store, whether the commit that
    records it reaches the disk, and the clock. Only a record adds to the ledger, and the ledger's lock
    is held throughout. -/
structure MigrationEnv where
  hash : List UInt8 → Nat
  exec : Manifest → PendingMigration → Manifest × Option String
  exec_keeps : ∀ m p, (exec m p).1.migrations = m.migrations
  publish : Manifest → Except Error Unit
  clock : Manifest → Nat

inductive MigrationEvent where
  | ran (p : PendingMigration)
  | recorded (p : PendingMigration)
deriving DecidableEq, Repr

structure MigrationOutcome where
  manifest : Manifest
  events : List MigrationEvent
  result : Except LedgerError (List PendingMigration)

namespace MigrationEnv

variable (env : MigrationEnv)

/-- The commit of one record. -/
def record (m : Manifest) (p : PendingMigration) : Except Error Manifest := do
  let next ← (⟨m.version, [.recordMigration p.name p.checksum]⟩ : Commit).apply m (env.clock m)
  env.publish next
  return next

def runPending (m : Manifest) : List MigrationFile → MigrationOutcome
  | [] => ⟨m, [], .ok []⟩
  | f :: rest =>
    match env.exec m (toPending f) with
    | (m', some message) => ⟨m', [.ran (toPending f)], .error (.migrationFailed f.name message)⟩
    | (m', none) =>
      match env.record m' (toPending f) with
      | .error e => ⟨m', [.ran (toPending f)], .error (.manifest e)⟩
      | .ok next =>
        let out := runPending next rest
        ⟨out.manifest, .ran (toPending f) :: .recorded (toPending f) :: out.events,
          out.result.map (toPending f :: ·)⟩

/-- Every check runs before the first file. -/
def applyMigrations (m : Manifest) (entries : List DirEntry) (mode : MigrateMode) : MigrationOutcome :=
  match listDir env.hash entries with
  | .error e => ⟨m, [], .error e⟩
  | .ok files =>
    match pendingFiles files m.migrations with
    | .error e => ⟨m, [], .error e⟩
    | .ok pending =>
      match mode with
      | .dryRun => ⟨m, [], .ok (pending.map toPending)⟩
      | .apply => env.runPending m pending

end MigrationEnv

/-- The number a directory entry stands for, where it is a migration. -/
def entryNumber (e : DirEntry) : Option Nat :=
  match e.isDir with
  | .ok false => e.name.bind numberOf
  | _ => none

/-- What the listing makes of a directory: each file under the number of its name, and no number twice. -/
structure Listed (entries : List DirEntry) (files : List MigrationFile) : Prop where
  named : ∀ f ∈ files, numberOf f.name = some f.number
  numbers : (files.map (·.number)).Perm (entries.filterMap entryNumber)
  nodup : (files.map (·.number)).Nodup

namespace Listed

variable {hash : List UInt8 → Nat} {entries : List DirEntry} {files files' : List MigrationFile} {e : DirEntry}

theorem addFile_eq_ok {name : String} {stem : List Char} {bytes : Except String (List UInt8)}
    (added : addFile hash files name stem bytes = .ok files') :
    ∃ f, files' = files ++ [f] ∧ f.name = name ∧ parseNumber stem = some f.number ∧
      ∀ g ∈ files, g.number ≠ f.number := by
  unfold addFile at added
  split at added
  · cases added
  · rename_i number parsed
    obtain ⟨_, fresh, added⟩ := Except.bind_eq_ok.mp added
    obtain ⟨content, _, added⟩ := Except.bind_eq_ok.mp added
    obtain ⟨sql, _, added⟩ := Except.bind_eq_ok.mp added
    cases added
    refine ⟨_, rfl, rfl, parsed, ?_⟩
    rw [ensure_eq_ok] at fresh
    simpa using fresh

/-- An entry is passed over, or adds the one file of its number. -/
theorem addEntry_eq_ok (added : addEntry hash files e = .ok files') :
    (files' = files ∧ entryNumber e = none) ∨
    ∃ f, files' = files ++ [f] ∧ entryNumber e = some f.number ∧ numberOf f.name = some f.number ∧
      ∀ g ∈ files, g.number ≠ f.number := by
  unfold addEntry at added
  obtain ⟨isDir, kind, added⟩ := Except.bind_eq_ok.mp added
  have kind : e.isDir = .ok isDir := by
    cases asked : e.isDir <;> simp_all [ioError]
  cases isDir with
  | true =>
    cases added
    exact .inl ⟨rfl, by rw [entryNumber, kind]⟩
  | false =>
    cases named : e.name with
    | none =>
      rw [named] at added
      cases added
      exact .inl ⟨rfl, by rw [entryNumber, kind, named]; rfl⟩
    | some name =>
      have number : entryNumber e = numberOf name := by
        rw [entryNumber, kind, named]
        rfl
      rw [named] at added
      cases stripped : stripSql name with
      | none =>
        simp only [stripped] at added
        cases added
        exact .inl ⟨rfl, by rw [number, numberOf, stripped]; rfl⟩
      | some stem =>
        simp only [stripped] at added
        obtain ⟨f, rfl, rfl, parsed, fresh⟩ := addFile_eq_ok added
        have own : numberOf f.name = some f.number := by
          rw [numberOf, stripped]
          exact parsed
        exact .inr ⟨f, rfl, number.trans own, own, fresh⟩

theorem of_foldlM (ran : entries.foldlM (addEntry hash) files = .ok files') {before : List DirEntry}
    (listed : Listed before files) : Listed (before ++ entries) files' := by
  induction entries generalizing files before with
  | nil =>
    cases ran
    rw [List.append_nil]
    exact listed
  | cons e rest ih =>
    rw [List.foldlM_cons] at ran
    obtain ⟨mid, added, ran⟩ := Except.bind_eq_ok.mp ran
    have step : Listed (before ++ [e]) mid := by
      rcases addEntry_eq_ok added with ⟨rfl, none_⟩ | ⟨f, rfl, number, own, fresh⟩
      · refine ⟨listed.named, ?_, listed.nodup⟩
        rw [List.filterMap_append]
        simpa [none_] using listed.numbers
      · refine ⟨?_, ?_, ?_⟩
        · intro g member
          rcases List.mem_append.mp member with member | member
          · exact listed.named g member
          · rw [List.mem_singleton.mp member]
            exact own
        · rw [List.filterMap_append, List.map_append]
          refine listed.numbers.append ?_
          simp [number]
        · rw [List.map_append]
          refine List.nodup_append.mpr ⟨listed.nodup, List.nodup_singleton _, ?_⟩
          rintro n member n' new rfl
          obtain ⟨g, inside, rfl⟩ := List.mem_map.mp member
          exact fresh g inside (by simpa using new)
    have tail := ih ran step
    rwa [List.append_assoc] at tail

end Listed

theorem listDir_listed {hash : List UInt8 → Nat} {entries : List DirEntry} {files : List MigrationFile}
    (made : listDir hash entries = .ok files) : Listed entries files ∧ files.Pairwise (·.number < ·.number) := by
  unfold listDir at made
  obtain ⟨found, ran, made⟩ := Except.bind_eq_ok.mp made
  cases made
  have listed : Listed entries found := by
    have all := @Listed.of_foldlM hash entries [] found ran [] ⟨by simp, by simp, by simp⟩
    simpa using all
  have perm := sortByKey_perm (·.number) found
  have nodup : ((sortByKey (·.number) found).map (·.number)).Nodup := (perm.map _).nodup_iff.mpr listed.nodup
  refine ⟨⟨fun f member => listed.named f (perm.mem_iff.mp member), (perm.map _).trans listed.numbers, nodup⟩, ?_⟩
  have sorted : (sortByKey (·.number) found).Pairwise fun a b => a.number ≤ b.number := sortByKey_sorted _ _
  have apart : (sortByKey (·.number) found).Pairwise fun a b => a.number ≠ b.number := List.pairwise_map.mp nodup
  exact (sorted.and apart).imp fun both => lt_of_le_of_ne both.1 both.2

theorem foldl_laterMax {l : List (Nat × String)} {best : Option (Nat × String)} :
    (∀ c ∈ best.toList ++ l, ∃ top, l.foldl laterMax best = some top ∧ c.1 ≤ top.1) ∧
      ∀ top, l.foldl laterMax best = some top → top ∈ best.toList ++ l := by
  induction l generalizing best with
  | nil =>
    refine ⟨?_, ?_⟩
    · intro c member
      rw [List.append_nil, Option.mem_toList] at member
      exact ⟨c, member, Nat.le_refl _⟩
    · intro top found
      simpa using found
  | cons d rest ih =>
    obtain ⟨bound, attained⟩ := @ih (laterMax best d)
    have step : ∀ c ∈ best.toList ++ [d], ∃ b, laterMax best d = some b ∧ c.1 ≤ b.1 := by
      intro c member
      cases best with
      | none =>
        have is : c = d := by simpa using member
        exact ⟨d, rfl, by rw [is]⟩
      | some b =>
        have is : c = b ∨ c = d := by simpa using member
        by_cases less : b.1 ≤ d.1
        · refine ⟨d, by rw [laterMax, if_pos less], ?_⟩
          rcases is with rfl | rfl
          · exact less
          · exact Nat.le_refl _
        · refine ⟨b, by rw [laterMax, if_neg less], ?_⟩
          rcases is with rfl | rfl
          · exact Nat.le_refl _
          · omega
    rw [List.foldl_cons]
    refine ⟨?_, ?_⟩
    · intro c member
      have split : c ∈ best.toList ++ [d] ∨ c ∈ rest := by
        simpa [or_assoc] using member
      rcases split with early | late
      · obtain ⟨b, is, le⟩ := step c early
        obtain ⟨top, found, above⟩ := bound b (by simp [is])
        exact ⟨top, found, le.trans above⟩
      · exact bound c (List.mem_append_right _ late)
    · intro top found
      rcases List.mem_append.mp (attained top found) with early | late
      · cases best with
        | none =>
          have is : top = d := by simpa [laterMax, eq_comm] using early
          simp [is]
        | some b =>
          by_cases less : b.1 ≤ d.1
          · have is : top = d := by simpa [laterMax, less, eq_comm] using early
            simp [is]
          · have is : top = b := by simpa [laterMax, less, eq_comm] using early
            simp [is]
      · simp [late]

/-- The highest recorded number bounds every recorded one, and is one of them. -/
theorem checkNew_eq_ok_iff {recorded : List MigrationRecord} {f : MigrationFile} :
    checkNew (highestRecorded recorded) f = .ok () ↔
      ∀ r ∈ recorded, ∀ n, numberOf r.name = some n → n < f.number := by
  obtain ⟨bound, attained⟩ := @foldl_laterMax
    (recorded.filterMap fun r => (numberOf r.name).map (·, r.name)) none
  have numbered : ∀ r ∈ recorded, ∀ n, numberOf r.name = some n →
      (n, r.name) ∈ recorded.filterMap fun r => (numberOf r.name).map (·, r.name) := by
    intro r member n is
    exact List.mem_filterMap.mpr ⟨r, member, by rw [is]; rfl⟩
  unfold checkNew highestRecorded
  constructor
  · intro passed r member n is
    obtain ⟨top, found, above⟩ := bound (n, r.name) (by simpa using numbered r member n is)
    rw [found] at passed
    have below : top.1 < f.number := by simpa using ensure_eq_ok.mp passed
    exact above.trans_lt below
  · intro all
    split
    · rfl
    · rename_i number name found
      have source : ∃ r ∈ recorded, numberOf r.name = some number ∧ r.name = name := by
        simpa using attained _ found
      obtain ⟨r, member, is, _⟩ := source
      exact ensure_eq_ok.mpr (by simpa using all r member number is)

/-- A directory against the ledger: every recorded file is there with its checksum, and what is not
    recorded comes after all that is. -/
structure LedgerAgrees (files : List MigrationFile) (recorded : List MigrationRecord) : Prop where
  present : ∀ r ∈ recorded, ∃ f ∈ files, f.name = r.name ∧ f.checksum = r.checksum
  later : ∀ f ∈ files, isRecorded recorded f = false → ∀ r ∈ recorded, ∀ n, numberOf r.name = some n → n < f.number

section Pending

variable {entries : List DirEntry} {files : List MigrationFile} {recorded : List MigrationRecord}

theorem Listed.eq_of_name (listed : Listed entries files) {f g : MigrationFile} (inside : f ∈ files) (member : g ∈ files)
    (same : f.name = g.name) : f = g := by
  have number : f.number = g.number := by
    have first := listed.named f inside
    have second := listed.named g member
    rw [same, second] at first
    exact (Option.some.inj first).symm
  exact List.inj_on_of_nodup_map listed.nodup inside member number

theorem checkRecorded_eq_ok_iff (listed : Listed entries files) {r : MigrationRecord} :
    checkRecorded files r = .ok () ↔ ∃ f ∈ files, f.name = r.name ∧ f.checksum = r.checksum := by
  unfold checkRecorded
  constructor
  · intro passed
    split at passed
    · cases passed
    · rename_i f found
      refine ⟨f, List.mem_of_find?_eq_some found, by simpa using List.find?_some found, ?_⟩
      simpa using ensure_eq_ok.mp passed
  · rintro ⟨f, inside, named, unchanged⟩
    split
    · rename_i missing
      have absent := List.find?_eq_none.mp missing f inside
      simp [named] at absent
    · rename_i g found
      have sameName : g.name = r.name := by simpa using List.find?_some found
      have twin := listed.eq_of_name (List.mem_of_find?_eq_some found) inside (sameName.trans named.symm)
      exact ensure_eq_ok.mpr (by simpa [twin] using unchanged)

theorem pendingFiles_of_agrees (listed : Listed entries files) (agrees : LedgerAgrees files recorded) :
    pendingFiles files recorded = .ok (fresh files recorded) := by
  unfold pendingFiles
  refine Except.bind_eq_ok.mpr ⟨(), ?_, Except.bind_eq_ok.mpr ⟨(), ?_, rfl⟩⟩
  · exact forM_eq_ok.mpr fun r member => (checkRecorded_eq_ok_iff listed).mpr (agrees.present r member)
  · refine forM_eq_ok.mpr fun f member => checkNew_eq_ok_iff.mpr ?_
    obtain ⟨inside, fresh⟩ := List.mem_filter.mp member
    exact agrees.later f inside (by simpa using fresh)

theorem agrees_of_pendingFiles (listed : Listed entries files) {pending : List MigrationFile}
    (made : pendingFiles files recorded = .ok pending) : LedgerAgrees files recorded := by
  unfold pendingFiles at made
  obtain ⟨_, present, made⟩ := Except.bind_eq_ok.mp made
  obtain ⟨_, later, _⟩ := Except.bind_eq_ok.mp made
  refine ⟨fun r member => (checkRecorded_eq_ok_iff listed).mp (forM_eq_ok.mp present r member), ?_⟩
  intro f inside fresh
  exact checkNew_eq_ok_iff.mp (forM_eq_ok.mp later f (List.mem_filter.mpr ⟨inside, by simp [fresh]⟩))

end Pending

/-- The files the ledger lists, each with its checksum. -/
def ledgerOf (m : Manifest) : List (String × Nat) := m.migrations.map fun r => (r.name, r.checksum)

/-- A run over these files that has recorded the first `k` of them: a file is recorded right after it
    ran, and the one after the last recorded has run without success. -/
structure Progress (m : Manifest) (pending : List MigrationFile) (k : Nat) (out : MigrationOutcome) : Prop where
  within : k ≤ pending.length
  ledger : ledgerOf out.manifest = ledgerOf m ++ (pending.take k).map fun f => (f.name, f.checksum)
  events : out.events = ((pending.take k).flatMap fun f => [.ran (toPending f), .recorded (toPending f)]) ++
    (pending.drop k).head?.toList.map fun f => .ran (toPending f)
  finished : k = pending.length → out.result = .ok (pending.map toPending)
  stopped : k < pending.length → ∃ e, out.result = .error e

namespace MigrationEnv

variable (env : MigrationEnv) {m m' : Manifest}

theorem record_ledger {p : PendingMigration} (made : env.record m p = .ok m') :
    ledgerOf m' = ledgerOf m ++ [(p.name, p.checksum)] := by
  unfold record at made
  obtain ⟨next, applied, made⟩ := Except.bind_eq_ok.mp made
  obtain ⟨_, _, made⟩ := Except.bind_eq_ok.mp made
  cases made
  obtain ⟨mid, edits, last⟩ := Except.bind_eq_ok.mp applied
  cases last
  rw [List.foldlM_cons] at edits
  obtain ⟨again, one, rest⟩ := Except.bind_eq_ok.mp edits
  cases rest
  rw [Manifest.recordMigration_eq_ok one]
  simp [ledgerOf]

theorem runPending_progress (m : Manifest) (pending : List MigrationFile) :
    ∃ k, Progress m pending k (env.runPending m pending) := by
  induction pending generalizing m with
  | nil => exact ⟨0, Nat.le_refl _, by simp [runPending], rfl, fun _ => rfl, fun more => absurd more (by simp)⟩
  | cons f rest ih =>
    cases ran : env.exec m (toPending f) with
    | mk m' failed =>
      have kept : ledgerOf m' = ledgerOf m := by
        have same := env.exec_keeps m (toPending f)
        rw [ran] at same
        rw [ledgerOf, same]
        rfl
      cases failed with
      | some message =>
        refine ⟨0, Nat.zero_le _, ?_, ?_, fun none_ => absurd none_ (by simp), fun _ => ?_⟩
        · simp [runPending, ran, kept]
        · simp [runPending, ran]
        · exact ⟨.migrationFailed f.name message, by simp only [runPending, ran]⟩
      | none =>
        cases recorded : env.record m' (toPending f) with
        | error e =>
          refine ⟨0, Nat.zero_le _, ?_, ?_, fun none_ => absurd none_ (by simp), fun _ => ?_⟩
          · simp [runPending, ran, recorded, kept]
          · simp [runPending, ran, recorded]
          · exact ⟨.manifest e, by simp only [runPending, ran, recorded]⟩
        | ok next =>
          obtain ⟨k, progress⟩ := ih next
          have ledger := env.record_ledger recorded
          refine ⟨k + 1, Nat.succ_le_succ progress.within, ?_, ?_, ?_, ?_⟩
          · simp only [runPending, ran, recorded]
            rw [progress.ledger, ledger, kept]
            simp [toPending]
          · simp only [runPending, ran, recorded]
            rw [progress.events]
            simp
          · intro all
            simp only [runPending, ran, recorded]
            rw [progress.finished (Nat.succ.inj all)]
            rfl
          · intro more
            obtain ⟨e, failed⟩ := progress.stopped (Nat.lt_of_succ_lt_succ more)
            refine ⟨e, ?_⟩
            simp only [runPending, ran, recorded]
            rw [failed]
            rfl

end MigrationEnv

theorem isRecorded_iff {recorded : List MigrationRecord} {f : MigrationFile} :
    isRecorded recorded f = true ↔ f.name ∈ recorded.map (·.name) := by
  simp [isRecorded]

section Resume

variable {entries : List DirEntry} {files ran : List MigrationFile} {m m' : Manifest} {k : Nat}

/-- The ledger after a run lists the old records and the files of this run. -/
theorem mem_ledger (ledger : ledgerOf m' = ledgerOf m ++ ran.map fun f => (f.name, f.checksum))
    {r : MigrationRecord} (member : r ∈ m'.migrations) :
    (∃ r' ∈ m.migrations, r'.name = r.name ∧ r'.checksum = r.checksum) ∨
      ∃ f ∈ ran, f.name = r.name ∧ f.checksum = r.checksum := by
  have listed : (r.name, r.checksum) ∈ ledgerOf m' := List.mem_map.mpr ⟨r, member, rfl⟩
  rw [ledger] at listed
  rcases List.mem_append.mp listed with old | new
  · obtain ⟨r', inside, same⟩ := List.mem_map.mp old
    exact .inl ⟨r', inside, (Prod.mk.inj same).1, (Prod.mk.inj same).2⟩
  · obtain ⟨f, inside, same⟩ := List.mem_map.mp new
    exact .inr ⟨f, inside, (Prod.mk.inj same).1, (Prod.mk.inj same).2⟩

/-- A file is recorded after the run when it was before, or when the run recorded it. -/
theorem isRecorded_after (ledger : ledgerOf m' = ledgerOf m ++ ran.map fun f => (f.name, f.checksum))
    (f : MigrationFile) :
    isRecorded m'.migrations f = true ↔ isRecorded m.migrations f = true ∨ f.name ∈ ran.map (·.name) := by
  have names : m'.migrations.map (·.name) = m.migrations.map (·.name) ++ ran.map (·.name) := by
    have firsts := congrArg (List.map Prod.fst) ledger
    simpa [ledgerOf, Function.comp_def] using firsts
  rw [isRecorded_iff, isRecorded_iff, names, List.mem_append]

theorem mem_fresh {recorded : List MigrationRecord} {f : MigrationFile} :
    f ∈ fresh files recorded ↔ f ∈ files ∧ isRecorded recorded f = false := by
  simp [fresh]

theorem fresh_filter (ledger : ledgerOf m' = ledgerOf m ++ ran.map fun f => (f.name, f.checksum)) :
    fresh files m'.migrations = (fresh files m.migrations).filter fun f => !decide (f.name ∈ ran.map (·.name)) := by
  unfold fresh
  rw [List.filter_filter]
  apply List.filter_congr
  intro f _
  have after := isRecorded_after ledger f
  by_cases old : isRecorded m.migrations f = true
  · simp only [old, after.mpr (.inl old), Bool.not_true, Bool.and_false]
  · by_cases new : f.name ∈ ran.map (·.name)
    · simp only [after.mpr (.inr new), decide_eq_true new, Bool.not_true, Bool.false_and]
    · have neither : ¬ isRecorded m'.migrations f = true := fun is => (after.mp is).elim old new
      simp only [decide_eq_false new, Bool.eq_false_iff.mpr old, Bool.eq_false_iff.mpr neither, Bool.not_false,
        Bool.and_self]

/-- What the run recorded leaves the rest of the files to run. -/
theorem fresh_after (listed : Listed entries files)
    (ledger : ledgerOf m' = ledgerOf m ++ ((fresh files m.migrations).take k).map fun f => (f.name, f.checksum)) :
    fresh files m'.migrations = (fresh files m.migrations).drop k := by
  rw [fresh_filter ledger]
  have apart : (fresh files m.migrations).Nodup := listed.nodup.of_map.filter _
  have inside : ∀ f ∈ fresh files m.migrations, f ∈ files := fun f member => (mem_fresh.mp member).1
  generalize fresh files m.migrations = l at apart inside
  conv_lhs => rw [← List.take_append_drop k l]
  rw [List.filter_append]
  have ran : (l.take k).filter (fun f => !decide (f.name ∈ (l.take k).map (·.name))) = [] := by
    rw [List.filter_eq_nil_iff]
    intro f member
    have named : f.name ∈ (l.take k).map (·.name) := List.mem_map.mpr ⟨f, member, rfl⟩
    simp only [decide_eq_true named, Bool.not_true]
    exact Bool.false_ne_true
  have left : (l.drop k).filter (fun f => !decide (f.name ∈ (l.take k).map (·.name))) = l.drop k := by
    rw [List.filter_eq_self]
    intro f member
    suffices f.name ∉ (l.take k).map (·.name) by simp only [decide_eq_false this, Bool.not_false]
    intro taken
    obtain ⟨g, early, same⟩ := List.mem_map.mp taken
    have twin := listed.eq_of_name (inside g (List.mem_of_mem_take early)) (inside f (List.mem_of_mem_drop member)) same
    rw [twin] at early
    exact List.disjoint_take_drop apart (Nat.le_refl k) early member
  rw [List.take_append_drop k l, ran, left, List.nil_append]

/-- The ledger a run leaves agrees with the directory again. -/
theorem agrees_after (listed : Listed entries files) (sorted : files.Pairwise (·.number < ·.number))
    (agrees : LedgerAgrees files m.migrations)
    (ledger : ledgerOf m' = ledgerOf m ++ ((fresh files m.migrations).take k).map fun f => (f.name, f.checksum)) :
    LedgerAgrees files m'.migrations := by
  refine ⟨?_, ?_⟩
  · intro r member
    rcases mem_ledger ledger member with ⟨r', old, name, checksum⟩ | ⟨f, new, name, checksum⟩
    · obtain ⟨f, inside, sameName, sameChecksum⟩ := agrees.present r' old
      exact ⟨f, inside, sameName.trans name, sameChecksum.trans checksum⟩
    · exact ⟨f, (mem_fresh.mp (List.mem_of_mem_take new)).1, name, checksum⟩
  · intro f inside unrecorded r member n is
    have before : isRecorded m.migrations f = false := by
      by_contra recorded
      have again := (isRecorded_after ledger f).mpr (.inl (by simpa using recorded))
      rw [again] at unrecorded
      cases unrecorded
    rcases mem_ledger ledger member with ⟨r', old, name, _⟩ | ⟨g, new, name, _⟩
    · exact agrees.later f inside before r' old n (by rw [name, is])
    · have number : g.number = n := by
        have own := listed.named g (mem_fresh.mp (List.mem_of_mem_take new)).1
        rw [name, is] at own
        exact (Option.some.inj own).symm
      have late : f ∈ (fresh files m.migrations).drop k := by
        rw [← fresh_after listed ledger]
        exact mem_fresh.mpr ⟨inside, unrecorded⟩
      have ordered : ((fresh files m.migrations).take k ++ (fresh files m.migrations).drop k).Pairwise
          (·.number < ·.number) := by
        rw [List.take_append_drop]
        exact sorted.filter _
      rw [← number]
      exact (List.pairwise_append.mp ordered).2.2 g new f late

/-- What a rerun has left are the files this run did not record. -/
theorem pendingFiles_resume (listed : Listed entries files) (sorted : files.Pairwise (·.number < ·.number))
    (agrees : LedgerAgrees files m.migrations)
    (ledger : ledgerOf m' = ledgerOf m ++ ((fresh files m.migrations).take k).map fun f => (f.name, f.checksum)) :
    pendingFiles files m'.migrations = .ok ((fresh files m.migrations).drop k) := by
  rw [← fresh_after listed ledger]
  exact pendingFiles_of_agrees listed (agrees_after listed sorted agrees ledger)

end Resume

/-- Turned away before a statement ran: store and ledger are as they were. -/
def MigrationOutcome.Refused (m : Manifest) (out : MigrationOutcome) : Prop :=
  out.manifest = m ∧ out.events = [] ∧ ∃ e, out.result = .error e

namespace MigrationEnv

variable (env : MigrationEnv) (m : Manifest) {entries : List DirEntry} {files : List MigrationFile}

theorem applyMigrations_of_agrees (found : listDir env.hash entries = .ok files) (agrees : LedgerAgrees files m.migrations) :
    env.applyMigrations m entries .apply = env.runPending m (fresh files m.migrations) := by
  simp only [applyMigrations, found, pendingFiles_of_agrees (listDir_listed found).1 agrees]

theorem applyMigrations_unlisted {e : LedgerError} (mode : MigrateMode) (failed : listDir env.hash entries = .error e) :
    (env.applyMigrations m entries mode).Refused m := by
  simp only [applyMigrations, failed]
  exact ⟨rfl, rfl, e, rfl⟩

theorem applyMigrations_disagreeing (mode : MigrateMode) (found : listDir env.hash entries = .ok files)
    (disagrees : ¬ LedgerAgrees files m.migrations) : (env.applyMigrations m entries mode).Refused m := by
  cases checked : pendingFiles files m.migrations with
  | ok pending => exact absurd (agrees_of_pendingFiles (listDir_listed found).1 checked) disagrees
  | error e =>
    simp only [applyMigrations, found, checked]
    exact ⟨rfl, rfl, e, rfl⟩

end MigrationEnv

/-- A store whose statements fail. -/
def failing : MigrationEnv where
  hash bytes := bytes.length
  exec m _ := (m, some "no such table")
  exec_keeps _ _ := rfl
  publish _ := .ok ()
  clock _ := 0

def oneRecorded : Manifest := { Manifest.empty with migrations := [⟨"1_first.sql", 0, 0⟩] }

def twoEntries : List DirEntry := [⟨some "2_second.sql", .ok false, .ok []⟩, ⟨some "1_first.sql", .ok false, .ok []⟩]

def twoFiles : List MigrationFile := [⟨"1_first.sql", 1, 0, ""⟩, ⟨"2_second.sql", 2, 0, ""⟩]

theorem twoFiles_agree : LedgerAgrees twoFiles oneRecorded.migrations := by
  refine ⟨?_, ?_⟩
  · intro r member
    rw [List.mem_singleton.mp member]
    exact ⟨_, List.mem_cons_self, rfl, rfl⟩
  · intro f inside unrecorded r member n is
    rw [List.mem_singleton.mp member] at is
    have one : n = 1 := by
      have known : numberOf "1_first.sql" = some 1 := by decide
      exact (Option.some.inj (known.symm.trans is)).symm
    rcases List.mem_cons.mp inside with rfl | inside
    · exact absurd unrecorded (by decide)
    · rw [List.mem_singleton.mp inside, one]
      decide

end Adelie
