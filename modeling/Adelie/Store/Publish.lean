import Adelie.Store.Disk
import Adelie.Manifest.Run

namespace Adelie

/-- The state that commits go through: the publisher, the directory, and the manifest in memory. -/
structure Shared (Bytes : Type) where
  publisher : Publisher
  disk : Disk Bytes
  current : Manifest

inductive CommitError where
  | manifest (e : Error)
  | io
deriving DecidableEq, Repr

/-- A use of the store. `holding` plans its edits under the state's lock and may back off; after
    `reopen` the store has been closed and opened again. -/
inductive Call where
  | commit (editsFor : Nat → List Edit)
  | holding (plan : Manifest → Nat → Except Error (Option (List Edit)))
  | reopen

namespace Shared

variable {Bytes : Type} (codec : Codec Bytes)

def open_ (retain : Nat) (d : Disk Bytes) : Except Error (Shared Bytes) := do
  let loaded ← d.load codec
  return ⟨⟨retain, false⟩, d, loaded⟩

variable (fails : Op Bytes → Bool) (nowMs : Nat) (st : Shared Bytes)

/-- Apply, publish, and only then the state in memory. -/
def commitEdits (edits : List Edit) : Except CommitError (Option Nat) × Shared Bytes :=
  match (Commit.mk st.current.version edits).apply st.current nowMs with
  | .error e => (.error (.manifest e), st)
  | .ok next =>
    match st.publisher.publish codec fails st.disk next with
    | (false, publisher, disk) => (.error .io, { st with publisher := publisher, disk := disk })
    | (true, publisher, disk) => (.ok (some next.version), ⟨publisher, disk, next⟩)

def commit (editsFor : Nat → List Edit) : Except CommitError (Option Nat) × Shared Bytes :=
  st.commitEdits codec fails nowMs (editsFor (st.current.version + 1))

def commitHoldingState (plan : Manifest → Nat → Except Error (Option (List Edit))) :
    Except CommitError (Option Nat) × Shared Bytes :=
  match plan st.current (st.current.version + 1) with
  | .error e => (.error (.manifest e), st)
  | .ok none => (.ok none, st)
  | .ok (some edits) => st.commitEdits codec fails nowMs edits

def call : Call → Except CommitError (Option Nat) × Shared Bytes
  | .commit editsFor => st.commit codec fails nowMs editsFor
  | .holding plan => st.commitHoldingState codec fails nowMs plan
  | .reopen =>
    match open_ codec st.publisher.retain st.disk with
    | .ok st => (.ok none, st)
    | .error e => (.error (.manifest e), st)

end Shared

/-- The edits a call brings to its commit. -/
def Call.edits (current : Manifest) : Call → Option (List Edit)
  | .commit editsFor => some (editsFor (current.version + 1))
  | .holding plan =>
    match plan current (current.version + 1) with
    | .ok edits => edits
    | .error _ => none
  | .reopen => none

/-- A call, the operations that fail under it, and its clock. -/
structure Event (Bytes : Type) where
  call : Call
  fails : Op Bytes → Bool
  nowMs : Nat

namespace Shared

variable {Bytes : Type}

def step (codec : Codec Bytes) (st : Shared Bytes) (e : Event Bytes) : Shared Bytes :=
  (st.call codec e.fails e.nowMs e.call).2

def run (codec : Codec Bytes) (st : Shared Bytes) (events : List (Event Bytes)) : Shared Bytes :=
  events.foldl (step codec) st

/-- The new manifest is renamed into place, and then the directory fails to sync, or what is in
    place does not read back. -/
def Slips (codec : Codec Bytes) (st : Shared Bytes) (e : Event Bytes) : Prop :=
  ∃ edits next, e.call.edits st.current = some edits ∧
    (Commit.mk st.current.version edits).apply st.current e.nowMs = .ok next ∧
    e.fails (.writeTmp (codec.encode next)) = false ∧ e.fails .syncTmp = false ∧ e.fails .rename = false ∧
    (e.fails .syncRoot = true ∨ ¬codec.Keeps next)

/-- No event of the run slips in the state it happens in. -/
def Steady (codec : Codec Bytes) (st : Shared Bytes) : List (Event Bytes) → Prop
  | [] => True
  | e :: rest => ¬Slips codec st e ∧ Steady codec (st.step codec e) rest

/-- The manifest on disk is the one in memory. -/
def Agrees (codec : Codec Bytes) (st : Shared Bytes) : Prop := st.disk.load codec = .ok st.current

/-- Every content of the manifest file was of a version of its own, none past the current one. -/
def Recorded (codec : Codec Bytes) (st : Shared Bytes) : Prop :=
  ∃ past : List Manifest, st.disk.past = past.map codec.encode ∧ (past.map (·.version)).Nodup ∧
    ∀ m ∈ past, m.version ≤ st.current.version

section Step

variable {codec : Codec Bytes} {st : Shared Bytes} {e : Event Bytes}

theorem apply_version {c : Commit} {m m' : Manifest} {nowMs : Nat} (applied : c.apply m nowMs = .ok m') :
    m'.version = m.version + 1 := by
  obtain ⟨next, _, made⟩ := Except.bind_eq_ok.mp applied
  cases made
  rfl

/-- What an event leaves: the manifest as it was, in memory and on disk; the new one on disk only;
    or the new one in both. -/
inductive Outcome (codec : Codec Bytes) (st : Shared Bytes) (e : Event Bytes)
    (result : Except CommitError (Option Nat) × Shared Bytes) : Prop where
  | stayed (steady : ¬Slips codec st e) (disk : result.2.disk.load codec = st.disk.load codec)
    (past : result.2.disk.past = st.disk.past) (current : result.2.current = st.current)
  | slipped (slips : Slips codec st e) (next : Manifest) (version : next.version = st.current.version + 1)
    (landed : Publisher.Landed codec st.disk result.2.disk next) (current : result.2.current = st.current)
  | landed (next : Manifest) (steady : codec.Keeps next ↔ ¬Slips codec st e)
    (version : next.version = st.current.version + 1) (ok : ∃ v, result.1 = .ok v)
    (landed : Publisher.Landed codec st.disk result.2.disk next) (current : result.2.current = next)

theorem commitEdits_outcome {edits : List Edit} (called : e.call.edits st.current = some edits) :
    Outcome codec st e (st.commitEdits codec e.fails e.nowMs edits) := by
  unfold commitEdits
  cases applied : (Commit.mk st.current.version edits).apply st.current e.nowMs with
  | error refusal =>
    refine .stayed ?_ rfl rfl rfl
    rintro ⟨edits', next, called', applied', _⟩
    cases called.symm.trans called'
    cases applied.symm.trans applied'
  | ok next =>
    have version := apply_version applied
    dsimp only
    have cases_ := Publisher.publish_cases codec e.fails st.publisher st.disk next
    generalize st.publisher.publish codec e.fails st.disk next = published at cases_
    obtain ⟨ok, publisher, disk⟩ := published
    rcases cases_ with ⟨rfl, manifest, past, early⟩ | ⟨rfl, landed, write, sync, rename, root⟩ |
      ⟨rfl, landed, write, sync, rename, root⟩
    · refine .stayed ?_ ?_ past rfl
      · rintro ⟨edits', next', called', applied', write, sync, rename, _⟩
        cases called.symm.trans called'
        cases applied.symm.trans applied'
        exact early ⟨write, sync, rename⟩
      · change disk.load codec = _
        unfold Disk.load
        rw [show disk.manifest = st.disk.manifest from manifest]
    · exact .slipped ⟨edits, next, called, applied, write, sync, rename, .inl root⟩ next version landed rfl
    · refine .landed next ⟨?_, fun steady => ?_⟩ version ⟨_, rfl⟩ landed rfl
      · rintro keeps ⟨edits', next', called', applied', _, _, _, wrong⟩
        cases called.symm.trans called'
        cases applied.symm.trans applied'
        rw [root] at wrong
        exact wrong.elim nofun (· keeps)
      · by_contra lost
        exact steady ⟨edits, next, called, applied, write, sync, rename, .inr lost⟩

theorem call_outcome (agrees : Agrees codec st) : Outcome codec st e (st.call codec e.fails e.nowMs e.call) := by
  cases called : e.call with
  | commit editsFor => exact commitEdits_outcome (by rw [called]; rfl)
  | holding plan =>
    unfold call commitHoldingState
    dsimp only
    have quiet (none_ : e.call.edits st.current = none) : ¬Slips codec st e := by
      rintro ⟨edits, _, some_, _⟩
      cases none_.symm.trans some_
    cases planned : plan st.current (st.current.version + 1) with
    | error refusal => exact .stayed (quiet (by rw [called]; simp [Call.edits, planned])) rfl rfl rfl
    | ok edits =>
      cases edits with
      | none => exact .stayed (quiet (by rw [called]; simp [Call.edits, planned])) rfl rfl rfl
      | some edits => exact commitEdits_outcome (by rw [called]; simp [Call.edits, planned])
  | reopen =>
    have loaded : open_ codec st.publisher.retain st.disk = .ok ⟨⟨st.publisher.retain, false⟩, st.disk, st.current⟩ := by
      unfold open_
      rw [show st.disk.load codec = .ok st.current from agrees]
      rfl
    unfold call
    rw [loaded]
    refine .stayed ?_ rfl rfl rfl
    rintro ⟨edits, _, some_, _⟩
    rw [called] at some_
    cases some_

theorem Outcome.agrees_iff {result : Except CommitError (Option Nat) × Shared Bytes} (agrees : Agrees codec st)
    (outcome : Outcome codec st e result) : Agrees codec result.2 ↔ ¬Slips codec st e := by
  cases outcome with
  | stayed steady disk past current =>
    refine ⟨fun _ => steady, fun _ => ?_⟩
    unfold Agrees
    rw [disk, current]
    exact agrees
  | slipped slips next version landed current =>
    refine ⟨fun agrees' => ?_, fun steady => absurd slips steady⟩
    unfold Agrees Disk.load at agrees'
    rw [landed.1, current] at agrees'
    have same := codec.decode_version next _ agrees'
    omega
  | landed next steady version ok landed current =>
    unfold Agrees Disk.load
    rw [landed.1, current]
    exact steady

theorem Outcome.recorded {result : Except CommitError (Option Nat) × Shared Bytes} (steady : ¬Slips codec st e)
    (recorded : Recorded codec st) (outcome : Outcome codec st e result) : Recorded codec result.2 := by
  obtain ⟨past, listed, nodup, below⟩ := recorded
  cases outcome with
  | stayed _ disk same current => exact ⟨past, same.trans listed, nodup, current ▸ below⟩
  | slipped slips => exact absurd slips steady
  | landed next _ version ok landed current =>
    refine ⟨past ++ [next], by rw [landed.2, listed, List.map_append]; rfl, ?_, ?_⟩
    · rw [List.map_append, List.nodup_append]
      refine ⟨nodup, by simp, ?_⟩
      intro v old v' last
      obtain ⟨m, member, rfl⟩ := List.mem_map.mp old
      have := below m member
      simp only [List.map_cons, List.map_nil, List.mem_singleton] at last
      omega
    · intro m member
      rw [current]
      rcases List.mem_append.mp member with old | last
      · have := below m old
        omega
      · rw [List.mem_singleton.mp last]

/-- An event that fails has left the manifest as it was, in memory and on disk. -/
theorem Outcome.unchanged {result : Except CommitError (Option Nat) × Shared Bytes} (agrees : Agrees codec st)
    (steady : ¬Slips codec st e) (outcome : Outcome codec st e result) {error : CommitError}
    (failed : result.1 = .error error) :
    result.2.current = st.current ∧ result.2.disk.load codec = .ok st.current := by
  cases outcome with
  | stayed _ disk past current => exact ⟨current, disk.trans agrees⟩
  | slipped slips => exact absurd slips steady
  | landed next _ version ok =>
    obtain ⟨v, ok⟩ := ok
    cases ok.symm.trans failed

end Step

theorem run_agrees {codec : Codec Bytes} {st : Shared Bytes} {events : List (Event Bytes)}
    (steady : Steady codec st events) (agrees : Agrees codec st) (recorded : Recorded codec st) :
    Agrees codec (st.run codec events) ∧ Recorded codec (st.run codec events) := by
  induction events generalizing st with
  | nil => exact ⟨agrees, recorded⟩
  | cons e rest ih =>
    have outcome := call_outcome agrees (e := e)
    exact ih steady.2 ((outcome.agrees_iff agrees).mpr steady.1) (outcome.recorded steady.1 recorded)

/-- Memory and disk agree in every state between calls, and a call that fails has changed neither,
    unless the directory failed to sync right after a rename. -/
theorem memory_and_disk_agree (codec : Codec Bytes) (retain : Nat) {d : Disk Bytes} {st : Shared Bytes}
    (opened : open_ codec retain { d with past := [] } = .ok st) {events : List (Event Bytes)}
    (steady : Steady codec st events) :
    Agrees codec (st.run codec events) ∧
    (∀ a ∈ (st.run codec events).disk.past, ∀ b ∈ (st.run codec events).disk.past, ∀ m m',
      codec.decode a = .ok m → codec.decode b = .ok m' → m.version = m'.version → a = b) ∧
    ∀ e, (Agrees codec ((st.run codec events).step codec e) ↔ ¬Slips codec (st.run codec events) e) ∧
      (¬Slips codec (st.run codec events) e →
        ∀ error, ((st.run codec events).call codec e.fails e.nowMs e.call).1 = .error error →
        ((st.run codec events).step codec e).current = (st.run codec events).current ∧
        ((st.run codec events).step codec e).disk.load codec = .ok (st.run codec events).current) := by
  have start : Agrees codec st ∧ Recorded codec st := by
    obtain ⟨loaded, read, made⟩ := Except.bind_eq_ok.mp opened
    cases made
    exact ⟨read, [], rfl, .nil, nofun⟩
  obtain ⟨agrees, past, listed, nodup, _⟩ := run_agrees steady start.1 start.2
  refine ⟨agrees, ?_, ?_⟩
  · intro a memberA b memberB m m' decodeA decodeB same
    rw [listed] at memberA memberB
    obtain ⟨x, insideX, rfl⟩ := List.mem_map.mp memberA
    obtain ⟨y, insideY, rfl⟩ := List.mem_map.mp memberB
    rw [codec.decode_version x m decodeA, codec.decode_version y m' decodeB] at same
    rw [List.inj_on_of_nodup_map nodup insideX insideY same]
  · intro e
    have outcome := call_outcome agrees (e := e)
    exact ⟨outcome.agrees_iff agrees, fun steady error failed => outcome.unchanged agrees steady failed⟩

/-- A manifest file that holds the manifest itself. -/
def verbatim : Codec Manifest where
  encode := id
  decode := .ok
  decode_version := by
    rintro m m' ⟨⟩
    rfl

/-- Creates a table, while the operations `failing` picks fail. -/
def creates (name : String) (failing : Op Manifest → Bool) : Event Manifest :=
  ⟨.commit fun _ => [.createTable (.new ⟨"d", name⟩ [⟨"a", .bool⟩])], failing, 0⟩

def rootFails : Op Manifest → Bool
  | .syncRoot => true
  | _ => false

def tmpFails : Op Manifest → Bool
  | .syncTmp => true
  | _ => false

/-- One table is created, the next commit fails before its rename, and a third lands. -/
theorem memory_and_disk_agree_failedSync :
    ∃ st, open_ verbatim 8 { Disk.empty with past := [] } = .ok st ∧
      Steady verbatim st [creates "t" fun _ => false, creates "u" tmpFails, creates "v" fun _ => false] ∧
      Agrees verbatim (st.run verbatim [creates "t" fun _ => false, creates "u" tmpFails, creates "v" fun _ => false]) := by
  have steady : ∀ (st : Shared Manifest) name, ¬Slips verbatim st (creates name fun _ => false) := by
    rintro st name ⟨_, _, _, _, _, _, _, root | lost⟩
    · cases root
    · exact lost rfl
  have early : ∀ (st : Shared Manifest) name, ¬Slips verbatim st (creates name tmpFails) := by
    rintro st name ⟨_, _, _, _, _, sync, _⟩
    cases sync
  have all : ∀ st, Steady verbatim st
      [creates "t" fun _ => false, creates "u" tmpFails, creates "v" fun _ => false] :=
    fun st => ⟨steady _ _, early _ _, steady _ _, trivial⟩
  exact ⟨_, rfl, all _, (memory_and_disk_agree verbatim 8 (d := Disk.empty) rfl (all _)).1⟩

/-- The directory fails to sync after the rename: the commit reports an error, the disk has version
    1, memory is still empty, and the next commit is version 1 again, of another content. -/
theorem rootFails_diverges :
    ∃ st, open_ verbatim 8 { Disk.empty with past := [] } = .ok st ∧
      (st.call verbatim rootFails 0 (creates "t" rootFails).call).1 = .error .io ∧
      ¬Agrees verbatim (st.run verbatim [creates "t" rootFails]) ∧
      ∃ a ∈ (st.run verbatim [creates "t" rootFails, creates "u" fun _ => false]).disk.past,
      ∃ b ∈ (st.run verbatim [creates "t" rootFails, creates "u" fun _ => false]).disk.past,
        a.version = b.version ∧ a ≠ b := by
  refine ⟨_, rfl, rfl, ?_, _, .head _, _, .tail _ (.head _), rfl, ?_⟩
  · intro agrees
    have same := congrArg Manifest.version (Except.ok.inj agrees)
    revert same
    decide
  · intro equal
    have same := congrArg (fun m : Manifest => m.tables.map (·.name)) equal
    revert same
    decide

end Shared

end Adelie
