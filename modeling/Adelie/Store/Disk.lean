import Adelie.Storage.Compact

namespace Adelie

/-- The manifest's encoding. A version survives it. -/
structure Codec (Bytes : Type) where
  encode : Manifest → Bytes
  decode : Bytes → Except Error Manifest
  decode_version : ∀ m m', decode (encode m) = .ok m' → m'.version = m.version

/-- The manifest survives its encoding as a whole. -/
def Codec.Keeps {Bytes : Type} (codec : Codec Bytes) (m : Manifest) : Prop := codec.decode (codec.encode m) = .ok m

/-- The file operations of a store, under its root. -/
inductive Op (Bytes : Type) where
  | segment (op : FileOp)
  | removeSegment (path : SegmentPath)
  | writeTmp (bytes : Bytes)
  | syncTmp
  | rename
  | syncRoot
  | link (version : Nat)
  | removeLink (version : Nat)

/-- A store's directory: its segment files, `manifest.tmp`, `manifest`, and the numbered links.
    `past` records every content `manifest` has had. -/
structure Disk (Bytes : Type) where
  files : Files
  tmp : Option Bytes
  manifest : Option Bytes
  links : Nat → Option Bytes
  past : List Bytes

namespace Disk

variable {Bytes : Type}

def empty : Disk Bytes := ⟨fun _ => none, none, none, fun _ => none, []⟩

/-- What an operation that succeeds does. A link that is already there stays. -/
def apply (d : Disk Bytes) : Op Bytes → Disk Bytes
  | .syncTmp | .syncRoot => d
  | .segment op => { d with files := op.apply d.files }
  | .removeSegment path => { d with files := fun p => if p = path then none else d.files p }
  | .writeTmp bytes => { d with tmp := some bytes }
  | .rename => { d with tmp := none, manifest := d.tmp, past := d.past ++ d.tmp.toList }
  | .link version =>
    { d with links := fun v => if v = version then (d.links v).or d.manifest else d.links v }
  | .removeLink version => { d with links := fun v => if v = version then none else d.links v }

/-- A missing file loads as the empty manifest. -/
def load (codec : Codec Bytes) (d : Disk Bytes) : Except Error Manifest :=
  match d.manifest with
  | some bytes => codec.decode bytes
  | none => .ok Manifest.empty

def applyAll (d : Disk Bytes) (ops : List (Op Bytes)) : Disk Bytes := ops.foldl apply d

/-- Runs operations up to the first that fails; a failed one has no effect. -/
def perform (fails : Op Bytes → Bool) (d : Disk Bytes) : List (Op Bytes) → Bool × Disk Bytes
  | [] => (true, d)
  | op :: rest => if fails op then (false, d) else perform fails (d.apply op) rest

/-- Runs every operation, whatever becomes of it. -/
def tidy (fails : Op Bytes → Bool) (d : Disk Bytes) (ops : List (Op Bytes)) : Disk Bytes :=
  ops.foldl (fun d op => if fails op then d else d.apply op) d

end Disk

/-- The publisher's settings, and whether it has swept the directory of old links. -/
structure Publisher where
  retain : Nat
  swept : Bool

namespace Publisher

variable {Bytes : Type}

/-- Up to here a commit may still fail. -/
def publishOps (codec : Codec Bytes) (m : Manifest) : List (Op Bytes) :=
  [.writeTmp (codec.encode m), .syncTmp, .rename, .syncRoot]

/-- The links to remove: all that are old at the first publish, the one that has just become old
    after that. -/
def pruneOps (p : Publisher) (latest : Nat) : List (Op Bytes) :=
  if p.retain = 0 ∨ latest < p.retain then []
  else if p.swept then [.removeLink (latest - p.retain)]
  else (List.range (latest - p.retain + 1)).map .removeLink

/-- What follows a commit that has landed, and may fail without a word. -/
def tidyOps (p : Publisher) (m : Manifest) : List (Op Bytes) := .link m.version :: p.pruneOps m.version

def pruned (p : Publisher) (latest : Nat) : Publisher :=
  if p.retain = 0 ∨ latest < p.retain then p else { p with swept := true }

/-- Publishes a manifest; false when an operation it depends on failed. -/
def publish (codec : Codec Bytes) (fails : Op Bytes → Bool) (p : Publisher) (d : Disk Bytes) (m : Manifest) :
    Bool × Publisher × Disk Bytes :=
  match d.perform fails (publishOps codec m) with
  | (false, d) => (false, p, d)
  | (true, d) => (true, p.pruned m.version, d.tidy fails (p.tidyOps m))

theorem mem_tidyOps {p : Publisher} {m : Manifest} {op : Op Bytes} (member : op ∈ p.tidyOps m) :
    (∃ v, op = .link v) ∨ ∃ v, op = .removeLink v := by
  rcases List.mem_cons.mp member with rfl | member
  · exact .inl ⟨_, rfl⟩
  · right
    unfold pruneOps at member
    split at member
    · cases member
    · split at member
      · exact ⟨_, List.mem_singleton.mp member⟩
      · obtain ⟨v, _, rfl⟩ := List.mem_map.mp member
        exact ⟨v, rfl⟩

/-- Links are no part of what a store loads. -/
theorem tidy_frame (fails : Op Bytes → Bool) (p : Publisher) (d : Disk Bytes) (m : Manifest) :
    ∃ links, d.tidy fails (p.tidyOps m) = { d with links := links } := by
  have only : ∀ op ∈ (p.tidyOps m : List (Op Bytes)), ∀ d : Disk Bytes, ∃ links, d.apply op = { d with links := links } := by
    intro op member d
    rcases mem_tidyOps member with ⟨v, rfl⟩ | ⟨v, rfl⟩
    · exact ⟨_, rfl⟩
    · exact ⟨_, rfl⟩
  unfold Disk.tidy
  generalize (p.tidyOps m : List (Op Bytes)) = ops at only
  induction ops generalizing d with
  | nil => exact ⟨d.links, rfl⟩
  | cons op rest ih =>
    have rest_only := fun op' member => only op' (.tail _ member)
    rw [List.foldl_cons]
    split
    · exact ih d rest_only
    · obtain ⟨links, same⟩ := only op (.head _) d
      obtain ⟨links', tidied⟩ := ih (d.apply op) rest_only
      exact ⟨links', by rw [tidied, same]⟩

/-- The new manifest is in place. -/
def Landed (codec : Codec Bytes) (d d' : Disk Bytes) (m : Manifest) : Prop :=
  d'.manifest = some (codec.encode m) ∧ d'.past = d.past ++ [codec.encode m]

/-- What a publish can do: fail with the manifest file untouched, fail once it is in place, or
    land. -/
theorem publish_cases (codec : Codec Bytes) (fails : Op Bytes → Bool) (p : Publisher) (d : Disk Bytes) (m : Manifest) :
    ((p.publish codec fails d m).1 = false ∧ (p.publish codec fails d m).2.2.manifest = d.manifest ∧
      (p.publish codec fails d m).2.2.past = d.past ∧
      ¬(fails (.writeTmp (codec.encode m)) = false ∧ fails .syncTmp = false ∧ fails .rename = false)) ∨
    ((p.publish codec fails d m).1 = false ∧ Landed codec d (p.publish codec fails d m).2.2 m ∧
      fails (.writeTmp (codec.encode m)) = false ∧ fails .syncTmp = false ∧ fails .rename = false ∧
      fails .syncRoot = true) ∨
    ((p.publish codec fails d m).1 = true ∧ Landed codec d (p.publish codec fails d m).2.2 m ∧
      fails (.writeTmp (codec.encode m)) = false ∧ fails .syncTmp = false ∧ fails .rename = false ∧
      fails .syncRoot = false) := by
  unfold publish publishOps
  cases write : fails (.writeTmp (codec.encode m)) with
  | true => simp [Disk.perform, write]
  | false =>
    cases sync : fails .syncTmp with
    | true => simp [Disk.perform, write, sync, Disk.apply]
    | false =>
      cases rename : fails .rename with
      | true => simp [Disk.perform, write, sync, rename, Disk.apply]
      | false =>
        cases root : fails .syncRoot with
        | true => simp [Disk.perform, write, sync, rename, root, Disk.apply, Landed]
        | false =>
          simp only [Disk.perform, write, sync, rename, root, Bool.false_eq_true, if_false, Disk.apply]
          obtain ⟨links, tidied⟩ := tidy_frame fails p
            { d with tmp := none, manifest := some (codec.encode m), past := d.past ++ [codec.encode m] } m
          simp only [Option.toList_some] at tidied ⊢
          rw [tidied]
          simp [Landed]

end Publisher

end Adelie
