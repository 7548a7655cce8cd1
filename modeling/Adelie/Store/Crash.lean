import Adelie.Lib.Crash
import Adelie.Storage.Logged
import Adelie.Store.Disk

namespace Adelie

namespace Op

variable {Bytes : Type}

/-- A write that may have reached the disk in part. -/
def Torn : Op Bytes → Op Bytes → Prop
  | .segment (.write path _), op => ∃ file, op = .segment (.write path file)
  | .writeTmp _, op => ∃ bytes, op = .writeTmp bytes
  | _, _ => False

/-- Later operations after which this one survives: for a file its own sync, for a name that of its
    directory. -/
def Secured (later : List (Op Bytes)) : Op Bytes → Prop
  | .segment (.write path _) =>
    .segment (.syncFile path) ∈ later ∧ .segment (.syncDir path.dir path.partition) ∈ later
  | .writeTmp _ => .syncTmp ∈ later
  | .rename => .syncRoot ∈ later
  | _ => False

/-- The operation writes or removes this segment file. -/
def Touches (path : SegmentPath) : Op Bytes → Prop
  | .segment (.write path' _) => path' = path
  | .removeSegment path' => path' = path
  | _ => False

theorem Torn.touches {op op' : Op Bytes} (torn : Torn op op') {path : SegmentPath} (touches : op'.Touches path) :
    op.Touches path := by
  unfold Torn at torn
  split at torn
  · obtain ⟨file, rfl⟩ := torn
    exact touches
  · obtain ⟨bytes, rfl⟩ := torn
    exact touches.elim
  · exact torn.elim

end Op

/-- What a crash may leave of a store's operations. -/
abbrev Left {Bytes : Type} (ops left : List (Op Bytes)) : Prop := Crashed Op.Secured Op.Torn [] ops left

namespace Disk

variable {Bytes : Type} {later ops left : List (Op Bytes)} {path : SegmentPath}

theorem applyAll_append (d : Disk Bytes) (first second : List (Op Bytes)) :
    d.applyAll (first ++ second) = (d.applyAll first).applyAll second := List.foldl_append

theorem apply_files {d : Disk Bytes} {op : Op Bytes} (untouched : ¬op.Touches path) :
    (d.apply op).files path = d.files path := by
  cases op with
  | segment op =>
    cases op with
    | write path' file => exact if_neg fun same => untouched same.symm
    | _ => rfl
  | removeSegment path' => exact if_neg fun same => untouched same.symm
  | _ => rfl

theorem applyAll_files {d : Disk Bytes} (untouched : ∀ op ∈ ops, ¬op.Touches path) :
    (d.applyAll ops).files path = d.files path := by
  induction ops generalizing d with
  | nil => rfl
  | cons op rest ih =>
    exact (ih fun op' member => untouched op' (.tail _ member)).trans (apply_files (untouched op (.head _)))

theorem apply_manifest {d : Disk Bytes} {op : Op Bytes} (other : op ≠ .rename) :
    (d.apply op).manifest = d.manifest := by
  cases op with
  | rename => exact absurd rfl other
  | _ => rfl

theorem applyAll_manifest {d : Disk Bytes} (other : .rename ∉ ops) : (d.applyAll ops).manifest = d.manifest := by
  induction ops generalizing d with
  | nil => rfl
  | cons op rest ih =>
    rw [List.mem_cons, not_or] at other
    exact (ih other.2).trans (apply_manifest (Ne.symm other.1))

/-- A crash touches no file that the operations do not. -/
theorem crashed_files {d : Disk Bytes} (crashed : Crashed Op.Secured Op.Torn later ops left)
    (untouched : ∀ op ∈ ops, ¬op.Touches path) : (d.applyAll left).files path = d.files path := by
  apply applyAll_files
  intro op member touches
  obtain ⟨op', inside, rfl | torn⟩ := crashed.source member
  · exact untouched op inside touches
  · exact untouched op' inside (torn.touches touches)

theorem crashed_manifest {d : Disk Bytes} (crashed : Crashed Op.Secured Op.Torn later ops left)
    (other : .rename ∉ ops) : (d.applyAll left).manifest = d.manifest := by
  apply applyAll_manifest
  intro member
  obtain ⟨op, inside, rfl | torn⟩ := crashed.source member
  · exact other inside
  · unfold Op.Torn at torn
    split at torn
    · obtain ⟨_, same⟩ := torn
      cases same
    · obtain ⟨_, same⟩ := torn
      cases same
    · exact torn

/-- A file that was placed for good is there after the crash. -/
theorem crashed_placed {d : Disk Bytes} {encode : SegmentFile → Except StorageError Footer} {log : List FileOp}
    {s : SegmentEntry} (crashed : Crashed Op.Secured Op.Torn later (log.map .segment) left)
    (placed : Placed encode true log s) :
    ∃ file, (d.applyAll left).files s.path = some file ∧ Stored encode file s := by
  obtain ⟨file, before, after, rfl, synced, dir, once, stored⟩ := placed
  rw [List.map_append, List.map_cons] at crashed
  obtain ⟨left₁, left₂, rfl, _, tail⟩ := crashed.append
  have safe : Op.Secured (after.map .segment ++ later) (.segment (.write s.path file) : Op Bytes) := by
    refine ⟨List.mem_append_left _ (List.mem_map_of_mem synced), List.mem_append_left _ ?_⟩
    exact List.mem_map_of_mem (dir rfl)
  obtain ⟨left₃, rfl, rest⟩ := tail.head safe
  refine ⟨file, ?_, stored⟩
  rw [applyAll_append]
  refine (crashed_files (d := (d.applyAll left₁).apply (.segment (.write s.path file))) rest ?_).trans (if_pos rfl)
  intro op member touches
  obtain ⟨op', inside, rfl⟩ := List.mem_map.mp member
  cases op' with
  | write path' other =>
    cases (show path' = s.path from touches)
    exact once other inside
  | _ => exact touches

/-- A publish that is cut short has put the new manifest in place, or left the old one; with the
    directory synced, the new one is there. -/
theorem crashed_publish {d : Disk Bytes} {bytes : Bytes} {rest : List (Op Bytes)} (quiet : .rename ∉ rest)
    (crashed : Crashed Op.Secured Op.Torn later (.writeTmp bytes :: .syncTmp :: .rename :: rest) left) :
    ((d.applyAll left).manifest = some bytes ∨ (d.applyAll left).manifest = d.manifest) ∧
      (.syncRoot ∈ rest → (d.applyAll left).manifest = some bytes) := by
  obtain ⟨left₁, rfl, tail⟩ := crashed.head (List.mem_append_left _ (.head _))
  have renamed : ∀ {d : Disk Bytes} {left : List (Op Bytes)}, d.tmp = some bytes →
      Crashed Op.Secured Op.Torn later (.rename :: rest) left →
      ((d.applyAll left).manifest = some bytes ∨ (d.applyAll left).manifest = d.manifest) ∧
        (.syncRoot ∈ rest → (d.applyAll left).manifest = some bytes) := by
    intro d left written crashed
    cases crashed with
    | kept tail =>
      have there : (d.applyAll (.rename :: _)).manifest = some bytes := (crashed_manifest tail quiet).trans written
      exact ⟨.inl there, fun _ => there⟩
    | lost unsecured tail =>
      exact ⟨.inr (crashed_manifest tail quiet), fun synced => absurd (List.mem_append_left _ synced) unsecured⟩
    | torn unsecured tears tail => exact tears.elim
  have written : (d.apply (.writeTmp bytes)).tmp = some bytes := rfl
  cases tail with
  | kept tail =>
    have cut := renamed (d := (d.apply (.writeTmp bytes)).apply .syncTmp) written tail
    exact cut
  | lost _ tail => exact renamed (d := d.apply (.writeTmp bytes)) written tail
  | torn _ tears _ => exact tears.elim

end Disk

end Adelie
