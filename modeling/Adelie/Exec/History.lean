import Adelie.Exec.Sorting

namespace Adelie

/-- What a sink was given: batches pushed, and sinks merged in after what it had. -/
inductive History where
  | new
  | push (before : History) (b : ColumnBatch)
  | merge (before other : History)

namespace History

def batches : History → List ColumnBatch
  | .new => []
  | .push before b => before.batches ++ [b]
  | .merge before other => before.batches ++ other.batches

/-- Every row in push order, a merged sink's after those pushed before it. -/
def rows (h : History) : List Row := h.batches.flatMap ColumnBatch.toRows

/-- Every batch is one of a stream of these fields. -/
def Of (fields : List Field) (h : History) : Prop := ∀ b ∈ h.batches, b.fields = fields ∧ b.Sound

variable {fields : List Field} {h other : History} {b : ColumnBatch}

@[simp] theorem rows_new : History.new.rows = [] := rfl

@[simp] theorem rows_push : (History.push h b).rows = h.rows ++ b.toRows := by simp [rows, batches]

@[simp] theorem rows_merge : (History.merge h other).rows = h.rows ++ other.rows := by simp [rows, batches]

theorem of_push : (History.push h b).Of fields ↔ h.Of fields ∧ b.fields = fields ∧ b.Sound := by
  rw [Of, batches, List.forall_mem_append, List.forall_mem_singleton, Of]

theorem of_merge : (History.merge h other).Of fields ↔ h.Of fields ∧ other.Of fields := by
  rw [Of, batches, List.forall_mem_append, Of, Of]

theorem Of.typed_rows (of : h.Of fields) : ∀ r ∈ h.rows, Typed fields r := typed_of_sound of

end History

end Adelie
