import OktoGrafx.Heap.Mutations

/-! What committed transactions mean: a table maps record ids to values, a commit changes some of
them, and a snapshot sees the commits up to its number. -/

namespace Grafx.Txn
open Heap

structure RowValue where
  payload : Payload
  labelled : Bool
  deriving DecidableEq, Repr

def rowValue (r : Row) : RowValue := ⟨r.payload, r.header.flags.nodeLabels⟩

def imageValue (row : RowImage) : RowValue := ⟨row.payload, row.labels.isSome⟩

def overwrite (labelLength : Payload → Option ℕ) (old : RowValue) (row : RowImage) : Option RowValue :=
  if old.labelled then
    (labelLength old.payload).map fun length =>
      imageValue { row with labels := some (row.labels.getD (old.payload.take length)) }
  else some (imageValue row)

inductive RowChange where
  | insert (row : RowImage)
  | update (row : RowImage)
  | delete
  deriving DecidableEq, Repr

structure RowOp where
  tableId : ℕ
  recordId : ℕ
  change : RowChange
  deriving DecidableEq, Repr

abbrev Tables := ℕ → ℕ → Option RowValue

variable (labelLength : Payload → Option ℕ) {ops : List RowOp} {tables : Tables}

def RowOp.result (op : RowOp) (current : Option RowValue) : Option RowValue :=
  match op.change with
  | .insert row => some (imageValue row)
  | .update row => current.bind fun old => overwrite labelLength old row
  | .delete => none

def RowOp.target (op : RowOp) : ℕ × ℕ := (op.tableId, op.recordId)

def applyOp (tables : Tables) (op : RowOp) : Tables := fun tableId recordId =>
  if (tableId, recordId) = op.target then op.result labelLength (tables tableId recordId) else tables tableId recordId

def applyOps (ops : List RowOp) (tables : Tables) : Tables := ops.foldl (applyOp labelLength) tables

abbrev History := List (ℕ × List RowOp)

/-- The commits up to `n`, applied in order. -/
def stateAt : History → ℕ → Tables
  | [], _ => fun _ _ => none
  | (csn, ops) :: older, n => if csn ≤ n then applyOps labelLength ops (stateAt older n) else stateAt older n

def History.last : History → ℕ
  | [] => 0
  | (csn, _) :: _ => csn

variable {labelLength}

theorem applyOps_of_untouched {tableId recordId : ℕ}
    (h : (tableId, recordId) ∉ ops.map RowOp.target) : applyOps labelLength ops tables tableId recordId = tables tableId recordId := by
  induction ops generalizing tables with
  | nil => rfl
  | cons op rest ih =>
    rw [List.map_cons, List.mem_cons, not_or] at h
    refine (ih h.2).trans ?_
    rw [applyOp, if_neg h.1]

theorem applyOps_of_mem (hdistinct : (ops.map RowOp.target).Nodup) {op : RowOp} (hop : op ∈ ops) :
    applyOps labelLength ops tables op.tableId op.recordId = op.result labelLength (tables op.tableId op.recordId) := by
  induction ops generalizing tables with
  | nil => cases hop
  | cons first rest ih =>
    rw [List.map_cons, List.nodup_cons] at hdistinct
    rcases List.mem_cons.mp hop with rfl | hop
    · exact (applyOps_of_untouched hdistinct.1).trans (if_pos rfl)
    · refine (ih hdistinct.2 hop).trans ?_
      have hne : (op.tableId, op.recordId) ≠ first.target := fun heq => hdistinct.1 (heq ▸ List.mem_map_of_mem hop)
      rw [applyOp, if_neg hne]

theorem inherited_value {old : Row} {row written : RowImage} (h : inherited labelLength old row = some written) :
    overwrite labelLength (rowValue old) row = some (imageValue written) := by
  unfold inherited at h
  unfold overwrite
  have hlabelled : (rowValue old).labelled = old.header.flags.nodeLabels := rfl
  rw [hlabelled]
  split_ifs at h ⊢ with hlabels
  · obtain ⟨length, hlength, rfl⟩ := Option.map_eq_some_iff.mp h
    have hpayload : (rowValue old).payload = old.payload := rfl
    rw [hpayload, hlength]
    rfl
  · rw [Option.some.inj h]

end Grafx.Txn
