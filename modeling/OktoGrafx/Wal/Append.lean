import OktoGrafx.Wal.Record

/-! Planning and appending a batch. A batch that does not fit the current segment starts a new one,
whose header takes a sequence number of its own; the plan made before a commit stamps its pages
and the plan made by the append are the same function of the tail and of the record lengths. -/

namespace Grafx.Wal

structure SegmentInfo where
  number : ℕ
  firstLsn : ℕ
  lastLsn : ℕ
  sizeBytes : ℕ
  recordCount : ℕ
  deriving DecidableEq, Repr

structure WalManager where
  segmentBytes : ℕ
  segments : List SegmentInfo
  nextNumber : ℕ
  lastLsn : ℕ
  maxEpoch : ℕ
  records : List WalRecord

def maxSegmentReadBytes : ℕ := 1024 * 1024 * 1024

inductive WalRefusal where
  | emptyBatch
  | carriesLsn (position lsn : ℕ)
  | staleEpoch (epoch currentEpoch position : ℕ)
  | segmentTooLarge (count projectedSegmentBytes : ℕ)
  | exhausted (lastLsn : ℕ)
  | terminalMoved (expected planned lastLsn : ℕ)
  deriving DecidableEq, Repr

structure BatchPlan where
  bodyLength : ℕ
  rolling : Bool
  terminal : ℕ
  deriving DecidableEq, Repr

namespace WalManager
variable (fmt : Format) (w : WalManager) {plan : BatchPlan} {records : List WalRecord}

def validateBatch : ℕ → List WalRecord → Option WalRefusal
  | _, [] => none
  | position, r :: rest =>
    if r.lsn ≠ 0 then some (.carriesLsn position r.lsn)
    else if r.epoch < w.maxEpoch then some (.staleEpoch r.epoch w.maxEpoch position)
    else validateBatch (position + 1) rest

def lastSegmentSize : ℕ := (w.segments.getLast?.map (·.sizeBytes)).getD 0

def needsRoll (bodyLength : ℕ) : Bool :=
  w.segments.isEmpty || decide (w.segmentBytes < w.lastSegmentSize + bodyLength)

def segmentHeaderLength : ℕ := (WalRecord.mk (.segmentHeader 0 0) 0 0 0 .legacy 0).encodedLength fmt

def bodyLength (records : List WalRecord) : ℕ := (records.map (·.encodedLength fmt)).sum

def projectedSize (records : List WalRecord) : ℕ :=
  (if w.needsRoll (bodyLength fmt records) then segmentHeaderLength fmt else w.lastSegmentSize) + bodyLength fmt records

def planOf (records : List WalRecord) : BatchPlan :=
  { bodyLength := bodyLength fmt records
    rolling := w.needsRoll (bodyLength fmt records)
    terminal := w.lastLsn + records.length + (w.needsRoll (bodyLength fmt records)).toNat }

def planBatch (records : List WalRecord) : Except WalRefusal BatchPlan :=
  if records.isEmpty then .error .emptyBatch
  else match w.validateBatch 0 records with
    | some refusal => .error refusal
    | none =>
      if maxSegmentReadBytes < w.projectedSize fmt records then
        .error (.segmentTooLarge records.length (w.projectedSize fmt records))
      else if provisionalCsn ≤ (w.planOf fmt records).terminal then .error (.exhausted w.lastLsn)
      else .ok (w.planOf fmt records)

def plannedTerminalLsn (records : List WalRecord) : Except WalRefusal ℕ := do
  let plan ← w.planBatch fmt records
  return plan.terminal

def stamped : ℕ → List WalRecord → List WalRecord
  | _, [] => []
  | lsn, r :: rest => { r with lsn := lsn + 1 } :: stamped (lsn + 1) rest

def maxEpochOf (epoch : ℕ) (records : List WalRecord) : ℕ := records.foldl (fun e r => max e r.epoch) epoch

-- A roll puts the header of the new segment in front of the batch, with the next sequence number.
def rollHeader (rolling : Bool) (records : List WalRecord) : List WalRecord :=
  if rolling then
    [{ payload := .segmentHeader w.nextNumber w.lastLsn
       lsn := w.lastLsn + 1
       epoch := maxEpochOf w.maxEpoch records }]
  else []

def registerSegments (rolling : Bool) (blobLength count last : ℕ) : List SegmentInfo :=
  if rolling then w.segments ++ [⟨w.nextNumber, w.lastLsn + 1, last, blobLength, count + 1⟩]
  else match w.segments.getLast? with
    | none => w.segments
    | some s => w.segments.dropLast ++ [⟨s.number, s.firstLsn, last, s.sizeBytes + blobLength, s.recordCount + count⟩]

def registerAppend (plan : BatchPlan) (records : List WalRecord) : WalManager :=
  let header := w.rollHeader plan.rolling records
  let last := w.lastLsn + header.length + records.length
  { w with
    segments := w.registerSegments plan.rolling (bodyLength fmt header + plan.bodyLength) records.length last
    nextNumber := w.nextNumber + plan.rolling.toNat
    lastLsn := last
    maxEpoch := maxEpochOf w.maxEpoch records
    records := w.records ++ header ++ stamped (w.lastLsn + header.length) records }

def appendMany (records : List WalRecord) (expectedTerminalLsn : Option ℕ) : Except WalRefusal (WalManager × ℕ) := do
  let plan ← w.planBatch fmt records
  match expectedTerminalLsn with
  | some expected => if plan.terminal ≠ expected then throw (.terminalMoved expected plan.terminal w.lastLsn)
  | none => pure ()
  let w' := w.registerAppend fmt plan records
  return (w', w'.lastLsn)

theorem stamped_append (lsn : ℕ) (xs ys : List WalRecord) :
    stamped lsn (xs ++ ys) = stamped lsn xs ++ stamped (lsn + xs.length) ys := by
  induction xs generalizing lsn with
  | nil => rfl
  | cons x xs ih =>
    simp only [List.cons_append, stamped, ih, List.length_cons]
    rw [show lsn + 1 + xs.length = lsn + (xs.length + 1) by omega]

theorem planBatch_eq_ok_iff : w.planBatch fmt records = .ok plan ↔
      records ≠ [] ∧ w.validateBatch 0 records = none ∧ w.projectedSize fmt records ≤ maxSegmentReadBytes ∧
        (w.planOf fmt records).terminal < provisionalCsn ∧ plan = w.planOf fmt records := by
  unfold planBatch
  cases records with
  | nil => simp
  | cons r rest =>
    rw [if_neg (by simp)]
    cases hvalid : w.validateBatch 0 (r :: rest) with
    | some refusal => simp
    | none =>
      split_ifs with hsize hterminal
      · simp [not_le.mpr hsize]
      · simp [not_lt.mpr hterminal]
      · simp only [Except.ok.injEq, ne_eq, reduceCtorEq, not_false_eq_true, true_and]
        exact ⟨fun h => ⟨not_lt.mp hsize, not_le.mp hterminal, h.symm⟩, fun h => h.2.2.symm⟩

theorem planBatch_of_shorter {records' : List WalRecord} (hplan : w.planBatch fmt records = .ok plan) (hlength : records'.length = records.length)
    (hvalid : w.validateBatch 0 records' = none) (hle : bodyLength fmt records' ≤ bodyLength fmt records)
    (hroll : w.needsRoll (bodyLength fmt records') = w.needsRoll (bodyLength fmt records)) :
    w.planBatch fmt records' = .ok (w.planOf fmt records') ∧
      (w.planOf fmt records').terminal = plan.terminal ∧ (w.planOf fmt records').rolling = plan.rolling := by
  obtain ⟨hne, -, hsize, hterminal, rfl⟩ := (planBatch_eq_ok_iff fmt w).mp hplan
  have hsame : (w.planOf fmt records').terminal = (w.planOf fmt records).terminal := by
    simp only [planOf, hlength, hroll]
  refine ⟨(planBatch_eq_ok_iff fmt w).mpr ⟨?_, hvalid, ?_, hsame ▸ hterminal, rfl⟩, hsame, hroll⟩
  · rintro rfl
    exact hne (List.eq_nil_of_length_eq_zero hlength.symm)
  · simp only [projectedSize, hroll] at hsize ⊢
    omega

theorem needsRoll_mono {m n : ℕ} (hmn : m ≤ n) (h : w.needsRoll n = false) : w.needsRoll m = false := by
  simp only [needsRoll, Bool.or_eq_false_iff, decide_eq_false_iff_not] at h ⊢
  exact ⟨h.1, by omega⟩

theorem validateBatch_eq_none_iff {position : ℕ} : w.validateBatch position records = none ↔ ∀ r ∈ records, r.lsn = 0 ∧ w.maxEpoch ≤ r.epoch := by
  induction records generalizing position with
  | nil => simp [validateBatch]
  | cons r rest ih =>
    simp only [validateBatch, List.forall_mem_cons]
    split_ifs with hlsn hepoch
    · simp [hlsn]
    · simp only [false_iff]
      rintro ⟨⟨-, h⟩, -⟩
      omega
    · rw [ih]
      simp only [ne_eq, Decidable.not_not] at hlsn
      exact ⟨fun h => ⟨⟨hlsn, not_lt.mp hepoch⟩, h⟩, fun h => h.2⟩

theorem rollHeader_length (rolling : Bool) (records : List WalRecord) :
    (w.rollHeader rolling records).length = rolling.toNat := by
  cases rolling <;> rfl

theorem appendMany_of_plan (hplan : w.planBatch fmt records = .ok plan) :
    w.appendMany fmt records (some plan.terminal) = .ok (w.registerAppend fmt plan records, plan.terminal) ∧
      (w.registerAppend fmt plan records).records =
        w.records ++ w.rollHeader plan.rolling records ++ stamped (plan.terminal - records.length) records := by
  obtain ⟨-, -, -, -, rfl⟩ := (planBatch_eq_ok_iff fmt w).mp hplan
  have hlast : (w.registerAppend fmt (w.planOf fmt records) records).lastLsn = (w.planOf fmt records).terminal := by
    simp only [registerAppend, rollHeader_length, planOf]
    omega
  have hfirst : (w.planOf fmt records).terminal - records.length =
      w.lastLsn + (w.rollHeader (w.planOf fmt records).rolling records).length := by
    simp only [rollHeader_length, planOf]
    omega
  refine ⟨?_, by rw [hfirst]; rfl⟩
  simp only [appendMany, hplan, bind, Except.bind, ne_eq, not_true_eq_false, if_false, pure, Except.pure, hlast]

end WalManager
end Grafx.Wal
