import OktoGrafx.Txn.Stamp
import OktoGrafx.Wal.Append

/-! The batch of log records of one commit: the number it is first built for, the number the log
plans for it, the retargeting between the two, the compression of its page images, and the append. -/

namespace Grafx.Txn
open Wal

def heapFile : FileName := "heap.dat"

structure IndexEntry where
  index : String
  versioned : Bool
  key : List UInt8
  deriving DecidableEq, Repr

structure RowWrite where
  born : Option RecordRef := none
  ended : Option RecordRef := none
  bornEntries : List IndexEntry := []
  endedEntries : List IndexEntry := []
  deriving DecidableEq, Repr

def RowWrite.stageDelete (row : RowWrite) (csn : ℕ) : List IndexChange :=
  match row.ended with
  | none => []
  | some ref => row.endedEntries.map fun e =>
      { index := e.index, operation := .tombstone, key := e.key, ref := ref, csn := csn, versioned := e.versioned }

-- An unversioned entry has no birth stamp.
def RowWrite.stageInsert (row : RowWrite) (csn : ℕ) : List IndexChange :=
  match row.born with
  | none => []
  | some ref => row.bornEntries.map fun e =>
      { index := e.index
        operation := .insert
        key := e.key
        ref := ref
        csn := if e.versioned then csn else noCsn
        versioned := e.versioned }

def RowWrite.stage (row : RowWrite) (csn : ℕ) : List IndexChange := row.stageDelete csn ++ row.stageInsert csn

def RowWrite.stamps (row : RowWrite) (pageIndex : ℕ) : List VersionStamp :=
  (row.born.filter (·.page == pageIndex)).toList.map (⟨·, true⟩) ++
    (row.ended.filter (·.page == pageIndex)).toList.map (⟨·, false⟩)

/-- Bound images depend on the commit number: journal, history, and the catalog at an activation. -/
structure PageSource where
  loc : Location
  image : ℕ → Page Cell
  rebound : Bool
  fixed : rebound = false → ∀ m n, image m = image n

structure CommitAttempt where
  txnId : ℕ
  epoch : ℕ
  snapshotLsn : ℕ
  readPartitions : List ℕ
  writePartitions : List ℕ
  staged : List PageSource
  resident : List PageSource
  journal : List PageSource
  rows : List RowWrite
  pending : List IndexChange
  activation : Bool
  walRecordV2Capable : Bool
  maxWalBatchBytes : Option ℕ
  rebound_not_heap : ∀ src ∈ staged ++ resident ++ journal, src.rebound = true → src.loc.file ≠ heapFile

inductive CommitRefusal where
  | wal (refusal : WalRefusal)
  | damagedPage
  | cardinality (records pages pending : ℕ)
  | budget (limit observed : ℕ)
  deriving DecidableEq, Repr

namespace CommitAttempt
variable (fmt : Format) (a : CommitAttempt)

def locationLe (x y : PageSource) : Bool :=
  decide (x.loc.file < y.loc.file) || (x.loc.file == y.loc.file && decide (x.loc.pageIndex ≤ y.loc.pageIndex))

def pages : List PageSource := (a.staged ++ a.resident ++ a.journal).mergeSort locationLe

def stampsOf (l : Location) : List VersionStamp :=
  if l.file = heapFile then a.rows.flatMap (·.stamps l.pageIndex) else []

def imageAt (csn : ℕ) (src : PageSource) : Option (PageSource × Page Cell) :=
  (stampPage csn (a.stampsOf src.loc) (src.image csn)).map (src, ·)

def changesAt (csn : ℕ) : List IndexChange := a.pending ++ a.rows.flatMap (·.stage csn)

def indexRecordCount : ℕ :=
  (a.rows.map fun row =>
    (if row.ended.isSome then row.endedEntries.length else 0) +
      if row.born.isSome then row.bornEntries.length else 0).sum

def predicted (base : ℕ) : ℕ :=
  base + (a.staged.length + a.resident.length) + a.pending.length + a.indexRecordCount + 1 + a.journal.length

def pageRecord (compress : Bool) (item : PageSource × Page Cell) : WalRecord :=
  { payload := .commit ⟨0, [], [], []⟩, epoch := a.epoch, txnId := a.txnId : WalRecord }.withPageWrite
    (encodePageWriteRecord fmt item.1.loc.file item.1.loc.pageIndex item.2 compress)

def indexRecord (change : IndexChange) : WalRecord := { payload := .index change, epoch := a.epoch, txnId := a.txnId }

def commitRecord : WalRecord :=
  { payload := .commit
      { snapshotLsn := a.snapshotLsn
        readPartitions := a.readPartitions
        writePartitions := a.writePartitions
        pageTouches := a.pages.map fun src => ⟨src.loc.file, src.loc.pageIndex⟩ }
    epoch := a.epoch
    txnId := a.txnId }

def assemble (compress : Bool) (images : List (PageSource × Page Cell)) (changes : List IndexChange)
    (terminal : WalRecord) : List WalRecord :=
  images.map (a.pageRecord fmt compress) ++ changes.map a.indexRecord ++ [terminal]

structure Batch where
  records : List WalRecord
  images : List (PageSource × Page Cell)
  changes : List IndexChange
  csn : ℕ

def batchAt (csn : ℕ) : Option Batch := do
  let images ← a.pages.mapM (a.imageAt csn)
  let changes := a.changesAt csn
  return ⟨a.assemble fmt false images changes a.commitRecord, images, changes, csn⟩

def buildRecords (base : ℕ) : Option Batch := a.batchAt fmt (a.predicted base)

def retargetChange (old new : ℕ) (change : IndexChange) : IndexChange :=
  if change.csn = old then { change with csn := new } else change

def retargetImage (new : ℕ) (item : PageSource × Page Cell) : Option (PageSource × Page Cell) :=
  (stampPage new (a.stampsOf item.1.loc) (if item.1.rebound then item.1.image new else item.2)).map (item.1, ·)

def retargetCommitBatch (b : Batch) (new : ℕ) : Except CommitRefusal Batch :=
  let changes := b.changes.map (retargetChange b.csn new)
  match b.records.getLast? with
  | none => .error (.cardinality b.records.length b.images.length changes.length)
  | some terminal =>
    if terminal.recordType ≠ .commit ∨ b.records.length ≠ b.images.length + changes.length + 1 then
      .error (.cardinality b.records.length b.images.length changes.length)
    else match b.images.mapM (a.retargetImage new) with
      | none => .error .damagedPage
      | some images => .ok ⟨a.assemble fmt false images changes terminal, images, changes, new⟩

def compressPageRecords (b : Batch) : List WalRecord :=
  if a.walRecordV2Capable && !b.images.isEmpty then
    List.zipWith (fun (r : WalRecord) item => r.withPageWrite
      (encodePageWriteRecord fmt item.1.loc.file item.1.loc.pageIndex item.2 true)) b.records b.images ++
      b.records.drop b.images.length
  else b.records

def validateWalBatchBudget (records : List WalRecord) : Option CommitRefusal :=
  match a.maxWalBatchBytes with
  | none => none
  | some limit =>
    let observed := WalManager.bodyLength fmt records
    if observed ≤ limit then none else some (.budget limit observed)

def finalBatch (w : WalManager) : Except CommitRefusal (List WalRecord × ℕ) :=
  match a.buildRecords fmt w.lastLsn with
  | none => .error .damagedPage
  | some b =>
    match w.plannedTerminalLsn fmt b.records with
    | .error refusal => .error (.wal refusal)
    | .ok planned =>
      if planned ≠ b.csn then
        match a.retargetCommitBatch fmt b planned with
        | .error refusal => .error refusal
        | .ok b' => .ok (b'.records, planned)
      else .ok (if a.activation then b.records else a.compressPageRecords fmt b, planned)

def commitBatch (w : WalManager) : Except CommitRefusal (WalManager × ℕ) :=
  match a.finalBatch fmt w with
  | .error refusal => .error refusal
  | .ok (records, planned) =>
    match a.validateWalBatchBudget fmt records with
    | some refusal => .error refusal
    | none =>
      match w.appendMany fmt records (some planned) with
      | .error refusal => .error (.wal refusal)
      | .ok result => .ok result

end CommitAttempt
end Grafx.Txn
