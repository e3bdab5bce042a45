import OktoGrafx.Domain.Record

/-! Log records and the bytes they take. Every number inside a record has a fixed width, so the
length of a record depends on names, keys, counts and the compressed size of a page image only. -/

namespace Grafx.Wal

inductive IndexOperation where
  | insert | tombstone | remove | reset
  deriving DecidableEq, Repr

/-- `csn` is a birth or an end, the horizon of a removal, or the position a rebuilt index covers. -/
structure IndexChange where
  index : String
  operation : IndexOperation
  key : List UInt8 := []
  ref : RecordRef
  csn : ℕ := noCsn
  versioned : Bool := false
  deriving DecidableEq, Repr

structure PageTouch where
  file : FileName
  pageIndex : ℕ
  deriving DecidableEq, Repr

structure CommitPayload where
  snapshotLsn : ℕ
  readPartitions : List ℕ
  writePartitions : List ℕ
  pageTouches : List PageTouch
  deriving DecidableEq, Repr

inductive RecordPayload where
  | segmentHeader (number previousLastLsn : ℕ)
  | writePage (file : FileName) (pageIndex : ℕ) (image : Page Cell) (compressed : Bool)
  | index (change : IndexChange)
  | commit (payload : CommitPayload)
  deriving DecidableEq, Repr

inductive RecordType where
  | writePage | commit | indexWrite | indexReconcile | segmentHeader
  deriving DecidableEq, Repr

def RecordPayload.recordType : RecordPayload → RecordType
  | segmentHeader .. => .segmentHeader
  | writePage .. => .writePage
  | index change => if change.operation = .remove then .indexReconcile else .indexWrite
  | commit _ => .commit

inductive FormatVersion where
  | legacy | v2
  deriving DecidableEq, Repr

structure WalRecord where
  payload : RecordPayload
  lsn : ℕ := 0
  epoch : ℕ := 0
  txnId : ℕ := 0
  formatVersion : FormatVersion := .legacy
  flags : ℕ := 0
  deriving DecidableEq, Repr

def WalRecord.recordType (r : WalRecord) : RecordType := r.payload.recordType

/-- The page size, the length of the descriptor, and what the page compressor makes of an image. -/
structure Format where
  pageSize : ℕ
  descriptorBytes : ℕ
  zlibLength : Page Cell → ℕ

variable (fmt : Format)

def headerLengthOf : FormatVersion → ℕ
  | .legacy => 48
  | .v2 => 48

def checksumLength : ℕ := 4

def uncompressedLengthSize : ℕ := 4

def pageWritePrefix (file : FileName) : ℕ := 2 + file.utf8ByteSize + 4

def RecordPayload.encodedLength : RecordPayload → ℕ
  | segmentHeader .. => 24
  | writePage file _ image compressed =>
    pageWritePrefix file + if compressed then uncompressedLengthSize + fmt.zlibLength image else fmt.pageSize
  | index change => 24 + change.index.utf8ByteSize + change.key.length
  | commit p => 16 + 8 * (p.readPartitions.length + p.writePartitions.length) + 4 + 6 * p.pageTouches.length

def WalRecord.encodedLength (r : WalRecord) : ℕ :=
  headerLengthOf r.formatVersion + fmt.descriptorBytes + r.payload.encodedLength fmt + checksumLength

def commitCatalogPageFiles : List FileName := ["commits.dir", "commits.dat"]

def systemHistoryFile : FileName := "system-history.dat"

def walV2FlagRequired : ℕ := 0x0001

def walV2FlagPageImageZlib1 : ℕ := 0x0004

def walV2FlagCommitCatalogV1 : ℕ := 0x0010

def walV2FlagSystemHistoryV1 : ℕ := 0x0020

structure EncodedPageWrite where
  payload : RecordPayload
  formatVersion : FormatVersion
  flags : ℕ
  deriving DecidableEq, Repr

def isCompressible (image : Page Cell) : Bool :=
  !decide (fmt.pageSize ≤ fmt.zlibLength image + uncompressedLengthSize)

/-- A compressed image is used only where it is shorter. -/
def encodePageWriteRecord (file : FileName) (pageIndex : ℕ) (image : Page Cell) (compress : Bool) :
    EncodedPageWrite :=
  let journal := decide (file ∈ commitCatalogPageFiles)
  let history := file == systemHistoryFile
  let version := if journal || history then .v2 else .legacy
  let flags :=
    if journal then walV2FlagRequired ||| walV2FlagCommitCatalogV1
    else if history then walV2FlagRequired ||| walV2FlagSystemHistoryV1 else 0
  if compress && isCompressible fmt image then
    ⟨.writePage file pageIndex image true, .v2, walV2FlagRequired ||| walV2FlagPageImageZlib1 ||| flags⟩
  else ⟨.writePage file pageIndex image false, version, flags⟩

def WalRecord.withPageWrite (r : WalRecord) (e : EncodedPageWrite) : WalRecord :=
  { r with payload := e.payload, formatVersion := e.formatVersion, flags := e.flags }

@[simp] theorem headerLengthOf_eq (v : FormatVersion) : headerLengthOf v = 48 := by cases v <;> rfl

theorem encodePageWriteRecord_payload (file : FileName) (pageIndex : ℕ) (image : Page Cell) (compress : Bool) :
    (encodePageWriteRecord fmt file pageIndex image compress).payload =
      .writePage file pageIndex image (compress && isCompressible fmt image) := by
  unfold encodePageWriteRecord
  cases compress && isCompressible fmt image <;> rfl

theorem WalRecord.encodedLength_withPageWrite (r : WalRecord) (file : FileName) (pageIndex : ℕ) (image : Page Cell)
    (compress : Bool) :
    (r.withPageWrite (encodePageWriteRecord fmt file pageIndex image compress)).encodedLength fmt =
      48 + fmt.descriptorBytes + (pageWritePrefix file + if compress && isCompressible fmt image then
        uncompressedLengthSize + fmt.zlibLength image else fmt.pageSize) + checksumLength := by
  simp only [WalRecord.encodedLength, WalRecord.withPageWrite, headerLengthOf_eq, encodePageWriteRecord_payload,
    RecordPayload.encodedLength]

theorem compressed_length_le (r : WalRecord) (file : FileName) (pageIndex : ℕ) (image : Page Cell) (r' : WalRecord) :
    (r.withPageWrite (encodePageWriteRecord fmt file pageIndex image true)).encodedLength fmt ≤
      (r'.withPageWrite (encodePageWriteRecord fmt file pageIndex image false)).encodedLength fmt := by
  rw [WalRecord.encodedLength_withPageWrite, WalRecord.encodedLength_withPageWrite]
  by_cases h : fmt.pageSize ≤ fmt.zlibLength image + uncompressedLengthSize
  · simp [isCompressible, h]
  · simp only [isCompressible, h, decide_false, Bool.not_false, Bool.and_true, if_true, Bool.false_eq_true, if_false]
    omega

end Grafx.Wal
