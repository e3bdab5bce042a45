import OktoGrafx.Domain.Checksum
import OktoGrafx.Lib.Checked
import OktoGrafx.Wal.Record

/-! The write-ahead log record on the device: a fixed header, a descriptor, a payload, and a checksum
over all of them. Nothing outside a record is needed to read it. -/

namespace Grafx.Log

open ByteCodec Checked Wal

def walMagic : ℕ := 0x5852474F

def walLegacyFormatVersion : ℕ := 1

def walFormatVersion : ℕ := 2

def walV2FlagSkippable : ℕ := 0x0008

def walHeaderLength : ℕ := 48

def supportedFormatVersions : List ℕ := [walLegacyFormatVersion, walFormatVersion]

def maxU16 : ℕ := 0xFFFF

def maxU32 : ℕ := 0xFFFFFFFF

def maxDescriptorBytes : ℕ := 4096

def maxTotalLength : ℕ := maxU32

inductive WalRecordType where
  | begin | writePage | commit | abort | checkpoint | indexWrite | indexReconcile | ledgerAppend | catalogWrite | spaceDdl | vectorWrite
  | segmentHeader | pageAlloc
  deriving DecidableEq, Repr

def WalRecordType.code : WalRecordType → ℕ
  | begin => 1
  | writePage => 2
  | commit => 3
  | abort => 4
  | checkpoint => 5
  | indexWrite => 6
  | indexReconcile => 7
  | ledgerAppend => 8
  | catalogWrite => 9
  | spaceDdl => 10
  | vectorWrite => 11
  | segmentHeader => 12
  | pageAlloc => 13

def isKnownRecordType (recordType : ℕ) : Bool := decide (1 ≤ recordType ∧ recordType ≤ 13)

inductive SemanticsError where
  | writePageFlags (flags : ℕ)
  | notSkippable (recordType flags : ℕ)
  | noGrammar (recordType : ℕ)
  deriving DecidableEq, Repr

def v2RecordSemanticsError (recordType flags : ℕ) : Option SemanticsError :=
  let journalFlags := walV2FlagRequired ||| walV2FlagCommitCatalogV1
  let historyFlags := walV2FlagRequired ||| walV2FlagSystemHistoryV1
  if recordType = WalRecordType.writePage.code then
    if flags ∈ [walV2FlagRequired ||| walV2FlagPageImageZlib1, journalFlags, journalFlags ||| walV2FlagPageImageZlib1, historyFlags,
        historyFlags ||| walV2FlagPageImageZlib1] then none
    else some (.writePageFlags flags)
  else if !isKnownRecordType recordType then
    if flags = walV2FlagSkippable then none else some (.notSkippable recordType flags)
  else some (.noGrammar recordType)

def isContinuation (b : Byte) : Bool := decide (0x80 ≤ b.val ∧ b.val ≤ 0xBF)

/-- The shortest form of every scalar value, no surrogates. -/
def utf8Valid : Bytes → Bool
  | [] => true
  | b₀ :: rest₀ =>
    if b₀.val < 0x80 then utf8Valid rest₀
    else match rest₀ with
      | [] => false
      | b₁ :: rest₁ =>
        if 0xC2 ≤ b₀.val ∧ b₀.val ≤ 0xDF then isContinuation b₁ && utf8Valid rest₁
        else match rest₁ with
          | [] => false
          | b₂ :: rest₂ =>
            if 0xE0 ≤ b₀.val ∧ b₀.val ≤ 0xEF then
              isContinuation b₁ && isContinuation b₂ && (b₀.val != 0xE0 || decide (0xA0 ≤ b₁.val)) &&
                (b₀.val != 0xED || decide (b₁.val ≤ 0x9F)) && utf8Valid rest₂
            else match rest₂ with
              | [] => false
              | b₃ :: rest₃ =>
                if 0xF0 ≤ b₀.val ∧ b₀.val ≤ 0xF4 then
                  isContinuation b₁ && isContinuation b₂ && isContinuation b₃ && (b₀.val != 0xF0 || decide (0x90 ≤ b₁.val)) &&
                    (b₀.val != 0xF4 || decide (b₁.val ≤ 0x8F)) && utf8Valid rest₃
                else false

/-- The descriptor is kept as the UTF-8 it is written as; every number fits its field. -/
@[ext] structure WalRecord where
  recordType : ℕ
  payload : Bytes
  descriptor : Bytes
  lsn : ℕ
  epoch : ℕ
  txnId : ℕ
  flags : ℕ
  formatVersion : ℕ
  recordType_le : recordType ≤ maxU16
  formatVersion_le : formatVersion ≤ maxU16
  flags_le : flags ≤ maxU16
  lsn_le : lsn ≤ maxU64
  epoch_le : epoch ≤ maxU64
  txnId_le : txnId ≤ maxU64
  descriptor_valid : utf8Valid descriptor = true
  descriptor_le : descriptor.length ≤ maxDescriptorBytes
  payload_le : payload.length ≤ maxU32

instance : DecidableEq WalRecord := fun _ _ => decidable_of_iff' _ WalRecord.ext_iff

theorem walLegacyFormatVersion_le : walLegacyFormatVersion ≤ maxU16 := by decide

theorem WalRecordType.code_le (t : WalRecordType) : t.code ≤ maxU16 := by
  cases t <;> decide

theorem byte_le_maxU64 (b : Byte) : b.val ≤ maxU64 := b.isLt.le.trans (by decide)

def plainRecord (recordType : WalRecordType) (lsn txnId : Byte) : WalRecord where
  recordType := recordType.code
  payload := []
  descriptor := []
  lsn := lsn
  epoch := 1
  txnId := txnId
  flags := 0
  formatVersion := walLegacyFormatVersion
  recordType_le := recordType.code_le
  formatVersion_le := walLegacyFormatVersion_le
  flags_le := Nat.zero_le _
  lsn_le := byte_le_maxU64 lsn
  epoch_le := by decide
  txnId_le := byte_le_maxU64 txnId
  descriptor_valid := rfl
  descriptor_le := by decide
  payload_le := by decide

def lastLsn (records : List WalRecord) : ℕ := (records.getLast?.map WalRecord.lsn).getD 0

variable (r : WalRecord)

structure WireHeader where
  magic : ℕ
  formatVersion : ℕ
  recordType : ℕ
  headerLength : ℕ
  flags : ℕ
  totalLength : ℕ
  lsn : ℕ
  epoch : ℕ
  txnId : ℕ
  descriptorLength : ℕ
  payloadLength : ℕ
  deriving DecidableEq

def WireHeader.pack (h : WireHeader) : Bytes :=
  littleEndian 4 h.magic ++ (littleEndian 2 h.formatVersion ++ (littleEndian 2 h.recordType ++ (littleEndian 2 h.headerLength ++
    (littleEndian 2 h.flags ++ (littleEndian 4 h.totalLength ++ (littleEndian 8 h.lsn ++ (littleEndian 8 h.epoch ++ (littleEndian 8 h.txnId ++
      (littleEndian 4 h.descriptorLength ++ littleEndian 4 h.payloadLength)))))))))

def WireHeader.unpack (raw : Bytes) : WireHeader :=
  let (magic, raw₁) := read 4 raw
  let (formatVersion, raw₂) := read 2 raw₁
  let (recordType, raw₃) := read 2 raw₂
  let (headerLength, raw₄) := read 2 raw₃
  let (flags, raw₅) := read 2 raw₄
  let (totalLength, raw₆) := read 4 raw₅
  let (lsn, raw₇) := read 8 raw₆
  let (epoch, raw₈) := read 8 raw₇
  let (txnId, raw₉) := read 8 raw₈
  let (descriptorLength, raw₁₀) := read 4 raw₉
  let (payloadLength, _) := read 4 raw₁₀
  { magic, formatVersion, recordType, headerLength, flags, totalLength, lsn, epoch, txnId, descriptorLength, payloadLength }

structure WireHeader.Fits (h : WireHeader) : Prop where
  magic : h.magic < 256 ^ 4
  formatVersion : h.formatVersion < 256 ^ 2
  recordType : h.recordType < 256 ^ 2
  headerLength : h.headerLength < 256 ^ 2
  flags : h.flags < 256 ^ 2
  totalLength : h.totalLength < 256 ^ 4
  lsn : h.lsn < 256 ^ 8
  epoch : h.epoch < 256 ^ 8
  txnId : h.txnId < 256 ^ 8
  descriptorLength : h.descriptorLength < 256 ^ 4
  payloadLength : h.payloadLength < 256 ^ 4

@[simp] theorem WireHeader.pack_length (h : WireHeader) : h.pack.length = walHeaderLength := by
  rfl

theorem WireHeader.unpack_pack {h : WireHeader} (hf : h.Fits) : unpack h.pack = h := by
  have hlast : read 4 (littleEndian 4 h.payloadLength) = (h.payloadLength, []) := by
    have hread := read_append hf.payloadLength []
    rwa [List.append_nil] at hread
  simp only [unpack, pack, read_append hf.magic, read_append hf.formatVersion, read_append hf.recordType, read_append hf.headerLength,
    read_append hf.flags, read_append hf.totalLength, read_append hf.lsn, read_append hf.epoch, read_append hf.txnId,
    read_append hf.descriptorLength, hlast]

inductive EncodeRefusal where
  | formatVersion (value : ℕ)
  | recordType (value : ℕ)
  | semantics (e : SemanticsError)
  | totalLength (value : ℕ)
  deriving DecidableEq, Repr

def WalRecord.encodedLength : ℕ := walHeaderLength + r.descriptor.length + r.payload.length + checksumLength

def WalRecord.header : WireHeader where
  magic := walMagic
  formatVersion := r.formatVersion
  recordType := r.recordType
  headerLength := walHeaderLength
  flags := r.flags
  totalLength := r.encodedLength
  lsn := r.lsn
  epoch := r.epoch
  txnId := r.txnId
  descriptorLength := r.descriptor.length
  payloadLength := r.payload.length

def WalRecord.body : Bytes := r.header.pack ++ (r.descriptor ++ r.payload)

def WalRecord.image : Bytes := r.body ++ littleEndian checksumLength (crc32c r.body).toNat

def WalRecord.semanticsError : Option SemanticsError :=
  if r.formatVersion = walFormatVersion then v2RecordSemanticsError r.recordType r.flags else none

def WalRecord.encode : Except EncodeRefusal Bytes := do
  ensure (r.formatVersion ∈ supportedFormatVersions) (.formatVersion r.formatVersion)
  ensure (isKnownRecordType r.recordType = true) (.recordType r.recordType)
  match r.semanticsError with
  | some e => .error (.semantics e)
  | none => do
    ensure (r.encodedLength ≤ maxTotalLength) (.totalLength r.encodedLength)
    return r.image

structure WalRecord.Encodable : Prop where
  formatVersion : r.formatVersion ∈ supportedFormatVersions
  recordType : isKnownRecordType r.recordType = true
  semantics : r.semanticsError = none
  totalLength : r.encodedLength ≤ maxTotalLength

variable {r}

theorem WalRecord.encode_ok_iff {raw : Bytes} : r.encode = .ok raw ↔ r.Encodable ∧ r.image = raw := by
  unfold encode
  cases hsemantics : r.semanticsError with
  | some e =>
    simp only [bind_ok_iff, ensure_ok_iff]
    exact ⟨fun ⟨_, _, _, _, h⟩ => (nomatch h), fun h => by simp [h.1.semantics] at hsemantics⟩
  | none =>
    simp only [bind_ok_iff, ensure_ok_iff, pure_ok_iff]
    exact ⟨fun ⟨_, hversion, _, htype, _, htotal, himage⟩ => ⟨⟨hversion, htype, hsemantics, htotal⟩, himage⟩,
      fun ⟨h, himage⟩ => ⟨⟨⟩, h.formatVersion, ⟨⟩, h.recordType, ⟨⟩, h.totalLength, himage⟩⟩

theorem WalRecord.body_length : r.body.length = walHeaderLength + r.descriptor.length + r.payload.length := by
  rw [body, List.length_append, List.length_append, WireHeader.pack_length, add_assoc]

@[simp] theorem WalRecord.image_length : r.image.length = r.encodedLength := by
  rw [image, List.length_append, body_length, littleEndian_length, encodedLength]

theorem WalRecord.encodedLength_pos : walHeaderLength < r.encodedLength := by
  rw [encodedLength, checksumLength]
  omega

end Grafx.Log
