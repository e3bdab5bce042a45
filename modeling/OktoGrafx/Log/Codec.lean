import OktoGrafx.Log.Record

/-! Decoding one record. A length is trusted only once the checksum over it has matched, and bytes
decode to a record exactly where the image of that record stands. -/

namespace Grafx.Log

open List ByteCodec Wal

inductive FailureReason where
  | truncatedTail | badMagic | unsupportedVersion | unsupportedRequiredRecord | badHeader | checksumFailure | unreadableDescriptor
  | unrepresentableRecord | unreadableSegment | lsnDiscontinuity
  deriving DecidableEq, Repr

inductive DecodeOutcome where
  | record (r : WalRecord) (consumed : ℕ)
  | failure (reason : FailureReason) (consumed : ℕ)
  deriving DecidableEq

def WireHeader.record? (h : WireHeader) (descriptor payload : Bytes) : Option WalRecord :=
  if hb : (h.recordType ≤ maxU16 ∧ h.formatVersion ≤ maxU16 ∧ h.flags ≤ maxU16) ∧ (h.lsn ≤ maxU64 ∧ h.epoch ≤ maxU64 ∧ h.txnId ≤ maxU64) ∧
      utf8Valid descriptor = true ∧ descriptor.length ≤ maxDescriptorBytes ∧ payload.length ≤ maxU32 then
    some ⟨h.recordType, payload, descriptor, h.lsn, h.epoch, h.txnId, h.flags, h.formatVersion, hb.1.1, hb.1.2.1, hb.1.2.2, hb.2.1.1,
      hb.2.1.2.1, hb.2.1.2.2, hb.2.2.1, hb.2.2.2.1, hb.2.2.2.2⟩
  else none

def decodeBody (image : Bytes) (h : WireHeader) : DecodeOutcome :=
  let body := image.take (h.totalLength - checksumLength)
  let descriptor := (body.drop h.headerLength).take h.descriptorLength
  if ofLittleEndian (image.drop (h.totalLength - checksumLength)) ≠ (crc32c body).toNat then .failure .checksumFailure 0
  else if utf8Valid descriptor = false then .failure .unreadableDescriptor h.totalLength
  else match h.record? descriptor (body.drop (h.headerLength + h.descriptorLength)) with
    | none => .failure .unrepresentableRecord h.totalLength
    | some r => if r.semanticsError = none then .record r h.totalLength else .failure .unsupportedRequiredRecord h.totalLength

def decodeHeaded (raw : Bytes) (h : WireHeader) : DecodeOutcome :=
  if h.magic ≠ walMagic then .failure .badMagic 0
  else if h.formatVersion ∉ supportedFormatVersions then .failure .unsupportedVersion 0
  else if h.headerLength ≠ walHeaderLength then .failure .badHeader 0
  else if h.totalLength ≠ h.headerLength + h.descriptorLength + h.payloadLength + checksumLength then .failure .badHeader 0
  else if raw.length < h.totalLength then .failure .truncatedTail raw.length
  else decodeBody (raw.take h.totalLength) h

def decodeRecord (raw : Bytes) : DecodeOutcome :=
  if raw.length < walHeaderLength then .failure .truncatedTail raw.length
  else decodeHeaded raw (WireHeader.unpack (raw.take walHeaderLength))

structure WalRecord.Readable (r : WalRecord) : Prop where
  formatVersion : r.formatVersion ∈ supportedFormatVersions
  semantics : r.semanticsError = none
  totalLength : r.encodedLength ≤ maxTotalLength

variable {r r' : WalRecord} {raw : Bytes} {n : ℕ} {h : WireHeader}

theorem WalRecord.Encodable.readable (h : r.Encodable) : r.Readable := ⟨h.formatVersion, h.semantics, h.totalLength⟩

theorem WalRecord.Readable.header_fits (h : r.Readable) : r.header.Fits where
  magic := show walMagic < 256 ^ 4 by decide
  formatVersion := r.formatVersion_le.trans_lt (by decide)
  recordType := r.recordType_le.trans_lt (by decide)
  headerLength := show walHeaderLength < 256 ^ 2 by decide
  flags := r.flags_le.trans_lt (by decide)
  totalLength := h.totalLength.trans_lt (by decide)
  lsn := r.lsn_le.trans_lt (by decide)
  epoch := r.epoch_le.trans_lt (by decide)
  txnId := r.txnId_le.trans_lt (by decide)
  descriptorLength := r.descriptor_le.trans_lt (by decide)
  payloadLength := r.payload_le.trans_lt (by decide)

theorem WalRecord.header_record? (r : WalRecord) : r.header.record? r.descriptor r.payload = some r :=
  dif_pos ⟨⟨r.recordType_le, r.formatVersion_le, r.flags_le⟩, ⟨r.lsn_le, r.epoch_le, r.txnId_le⟩, r.descriptor_valid, r.descriptor_le,
    r.payload_le⟩

theorem decodeBody_image (h : r.Readable) : decodeBody r.image r.header = .record r r.encodedLength := by
  have htotal : r.header.totalLength - checksumLength = r.body.length := by
    show r.encodedLength - checksumLength = _
    rw [WalRecord.encodedLength, WalRecord.body_length, Nat.add_sub_cancel]
  have hbody : r.image.take (r.header.totalLength - checksumLength) = r.body := take_left' htotal.symm
  have hstored : r.image.drop (r.header.totalLength - checksumLength) = littleEndian checksumLength (crc32c r.body).toNat :=
    drop_left' htotal.symm
  have hchecksum : ofLittleEndian (littleEndian checksumLength (crc32c r.body).toNat) = (crc32c r.body).toNat :=
    ofLittleEndian_littleEndian (UInt32.toNat_lt _)
  have hbehind : r.body.drop r.header.headerLength = r.descriptor ++ r.payload := drop_left' r.header.pack_length
  have hdescriptor : (r.body.drop r.header.headerLength).take r.header.descriptorLength = r.descriptor := by
    exact take_left' rfl
  have hpayload : r.body.drop (r.header.headerLength + r.header.descriptorLength) = r.payload := by
    rw [← drop_drop, hbehind]
    exact drop_left' rfl
  unfold decodeBody
  simp only [hbody, hstored, hchecksum, hdescriptor, hpayload, r.descriptor_valid, r.header_record?, h.semantics, ne_eq, not_true_eq_false,
    if_false, if_true, Bool.true_eq_false]
  rfl

theorem decodeRecord_image (h : r.Readable) (rest : Bytes) : decodeRecord (r.image ++ rest) = .record r r.encodedLength := by
  have hlength : (r.image ++ rest).length = r.encodedLength + rest.length := by rw [length_append, WalRecord.image_length]
  have hpos := r.encodedLength_pos
  have htake : (r.image ++ rest).take walHeaderLength = r.header.pack := by
    exact take_left' r.header.pack_length
  have himage : (r.image ++ rest).take r.header.totalLength = r.image := take_left' WalRecord.image_length
  unfold decodeRecord
  rw [if_neg (by omega), htake, WireHeader.unpack_pack h.header_fits]
  have hmagic : r.header.magic = walMagic := rfl
  have hversion : r.header.formatVersion ∈ supportedFormatVersions := h.formatVersion
  have hheader : r.header.headerLength = walHeaderLength := rfl
  have htotal : r.header.totalLength = r.header.headerLength + r.header.descriptorLength + r.header.payloadLength + checksumLength := rfl
  have hle : r.header.totalLength ≤ (r.image ++ rest).length := by
    rw [hlength]
    exact Nat.le_add_right _ _
  unfold decodeHeaded
  rw [if_neg (not_not_intro hmagic), if_neg (not_not_intro hversion), if_neg (not_not_intro hheader), if_neg (not_not_intro htotal),
    if_neg (not_lt.mpr hle), himage]
  exact decodeBody_image h

/-! ## What a decoded record says about the bytes -/

theorem WireHeader.pack_unpack (h : raw.length = walHeaderLength) : (unpack raw).pack = raw := by
  have hlength : raw.length = 48 := h
  simp only [unpack, pack]
  have hlast : ∀ xs : Bytes, xs.length = 4 → littleEndian 4 (read 4 xs).1 = xs := by
    intro xs hxs
    have hread := littleEndian_read (show 4 ≤ xs.length by omega) rfl
    rwa [show (read 4 xs).2 = [] from drop_eq_nil_of_le (by omega), append_nil] at hread
  refine littleEndian_read ?_ (littleEndian_read ?_ (littleEndian_read ?_ (littleEndian_read ?_ (littleEndian_read ?_ (littleEndian_read ?_
    (littleEndian_read ?_ (littleEndian_read ?_ (littleEndian_read ?_ (littleEndian_read ?_ (hlast _ ?_))))))))))
  · omega
  all_goals
    simp only [ByteCodec.read, length_drop]
    omega

theorem WireHeader.record?_some {descriptor payload : Bytes} (hr : h.record? descriptor payload = some r) :
    r.recordType = h.recordType ∧ r.formatVersion = h.formatVersion ∧ r.flags = h.flags ∧ r.lsn = h.lsn ∧ r.epoch = h.epoch ∧
      r.txnId = h.txnId ∧ r.descriptor = descriptor ∧ r.payload = payload := by
  unfold record? at hr
  split at hr
  · cases hr
    exact ⟨rfl, rfl, rfl, rfl, rfl, rfl, rfl, rfl⟩
  · cases hr

theorem decodeBody_record {image : Bytes} (hd : decodeBody image h = .record r n) : n = h.totalLength ∧ r.semanticsError = none ∧
      ofLittleEndian (image.drop (h.totalLength - checksumLength)) = (crc32c (image.take (h.totalLength - checksumLength))).toNat ∧
        h.record? (((image.take (h.totalLength - checksumLength)).drop h.headerLength).take h.descriptorLength)
          ((image.take (h.totalLength - checksumLength)).drop (h.headerLength + h.descriptorLength)) = some r := by
  unfold decodeBody at hd
  dsimp only at hd
  split at hd
  · cases hd
  rename_i hsum
  split at hd
  · cases hd
  split at hd
  · cases hd
  rename_i r' hr'
  split at hd
  · rename_i hsemantics
    cases hd
    exact ⟨rfl, hsemantics, not_not.mp hsum, hr'⟩
  · cases hd

theorem decodeHeaded_record (hd : decodeHeaded raw h = .record r n) :
    h.magic = walMagic ∧ h.formatVersion ∈ supportedFormatVersions ∧ h.headerLength = walHeaderLength ∧
      h.totalLength = h.headerLength + h.descriptorLength + h.payloadLength + checksumLength ∧ h.totalLength ≤ raw.length ∧
        decodeBody (raw.take h.totalLength) h = .record r n := by
  unfold decodeHeaded at hd
  split at hd
  · cases hd
  rename_i hmagic
  split at hd
  · cases hd
  rename_i hversion
  split at hd
  · cases hd
  rename_i hheader
  split at hd
  · cases hd
  rename_i htotal
  split at hd
  · cases hd
  rename_i hlength
  exact ⟨not_not.mp hmagic, not_not.mp hversion, not_not.mp hheader, not_not.mp htotal, not_lt.mp hlength, hd⟩

theorem decodeRecord_record_iff : decodeRecord raw = .record r n ↔ r.Readable ∧ n = r.encodedLength ∧ r.image <+: raw := by
  constructor
  · intro hd
    unfold decodeRecord at hd
    split at hd
    · cases hd
    rename_i hlong
    have hlong : walHeaderLength ≤ raw.length := not_lt.mp hlong
    obtain ⟨h, hh⟩ : ∃ h, WireHeader.unpack (raw.take walHeaderLength) = h := ⟨_, rfl⟩
    have hpack : h.pack = raw.take walHeaderLength := by
      rw [← hh]
      exact WireHeader.pack_unpack (length_take_of_le hlong)
    rw [hh] at hd
    obtain ⟨hmagic, hversion, hheader, htotal, hle, hd⟩ := decodeHeaded_record hd
    obtain ⟨rfl, hsemantics, hsum, hr⟩ := decodeBody_record hd
    obtain ⟨htype, hformat, hflags, hlsn, hepoch, htxn, hdescriptor, hpayload⟩ := WireHeader.record?_some hr
    obtain ⟨body, hbody⟩ : ∃ body, (raw.take h.totalLength).take (h.totalLength - checksumLength) = body := ⟨_, rfl⟩
    rw [hbody] at hsum hdescriptor hpayload
    have hbodyLength : body.length = walHeaderLength + h.descriptorLength + h.payloadLength := by
      rw [← hbody, length_take, length_take]
      omega
    have hdlen : r.descriptor.length = h.descriptorLength := by
      rw [hdescriptor, length_take, length_drop]
      omega
    have hplen : r.payload.length = h.payloadLength := by
      rw [hpayload, length_drop]
      omega
    have hencoded : r.encodedLength = h.totalLength := by
      rw [WalRecord.encodedLength, hdlen, hplen, htotal, hheader]
    have hsame : r.header = h := by
      unfold WalRecord.header
      rw [hencoded, hformat, htype, hflags, hlsn, hepoch, htxn, hdlen, hplen, ← hmagic, ← hheader]
    have hbody' : r.body = body := by
      have htake : body.take walHeaderLength = h.pack := by
        rw [hpack, ← hbody, take_take, take_take]
        congr 1
        omega
      have hsplit : body.drop walHeaderLength = r.descriptor ++ r.payload := by
        rw [hdescriptor, hpayload, ← drop_drop, hheader, take_append_drop]
      rw [WalRecord.body, hsame, ← htake, ← hsplit, take_append_drop]
    have himage : r.image = raw.take h.totalLength := by
      have hstored : ((raw.take h.totalLength).drop (h.totalLength - checksumLength)).length = checksumLength := by
        rw [length_drop, length_take, min_eq_left hle, htotal]
        omega
      have hback := littleEndian_ofLittleEndian ((raw.take h.totalLength).drop (h.totalLength - checksumLength))
      rw [hstored, hsum] at hback
      rw [WalRecord.image, hbody', hback, ← hbody, take_append_drop]
    have hbound : r.encodedLength < 256 ^ 4 := by
      rw [hencoded, ← hh]
      exact (ofLittleEndian_lt _).trans_le (Nat.pow_le_pow_right (by decide) (length_take_le 4 _))
    refine ⟨⟨hformat ▸ hversion, hsemantics, Nat.le_of_lt_succ hbound⟩, hencoded.symm, ?_⟩
    rw [himage]
    exact take_prefix _ _
  · rintro ⟨hr, rfl, rest, rfl⟩
    exact decodeRecord_image hr rest

/-! ## Every outcome -/

def decodeRecordAt (window : Bytes) (offset : ℤ) : DecodeOutcome :=
  if offset < 0 then .failure .badHeader 0 else decodeRecord (window.drop offset.toNat)

def Checksummed (raw : Bytes) (n : ℕ) : Prop :=
  n ≤ raw.length ∧ ofLittleEndian ((raw.take n).drop (n - checksumLength)) = (crc32c ((raw.take n).take (n - checksumLength))).toNat

variable {reason : FailureReason}

theorem decodeBody_failure {image : Bytes} (hd : decodeBody image h = .failure reason n) : reason ≠ .lsnDiscontinuity ∧
    (n = 0 ∨ n = h.totalLength ∧
      ofLittleEndian (image.drop (h.totalLength - checksumLength)) = (crc32c (image.take (h.totalLength - checksumLength))).toNat) := by
  unfold decodeBody at hd
  dsimp only at hd
  split at hd
  · cases hd
    exact ⟨by decide, .inl rfl⟩
  rename_i hsum
  have hsum := not_not.mp hsum
  split at hd
  · cases hd
    exact ⟨by decide, .inr ⟨rfl, hsum⟩⟩
  split at hd
  · cases hd
    exact ⟨by decide, .inr ⟨rfl, hsum⟩⟩
  split at hd
  · cases hd
  · cases hd
    exact ⟨by decide, .inr ⟨rfl, hsum⟩⟩

theorem decodeRecord_failure (hd : decodeRecord raw = .failure reason n) :
    reason ≠ .lsnDiscontinuity ∧ (n = 0 ∨ reason = .truncatedTail ∧ n = raw.length ∨ Checksummed raw n) := by
  unfold decodeRecord at hd
  split at hd
  · cases hd
    exact ⟨by decide, .inr (.inl ⟨rfl, rfl⟩)⟩
  unfold decodeHeaded at hd
  split at hd
  · cases hd
    exact ⟨by decide, .inl rfl⟩
  split at hd
  · cases hd
    exact ⟨by decide, .inl rfl⟩
  split at hd
  · cases hd
    exact ⟨by decide, .inl rfl⟩
  split at hd
  · cases hd
    exact ⟨by decide, .inl rfl⟩
  split at hd
  · cases hd
    exact ⟨by decide, .inr (.inl ⟨rfl, rfl⟩)⟩
  · rename_i hlength
    obtain ⟨hmarker, rfl | ⟨rfl, hsum⟩⟩ := decodeBody_failure hd
    · exact ⟨hmarker, .inl rfl⟩
    · exact ⟨hmarker, .inr (.inr ⟨not_lt.mp hlength, hsum⟩)⟩

theorem WalRecord.Readable.encode (hr : r.Readable) :
    r.encode = if isKnownRecordType r.recordType then .ok r.image else .error (.recordType r.recordType) := by
  split
  · rename_i hknown
    exact encode_ok_iff.mpr ⟨⟨hr.formatVersion, hknown, hr.semantics, hr.totalLength⟩, rfl⟩
  · rename_i hunknown
    rw [WalRecord.encode, Checked.ensure_pos hr.formatVersion, Checked.ok_bind, Checked.ensure, if_neg hunknown]
    rfl

/-- A record is read back where its encoding stands, and what decodes encodes to the bytes it was read from. Nothing
but a cut record or one whose checksum matched is stepped over. -/
theorem decodeRecordAt_exact (window : Bytes) (offset : ℤ) :
    (∀ r raw before rest, WalRecord.encode r = .ok raw → window = before ++ (raw ++ rest) → offset = before.length →
      decodeRecordAt window offset = .record r raw.length ∧ raw.length = r.encodedLength) ∧
    (∀ reason n, decodeRecordAt window offset = .failure reason n → n ≠ 0 →
      reason = .truncatedTail ∧ n = (window.drop offset.toNat).length ∨ Checksummed (window.drop offset.toNat) n) ∧
    ∀ r n, decodeRecordAt window offset = .record r n → n = r.encodedLength ∧
      r.encode = if isKnownRecordType r.recordType then .ok ((window.drop offset.toNat).take n) else .error (.recordType r.recordType) := by
  refine ⟨?_, ?_, ?_⟩
  · rintro r raw before rest hencode rfl rfl
    obtain ⟨hencodable, rfl⟩ := WalRecord.encode_ok_iff.mp hencode
    rw [decodeRecordAt, if_neg (Int.not_lt.mpr (Int.natCast_nonneg _)), Int.toNat_natCast, drop_left, decodeRecord_image hencodable.readable,
      WalRecord.image_length]
    exact ⟨rfl, rfl⟩
  · intro reason n hd hn
    unfold decodeRecordAt at hd
    split at hd
    · cases hd
      exact absurd rfl hn
    · exact (decodeRecord_failure hd).2.resolve_left hn
  · intro r n hd
    unfold decodeRecordAt at hd
    split at hd
    · cases hd
    · obtain ⟨hr, rfl, hfirst⟩ := decodeRecord_record_iff.mp hd
      rw [hr.encode, ← WalRecord.image_length, ← prefix_iff_eq_take.mp hfirst]
      exact ⟨rfl, rfl⟩

def laterRecord : WalRecord := { plainRecord .begin 1 1 with recordType := 99, recordType_le := by decide }

/-- A record of a type this build does not know is read and cannot be written. -/
theorem laterRecord_not_encoded :
    decodeRecordAt laterRecord.image 0 = .record laterRecord laterRecord.encodedLength ∧ laterRecord.encode = .error (.recordType 99) := by
  have hreadable : laterRecord.Readable := ⟨by decide, rfl, by decide⟩
  have hdecode := decodeRecord_image hreadable []
  rw [append_nil] at hdecode
  rw [decodeRecordAt, if_neg (Int.lt_irrefl 0), Int.toNat_zero, drop_zero, hdecode]
  exact ⟨rfl, rfl⟩

end Grafx.Log
