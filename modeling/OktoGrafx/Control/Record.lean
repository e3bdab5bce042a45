import OktoGrafx.Domain.Checksum
import OktoGrafx.Domain.Page
import OktoGrafx.Lib.Checked

/-! The pages of a two-slot control record: a header page that is written once, and slot pages that
each carry one payload under their own checksum. -/

namespace Grafx.Control

open List Checked ByteCodec

variable {body : Bytes} {t : PageType} {pageSize : ℕ}

inductive ControlField where
  | pageLength | pageHeader | checksum | headerLength | magic | formatVersion | headerCrc32c | controlBinding | payloadLength | generation | slots
  | currentPayload | publications | expectedCurrent | length
  deriving DecidableEq, Repr

inductive ControlRefusal where
  | configuration (field : ControlField) (value : ℕ)
  | corrupt (field : ControlField) (value : ℕ)
  | schema (version : ℕ)
  deriving DecidableEq, Repr

/-! ## Page headers -/

def checksumSize : ℕ := 4

def noPage : ℕ := 0xFFFFFFFF

def pageTypeCode : PageType → ℕ
  | .free => 0
  | .metaPage => 1
  | .heap => 2
  | .catalog => 3
  | .indexHash => 4
  | .indexHnsw => 5
  | .overflow => 6
  | .controlSlot => 7
  | .controlHeader => 8
  | .indexOrderedRoot => 9
  | .indexOrderedInternal => 10
  | .indexOrderedLeaf => 11

structure PageHeader where
  checksum : ℕ
  pageType : ℕ
  flags : ℕ
  pageLsn : ℕ
  seq : ℕ
  slotCount : ℕ
  freeStart : ℕ
  freeEnd : ℕ
  reserved : ℕ
  nextPage : ℕ
  deriving DecidableEq

def PageHeader.tail (h : PageHeader) : Bytes :=
  littleEndian 2 h.pageType ++ (littleEndian 2 h.flags ++ (littleEndian 8 h.pageLsn ++ (littleEndian 4 h.seq ++ (littleEndian 2 h.slotCount ++
    (littleEndian 2 h.freeStart ++ (littleEndian 2 h.freeEnd ++ (littleEndian 2 h.reserved ++ littleEndian 4 h.nextPage)))))))

def PageHeader.decode (raw : Bytes) : Except ControlRefusal PageHeader := do
  ensure (pageHeaderSize ≤ raw.length) (.corrupt .pageHeader raw.length)
  let (checksum, raw₁) := read checksumSize raw
  let (pageType, raw₂) := read 2 raw₁
  let (flags, raw₃) := read 2 raw₂
  let (pageLsn, raw₄) := read 8 raw₃
  let (seq, raw₅) := read 4 raw₄
  let (slotCount, raw₆) := read 2 raw₅
  let (freeStart, raw₇) := read 2 raw₆
  let (freeEnd, raw₈) := read 2 raw₇
  let (reserved, raw₉) := read 2 raw₈
  let (nextPage, _) := read 4 raw₉
  return { checksum, pageType, flags, pageLsn, seq, slotCount, freeStart, freeEnd, reserved, nextPage }

def controlPageHeader (pageType : PageType) (seq pageSize checksum : ℕ) : PageHeader :=
  ⟨checksum, pageTypeCode pageType, 0, 0, seq, 0, pageHeaderSize, pageSize, 0, noPage⟩

/-- A body behind its page header, under a checksum. -/
def page (pageType : PageType) (seq : ℕ) (body : Bytes) (pageSize : ℕ) : Except ControlRefusal Bytes := do
  ensure (body.length ≤ pageSize - pageHeaderSize) (.configuration .payloadLength body.length)
  let rest := (controlPageHeader pageType seq pageSize 0).tail ++ (body ++ replicate (pageSize - pageHeaderSize - body.length) 0)
  return littleEndian checksumSize (crc32c rest).toNat ++ rest

def Sealed (raw : Bytes) : Prop := ofLittleEndian (raw.take checksumSize) = (crc32c (raw.drop checksumSize)).toNat

instance (raw : Bytes) : Decidable (Sealed raw) := inferInstanceAs (Decidable (_ = _))

def checkedPage (raw : Bytes) (pageType : PageType) (pageSize : ℕ) : Except ControlRefusal Bytes := do
  ensure (raw.length = pageSize) (.corrupt .pageLength raw.length)
  let header ← PageHeader.decode raw
  ensure (header.checksum = (crc32c (raw.drop checksumSize)).toNat) (.corrupt .checksum header.checksum)
  ensure (header = controlPageHeader pageType header.seq pageSize header.checksum) (.corrupt .pageHeader header.pageType)
  return raw.drop pageHeaderSize

theorem PageHeader.tail_length (h : PageHeader) : h.tail.length = pageHeaderSize - checksumSize := by
  rfl

structure PageHeader.Fits (h : PageHeader) : Prop where
  checksum : h.checksum < 256 ^ 4
  pageType : h.pageType < 256 ^ 2
  flags : h.flags < 256 ^ 2
  pageLsn : h.pageLsn < 256 ^ 8
  seq : h.seq < 256 ^ 4
  slotCount : h.slotCount < 256 ^ 2
  freeStart : h.freeStart < 256 ^ 2
  freeEnd : h.freeEnd < 256 ^ 2
  reserved : h.reserved < 256 ^ 2
  nextPage : h.nextPage < 256 ^ 4

theorem PageHeader.decode_tail {h : PageHeader} (hfits : h.Fits) (rest : Bytes) :
    decode (littleEndian checksumSize h.checksum ++ (h.tail ++ rest)) = .ok h := by
  have hlength : pageHeaderSize ≤ (littleEndian checksumSize h.checksum ++ (h.tail ++ rest)).length := by
    rw [length_append, length_append, littleEndian_length, tail_length, ← add_assoc]
    exact Nat.le_add_right pageHeaderSize rest.length
  rw [decode, ensure_pos hlength, ok_bind]
  simp only [tail, append_assoc, checksumSize, read_append hfits.checksum, read_append hfits.pageType, read_append hfits.flags,
    read_append hfits.pageLsn, read_append hfits.seq, read_append hfits.slotCount, read_append hfits.freeStart, read_append hfits.freeEnd,
    read_append hfits.reserved, read_append hfits.nextPage]
  rfl

theorem PageHeader.decode_fits {raw : Bytes} {h : PageHeader} (hok : decode raw = .ok h) : h.Fits := by
  obtain ⟨_, -, hok⟩ := bind_ok_iff.mp hok
  obtain rfl := pure_ok_iff.mp hok
  exact ⟨read_lt _ _, read_lt _ _, read_lt _ _, read_lt _ _, read_lt _ _, read_lt _ _, read_lt _ _, read_lt _ _, read_lt _ _, read_lt _ _⟩

theorem PageHeader.decode_blank {raw : Bytes} {h : PageHeader} (hblank : ∀ b ∈ raw, b = 0) (hok : decode raw = .ok h) : h.freeEnd = 0 := by
  obtain ⟨_, -, hok⟩ := bind_ok_iff.mp hok
  obtain rfl := pure_ok_iff.mp hok
  have htype := (read_blank checksumSize hblank).2
  have hlsn := (read_blank 2 (read_blank 2 htype).2).2
  have hcount := (read_blank 4 (read_blank 8 hlsn).2).2
  exact (read_blank 2 (read_blank 2 (read_blank 2 hcount).2).2).1

theorem PageHeader.decode_sealed {seq checksum : ℕ} (hseq : seq < 256 ^ 4) (hsize : pageSize < 256 ^ 2)
    (hchecksum : checksum < 256 ^ 4) (rest : Bytes) :
    decode (littleEndian checksumSize checksum ++ ((controlPageHeader t seq pageSize 0).tail ++ rest)) =
      .ok (controlPageHeader t seq pageSize checksum) := by
  have htype : pageTypeCode t < 256 ^ 2 := by cases t <;> decide
  have hzero : ∀ w, 0 < 256 ^ w := fun w => Nat.pow_pos (by decide)
  have hstart : pageHeaderSize < 256 ^ 2 := by decide
  have hnext : noPage < 256 ^ 4 := by decide
  exact decode_tail (h := controlPageHeader t seq pageSize checksum)
    ⟨hchecksum, htype, hzero 2, hzero 8, hseq, hzero 2, hstart, hsize, hzero 2, hnext⟩ rest

theorem checkedPage_page {seq : ℕ} {raw : Bytes} (hseq : seq < 256 ^ 4) (hsize : pageHeaderSize ≤ pageSize)
    (hsize' : pageSize < 256 ^ 2) (h : page t seq body pageSize = .ok raw) :
    raw.length = pageSize ∧ checkedPage raw t pageSize = .ok (body ++ replicate (pageSize - pageHeaderSize - body.length) 0) := by
  obtain ⟨_, hfits, h⟩ := bind_ok_iff.mp h
  have hfits : body.length ≤ pageSize - pageHeaderSize := ensure_ok_iff.mp hfits
  obtain ⟨rest, hrest⟩ : ∃ rest, body ++ replicate (pageSize - pageHeaderSize - body.length) 0 = rest := ⟨_, rfl⟩
  rw [hrest] at h ⊢
  obtain rfl := pure_ok_iff.mp h
  have hbody : rest.length = pageSize - pageHeaderSize := by
    rw [← hrest, length_append, length_replicate]
    omega
  have hchecksum : (crc32c ((controlPageHeader t seq pageSize 0).tail ++ rest)).toNat < 256 ^ 4 := UInt32.toNat_lt _
  obtain ⟨c, hc⟩ : ∃ c, (crc32c ((controlPageHeader t seq pageSize 0).tail ++ rest)).toNat = c := ⟨_, rfl⟩
  rw [hc] at hchecksum ⊢
  have hlength : (littleEndian checksumSize c ++ ((controlPageHeader t seq pageSize 0).tail ++ rest)).length = pageSize := by
    rw [length_append, length_append, littleEndian_length, PageHeader.tail_length, hbody, ← add_assoc]
    exact Nat.add_sub_of_le hsize
  have hdrop : (littleEndian checksumSize c ++ ((controlPageHeader t seq pageSize 0).tail ++ rest)).drop checksumSize =
      (controlPageHeader t seq pageSize 0).tail ++ rest := drop_left' (littleEndian_length _ _)
  have hbehind : (littleEndian checksumSize c ++ ((controlPageHeader t seq pageSize 0).tail ++ rest)).drop pageHeaderSize = rest := by
    rw [← append_assoc]
    apply drop_left'
    rfl
  refine ⟨hlength, ?_⟩
  simp only [checkedPage, bind_ok_iff, ensure_ok_iff, pure_ok_iff]
  exact ⟨⟨⟩, hlength, _, PageHeader.decode_sealed hseq hsize' hchecksum rest, ⟨⟩, by rw [hdrop, hc]; rfl, ⟨⟩, rfl, hbehind⟩

theorem checkedPage_torn {raw : Bytes} (h : ¬ Sealed raw) : checkedPage raw t pageSize ≠ .ok body := by
  intro hok
  obtain ⟨_, -, hok⟩ := bind_ok_iff.mp hok
  obtain ⟨header, hheader, hok⟩ := bind_ok_iff.mp hok
  obtain ⟨_, hchecksum, -⟩ := bind_ok_iff.mp hok
  obtain ⟨_, -, hheader⟩ := bind_ok_iff.mp hheader
  obtain rfl := pure_ok_iff.mp hheader
  exact h (ensure_ok_iff.mp hchecksum)

/-! ## Bindings -/

def controlSlotFormatVersion : ℕ := 1

def controlHeaderMagic : Bytes := [0x4F, 0x4B, 0x54, 0x4F, 0x43, 0x54, 0x52, 0x4C]

def controlSlotMagic : Bytes := [0x4F, 0x4B, 0x54, 0x4F, 0x53, 0x4C, 0x4F, 0x54]

inductive ControlRecordKind where
  | lease | reader | commitState
  deriving DecidableEq, Repr

def ControlRecordKind.code : ControlRecordKind → ℕ
  | .lease => 1
  | .reader => 2
  | .commitState => 3

structure ControlBinding where
  pageSize : ℕ
  databaseUuid : Bytes
  recordKind : ControlRecordKind
  le_pageSize : 512 ≤ pageSize
  pageSize_le : pageSize ≤ 32768
  uuid_length : databaseUuid.length = 16

structure ControlHeader where
  fileNonce : ℕ
  nonce_le : fileNonce ≤ maxU64

section Codec
variable (b : ControlBinding)

def headerBodySize : ℕ := 64

def headerBody (h : ControlHeader) : Bytes :=
  controlHeaderMagic ++ (littleEndian 2 controlSlotFormatVersion ++ (littleEndian 2 b.recordKind.code ++ (littleEndian 4 b.pageSize ++
    (b.databaseUuid ++ (littleEndian 8 h.fileNonce ++ (littleEndian 8 1 ++ replicate 16 0))))))

def encodeHeader (h : ControlHeader) : Bytes :=
  headerBody b h ++ littleEndian checksumSize (crc32c (headerBody b h)).toNat

def headerPage (h : ControlHeader) : Except ControlRefusal Bytes := page .controlHeader 0 (encodeHeader b h) b.pageSize

def decodeHeader (raw : Bytes) : Except ControlRefusal ControlHeader := do
  let body ← checkedPage raw .controlHeader b.pageSize
  ensure (headerBodySize + checksumSize ≤ body.length) (.corrupt .headerLength body.length)
  let (version, raw₁) := read 2 (body.drop 8)
  let (kind, raw₂) := read 2 raw₁
  let (storedPageSize, raw₃) := read 4 raw₂
  let (nonce, raw₄) := read 8 (raw₃.drop 16)
  let (created, raw₅) := read 8 raw₄
  ensure (body.take 8 = controlHeaderMagic) (.corrupt .magic 0)
  ensure (version ≤ controlSlotFormatVersion) (.schema version)
  ensure (version = controlSlotFormatVersion) (.corrupt .formatVersion version)
  ensure (ofLittleEndian ((body.drop headerBodySize).take checksumSize) = (crc32c (body.take headerBodySize)).toNat) (.corrupt .headerCrc32c 0)
  ensure (kind = b.recordKind.code ∧ storedPageSize = b.pageSize ∧ raw₃.take 16 = b.databaseUuid ∧ created = 1 ∧
    raw₅.take 16 = replicate 16 0) (.corrupt .controlBinding kind)
  if h : nonce ≤ maxU64 then return ⟨nonce, h⟩ else .error (.corrupt .controlBinding nonce)

/-- A payload and its publication number; zero is a slot nothing was published on. -/
structure SlotRecord where
  generation : ℕ
  payload : Bytes
  deriving DecidableEq

def slotHeadSize : ℕ := 56

def maxPayload : ℕ := b.pageSize - pageHeaderSize - slotHeadSize - checksumSize

def slotRecord (h : ControlHeader) (x : SlotRecord) : Bytes :=
  controlSlotMagic ++ (littleEndian 2 controlSlotFormatVersion ++ (littleEndian 2 b.recordKind.code ++ (littleEndian 8 x.generation ++
    (littleEndian 4 x.payload.length ++ (littleEndian 4 0 ++ (b.databaseUuid ++ (littleEndian 8 h.fileNonce ++ (littleEndian 4 0 ++
      x.payload))))))))

def encodeSlot (h : ControlHeader) (x : SlotRecord) : Except ControlRefusal Bytes := do
  ensure (x.payload.length ≤ maxPayload b) (.configuration .payloadLength x.payload.length)
  ensure (x.generation ≤ maxU64) (.corrupt .generation x.generation)
  page .controlSlot (x.generation * 2 % 2 ^ 32) (slotRecord b h x ++ littleEndian checksumSize (crc32c (slotRecord b h x)).toNat) b.pageSize

/-- A later format is refused; anything else that is off is no record. -/
def decodeSlotBody (h : ControlHeader) (body : Bytes) : Except ControlRefusal (Option SlotRecord) := do
  let (version, raw₁) := read 2 (body.drop 8)
  let (kind, raw₂) := read 2 raw₁
  let (generation, raw₃) := read 8 raw₂
  let (payloadLength, raw₄) := read 4 raw₃
  let (reserved, raw₅) := read 4 raw₄
  let (nonce, raw₆) := read 8 (raw₅.drop 16)
  let (reserved₂, raw₇) := read 4 raw₆
  let stop := slotHeadSize + payloadLength
  ensure (version ≤ controlSlotFormatVersion) (.schema version)
  return if body.take 8 = controlSlotMagic ∧ version = controlSlotFormatVersion ∧ kind = b.recordKind.code ∧ reserved = 0 ∧ reserved₂ = 0 ∧
      raw₅.take 16 = b.databaseUuid ∧ nonce = h.fileNonce ∧ payloadLength ≤ maxPayload b ∧
      ofLittleEndian ((body.drop stop).take checksumSize) = (crc32c (body.take stop)).toNat ∧
      (generation = 0 → raw₇.take payloadLength = []) then
    some ⟨generation, raw₇.take payloadLength⟩
  else none

def decodeSlot (h : ControlHeader) (raw : Bytes) : Except ControlRefusal (Option SlotRecord) :=
  match checkedPage raw .controlSlot b.pageSize with
  | .ok body => if slotHeadSize + checksumSize ≤ body.length then decodeSlotBody b h body else .ok none
  | .error _ => .ok none

variable {b} {h : ControlHeader} {x : SlotRecord} {raw : Bytes}

theorem ControlRecordKind.code_lt (kind : ControlRecordKind) : kind.code < 256 ^ 2 := by cases kind <;> decide

theorem headerBody_length (h : ControlHeader) : (headerBody b h).length = headerBodySize := by
  simp only [headerBody, length_append, littleEndian_length, b.uuid_length, length_replicate]
  rfl

theorem headerPage_ok (h : ControlHeader) : ∃ raw, headerPage b h = .ok raw := by
  have hfits : (encodeHeader b h).length ≤ b.pageSize - pageHeaderSize := by
    have hsize := b.le_pageSize
    rw [encodeHeader, length_append, headerBody_length, littleEndian_length]
    simp only [headerBodySize, checksumSize, pageHeaderSize]
    omega
  rw [headerPage, page, ensure_pos hfits]
  exact ⟨_, rfl⟩

theorem checksummed {size : ℕ} (hbody : body.length = size) (zeros : Bytes) :
    (body ++ (littleEndian checksumSize (crc32c body).toNat ++ zeros)).take size = body ∧
      ofLittleEndian (((body ++ (littleEndian checksumSize (crc32c body).toNat ++ zeros)).drop size).take checksumSize) = (crc32c body).toNat ∧
      size + checksumSize ≤ (body ++ (littleEndian checksumSize (crc32c body).toNat ++ zeros)).length := by
  refine ⟨take_left' hbody, ?_, ?_⟩
  · rw [drop_left' hbody, take_left' (littleEndian_length _ _)]
    exact ofLittleEndian_littleEndian (UInt32.toNat_lt _)
  · rw [length_append, length_append, hbody, littleEndian_length, ← add_assoc]
    exact Nat.le_add_right _ _

theorem decodeHeader_headerPage (hraw : headerPage b h = .ok raw) : raw.length = b.pageSize ∧ decodeHeader b raw = .ok h := by
  obtain ⟨hlength, hchecked⟩ := checkedPage_page (by decide) (Nat.le_trans (by decide) b.le_pageSize)
    (b.pageSize_le.trans_lt (by decide)) hraw
  refine ⟨hlength, ?_⟩
  obtain ⟨zeros, hzeros⟩ : ∃ zeros, replicate (b.pageSize - pageHeaderSize - (encodeHeader b h).length) (0 : Byte) = zeros := ⟨_, rfl⟩
  rw [hzeros, encodeHeader, append_assoc] at hchecked
  have hsize : b.pageSize < 256 ^ 4 := b.pageSize_le.trans_lt (by decide)
  have hnonce : h.fileNonce < 256 ^ 8 := h.nonce_le.trans_lt (by decide)
  obtain ⟨htake, hcrc, hbody⟩ := checksummed (headerBody_length h) zeros
  generalize littleEndian checksumSize (crc32c (headerBody b h)).toNat ++ zeros = rest at hchecked htake hcrc hbody
  have hmagic : (headerBody b h ++ rest).take 8 = controlHeaderMagic := by
    rw [headerBody, append_assoc]
    exact take_left' rfl
  have hfields : (headerBody b h ++ rest).drop 8 = littleEndian 2 controlSlotFormatVersion ++ (littleEndian 2 b.recordKind.code ++
      (littleEndian 4 b.pageSize ++ (b.databaseUuid ++ (littleEndian 8 h.fileNonce ++ (littleEndian 8 1 ++ (replicate 16 0 ++ rest)))))) := by
    rw [headerBody]
    simp only [append_assoc]
    exact drop_left' rfl
  simp only [decodeHeader, bind_ok_iff, ensure_ok_iff]
  refine ⟨_, hchecked, ⟨⟩, hbody, ?_⟩
  simp only [hfields, hmagic, htake, hcrc, read_append (show controlSlotFormatVersion < 256 ^ 2 by decide), read_append b.recordKind.code_lt,
    read_append hsize, take_left' b.uuid_length, drop_left' b.uuid_length, read_append hnonce, read_append (show 1 < 256 ^ 8 by decide),
    take_left' (length_replicate (n := 16) (a := (0 : Byte)))]
  exact ⟨⟨⟩, trivial, ⟨⟩, le_rfl, ⟨⟩, trivial, ⟨⟩, trivial, ⟨⟩, ⟨trivial, trivial, trivial, trivial, trivial⟩, dif_pos h.nonce_le⟩

theorem slotRecord_length (h : ControlHeader) (x : SlotRecord) : (slotRecord b h x).length = slotHeadSize + x.payload.length := by
  simp only [slotRecord, length_append, littleEndian_length, b.uuid_length]
  show 8 + (2 + (2 + (8 + (4 + (4 + (16 + (8 + (4 + x.payload.length)))))))) = 56 + x.payload.length
  omega

theorem encodeSlot_ok (hfits : x.payload.length ≤ maxPayload b) (hgeneration : x.generation ≤ maxU64) : ∃ raw, encodeSlot b h x = .ok raw := by
  have hbody : (slotRecord b h x ++ littleEndian checksumSize (crc32c (slotRecord b h x)).toNat).length ≤ b.pageSize - pageHeaderSize := by
    have hsize := b.le_pageSize
    rw [length_append, slotRecord_length, littleEndian_length]
    simp only [maxPayload, slotHeadSize, checksumSize, pageHeaderSize] at hfits ⊢
    omega
  rw [encodeSlot, ensure_pos hfits, ok_bind, ensure_pos hgeneration, ok_bind, page, ensure_pos hbody]
  exact ⟨_, rfl⟩

theorem decodeSlot_encodeSlot (hempty : x.generation = 0 → x.payload = []) (hraw : encodeSlot b h x = .ok raw) :
    raw.length = b.pageSize ∧ decodeSlot b h raw = .ok (some x) := by
  obtain ⟨_, hfits, hraw⟩ := bind_ok_iff.mp hraw
  obtain ⟨_, hgeneration, hraw⟩ := bind_ok_iff.mp hraw
  have hfits := ensure_ok_iff.mp hfits
  have hgeneration : x.generation < 256 ^ 8 := (ensure_ok_iff.mp hgeneration).trans_lt (by decide)
  obtain ⟨hlength, hchecked⟩ := checkedPage_page (Nat.mod_lt _ (by decide)) (Nat.le_trans (by decide) b.le_pageSize)
    (b.pageSize_le.trans_lt (by decide)) hraw
  refine ⟨hlength, ?_⟩
  generalize replicate _ (0 : Byte) = zeros at hchecked
  rw [append_assoc] at hchecked
  have hnonce : h.fileNonce < 256 ^ 8 := h.nonce_le.trans_lt (by decide)
  have hpayload : x.payload.length < 256 ^ 4 := by
    have hsize := b.pageSize_le
    rw [maxPayload] at hfits
    omega
  obtain ⟨htake, hcrc, hwhole⟩ := checksummed (slotRecord_length h x) zeros
  generalize littleEndian checksumSize (crc32c (slotRecord b h x)).toNat ++ zeros = rest at hchecked htake hcrc hwhole
  have hbody : slotHeadSize + checksumSize ≤ (slotRecord b h x ++ rest).length := by omega
  have hmagic : (slotRecord b h x ++ rest).take 8 = controlSlotMagic := by
    rw [slotRecord, append_assoc]
    exact take_left' rfl
  have hfields : (slotRecord b h x ++ rest).drop 8 =
      littleEndian 2 controlSlotFormatVersion ++ (littleEndian 2 b.recordKind.code ++ (littleEndian 8 x.generation ++
        (littleEndian 4 x.payload.length ++ (littleEndian 4 0 ++ (b.databaseUuid ++ (littleEndian 8 h.fileNonce ++ (littleEndian 4 0 ++
          (x.payload ++ rest)))))))) := by
    rw [slotRecord]
    simp only [append_assoc]
    exact drop_left' rfl
  rw [decodeSlot, hchecked]
  simp only [if_pos hbody, decodeSlotBody, bind_ok_iff, ensure_ok_iff, pure_ok_iff]
  simp only [hfields, hmagic, read_append (show controlSlotFormatVersion < 256 ^ 2 by decide), read_append b.recordKind.code_lt,
    read_append hgeneration, read_append hpayload, read_append (show 0 < 256 ^ 4 by decide), take_left' b.uuid_length,
    drop_left' b.uuid_length, read_append hnonce, htake, hcrc, take_left]
  exact ⟨⟨⟩, le_rfl, if_pos ⟨trivial, trivial, trivial, trivial, trivial, trivial, trivial, hfits, trivial, hempty⟩⟩

theorem decodeSlot_torn (h : ControlHeader) (htorn : ¬ Sealed raw) : decodeSlot b h raw = .ok none := by
  unfold decodeSlot
  split
  · rename_i body hok
    exact absurd hok (checkedPage_torn htorn)
  · rfl

end Codec

end Grafx.Control
