import OktoGrafx.Control.Record
import OktoGrafx.Slotted.Geometry

/-! The image of a slotted page, and what its decoder accepts. -/

namespace Grafx.Slotted

open List Buffer Checked ByteCodec
open List (replicate)
open Control (PageHeader checksumSize)

/-! ## Encoding -/

def encodeSlotEntry (e : Extent) : Except PageRefusal Bytes := do
  ensure (e.1 ≤ maxU16) (.encodedField e.1 maxU16)
  ensure (e.2 ≤ maxU16) (.encodedField e.2 maxU16)
  return littleEndian 2 e.1 ++ littleEndian 2 e.2

def encodeDirectory (entries : List Extent) : Except PageRefusal Bytes := do
  let parts ← entries.reverse.mapM encodeSlotEntry
  return parts.flatten

def Page.header (p : Page) : PageHeader :=
  ⟨0, p.pageType, p.flags, p.pageLsn, p.seq, p.slotCount, p.freeStart, p.freeEnd.toNat, p.reserved, p.nextPage⟩

def encodeHeader (h : PageHeader) : Except PageRefusal Bytes := do
  ensure (h.checksum ≤ maxU32) (.encodedField h.checksum maxU32)
  ensure (h.pageType ≤ maxU16) (.encodedField h.pageType maxU16)
  ensure (h.flags ≤ maxU16) (.encodedField h.flags maxU16)
  ensure (h.pageLsn ≤ maxU64) (.encodedField h.pageLsn maxU64)
  ensure (h.seq ≤ maxU32) (.encodedField h.seq maxU32)
  ensure (h.slotCount ≤ maxU16) (.encodedField h.slotCount maxU16)
  ensure (h.freeStart ≤ maxU16) (.encodedField h.freeStart maxU16)
  ensure (h.freeEnd ≤ maxU16) (.encodedField h.freeEnd maxU16)
  ensure (h.reserved ≤ maxU16) (.encodedField h.reserved maxU16)
  ensure (h.nextPage ≤ maxU32) (.encodedField h.nextPage maxU32)
  return littleEndian checksumSize h.checksum ++ h.tail

def Page.toBytes (p : Page) : Except PageRefusal Bytes := do
  let blank := replicate p.pageSize 0
  let image := write blank pageHeaderSize (slice p.data pageHeaderSize (p.freeStart - pageHeaderSize))
  let directory ← encodeDirectory p.slots
  let image := write image (p.pageSize - p.slots.length * slotEntrySize) directory
  let header ← encodeHeader p.header
  let image := write image 0 header
  return write image 0 (littleEndian checksumSize (crc32c (slice image checksumSize (p.pageSize - checksumSize))).toNat)

def isUnwrittenImage (raw : Bytes) (pageSize : ℕ) : Bool :=
  decide (raw.length = pageSize) && decide (0 < pageSize) && raw.all (· = 0)

/-! ## Decoding -/

def entryAt (raw : Bytes) (position : ℕ) : Extent :=
  let (offset, rest) := read 2 (raw.drop position)
  let (length, _) := read 2 rest
  (offset, length)

def storedEntries (raw : Bytes) (header : PageHeader) : List Extent :=
  (range header.slotCount).map fun slot => entryAt raw (header.freeEnd + (header.slotCount - slot - 1) * slotEntrySize)

def checkEntry (freeStart : ℕ) (pageIndex : Option ℕ) (x : Extent × ℕ) : Except PageRefusal Unit :=
  ensure (x.1 = Arena.freeSlot ∨ pageHeaderSize ≤ x.1.1 ∧ x.1.1 + x.1.2 ≤ freeStart) (.slotEntry x.2 x.1.1 x.1.2 pageIndex)

def occupied (entries : List Extent) : List (ℕ × ℕ) := (entries.filter (· ≠ Arena.freeSlot)).map fun e => (e.1, e.1 + e.2)

def sweep (pageIndex : Option ℕ) : List (ℕ × ℕ) → Except PageRefusal Unit
  | a :: b :: rest => if b.1 < a.2 then .error (.overlap a.1 (a.2 - b.1) pageIndex) else sweep pageIndex (b :: rest)
  | _ => .ok ()

def decodeDirectory (raw : Bytes) (header : PageHeader) (size : ℕ) (pageIndex : Option ℕ) : Except PageRefusal (List Extent) := do
  let directoryBytes := header.slotCount * slotEntrySize
  ensure (pageHeaderSize + directoryBytes ≤ size) (.slotCount header.slotCount directoryBytes pageIndex)
  ensure (header.freeEnd = size - directoryBytes) (.freeEnd header.freeEnd header.slotCount pageIndex)
  ensure (pageHeaderSize ≤ header.freeStart ∧ header.freeStart ≤ header.freeEnd) (.freeStart header.freeStart header.freeEnd pageIndex)
  let entries := storedEntries raw header
  entries.zipIdx.forM (checkEntry header.freeStart pageIndex)
  sweep pageIndex ((occupied entries).insertionSort rangeLe)
  return entries

def fromDecoded (header : PageHeader) (entries : List Extent) (raw : Bytes) (pageSize : ℕ) (pageIndex : Option ℕ) :
    Except PageRefusal Page := do
  let p ← Page.make header.pageType pageSize (pageIndex.getD 0) header.pageLsn header.seq header.flags header.nextPage
  let data := write p.data pageHeaderSize (slice raw pageHeaderSize (header.freeStart - pageHeaderSize))
  return { p.put ⟨entries, data, header.freeStart⟩ false with reserved := header.reserved }

def fromBytes (raw : Bytes) (pageSize pageIndex : Option ℕ) (verify : Bool) : Except PageRefusal Page := do
  -- without a declared size the image defines it
  let size := pageSize.getD raw.length
  validatePageSize size
  ensure (raw.length = size) (.pageImage raw.length pageIndex)
  let header ← (PageHeader.decode raw).mapError fun _ => .pageHeader raw.length
  let expected := (crc32c (slice raw checksumSize (size - checksumSize))).toNat
  ensure (verify = true → expected = header.checksum) (.checksum header.checksum expected pageIndex)
  let entries ← decodeDirectory raw header size pageIndex
  fromDecoded header entries raw size pageIndex

/-! ## What the decoder accepts -/

variable {raw : Bytes} {header : PageHeader} {entries : List Extent} {size freeStart : ℕ} {pageSize pageIndex : Option ℕ}
  {verify : Bool} {p : Page}

theorem sweep_ok_iff (rs : List (ℕ × ℕ)) : sweep pageIndex rs = .ok () ↔ rs.IsChain fun a b => a.2 ≤ b.1 := by
  induction rs with
  | nil => exact ⟨fun _ => .nil, fun _ => rfl⟩
  | cons a rs ih =>
    cases rs with
    | nil => exact ⟨fun _ => .singleton a, fun _ => rfl⟩
    | cons b rs =>
      rw [isChain_cons_cons, ← ih, sweep]
      split
      · rename_i hlt
        exact ⟨nofun, fun h => absurd h.1 (not_le.mpr hlt)⟩
      · rename_i hle
        exact ⟨fun h => ⟨not_lt.mp hle, h⟩, fun h => h.2⟩

theorem sweep_sorted_iff (entries : List Extent) :
    sweep pageIndex ((occupied entries).insertionSort rangeLe) = .ok () ↔ entries.Pairwise Apart := by
  have hperm := perm_insertionSort rangeLe (occupied entries)
  have hrange : ∀ r ∈ (occupied entries).insertionSort rangeLe, r.1 ≤ r.2 := by
    intro r hr
    obtain ⟨e, -, rfl⟩ := mem_map.mp (hperm.mem_iff.mp hr)
    exact Nat.le_add_right _ _
  rw [sweep_ok_iff, neighbours_apart (pairwise_insertionSort rangeLe _) hrange, hperm.pairwise_iff fun h => Or.symm h, occupied,
    pairwise_map, pairwise_filter]
  constructor
  · intro h
    apply h.imp
    intro a b hab
    by_cases ha : a = Arena.freeSlot
    · rw [ha]
      exact apart_empty b
    · by_cases hb : b = Arena.freeSlot
      · rw [hb]
        exact (apart_empty a).symm
      · exact hab (by simpa using ha) (by simpa using hb)
  · intro h
    exact h.imp fun hab _ _ => hab

theorem checkEntries_ok_iff : entries.zipIdx.forM (checkEntry freeStart pageIndex) = .ok () ↔
    ∀ e ∈ entries, e ≠ Arena.freeSlot → pageHeaderSize ≤ e.1 ∧ e.1 + e.2 ≤ freeStart := by
  rw [forM_ok_iff]
  constructor
  · intro h e he hlive
    obtain ⟨i, hi, rfl⟩ := getElem_of_mem he
    have := h (entries[i], i) (by rw [mem_zipIdx_iff_getElem?]; exact getElem?_eq_getElem hi)
    exact (ensure_ok_iff.mp this).resolve_left hlive
  · intro h x hx
    apply ensure_ok_iff.mpr
    by_cases hlive : x.1 = Arena.freeSlot
    · exact .inl hlive
    · exact .inr (h x.1 (fst_mem_of_mem_zipIdx hx) hlive)

theorem decodeDirectory_ok_iff : decodeDirectory raw header size pageIndex = .ok entries ↔
    pageHeaderSize + header.slotCount * slotEntrySize ≤ size ∧ header.freeEnd = size - header.slotCount * slotEntrySize ∧
      (pageHeaderSize ≤ header.freeStart ∧ header.freeStart ≤ header.freeEnd) ∧ entries = storedEntries raw header ∧
      (∀ e ∈ entries, e ≠ Arena.freeSlot → pageHeaderSize ≤ e.1 ∧ e.1 + e.2 ≤ header.freeStart) ∧ entries.Pairwise Apart := by
  simp only [decodeDirectory, bind_ok_iff, ensure_ok_iff, pure_ok_iff]
  constructor
  · rintro ⟨_, hcount, _, hend, _, hstart, _, hentries, _, hsweep, rfl⟩
    exact ⟨hcount, hend, hstart, rfl, checkEntries_ok_iff.mp hentries, (sweep_sorted_iff _).mp hsweep⟩
  · rintro ⟨hcount, hend, hstart, rfl, hentries, hsweep⟩
    exact ⟨⟨⟩, hcount, ⟨⟩, hend, ⟨⟩, hstart, ⟨⟩, checkEntries_ok_iff.mpr hentries, ⟨⟩, (sweep_sorted_iff _).mpr hsweep, rfl⟩

structure Accepted (raw : Bytes) (pageIndex : Option ℕ) (verify : Bool) (header : PageHeader) (p : Page) : Prop where
  size : validatePageSize raw.length = .ok ()
  head : PageHeader.decode raw = .ok header
  checksum : verify = true → (crc32c (slice raw checksumSize (raw.length - checksumSize))).toNat = header.checksum
  directory : decodeDirectory raw header raw.length pageIndex = .ok p.slots
  decoded : fromDecoded header p.slots raw raw.length pageIndex = .ok p

theorem fromDecoded_ok_iff : fromDecoded header entries raw size pageIndex = .ok p ↔
    validatePageSize size = .ok () ∧ (∀ f, p.field f ≤ f.maximum) ∧
      p = { slots := entries, freeStart := header.freeStart,
            data := write (replicate size 0) pageHeaderSize (slice raw pageHeaderSize (header.freeStart - pageHeaderSize)),
            pageSize := size, pageIndex := pageIndex.getD 0, pageType := header.pageType, flags := header.flags, pageLsn := header.pageLsn,
            seq := header.seq, nextPage := header.nextPage, reserved := header.reserved, dirty := false } := by
  simp only [fromDecoded, bind_ok_iff, pure_ok_iff, make_ok_iff]
  constructor
  · rintro ⟨q, ⟨hsize, hfields, rfl⟩, rfl⟩
    refine ⟨hsize, ?_, rfl⟩
    intro f
    have := hfields f
    cases f <;> exact this
  · rintro ⟨hsize, hfields, rfl⟩
    refine ⟨_, ⟨hsize, ?_, rfl⟩, rfl⟩
    intro f
    have := hfields f
    cases f <;> exact this

theorem fromBytes_ok_iff : fromBytes raw pageSize pageIndex verify = .ok p ↔
    (∀ n ∈ pageSize, raw.length = n) ∧ ∃ header, Accepted raw pageIndex verify header p := by
  have hsize : raw.length = pageSize.getD raw.length ↔ ∀ n ∈ pageSize, raw.length = n := by
    cases pageSize with
    | none => exact ⟨nofun, fun _ => rfl⟩
    | some n => exact ⟨fun h m hm => (Option.mem_some.mp hm) ▸ h, fun h => h n rfl⟩
  simp only [fromBytes, bind_ok_iff, ensure_ok_iff, mapError_ok_iff]
  constructor
  · rintro ⟨_, hvalid, _, hlength, header, hheader, _, hchecksum, entries, hdirectory, hdecoded⟩
    rw [← hlength] at hvalid hchecksum hdirectory hdecoded
    have hslots : p.slots = entries := by rw [(fromDecoded_ok_iff.mp hdecoded).2.2]
    subst hslots
    exact ⟨hsize.mp hlength, header, hvalid, hheader, hchecksum, hdirectory, hdecoded⟩
  · rintro ⟨hlength, header, h⟩
    have hlength := hsize.mpr hlength
    rw [← hlength]
    exact ⟨⟨⟩, h.size, ⟨⟩, rfl, header, h.head, ⟨⟩, h.checksum, p.slots, h.directory, h.decoded⟩

theorem Accepted.valid (h : Accepted raw pageIndex verify header p) : p.Valid := by
  obtain ⟨hcount, hend, ⟨hstart, hbelow⟩, -, hinside, hapart⟩ := decodeDirectory_ok_iff.mp h.directory
  obtain ⟨hsize, hfields, hp⟩ := fromDecoded_ok_iff.mp h.decoded
  have hmark : p.freeStart = header.freeStart := by rw [hp]
  have hslots : p.slots.length = header.slotCount := by
    rw [(decodeDirectory_ok_iff.mp h.directory).2.2.2.1, storedEntries, length_map, length_range]
  have hpayload : (slice raw pageHeaderSize (header.freeStart - pageHeaderSize)).length = header.freeStart - pageHeaderSize :=
    length_slice (by omega)
  have hwrite : pageHeaderSize + (slice raw pageHeaderSize (header.freeStart - pageHeaderSize)).length ≤
      (replicate raw.length (0 : Byte)).length := by
    rw [hpayload, length_replicate]
    omega
  have hlength : p.data.length = p.pageSize := by
    rw [hp]
    rw [length_write hwrite, length_replicate]
  have hpageSize : p.pageSize = raw.length := by rw [hp]
  refine ⟨hpageSize ▸ hsize, ⟨hmark ▸ hstart, ?_, ?_, hapart, ?_⟩, hlength, ?_, hfields, ?_⟩
  · omega
  · rw [hmark]
    exact hinside
  · intro i hi
    have hdata : p.data = write (replicate raw.length 0) pageHeaderSize
        (slice raw pageHeaderSize (header.freeStart - pageHeaderSize)) := by rw [hp]
    rw [hdata, getD_write_outside (by omega) (by omega)]
    exact List.getElem?_getD_replicate_default_eq ..
  · rw [hslots, hmark, hpageSize]
    omega
  · have hreserved : p.reserved = header.reserved := by rw [hp]
    rw [hreserved]
    exact Nat.le_of_lt_succ (PageHeader.decode_fits h.head).reserved

/-! ## The image of a valid page -/

def entryBytes (e : Extent) : Bytes := littleEndian 2 e.1 ++ littleEndian 2 e.2

theorem entryBytes_length (e : Extent) : (entryBytes e).length = slotEntrySize := by
  rfl

def directoryBytes (entries : List Extent) : Bytes := entries.reverse.flatMap entryBytes

theorem directoryBytes_length (entries : List Extent) : (directoryBytes entries).length = entries.length * slotEntrySize := by
  rw [directoryBytes, length_flatMap, map_congr_left fun e _ => entryBytes_length e, map_const', sum_replicate,
    length_reverse]
  rfl

section
variable (h : ∀ e ∈ entries, e.1 ≤ maxU16 ∧ e.2 ≤ maxU16)
include h

theorem encodeDirectory_eq : encodeDirectory entries = .ok (directoryBytes entries) := by
  have hparts : entries.reverse.mapM encodeSlotEntry = .ok (entries.reverse.map entryBytes) := by
    apply mapM_ok
    intro e he
    obtain ⟨hoffset, hlength⟩ := h e (mem_reverse.mp he)
    rw [encodeSlotEntry, ensure_pos hoffset, ok_bind, ensure_pos hlength, ok_bind]
    rfl
  rw [encodeDirectory, hparts, ok_bind]
  rfl

omit h in
theorem entryAt_directory {front : Bytes} {k : ℕ} {e : Extent} (h : ∀ e ∈ entries, e.1 ≤ maxU16 ∧ e.2 ≤ maxU16)
    (hk : entries.reverse[k]? = some e) : entryAt (front ++ directoryBytes entries) (front.length + k * slotEntrySize) = e := by
  obtain ⟨hlt, hget⟩ := List.getElem?_eq_some_iff.mp hk
  obtain ⟨hoffset, hlength⟩ := h e (mem_reverse.mp (mem_of_getElem? hk))
  have hdrop : (front ++ directoryBytes entries).drop (front.length + k * slotEntrySize) =
      littleEndian 2 e.1 ++ (littleEndian 2 e.2 ++ (entries.reverse.drop (k + 1)).flatMap entryBytes) := by
    rw [← drop_drop, drop_left' rfl, directoryBytes, drop_flatMap entryBytes_length, drop_eq_getElem_cons hlt, hget,
      flatMap_cons, entryBytes, append_assoc]
  rw [entryAt, hdrop, read_append (Nat.lt_succ_of_le hoffset)]
  dsimp only
  rw [read_append (Nat.lt_succ_of_le hlength)]

theorem storedEntries_directory {front : Bytes} (hcount : header.slotCount = entries.length) (hend : header.freeEnd = front.length) :
    storedEntries (front ++ directoryBytes entries) header = entries := by
  apply ext_getElem
  · rw [storedEntries, length_map, length_range, hcount]
  · intro i hi hi'
    simp only [storedEntries, getElem_map, getElem_range, hcount, hend]
    apply entryAt_directory h
    rw [getElem?_reverse (by omega), getElem?_eq_some_iff]
    exact ⟨by omega, by congr 1; omega⟩

end

namespace Page

def payloadBytes (p : Page) : Bytes := slice p.data pageHeaderSize (p.freeStart - pageHeaderSize)

def body (p : Page) : Bytes :=
  p.payloadBytes ++ (replicate (p.pageSize - p.slots.length * slotEntrySize - p.freeStart) 0 ++ directoryBytes p.slots)

def imageChecksum (p : Page) : ℕ := (crc32c (p.header.tail ++ p.body)).toNat

def image (p : Page) : Bytes := littleEndian checksumSize p.imageChecksum ++ (p.header.tail ++ p.body)

theorem image_pieces (p : Page) : p.image = (littleEndian checksumSize p.imageChecksum ++ p.header.tail) ++ p.body := by
  rw [image, append_assoc]

theorem head_length (p : Page) : (littleEndian checksumSize p.imageChecksum ++ p.header.tail).length = pageHeaderSize := by
  rfl

namespace Valid
variable (h : p.Valid)
include h

theorem entries_le : ∀ e ∈ p.slots, e.1 ≤ maxU16 ∧ e.2 ≤ maxU16 := by
  intro e he
  by_cases hlive : e = Arena.freeSlot
  · rw [hlive]
    exact ⟨Nat.zero_le _, Nat.zero_le _⟩
  · have hin := h.sound.inside e he hlive
    have hroom := h.room
    have hsize := (validatePageSize_bounds h.size).2
    unfold maxPageSize at hsize
    unfold maxU16
    omega

theorem payloadBytes_length : p.payloadBytes.length = p.freeStart - pageHeaderSize := by
  have := h.sound.start
  have := h.sound.fits
  exact length_slice (by omega)

theorem freeEnd_toNat : p.freeEnd.toNat = p.pageSize - p.slots.length * slotEntrySize := by
  rw [h.freeEnd_eq, Int.toNat_natCast]

theorem header_le : p.header.pageType ≤ maxU16 ∧ p.header.flags ≤ maxU16 ∧ p.header.pageLsn ≤ maxU64 ∧ p.header.seq ≤ maxU32 ∧
    p.header.slotCount ≤ maxU16 ∧ p.header.freeStart ≤ maxU16 ∧ p.header.freeEnd ≤ maxU16 ∧ p.header.reserved ≤ maxU16 ∧
    p.header.nextPage ≤ maxU32 := by
  have hroom := h.room
  have hsize := (validatePageSize_bounds h.size).2
  have hend := h.freeEnd_toNat
  refine ⟨h.fields .pageType, h.fields .flags, h.fields .pageLsn, h.fields .seq, ?_, ?_, ?_, h.reserved, h.fields .nextPage⟩
  · show p.slots.length ≤ maxU16
    unfold slotEntrySize at hroom
    unfold maxPageSize at hsize
    unfold maxU16
    omega
  · show p.freeStart ≤ maxU16
    unfold maxPageSize at hsize
    unfold maxU16
    omega
  · show p.freeEnd.toNat ≤ maxU16
    unfold maxPageSize at hsize
    unfold maxU16
    omega

theorem body_length : p.body.length = p.pageSize - pageHeaderSize := by
  have hstart := h.sound.start
  have hroom := h.room
  rw [body, length_append, length_append, h.payloadBytes_length, length_replicate, directoryBytes_length]
  omega

theorem written : write (write (replicate p.pageSize 0) pageHeaderSize p.payloadBytes) (p.pageSize - p.slots.length * slotEntrySize)
    (directoryBytes p.slots) = replicate pageHeaderSize 0 ++ p.body := by
  have hstart := h.sound.start
  have hroom := h.room
  have hpayload := h.payloadBytes_length
  obtain ⟨space, hspace⟩ : ∃ space, p.pageSize - p.slots.length * slotEntrySize - p.freeStart = space := ⟨_, rfl⟩
  have hblank : replicate p.pageSize (0 : Byte) = replicate pageHeaderSize 0 ++ (replicate (p.freeStart - pageHeaderSize) 0 ++
      (replicate space 0 ++ replicate (p.slots.length * slotEntrySize) 0)) := by
    rw [← replicate_add, ← replicate_add, ← replicate_add]
    congr 1
    omega
  have hfirst : write (replicate p.pageSize 0) pageHeaderSize p.payloadBytes =
      replicate pageHeaderSize 0 ++ (p.payloadBytes ++ (replicate space 0 ++ replicate (p.slots.length * slotEntrySize) 0)) := by
    rw [hblank, write_middle length_replicate (by rw [hpayload, length_replicate])]
  have hpieces : replicate pageHeaderSize (0 : Byte) ++ (p.payloadBytes ++
      (replicate space 0 ++ replicate (p.slots.length * slotEntrySize) 0)) =
      (replicate pageHeaderSize 0 ++ (p.payloadBytes ++ replicate space 0)) ++
        (replicate (p.slots.length * slotEntrySize) 0 ++ []) := by
    simp only [append_assoc, append_nil]
  rw [hfirst, hpieces, write_middle, body, hspace]
  · simp only [append_assoc, append_nil]
  · rw [length_append, length_append, length_replicate, length_replicate, hpayload]
    omega
  · rw [directoryBytes_length, length_replicate]

theorem encodeHeader_eq : encodeHeader p.header = .ok (littleEndian checksumSize 0 ++ p.header.tail) := by
  obtain ⟨htype, hflags, hlsn, hseq, hcount, hstart, hend, hreserved, hnext⟩ := h.header_le
  simp only [encodeHeader, ensure_pos htype, ensure_pos hflags, ensure_pos hlsn, ensure_pos hseq, ensure_pos hcount, ensure_pos hstart,
    ensure_pos hend, ensure_pos hreserved, ensure_pos hnext, ok_bind]
  rfl

theorem toBytes_eq : p.toBytes = .ok p.image := by
  have hhead : (littleEndian checksumSize 0 ++ p.header.tail).length = (replicate pageHeaderSize (0 : Byte)).length := by
    rfl
  have hchecked : slice (littleEndian checksumSize 0 ++ (p.header.tail ++ p.body)) checksumSize (p.pageSize - checksumSize) =
      p.header.tail ++ p.body := by
    have hsize := (validatePageSize_bounds h.size).1
    rw [slice, drop_left' (littleEndian_length _ _), take_of_length_le]
    rw [length_append, PageHeader.tail_length, h.body_length]
    unfold minPageSize at hsize
    unfold pageHeaderSize checksumSize
    omega
  have hheaded : write (replicate pageHeaderSize 0 ++ p.body) 0 (littleEndian checksumSize 0 ++ p.header.tail) =
      littleEndian checksumSize 0 ++ (p.header.tail ++ p.body) := by
    exact write_front hhead
  have hwritten := h.written
  unfold payloadBytes at hwritten
  simp only [toBytes, encodeDirectory_eq h.entries_le, h.encodeHeader_eq, ok_bind, hwritten, hheaded, hchecked]
  have hsealed : (littleEndian checksumSize p.imageChecksum).length = (littleEndian checksumSize 0).length := by
    rw [littleEndian_length, littleEndian_length]
  exact congrArg Except.ok (write_front hsealed)

theorem image_length : p.image.length = p.pageSize := by
  have hsize := (validatePageSize_bounds h.size).1
  rw [image, length_append, length_append, littleEndian_length, PageHeader.tail_length, h.body_length]
  unfold minPageSize at hsize
  unfold pageHeaderSize checksumSize
  omega

theorem decode_image : PageHeader.decode p.image = .ok { p.header with checksum := p.imageChecksum } := by
  obtain ⟨htype, hflags, hlsn, hseq, hcount, hstart, hend, hreserved, hnext⟩ := h.header_le
  exact PageHeader.decode_tail (h := { p.header with checksum := p.imageChecksum })
    ⟨UInt32.toNat_lt _, Nat.lt_succ_of_le htype, Nat.lt_succ_of_le hflags, Nat.lt_succ_of_le hlsn, Nat.lt_succ_of_le hseq,
      Nat.lt_succ_of_le hcount, Nat.lt_succ_of_le hstart, Nat.lt_succ_of_le hend, Nat.lt_succ_of_le hreserved, Nat.lt_succ_of_le hnext⟩ p.body

theorem slice_payload : slice p.image pageHeaderSize (p.freeStart - pageHeaderSize) = p.payloadBytes := by
  rw [p.image_pieces, slice, drop_left' p.head_length, body, take_left' h.payloadBytes_length]

theorem stored_entries : storedEntries p.image { p.header with checksum := p.imageChecksum } = p.slots := by
  have hstart := h.sound.start
  have hroom := h.room
  have hfront : p.image = ((littleEndian checksumSize p.imageChecksum ++ p.header.tail) ++
      (p.payloadBytes ++ replicate (p.pageSize - p.slots.length * slotEntrySize - p.freeStart) 0)) ++ directoryBytes p.slots := by
    rw [p.image_pieces, body]
    simp only [append_assoc]
  rw [hfront]
  apply storedEntries_directory h.entries_le rfl
  show p.freeEnd.toNat = _
  rw [h.freeEnd_toNat, length_append, p.head_length, length_append, h.payloadBytes_length, length_replicate]
  omega

theorem data_eq : write (replicate p.pageSize 0) pageHeaderSize p.payloadBytes = p.data := by
  have hstart := h.sound.start
  have hfits := h.sound.fits
  have hlength := h.length
  have hpayload := h.payloadBytes_length
  have hwrite : pageHeaderSize + p.payloadBytes.length ≤ (replicate p.pageSize (0 : Byte)).length := by
    rw [hpayload, length_replicate]
    omega
  apply eq_of_getD 0
  · rw [length_write hwrite, length_replicate, hlength]
  · intro i _
    by_cases hi : pageHeaderSize ≤ i ∧ i < pageHeaderSize + p.payloadBytes.length
    · rw [getD_write_inside (by omega) hi.1 hi.2, payloadBytes, getD_slice (by omega), Nat.add_sub_of_le hi.1]
    · rw [getD_write_outside (by omega) hi, h.sound.blank i (by omega)]
      exact getElem?_getD_replicate_default_eq ..

theorem fromBytes_image {declared index : Option ℕ} (verify : Bool) (hdeclared : ∀ n ∈ declared, p.pageSize = n)
    (hindex : index.getD 0 ≤ maxU32) :
    fromBytes p.image declared index verify = .ok { p with pageIndex := index.getD 0, dirty := false } := by
  have hsize := (validatePageSize_bounds h.size).1
  have hroom := h.room
  have hlength := h.image_length
  rw [fromBytes_ok_iff]
  refine ⟨fun n hn => hlength.trans (hdeclared n hn), { p.header with checksum := p.imageChecksum }, ?_⟩
  refine ⟨hlength.symm ▸ h.size, h.decode_image, ?_, ?_, ?_⟩
  · intro _
    rw [hlength, image, slice, drop_left' (littleEndian_length _ _), take_of_length_le]
    · rfl
    · rw [length_append, PageHeader.tail_length, h.body_length]
      unfold minPageSize at hsize
      unfold pageHeaderSize checksumSize
      omega
  · rw [decodeDirectory_ok_iff, hlength]
    have hend := h.freeEnd_toNat
    have hstart := h.sound.start
    refine ⟨?_, hend, ⟨hstart, ?_⟩, h.stored_entries.symm, h.sound.inside, h.sound.apart⟩
    · show pageHeaderSize + p.slots.length * slotEntrySize ≤ p.pageSize
      omega
    · show p.freeStart ≤ p.freeEnd.toNat
      omega
  · rw [fromDecoded_ok_iff, hlength]
    refine ⟨h.size, ?_, ?_⟩
    · intro f
      have := h.fields f
      cases f with
      | pageIndex => exact hindex
      | _ => exact this
    · have hdata := h.data_eq
      rw [← h.slice_payload] at hdata
      show _ = ({ slots := p.slots, freeStart := p.freeStart, data := write _ _ (slice p.image pageHeaderSize (p.freeStart - pageHeaderSize)), .. } : Page)
      rw [hdata]
      rfl

theorem image_written : isUnwrittenImage p.image p.pageSize = false := by
  rw [Bool.eq_false_iff]
  intro hunwritten
  rw [isUnwrittenImage, Bool.and_eq_true, all_eq_true] at hunwritten
  have hblank := PageHeader.decode_blank (fun b hb => of_decide_eq_true (hunwritten.2 b hb)) h.decode_image
  have hblank : p.freeEnd.toNat = 0 := hblank
  have hstart := h.sound.start
  have hroom := h.room
  rw [h.freeEnd_toNat] at hblank
  unfold pageHeaderSize at hstart
  omega

end Valid

end Page

end Grafx.Slotted
