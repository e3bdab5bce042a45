import OktoGrafx.Domain.Checksum
import OktoGrafx.Domain.Page
import OktoGrafx.Lib.Arena
import OktoGrafx.Lib.Checked

/-! Slotted pages down to their bytes: payloads grow up from the header, the slot directory grows
down from the end, and offsets, gaps and compaction are those of the code. -/

namespace Grafx.Slotted

open Buffer Checked

def minPageSize : ℕ := 512

def maxPageSize : ℕ := 32768

def maxU16 : ℕ := 0xFFFF

def maxU32 : ℕ := 0xFFFFFFFF

inductive HeaderField where
  | pageIndex | pageType | flags | pageLsn | seq | nextPage
  deriving DecidableEq, Repr

def HeaderField.maximum : HeaderField → ℕ
  | .pageIndex | .seq | .nextPage => maxU32
  | .pageType | .flags => maxU16
  | .pageLsn => maxU64

/-- Refusals of the page layout. An image names its page only when the caller said which it is. -/
inductive PageRefusal where
  | field (field : HeaderField) (value : ℕ)
  | pageSize (value : ℕ)
  | pageSizePower (value : ℕ)
  | pageFull (requested : ℕ) (available : ℤ) (page : ℕ) (slot : Option ℕ)
  | slot (page slot slotCount : ℕ)
  | freedSlot (page slot : ℕ)
  | replaceSize (value page : ℕ)
  | encodedField (value maximum : ℕ)
  | pageImage (length : ℕ) (page : Option ℕ)
  | pageHeader (length : ℕ)
  | checksum (stored computed : ℕ) (page : Option ℕ)
  | slotCount (slotCount directoryBytes : ℕ) (page : Option ℕ)
  | freeEnd (freeEnd slotCount : ℕ) (page : Option ℕ)
  | freeStart (freeStart freeEnd : ℕ) (page : Option ℕ)
  | slotEntry (slot offset length : ℕ) (page : Option ℕ)
  | overlap (offset overlap : ℕ) (page : Option ℕ)
  deriving DecidableEq, Repr

structure Page extends Arena Byte where
  pageSize : ℕ
  pageIndex : ℕ
  pageType : ℕ
  flags : ℕ
  pageLsn : ℕ
  seq : ℕ
  nextPage : ℕ
  reserved : ℕ
  dirty : Bool
  deriving DecidableEq

def validatePageSize (pageSize : ℕ) : Except PageRefusal Unit := do
  ensure (minPageSize ≤ pageSize ∧ pageSize ≤ maxPageSize) (.pageSize pageSize)
  ensure (pageSize &&& (pageSize - 1) = 0) (.pageSizePower pageSize)

def checkUnsigned (field : HeaderField) (value : ℕ) : Except PageRefusal Unit :=
  ensure (value ≤ field.maximum) (.field field value)

def Page.make (pageType pageSize pageIndex pageLsn seq flags nextPage : ℕ) : Except PageRefusal Page := do
  validatePageSize pageSize
  checkUnsigned .pageIndex pageIndex
  checkUnsigned .pageType pageType
  checkUnsigned .flags flags
  checkUnsigned .pageLsn pageLsn
  checkUnsigned .seq seq
  checkUnsigned .nextPage nextPage
  return { toArena := .empty 0 pageSize pageHeaderSize, pageSize, pageIndex, pageType, flags, pageLsn, seq, nextPage, reserved := 0, dirty := false }

namespace Page

/-! ## Geometry -/

def slotCount (p : Page) : ℕ := p.slots.length

def freeEnd (p : Page) : ℤ := p.pageSize - p.slots.length * slotEntrySize

def freeSpace (p : Page) : ℤ := p.freeEnd - p.freeStart

def canFit (p : Page) (payloadSize : ℕ) : Bool := decide ((payloadSize + slotEntrySize : ℤ) ≤ p.freeSpace)

def liveBytes (p : Page) : ℕ := ((p.slots.filter (· ≠ Arena.freeSlot)).map Prod.snd).sum

def compactableSpace (p : Page) : ℤ := p.freeEnd - pageHeaderSize - p.liveBytes

end Page

/-! ## Operations

An operation changes the page it is called on. What it did before it refused stays done. -/

abbrev PageM := EStateM PageRefusal Page

def Page.put (p : Page) (a : Arena Byte) (dirty : Bool) : Page := { p with toArena := a, dirty }

/-- Where the page lies is no change to it. -/
def Page.withField (p : Page) (field : HeaderField) (value : ℕ) : Page :=
  match field with
  | .pageIndex => { p with pageIndex := value }
  | .pageType => { p with pageType := value, dirty := true }
  | .flags => { p with flags := value, dirty := true }
  | .pageLsn => { p with pageLsn := value, dirty := true }
  | .seq => { p with seq := value, dirty := true }
  | .nextPage => { p with nextPage := value, dirty := true }

def setField (field : HeaderField) (value : ℕ) : PageM Unit := do
  if value ≤ field.maximum then modify (·.withField field value) else throw (.field field value)

def setDirty (value : Bool) : PageM Unit := modify ({ · with dirty := value })

def checkSlotRange (slot : ℕ) : PageM Unit := do
  let p ← get
  if slot < p.slotCount then return () else throw (.slot p.pageIndex slot p.slotCount)

def entry (slot : ℕ) : PageM Extent := do
  checkSlotRange slot
  let p ← get
  let e := p.slots.getD slot Arena.freeSlot
  if e = Arena.freeSlot then throw (.freedSlot p.pageIndex slot) else return e

/-- Only a fill mark that moved makes the page dirty. -/
def Page.compacted (p : Page) : Page :=
  let packed := Arena.repack 0 p.pageSize pageHeaderSize p.toArena
  p.put packed (p.dirty || decide (p.freeStart ≠ packed.freeStart))

def compact : PageM ℤ := do
  let before ← get
  set before.compacted
  return before.freeStart - before.compacted.freeStart

/-- Room is made by compacting where that is enough. -/
def roomForSlot (size : ℕ) : PageM Unit := do
  let p ← get
  if p.canFit size then return ()
  else if p.compactableSpace - slotEntrySize < size then throw (.pageFull (size + slotEntrySize) p.freeSpace p.pageIndex none)
  else discard compact

def insertSlot (payload : Bytes) : PageM ℕ := do
  roomForSlot payload.length
  modify fun p => p.put (p.toArena.push payload) true
  let p ← get
  return p.slotCount - 1

def roomForPayload (size : ℕ) : PageM Unit := do
  let p ← get
  if p.freeSpace < size then discard compact else return ()

def relocate (slot : ℕ) (e : Extent) (payload : Bytes) : PageM Unit := do
  modify fun p => p.put (p.toArena.erase 0 slot e) p.dirty
  roomForPayload payload.length
  modify fun p => p.put (p.toArena.place slot payload) true

def updateSlot (slot : ℕ) (payload : Bytes) : PageM Unit := do
  let e ← entry slot
  let p ← get
  if payload.length ≤ e.2 then
    modify fun p => p.put (p.toArena.shrink 0 slot e payload) true
  else if p.compactableSpace + e.2 < payload.length then
    throw (.pageFull payload.length (max (p.compactableSpace + e.2) 0) p.pageIndex (some slot))
  else relocate slot e payload

def freeSlot (slot : ℕ) : PageM ℕ := do
  let e ← entry slot
  modify fun p => p.put (p.toArena.erase 0 slot e) true
  return e.2

def clear : PageM Unit :=
  modify fun p => p.put (.empty 0 p.pageSize pageHeaderSize) true

def replaceWith (other : Page) : PageM Unit := do
  let p ← get
  if other.pageSize ≠ p.pageSize then throw (.replaceSize other.pageSize p.pageIndex)
  else set { other with pageSize := p.pageSize, pageIndex := p.pageIndex, dirty := true }

def Page.equal (p q : Page) : Bool :=
  decide (p.pageSize = q.pageSize ∧ p.pageType = q.pageType ∧ p.flags = q.flags ∧ p.pageLsn = q.pageLsn ∧ p.seq = q.seq ∧
    p.nextPage = q.nextPage ∧ p.slots = q.slots ∧
    slice p.data pageHeaderSize (p.freeStart - pageHeaderSize) = slice q.data pageHeaderSize (q.freeStart - pageHeaderSize))

end Grafx.Slotted
