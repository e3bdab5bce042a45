import OktoGrafx.Domain.Page

/-! What the heap stores in a slot: directory entries on page 0, a table descriptor at the head of
each data page, record versions, and the chunks of overflow chains. -/

namespace Grafx

structure RecordFlags where
  deleted : Bool := false
  hasOverflow : Bool := false
  nodeLabels : Bool := false
  deriving DecidableEq, Repr

structure RecordHeader where
  recordId : ℕ
  xmin : ℕ
  xmax : ℕ := noCsn
  previous : Option RecordRef := none
  payloadLen : ℕ := 0
  schemaVersion : ℕ := 1
  flags : RecordFlags := {}
  deriving DecidableEq, Repr

def RecordHeader.endedAt (h : RecordHeader) (xmax : ℕ) (deleted : Bool) : RecordHeader :=
  { h with xmax := xmax, flags := { h.flags with deleted := h.flags.deleted || deleted } }

abbrev Payload := List UInt8

inductive RecordBody where
  | inline (payload : Payload)
  | overflow (firstPage : ℕ)
  deriving DecidableEq, Repr

structure TableExtent where
  tableId : ℕ
  firstPage : ℕ
  lastPage : ℕ
  pageCount : ℕ
  nextRecordId : ℕ
  deriving DecidableEq, Repr

inductive Cell where
  | heapHeader (reclaimFloor : ℕ)
  | extent (e : TableExtent)
  | descriptor (tableId : ℕ)
  | record (header : RecordHeader) (body : RecordBody)
  | chunk (bytes : Payload)
  deriving DecidableEq, Repr

def recordHeaderSize : ℕ := 40

def overflowPointerSize : ℕ := 4

def directoryEntrySize : ℕ := 24

def tableDescriptorSize : ℕ := 4

end Grafx
