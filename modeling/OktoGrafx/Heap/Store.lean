import OktoGrafx.Heap.Slotted

/-! The heap file as its store reads it. Page 0 carries the file header and the directory of
tables; a table is a chain of data pages, each with the table id in slot 0 and record versions
after it; a payload too large for a page stands in a chain of overflow pages. -/

namespace Grafx.Heap

def headerPageIndex : ℕ := 0

def firstRecordSlot : ℕ := 1

def firstRecordId : ℕ := 1

structure TableDef where
  tableId : ℕ
  schemaVersion : ℕ
  deriving DecidableEq, Repr

/-- A remembered tail, and the epoch of the walk that saw it. -/
structure TailHint where
  tail : ℕ
  length : ℕ
  epoch : ℕ
  deriving DecidableEq, Repr

structure ReuseCursor where
  floor : ℕ
  position : ℕ
  stop : ℕ
  deriving DecidableEq, Repr

/-- One participant's pages as its pool shows them, and what it remembers about chains. -/
structure HeapStore where
  pageSize : ℕ
  pages : List (Page Cell)
  abandoned : List ℕ := []
  tailCache : ℕ → Option TailHint := fun _ => none
  derivedEpoch : ℕ := 0
  reclaimCapable : Bool := false
  committedView : Option ℕ := none
  reuseCursor : Option ReuseCursor := none
  /-- How many leading bytes of a labelled payload are its labels. -/
  labelLength : Payload → Option ℕ := fun _ => none

def bootstrap (pageSize : ℕ) (labelLength : Payload → Option ℕ) : HeapStore :=
  { pageSize := pageSize
    pages := [(Page.empty .metaPage).appendSlot (.heapHeader 0)]
    labelLength := labelLength }

inductive HeapRefusal where
  | device
  | missingPage (page : ℕ)
  | headerPage
  | directoryEntry
  | firstPage (tableId : ℕ)
  | reservedHeaderPage (ref : RecordRef)
  | pageDescriptorSlot (ref : RecordRef)
  | unwrittenPage (page : ℕ)
  | pageType (page : ℕ)
  | missingPageDescriptor (page : ℕ)
  | pageDescriptor (page : ℕ)
  | tableId (page owner : ℕ)
  | cycle (page : ℕ)
  | chainLength
  | freedSlot (ref : RecordRef)
  | recordHeader (ref : RecordRef)
  | provisionalBirth (ref : RecordRef)
  | alreadyEnded (ref : RecordRef) (xmax : ℕ)
  | payloadLength (declared observed : ℕ)
  | noChunk (page : ℕ)
  | nodeLabels
  | pageFull (page : ℕ)
  | directoryFull (tableId : ℕ)
  | noExtent (tableId recordId : ℕ)
  | extentExists (tableId recordId : ℕ)
  | recordId (value : ℕ)
  | durableFloor (recordId floor : ℕ)
  | nextRecordId (value : ℕ)
  | commitNumber (value : ℕ)
  | reuse (page : ℕ)
  | overflowReuse (page : ℕ)
  | overflowReuseLsn (page pageLsn committedLsn : ℕ)
  | horizonLsn (value : ℕ)
  | maxVersions
  | vacuumTables
  | requiredCapabilities
  | vacuumCandidate
  | versionCycle (recordId : ℕ)
  | unrelatedHistory (ref : RecordRef)
  | overflowOwnership (page : ℕ)
  | overflowPayload (page : ℕ)
  deriving DecidableEq, Repr

/-! ## Page checks -/

def requireThat (c : Prop) [Decidable c] (e : HeapRefusal) : Except HeapRefusal Unit := if c then .ok () else .error e

def requireDataPage (index : ℕ) (p : Page Cell) : Except HeapRefusal Unit :=
  if p.pageType = .free ∧ p.slots = [] then .error (.unwrittenPage index)
  else if p.pageType ≠ .heap then .error (.pageType index)
  else match p.slots with
    | [] | none :: _ => .error (.missingPageDescriptor index)
    | some _ :: _ => .ok ()

def pageTableId (index : ℕ) (p : Page Cell) : Except HeapRefusal ℕ :=
  match p.slots with
  | some (.descriptor tableId) :: _ => .ok tableId
  | _ => .error (.pageDescriptor index)

def requireTablePage (tableId index : ℕ) (p : Page Cell) : Except HeapRefusal Unit := do
  requireDataPage index p
  let owner ← pageTableId index p
  if owner ≠ tableId then throw (.tableId index owner)

def requireHeaderPage (p : Page Cell) : Except HeapRefusal ℕ :=
  match p.pageType, p.slots with
  | .metaPage, some (.heapHeader reclaimFloor) :: _ => .ok reclaimFloor
  | _, _ => .error .headerPage

/-! ## The directory -/

def findEntry (tableId : ℕ) : ℕ → List (Option Cell) → Except HeapRefusal (Option (ℕ × TableExtent))
  | _, [] => .ok none
  | slot, none :: rest => findEntry tableId (slot + 1) rest
  | slot, some (.extent e) :: rest =>
    if e.tableId = tableId then .ok (some (slot, e)) else findEntry tableId (slot + 1) rest
  | _, some _ :: _ => .error .directoryEntry

def requireFirstPage (e : TableExtent) : Except HeapRefusal TableExtent :=
  if e.firstPage = headerPageIndex then .error (.firstPage e.tableId) else .ok e

def extentOf (tableId : ℕ) (header : Page Cell) : Except HeapRefusal (Option TableExtent) := do
  let _ ← requireHeaderPage header
  match ← findEntry tableId 1 header.slots.tail with
  | none => return none
  | some (_, e) => return some (← requireFirstPage e)

/-! ## Walks -/

structure StoredVersion where
  ref : RecordRef
  header : RecordHeader
  body : RecordBody
  deriving DecidableEq, Repr

def chainLimit (pages : List (Page Cell)) : ℕ := pages.length + 1

def slotVersions (index : ℕ) : ℕ → List (Option Cell) → Except HeapRefusal (List StoredVersion)
  | _, [] => .ok []
  | slot, none :: rest => slotVersions index (slot + 1) rest
  | slot, some (.record h body) :: rest => do
    let others ← slotVersions index (slot + 1) rest
    return ⟨⟨index, slot⟩, h, body⟩ :: others
  | slot, some _ :: _ => .error (.recordHeader ⟨index, slot⟩)

structure Walk where
  versions : List StoredVersion
  failure : Option HeapRefusal

def walkFrom (pages : List (Page Cell)) (tableId : ℕ) : ℕ → List ℕ → ℕ → Walk
  | 0, _, _ => ⟨[], some .chainLength⟩
  | fuel + 1, seen, index =>
    if index ∈ seen then ⟨[], some (.cycle index)⟩
    else match pages[index]? with
      | none => ⟨[], some (.missingPage index)⟩
      | some p =>
        match requireTablePage tableId index p with
        | .error e => ⟨[], some e⟩
        | .ok () =>
          match slotVersions index firstRecordSlot p.slots.tail with
          | .error e => ⟨[], some e⟩
          | .ok here =>
            match p.nextPage with
            | none => ⟨here, none⟩
            | some following =>
              let rest := walkFrom pages tableId fuel (index :: seen) following
              ⟨here ++ rest.versions, rest.failure⟩

def walk (pages : List (Page Cell)) (tableId : ℕ) : Walk :=
  match pages[headerPageIndex]? with
  | none => ⟨[], some .headerPage⟩
  | some header =>
    match extentOf tableId header with
    | .error e => ⟨[], some e⟩
    | .ok none => ⟨[], none⟩
    | .ok (some e) => walkFrom pages tableId (chainLimit pages) [] e.firstPage

/-! ## Payloads -/

def readChain (pages : List (Page Cell)) : ℕ → List ℕ → Option ℕ → Except HeapRefusal Payload
  | _, _, none => .ok []
  | 0, _, some _ => .error .chainLength
  | fuel + 1, visited, some index =>
    if index ∈ visited then .error (.cycle index)
    else match pages[index]? with
      | none => .error (.missingPage index)
      | some p =>
        if p.pageType ≠ .overflow then .error (.pageType index)
        else match p.slots with
          | some (.chunk bytes) :: _ => do
            let rest ← readChain pages fuel (index :: visited) p.nextPage
            return bytes ++ rest
          | _ => .error (.noChunk index)

def payloadOf (pages : List (Page Cell)) (h : RecordHeader) : RecordBody → Except HeapRefusal Payload
  | .inline payload => .ok payload
  | .overflow first => do
    let payload ← readChain pages (chainLimit pages) [] (some first)
    return payload.take h.payloadLen

structure HeapVersion where
  recordId : ℕ
  xmin : ℕ
  xmax : ℕ
  payload : Payload
  prev : Option RecordRef
  deleted : Bool
  labelled : Bool
  deriving DecidableEq, Repr

def decodeVersion (pages : List (Page Cell)) (h : RecordHeader) (body : RecordBody) : Except HeapRefusal HeapVersion := do
  let payload ← payloadOf pages h body
  if payload.length ≠ h.payloadLen then throw (.payloadLength h.payloadLen payload.length)
  return ⟨h.recordId, h.xmin, h.xmax, payload, h.previous, h.flags.deleted, h.flags.nodeLabels⟩

def decodeAll (pages : List (Page Cell)) : List StoredVersion → Except HeapRefusal (List (RecordRef × HeapVersion))
  | [] => .ok []
  | v :: rest => do
    let decoded ← decodeVersion pages v.header v.body
    let others ← decodeAll pages rest
    return (v.ref, decoded) :: others

/-! ## Reads -/

def visibleTo (snapshot : Snapshot) (v : StoredVersion) : Bool := snapshot.visible v.header.xmin v.header.xmax

def scan (pages : List (Page Cell)) (tableId : ℕ) (snapshot : Snapshot) :
    Except HeapRefusal (List (RecordRef × HeapVersion)) := do
  let found := walk pages tableId
  let rows ← decodeAll pages (found.versions.filter (visibleTo snapshot))
  match found.failure with
  | none => return rows
  | some e => throw e

def lookupWithRef (pages : List (Page Cell)) (tableId recordId : ℕ) (snapshot : Snapshot) :
    Except HeapRefusal (Option (RecordRef × HeapVersion)) :=
  let found := walk pages tableId
  match found.versions.find? fun v => v.header.recordId == recordId && visibleTo snapshot v with
  | some v => do
    let decoded ← decodeVersion pages v.header v.body
    return some (v.ref, decoded)
  | none => match found.failure with
    | none => .ok none
    | some e => .error e

def lookup (pages : List (Page Cell)) (tableId recordId : ℕ) (snapshot : Snapshot) :
    Except HeapRefusal (Option HeapVersion) := do
  let found ← lookupWithRef pages tableId recordId snapshot
  return found.map (·.2)

def readSlot (pages : List (Page Cell)) (ref : RecordRef) : Except HeapRefusal (ℕ × RecordHeader × RecordBody) :=
  if ref.page = headerPageIndex then .error (.reservedHeaderPage ref)
  else match pages[ref.page]? with
    | none => .error (.missingPage ref.page)
    | some p => do
      requireDataPage ref.page p
      let tableId ← pageTableId ref.page p
      requireThat (firstRecordSlot ≤ ref.slot) (.pageDescriptorSlot ref)
      match p.slots[ref.slot]? with
      | some (some (.record h body)) => return (tableId, h, body)
      | some (some _) => throw (.recordHeader ref)
      | _ => throw (.freedSlot ref)

/-- The version at a place, if the snapshot sees it. -/
def readIf (pages : List (Page Cell)) (ref : RecordRef) (snapshot : Snapshot) :
    Except HeapRefusal (Option (ℕ × HeapVersion)) := do
  let (tableId, h, body) ← readSlot pages ref
  if snapshot.visible h.xmin h.xmax then
    let decoded ← decodeVersion pages h body
    return some (tableId, decoded)
  else return none

end Grafx.Heap
