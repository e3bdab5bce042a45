import OktoGrafx.Heap.Store
import OktoGrafx.Lib.Fallible

/-! The writing side of the heap store. Every pin, allocation and device probe may be refused; what
was written before the refusal stays on the pages of the pool. -/

namespace Grafx.Heap

open Fallible (refuse read lift ask)

abbrev HeapM := Fallible HeapStore HeapRefusal

/-! ## The pool -/

def pin (index : ℕ) : HeapM (Page Cell) := do
  ask .device
  let s ← read
  match s.pages[index]? with
  | some p => pure p
  | none => refuse (.missingPage index)

def setPage (index : ℕ) (p : Page Cell) : HeapM Unit :=
  Fallible.update fun s => { s with pages := s.pages.set index p }

/-- The newest abandoned index whose device image is untouched; a claim found written is given up. -/
def reusableIndex : List ℕ → HeapM (Option ℕ)
  | [] => pure none
  | candidate :: older => do
    Fallible.update fun s => { s with abandoned := older }
    ask .device
    let s ← read
    if s.pages[candidate]? = some (Page.empty .free) then pure (some candidate) else reusableIndex older

/-- Abandoned pages are reused before the file grows. -/
def allocate (pageType : PageType) (reuse : Bool) : HeapM ℕ := do
  ask .device
  let s ← read
  let reused ← (if reuse then reusableIndex s.abandoned else pure none)
  match reused with
  | some index =>
    setPage index (Page.empty pageType)
    pure index
  | none =>
    ask .device
    let s ← read
    Fallible.update fun s => { s with pages := s.pages ++ [Page.empty pageType] }
    pure s.pages.length

/-! ## Overflow chains -/

def chunkCapacity (pageSize : ℕ) : ℕ := pageSize - pageHeaderSize - slotEntrySize

def cutPayload (capacity : ℕ) : ℕ → Payload → List Payload
  | 0, _ => []
  | _ + 1, [] => []
  | fuel + 1, payload => payload.take capacity :: cutPayload capacity fuel (payload.drop capacity)

def splitPayload (capacity : ℕ) (payload : Payload) : List Payload :=
  if payload = [] then [[]] else cutPayload capacity payload.length payload

def allocateMore : ℕ → HeapM (List ℕ)
  | 0 => pure []
  | missing + 1 => do
    let index ← allocate .overflow false
    let rest ← allocateMore missing
    pure (index :: rest)

/-- One chunk a page, linked to the page after it. -/
def fillChain (pageSize : ℕ) : List ℕ → List Payload → HeapM Unit
  | index :: rest, chunk :: chunks => do
    let p ← pin index
    let emptied := { p.clear with pageType := .overflow, nextPage := rest.head? }
    match emptied.insertSlot pageSize (.chunk chunk) with
    | none =>
      setPage index emptied
      refuse (.pageFull index)
    | some (filled, _) =>
      setPage index filled
      fillChain pageSize rest chunks
  | _, _ => pure ()

def requireDistinctReusablePages : List ℕ → Except HeapRefusal Unit
  | [] => .ok ()
  | index :: rest =>
    if index = headerPageIndex ∨ index ∈ rest then .error (.reuse index) else requireDistinctReusablePages rest

def writeChain (payload : Payload) (reuse : List ℕ) : HeapM (List ℕ) := do
  lift (requireDistinctReusablePages reuse)
  let s ← read
  if s.pages = [] then refuse .headerPage
  else do
    -- Reused pages change the structure of the file: what others remember about chains expires.
    (if reuse = [] then pure () else Fallible.update fun s => { s with derivedEpoch := s.derivedEpoch + 1 })
    let chunks := splitPayload (chunkCapacity s.pageSize) payload
    let reused := reuse.take chunks.length
    let fresh ← allocateMore (chunks.length - reused.length)
    let indices := reused ++ fresh
    fillChain s.pageSize indices chunks
    pure indices

/-- Retired overflow pages are empty FREE pages whose log position is committed. -/
def collectRetired (floor horizon stop count : ℕ) : ℕ → ℕ → List ℕ → HeapM (List ℕ)
  | 0, position, selected => do
    Fallible.update fun s => { s with reuseCursor := some ⟨floor, position, stop⟩ }
    pure selected
  | fuel + 1, position, selected =>
    if position < stop ∧ selected.length < count then do
      Fallible.update fun s => { s with reuseCursor := some ⟨floor, position + 1, stop⟩ }
      let p ← pin position
      if p.pageType ≠ .free then collectRetired floor horizon stop count fuel (position + 1) selected
      else if p.slots ≠ [] ∨ p.nextPage ≠ none ∨ p.flags ≠ 0 then refuse (.overflowReuse position)
      else if horizon < p.pageLsn then refuse (.overflowReuseLsn position p.pageLsn horizon)
      else if isCommittedCsn p.pageLsn then
        collectRetired floor horizon stop count fuel (position + 1) (selected ++ [position])
      else collectRetired floor horizon stop count fuel (position + 1) selected
    else do
      Fallible.update fun s => { s with reuseCursor := some ⟨floor, position, stop⟩ }
      pure selected

def pinHeader : HeapM (Page Cell × ℕ) := do
  let header ← pin headerPageIndex
  let floor ← lift (requireHeaderPage header)
  pure (header, floor)

def retiredOverflowCandidates (count : ℕ) : HeapM (List ℕ) := do
  let s ← read
  if !s.reclaimCapable then pure []
  else do
    let (_, floor) ← pinHeader
    match floor, s.committedView with
    | 0, _ | _, none => pure []
    | floor, some horizon =>
      ask .device
      let cursor : ReuseCursor := match s.reuseCursor with
        | some c => if c.floor = floor then c else ⟨floor, 1, s.pages.length⟩
        | none => ⟨floor, 1, s.pages.length⟩
      collectRetired floor horizon cursor.stop count (cursor.stop - cursor.position) cursor.position []

/-! ## Directory entries -/

def findExtent (tableId : ℕ) : HeapM (Option TableExtent) := do
  let header ← pin headerPageIndex
  lift (extentOf tableId header)

def writeExtent (e : TableExtent) : HeapM TableExtent := do
  let (header, _) ← pinHeader
  match ← lift (findEntry e.tableId 1 header.slots.tail) with
  | none => refuse .directoryEntry
  | some (slot, current) =>
    let s ← read
    let settled := { e with nextRecordId := max e.nextRecordId current.nextRecordId }
    match header.updateSlot s.pageSize slot (.extent settled) with
    | none => refuse (.pageFull headerPageIndex)
    | some header' =>
      setPage headerPageIndex header'
      pure settled

def emptyDataPage (tableId : ℕ) (p : Page Cell) : Page Cell :=
  { p.clear with pageType := .heap, nextPage := none }.appendSlot (.descriptor tableId)

/-- The entry of a table and its first page. The room for the entry is settled before the file grows. -/
def createExtent (table : TableDef) (nextRecordId : ℕ) : HeapM TableExtent := do
  let header ← pin headerPageIndex
  let s ← read
  if !header.canFit s.pageSize directoryEntrySize then refuse (.directoryFull table.tableId)
  else do
    let index ← allocate .heap true
    setPage index (emptyDataPage table.tableId (Page.empty .heap))
    let e : TableExtent := ⟨table.tableId, index, index, 1, nextRecordId⟩
    let header ← pin headerPageIndex
    match header.insertSlot s.pageSize (.extent e) with
    | none => refuse (.pageFull headerPageIndex)
    | some (header', _) =>
      setPage headerPageIndex header'
      pure e

def extentFor (table : TableDef) : HeapM TableExtent := do
  match ← findExtent table.tableId with
  | some e => pure e
  | none => createExtent table firstRecordId

/-! ## The tail of a table -/

def cacheIsUsable (tableId : ℕ) (e : TableExtent) (hint : TailHint) : HeapM Bool := do
  let s ← read
  if hint.epoch ≠ s.derivedEpoch then pure false
  else do
    let first ← pin e.firstPage
    match requireTablePage tableId e.firstPage first with
    | .error _ => pure false
    | .ok () =>
      let last ← pin hint.tail
      match requireTablePage tableId hint.tail last with
      | .error _ => pure false
      | .ok () => pure last.nextPage.isNone

def tailFrom (tableId : ℕ) : ℕ → List ℕ → ℕ → HeapM (ℕ × ℕ)
  | 0, _, _ => refuse .chainLength
  | fuel + 1, seen, index =>
    if index ∈ seen then refuse (.cycle index)
    else do
      let p ← pin index
      lift (requireTablePage tableId index p)
      match p.nextPage with
      | none => pure (index, seen.length + 1)
      | some following => tailFrom tableId fuel (index :: seen) following

def rememberTail (tableId tail length : ℕ) : HeapM Unit :=
  Fallible.update fun s =>
    { s with tailCache := Function.update s.tailCache tableId (some ⟨tail, length, s.derivedEpoch⟩) }

def forgetTail (tableId : ℕ) : HeapM Unit :=
  Fallible.update fun s => { s with tailCache := Function.update s.tailCache tableId none }

def walkTail (tableId : ℕ) (e : TableExtent) : HeapM (ℕ × ℕ) := do
  let s ← read
  let (tail, length) ← tailFrom tableId (chainLimit s.pages) [] e.firstPage
  rememberTail tableId tail length
  pure (tail, length)

/-- The chain is the truth; the entry and the remembered tail are hints about it. -/
def resolveTail (tableId : ℕ) (e : TableExtent) : HeapM (ℕ × ℕ) := do
  let s ← read
  match s.tailCache tableId with
  | none => walkTail tableId e
  | some hint =>
    if ← cacheIsUsable tableId e hint then pure (hint.tail, hint.length)
    else do
      forgetTail tableId
      walkTail tableId e

/-! ## Versions -/

def inlineCapacity (pageSize : ℕ) : ℕ := pageSize - pageHeaderSize - tableDescriptorSize - slotEntrySize * 2

/-- One slot on the tail page of a table; a full tail is linked to a new page last. -/
def append (table : TableDef) (e : TableExtent) (tail length : ℕ) (content : Cell) : HeapM RecordRef := do
  let s ← read
  let p ← pin tail
  if p.canFit s.pageSize content.size then
    if e.lastPage = tail ∧ e.pageCount = length then
      match p.insertSlot s.pageSize content with
      | none => refuse (.pageFull tail)
      | some (p', slot) =>
        setPage tail p'
        pure ⟨tail, slot⟩
    else do
      let _ ← writeExtent { e with lastPage := tail, pageCount := length }
      let p ← pin tail
      match p.insertSlot s.pageSize content with
      | none => refuse (.pageFull tail)
      | some (p', slot) =>
        setPage tail p'
        pure ⟨tail, slot⟩
  else do
    let index ← allocate .heap true
    let fresh := emptyDataPage table.tableId (Page.empty .heap)
    match fresh.insertSlot s.pageSize content with
    | none =>
      setPage index fresh
      refuse (.pageFull index)
    | some (filled, slot) =>
      setPage index filled
      let _ ← writeExtent { e with lastPage := index, pageCount := length + 1 }
      let p ← pin tail
      setPage tail { p with nextPage := some index }
      rememberTail table.tableId index (length + 1)
      pure ⟨index, slot⟩

def storeVersion (table : TableDef) (h : RecordHeader) (payload : Payload) (hint : Option TableExtent) :
    HeapM RecordRef := do
  let e ← hint.elim (extentFor table) pure
  let (tail, length) ← resolveTail table.tableId e
  let s ← read
  if recordHeaderSize + payload.length ≤ inlineCapacity s.pageSize then
    append table e tail length (.record h (.inline payload))
  else do
    let capacity := chunkCapacity s.pageSize
    let reuse ← retiredOverflowCandidates ((payload.length + capacity - 1) / capacity)
    let chain ← writeChain payload reuse
    match chain with
    | [] => refuse .chainLength
    | first :: _ =>
      append table e tail length (.record { h with flags := { h.flags with hasOverflow := true } } (.overflow first))

def requireCommitNumber (value : ℕ) : Except HeapRefusal Unit :=
  if value = 0 ∨ maxU64 < value then .error (.commitNumber value) else .ok ()

def requireRecordId (value : ℕ) : Except HeapRefusal Unit :=
  if maxU64 < value then .error (.recordId value) else .ok ()

/-- The payload, behind the encoded labels when given. -/
structure RowImage where
  labels : Option Payload
  values : Payload
  deriving DecidableEq, Repr

def RowImage.payload (row : RowImage) : Payload := row.labels.getD [] ++ row.values

def RowImage.header (row : RowImage) (table : TableDef) (recordId xmin : ℕ) (previous : Option RecordRef) : RecordHeader :=
  { recordId := recordId
    xmin := xmin
    xmax := noCsn
    previous := previous
    payloadLen := row.payload.length
    schemaVersion := table.schemaVersion
    flags := { nodeLabels := row.labels.isSome } }

/-- The floor is raised before the row is written. -/
def observeRecordIdExtent (table : TableDef) (recordId : ℕ) : HeapM TableExtent := do
  let e ← extentFor table
  if recordId < e.nextRecordId then pure e
  else if maxU64 ≤ recordId then refuse (.nextRecordId recordId)
  else do
    let updated := { e with nextRecordId := recordId + 1 }
    let _ ← writeExtent updated
    pure updated

def insert (table : TableDef) (recordId : ℕ) (row : RowImage) (xmin : ℕ) : HeapM RecordRef := do
  lift (requireCommitNumber xmin)
  lift (requireRecordId recordId)
  let e ← observeRecordIdExtent table recordId
  storeVersion table (row.header table recordId xmin none) row.payload (some e)

def insertReserved (table : TableDef) (recordId : ℕ) (row : RowImage) (xmin : ℕ) : HeapM RecordRef := do
  lift (requireCommitNumber xmin)
  lift (requireRecordId recordId)
  if recordId < firstRecordId then refuse (.recordId recordId)
  else do
    match ← findExtent table.tableId with
    | none => refuse (.noExtent table.tableId recordId)
    | some e =>
      if e.nextRecordId ≤ recordId then refuse (.durableFloor recordId e.nextRecordId)
      else storeVersion table (row.header table recordId xmin none) row.payload (some e)

def insertInitialReserved (table : TableDef) (recordId : ℕ) (row : RowImage) (xmin nextRecordId : ℕ) :
    HeapM RecordRef := do
  lift (requireCommitNumber xmin)
  lift (requireRecordId recordId)
  if nextRecordId < firstRecordId ∨ maxU64 < nextRecordId then refuse (.nextRecordId nextRecordId)
  else if recordId < firstRecordId ∨ nextRecordId ≤ recordId then refuse (.recordId recordId)
  else do
    match ← findExtent table.tableId with
    | some _ => refuse (.extentExists table.tableId recordId)
    | none =>
      let e ← createExtent table nextRecordId
      storeVersion table (row.header table recordId xmin none) row.payload (some e)

/-- A record of the table, born and not ended. -/
def endable (tableId : ℕ) (ref : RecordRef) (p : Page Cell) : Except HeapRefusal (RecordHeader × RecordBody) := do
  requireTablePage tableId ref.page p
  if ref.slot < firstRecordSlot then throw (.pageDescriptorSlot ref)
  match p.slots[ref.slot]? with
  | some (some (.record h body)) =>
    if isProvisionalCsn h.xmin then throw (.provisionalBirth ref)
    else if !isOpenEndCsn h.xmax then throw (.alreadyEnded ref h.xmax)
    else return (h, body)
  | some (some _) => throw (.recordHeader ref)
  | _ => throw (.freedSlot ref)

/-- Labels are handed on unless new ones are given. -/
def inheritLabels (s : HeapStore) (previous : RecordHeader) (body : RecordBody) (row : RowImage) :
    Except HeapRefusal RowImage :=
  if previous.flags.nodeLabels then do
    let version ← decodeVersion s.pages previous body
    match s.labelLength version.payload with
    | none => throw .nodeLabels
    | some length => return { row with labels := some (row.labels.getD (version.payload.take length)) }
  else return row

/-- A new version chained to the old one, which is ended on its page afterwards. -/
def update (table : TableDef) (ref : RecordRef) (row : RowImage) (xmin : ℕ) : HeapM RecordRef := do
  lift (requireCommitNumber xmin)
  let _ ← pinHeader
  if ref.page = headerPageIndex then refuse (.reservedHeaderPage ref)
  else do
    let old ← pin ref.page
    let (previous, body) ← lift (endable table.tableId ref old)
    ask .device
    let s ← read
    let written ← lift (inheritLabels s previous body row)
    let newRef ← storeVersion table (written.header table previous.recordId xmin (some ref)) written.payload none
    -- The pinned page as it is now: it may be the page that has just taken the new version.
    let s ← read
    match s.pages[ref.page]? with
    | none => refuse (.missingPage ref.page)
    | some old =>
      match old.updateSlot s.pageSize ref.slot (.record (previous.endedAt xmin false) body) with
      | none => refuse (.pageFull ref.page)
      | some ended =>
        setPage ref.page ended
        pure newRef

def endVersion (table : TableDef) (ref : RecordRef) (xmax : ℕ) (deleted : Bool) : HeapM Unit := do
  let _ ← pinHeader
  lift (requireCommitNumber xmax)
  if ref.page = headerPageIndex then refuse (.reservedHeaderPage ref)
  else do
    let p ← pin ref.page
    let (h, body) ← lift (endable table.tableId ref p)
    let s ← read
    match p.updateSlot s.pageSize ref.slot (.record (h.endedAt xmax deleted) body) with
    | none => refuse (.pageFull ref.page)
    | some ended => setPage ref.page ended

def delete (table : TableDef) (ref : RecordRef) (xmax : ℕ) : HeapM Unit := endVersion table ref xmax true

end Grafx.Heap
