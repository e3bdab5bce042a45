import OktoGrafx.Heap.Write

/-! The vacuum plan: which ended versions a pass reclaims, how the versions that stay are linked
around them, and which overflow pages are given back. The plan is a list of page images; nothing
changes until they are applied. -/

namespace Grafx.Heap

structure CatalogTables where
  ids : List ℕ
  nodup : ids.Nodup

structure VacuumRequest where
  tables : List ℕ
  horizon : ℕ
  maxVersions : Option ℕ
  deriving DecidableEq, Repr

/-! ## Selection -/

def pagesFrom (pages : List (Page Cell)) (tableId : ℕ) : ℕ → List ℕ → ℕ → Except HeapRefusal (List ℕ)
  | 0, _, _ => .error .chainLength
  | fuel + 1, seen, index =>
    if index ∈ seen then .error (.cycle index)
    else match pages[index]? with
      | none => .error (.missingPage index)
      | some p =>
        match requireTablePage tableId index p with
        | .error e => .error e
        | .ok () => match p.nextPage with
          | none => .ok [index]
          | some following => (pagesFrom pages tableId fuel (index :: seen) following).map (index :: ·)

def pagesOf (pages : List (Page Cell)) (tableId : ℕ) : Except HeapRefusal (List ℕ) :=
  match pages[headerPageIndex]? with
  | none => .error .headerPage
  | some header =>
    match extentOf tableId header with
    | .error e => .error e
    | .ok none => .ok []
    | .ok (some e) => pagesFrom pages tableId (chainLimit pages) [] e.firstPage

def eligible (horizon : ℕ) (h : RecordHeader) : Bool :=
  isCommittedCsn h.xmin && isCommittedCsn h.xmax && decide (h.xmin ≤ h.xmax) && decide (h.xmax ≤ horizon)

structure TableSelection where
  tableId : ℕ
  pages : List ℕ
  eligible : List StoredVersion
  selected : List StoredVersion

def takeAtMost {α : Type*} (limit : Option ℕ) (xs : List α) : List α := limit.elim xs xs.take

def selectTables (pages : List (Page Cell)) (horizon : ℕ) : Option ℕ → List ℕ → Except HeapRefusal (List TableSelection)
  | _, [] => .ok []
  | remaining, tableId :: rest => do
    let chain ← pagesOf pages tableId
    let found := walk pages tableId
    found.failure.elim (.ok ()) .error
    let versions := found.versions.filter fun v => eligible horizon v.header
    let selected := takeAtMost remaining versions
    let others ← selectTables pages horizon (remaining.map (· - selected.length)) rest
    return ⟨tableId, chain, versions, selected⟩ :: others

def selectedOf (selections : List TableSelection) : List (ℕ × StoredVersion) :=
  selections.flatMap fun x => x.selected.map fun v => (x.tableId, v)

def candidateAt (selected : List (ℕ × StoredVersion)) (ref : RecordRef) : Option (ℕ × StoredVersion) :=
  selected.find? fun x => x.2.ref == ref

/-! ## Overflow chains -/

def ownedPages (pages : List (Page Cell)) (capacity : ℕ) : ℕ → List ℕ → ℕ → Option ℕ → Except HeapRefusal (List ℕ)
  | _, _, remaining, none => if remaining = 0 then .ok [] else .error (.overflowPayload 0)
  | 0, _, _, some index => .error (.overflowOwnership index)
  | fuel + 1, owners, remaining, some index =>
    if index = headerPageIndex ∨ pages.length ≤ index ∨ index ∈ owners then .error (.overflowOwnership index)
    else match pages[index]? with
      | none => .error (.overflowOwnership index)
      | some p => match p.pageType, p.slots with
        | .overflow, [some (.chunk bytes)] =>
          if bytes.length ≠ min remaining capacity ∨ remaining = 0 then .error (.overflowPayload index)
          else (ownedPages pages capacity fuel (index :: owners) (remaining - bytes.length) p.nextPage).map (index :: ·)
        | _, _ => .error (.overflowPayload index)

/-- Every overflow page may have one owner only; the chains of the selected versions are released. -/
def releaseVersions (pages : List (Page Cell)) (capacity : ℕ) (selected : List (ℕ × StoredVersion)) :
    List ℕ → List StoredVersion → Except HeapRefusal (List ℕ × List ℕ)
  | owners, [] => .ok (owners, [])
  | owners, v :: rest =>
    if v.header.flags.hasOverflow = false then releaseVersions pages capacity selected owners rest
    else match v.body with
      | .inline _ => .error (.overflowPayload 0)
      | .overflow first => do
        let candidate := candidateAt selected v.ref
        requireThat (∀ x ∈ candidate, x.2.header = v.header) .vacuumCandidate
        let chain ← ownedPages pages capacity (pages.length + 1) owners v.header.payloadLen (some first)
        let (owners', released) ← releaseVersions pages capacity selected (chain ++ owners) rest
        return (owners', if candidate.isSome then chain ++ released else released)

def releaseTables (pages : List (Page Cell)) (capacity : ℕ) (selected : List (ℕ × StoredVersion)) :
    List ℕ → List ℕ → Except HeapRefusal (List (ℕ × List ℕ))
  | _, [] => .ok []
  | owners, tableId :: rest => do
    let found := walk pages tableId
    let (owners', released) ← releaseVersions pages capacity selected owners found.versions
    found.failure.elim (.ok ()) .error
    let others ← releaseTables pages capacity selected owners' rest
    return (tableId, released) :: others

/-- The overflow pages to release, once every chain is known to be complete and owned once. -/
def planOverflowReclaim (s : HeapStore) (catalog : List ℕ) (selected : List (ℕ × StoredVersion)) :
    Except HeapRefusal (List (ℕ × List ℕ)) :=
  let wanted := selected.filter fun x => x.2.header.flags.hasOverflow
  if wanted = [] then .ok []
  else do
    let released ← releaseTables s.pages (chunkCapacity s.pageSize) wanted [] catalog
    let found := catalog.flatMap fun t => (walk s.pages t).versions.map (·.ref)
    requireThat (∀ x ∈ wanted, x.2.ref ∈ found) .vacuumCandidate
    return released

def releasedPage (p : Page Cell) : Page Cell := { Page.empty .free with pageLsn := p.pageLsn, seq := p.seq }

/-! ## Links -/

/-- The first version behind `previous` that stays. -/
def relinkFrom (selected : List (ℕ × StoredVersion)) (tableId recordId : ℕ) (ref : RecordRef) :
    ℕ → List RecordRef → Option RecordRef → Except HeapRefusal (Option RecordRef)
  | _, _, none => .ok none
  | 0, _, some _ => .error (.versionCycle recordId)
  | fuel + 1, seen, some previous =>
    match candidateAt selected previous with
    | none => .ok (some previous)
    | some (owner, prior) =>
      if previous ∈ seen then .error (.versionCycle recordId)
      else if owner ≠ tableId ∨ prior.header.recordId ≠ recordId then .error (.unrelatedHistory ref)
      else relinkFrom selected tableId recordId ref fuel (previous :: seen) prior.header.previous

def vacuumCell (selected : List (ℕ × StoredVersion)) (tableId : ℕ) (ref : RecordRef) :
    Option Cell → Except HeapRefusal (Option Cell)
  | none => .ok none
  | some (.record h body) =>
    match candidateAt selected ref with
    | some (_, candidate) => if candidate.header ≠ h then .error .vacuumCandidate else .ok none
    | none =>
      (relinkFrom selected tableId h.recordId ref (selected.length + 1) [] h.previous).map fun previous =>
        some (.record { h with previous := previous } body)
  | some _ => .error (.recordHeader ref)

def vacuumCells (selected : List (ℕ × StoredVersion)) (tableId index : ℕ) :
    ℕ → List (Option Cell) → Except HeapRefusal (List (Option Cell))
  | _, [] => .ok []
  | slot, c :: rest => do
    let cell ← vacuumCell selected tableId ⟨index, slot⟩ c
    let others ← vacuumCells selected tableId index (slot + 1) rest
    return cell :: others

/-- One page of the second pass: its new image, the links it rewrote and the bytes it freed. -/
structure PagePass where
  index : ℕ
  image : Option (Page Cell)
  relinked : ℕ
  freedBytes : ℕ
  found : List RecordRef

def vacuumPage (selected : List (ℕ × StoredVersion)) (tableId index : ℕ) (p : Page Cell) : Except HeapRefusal PagePass := do
  requireTablePage tableId index p
  let cells ← vacuumCells selected tableId index firstRecordSlot p.slots.tail
  let slots := p.slots.take firstRecordSlot ++ cells
  let pairs := p.slots.zip slots
  return {
    index := index
    image := if slots = p.slots then none else some ({ p with slots := slots } : Page Cell).compact
    relinked := pairs.countP fun x => x.2.isSome && decide (x.1 ≠ x.2)
    freedBytes := (pairs.map fun x => if x.2.isNone then (x.1.map Cell.size).getD 0 else 0).sum
    found := (selected.map (·.2.ref)).filter fun ref => ref.page == index && (p.slots[ref.slot]?).join.isSome }

def vacuumChain (pages : List (Page Cell)) (selected : List (ℕ × StoredVersion)) (tableId : ℕ) :
    List ℕ → Except HeapRefusal (List PagePass)
  | [] => .ok []
  | index :: rest =>
    match pages[index]? with
    | none => .error (.missingPage index)
    | some p => do
      let pass ← vacuumPage selected tableId index p
      let others ← vacuumChain pages selected tableId rest
      return pass :: others

/-! ## The plan -/

structure VacuumTablePlan where
  tableId : ℕ
  pagesScanned : ℕ
  eligibleInlineVersions : ℕ
  reclaimedVersions : ℕ
  reclaimedSlotBytes : ℕ
  relinkedVersions : ℕ
  skippedOverflowVersions : ℕ
  eligibleOverflowVersions : ℕ
  reclaimedOverflowPages : ℕ
  deriving DecidableEq, Repr

structure VacuumPlan where
  horizon : ℕ
  pageImages : List (ℕ × Page Cell)
  tables : List VacuumTablePlan
  complete : Bool

def overflowCount (versions : List StoredVersion) : ℕ := versions.countP (·.header.flags.hasOverflow)

def tablePlan (released : List (ℕ × List ℕ)) (x : TableSelection) (passes : List PagePass) : VacuumTablePlan where
  tableId := x.tableId
  pagesScanned := x.pages.length
  eligibleInlineVersions := x.eligible.length - overflowCount x.eligible
  reclaimedVersions := x.selected.length
  reclaimedSlotBytes := (passes.map (·.freedBytes)).sum
  relinkedVersions := (passes.map (·.relinked)).sum
  skippedOverflowVersions := overflowCount x.eligible - overflowCount x.selected
  eligibleOverflowVersions := overflowCount x.eligible
  reclaimedOverflowPages := ((released.filter (·.1 == x.tableId)).map (·.2.length)).sum

def vacuumTables (pages : List (Page Cell)) (selected : List (ℕ × StoredVersion)) :
    List TableSelection → Except HeapRefusal (List (TableSelection × List PagePass))
  | [] => .ok []
  | x :: rest => do
    let passes ← vacuumChain pages selected x.tableId x.pages
    let others ← vacuumTables pages selected rest
    return (x, passes) :: others

def releasedImages (pages : List (Page Cell)) (released : List (ℕ × List ℕ)) : List (ℕ × Page Cell) :=
  released.flatMap fun x => x.2.filterMap fun i => pages[i]?.map fun p => (i, releasedPage p)

def passImages (passes : List PagePass) : List (ℕ × Page Cell) :=
  passes.filterMap fun pass => pass.image.map fun p => (pass.index, p)

def buildPlan (s : HeapStore) (horizon : ℕ) (released : List (ℕ × List ℕ)) (done : List (TableSelection × List PagePass)) :
    VacuumPlan :=
  let tables := done.map fun x => tablePlan released x.1 x.2
  { horizon := horizon
    pageImages := (releasedImages s.pages released ++ done.flatMap fun x => passImages x.2).insertionSort fun a b => a.1 ≤ b.1
    tables := tables
    complete := (tables.map (·.reclaimedVersions)).sum ==
      (tables.map fun t => t.eligibleInlineVersions + t.eligibleOverflowVersions).sum }

def planVacuum (s : HeapStore) (catalog : CatalogTables) (request : VacuumRequest) : Except HeapRefusal VacuumPlan := do
  requireThat (1 ≤ request.horizon ∧ request.horizon < provisionalCsn) (.horizonLsn request.horizon)
  requireThat (request.maxVersions ≠ some 0) .maxVersions
  let ordered := request.tables.insertionSort (· ≤ ·)
  requireThat ordered.Nodup .vacuumTables
  requireThat (s.reclaimCapable = true) .requiredCapabilities
  let selections ← selectTables s.pages request.horizon request.maxVersions ordered
  let selected := selectedOf selections
  let released ← planOverflowReclaim s catalog.ids selected
  let done ← vacuumTables s.pages selected selections
  let found := done.flatMap fun x => x.2.flatMap (·.found)
  requireThat (∀ x ∈ selected, x.2.ref ∈ found) .vacuumCandidate
  return buildPlan s request.horizon released done

def applyPlan (plan : VacuumPlan) (s : HeapStore) : HeapStore :=
  { s with pages := s.pages.mapIdx fun i p => ((plan.pageImages.find? (·.1 == i)).map (·.2)).getD p }

/-! ## Version chains -/

def versionChainFrom (pages : List (Page Cell)) : ℕ → List RecordRef → Option RecordRef → Except HeapRefusal (List RecordRef)
  | _, _, none => .ok []
  | 0, _, some _ => .error .chainLength
  | fuel + 1, seen, some ref =>
    if ref ∈ seen then .error (.cycle ref.page)
    else match readSlot pages ref with
      | .error e => .error e
      | .ok (_, h, _) => (versionChainFrom pages fuel (ref :: seen) h.previous).map (ref :: ·)

def versionChain (s : HeapStore) (ref : RecordRef) : Except HeapRefusal (List RecordRef) :=
  versionChainFrom s.pages (s.pages.length * (s.pageSize / slotEntrySize) + 1) [] (some ref)

end Grafx.Heap
