import OktoGrafx.Index.TreePages

/-! The ordered tree: bulk build, copy-on-write mutation, verification and the two walks. Pages are
never changed once written; a mutation appends new ones and names a new root. -/

namespace Grafx.Index

open Checked

/-! ## Packing -/

def minPageSize : ℕ := 512

def maxPageSize : ℕ := 32768

def validatePageSize (pageSize : ℕ) : Except TreeRefusal Unit :=
  ensure (minPageSize ≤ pageSize ∧ pageSize ≤ maxPageSize ∧ pageSize &&& (pageSize - 1) = 0) (.pageSize pageSize)

structure Growth where
  pageSize : ℕ
  startPage : ℕ
  pageLsn : ℕ

structure Item where
  payload : Bytes
  high : High

/-- The identities a packed page starts and ends at. -/
structure Packed where
  page : ℕ
  minimum : High
  maximum : High
  count : ℕ
  deriving DecidableEq

structure OpenPage where
  page : TreePage
  first : High
  last : High
  count : ℕ

def OpenPage.packed (o : OpenPage) : Packed := ⟨o.page.pageIndex, o.first, o.last, o.count⟩

def OpenPage.insert (o : OpenPage) (item : Item) : OpenPage :=
  { o with page := o.page.insertSlot item.payload, last := item.high, count := o.count + 1 }

section Packing
variable (g : Growth) (pageType : PageType)

def newPage (pages : List TreePage) : Except TreeRefusal TreePage :=
  let pageIndex := g.startPage + pages.length
  if pageIndex < noPage then .ok (.new pageType g.pageSize pageIndex g.pageLsn) else .error (.pageIndexSpace pageIndex)

def openPage (item : Item) (pages : List TreePage) : Except TreeRefusal OpenPage := do
  let page ← newPage g pageType pages
  ensure (page.canFit item.payload.length = true) (.recordSize g.pageSize item.payload.length)
  return ⟨page.insertSlot item.payload, item.high, item.high, 1⟩

def packInto : OpenPage → List Item → List TreePage → Except TreeRefusal (List Packed × List TreePage)
  | o, [], pages => .ok ([o.packed], pages ++ [o.page])
  | o, item :: rest, pages =>
    if o.page.canFit item.payload.length then packInto (o.insert item) rest pages
    else do
      let fresh ← openPage g pageType item (pages ++ [o.page])
      let (others, pages') ← packInto fresh rest (pages ++ [o.page])
      return (o.packed :: others, pages')

def appendPackedPages (items : List Item) (pages : List TreePage) : Except TreeRefusal (List Packed × List TreePage) :=
  match items with
  | [] => .ok ([], pages)
  | item :: rest => do
    let o ← openPage g pageType item pages
    packInto g pageType o rest pages

end Packing

def leafItem (e : IndexEntry) : Item := ⟨e.encode, e.high⟩

def pointerItem (p : ChildPointer) : Item := ⟨p.encode, p.high⟩

/-! ## Bulk build -/

structure OrderedTreeBuild where
  rootPage : ℕ
  height : ℕ
  entryCount : ℕ
  pages : List TreePage

def pageMap (pages : List TreePage) (i : ℕ) : Option TreePage := pages.find? fun p => p.pageIndex == i

def buildPointers (level : List Packed) : Except TreeRefusal (List ChildPointer) :=
  level.mapM fun s => ChildPointer.make s.maximum s.page

def rebuild : List Packed → List Packed → List Packed
  | [], _ => []
  | parent :: parents, level =>
    let children := level.take parent.count
    ⟨parent.page, (children.head?.map (·.minimum)).getD parent.minimum, (children.getLast?.map (·.maximum)).getD parent.maximum,
      (children.map (·.count)).sum⟩ :: rebuild parents (level.drop parent.count)

def buildLevels (g : Growth) : ℕ → List Packed → ℕ → List TreePage → Except TreeRefusal (List Packed × ℕ × List TreePage)
  | 0, level, height, pages => .ok (level, height, pages)
  | fuel + 1, level, height, pages =>
    if level.length ≤ 1 then .ok (level, height, pages)
    else do
      let pointers ← buildPointers level
      let (next, pages') ← appendPackedPages g .indexOrderedInternal (pointers.map pointerItem) pages
      ensure (next.length < level.length) (.cannotReduce g.pageSize)
      buildLevels g fuel (rebuild next level) (height + 1) pages'

def checkStart (g : Growth) : Except TreeRefusal Unit :=
  ensure (firstOrderedTreePage ≤ g.startPage ∧ g.startPage < noPage) (.startPage g.startPage)

def checkLsn (g : Growth) : Except TreeRefusal Unit := ensure (g.pageLsn < provisionalCsn) (.pageLsn g.pageLsn)

def checkInput (e : IndexEntry) : Except TreeRefusal Unit := do
  ensure (e.versioned = false) .versionedInput
  keyBytes e.key false

def checkDistinct : List IndexEntry → Except TreeRefusal Unit
  | before :: after :: rest => do
    ensure (before.identity ≠ after.identity) (.duplicateIdentity before.key before.ref.encode)
    checkDistinct (after :: rest)
  | _ => .ok ()

def buildOrderedTree (entries : List IndexEntry) (g : Growth) : Except TreeRefusal OrderedTreeBuild := do
  validatePageSize g.pageSize
  checkLsn g
  checkStart g
  entries.forM checkInput
  let ordered := Keyed.sort IndexEntry.identity entries
  checkDistinct ordered
  if ordered = [] then return ⟨noPage, 0, 0, []⟩
  else do
    let (level, pages) ← appendPackedPages g .indexOrderedLeaf (ordered.map leafItem) []
    -- Every round leaves fewer pages, so as many rounds as there are leaves are enough.
    let (top, height, pages') ← buildLevels g level.length level 1 pages
    return ⟨(top.head?.map (·.page)).getD noPage, height, ordered.length, pages'⟩

/-! ## Mutation -/

structure OrderedTreeMutation where
  rootPage : ℕ
  height : ℕ
  entryCount : ℕ
  pages : List TreePage
  changed : Bool
  missingTargets : ℕ

structure CowNode where
  page : ℕ
  maximum : High
  deriving DecidableEq

structure CowResult where
  nodes : List CowNode
  changed : Bool
  entryDelta : ℤ
  missingTargets : ℕ

def Packed.node (s : Packed) : CowNode := ⟨s.page, s.maximum⟩

def packLeaf (g : Growth) (entries : List IndexEntry) (pages : List TreePage) : Except TreeRefusal (List CowNode × List TreePage) := do
  let (summaries, pages') ← appendPackedPages g .indexOrderedLeaf (entries.map leafItem) pages
  return (summaries.map Packed.node, pages')

def packInternal (g : Growth) (nodes : List CowNode) (pages : List TreePage) : Except TreeRefusal (List CowNode × List TreePage) := do
  let pointers ← nodes.mapM fun n => ChildPointer.make n.maximum n.page
  let (summaries, pages') ← appendPackedPages g .indexOrderedInternal (pointers.map pointerItem) pages
  return (summaries.map Packed.node, pages')

structure LeafState where
  byIdentity : List IndexEntry
  changed : Bool
  delta : ℤ
  missing : ℕ

def applyChange (s : LeafState) (c : TreeChange) : LeafState :=
  match Keyed.lookup IndexEntry.identity s.byIdentity c.identity, c.operation with
  | none, .insert => { s with byIdentity := Keyed.put IndexEntry.identity s.byIdentity c.entry, changed := true, delta := s.delta + 1 }
  | some _, .insert => s
  | none, _ => { s with missing := s.missing + 1 }
  | some existing, .tombstone =>
    if existing.live then
      { s with byIdentity := Keyed.put IndexEntry.identity s.byIdentity (existing.endedAt c.csn c.csn_lt), changed := true }
    else s
  | some _, _ => { s with byIdentity := Keyed.erase IndexEntry.identity s.byIdentity c.identity, changed := true, delta := s.delta - 1 }

section Mutation
variable (g : Growth) (pages : ℕ → Option TreePage)

def applyLeaf (pageIndex : ℕ) (batch : List TreeChange) (newPages : List TreePage) :
    Except TreeRefusal (CowResult × List TreePage) :=
  match pages pageIndex with
  | none => .error (.absentPage pageIndex)
  | some p => do
    let current ← decodeOrderedLeaf p
    let s := batch.foldl applyChange ⟨current, false, 0, 0⟩
    if s.changed then do
      let (nodes, newPages') ← packLeaf g (Keyed.sort IndexEntry.identity s.byIdentity) newPages
      return (⟨nodes, true, s.delta, s.missing⟩, newPages')
    else match current.getLast? with
      | none => .error (.noLiveSlot pageIndex)
      | some last => return (⟨[⟨pageIndex, last.high⟩], false, 0, s.missing⟩, newPages)

/-- How many lead a list below a bound. -/
def bisectLeft {α : Type*} (below : α → Bool) (xs : List α) : ℕ := (xs.takeWhile below).length

def route (pointers : List ChildPointer) (identity : Identity) : ℕ :=
  min (bisectLeft (fun p => decide (p.high.identity < identity)) pointers) (pointers.length - 1)

def groupsOf (pointers : List ChildPointer) (batch : List TreeChange) : List (ChildPointer × List TreeChange) :=
  pointers.zipIdx.map fun x => (x.1, batch.filter fun c => route pointers c.identity == x.2)

def visitChild (visit : ℕ → List TreeChange → List TreePage → Except TreeRefusal (CowResult × List TreePage)) (pointer : ChildPointer)
    (group : List TreeChange) (newPages : List TreePage) : Except TreeRefusal (CowResult × List TreePage) :=
  if group = [] then .ok (⟨[⟨pointer.childPage, pointer.high⟩], false, 0, 0⟩, newPages) else visit pointer.childPage group newPages

def visitChildren (visit : ℕ → List TreeChange → List TreePage → Except TreeRefusal (CowResult × List TreePage)) :
    List (ChildPointer × List TreeChange) → List TreePage → Except TreeRefusal (CowResult × List TreePage)
  | [], newPages => .ok (⟨[], false, 0, 0⟩, newPages)
  | (pointer, group) :: rest, newPages => do
    let (child, newPages₁) ← visitChild visit pointer group newPages
    let (others, newPages₂) ← visitChildren visit rest newPages₁
    return (⟨child.nodes ++ others.nodes, child.changed || others.changed, child.entryDelta + others.entryDelta,
      child.missingTargets + others.missingTargets⟩, newPages₂)

def visit : ℕ → ℕ → List TreeChange → List TreePage → Except TreeRefusal (CowResult × List TreePage)
  | 0, pageIndex, batch, newPages => applyLeaf g pages pageIndex batch newPages
  | depth + 1, pageIndex, batch, newPages =>
    match pages pageIndex with
    | none => .error (.absentPage pageIndex)
    | some p => do
      let pointers ← decodeOrderedInternal p
      match pointers.getLast? with
      | none => .error (.noLiveSlot pageIndex)
      | some last => do
        let (result, newPages₁) ← visitChildren (visit depth) (groupsOf pointers batch) newPages
        if result.changed then do
          let (nodes, newPages₂) ← packInternal g result.nodes newPages₁
          return ({ result with nodes }, newPages₂)
        else return (⟨[⟨pageIndex, last.high⟩], false, 0, result.missingTargets⟩, newPages₁)

def visitEmpty (batch : List TreeChange) : Except TreeRefusal (CowResult × List TreePage) := do
  let s := batch.foldl applyChange ⟨[], false, 0, 0⟩
  let (nodes, newPages) ← packLeaf g (Keyed.sort IndexEntry.identity s.byIdentity) []
  return (⟨nodes, decide (nodes ≠ []), s.delta, s.missing⟩, newPages)

/-- Levels on top until one page is left. -/
def packLevels : ℕ → List CowNode → ℕ → List TreePage → Except TreeRefusal (List CowNode × ℕ × List TreePage)
  | _, [], height, newPages => .ok ([], height, newPages)
  | _, [node], height, newPages => .ok ([node], height, newPages)
  | 0, _, _, newPages => .error (.pageIndexSpace (g.startPage + newPages.length))
  | rounds + 1, nodes, height, newPages => do
    let (nodes', newPages') ← packInternal g nodes newPages
    packLevels rounds nodes' (height + 1) newPages'

def checkChange (c : TreeChange) : Except TreeRefusal Unit := do
  ensure (c.versioned = false) (.versionedChange c.index)
  ensure (c.operation ≠ .reset) (.resetChange c.index)
  keyBytes c.key false

def orderChanges (changes : List TreeChange) : List TreeChange := Keyed.sort TreeChange.identity changes

def mutateRoot (rootPage height entryCount : ℕ) (batch : List TreeChange) :
    Except TreeRefusal (CowResult × ℕ × List TreePage) :=
  if rootPage = noPage then do
    ensure (height = 0 ∧ entryCount = 0) (.emptyRoot height (some entryCount))
    let (result, newPages) ← visitEmpty g batch
    return (result, if result.nodes = [] then 0 else 1, newPages)
  else do
    ensure (0 < height) (.height height rootPage)
    let (result, newPages) ← visit g pages (height - 1) rootPage batch []
    return (result, if result.nodes = [] then 0 else height, newPages)

def mutateOrderedTree (rootPage height entryCount : ℕ) (changes : List TreeChange) : Except TreeRefusal OrderedTreeMutation := do
  validatePageSize g.pageSize
  checkStart g
  checkLsn g
  changes.forM checkChange
  if changes = [] then return ⟨rootPage, height, entryCount, [], false, 0⟩
  else do
    -- The changes of one page share its copy, so they are brought together first.
    let (result, height', newPages) ← mutateRoot g pages rootPage height entryCount (orderChanges changes)
    let (nodes, height'', newPages') ←
      packLevels g (noPage - (g.startPage + newPages.length)) result.nodes height' newPages
    let newCount := entryCount + result.entryDelta
    ensure (0 ≤ newCount ∧ (nodes ≠ [] ↔ newCount ≠ 0)) (.entryCount newCount nodes.length)
    return ⟨(nodes.head?.map (·.page)).getD noPage, height'', newCount.toNat, newPages', result.changed, result.missingTargets⟩

end Mutation

/-! ## Verification -/

structure OrderedTreeVerification where
  entryCount : ℕ
  pageCount : ℕ
  leafPages : ℕ
  internalPages : ℕ
  minimum : Option Identity
  maximum : Option Identity
  deriving DecidableEq

structure Verified where
  page : ℕ
  minimum : Identity
  maximum : Identity
  count : ℕ

structure VerifyState where
  visited : List ℕ
  leafPages : ℕ
  internalPages : ℕ

section Verification
variable (pages : ℕ → Option TreePage)

def verifyLeaf (pageIndex : ℕ) (p : TreePage) (s : VerifyState) : Except TreeRefusal (Verified × VerifyState) := do
  let entries ← decodeOrderedLeaf p
  match entries.head?, entries.getLast? with
  | some first, some last =>
    return (⟨pageIndex, first.identity, last.identity, entries.length⟩,
      { s with visited := pageIndex :: s.visited, leafPages := s.leafPages + 1 })
  | _, _ => .error (.noLiveSlot pageIndex)

def verifyChildren (visit : ℕ → VerifyState → Except TreeRefusal (Verified × VerifyState)) (pageIndex : ℕ) :
    Option Identity → List ChildPointer → VerifyState → Except TreeRefusal (List Verified × VerifyState)
  | _, [], s => .ok ([], s)
  | previous, pointer :: rest, s => do
    let (child, s₁) ← visit pointer.childPage s
    ensure (child.maximum = pointer.high.identity) (.separator pageIndex pointer.childPage)
    ensure (∀ i ∈ previous, i < child.minimum) (.childRange pageIndex pointer.childPage)
    let (children, s₂) ← verifyChildren visit pageIndex (some child.maximum) rest s₁
    return (child :: children, s₂)

def verifyVisit : ℕ → List ℕ → ℕ → VerifyState → Except TreeRefusal (Verified × VerifyState)
  | depth, visiting, pageIndex, s => do
    ensure (pageIndex ∉ visiting ∧ pageIndex ∉ s.visited) (.childCycle pageIndex)
    match pages pageIndex with
    | none => .error (.absentPage pageIndex)
    | some p => do
      ensure (p.pageIndex = pageIndex) (.wrongPage p.pageIndex pageIndex)
      match depth with
      | 0 => verifyLeaf pageIndex p s
      | depth + 1 => do
        let pointers ← decodeOrderedInternal p
        let (children, s₁) ← verifyChildren (verifyVisit depth (pageIndex :: visiting)) pageIndex none pointers s
        match children.head?, children.getLast? with
        | some first, some last =>
          return (⟨pageIndex, first.minimum, last.maximum, (children.map (·.count)).sum⟩,
            { s₁ with visited := pageIndex :: s₁.visited, internalPages := s₁.internalPages + 1 })
        | _, _ => .error (.noLiveSlot pageIndex)

def verifyOrderedTree (rootPage height : ℕ) (expectedEntryCount : Option ℕ) : Except TreeRefusal OrderedTreeVerification :=
  if rootPage = noPage then do
    ensure (height = 0 ∧ ∀ n ∈ expectedEntryCount, n = 0) (.emptyRoot height expectedEntryCount)
    return ⟨0, 0, 0, 0, none, none⟩
  else do
    ensure (0 < height ∧ firstOrderedTreePage ≤ rootPage) (.height height rootPage)
    let (root, s) ← verifyVisit pages (height - 1) [] rootPage ⟨[], 0, 0⟩
    ensure (∀ n ∈ expectedEntryCount, root.count = n) (.entryCount (expectedEntryCount.getD 0) root.count)
    return ⟨root.count, s.visited.length, s.leafPages, s.internalPages, some root.minimum, some root.maximum⟩

end Verification

/-! ## Walks -/

section Walks
variable (pages : ℕ → Option TreePage)

def resolve (visiting : List ℕ) (pageIndex : ℕ) : Except TreeRefusal TreePage := do
  ensure (pageIndex ∉ visiting) (.childCycle pageIndex)
  match pages pageIndex with
  | none => .error (.unresolvedPage pageIndex)
  | some p => do
    ensure (p.pageIndex = pageIndex) (.unresolvedPage pageIndex)
    return p

def cut {α : Type*} (limit : Option ℕ) (emitted : ℕ) (xs : List α) : List α :=
  match limit with
  | none => xs
  | some n => xs.take (n - emitted)

def reached (limit : Option ℕ) (emitted : ℕ) : Bool := limit.any fun n => decide (n ≤ emitted)

def walkChildren (descend : ℕ → Option Bytes → ℕ → Except TreeRefusal (List IndexEntry)) (limit : Option ℕ) :
    List (ChildPointer × Option Bytes) → ℕ → Except TreeRefusal (List IndexEntry)
  | [], _ => .ok []
  | (pointer, ceiling) :: rest, emitted =>
    if reached limit emitted then .ok []
    else do
      let found ← descend pointer.childPage ceiling emitted
      let others ← walkChildren descend limit rest (emitted + found.length)
      return found ++ others

/-- Only the first child can reach above the ceiling. -/
def walkOrder (pointers : List ChildPointer) (ceiling : Option Bytes) : List (ChildPointer × Option Bytes) :=
  let start := match ceiling with
    | none => pointers.length - 1
    | some bound => min (bisectLeft (fun p => decide (p.high.key < bound)) pointers) (pointers.length - 1)
  match (pointers.take (start + 1)).reverse with
  | [] => []
  | pointer :: rest => (pointer, ceiling) :: rest.map fun p => (p, none)

def walkDescend (limit : Option ℕ) : ℕ → List ℕ → ℕ → Option Bytes → ℕ → Except TreeRefusal (List IndexEntry)
  | depth, visiting, pageIndex, ceiling, emitted => do
    let p ← resolve pages visiting pageIndex
    match depth with
    | 0 => do
      let entries ← decodeOrderedLeaf p
      let stop := match ceiling with
        | none => entries.length
        | some bound => bisectLeft (fun e => decide (e.key < bound)) entries
      return cut limit emitted (entries.take stop).reverse
    | depth + 1 => do
      let pointers ← decodeOrderedInternal p
      walkChildren (walkDescend limit depth (pageIndex :: visiting)) limit (walkOrder pointers ceiling) emitted

def checkUpper (upperKey : Option Bytes) : Except TreeRefusal Unit :=
  match upperKey with
  | none => .ok ()
  | some key => keyBytes key false

def walkOrderedDesc (rootPage height : ℕ) (upperKey : Option Bytes) (limit : Option ℕ) :
    Except TreeRefusal (List IndexEntry) := do
  checkUpper upperKey
  if rootPage = noPage then do
    ensure (height = 0) (.height height rootPage)
    return []
  else do
    ensure (0 < height) (.height height rootPage)
    if limit = some 0 then return []
    else walkDescend pages limit (height - 1) [] rootPage upperKey 0

def seekChildren (descend : ℕ → Except TreeRefusal (List IndexEntry)) (wanted : Bytes) :
    List ChildPointer → Except TreeRefusal (List IndexEntry)
  | [] => .ok []
  | pointer :: rest => do
    let found ← descend pointer.childPage
    if wanted < pointer.high.key then return found
    else do
      let others ← seekChildren descend wanted rest
      return found ++ others

def seekDescend (wanted : Bytes) : ℕ → List ℕ → ℕ → Except TreeRefusal (List IndexEntry)
  | depth, visiting, pageIndex => do
    let p ← resolve pages visiting pageIndex
    match depth with
    | 0 => do
      let entries ← decodeOrderedLeaf p
      let start := bisectLeft (fun e => decide (e.key < wanted)) entries
      return (entries.drop start).takeWhile fun e => decide (e.key = wanted)
    | depth + 1 => do
      let pointers ← decodeOrderedInternal p
      let start := bisectLeft (fun p => decide (p.high.key < wanted)) pointers
      seekChildren (seekDescend wanted depth (pageIndex :: visiting)) wanted (pointers.drop start)

def seekOrderedExact (rootPage height : ℕ) (key : Bytes) : Except TreeRefusal (List IndexEntry) := do
  keyBytes key false
  if rootPage = noPage then do
    ensure (height = 0) (.height height rootPage)
    return []
  else do
    ensure (0 < height) (.height height rootPage)
    seekDescend pages key (height - 1) [] rootPage

end Walks

end Grafx.Index
