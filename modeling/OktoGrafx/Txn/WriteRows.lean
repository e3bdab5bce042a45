import OktoGrafx.Heap.Mutations
import OktoGrafx.Txn.CommitBatch

/-! How a transaction puts its rows on the pages: settled intents are written with the provisional
stamp, a failed attempt is abandoned by restamping and taken back page by page, and a commit
installs images that carry its number. -/

namespace Grafx.Txn
open Heap

/-- The first row of a table brings the floor of its batch; a leased id is below the durable floor. -/
inductive RowIntent where
  | insert (table : TableDef) (recordId : ℕ) (row : RowImage)
  | insertReserved (table : TableDef) (recordId : ℕ) (row : RowImage)
  | insertInitialReserved (table : TableDef) (recordId : ℕ) (row : RowImage) (initialFloor : ℕ)
  | update (table : TableDef) (reference : RecordRef) (row : RowImage)
  | delete (table : TableDef) (reference : RecordRef)
  deriving DecidableEq, Repr

namespace RowIntent

def write : RowIntent → HeapM RowWrite
  | insert table recordId row => do
    let reference ← Heap.insert table recordId row provisionalCsn
    pure { born := some reference }
  | insertReserved table recordId row => do
    let reference ← Heap.insertReserved table recordId row provisionalCsn
    pure { born := some reference }
  | insertInitialReserved table recordId row initialFloor => do
    let reference ← Heap.insertInitialReserved table recordId row provisionalCsn initialFloor
    pure { born := some reference }
  | update table old row => do
    let reference ← Heap.update table old row provisionalCsn
    pure { born := some reference, ended := some old }
  | delete table old => do
    Heap.delete table old provisionalCsn
    pure { ended := some old }

end RowIntent

structure Attempt where
  written : List RowWrite
  failure : Option HeapRefusal
  store : HeapStore
  script : List Bool

def writeIntents : List RowIntent → List RowWrite → List Bool → HeapStore → Attempt
  | [], written, script, s => ⟨written, none, s, script⟩
  | intent :: rest, written, script, s =>
    match intent.write script s with
    | (.ok item, s', script') => writeIntents rest (written ++ [item]) script' s'
    | (.error e, s', script') => ⟨written, some e, s', script'⟩

/-! ## Abandoning -/

def restampHeader (xmin xmax : Option ℕ) (live : Bool) (h : RecordHeader) : RecordHeader :=
  { h with
    xmin := xmin.getD h.xmin
    xmax := xmax.getD h.xmax
    flags := { h.flags with deleted := h.flags.deleted && !live } }

def restamp (ref : RecordRef) (xmin xmax : Option ℕ) (live : Bool) : HeapM Unit := do
  let p ← pin ref.page
  let s ← Fallible.read
  match p.slots[ref.slot]? with
  | some (some (.record h body)) =>
    match p.updateSlot s.pageSize ref.slot (.record (restampHeader xmin xmax live h) body) with
    | none => Fallible.refuse (.pageFull ref.page)
    | some p' => setPage ref.page p'
  | _ => Fallible.refuse (.freedSlot ref)

def abandonRow (item : RowWrite) : HeapM Unit := do
  item.born.elim (pure ()) fun ref => restamp ref (some noCsn) none false
  item.ended.elim (pure ()) fun ref => restamp ref none (some noCsn) true

def abandonRows : List RowWrite → List Bool → HeapStore → HeapStore × List Bool
  | [], script, s => (s, script)
  | item :: rest, script, s =>
    match abandonRow item script s with
    | (_, s', script') => abandonRows rest script' s'

/-- Pages of a failed attempt are dropped, or written as they are if any has reached the device. Dropped pages that the
attempt allocated are abandoned, the highest to be reused first. -/
def undoPages (base : HeapStore) (escaped : Bool) (s : HeapStore) : HeapStore :=
  if escaped ∨ s.pages = base.pages then s
  else
    { s with
      pages := base.pages ++ List.replicate (s.pages.length - base.pages.length) (Page.empty .free)
      abandoned := ((List.range s.pages.length).filter fun i =>
        base.pages.length ≤ i ∨ i ∈ base.abandoned ∧ s.pages[i]? ≠ base.pages[i]?).reverse ++ s.abandoned
      derivedEpoch := s.derivedEpoch + 1 }

/-! ## Committing -/

def attemptPages (base s : HeapStore) (rows : List RowWrite) : List ℕ :=
  (List.range s.pages.length).filter fun i =>
    decide (s.pages[i]? ≠ base.pages[i]?) || rows.any fun row => !(row.stamps i).isEmpty

def committedImage (csn : ℕ) (rows : List RowWrite) (modified : List ℕ) (i : ℕ) (p : Page Cell) : Option (Page Cell) :=
  if i ∈ modified then stampPage csn (rows.flatMap (·.stamps i)) p else some p

def applyImages (csn : ℕ) (rows : List RowWrite) (base s : HeapStore) : Option HeapStore := do
  let pages ← (s.pages.mapIdx fun i p => committedImage csn rows (attemptPages base s rows) i p).mapM id
  return { s with pages := pages }

end Grafx.Txn
