import OktoGrafx.Domain.Record

/-! Stamping a commit number into a page value: the page LSN and the headers of the versions the
commit created or ended. -/

namespace Grafx.Txn

structure VersionStamp where
  reference : RecordRef
  isBirth : Bool
  deriving DecidableEq, Repr

def restampPage (page : Page Cell) (reference : RecordRef) (xmin xmax : Option ℕ) : Option (Page Cell) :=
  match page.slots[reference.slot]? with
  | some (some (.record h body)) =>
    some { page with
      slots := page.slots.set reference.slot
        (some (.record { h with xmin := xmin.getD h.xmin, xmax := xmax.getD h.xmax } body)) }
  | _ => none

def stampVersion (csn : ℕ) (page : Page Cell) (s : VersionStamp) : Option (Page Cell) :=
  if s.isBirth then restampPage page s.reference (some csn) none else restampPage page s.reference none (some csn)

def stampPage (csn : ℕ) (stamps : List VersionStamp) (page : Page Cell) : Option (Page Cell) :=
  stamps.foldlM (stampVersion csn) (if page.pageLsn < csn then { page with pageLsn := csn } else page)

/-! ## Closed form -/

def bornAt (stamps : List VersionStamp) (slot : ℕ) : Bool := stamps.any fun s => s.isBirth && s.reference.slot == slot

def endedAt (stamps : List VersionStamp) (slot : ℕ) : Bool := stamps.any fun s => !s.isBirth && s.reference.slot == slot

def markCell (csn : ℕ) (stamps : List VersionStamp) (slot : ℕ) : Option Cell → Option Cell
  | some (.record h body) =>
    some (.record { h with
      xmin := if bornAt stamps slot then csn else h.xmin
      xmax := if endedAt stamps slot then csn else h.xmax } body)
  | cell => cell

def isRecord : Option (Option Cell) → Bool
  | some (some (.record ..)) => true
  | _ => false

def markSlots (csn : ℕ) (stamps : List VersionStamp) (slots : List (Option Cell)) : List (Option Cell) :=
  slots.mapIdx (markCell csn stamps)

def RecordSlots (stamps : List VersionStamp) (slots : List (Option Cell)) : Prop :=
  ∀ s ∈ stamps, isRecord slots[s.reference.slot]? = true

instance (stamps : List VersionStamp) (slots : List (Option Cell)) : Decidable (RecordSlots stamps slots) :=
  inferInstanceAs (Decidable (∀ s ∈ stamps, _))

theorem markCell_nil (csn slot : ℕ) (cell : Option Cell) : markCell csn [] slot cell = cell := by
  cases cell with
  | none => rfl
  | some cell => cases cell with
    | record h body => rfl
    | _ => rfl

theorem markCell_cons (csn : ℕ) (s : VersionStamp) (stamps : List VersionStamp) (slot : ℕ) (cell : Option Cell) :
    markCell csn (s :: stamps) slot cell = markCell csn stamps slot (markCell csn [s] slot cell) := by
  cases cell with
  | none => rfl
  | some cell => cases cell with
    | record h body =>
      have hborn : bornAt (s :: stamps) slot = (bornAt [s] slot || bornAt stamps slot) := by simp [bornAt]
      have hended : endedAt (s :: stamps) slot = (endedAt [s] slot || endedAt stamps slot) := by simp [endedAt]
      simp only [markCell, hborn, hended]
      cases bornAt [s] slot <;> cases bornAt stamps slot <;> cases endedAt [s] slot <;> cases endedAt stamps slot <;> rfl
    | _ => rfl

theorem markCell_markCell (old new : ℕ) (stamps : List VersionStamp) (slot : ℕ) (cell : Option Cell) :
    markCell new stamps slot (markCell old stamps slot cell) = markCell new stamps slot cell := by
  cases cell with
  | none => rfl
  | some cell => cases cell with
    | record h body =>
      simp only [markCell]
      cases bornAt stamps slot <;> cases endedAt stamps slot <;> rfl
    | _ => rfl

theorem isRecord_markSlots (csn : ℕ) (stamps : List VersionStamp) (slots : List (Option Cell)) (i : ℕ) :
    isRecord (markSlots csn stamps slots)[i]? = isRecord slots[i]? := by
  rw [markSlots, List.getElem?_mapIdx]
  match slots[i]? with
  | none | some none => rfl
  | some (some (.record h body)) => rfl
  | some (some (.heapHeader _)) | some (some (.extent _)) | some (some (.descriptor _)) | some (some (.chunk _)) => rfl

theorem markSlots_cons (csn : ℕ) (s : VersionStamp) (stamps : List VersionStamp) (slots : List (Option Cell)) :
    markSlots csn (s :: stamps) slots = markSlots csn stamps (markSlots csn [s] slots) := by
  simp only [markSlots, List.mapIdx_mapIdx]
  congr 1
  funext i cell
  exact markCell_cons csn s stamps i cell

theorem stampVersion_eq (csn : ℕ) (page : Page Cell) (s : VersionStamp) :
    stampVersion csn page s =
      if isRecord page.slots[s.reference.slot]? then some { page with slots := markSlots csn [s] page.slots } else none := by
  have hset : ∀ h body, page.slots[s.reference.slot]? = some (some (.record h body)) →
      markSlots csn [s] page.slots =
        page.slots.set s.reference.slot (markCell csn [s] s.reference.slot (some (.record h body))) := by
    intro h body hslot
    refine List.ext_getElem? fun i => ?_
    rw [markSlots, List.getElem?_mapIdx, List.getElem?_set]
    by_cases hi : s.reference.slot = i
    · subst hi
      have hlt := (getElem?_eq_some_iff.mp hslot).1
      rw [hslot, if_pos rfl, if_pos hlt, Option.map_some]
    · have : markCell csn [s] i = id := by
        funext cell
        cases cell with
        | none => rfl
        | some cell => cases cell with
          | record h body => simp [markCell, bornAt, endedAt, hi]
          | _ => rfl
      simp [hi, this]
  unfold stampVersion restampPage
  match hslot : page.slots[s.reference.slot]? with
  | none | some none => simp [isRecord]
  | some (some (.record h body)) =>
    rw [hset h body hslot]
    cases hb : s.isBirth <;> simp [isRecord, markCell, bornAt, endedAt, hb]
  | some (some (.heapHeader _)) | some (some (.extent _)) | some (some (.descriptor _)) | some (some (.chunk _)) =>
    simp [isRecord]

theorem stampVersions_eq (csn : ℕ) (stamps : List VersionStamp) (page : Page Cell) :
    stamps.foldlM (stampVersion csn) page =
      if RecordSlots stamps page.slots then some { page with slots := markSlots csn stamps page.slots } else none := by
  induction stamps generalizing page with
  | nil =>
    have : markSlots csn [] page.slots = page.slots := by
      simp [markSlots, funext (markCell_nil csn _), List.mapIdx_eq_iff]
    simp [RecordSlots, this]
  | cons s rest ih =>
    rw [List.foldlM_cons, stampVersion_eq]
    by_cases hs : isRecord page.slots[s.reference.slot]? = true
    · rw [if_pos hs]
      simp only [Option.bind_eq_bind, Option.bind_some, ih, RecordSlots, isRecord_markSlots, List.forall_mem_cons, hs,
        true_and, ← markSlots_cons]
    · have : ¬ RecordSlots (s :: rest) page.slots := fun h => hs (h s List.mem_cons_self)
      rw [if_neg hs, if_neg this]
      rfl

theorem stampPage_eq (csn : ℕ) (stamps : List VersionStamp) (page : Page Cell) :
    stampPage csn stamps page =
      if RecordSlots stamps page.slots then
        some { page with pageLsn := max page.pageLsn csn, slots := markSlots csn stamps page.slots }
      else none := by
  have hlsn : (if page.pageLsn < csn then { page with pageLsn := csn } else page) =
      { page with pageLsn := max page.pageLsn csn } := by
    split_ifs with h
    · rw [max_eq_right h.le]
    · rw [max_eq_left (not_lt.mp h)]
  rw [stampPage, hlsn, stampVersions_eq]

theorem stampPage_stampPage {old new : ℕ} (hle : old ≤ new) {stamps : List VersionStamp} {page page' : Page Cell}
    (h : stampPage old stamps page = some page') : stampPage new stamps page' = stampPage new stamps page := by
  rw [stampPage_eq] at h
  split_ifs at h with hslots
  rw [← Option.some.inj h, stampPage_eq, stampPage_eq]
  have hrecords : RecordSlots stamps (markSlots old stamps page.slots) := fun s hs => by
    rw [isRecord_markSlots]
    exact hslots s hs
  have hmarks : markSlots new stamps (markSlots old stamps page.slots) = markSlots new stamps page.slots := by
    simp only [markSlots, List.mapIdx_mapIdx]
    congr 1
    funext i cell
    exact markCell_markCell old new stamps i cell
  simp only [hrecords, hslots, if_true, hmarks, Nat.max_assoc, max_eq_right hle]

end Grafx.Txn
