import OktoGrafx.Txn.WriteRows

/-! The committed images of an attempt carry its number in exactly the headers the attempt wrote;
nothing else of a version changes. -/

namespace Grafx.Txn
open List Heap

variable {s : HeapStore} {rows : List RowWrite}

def isBorn (rows : List RowWrite) (ref : RecordRef) : Bool := rows.any fun row => row.born == some ref

def isEnded (rows : List RowWrite) (ref : RecordRef) : Bool := rows.any fun row => row.ended == some ref

def stampHeader (csn : ℕ) (rows : List RowWrite) (ref : RecordRef) (h : RecordHeader) : RecordHeader :=
  { h with
    xmin := if isBorn rows ref then csn else h.xmin
    xmax := if isEnded rows ref then csn else h.xmax }

theorem stampHeader_keepsPayload (csn : ℕ) (rows : List RowWrite) : KeepsPayload (stampHeader csn rows) :=
  fun _ _ => ⟨rfl, rfl⟩

def StampsRecords (pages : List (Page Cell)) (rows : List RowWrite) : Prop :=
  ∀ row ∈ rows, ∀ ref, row.born = some ref ∨ row.ended = some ref →
    ∃ p h body, pages[ref.page]? = some p ∧ p.slots[ref.slot]? = some (some (.record h body))

theorem mem_stamps {row : RowWrite} {i : ℕ} {stamp : VersionStamp} :
    stamp ∈ row.stamps i ↔ stamp.reference.page = i ∧
      (stamp.isBirth = true ∧ row.born = some stamp.reference ∨ stamp.isBirth = false ∧ row.ended = some stamp.reference) := by
  obtain ⟨ref, birth⟩ := stamp
  simp only [RowWrite.stamps, mem_append, mem_map, Option.mem_toList, Option.filter_eq_some_iff, beq_iff_eq,
    VersionStamp.mk.injEq]
  constructor
  · rintro (⟨ref', ⟨hborn, hpage⟩, rfl, rfl⟩ | ⟨ref', ⟨hended, hpage⟩, rfl, rfl⟩)
    · exact ⟨hpage, .inl ⟨rfl, hborn⟩⟩
    · exact ⟨hpage, .inr ⟨rfl, hended⟩⟩
  · rintro ⟨hpage, ⟨rfl, hborn⟩ | ⟨rfl, hended⟩⟩
    · exact .inl ⟨ref, ⟨hborn, hpage⟩, rfl, rfl⟩
    · exact .inr ⟨ref, ⟨hended, hpage⟩, rfl, rfl⟩

theorem exists_stamps (rows : List RowWrite) (i slot : ℕ) (birth : Bool) :
    (∃ stamp ∈ rows.flatMap (·.stamps i), stamp.isBirth = birth ∧ stamp.reference.slot = slot) ↔
      ∃ row ∈ rows, ⟨⟨i, slot⟩, birth⟩ ∈ row.stamps i := by
  constructor
  · rintro ⟨⟨⟨page, _⟩, _⟩, hmem, rfl, rfl⟩
    obtain ⟨row, hrow, hstamp⟩ := mem_flatMap.mp hmem
    obtain rfl : page = i := (mem_stamps.mp hstamp).1
    exact ⟨row, hrow, hstamp⟩
  · rintro ⟨row, hrow, hstamp⟩
    exact ⟨_, mem_flatMap.mpr ⟨row, hrow, hstamp⟩, rfl, rfl⟩

theorem bornAt_stamps (rows : List RowWrite) (i slot : ℕ) :
    bornAt (rows.flatMap (·.stamps i)) slot = isBorn rows ⟨i, slot⟩ := by
  rw [Bool.eq_iff_iff, bornAt, isBorn, any_eq_true, any_eq_true]
  simpa [mem_stamps] using exists_stamps rows i slot true

theorem endedAt_stamps (rows : List RowWrite) (i slot : ℕ) :
    endedAt (rows.flatMap (·.stamps i)) slot = isEnded rows ⟨i, slot⟩ := by
  rw [Bool.eq_iff_iff, endedAt, isEnded, any_eq_true, any_eq_true]
  simpa [mem_stamps] using exists_stamps rows i slot false

theorem markCell_stamps (csn : ℕ) (rows : List RowWrite) (i slot : ℕ) (c : Option Cell) :
    markCell csn (rows.flatMap (·.stamps i)) slot c = c.map (mapCell (stampHeader csn rows ⟨i, slot⟩)) := by
  cases c with
  | none => rfl
  | some cell => cases cell with
    | record h body =>
      simp only [markCell, bornAt_stamps, endedAt_stamps]
      rfl
    | _ => rfl

theorem committedImage_eq (csn : ℕ) (base : HeapStore) (hstamps : StampsRecords s.pages rows) {i : ℕ} {p : Page Cell} (hp : s.pages[i]? = some p) :
    ∃ p', committedImage csn rows (attemptPages base s rows) i p = some p' ∧ p'.pageType = p.pageType ∧
      p'.nextPage = p.nextPage ∧ p'.slots = p.slots.mapIdx fun slot => Option.map (mapCell (stampHeader csn rows ⟨i, slot⟩)) := by
  have hslots : (p.slots.mapIdx fun slot => Option.map (mapCell (stampHeader csn rows ⟨i, slot⟩))) =
      markSlots csn (rows.flatMap (·.stamps i)) p.slots := by
    congr 1
    funext slot c
    exact (markCell_stamps csn rows i slot c).symm
  have hrecords : RecordSlots (rows.flatMap (·.stamps i)) p.slots := by
    intro stamp hstamp
    obtain ⟨row, hrow, hmem⟩ := mem_flatMap.mp hstamp
    obtain ⟨rfl, hcase⟩ := mem_stamps.mp hmem
    obtain ⟨q, h, body, hq, hcell⟩ := hstamps row hrow stamp.reference (hcase.imp And.right And.right)
    cases hp.symm.trans hq
    rw [hcell]
    rfl
  unfold committedImage
  split_ifs with hmodified
  · exact ⟨_, (stampPage_eq csn _ p).trans (if_pos hrecords), rfl, rfl, hslots.symm⟩
  · -- A page the attempt did not modify has none of its rows.
    have hnone : rows.flatMap (·.stamps i) = [] := by
      refine flatMap_eq_nil_iff.mpr fun row hrow => ?_
      by_contra hne
      refine hmodified (mem_filter.mpr ⟨mem_range.mpr (List.getElem?_eq_some_iff.mp hp).1, ?_⟩)
      refine Bool.or_eq_true _ _ |>.mpr (.inr (any_eq_true.mpr ⟨row, hrow, ?_⟩))
      simpa using hne
    refine ⟨p, rfl, rfl, rfl, ?_⟩
    rw [hslots, hnone, markSlots]
    refine ext_getElem? fun k => ?_
    rw [getElem?_mapIdx]
    cases p.slots[k]? with
    | none => rfl
    | some c => rw [Option.map_some, markCell_nil]

theorem applyImages_eq (csn : ℕ) (base : HeapStore) (hstamps : StampsRecords s.pages rows) :
    ∃ pages, applyImages csn rows base s = some { s with pages := pages } ∧
      Reheaded s.pages pages (stampHeader csn rows) := by
  have hall : ∀ x ∈ (s.pages.mapIdx fun i p => committedImage csn rows (attemptPages base s rows) i p),
      ∃ p', x = some p' := by
    intro x hx
    obtain ⟨i, hi, rfl⟩ := mem_mapIdx.mp hx
    obtain ⟨p', hp', -⟩ := committedImage_eq csn base hstamps (getElem?_eq_getElem hi)
    exact ⟨p', hp'⟩
  obtain ⟨pages, hpages⟩ := Pointwise.exists_forall₂ hall
  have hmapM : (s.pages.mapIdx fun i p => committedImage csn rows (attemptPages base s rows) i p).mapM id = some pages :=
    Pointwise.mapM_eq_some_iff.mpr hpages
  refine ⟨pages, ?_, fun i p hp => ?_⟩
  · rw [applyImages, hmapM]
    rfl
  · obtain ⟨p', hp', hrest⟩ := committedImage_eq csn base hstamps hp
    have himage : (s.pages.mapIdx fun i p => committedImage csn rows (attemptPages base s rows) i p)[i]? = some (some p') := by
      rw [getElem?_mapIdx, hp, Option.map_some, hp']
    obtain ⟨q, hq, heq⟩ := Pointwise.exists_getElem? hpages himage
    exact ⟨p', by rw [hq, Option.some.inj heq], hrest⟩

end Grafx.Txn
