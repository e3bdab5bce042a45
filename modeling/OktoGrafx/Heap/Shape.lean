import OktoGrafx.Heap.Write
import OktoGrafx.Lib.Linked

/-! The shape of a heap file: a directory of tables, each a chain of data pages that ends, and an
overflow chain for every payload that does not stand in its slot. A walk of such a file meets every
version once, in the order of the chain. -/

namespace Grafx.Heap

open List
variable {pages : List (Page Cell)} {tableId first fuel index pageSize slot : ℕ} {xs ys : List ℕ}
  {cells : List (Option Cell)} {p : Page Cell} {payload : Payload} {v : StoredVersion}

def nextOf (pages : List (Page Cell)) (index : ℕ) : Option ℕ := pages[index]?.bind (·.nextPage)

def IsVersionSlot : Option Cell → Prop
  | none | some (.record ..) => True
  | _ => False

structure DataPage (tableId : ℕ) (p : Page Cell) : Prop where
  type : p.pageType = .heap
  head : p.slots.head? = some (some (.descriptor tableId))
  tail : ∀ c ∈ p.slots.tail, IsVersionSlot c

structure DataChain (pages : List (Page Cell)) (tableId first : ℕ) (xs : List ℕ) : Prop where
  linked : Linked (nextOf pages) (some first) xs
  data : ∀ i ∈ xs, ∃ p, pages[i]? = some p ∧ DataPage tableId p

def IsChunkPage (pages : List (Page Cell)) (index : ℕ) (chunk : Payload) : Prop :=
  ∃ p, pages[index]? = some p ∧ p.pageType = .overflow ∧ p.slots = [some (.chunk chunk)]

structure Blob (pages : List (Page Cell)) (pageSize first : ℕ) (ys : List ℕ) (payload : Payload) : Prop where
  nonempty : 0 < payload.length
  linked : Linked (nextOf pages) (some first) ys
  chunks : List.Forall₂ (IsChunkPage pages) ys (splitPayload (chunkCapacity pageSize) payload)

/-! ## Versions -/

def cellVersions (index : ℕ) : ℕ → List (Option Cell) → List StoredVersion
  | _, [] => []
  | slot, some (.record h body) :: rest => ⟨⟨index, slot⟩, h, body⟩ :: cellVersions index (slot + 1) rest
  | slot, _ :: rest => cellVersions index (slot + 1) rest

def pageVersions (pages : List (Page Cell)) (index : ℕ) : List StoredVersion :=
  (pages[index]?.map fun p => cellVersions index firstRecordSlot p.slots.tail).getD []

def versionsOn (pages : List (Page Cell)) (xs : List ℕ) : List StoredVersion := xs.flatMap (pageVersions pages)

theorem slotVersions_eq (h : ∀ c ∈ cells, IsVersionSlot c) : slotVersions index slot cells = .ok (cellVersions index slot cells) := by
  induction cells generalizing slot with
  | nil => rfl
  | cons c rest ih =>
    have hrest : ∀ slot, slotVersions index slot rest = .ok (cellVersions index slot rest) :=
      fun _ => ih (forall_mem_cons.mp h).2
    have hc := h c mem_cons_self
    match c with
    | none => simp only [slotVersions, cellVersions, hrest]
    | some (.record hd body) => simp only [slotVersions, cellVersions, hrest]; rfl

theorem mem_cellVersions : v ∈ cellVersions index slot cells ↔
      v.ref.page = index ∧ slot ≤ v.ref.slot ∧ cells[v.ref.slot - slot]? = some (some (.record v.header v.body)) := by
  induction cells generalizing slot with
  | nil => simp [cellVersions]
  | cons c rest ih =>
    have hrest : v ∈ cellVersions index (slot + 1) rest ↔ v.ref.page = index ∧ slot < v.ref.slot ∧
        (c :: rest)[v.ref.slot - slot]? = some (some (.record v.header v.body)) := by
      rw [ih]
      refine and_congr_right fun _ => and_congr_right fun hlt => ?_
      rw [show v.ref.slot - slot = (v.ref.slot - (slot + 1)) + 1 by omega, getElem?_cons_succ]
    have hsplit : ∀ P : Prop, (v.ref.page = index ∧ slot ≤ v.ref.slot ∧ P) ↔
        (v.ref = ⟨index, slot⟩ ∧ P) ∨ (v.ref.page = index ∧ slot < v.ref.slot ∧ P) := by
      intro P
      constructor
      · rintro ⟨hpage, hle, hP⟩
        rcases Nat.eq_or_lt_of_le hle with heq | hlt
        · exact .inl ⟨by cases hv : v.ref; simp_all, hP⟩
        · exact .inr ⟨hpage, hlt, hP⟩
      · rintro (⟨hv, hP⟩ | ⟨hpage, hlt, hP⟩)
        · exact ⟨by rw [hv], by rw [hv], hP⟩
        · exact ⟨hpage, hlt.le, hP⟩
    rw [hsplit, ← hrest]
    match c with
    | some (.record hd body) =>
      simp only [cellVersions, mem_cons]
      refine or_congr_left ⟨?_, ?_⟩
      · rintro rfl
        simp
      · rintro ⟨hv, hcell⟩
        cases v
        simp_all
    | none | some (.heapHeader _) | some (.extent _) | some (.descriptor _) | some (.chunk _) =>
      refine (or_iff_right ?_).symm
      rintro ⟨hv, hcell⟩
      rw [hv] at hcell
      simp at hcell

theorem mem_versionsOn : v ∈ versionsOn pages xs ↔ v.ref.page ∈ xs ∧ ∃ p, pages[v.ref.page]? = some p ∧ firstRecordSlot ≤ v.ref.slot ∧
      p.slots[v.ref.slot]? = some (some (.record v.header v.body)) := by
  have hpage : ∀ i, v ∈ pageVersions pages i ↔ v.ref.page = i ∧ ∃ p, pages[i]? = some p ∧
      firstRecordSlot ≤ v.ref.slot ∧ p.slots[v.ref.slot]? = some (some (.record v.header v.body)) := by
    intro i
    unfold pageVersions
    cases hp : pages[i]? with
    | none => simp
    | some p =>
      simp only [Option.map_some, Option.getD_some, mem_cellVersions, Option.some.injEq, exists_eq_left']
      refine and_congr_right fun _ => and_congr_right fun hle => ?_
      rw [getElem?_tail]
      have hslot : v.ref.slot - firstRecordSlot + 1 = v.ref.slot := by
        unfold firstRecordSlot at hle ⊢
        omega
      rw [hslot]
  simp only [versionsOn, mem_flatMap, hpage]
  constructor
  · rintro ⟨i, hi, rfl, h⟩
    exact ⟨hi, h⟩
  · rintro ⟨hi, h⟩
    exact ⟨_, hi, rfl, h⟩

/-! ## Walks of a chain -/

theorem DataPage.require (h : DataPage tableId p) : requireTablePage tableId index p = .ok () := by
  obtain ⟨htype, hhead, -⟩ := h
  obtain ⟨rest, hslots⟩ := head?_eq_some_iff.mp hhead
  simp [requireTablePage, requireDataPage, pageTableId, htype, hslots, bind, Except.bind, pure, Except.pure]

theorem DataPage.unique {tableId' : ℕ} (h : DataPage tableId p) (h' : DataPage tableId' p) : tableId = tableId' := by
  have := h.head.symm.trans h'.head
  simpa using this

theorem length_le_of_nodup (hnodup : xs.Nodup) (hmem : ∀ i ∈ xs, i < pages.length) : xs.length ≤ pages.length := by
  have hsub : xs ⊆ range pages.length := fun i hi => mem_range.mpr (hmem i hi)
  simpa using (subperm_of_subset hnodup hsub).length_le

section
variable (h : DataChain pages tableId first xs)
include h

theorem DataChain.length_le : xs.length ≤ pages.length := by
  refine length_le_of_nodup h.linked.nodup fun i hi => ?_
  obtain ⟨p, hp, -⟩ := h.data i hi
  exact (List.getElem?_eq_some_iff.mp hp).1

theorem DataChain.step : ∃ p rest, xs = first :: rest ∧ pages[first]? = some p ∧ DataPage tableId p ∧ (p.nextPage = none ∧ rest = [] ∨
      ∃ following, p.nextPage = some following ∧ DataChain pages tableId following rest) := by
  obtain ⟨rest, rfl, hrest⟩ := Linked.some_iff.mp h.linked
  obtain ⟨p, hp, hdata⟩ := h.data first mem_cons_self
  have hnext : nextOf pages first = p.nextPage := by simp [nextOf, hp]
  rw [hnext] at hrest
  refine ⟨p, rest, rfl, hp, hdata, ?_⟩
  cases hfollowing : p.nextPage with
  | none => exact .inl ⟨rfl, Linked.none_iff.mp (hfollowing ▸ hrest)⟩
  | some following => exact .inr ⟨following, rfl, hfollowing ▸ hrest, (forall_mem_cons.mp h.data).2⟩

theorem walkFrom_eq {seen : List ℕ} (hseen : ∀ i ∈ xs, i ∉ seen)
    (hfuel : xs.length ≤ fuel) : walkFrom pages tableId fuel seen first = ⟨versionsOn pages xs, none⟩ := by
  induction fuel generalizing first xs seen with
  | zero => exact absurd (eq_nil_of_length_eq_zero (Nat.le_zero.mp hfuel)) h.linked.ne_nil
  | succ fuel ih =>
    obtain ⟨p, rest, rfl, hp, hdata, hend⟩ := h.step
    have hhere : pageVersions pages first = cellVersions first firstRecordSlot p.slots.tail := by
      simp [pageVersions, hp]
    simp only [walkFrom, if_neg (hseen first mem_cons_self), hp, hdata.require, slotVersions_eq hdata.tail,
      versionsOn, flatMap_cons, hhere]
    rcases hend with ⟨hnext, rfl⟩ | ⟨following, hnext, hchain⟩
    · simp [hnext]
    · simp only [hnext, ih hchain (h.linked.unseen hseen) (Nat.le_of_succ_le_succ hfuel)]
      rfl

end

theorem splitPayload_flatten {capacity : ℕ} (hcapacity : 0 < capacity) (payload : Payload) :
    (splitPayload capacity payload).flatten = payload := by
  have hcut : ∀ fuel (bytes : Payload), bytes.length ≤ fuel → (cutPayload capacity fuel bytes).flatten = bytes := by
    intro fuel
    induction fuel with
    | zero => intro bytes h; rw [eq_nil_of_length_eq_zero (Nat.le_zero.mp h)]; rfl
    | succ fuel ih =>
      intro bytes h
      cases bytes with
      | nil => rfl
      | cons b rest =>
        have hshort : ((b :: rest).drop capacity).length ≤ fuel := by
          rw [length_drop]
          omega
        rw [cutPayload, flatten_cons, ih _ hshort, take_append_drop]
        exact cons_ne_nil b rest
  unfold splitPayload
  split_ifs with hempty
  · simp [hempty]
  · exact hcut _ _ le_rfl

theorem readChain_eq {visited : List ℕ} {start : Option ℕ} {chunks : List Payload}
    (hlinked : Linked (nextOf pages) start ys) (hchunks : List.Forall₂ (IsChunkPage pages) ys chunks)
    (hvisited : ∀ i ∈ ys, i ∉ visited) (hfuel : ys.length ≤ fuel) :
    readChain pages fuel visited start = .ok chunks.flatten := by
  induction hchunks generalizing fuel visited start with
  | nil =>
    cases start with
    | none => cases fuel <;> rfl
    | some i => exact hlinked.elim
  | @cons index chunk rest chunks hpage hrest ih =>
    obtain ⟨rfl, htail⟩ := Linked.cons_iff.mp hlinked
    obtain ⟨p, hp, htype, hslots⟩ := hpage
    have hnext : nextOf pages index = p.nextPage := by simp [nextOf, hp]
    rw [hnext] at htail
    cases fuel with
    | zero => simp at hfuel
    | succ fuel =>
      simp only [readChain, if_neg (hvisited index mem_cons_self), hp, htype, ne_eq, not_true_eq_false, if_false,
        hslots, ih htail (hlinked.unseen hvisited) (Nat.le_of_succ_le_succ hfuel), flatten_cons]
      rfl

theorem Blob.mem_page (h : Blob pages pageSize first ys payload) {i : ℕ} (hi : i ∈ ys) : ∃ p, pages[i]? = some p ∧ p.pageType = .overflow := by
  have hchunks := h.chunks
  generalize splitPayload (chunkCapacity pageSize) payload = chunks at hchunks
  clear h
  induction hchunks with
  | nil => cases hi
  | cons hpage _ ih =>
    rcases mem_cons.mp hi with rfl | hi
    · obtain ⟨p, hp, htype, -⟩ := hpage
      exact ⟨p, hp, htype⟩
    · exact ih hi

theorem Blob.readChain (hsize : 512 ≤ pageSize)
    (h : Blob pages pageSize first ys payload) : readChain pages (chainLimit pages) [] (some first) = .ok payload := by
  have hcapacity : 0 < chunkCapacity pageSize := by
    unfold chunkCapacity pageHeaderSize slotEntrySize
    omega
  have hlength : ys.length ≤ pages.length := length_le_of_nodup h.linked.nodup fun i hi => by
    obtain ⟨p, hp, -⟩ := h.mem_page hi
    exact (List.getElem?_eq_some_iff.mp hp).1
  rw [readChain_eq h.linked h.chunks (by simp) (by unfold chainLimit; omega), splitPayload_flatten hcapacity]

end Grafx.Heap
