import OktoGrafx.Heap.Shape

/-! Well-formed heap stores, and the table contents they stand for. -/

namespace Grafx.Heap

open List

variable {e : TableExtent} {pageSize : ℕ}

def asExtent : Option Cell → Option TableExtent
  | some (.extent e) => some e
  | _ => none

def entriesOf (pages : List (Page Cell)) : List TableExtent :=
  (pages[headerPageIndex]?.map fun p => p.slots.tail.filterMap asExtent).getD []

def directoryCells (entries : List TableExtent) : List (Option Cell) := entries.map fun e => some (.extent e)

def HeaderPage (pages : List (Page Cell)) : Prop :=
  ∃ p floor, pages[headerPageIndex]? = some p ∧ p.pageType = .metaPage ∧
    p.slots = some (.heapHeader floor) :: directoryCells (entriesOf pages)

def Stored (pages : List (Page Cell)) (tableId : ℕ) (v : StoredVersion) : Prop :=
  ∃ e ∈ entriesOf pages, e.tableId = tableId ∧ ∃ xs, DataChain pages tableId e.firstPage xs ∧ v ∈ versionsOn pages xs

def BodyOf (pages : List (Page Cell)) (pageSize : ℕ) (h : RecordHeader) (payload : Payload) : RecordBody → Prop
  | .inline bytes => h.flags.hasOverflow = false ∧ bytes = payload ∧ payload.length = h.payloadLen
  | .overflow first =>
    h.flags.hasOverflow = true ∧ payload.length = h.payloadLen ∧ ∃ ys, Blob pages pageSize first ys payload

def Owns (pages : List (Page Cell)) (pageSize : ℕ) (v : StoredVersion) (index : ℕ) : Prop :=
  ∃ first ys payload, v.body = .overflow first ∧ Blob pages pageSize first ys payload ∧ index ∈ ys

def TailOf (pages : List (Page Cell)) (tableId tail length : ℕ) : Prop :=
  ∃ e ∈ entriesOf pages, e.tableId = tableId ∧
    ∃ xs, DataChain pages tableId e.firstPage xs ∧ xs.getLast? = some tail ∧ xs.length = length

/-- The page is the one at this length of the chain, whether or not more pages follow. -/
def OnChain (pages : List (Page Cell)) (tableId index length : ℕ) : Prop :=
  ∃ e ∈ entriesOf pages, e.tableId = tableId ∧
    ∃ before later, DataChain pages tableId e.firstPage (before ++ index :: later) ∧ before.length + 1 = length

def CacheOk (s : HeapStore) : Prop :=
  ∀ tableId hint, s.tailCache tableId = some hint → hint.epoch ≤ s.derivedEpoch ∧
    (hint.epoch = s.derivedEpoch → OnChain s.pages tableId hint.tail hint.length)

/-- No table is lost, no counter falls back, and pages are only linked behind the chains there were. -/
def Grows (pages pages' : List (Page Cell)) : Prop :=
  ∀ e ∈ entriesOf pages, ∃ e' ∈ entriesOf pages', e'.tableId = e.tableId ∧ e.nextRecordId ≤ e'.nextRecordId ∧
    ∀ xs, DataChain pages e.tableId e.firstPage xs → ∃ more, DataChain pages' e.tableId e'.firstPage (xs ++ more)

theorem Grows.refl (pages : List (Page Cell)) : Grows pages pages := fun e he =>
  ⟨e, he, rfl, le_rfl, fun xs hchain => ⟨[], (List.append_nil xs).symm ▸ hchain⟩⟩

theorem Grows.trans {pages pages' pages'' : List (Page Cell)} (h : Grows pages pages') (h' : Grows pages' pages'') :
    Grows pages pages'' := by
  intro e he
  obtain ⟨e₁, he₁, hid₁, hfloor₁, hchain₁⟩ := h e he
  obtain ⟨e₂, he₂, hid₂, hfloor₂, hchain₂⟩ := h' e₁ he₁
  refine ⟨e₂, he₂, hid₂.trans hid₁, hfloor₁.trans hfloor₂, fun xs hxs => ?_⟩
  obtain ⟨more, hmore⟩ := hchain₁ xs hxs
  obtain ⟨more', hmore'⟩ := hchain₂ _ (hid₁ ▸ hmore)
  exact ⟨more ++ more', by rwa [hid₁, List.append_assoc] at hmore'⟩

theorem Grows.onChain {pages pages' : List (Page Cell)} (h : Grows pages pages') {tableId index length : ℕ}
    (hon : OnChain pages tableId index length) : OnChain pages' tableId index length := by
  obtain ⟨e, he, rfl, before, later, hchain, hlength⟩ := hon
  obtain ⟨e', he', hid, -, hgrown⟩ := h e he
  obtain ⟨more, hmore⟩ := hgrown _ hchain
  rw [List.append_assoc, List.cons_append] at hmore
  exact ⟨e', he', hid, before, later ++ more, hmore, hlength⟩

theorem TailOf.onChain {pages : List (Page Cell)} {tableId tail length : ℕ} (h : TailOf pages tableId tail length) :
    OnChain pages tableId tail length := by
  obtain ⟨e, he, hid, xs, hchain, hlast, rfl⟩ := h
  obtain ⟨before, rfl⟩ := List.getLast?_eq_some_iff.mp hlast
  exact ⟨e, he, hid, before, [], hchain, by rw [List.length_append, List.length_singleton]⟩

/-- A page of the chain that links to none is its last. -/
theorem OnChain.tailOf {pages : List (Page Cell)} {tableId index length : ℕ} (h : OnChain pages tableId index length)
    {p : Page Cell} (hp : pages[index]? = some p) (hend : p.nextPage = none) : TailOf pages tableId index length := by
  obtain ⟨e, he, hid, before, later, hchain, rfl⟩ := h
  have hlater := (Linked.cons_iff.mp hchain.linked.suffix).2
  simp only [nextOf, hp, Option.bind_some, hend] at hlater
  rw [Linked.none_iff.mp hlater] at hchain
  exact ⟨e, he, hid, _, hchain, List.getLast?_concat, by rw [List.length_append, List.length_singleton]⟩

structure Wf (s : HeapStore) : Prop where
  room : 512 ≤ s.pageSize
  header : HeaderPage s.pages
  distinct : ((entriesOf s.pages).map (·.tableId)).Nodup
  chains : ∀ e ∈ entriesOf s.pages, ∃ xs, DataChain s.pages e.tableId e.firstPage xs
  bodies : ∀ tableId v, Stored s.pages tableId v → ∃ payload, BodyOf s.pages s.pageSize v.header payload v.body
  exclusive : ∀ tableId v tableId' v' index, Stored s.pages tableId v → Stored s.pages tableId' v' →
    Owns s.pages s.pageSize v index → Owns s.pages s.pageSize v' index → v.ref = v'.ref
  cache : CacheOk s

structure Row where
  ref : RecordRef
  header : RecordHeader
  payload : Payload
  deriving DecidableEq, Repr

def payloadAt (pages : List (Page Cell)) (h : RecordHeader) (body : RecordBody) : Payload :=
  match payloadOf pages h body with
  | .ok payload => payload
  | .error _ => []

def rowOf (pages : List (Page Cell)) (v : StoredVersion) : Row := ⟨v.ref, v.header, payloadAt pages v.header v.body⟩

def rowsOf (pages : List (Page Cell)) (tableId : ℕ) : List Row := (walk pages tableId).versions.map (rowOf pages)

def Row.version (r : Row) : HeapVersion :=
  ⟨r.header.recordId, r.header.xmin, r.header.xmax, r.payload, r.header.previous, r.header.flags.deleted,
    r.header.flags.nodeLabels⟩

def Row.visibleTo (snapshot : Snapshot) (r : Row) : Bool := snapshot.visible r.header.xmin r.header.xmax

/-! ## The directory -/

theorem filterMap_asExtent (entries : List TableExtent) : (directoryCells entries).filterMap asExtent = entries := by
  induction entries with
  | nil => rfl
  | cons e rest ih =>
    exact congrArg _ ih

theorem findEntry_directoryCells (tableId slot : ℕ) (entries : List TableExtent) :
    findEntry tableId slot (directoryCells entries) =
      .ok ((entries.find? (·.tableId == tableId)).map fun e => (slot + entries.findIdx (·.tableId == tableId), e)) := by
  induction entries generalizing slot with
  | nil => rfl
  | cons e rest ih =>
    rw [directoryCells, map_cons, findEntry]
    by_cases he : e.tableId = tableId
    · simp [he, findIdx_cons]
    · have hfind : (e.tableId == tableId) = false := by simpa using he
      rw [if_neg he, ← directoryCells, ih, find?_cons, hfind, findIdx_cons, hfind]
      cases rest.find? (·.tableId == tableId) with
      | none => rfl
      | some e' => simp only [Option.map_some, cond_false]; rw [add_right_comm, add_assoc]

theorem find?_of_mem {entries : List TableExtent} (hdistinct : (entries.map (·.tableId)).Nodup)
    (he : e ∈ entries) : entries.find? (·.tableId == e.tableId) = some e := by
  induction entries with
  | nil => cases he
  | cons x rest ih =>
    rw [map_cons, nodup_cons] at hdistinct
    rcases mem_cons.mp he with rfl | he
    · simp
    · have hne : x.tableId ≠ e.tableId := fun h => hdistinct.1 (h ▸ mem_map_of_mem he)
      rw [find?_cons_of_neg (by simpa using hne)]
      exact ih hdistinct.2 he

section Reads
variable {s : HeapStore} {pages : List (Page Cell)} {payload : Payload} {body : RecordBody} {h : RecordHeader} {v : StoredVersion} {tableId : ℕ}

variable (hs : Wf s)
include hs

section
variable (he : e ∈ entriesOf s.pages)
include he

theorem eq_of_tableId {e' : TableExtent} (he' : e' ∈ entriesOf s.pages) (h : e.tableId = e'.tableId) : e = e' := by
  have hfind := find?_of_mem hs.distinct he
  rw [h, find?_of_mem hs.distinct he'] at hfind
  exact (Option.some.inj hfind).symm

theorem firstPage_ne_zero : e.firstPage ≠ headerPageIndex := by
  intro hzero
  obtain ⟨p, floor, hp, htype, -⟩ := hs.header
  obtain ⟨xs, hchain⟩ := hs.chains e he
  obtain ⟨rest, rfl, -⟩ := Linked.some_iff.mp hchain.linked
  obtain ⟨q, hq, hdata⟩ := hchain.data e.firstPage mem_cons_self
  rw [hzero, hp] at hq
  rw [← Option.some.inj hq] at hdata
  exact absurd (htype.symm.trans hdata.type) (by decide)

omit he in
theorem extentOf_eq (tableId : ℕ) {p : Page Cell} (hp : s.pages[headerPageIndex]? = some p) :
    extentOf tableId p = .ok ((entriesOf s.pages).find? (·.tableId == tableId)) := by
  obtain ⟨q, floor, hq, htype, hslots⟩ := hs.header
  rw [hp] at hq
  cases hq
  have hheader : requireHeaderPage p = .ok floor := by simp [requireHeaderPage, htype, hslots]
  have htail : p.slots.tail = directoryCells (entriesOf s.pages) := by rw [hslots]; rfl
  simp only [extentOf, hheader, htail, findEntry_directoryCells, bind, Except.bind]
  cases hfind : (entriesOf s.pages).find? (·.tableId == tableId) with
  | none => rfl
  | some e =>
    have he := firstPage_ne_zero hs (mem_of_find?_eq_some hfind)
    simp only [Option.map_some, requireFirstPage, if_neg he]
    rfl

theorem walk_of_entry {xs : List ℕ} (hchain : DataChain s.pages e.tableId e.firstPage xs) :
    walk s.pages e.tableId = ⟨versionsOn s.pages xs, none⟩ := by
  obtain ⟨p, floor, hp, -⟩ := hs.header
  simp only [walk, hp, extentOf_eq hs e.tableId hp, find?_of_mem hs.distinct he]
  exact walkFrom_eq hchain (by simp) (hchain.length_le.trans (Nat.le_succ _))

end

theorem walk_of_absent (habsent : ∀ e ∈ entriesOf s.pages, e.tableId ≠ tableId) : walk s.pages tableId = ⟨[], none⟩ := by
  obtain ⟨p, floor, hp, -⟩ := hs.header
  have hfind : (entriesOf s.pages).find? (·.tableId == tableId) = none :=
    find?_eq_none.mpr fun e he => by simpa using habsent e he
  simp only [walk, hp, extentOf_eq hs tableId hp, hfind]

theorem walk_failure (tableId : ℕ) : (walk s.pages tableId).failure = none := by
  by_cases h : ∃ e ∈ entriesOf s.pages, e.tableId = tableId
  · obtain ⟨e, he, rfl⟩ := h
    obtain ⟨xs, hchain⟩ := hs.chains e he
    rw [walk_of_entry hs he hchain]
  · rw [walk_of_absent hs (by simpa using h)]

theorem mem_walk_iff : v ∈ (walk s.pages tableId).versions ↔ Stored s.pages tableId v := by
  by_cases h : ∃ e ∈ entriesOf s.pages, e.tableId = tableId
  · obtain ⟨e, he, rfl⟩ := h
    obtain ⟨xs, hchain⟩ := hs.chains e he
    rw [walk_of_entry hs he hchain]
    constructor
    · intro hv
      exact ⟨e, he, rfl, xs, hchain, hv⟩
    · rintro ⟨e', he', hid, xs', hchain', hv⟩
      obtain rfl := eq_of_tableId hs he' he hid
      rwa [← hchain.linked.unique hchain'.linked] at hv
  · rw [walk_of_absent hs (by simpa using h)]
    constructor
    · intro hv
      cases hv
    · rintro ⟨e, he, hid, -⟩
      exact absurd ⟨e, he, hid⟩ h

omit hs in
theorem payloadOf_eq (hsize : 512 ≤ pageSize) (hbody : BodyOf pages pageSize h payload body) : payloadOf pages h body = .ok payload := by
  cases body with
  | inline bytes =>
    obtain ⟨-, rfl, -⟩ := hbody
    rfl
  | overflow first =>
    obtain ⟨-, hlength, ys, hblob⟩ := hbody
    simp only [payloadOf, hblob.readChain hsize, bind, Except.bind, ← hlength, take_length]
    rfl

omit hs in
theorem BodyOf.length (hbody : BodyOf pages pageSize h payload body) : payload.length = h.payloadLen := by
  cases body with
  | inline bytes => exact hbody.2.2
  | overflow first => exact hbody.2.1

omit hs in
theorem payloadAt_eq (hsize : 512 ≤ pageSize) (hbody : BodyOf pages pageSize h payload body) : payloadAt pages h body = payload := by
  rw [payloadAt, payloadOf_eq hsize hbody]

omit hs in
theorem decodeVersion_eq (hsize : 512 ≤ pageSize) (hbody : ∃ payload, BodyOf pages pageSize v.header payload v.body) :
    decodeVersion pages v.header v.body = .ok (rowOf pages v).version := by
  obtain ⟨payload, hbody⟩ := hbody
  simp only [decodeVersion, payloadOf_eq hsize hbody, bind, Except.bind, hbody.length, rowOf, Row.version,
    payloadAt_eq hsize hbody]
  simp [pure, Except.pure]

omit hs in
theorem decodeAll_eq {vs : List StoredVersion} (hsize : 512 ≤ pageSize)
    (hbodies : ∀ v ∈ vs, ∃ payload, BodyOf pages pageSize v.header payload v.body) :
    decodeAll pages vs = .ok (vs.map fun v => (v.ref, (rowOf pages v).version)) := by
  induction vs with
  | nil => rfl
  | cons v rest ih =>
    have hv := decodeVersion_eq hsize (hbodies v mem_cons_self)
    have hrest := ih (forall_mem_cons.mp hbodies).2
    simp only [decodeAll, hv, hrest, bind, Except.bind, map_cons]
    rfl

theorem scan_eq (tableId : ℕ) (snapshot : Snapshot) : scan s.pages tableId snapshot =
      .ok (((rowsOf s.pages tableId).filter (Row.visibleTo snapshot)).map fun r => (r.ref, r.version)) := by
  have hbodies : ∀ v ∈ (walk s.pages tableId).versions.filter (visibleTo snapshot),
      ∃ payload, BodyOf s.pages s.pageSize v.header payload v.body :=
    fun v hv => hs.bodies tableId v ((mem_walk_iff hs).mp (mem_filter.mp hv).1)
  simp only [scan, decodeAll_eq hs.room hbodies, walk_failure hs, bind, Except.bind, rowsOf, filter_map,
    map_map]
  rfl

theorem lookupWithRef_eq (tableId recordId : ℕ) (snapshot : Snapshot) : lookupWithRef s.pages tableId recordId snapshot =
      .ok (((rowsOf s.pages tableId).find? fun r => r.header.recordId == recordId && r.visibleTo snapshot).map
        fun r => (r.ref, r.version)) := by
  have hfind : (rowsOf s.pages tableId).find? (fun r => r.header.recordId == recordId && r.visibleTo snapshot) =
      ((walk s.pages tableId).versions.find? fun v => v.header.recordId == recordId && visibleTo snapshot v).map
        (rowOf s.pages) := by
    rw [rowsOf, find?_map]
    rfl
  rw [hfind]
  unfold lookupWithRef
  cases hv : (walk s.pages tableId).versions.find? fun v => v.header.recordId == recordId && visibleTo snapshot v with
  | none => simp only [hv, walk_failure hs, Option.map_none]
  | some v =>
    have hstored := (mem_walk_iff hs).mp (mem_of_find?_eq_some hv)
    simp only [hv, decodeVersion_eq hs.room (hs.bodies tableId v hstored), bind, Except.bind, Option.map_some]
    rfl

theorem readSlot_eq (hv : Stored s.pages tableId v) : readSlot s.pages v.ref = .ok (tableId, v.header, v.body) := by
  obtain ⟨e, he, rfl, xs, hchain, hmem⟩ := hv
  obtain ⟨hpage, p, hp, hslot, hcell⟩ := mem_versionsOn.mp hmem
  obtain ⟨q, hq, hdata⟩ := hchain.data _ hpage
  cases hp.symm.trans hq
  have hnonzero : v.ref.page ≠ headerPageIndex := by
    intro hzero
    obtain ⟨h0, floor, hp0, htype, -⟩ := hs.header
    rw [hzero, hp0] at hp
    rw [← Option.some.inj hp] at hdata
    exact absurd (htype.symm.trans hdata.type) (by decide)
  obtain ⟨rest, hslots⟩ := head?_eq_some_iff.mp hdata.head
  have hdatapage : requireDataPage v.ref.page p = .ok () := by simp [requireDataPage, hdata.type, hslots]
  have hid : pageTableId v.ref.page p = .ok e.tableId := by simp [pageTableId, hslots]
  simp only [readSlot, if_neg hnonzero, hp, hdatapage, hid, bind, Except.bind, requireThat, if_pos hslot, hcell]
  rfl

theorem readIf_eq (hv : Stored s.pages tableId v) (snapshot : Snapshot) : readIf s.pages v.ref snapshot =
      .ok (if (rowOf s.pages v).visibleTo snapshot then some (tableId, (rowOf s.pages v).version) else none) := by
  have hbody := hs.bodies tableId v hv
  simp only [readIf, readSlot_eq hs hv, bind, Except.bind, decodeVersion_eq hs.room hbody]
  change (if snapshot.visible v.header.xmin v.header.xmax then _ else _) = _
  by_cases hvis : snapshot.visible v.header.xmin v.header.xmax = true
  · rw [if_pos hvis, if_pos (show (rowOf s.pages v).visibleTo snapshot = true from hvis)]
    rfl
  · rw [if_neg hvis, if_neg (show ¬ (rowOf s.pages v).visibleTo snapshot = true from hvis)]
    rfl

end Reads

theorem bootstrap_wf (hsize : 512 ≤ pageSize) (labelLength : Payload → Option ℕ) : Wf (bootstrap pageSize labelLength) := by
  have hstored : ∀ {t v}, ¬ Stored (bootstrap pageSize labelLength).pages t v := by
    rintro t v ⟨e, he, -⟩
    cases he
  exact ⟨hsize, ⟨_, 0, rfl, rfl, rfl⟩, nodup_nil, nofun, fun t v hv => absurd hv hstored,
    fun t v t' v' i hv => absurd hv hstored, nofun⟩

end Grafx.Heap
