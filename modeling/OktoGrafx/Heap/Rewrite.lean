import OktoGrafx.Heap.Tail

/-! Changes of the stored versions themselves. A rewritten store has the old tables with new version
lists; it stays well-formed as long as every version that is left still has its payload and no two
of them share an overflow page. -/

namespace Grafx.Heap

open List

variable {xs : List ℕ} {payload : Payload} {first i : ℕ}

def SameCells (p p' : Page Cell) : Prop :=
  p'.pageType = p.pageType ∧ p'.nextPage = p.nextPage ∧ p'.slots = p.slots

structure Rewritten (s s' : HeapStore) (vs : ℕ → List StoredVersion) : Prop where
  header : HeaderPage s'.pages
  entries : entriesOf s'.pages = entriesOf s.pages
  chains : ∀ e ∈ entriesOf s.pages,
    ∃ xs, DataChain s'.pages e.tableId e.firstPage xs ∧ versionsOn s'.pages xs = vs e.tableId
  absent : ∀ tableId, (∀ e ∈ entriesOf s.pages, e.tableId ≠ tableId) → vs tableId = []
  pageSize : s'.pageSize = s.pageSize
  labelLength : s'.labelLength = s.labelLength
  bodies : ∀ tableId, ∀ v ∈ vs tableId, ∃ payload, BodyOf s.pages s.pageSize v.header payload v.body
  kept : ∀ tableId, ∀ v ∈ vs tableId, ∀ i, Owns s.pages s.pageSize v i →
    ∀ p, s.pages[i]? = some p → ∃ p', s'.pages[i]? = some p' ∧ SameCells p p'
  exclusive : ∀ tableId v tableId' v' i, v ∈ vs tableId → v' ∈ vs tableId' → Owns s.pages s.pageSize v i →
    Owns s.pages s.pageSize v' i → v.ref = v'.ref
  cache : CacheOk s'
  grows : Grows s.pages s'.pages

variable {s s' : HeapStore} {vs : ℕ → List StoredVersion} {tableId : ℕ} {v : StoredVersion}

section
variable (h : Rewritten s s' vs)
include h

theorem Rewritten.blob (hv : v ∈ vs tableId) {ys : List ℕ} (hbody : v.body = .overflow first) (hblob : Blob s.pages s.pageSize first ys payload) :
    Blob s'.pages s'.pageSize first ys payload := by
  have hsame : ∀ i ∈ ys, ∀ p, s.pages[i]? = some p → ∃ p', s'.pages[i]? = some p' ∧ SameCells p p' :=
    fun i hi => h.kept tableId v hv i ⟨first, ys, payload, hbody, hblob, hi⟩
  refine ⟨hblob.nonempty, ?_, ?_⟩
  · refine hblob.linked.congr fun i hi => ?_
    obtain ⟨p, hp, -⟩ := hblob.mem_page hi
    obtain ⟨p', hp', -, hnext, -⟩ := hsame i hi p hp
    simp only [nextOf, hp, hp', Option.bind_some, hnext]
  · rw [h.pageSize]
    refine Pointwise.forall₂_imp hblob.chunks fun i hi chunk _ hpage => ?_
    obtain ⟨p, hp, htype, hslots⟩ := hpage
    obtain ⟨p', hp', htype', -, hslots'⟩ := hsame i hi p hp
    exact ⟨p', hp', htype'.trans htype, hslots'.trans hslots⟩

theorem Rewritten.bodyOf (hv : v ∈ vs tableId) (hbody : BodyOf s.pages s.pageSize v.header payload v.body) :
    BodyOf s'.pages s'.pageSize v.header payload v.body := by
  cases hform : v.body with
  | inline bytes => rwa [hform] at hbody
  | overflow first =>
    rw [hform] at hbody
    obtain ⟨hflag, hlength, ys, hblob⟩ := hbody
    exact ⟨hflag, hlength, ys, h.blob hv hform hblob⟩

theorem Rewritten.owns (hv : v ∈ vs tableId) (howns : Owns s'.pages s'.pageSize v i) : Owns s.pages s.pageSize v i := by
  obtain ⟨first, ys', payload', hform, hblob', hi⟩ := howns
  obtain ⟨payload, hbody⟩ := h.bodies tableId v hv
  rw [hform] at hbody
  obtain ⟨-, -, ys, hblob⟩ := hbody
  have hsame := hblob'.linked.unique (h.blob hv hform hblob).linked
  exact ⟨first, ys, payload, hform, hblob, hsame ▸ hi⟩

theorem Rewritten.stored_iff : Stored s'.pages tableId v ↔ v ∈ vs tableId := by
  constructor
  · rintro ⟨e, he, rfl, xs, hchain, hmem⟩
    obtain ⟨xs', hchain', hvs⟩ := h.chains e (h.entries ▸ he)
    rw [← hvs, ← hchain.linked.unique hchain'.linked]
    exact hmem
  · intro hv
    by_cases hentry : ∃ e ∈ entriesOf s.pages, e.tableId = tableId
    · obtain ⟨e, he, rfl⟩ := hentry
      obtain ⟨xs, hchain, hvs⟩ := h.chains e he
      exact ⟨e, h.entries.symm ▸ he, rfl, xs, hchain, hvs ▸ hv⟩
    · rw [h.absent tableId (by simpa using hentry)] at hv
      cases hv

end

theorem Rewritten.wf (hs : Wf s) (h : Rewritten s s' vs) : Wf s' where
  room := h.pageSize ▸ hs.room
  header := h.header
  distinct := h.entries.symm ▸ hs.distinct
  chains := by
    intro e he
    obtain ⟨xs, hchain, -⟩ := h.chains e (h.entries ▸ he)
    exact ⟨xs, hchain⟩
  bodies := by
    intro t w hw
    have hw := h.stored_iff.mp hw
    obtain ⟨payload, hbody⟩ := h.bodies t w hw
    exact ⟨payload, h.bodyOf hw hbody⟩
  exclusive := by
    intro t w t' w' i hw hw' howns howns'
    have hw := h.stored_iff.mp hw
    have hw' := h.stored_iff.mp hw'
    exact h.exclusive t w t' w' i hw hw' (h.owns hw howns) (h.owns hw' howns')
  cache := h.cache

theorem Rewritten.walk (hs : Wf s) (h : Rewritten s s' vs) (tableId : ℕ) : walk s'.pages tableId = ⟨vs tableId, none⟩ := by
  by_cases hentry : ∃ e ∈ entriesOf s.pages, e.tableId = tableId
  · obtain ⟨e, he, rfl⟩ := hentry
    obtain ⟨xs, hchain, hvs⟩ := h.chains e he
    rw [walk_of_entry (h.wf hs) (h.entries.symm ▸ he) hchain, hvs]
  · have habsent : ∀ e ∈ entriesOf s.pages, e.tableId ≠ tableId := by simpa using hentry
    rw [h.absent tableId habsent, walk_of_absent (h.wf hs) (h.entries.symm ▸ habsent)]

theorem Rewritten.rowsOf (hs : Wf s) (h : Rewritten s s' vs) (tableId : ℕ) :
    rowsOf s'.pages tableId = (vs tableId).map (rowOf s.pages) := by
  rw [Heap.rowsOf, h.walk hs]
  refine map_congr_left fun v hv => ?_
  obtain ⟨payload, hbody⟩ := h.bodies tableId v hv
  simp only [rowOf, payloadAt_eq hs.room hbody, payloadAt_eq (h.pageSize.symm ▸ hs.room) (h.bodyOf hv hbody)]

/-! ## One version more -/

def withVersion (s : HeapStore) (tableId : ℕ) (v : StoredVersion) (t : ℕ) : List StoredVersion :=
  if t = tableId then (walk s.pages t).versions ++ [v] else (walk s.pages t).versions

theorem mem_withVersion (hs : Wf s) {t : ℕ} {w : StoredVersion} (hw : w ∈ withVersion s tableId v t) :
    Stored s.pages t w ∨ w = v := by
  unfold withVersion at hw
  split_ifs at hw
  · rcases mem_append.mp hw with hw | hw
    · exact .inl ((mem_walk_iff hs).mp hw)
    · exact .inr (mem_singleton.mp hw)
  · exact .inl ((mem_walk_iff hs).mp hw)

/-! ## Other headers -/

section Headers

def mapCell (f : RecordHeader → RecordHeader) : Cell → Cell
  | .record h body => .record (f h) body
  | c => c

def StoredVersion.mapHeader (g : RecordRef → RecordHeader → RecordHeader) (v : StoredVersion) : StoredVersion :=
  { v with header := g v.ref v.header }

def Row.mapHeader (g : RecordRef → RecordHeader → RecordHeader) (r : Row) : Row := { r with header := g r.ref r.header }

def Reheaded (pages pages' : List (Page Cell)) (g : RecordRef → RecordHeader → RecordHeader) : Prop :=
  ∀ (i : ℕ) (p : Page Cell), pages[i]? = some p → ∃ p', pages'[i]? = some p' ∧ p'.pageType = p.pageType ∧
    p'.nextPage = p.nextPage ∧ p'.slots = p.slots.mapIdx fun slot => Option.map (mapCell (g ⟨i, slot⟩))

def KeepsPayload (g : RecordRef → RecordHeader → RecordHeader) : Prop :=
  ∀ ref h, (g ref h).payloadLen = h.payloadLen ∧ (g ref h).flags.hasOverflow = h.flags.hasOverflow

variable {g : RecordRef → RecordHeader → RecordHeader} {p : Page Cell}

theorem cellVersions_mapIdx (index slot : ℕ) (cells : List (Option Cell)) :
    cellVersions index slot (cells.mapIdx fun k => Option.map (mapCell (g ⟨index, slot + k⟩))) =
      (cellVersions index slot cells).map (StoredVersion.mapHeader g) := by
  induction cells generalizing slot with
  | nil => rfl
  | cons c rest ih =>
    have hrest := ih (slot + 1)
    simp only [add_right_comm slot 1, add_assoc] at hrest
    rw [mapIdx_cons]
    cases c with
    | none => exact hrest
    | some cell => cases cell with
      | record h body => exact congrArg (_ :: ·) hrest
      | _ => exact hrest

variable {pages pages' : List (Page Cell)}

section
variable (h : Reheaded pages pages' g)
include h

section
variable (hp : pages[i]? = some p)
include hp

theorem Reheaded.pageVersions : pageVersions pages' i = (pageVersions pages i).map (StoredVersion.mapHeader g) := by
  obtain ⟨p', hp', -, -, hslots⟩ := h i p hp
  have htail : p'.slots.tail = p.slots.tail.mapIdx fun k => Option.map (mapCell (g ⟨i, firstRecordSlot + k⟩)) := by
    rw [hslots]
    cases p.slots with
    | nil => rfl
    | cons c rest =>
      rw [mapIdx_cons, tail_cons, tail_cons]
      simp only [firstRecordSlot, add_comm]
  simp only [Heap.pageVersions, hp, hp', Option.map_some, Option.getD_some, htail, cellVersions_mapIdx]

theorem Reheaded.nextOf : nextOf pages' i = nextOf pages i := by
  obtain ⟨p', hp', -, hnext, -⟩ := h i p hp
  simp only [Heap.nextOf, hp, hp', Option.bind_some, hnext]

theorem Reheaded.dataPage {tableId : ℕ} (hdata : DataPage tableId p) : ∃ p', pages'[i]? = some p' ∧ DataPage tableId p' := by
  obtain ⟨p', hp', htype, -, hslots⟩ := h i p hp
  obtain ⟨rest, hcells⟩ := head?_eq_some_iff.mp hdata.head
  rw [hcells, mapIdx_cons] at hslots
  refine ⟨p', hp', htype.trans hdata.type, by rw [hslots]; rfl, fun c hc => ?_⟩
  rw [hslots, tail_cons] at hc
  obtain ⟨k, hk, rfl⟩ := mem_mapIdx.mp hc
  have hcell := hdata.tail rest[k] (by rw [hcells]; exact getElem_mem hk)
  match hform : rest[k] with
  | none => trivial
  | some (.record hd body) => trivial
  | some (.heapHeader _) | some (.extent _) | some (.descriptor _) | some (.chunk _) =>
    rw [hform] at hcell
    exact hcell.elim

end

theorem Reheaded.dataChain {tableId : ℕ} (hchain : DataChain pages tableId first xs) :
    DataChain pages' tableId first xs ∧ versionsOn pages' xs = (versionsOn pages xs).map (StoredVersion.mapHeader g) := by
  refine ⟨⟨hchain.linked.congr fun i hi => ?_, fun i hi => ?_⟩, ?_⟩
  · obtain ⟨p, hp, -⟩ := hchain.data i hi
    exact h.nextOf hp
  · obtain ⟨p, hp, hdata⟩ := hchain.data i hi
    exact h.dataPage hp hdata
  · rw [versionsOn, versionsOn, map_flatMap]
    refine flatMap_congr fun i hi => ?_
    obtain ⟨p, hp, -⟩ := hchain.data i hi
    exact h.pageVersions hp

omit h in
theorem mapIdx_of_no_records {cells : List (Option Cell)} (hcells : ∀ c ∈ cells, ∀ h body, c ≠ some (.record h body)) :
    (cells.mapIdx fun slot => Option.map (mapCell (g ⟨i, slot⟩))) = cells := by
  refine ext_getElem? fun k => ?_
  rw [getElem?_mapIdx]
  cases hk : cells[k]? with
  | none => rfl
  | some c =>
    have hc := hcells c (mem_of_getElem? hk)
    cases c with
    | none => rfl
    | some cell => cases cell with
      | record h body => exact absurd rfl (hc h body)
      | _ => rfl

theorem Reheaded.header (hheader : HeaderPage pages) : HeaderPage pages' ∧ entriesOf pages' = entriesOf pages := by
  obtain ⟨p, floor, hp, htype, hslots⟩ := hheader
  obtain ⟨p', hp', htype', -, hslots'⟩ := h _ p hp
  rw [mapIdx_of_no_records] at hslots'
  · have hentries : entriesOf pages' = entriesOf pages := by
      simp only [entriesOf, hp, hp', Option.map_some, hslots']
    exact ⟨⟨p', floor, hp', htype'.trans htype, hentries.symm ▸ hslots'.trans hslots⟩, hentries⟩
  · intro c hc hd body
    rw [hslots] at hc
    rcases mem_cons.mp hc with rfl | hc
    · simp
    · obtain ⟨e, -, rfl⟩ := mem_map.mp hc
      simp

theorem Reheaded.grows (hheader : HeaderPage pages) : Grows pages pages' := fun e he =>
  ⟨e, (h.header hheader).2.symm ▸ he, rfl, le_rfl, fun xs hchain => ⟨[], (append_nil xs).symm ▸ (h.dataChain hchain).1⟩⟩

end

theorem bodyOf_mapHeader (hg : KeepsPayload g) {pageSize : ℕ} {v : StoredVersion} (hbody : BodyOf pages pageSize v.header payload v.body) :
    BodyOf pages pageSize (v.mapHeader g).header payload (v.mapHeader g).body := by
  obtain ⟨hlen, hflag⟩ := hg v.ref v.header
  simp only [StoredVersion.mapHeader]
  cases hform : v.body with
  | inline bytes =>
    rw [hform] at hbody
    obtain ⟨hinline, hbytes, hlength⟩ := hbody
    exact ⟨hflag.trans hinline, hbytes, hlength.trans hlen.symm⟩
  | overflow first =>
    rw [hform] at hbody
    obtain ⟨hoverflow, hlength, hblob⟩ := hbody
    exact ⟨hflag.trans hoverflow, hlength.trans hlen.symm, hblob⟩

theorem Reheaded.rewritten (hs : Wf s) (h : Reheaded s.pages s'.pages g) (hg : KeepsPayload g)
    (hsize : s'.pageSize = s.pageSize) (hlabel : s'.labelLength = s.labelLength)
    (hcache : s'.tailCache = s.tailCache) (hepoch : s'.derivedEpoch = s.derivedEpoch) :
    Rewritten s s' fun tableId => (walk s.pages tableId).versions.map (StoredVersion.mapHeader g) := by
  obtain ⟨hheader, hentries⟩ := h.header hs.header
  have hmem : ∀ {t w}, w ∈ (walk s.pages t).versions.map (StoredVersion.mapHeader g) →
      ∃ v, Stored s.pages t v ∧ v.mapHeader g = w := by
    intro t w hw
    obtain ⟨v, hv, rfl⟩ := mem_map.mp hw
    exact ⟨v, (mem_walk_iff hs).mp hv, rfl⟩
  refine ⟨hheader, hentries, ?_, ?_, hsize, hlabel, ?_, ?_, ?_, ?_, h.grows hs.header⟩
  · intro e he
    obtain ⟨xs, hchain⟩ := hs.chains e he
    exact ⟨xs, (h.dataChain hchain).1, by rw [(h.dataChain hchain).2, walk_of_entry hs he hchain]⟩
  · intro t habsent
    rw [walk_of_absent hs habsent]
    rfl
  · intro t w hw
    obtain ⟨v, hv, rfl⟩ := hmem hw
    obtain ⟨payload, hbody⟩ := hs.bodies t v hv
    exact ⟨payload, bodyOf_mapHeader hg hbody⟩
  · rintro t w - i ⟨first, ys, bytes, -, hblob, hi⟩ p hp
    obtain ⟨chunk, q, hq, htype, hchunk⟩ := Pointwise.exists_of_mem hblob.chunks hi
    cases hp.symm.trans hq
    obtain ⟨p', hp', htype', hnext', hslots'⟩ := h i p hp
    refine ⟨p', hp', htype', hnext', ?_⟩
    rw [hslots', hchunk]
    rfl
  · intro t w t' w' i hw hw' howns howns'
    obtain ⟨v, hv, rfl⟩ := hmem hw
    obtain ⟨v', hv', rfl⟩ := hmem hw'
    exact hs.exclusive t v t' v' i hv hv' howns howns'
  · intro t hint hhint
    rw [hcache] at hhint
    rw [hepoch]
    obtain ⟨hle, htail⟩ := hs.cache t hint hhint
    exact ⟨hle, fun hcurrent => (h.grows hs.header).onChain (htail hcurrent)⟩

theorem Reheaded.rowsOf (hs : Wf s) (hg : KeepsPayload g)
    (h : Rewritten s s' fun tableId => (walk s.pages tableId).versions.map (StoredVersion.mapHeader g)) (tableId : ℕ) :
    rowsOf s'.pages tableId = (rowsOf s.pages tableId).map (Row.mapHeader g) := by
  rw [h.rowsOf hs, Heap.rowsOf, map_map, map_map]
  refine map_congr_left fun v hv => ?_
  obtain ⟨payload, hbody⟩ := hs.bodies tableId v ((mem_walk_iff hs).mp hv)
  have hmapped := payloadAt_eq hs.room (bodyOf_mapHeader hg hbody)
  simp only [Function.comp_apply, rowOf, Row.mapHeader, hmapped, payloadAt_eq hs.room hbody]
  rfl

end Headers
end Grafx.Heap
