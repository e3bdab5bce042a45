import OktoGrafx.Heap.WellFormed
import OktoGrafx.Lib.Pointwise

/-! Changes no reader can notice: data and overflow pages keep their content, entries keep their
first page, and a new table has no rows. Until a version is linked in, everything a heap operation
writes is such a change. -/

namespace Grafx.Heap

variable {v : StoredVersion} {tableId : ℕ}

def EmptyTable (pages : List (Page Cell)) (e : TableExtent) : Prop :=
  ∃ p, pages[e.firstPage]? = some p ∧ p.pageType = .heap ∧ p.slots = [some (.descriptor e.tableId)] ∧ p.nextPage = none

structure PagesQuiet (pages pages' : List (Page Cell)) : Prop where
  keep : ∀ (i : ℕ) (p : Page Cell), pages[i]? = some p → p.pageType = .heap ∨ p.pageType = .overflow → pages'[i]? = some p
  header : HeaderPage pages'
  distinct : ((entriesOf pages').map (·.tableId)).Nodup
  old : ∀ e ∈ entriesOf pages, ∃ e' ∈ entriesOf pages', e'.tableId = e.tableId ∧ e'.firstPage = e.firstPage ∧
    e.nextRecordId ≤ e'.nextRecordId
  fresh : ∀ e' ∈ entriesOf pages', (∃ e ∈ entriesOf pages, e.tableId = e'.tableId ∧ e.firstPage = e'.firstPage) ∨
    (∀ e ∈ entriesOf pages, e.tableId ≠ e'.tableId) ∧ EmptyTable pages' e'

structure Quiet (s s' : HeapStore) : Prop where
  pages : PagesQuiet s.pages s'.pages
  pageSize : s'.pageSize = s.pageSize
  labelLength : s'.labelLength = s.labelLength
  cache : CacheOk s → CacheOk s'

theorem EmptyTable.chain {pages : List (Page Cell)} {e : TableExtent} (h : EmptyTable pages e) :
    DataChain pages e.tableId e.firstPage [e.firstPage] ∧ versionsOn pages [e.firstPage] = [] := by
  obtain ⟨p, hp, htype, hslots, hnext⟩ := h
  have hlast : nextOf pages e.firstPage = none := by simp [nextOf, hp, hnext]
  refine ⟨⟨⟨rfl, by rw [hlast]; trivial⟩, ?_⟩, ?_⟩
  · intro i hi
    rw [List.mem_singleton.mp hi]
    exact ⟨p, hp, htype, by simp [hslots], by simp [hslots]⟩
  · simp [versionsOn, pageVersions, hp, hslots, cellVersions]

section Pages
variable {pages pages' : List (Page Cell)} (h : PagesQuiet pages pages') {payload : Payload} {first pageSize : ℕ}
include h

theorem PagesQuiet.dataChain {xs : List ℕ} (hchain : DataChain pages tableId first xs) :
    DataChain pages' tableId first xs ∧ versionsOn pages' xs = versionsOn pages xs := by
  have hsame : ∀ i ∈ xs, pages'[i]? = pages[i]? := by
    intro i hi
    obtain ⟨p, hp, hdata⟩ := hchain.data i hi
    rw [hp]
    exact h.keep i p hp (.inl hdata.type)
  refine ⟨⟨hchain.linked.congr fun i hi => by simp only [nextOf, hsame i hi], fun i hi => ?_⟩, ?_⟩
  · obtain ⟨p, hp, hdata⟩ := hchain.data i hi
    exact ⟨p, (hsame i hi).trans hp, hdata⟩
  · exact List.flatMap_congr fun i hi => by simp only [pageVersions, hsame i hi]

theorem PagesQuiet.blob {ys : List ℕ} (hblob : Blob pages pageSize first ys payload) : Blob pages' pageSize first ys payload := by
  have hsame : ∀ i ∈ ys, pages'[i]? = pages[i]? := by
    intro i hi
    obtain ⟨p, hp, htype⟩ := hblob.mem_page hi
    rw [hp]
    exact h.keep i p hp (.inr htype)
  refine ⟨hblob.nonempty, hblob.linked.congr fun i hi => by simp only [nextOf, hsame i hi], ?_⟩
  refine Pointwise.forall₂_imp hblob.chunks fun i hi chunk _ hpage => ?_
  obtain ⟨p, hp, hchunk⟩ := hpage
  exact ⟨p, (hsame i hi).trans hp, hchunk⟩

theorem PagesQuiet.bodyOf {hd : RecordHeader} {body : RecordBody}
    (hbody : BodyOf pages pageSize hd payload body) : BodyOf pages' pageSize hd payload body := by
  cases body with
  | inline bytes => exact hbody
  | overflow first =>
    obtain ⟨hflag, hlength, ys, hblob⟩ := hbody
    exact ⟨hflag, hlength, ys, h.blob hblob⟩

theorem PagesQuiet.tailOf {tail length : ℕ} (ht : TailOf pages tableId tail length) : TailOf pages' tableId tail length := by
  obtain ⟨e, he, rfl, xs, hchain, hlast, hlength⟩ := ht
  obtain ⟨e', he', hid, hfirst, -⟩ := h.old e he
  exact ⟨e', he', hid, xs, hfirst ▸ (h.dataChain hchain).1, hlast, hlength⟩

theorem PagesQuiet.grows : Grows pages pages' := by
  intro e he
  obtain ⟨e', he', hid, hfirst, hfloor⟩ := h.old e he
  refine ⟨e', he', hid, hfloor, fun xs hchain => ⟨[], ?_⟩⟩
  rw [List.append_nil, hfirst]
  exact (h.dataChain hchain).1

variable (hchains : ∀ e ∈ entriesOf pages, ∃ xs, DataChain pages e.tableId e.firstPage xs)
include hchains

theorem PagesQuiet.chains : ∀ e' ∈ entriesOf pages', ∃ xs, DataChain pages' e'.tableId e'.firstPage xs := by
  intro e' he'
  rcases h.fresh e' he' with ⟨e, he, hid, hfirst⟩ | ⟨-, hempty⟩
  · obtain ⟨xs, hchain⟩ := hchains e he
    exact ⟨xs, hid ▸ hfirst ▸ (h.dataChain hchain).1⟩
  · exact ⟨_, hempty.chain.1⟩

theorem PagesQuiet.stored_iff : Stored pages' tableId v ↔ Stored pages tableId v := by
  constructor
  · rintro ⟨e', he', rfl, xs', hchain', hv⟩
    rcases h.fresh e' he' with ⟨e, he, hid, hfirst⟩ | ⟨-, hempty⟩
    · obtain ⟨xs, hchain⟩ := hchains e he
      have hquiet := h.dataChain hchain
      rw [hid, hfirst] at hquiet
      obtain rfl := hchain'.linked.unique hquiet.1.linked
      exact ⟨e, he, hid, xs', hid ▸ hchain, hquiet.2 ▸ hv⟩
    · obtain rfl := hchain'.linked.unique hempty.chain.1.linked
      rw [hempty.chain.2] at hv
      cases hv
  · rintro ⟨e, he, rfl, xs, hchain, hv⟩
    obtain ⟨e', he', hid, hfirst, -⟩ := h.old e he
    have hquiet := h.dataChain hchain
    exact ⟨e', he', hid, xs, hfirst ▸ hquiet.1, hquiet.2 ▸ hv⟩

end Pages

section Stores
variable {s s' s'' : HeapStore}

theorem Quiet.refl (hs : Wf s) : Quiet s s where
  pages := ⟨fun _ _ hp _ => hp, hs.header, hs.distinct, fun e he => ⟨e, he, rfl, rfl, le_rfl⟩,
    fun e he => .inl ⟨e, he, rfl, rfl⟩⟩
  pageSize := rfl
  labelLength := rfl
  cache := id

theorem Quiet.trans (h : Quiet s s') (h' : Quiet s' s'') : Quiet s s'' where
  pages := by
    refine ⟨fun i p hp htype => h'.pages.keep i p (h.pages.keep i p hp htype) htype, h'.pages.header,
      h'.pages.distinct, ?_, ?_⟩
    · intro e he
      obtain ⟨e', he', hid, hfirst, hfloor⟩ := h.pages.old e he
      obtain ⟨e'', he'', hid', hfirst', hfloor'⟩ := h'.pages.old e' he'
      exact ⟨e'', he'', hid'.trans hid, hfirst'.trans hfirst, hfloor.trans hfloor'⟩
    · intro e'' he''
      rcases h'.pages.fresh e'' he'' with ⟨e', he', hid, hfirst⟩ | ⟨hnew, hempty⟩
      · rcases h.pages.fresh e' he' with ⟨e, he, hid', hfirst'⟩ | ⟨hnew, p, hp, htype, hslots, hnext⟩
        · exact .inl ⟨e, he, hid'.trans hid, hfirst'.trans hfirst⟩
        · refine .inr ⟨fun e he => hid ▸ hnew e he, p, ?_, htype, hid ▸ hslots, hnext⟩
          rw [← hfirst]
          exact h'.pages.keep _ p hp (.inl htype)
      · refine .inr ⟨fun e he hid => ?_, hempty⟩
        obtain ⟨e', he', hid', -⟩ := h.pages.old e he
        exact hnew e' he' (hid'.trans hid)
  pageSize := h'.pageSize.trans h.pageSize
  labelLength := h'.labelLength.trans h.labelLength
  cache := h'.cache ∘ h.cache

theorem Quiet.owns (h : Quiet s s') {index : ℕ} (hbody : ∃ payload, BodyOf s.pages s.pageSize v.header payload v.body)
    (howns : Owns s'.pages s'.pageSize v index) : Owns s.pages s.pageSize v index := by
  obtain ⟨first, ys', payload', hform, hblob', hmem⟩ := howns
  obtain ⟨payload, hbody⟩ := hbody
  rw [hform] at hbody
  obtain ⟨-, -, ys, hblob⟩ := hbody
  have hsame := hblob'.linked.unique (h.pages.blob hblob).linked
  exact ⟨first, ys, payload, hform, hblob, hsame ▸ hmem⟩

variable (hs : Wf s)
include hs

variable (h : Quiet s s')
include h

theorem Quiet.wf : Wf s' where
  room := h.pageSize ▸ hs.room
  header := h.pages.header
  distinct := h.pages.distinct
  chains := h.pages.chains hs.chains
  bodies := by
    intro tableId v hv
    obtain ⟨payload, hbody⟩ := hs.bodies tableId v ((h.pages.stored_iff hs.chains).mp hv)
    exact ⟨payload, h.pageSize ▸ h.pages.bodyOf hbody⟩
  exclusive := by
    intro tableId v tableId' v' index hv hv' howns howns'
    have hstored := (h.pages.stored_iff hs.chains).mp hv
    have hstored' := (h.pages.stored_iff hs.chains).mp hv'
    exact hs.exclusive tableId v tableId' v' index hstored hstored' (h.owns (hs.bodies tableId v hstored) howns)
      (h.owns (hs.bodies tableId' v' hstored') howns')
  cache := h.cache hs.cache

theorem Quiet.rowOf (hv : Stored s.pages tableId v) : rowOf s'.pages v = rowOf s.pages v := by
  obtain ⟨payload, hbody⟩ := hs.bodies tableId v hv
  simp only [Heap.rowOf, payloadAt_eq hs.room hbody, payloadAt_eq hs.room (h.pages.bodyOf hbody)]

theorem Quiet.walk (tableId : ℕ) : walk s'.pages tableId = walk s.pages tableId := by
  have hs' := h.wf hs
  by_cases hentry : ∃ e ∈ entriesOf s.pages, e.tableId = tableId
  · obtain ⟨e, he, rfl⟩ := hentry
    obtain ⟨xs, hchain⟩ := hs.chains e he
    obtain ⟨e', he', hid, hfirst, -⟩ := h.pages.old e he
    have hquiet := h.pages.dataChain hchain
    have hchain' : DataChain s'.pages e'.tableId e'.firstPage xs := hid ▸ hfirst ▸ hquiet.1
    rw [walk_of_entry hs he hchain, ← hid, walk_of_entry hs' he' hchain', hquiet.2]
  · have habsent : ∀ e ∈ entriesOf s.pages, e.tableId ≠ tableId := by simpa using hentry
    rw [walk_of_absent hs habsent]
    by_cases hentry' : ∃ e' ∈ entriesOf s'.pages, e'.tableId = tableId
    · obtain ⟨e', he', rfl⟩ := hentry'
      rcases h.pages.fresh e' he' with ⟨e, he, hid, -⟩ | ⟨-, hempty⟩
      · exact absurd hid (habsent e he)
      · rw [walk_of_entry hs' he' hempty.chain.1, hempty.chain.2]
    · exact walk_of_absent hs' (by simpa using hentry')

theorem Quiet.rowsOf (tableId : ℕ) : rowsOf s'.pages tableId = rowsOf s.pages tableId := by
  simp only [Heap.rowsOf, h.walk hs]
  exact List.map_congr_left fun v hv => h.rowOf hs ((mem_walk_iff hs).mp hv)

end Stores
end Grafx.Heap
