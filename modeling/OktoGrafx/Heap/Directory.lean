import OktoGrafx.Heap.Hidden

/-! The directory of tables: entries are found by table id, replaced in place and created at the
end. An entry is written over the header page only, so no version moves. -/

namespace Grafx.Heap
open List Fallible

variable {s : HeapStore} {table : TableDef} {E : HeapStore → Prop} {entries : List TableExtent} {p p' : Page Cell} {e : TableExtent} {floor : ℕ}

def EntryFor (s : HeapStore) (tableId : ℕ) (e : TableExtent) : Prop :=
  e.tableId = tableId ∧ ∃ e₀ ∈ entriesOf s.pages, e₀.tableId = tableId ∧ e₀.firstPage = e.firstPage ∧
    e.nextRecordId ≤ e₀.nextRecordId

theorem EntryFor.of_mem (he : e ∈ entriesOf s.pages) : EntryFor s e.tableId e :=
  ⟨rfl, e, he, rfl, rfl, le_rfl⟩

theorem EntryFor.of_quiet {s' : HeapStore} {tableId : ℕ} (h : EntryFor s tableId e) (hq : Quiet s s') : EntryFor s' tableId e := by
  obtain ⟨hid, e₀, he₀, hid₀, hfirst, hfloor⟩ := h
  obtain ⟨e₁, he₁, hid₁, hfirst₁, hfloor₁⟩ := hq.pages.old e₀ he₀
  exact ⟨hid, e₁, he₁, hid₁.trans hid₀, hfirst₁.trans hfirst, hfloor.trans hfloor₁⟩

theorem header_slots (hs : Wf s) (hp : s.pages[headerPageIndex]? = some p) :
    ∃ floor, p.pageType = .metaPage ∧ p.slots = some (.heapHeader floor) :: directoryCells (entriesOf s.pages) := by
  obtain ⟨q, floor, hq, htype, hslots⟩ := hs.header
  cases hp.symm.trans hq
  exact ⟨floor, htype, hslots⟩

theorem entriesOf_set {pages : List (Page Cell)}
    (hp : pages[headerPageIndex]? = some p) (hslots : p'.slots = some (.heapHeader floor) :: directoryCells entries) :
    entriesOf (pages.set headerPageIndex p') = entries := by
  have hset : (pages.set headerPageIndex p')[headerPageIndex]? = some p' :=
    getElem?_set_self (List.getElem?_eq_some_iff.mp hp).1
  simp only [entriesOf, hset, hslots, Option.map_some, Option.getD_some, tail_cons, filterMap_asExtent]

theorem quiet_of_directory (hs : Wf s) (hp : s.pages[headerPageIndex]? = some p) (htype : p'.pageType = .metaPage)
    (hslots : p'.slots = some (.heapHeader floor) :: directoryCells entries)
    (hdistinct : (entries.map (·.tableId)).Nodup)
    (hold : ∀ e ∈ entriesOf s.pages, ∃ e' ∈ entries, e'.tableId = e.tableId ∧ e'.firstPage = e.firstPage ∧
      e.nextRecordId ≤ e'.nextRecordId)
    (hfresh : ∀ e' ∈ entries, (∃ e ∈ entriesOf s.pages, e.tableId = e'.tableId ∧ e.firstPage = e'.firstPage) ∨
      (∀ e ∈ entriesOf s.pages, e.tableId ≠ e'.tableId) ∧ EmptyTable s.pages e') :
    Quiet s { s with pages := s.pages.set headerPageIndex p' } := by
  obtain ⟨-, hmeta, -⟩ := header_slots hs hp
  have hentries := entriesOf_set hp hslots
  have hkeep : ∀ (i : ℕ) (q : Page Cell), s.pages[i]? = some q → q.pageType = .heap ∨ q.pageType = .overflow →
      (s.pages.set headerPageIndex p')[i]? = some q := by
    intro i q hq hdata
    have hne : headerPageIndex ≠ i := by
      rintro rfl
      cases hp.symm.trans hq
      rw [hmeta] at hdata
      rcases hdata with hdata | hdata <;> cases hdata
    rw [getElem?_set_ne hne, hq]
  have hpages : PagesQuiet s.pages (s.pages.set headerPageIndex p') := by
    refine ⟨hkeep, ⟨p', floor, ?_, htype, hentries.symm ▸ hslots⟩, hentries.symm ▸ hdistinct, hentries.symm ▸ hold, ?_⟩
    · exact getElem?_set_self (List.getElem?_eq_some_iff.mp hp).1
    · intro e' he'
      rcases hfresh e' (hentries ▸ he') with hknown | ⟨hnew, q, hq, hheap, hempty⟩
      · exact .inl hknown
      · exact .inr ⟨hnew, q, hkeep _ q hq (.inl hheap), hheap, hempty⟩
  refine ⟨hpages, rfl, rfl, fun hcache tableId hint hhint => ?_⟩
  obtain ⟨hle, htail⟩ := hcache tableId hint hhint
  exact ⟨hle, fun hepoch => hpages.grows.onChain (htail hepoch)⟩

theorem findExtent_ensures (hs : Wf s) (tableId : ℕ) (herr : E s) : (findExtent tableId).Ensures s
      (fun found s' => s' = s ∧ found = (entriesOf s.pages).find? (·.tableId == tableId)) E := by
  refine ensures_bind (pin_ensures (fun header hheader => ensures_lift (fun found hfound => ⟨rfl, ?_⟩) herr) herr)
  rw [extentOf_eq hs tableId hheader] at hfound
  exact (Except.ok.inj hfound).symm

theorem pinHeader_ensures {Q : Page Cell × ℕ → HeapStore → Prop}
    (h : ∀ header floor, s.pages[headerPageIndex]? = some header → Q (header, floor) s) (herr : E s) :
    pinHeader.Ensures s Q E :=
  ensures_bind (pin_ensures (fun header hheader => ensures_bind (ensures_lift
    (fun floor _ => ensures_pure (h header floor hheader)) herr)) herr)

/-! ## Replacing an entry -/

def replaceEntry (settled : TableExtent) (e : TableExtent) : TableExtent :=
  if e.tableId = settled.tableId then settled else e

theorem replaceEntry_tableId (settled e : TableExtent) : (replaceEntry settled e).tableId = e.tableId := by
  unfold replaceEntry
  split_ifs with h
  · exact h.symm
  · rfl

theorem set_findIdx (hdistinct : (entries.map (·.tableId)).Nodup) (settled : TableExtent) :
    entries.set (entries.findIdx (·.tableId == settled.tableId)) settled = entries.map (replaceEntry settled) := by
  induction entries with
  | nil => rfl
  | cons e rest ih =>
    rw [map_cons, nodup_cons] at hdistinct
    by_cases he : e.tableId = settled.tableId
    · have hrest : rest.map (replaceEntry settled) = rest := by
        refine (map_congr_left fun x hx => ?_).trans (map_id rest)
        refine if_neg fun hx' => hdistinct.1 ?_
        rw [he, ← hx']
        exact mem_map_of_mem hx
      simp [findIdx_cons, he, replaceEntry, hrest]
    · have hfind : (e.tableId == settled.tableId) = false := by simpa using he
      rw [findIdx_cons, hfind, cond_false, set_cons_succ, ih hdistinct.2, map_cons,
        show replaceEntry settled e = e from if_neg he]

variable (hs : Wf s)
include hs

theorem writeExtent_ensures (hentry : ∃ e₀ ∈ entriesOf s.pages, e₀.tableId = e.tableId ∧ e₀.firstPage = e.firstPage) : (writeExtent e).Ensures s
      (fun settled s' => Quiet s s' ∧ (∀ j, j ≠ headerPageIndex → s'.pages[j]? = s.pages[j]?) ∧
        settled ∈ entriesOf s'.pages ∧ settled.tableId = e.tableId ∧ settled.firstPage = e.firstPage ∧
        e.nextRecordId ≤ settled.nextRecordId)
      (fun s' => s' = s) := by
  refine ensures_bind (pinHeader_ensures (fun header floor hheader => ?_) rfl)
  obtain ⟨floor, htype, hslots⟩ := header_slots hs hheader
  refine bind_lift (fun found hfound => ?_) rfl
  rw [hslots, tail_cons, findEntry_directoryCells] at hfound
  obtain ⟨e₀, he₀, hid, hfirst⟩ := hentry
  rw [← hid, find?_of_mem hs.distinct he₀, Option.map_some] at hfound
  rw [← Except.ok.inj hfound]
  refine bind_read ?_
  dsimp only
  set settled : TableExtent := { e with nextRecordId := max e.nextRecordId e₀.nextRecordId } with hsettled
  cases hupdate : header.updateSlot s.pageSize (1 + (entriesOf s.pages).findIdx (·.tableId == e₀.tableId))
      (.extent settled) with
  | none => exact ensures_refuse rfl
  | some header' =>
    have hheader' := Page.updateSlot_eq_some hupdate
    have htype' : header'.pageType = .metaPage := by rw [hheader', htype]
    have hslots' : header'.slots =
        some (.heapHeader floor) :: directoryCells ((entriesOf s.pages).map (replaceEntry settled)) := by
      have hset : e₀.tableId = settled.tableId := hid
      rw [hheader', hslots, add_comm 1, set_cons_succ, hset, ← set_findIdx hs.distinct, directoryCells,
        directoryCells, map_set]
    have hmem : settled ∈ (entriesOf s.pages).map (replaceEntry settled) :=
      mem_map.mpr ⟨e₀, he₀, if_pos hid⟩
    refine ensures_bind (setPage_ensures (ensures_pure ⟨?_, ?_, ?_, rfl, rfl, le_max_left _ _⟩))
    · refine quiet_of_directory hs hheader htype' hslots' ?_ ?_ ?_
      · simpa only [map_map, Function.comp_def, replaceEntry_tableId] using hs.distinct
      · intro x hx
        refine ⟨replaceEntry settled x, mem_map_of_mem hx, replaceEntry_tableId settled x, ?_⟩
        by_cases hxid : x.tableId = settled.tableId
        · obtain rfl := eq_of_tableId hs hx he₀ (hxid.trans hid.symm)
          rw [replaceEntry, if_pos hxid]
          exact ⟨hfirst.symm, le_max_right _ _⟩
        · rw [replaceEntry, if_neg hxid]
          exact ⟨rfl, le_rfl⟩
      · intro x' hx'
        obtain ⟨x, hx, rfl⟩ := mem_map.mp hx'
        refine .inl ⟨x, hx, (replaceEntry_tableId settled x).symm, ?_⟩
        by_cases hxid : x.tableId = settled.tableId
        · obtain rfl := eq_of_tableId hs hx he₀ (hxid.trans hid.symm)
          rw [replaceEntry, if_pos hxid]
          exact hfirst
        · rw [replaceEntry, if_neg hxid]
    · exact fun j hj => getElem?_set_ne hj.symm
    · change settled ∈ entriesOf (s.pages.set headerPageIndex header')
      rw [entriesOf_set hheader hslots']
      exact hmem

/-! ## Creating an entry -/

theorem createExtent_ensures (habsent : ∀ e ∈ entriesOf s.pages, e.tableId ≠ table.tableId) (nextRecordId : ℕ) :
    (createExtent table nextRecordId).Ensures s
      (fun e s' => Quiet s s' ∧ e ∈ entriesOf s'.pages ∧ e.tableId = table.tableId ∧ e.nextRecordId = nextRecordId)
      (Quiet s) := by
  refine ensures_bind (pin_ensures (fun header hheader => bind_read ?_) (Quiet.refl hs))
  split_ifs with hfull
  · exact ensures_refuse (Quiet.refl hs)
  refine ensures_bind ((allocate_ensures hs .heap true).mono ?_ fun s' h => h.quiet hs)
  intro index s₁ hallocated
  refine ensures_bind (setPage_ensures ?_)
  set first := emptyDataPage table.tableId (Page.empty .heap) with hfirst
  -- The first page is still nobody's: the entry that names it comes last.
  have hhidden : Hidden s { s₁ with pages := s₁.pages.set index first } := hallocated.hidden.set hallocated.isPrivate first
  have hpage : (s₁.pages.set index first)[index]? = some first :=
    getElem?_set_self (List.getElem?_eq_some_iff.mp hallocated.page).1
  have hquiet := hhidden.quiet hs
  have hentries := entriesOf_eq (hhidden.header_page hs)
  refine ensures_bind (pin_ensures (fun header' hheader' => ?_) hquiet)
  obtain ⟨floor, htype, hslots⟩ := header_slots (hquiet.wf hs) hheader'
  cases hinsert : header'.insertSlot s.pageSize (.extent ⟨table.tableId, index, index, 1, nextRecordId⟩) with
  | none => exact ensures_refuse hquiet
  | some inserted =>
    obtain ⟨header'', slot⟩ := inserted
    obtain ⟨-, hheader''⟩ := Page.insertSlot_eq_some hinsert
    set e : TableExtent := ⟨table.tableId, index, index, 1, nextRecordId⟩ with he
    have htype'' : header''.pageType = .metaPage := by rw [hheader'', htype]
    have hslots'' : header''.slots = some (.heapHeader floor) :: directoryCells (entriesOf s.pages ++ [e]) := by
      rw [hheader'', hslots, hentries, cons_append, directoryCells, directoryCells, map_append]
      rfl
    refine ensures_bind (setPage_ensures (ensures_pure ⟨hquiet.trans ?_, ?_, rfl, rfl⟩))
    · refine quiet_of_directory (hquiet.wf hs) hheader' htype'' hslots'' ?_ ?_ ?_
      · rw [map_append, nodup_append]
        refine ⟨hs.distinct, by simp, ?_⟩
        intro _ hx _ hy heq
        obtain ⟨x, hmem, rfl⟩ := mem_map.mp hx
        exact habsent x hmem (heq.trans (mem_singleton.mp hy))
      · rw [hentries]
        exact fun x hx => ⟨x, mem_append_left _ hx, rfl, rfl, le_rfl⟩
      · rw [hentries]
        intro x hx
        rcases mem_append.mp hx with hx | hx
        · exact .inl ⟨x, hx, rfl, rfl⟩
        · rw [mem_singleton.mp hx]
          exact .inr ⟨habsent, first, hpage, rfl, rfl, rfl⟩
    · change e ∈ entriesOf ((s₁.pages.set index first).set headerPageIndex header'')
      rw [entriesOf_set hheader' hslots'']
      exact mem_append_right _ mem_cons_self

theorem extentFor_ensures : (extentFor table).Ensures s (fun e s' => Quiet s s' ∧ e ∈ entriesOf s'.pages ∧ e.tableId = table.tableId) (Quiet s) := by
  refine (findExtent_ensures hs table.tableId (Quiet.refl hs)).bind ?_
  rintro found s' ⟨rfl, hfound⟩
  cases found with
  | some e =>
    have hid : e.tableId = table.tableId := by simpa using find?_some hfound.symm
    exact ensures_pure ⟨Quiet.refl hs, mem_of_find?_eq_some hfound.symm, hid⟩
  | none =>
    have habsent : ∀ e ∈ entriesOf s'.pages, e.tableId ≠ table.tableId :=
      fun e he => by simpa using find?_eq_none.mp hfound.symm e he
    exact (createExtent_ensures hs habsent firstRecordId).mono (fun e t h => ⟨h.1, h.2.1, h.2.2.1⟩) fun _ h => h

theorem observeRecordIdExtent_ensures (recordId : ℕ) : (observeRecordIdExtent table recordId).Ensures s
      (fun e s' => Quiet s s' ∧ EntryFor s' table.tableId e ∧ recordId < e.nextRecordId) (Quiet s) := by
  refine (extentFor_ensures hs).bind ?_
  rintro e s' ⟨hquiet, hmem, hid⟩
  split_ifs with hbelow hlimit
  · exact ensures_pure ⟨hquiet, hid ▸ EntryFor.of_mem hmem, hbelow⟩
  · exact ensures_refuse hquiet
  · have hentry : ∃ e₀ ∈ entriesOf s'.pages, e₀.tableId = ({ e with nextRecordId := recordId + 1 } : TableExtent).tableId ∧
        e₀.firstPage = ({ e with nextRecordId := recordId + 1 } : TableExtent).firstPage := ⟨e, hmem, rfl, rfl⟩
    refine ensures_bind ((writeExtent_ensures (hquiet.wf hs) hentry).mono ?_ ?_)
    · rintro settled s'' ⟨hquiet', -, hsettled, hid', hfirst, hfloor⟩
      exact ensures_pure ⟨hquiet.trans hquiet', ⟨hid, settled, hsettled, hid'.trans hid, hfirst, hfloor⟩,
        Nat.lt_succ_self _⟩
    · rintro _ rfl
      exact hquiet

end Grafx.Heap
