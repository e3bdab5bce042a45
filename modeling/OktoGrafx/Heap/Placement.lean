import OktoGrafx.Heap.Overflow
import OktoGrafx.Heap.Rewrite

/-! Placing a version. Everything up to the last page write is invisible; that write makes exactly
one version reachable, at the end of the chain of its table. -/

namespace Grafx.Heap
open List Fallible

variable {s s' : HeapStore} {tableId first : ℕ} {q : Page Cell}

theorem cellVersions_append (index slot : ℕ) (cells cells' : List (Option Cell)) :
    cellVersions index slot (cells ++ cells') =
      cellVersions index slot cells ++ cellVersions index (slot + cells.length) cells' := by
  induction cells generalizing slot with
  | nil => rfl
  | cons c rest ih =>
    have hrest := ih (slot + 1)
    rw [add_assoc, add_comm 1] at hrest
    cases c with
    | none => exact hrest
    | some cell => cases cell with
      | record h body => exact congrArg (_ :: ·) hrest
      | _ => exact hrest

theorem versionsOn_append (pages : List (Page Cell)) (xs ys : List ℕ) :
    versionsOn pages (xs ++ ys) = versionsOn pages xs ++ versionsOn pages ys := flatMap_append

/-! ## Rewriting one data page -/

section Set
variable {pages : List (Page Cell)} {i : ℕ} {p p' : Page Cell}

theorem dataChain_set {xs : List ℕ} {t : ℕ} (hp : pages[i]? = some p) (hnext : p'.nextPage = p.nextPage)
    (hold : DataPage tableId p) (hnew : DataPage tableId p') (hchain : DataChain pages t first xs) :
    DataChain (pages.set i p') t first xs := by
  have hset : (pages.set i p')[i]? = some p' := getElem?_set_self (List.getElem?_eq_some_iff.mp hp).1
  refine ⟨hchain.linked.congr fun k _ => ?_, fun k hk => ?_⟩
  · by_cases hki : i = k
    · subst hki
      simp only [nextOf, hset, hp, Option.bind_some, hnext]
    · simp only [nextOf, getElem?_set_ne hki]
  · obtain ⟨q, hq, hdata⟩ := hchain.data k hk
    by_cases hki : i = k
    · subst hki
      cases hp.symm.trans hq
      exact ⟨p', hset, hdata.unique hold ▸ hnew⟩
    · exact ⟨q, (getElem?_set_ne hki).trans hq, hdata⟩

theorem DataPage.append {h : RecordHeader} {body : RecordBody} (hdata : DataPage tableId p)
    (htype : q.pageType = p.pageType) (hslots : q.slots = p.slots ++ [some (.record h body)]) : DataPage tableId q := by
  obtain ⟨rest, hcells⟩ := head?_eq_some_iff.mp hdata.head
  rw [hcells, cons_append] at hslots
  refine ⟨htype.trans hdata.type, by rw [hslots]; rfl, fun c hc => ?_⟩
  rw [hslots, tail_cons] at hc
  rcases mem_append.mp hc with hc | hc
  · exact hdata.tail c (by rw [hcells]; exact hc)
  · rw [mem_singleton.mp hc]
    trivial

theorem DataPage.versions_append {h : RecordHeader} {body : RecordBody} (hdata : DataPage tableId p)
    (hslots : q.slots = p.slots ++ [some (.record h body)]) :
    cellVersions i firstRecordSlot q.slots.tail =
      cellVersions i firstRecordSlot p.slots.tail ++ [⟨⟨i, p.slots.length⟩, h, body⟩] := by
  obtain ⟨rest, hcells⟩ := head?_eq_some_iff.mp hdata.head
  rw [hslots, hcells, cons_append, tail_cons, tail_cons, cellVersions_append, length_cons,
    add_comm firstRecordSlot]
  rfl

end Set

/-! ## The two commit points -/

/-- A version that no table has yet, on pages of its own. -/
structure Storable (s : HeapStore) (h : RecordHeader) (payload : Payload) (body : RecordBody) : Prop where
  bodyOf : BodyOf s.pages s.pageSize h payload body
  unshared : ∀ t w ref i, Stored s.pages t w → Owns s.pages s.pageSize ⟨ref, h, body⟩ i → ¬ Owns s.pages s.pageSize w i

theorem Storable.of_quiet (hs : Wf s) (hquiet : Quiet s s') {h : RecordHeader} {payload : Payload} {body : RecordBody}
    (hnew : Storable s h payload body) : Storable s' h payload body := by
  refine ⟨hquiet.pageSize.symm ▸ hquiet.pages.bodyOf hnew.bodyOf, fun t w ref i hw howns howns' => ?_⟩
  have hstored := (hquiet.pages.stored_iff hs.chains).mp hw
  exact hnew.unshared t w ref i hstored (hquiet.owns ⟨payload, hnew.bodyOf⟩ howns) (hquiet.owns (hs.bodies t w hstored) howns')

section Commit
variable {e : TableExtent} {xs : List ℕ} {tail : ℕ} {p : Page Cell} {h : RecordHeader} {payload : Payload}
  {body : RecordBody}

theorem ne_dataPage (hs : Wf s) {i : ℕ} (hp : s.pages[tail]? = some p) (hdata : DataPage tableId p)
    (hq : s.pages[i]? = some q) (hkind : q.pageType = .overflow ∨ i = headerPageIndex) : tail ≠ i := by
  rintro rfl
  cases hp.symm.trans hq
  rcases hkind with hkind | rfl
  · exact absurd (hdata.type.symm.trans hkind) (by decide)
  · obtain ⟨floor, htype, -⟩ := header_slots hs hp
    exact absurd (hdata.type.symm.trans htype) (by decide)

theorem chain_page_ne {i t : ℕ} {ys : List ℕ} (hp : s.pages[tail]? = some p) (hdata : DataPage tableId p)
    (hys : DataChain s.pages t first ys) (ht : t ≠ tableId) (hi : i ∈ ys) : tail ≠ i := by
  rintro rfl
  obtain ⟨q, hq, hdata'⟩ := hys.data tail hi
  cases hp.symm.trans hq
  exact ht (hdata'.unique hdata)

theorem rewritten_of_append (hs : Wf s) (he : e ∈ entriesOf s.pages) (hp : s.pages[tail]? = some p) (hdata : DataPage e.tableId p)
    {v : StoredVersion} {cache : ℕ → Option TailHint} (hchain : DataChain (s.pages.set tail q) e.tableId e.firstPage xs)
    (hversions : versionsOn (s.pages.set tail q) xs = (walk s.pages e.tableId).versions ++ [v])
    (hnew : Storable s v.header payload v.body)
    (hgrown : ∀ ys, DataChain s.pages e.tableId e.firstPage ys → ys <+: xs)
    (hcache : ∀ t hint, cache t = some hint → s.tailCache t = some hint ∨
      t = e.tableId ∧ hint.epoch = s.derivedEpoch ∧ xs.getLast? = some hint.tail ∧ xs.length = hint.length) :
    Rewritten s { s with pages := s.pages.set tail q, tailCache := cache } (withVersion s e.tableId v) := by
  obtain ⟨header, floor, hheader, htype, hslots⟩ := hs.header
  have hkeep : ∀ {i r}, s.pages[i]? = some r → r.pageType = .overflow ∨ i = headerPageIndex → (s.pages.set tail q)[i]? = some r :=
    fun hr hkind => (getElem?_set_ne (ne_dataPage hs hp hdata hr hkind)).trans hr
  have hheader' := hkeep hheader (.inr rfl)
  have hentries : entriesOf (s.pages.set tail q) = entriesOf s.pages := entriesOf_eq (hheader'.trans hheader.symm)
  have hsame : ∀ {t first ys}, DataChain s.pages t first ys → t ≠ e.tableId → ∀ i ∈ ys, (s.pages.set tail q)[i]? = s.pages[i]? :=
    fun hys ht i hi => getElem?_set_ne (chain_page_ne hp hdata hys ht hi)
  have hothers : ∀ {t first ys}, DataChain s.pages t first ys → t ≠ e.tableId → DataChain (s.pages.set tail q) t first ys := by
    intro t first ys hys ht
    refine ⟨hys.linked.congr fun i hi => by simp only [nextOf, hsame hys ht i hi], fun i hi => ?_⟩
    rw [hsame hys ht i hi]
    exact hys.data i hi
  have hbodies : ∀ t w, w ∈ withVersion s e.tableId v t → ∃ payload, BodyOf s.pages s.pageSize w.header payload w.body := by
    intro t w hw
    rcases mem_withVersion hs hw with hw | rfl
    · exact hs.bodies t w hw
    · exact ⟨payload, hnew.bodyOf⟩
  have hgrows : Grows s.pages (s.pages.set tail q) := by
    refine fun e' he' => ⟨e', hentries.symm ▸ he', rfl, le_rfl, fun ys hys => ?_⟩
    by_cases hid : e'.tableId = e.tableId
    · obtain rfl := eq_of_tableId hs he' he hid
      obtain ⟨more, rfl⟩ := hgrown ys hys
      exact ⟨more, hchain⟩
    · exact ⟨[], (append_nil ys).symm ▸ hothers hys hid⟩
  refine ⟨⟨header, floor, hheader', htype, hentries.symm ▸ hslots⟩, hentries, ?_, ?_, rfl, rfl, hbodies, ?_, ?_, ?_, hgrows⟩
  · intro e' he'
    by_cases hid : e'.tableId = e.tableId
    · obtain rfl := eq_of_tableId hs he' he hid
      exact ⟨xs, hchain, by rw [hversions, withVersion, if_pos rfl]⟩
    · obtain ⟨ys, hys⟩ := hs.chains e' he'
      refine ⟨ys, hothers hys hid, ?_⟩
      rw [withVersion, if_neg hid, walk_of_entry hs he' hys]
      exact flatMap_congr fun i hi => by simp only [pageVersions, hsame hys hid i hi]
  · intro t habsent
    rw [withVersion, if_neg fun h => habsent e he h.symm, walk_of_absent hs habsent]
  · rintro t w - i ⟨first, ys, bytes, -, hblob, hi⟩ p hp
    obtain ⟨q, hq, hoverflow⟩ := hblob.mem_page hi
    cases hp.symm.trans hq
    exact ⟨p, hkeep hp (.inl hoverflow), rfl, rfl, rfl⟩
  · intro t w t' w' i hw hw' howns howns'
    rcases mem_withVersion hs hw with hstored | rfl
    · rcases mem_withVersion hs hw' with hstored' | rfl
      · exact hs.exclusive t w t' w' i hstored hstored' howns howns'
      · exact absurd howns (hnew.unshared t w _ i hstored howns')
    · rcases mem_withVersion hs hw' with hstored' | rfl
      · exact absurd howns' (hnew.unshared t' w' _ i hstored' howns)
      · rfl
  · intro t hint hhint
    rcases hcache t hint hhint with hold | ⟨rfl, hepoch, hlast⟩
    · obtain ⟨hle, hon⟩ := hs.cache t hint hold
      exact ⟨hle, fun hepoch => hgrows.onChain (hon hepoch)⟩
    · exact ⟨hepoch.le, fun _ => TailOf.onChain ⟨e, hentries.symm ▸ he, rfl, xs, hchain, hlast⟩⟩

variable (hs : Wf s) (he : e ∈ entriesOf s.pages) (hchain : DataChain s.pages e.tableId e.firstPage xs) (hlast : xs.getLast? = some tail)
  (hp : s.pages[tail]? = some p) (hnew : Storable s h payload body)

include hs he hchain hlast hp hnew in
theorem appendSlot_rewritten (htype : q.pageType = p.pageType) (hnext : q.nextPage = p.nextPage)
    (hslots : q.slots = p.slots ++ [some (.record h body)]) :
    Rewritten s { s with pages := s.pages.set tail q } (withVersion s e.tableId ⟨⟨tail, p.slots.length⟩, h, body⟩) := by
  obtain ⟨p₀, hp₀, hdata⟩ := hchain.data tail (mem_of_getLast? hlast)
  cases hp.symm.trans hp₀
  have hset : (s.pages.set tail q)[tail]? = some q := getElem?_set_self (List.getElem?_eq_some_iff.mp hp).1
  refine rewritten_of_append hs he hp hdata (dataChain_set hp hnext hdata (hdata.append htype hslots) hchain) ?_ hnew
    (fun ys hys => (hys.linked.unique hchain.linked ▸ prefix_rfl)) fun _ _ hhint => .inl hhint
  · obtain ⟨pre, rfl⟩ := getLast?_eq_some_iff.mp hlast
    have hnotin : tail ∉ pre :=
      fun hmem => (nodup_append.mp hchain.linked.nodup).2.2 tail hmem tail mem_cons_self rfl
    have hpre : versionsOn (s.pages.set tail q) pre = versionsOn s.pages pre :=
      flatMap_congr fun i hi => by
        simp only [pageVersions, getElem?_set_ne fun hti : tail = i => hnotin (hti ▸ hi)]
    rw [walk_of_entry hs he hchain]
    simp only [versionsOn_append, hpre, append_assoc]
    simp only [versionsOn, flatMap_singleton, pageVersions, hset, hp, Option.map_some, Option.getD_some,
      hdata.versions_append hslots]

include hs he hchain hlast hp hnew in
theorem link_rewritten {j : ℕ} (hq : s.pages[j]? = some q) (hready : DataPage e.tableId q) (hend : q.nextPage = none)
    (hslots : q.slots = [some (.descriptor e.tableId), some (.record h body)])
    (hunreached : ∀ e' ∈ entriesOf s.pages, ∀ ys, DataChain s.pages e'.tableId e'.firstPage ys → j ∉ ys) :
    Rewritten s
      { s with
        pages := s.pages.set tail { p with nextPage := some j }
        tailCache := Function.update s.tailCache e.tableId (some ⟨j, xs.length + 1, s.derivedEpoch⟩) }
      (withVersion s e.tableId ⟨⟨j, 1⟩, h, body⟩) := by
  obtain ⟨p₀, hp₀, hdata⟩ := hchain.data tail (mem_of_getLast? hlast)
  cases hp.symm.trans hp₀
  have hj := hunreached e he xs hchain
  have htj : tail ≠ j := fun heq => hj (heq ▸ mem_of_getLast? hlast)
  set linked : Page Cell := { p with nextPage := some j } with hlinked
  set pages' := s.pages.set tail linked with hpages'
  have hset : pages'[tail]? = some linked := getElem?_set_self (List.getElem?_eq_some_iff.mp hp).1
  have hready' : pages'[j]? = some q := (getElem?_set_ne htj).trans hq
  have hchain' : DataChain pages' e.tableId e.firstPage (xs ++ [j]) := by
    refine ⟨hchain.linked.concat hlast hj ?_ ?_ ?_, fun i hi => ?_⟩
    · simp only [nextOf, hset, Option.bind_some, hlinked]
    · simp only [nextOf, hready', Option.bind_some, hend]
    · intro k _ hk
      simp only [nextOf, hpages', getElem?_set_ne hk.symm]
    · rcases mem_append.mp hi with hi | hi
      · by_cases hti : tail = i
        · subst hti
          exact ⟨linked, hset, hdata.type, hdata.head, hdata.tail⟩
        · rw [hpages', getElem?_set_ne hti]
          exact hchain.data i hi
      · rw [mem_singleton.mp hi]
        exact ⟨q, hready', hready⟩
  refine rewritten_of_append hs he hp hdata hchain' ?_ hnew
    (fun ys hys => (hys.linked.unique hchain.linked) ▸ prefix_append ys [j]) fun t hint hhint => ?_
  · have hxs : versionsOn pages' xs = versionsOn s.pages xs := by
      refine flatMap_congr fun i _ => ?_
      by_cases hti : tail = i
      · subst hti
        simp only [pageVersions, hset, hp, hlinked, Option.map_some]
      · simp only [pageVersions, hpages', List.getElem?_set_ne hti]
    rw [walk_of_entry hs he hchain, ← hpages']
    simp only [versionsOn_append, hxs]
    simp only [versionsOn, flatMap_singleton, pageVersions, hready', Option.map_some, Option.getD_some, hslots]
    rfl
  · by_cases ht : t = e.tableId
    · subst ht
      simp only [Function.update_self, Option.some.injEq] at hhint
      subst hhint
      exact .inr ⟨rfl, rfl, by simp⟩
    · rw [Function.update_of_ne ht] at hhint
      exact .inl hhint

theorem unreached_of_private (hs : Wf s) (hquiet : Quiet s s') {j : ℕ} (hprivate : Private s j)
    (hq : s'.pages[j]? = some q) (hcells : q.slots.length ≠ 1) :
    ∀ e' ∈ entriesOf s'.pages, ∀ ys, DataChain s'.pages e'.tableId e'.firstPage ys → j ∉ ys := by
  intro e' he' ys hys hj
  rcases hquiet.pages.fresh e' he' with ⟨e₀, he₀, hid, hfirst⟩ | ⟨-, hempty⟩
  · obtain ⟨xs, hchain⟩ := hs.chains e₀ he₀
    have hkept := (hquiet.pages.dataChain hchain).1
    rw [hid, hfirst] at hkept
    obtain rfl := hys.linked.unique hkept.linked
    obtain ⟨r, hr, hdata⟩ := hchain.data j hj
    exact (hprivate.2 r hr).1 hdata.type
  · obtain rfl := hys.linked.unique hempty.chain.1.linked
    obtain ⟨r, hr, -, hslots, -⟩ := hempty
    rw [mem_singleton.mp hj] at hq
    rw [Option.some.inj (hq.symm.trans hr), hslots] at hcells
    exact hcells rfl

end Commit
end Grafx.Heap
