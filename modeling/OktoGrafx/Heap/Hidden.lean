import OktoGrafx.Heap.Quiet

/-! Writes to pages nothing points at: fresh pages, abandoned pages and retired overflow pages.
They leave the directory and every data and overflow page alone. -/

namespace Grafx.Heap
open Fallible

structure Hidden (s s' : HeapStore) : Prop where
  keep : ∀ (i : ℕ) (p : Page Cell), s.pages[i]? = some p →
    p.pageType = .heap ∨ p.pageType = .overflow ∨ i = headerPageIndex → s'.pages[i]? = some p
  pageSize : s'.pageSize = s.pageSize
  labelLength : s'.labelLength = s.labelLength
  tailCache : s'.tailCache = s.tailCache
  epoch : s.derivedEpoch ≤ s'.derivedEpoch

def Private (s : HeapStore) (i : ℕ) : Prop :=
  i ≠ headerPageIndex ∧ ∀ p, s.pages[i]? = some p → p.pageType ≠ .heap ∧ p.pageType ≠ .overflow

variable {s s' s'' : HeapStore} {i : ℕ} {E : HeapStore → Prop} {p : Page Cell}

theorem Hidden.refl (s : HeapStore) : Hidden s s := ⟨fun _ _ hp _ => hp, rfl, rfl, rfl, le_rfl⟩

theorem Hidden.trans (h : Hidden s s') (h' : Hidden s' s'') : Hidden s s'' where
  keep i p hp htype := h'.keep i p (h.keep i p hp htype) htype
  pageSize := h'.pageSize.trans h.pageSize
  labelLength := h'.labelLength.trans h.labelLength
  tailCache := h'.tailCache.trans h.tailCache
  epoch := h.epoch.trans h'.epoch

theorem entriesOf_eq {pages pages' : List (Page Cell)} (h : pages'[headerPageIndex]? = pages[headerPageIndex]?) :
    entriesOf pages' = entriesOf pages := by
  simp only [entriesOf, h]

theorem Hidden.header_page (hs : Wf s) (h : Hidden s s') :
    s'.pages[headerPageIndex]? = s.pages[headerPageIndex]? := by
  obtain ⟨p, floor, hp, -⟩ := hs.header
  rw [hp, h.keep _ p hp (.inr (.inr rfl))]

theorem Hidden.quiet (hs : Wf s) (h : Hidden s s') : Quiet s s' := by
  have hheader := h.header_page hs
  have hentries := entriesOf_eq hheader
  have hpages : PagesQuiet s.pages s'.pages := by
    refine ⟨fun i p hp htype => h.keep i p hp (htype.imp_right .inl), ?_, ?_, ?_, ?_⟩
    · obtain ⟨p, floor, hp, htype, hslots⟩ := hs.header
      exact ⟨p, floor, hheader.trans hp, htype, hentries ▸ hslots⟩
    · rw [hentries]
      exact hs.distinct
    · rw [hentries]
      exact fun e he => ⟨e, he, rfl, rfl, le_rfl⟩
    · rw [hentries]
      exact fun e he => .inl ⟨e, he, rfl, rfl⟩
  refine ⟨hpages, h.pageSize, h.labelLength, fun hcache tableId hint hhint => ?_⟩
  rw [h.tailCache] at hhint
  obtain ⟨hle, htail⟩ := hcache tableId hint hhint
  refine ⟨hle.trans h.epoch, fun hepoch => hpages.grows.onChain (htail ?_)⟩
  exact le_antisymm hle (hepoch ▸ h.epoch)

theorem Hidden.wf (hs : Wf s) (h : Hidden s s') : Wf s' := (h.quiet hs).wf hs

theorem Private.of_hidden (h : Hidden s s') (hi : Private s' i) : Private s i := by
  refine ⟨hi.1, fun p hp => ⟨fun htype => ?_, fun htype => ?_⟩⟩
  · exact (hi.2 p (h.keep i p hp (.inl htype))).1 htype
  · exact (hi.2 p (h.keep i p hp (.inr (.inl htype)))).2 htype

theorem Private.ne (hi : Private s i) {j : ℕ} (hp : s.pages[j]? = some p)
    (htype : p.pageType = .heap ∨ p.pageType = .overflow ∨ j = headerPageIndex) : i ≠ j := by
  rintro rfl
  rcases htype with htype | htype | htype
  · exact (hi.2 p hp).1 htype
  · exact (hi.2 p hp).2 htype
  · exact hi.1 htype

theorem private_of_free (hs : Wf s) (hp : s.pages[i]? = some p) (hfree : p.pageType = .free) : Private s i := by
  constructor
  · rintro rfl
    obtain ⟨q, floor, hq, htype, -⟩ := hs.header
    cases hp.symm.trans hq
    exact absurd (hfree.symm.trans htype) (by decide)
  · intro q hq
    cases hp.symm.trans hq
    rw [hfree]
    exact ⟨by decide, by decide⟩

theorem private_of_none (hs : Wf s) (hnone : s.pages[i]? = none) : Private s i := by
  constructor
  · rintro rfl
    obtain ⟨q, floor, hq, -⟩ := hs.header
    simp [hq] at hnone
  · intro q hq
    simp [hq] at hnone

theorem Hidden.set (h : Hidden s s') (hi : Private s i) (p : Page Cell) :
    Hidden s { s' with pages := s'.pages.set i p } :=
  ⟨fun j q hq htype => by
    rw [List.getElem?_set_ne (hi.ne hq htype)]
    exact h.keep j q hq htype, h.pageSize, h.labelLength, h.tailCache, h.epoch⟩

theorem Hidden.grow (h : Hidden s s') (p : Page Cell) : Hidden s { s' with pages := s'.pages ++ [p] } :=
  ⟨fun j q hq htype => by
    have hj := h.keep j q hq htype
    rw [List.getElem?_append_left (getElem?_eq_some_iff.mp hj).1]
    exact hj, h.pageSize, h.labelLength, h.tailCache, h.epoch⟩

/-! ## The pool -/

theorem pin_ensures {Q : Page Cell → HeapStore → Prop} (h : ∀ p, s.pages[i]? = some p → Q p s) (herr : E s) : (pin i).Ensures s Q E := by
  refine bind_ask (bind_read ?_) herr
  cases hp : s.pages[i]? with
  | none => exact ensures_refuse herr
  | some p => exact ensures_pure (h p hp)

theorem setPage_ensures {Q : Unit → HeapStore → Prop} (h : Q () { s with pages := s.pages.set i p }) : (setPage i p).Ensures s Q E := ensures_update h

theorem reusableIndex_ensures (candidates : List ℕ) :
    (reusableIndex candidates).Ensures s
      (fun found s' => s' = { s with abandoned := s'.abandoned } ∧
        ∀ i, found = some i → s.pages[i]? = some (Page.empty .free))
      (fun s' => s' = { s with abandoned := s'.abandoned }) := by
  induction candidates generalizing s with
  | nil => exact ensures_pure ⟨rfl, nofun⟩
  | cons candidate older ih =>
    refine bind_update (bind_ask (bind_read ?_) rfl)
    by_cases hfree : s.pages[candidate]? = some (Page.empty .free)
    · rw [if_pos hfree]
      refine ensures_pure ⟨rfl, fun _ hi => ?_⟩
      rwa [← Option.some.inj hi]
    · rw [if_neg hfree]
      refine ih.mono (fun found s' h => ⟨?_, h.2⟩) fun s' h => ?_
      · rw [h.1]
      · rw [h]

/-- An empty page that nothing pointed at. -/
structure Allocated (s s' : HeapStore) (pageType : PageType) (i : ℕ) : Prop where
  hidden : Hidden s s'
  isPrivate : Private s i
  page : s'.pages[i]? = some (Page.empty pageType)
  others : ∀ j, j ≠ i → j < s.pages.length → s'.pages[j]? = s.pages[j]?

theorem grow_allocated (hs : Wf s) (pageType : PageType) :
    Allocated s { s with pages := s.pages ++ [Page.empty pageType] } pageType s.pages.length where
  hidden := (Hidden.refl s).grow _
  isPrivate := private_of_none hs (List.getElem?_eq_none le_rfl)
  page := List.getElem?_concat_length
  others _ _ hj := List.getElem?_append_left hj

theorem Hidden.of_abandoned (h : s' = { s with abandoned := s'.abandoned }) : Hidden s s' := by
  rw [h]
  exact ⟨fun _ _ hp _ => hp, rfl, rfl, rfl, le_rfl⟩

theorem allocate_ensures (hs : Wf s) (pageType : PageType) (reuse : Bool) :
    (allocate pageType reuse).Ensures s (fun i s' => Allocated s s' pageType i) (Hidden s) := by
  refine bind_ask (bind_read ?_) (Hidden.refl s)
  have hreused : (if reuse then reusableIndex s.abandoned else pure none).Ensures s
      (fun found s' => s' = { s with abandoned := s'.abandoned } ∧
        ∀ i, found = some i → s.pages[i]? = some (Page.empty .free)) (Hidden s) := by
    cases reuse with
    | false => exact ensures_pure ⟨rfl, nofun⟩
    | true => exact (reusableIndex_ensures _).mono (fun _ _ h => h) fun s' h => .of_abandoned h
  refine hreused.bind fun found s' ⟨hs', hfound⟩ => ?_
  have hhidden : Hidden s s' := .of_abandoned hs'
  have hpages : s'.pages = s.pages := by rw [hs']
  cases found with
  | some i =>
    have hfree := hfound i rfl
    have hprivate := private_of_free hs hfree rfl
    refine ensures_bind (setPage_ensures (ensures_pure ⟨hhidden.set hprivate _, hprivate, ?_, ?_⟩))
    · rw [List.getElem?_set_self (hpages ▸ (getElem?_eq_some_iff.mp hfree).1)]
    · intro j hj _
      rw [List.getElem?_set_ne hj.symm, hpages]
  | none =>
    refine bind_ask (bind_read (bind_update (ensures_pure ?_)))
      hhidden
    have hgrown := grow_allocated (hhidden.wf hs) pageType
    refine ⟨hhidden.trans hgrown.hidden, hgrown.isPrivate.of_hidden hhidden, hgrown.page, fun j hj hlt => ?_⟩
    rw [hgrown.others j hj (hpages ▸ hlt), hpages]

theorem allocate_fresh_ensures {base : HeapStore} (hbase : Wf base) (hhidden : Hidden base s) (pageType : PageType) :
    (allocate pageType false).Ensures s
      (fun i s' => i = s.pages.length ∧ s'.pages = s.pages ++ [Page.empty pageType] ∧ Hidden base s' ∧ Private base i)
      (Hidden base) := by
  have hs := hhidden.wf hbase
  have hgrown := grow_allocated hs pageType
  refine bind_ask (bind_read (ensures_bind (ensures_pure ?_))) hhidden
  refine bind_ask (bind_read (bind_update (ensures_pure ?_)))
    hhidden
  exact ⟨rfl, rfl, hhidden.trans hgrown.hidden, hgrown.isPrivate.of_hidden hhidden⟩

end Grafx.Heap
