import OktoGrafx.Heap.Placement

/-! What storing a version does to the rows of a heap: one row more at the end of its table, or,
when it is refused at any point, nothing. -/

namespace Grafx.Heap
open Fallible

variable {s s₁ s' : HeapStore} {tableId : ℕ} {v : StoredVersion} {payload : Payload}

/-- What every operation on the rows of a store leaves of it. -/
structure Advances (s s' : HeapStore) : Prop where
  wf : Wf s'
  pageSize : s'.pageSize = s.pageSize
  labelLength : s'.labelLength = s.labelLength
  grows : Grows s.pages s'.pages

theorem Advances.trans (h : Advances s s₁) (h' : Advances s₁ s') : Advances s s' :=
  ⟨h'.wf, h'.pageSize.trans h.pageSize, h'.labelLength.trans h.labelLength, h.grows.trans h'.grows⟩

theorem Quiet.advances (hs : Wf s) (h : Quiet s s') : Advances s s' := ⟨h.wf hs, h.pageSize, h.labelLength, h.pages.grows⟩

theorem Rewritten.advances {vs : ℕ → List StoredVersion} (hs : Wf s) (h : Rewritten s s' vs) : Advances s s' :=
  ⟨h.wf hs, h.pageSize, h.labelLength, h.grows⟩

structure Added (s s' : HeapStore) (tableId : ℕ) (row : Row) : Prop extends Advances s s' where
  rows : ∀ t, rowsOf s'.pages t = if t = tableId then rowsOf s.pages t ++ [row] else rowsOf s.pages t
  stored : ∀ t v, Stored s.pages t v → Stored s'.pages t v
  unused : ∀ t, ∀ r ∈ rowsOf s.pages t, r.ref ≠ row.ref

def Placed (s s' : HeapStore) (tableId : ℕ) (v : StoredVersion) : Prop :=
  ∃ s₁, Quiet s s₁ ∧ Rewritten s₁ s' (withVersion s₁ tableId v) ∧ ∀ t w, Stored s₁.pages t w → w.ref ≠ v.ref

theorem Added.of_quiet (hs : Wf s) (hquiet : Quiet s s₁) {row : Row} (h : Added s₁ s' tableId row) : Added s s' tableId row where
  toAdvances := (hquiet.advances hs).trans h.toAdvances
  rows t := by rw [h.rows t, hquiet.rowsOf hs]
  stored t v hv := h.stored t v ((hquiet.pages.stored_iff hs.chains).mpr hv)
  unused t r hr := h.unused t r (by rwa [hquiet.rowsOf hs])

theorem Placed.added (hs : Wf s) (hbody : BodyOf s.pages s.pageSize v.header payload v.body) (h : Placed s s' tableId v) :
    Added s s' tableId ⟨v.ref, v.header, payload⟩ := by
  obtain ⟨s₁, hquiet, hrewritten, hunused⟩ := h
  have hs₁ := hquiet.wf hs
  have hbody₁ := hquiet.pages.bodyOf hbody
  refine Added.of_quiet hs hquiet ⟨hrewritten.advances hs₁, fun t => ?_, fun t w hw => ?_, fun t r hr => ?_⟩
  · have hrow : rowOf s₁.pages v = ⟨v.ref, v.header, payload⟩ := by rw [rowOf, payloadAt_eq hs.room hbody₁]
    rw [hrewritten.rowsOf hs₁, withVersion]
    split_ifs
    · rw [List.map_append, List.map_singleton, hrow, rowsOf]
    · rfl
  · refine hrewritten.stored_iff.mpr ?_
    have hwalk := (mem_walk_iff hs₁).mpr hw
    unfold withVersion
    split_ifs
    · exact List.mem_append_left _ hwalk
    · exact hwalk
  · obtain ⟨w, hw, rfl⟩ := List.mem_map.mp hr
    exact hunused t w ((mem_walk_iff hs₁).mp hw)

/-! ## Appending -/

section Append
variable {table : TableDef} {e : TableExtent} {tail length : ℕ} {h : RecordHeader} {body : RecordBody}

theorem placed_on_tail (hs : Wf s) (htail : TailOf s.pages table.tableId tail length) {p q : Page Cell} {slot : ℕ}
    (hp : s.pages[tail]? = some p) (hinsert : p.insertSlot s.pageSize (.record h body) = some (q, slot))
    (hnew : Storable s h payload body) :
    Placed s { s with pages := s.pages.set tail q } table.tableId ⟨⟨tail, slot⟩, h, body⟩ := by
  obtain ⟨rfl, hq⟩ := Page.insertSlot_eq_some hinsert
  have htype : q.pageType = p.pageType := by rw [hq]
  have hnext : q.nextPage = p.nextPage := by rw [hq]
  have hslots : q.slots = p.slots ++ [some (.record h body)] := by rw [hq]
  obtain ⟨e₀, he₀, hid, xs, hchain, hlast, -⟩ := htail
  rw [← hid] at hchain ⊢
  refine ⟨s, Quiet.refl hs, appendSlot_rewritten hs he₀ hchain hlast hp hnew htype hnext hslots, ?_⟩
  rintro t w ⟨_, -, -, ys, -, hw⟩ href
  -- A stored version has a slot the page already had.
  obtain ⟨-, p₀, hp₀, -, hcell⟩ := mem_versionsOn.mp hw
  rw [href] at hp₀ hcell
  cases hp.symm.trans hp₀
  exact absurd (getElem?_eq_some_iff.mp hcell).1 (lt_irrefl _)

theorem placed_on_new_page (hs : Wf s) (hquiet : Quiet s s₁) (htail : TailOf s₁.pages table.tableId tail length)
    {p q : Page Cell} {j : ℕ} (hp : s₁.pages[tail]? = some p) (hprivate : Private s j) (hq : s₁.pages[j]? = some q)
    (htype : q.pageType = .heap) (hend : q.nextPage = none)
    (hslots : q.slots = [some (.descriptor table.tableId), some (.record h body)])
    (hnew : Storable s h payload body) :
    Placed s
      { s₁ with
        pages := s₁.pages.set tail { p with nextPage := some j }
        tailCache := Function.update s₁.tailCache table.tableId (some ⟨j, length + 1, s₁.derivedEpoch⟩) }
      table.tableId ⟨⟨j, 1⟩, h, body⟩ := by
  have hs₁ := hquiet.wf hs
  have hunreached := unreached_of_private hs hquiet hprivate hq (by simp [hslots])
  obtain ⟨e₀, he₀, hid, xs, hchain, hlast, rfl⟩ := htail
  rw [← hid] at hchain hslots ⊢
  have hready : DataPage e₀.tableId q := ⟨htype, by rw [hslots]; rfl, by
    intro c hc
    rw [hslots] at hc
    rw [List.mem_singleton.mp hc]
    trivial⟩
  refine ⟨s₁, hquiet, link_rewritten hs₁ he₀ hchain hlast hp (hnew.of_quiet hs hquiet) hq hready hend hslots hunreached, ?_⟩
  rintro t w ⟨e', he', rfl, ys, hys, hw⟩ href
  have hpage := (mem_versionsOn.mp hw).1
  rw [href] at hpage
  exact hunreached e' he' ys hys hpage

theorem append_ensures (hs : Wf s) (hentry : EntryFor s table.tableId e) (htail : TailOf s.pages table.tableId tail length)
    (hnew : Storable s h payload body) :
    (append table e tail length (.record h body)).Ensures s
      (fun ref s' => Placed s s' table.tableId ⟨ref, h, body⟩) (Quiet s) := by
  have hnamed : ∀ {t : HeapStore}, Quiet s t → ∀ lastPage pageCount,
      ∃ e₀ ∈ entriesOf t.pages, e₀.tableId = ({ e with lastPage := lastPage, pageCount := pageCount } : TableExtent).tableId ∧
        e₀.firstPage = ({ e with lastPage := lastPage, pageCount := pageCount } : TableExtent).firstPage := by
    intro t hquiet lastPage pageCount
    obtain ⟨hid, e₀, he₀, hid₀, hfirst, -⟩ := hentry.of_quiet hquiet
    exact ⟨e₀, he₀, hid₀.trans hid.symm, hfirst⟩
  refine bind_read (ensures_bind (pin_ensures (fun p hp => ?_) (Quiet.refl hs)))
  by_cases hfits : p.canFit s.pageSize (Cell.record h body).size = true
  · rw [if_pos hfits]
    by_cases hhint : e.lastPage = tail ∧ e.pageCount = length
    · rw [if_pos hhint]
      cases hinsert : p.insertSlot s.pageSize (.record h body) with
      | none => exact ensures_refuse (Quiet.refl hs)
      | some inserted =>
        obtain ⟨q, slot⟩ := inserted
        exact ensures_bind (setPage_ensures (ensures_pure (placed_on_tail hs htail hp hinsert hnew)))
    · rw [if_neg hhint]
      refine ensures_bind ((writeExtent_ensures hs (hnamed (Quiet.refl hs) tail length)).mono ?_ ?_)
      · rintro settled s₁ ⟨hquiet, -⟩
        refine ensures_bind (pin_ensures (fun p' hp' => ?_) hquiet)
        rw [← hquiet.pageSize]
        cases hinsert : p'.insertSlot s₁.pageSize (.record h body) with
        | none => exact ensures_refuse hquiet
        | some inserted =>
          obtain ⟨q, slot⟩ := inserted
          refine ensures_bind (setPage_ensures (ensures_pure ?_))
          obtain ⟨s₂, hquiet₂, hplaced⟩ := placed_on_tail (hquiet.wf hs) (hquiet.pages.tailOf htail) hp' hinsert
            (hnew.of_quiet hs hquiet)
          exact ⟨s₂, hquiet.trans hquiet₂, hplaced⟩
      · rintro _ rfl
        exact Quiet.refl hs
  · rw [if_neg hfits]
    refine ensures_bind ((allocate_ensures hs .heap true).mono ?_ fun t ht => ht.quiet hs)
    intro j s₁ hallocated
    have hfill : ∀ q, Quiet s { s₁ with pages := s₁.pages.set j q } :=
      fun q => (hallocated.hidden.set hallocated.isPrivate q).quiet hs
    dsimp only
    cases hinsert : (emptyDataPage table.tableId (Page.empty .heap)).insertSlot s.pageSize (.record h body) with
    | none => exact ensures_bind (setPage_ensures (ensures_refuse (hfill _)))
    | some inserted =>
      obtain ⟨q, slot⟩ := inserted
      obtain ⟨rfl, hq⟩ := Page.insertSlot_eq_some hinsert
      have htype : q.pageType = .heap := by rw [hq]; rfl
      have hend : q.nextPage = none := by rw [hq]; rfl
      have hslots : q.slots = [some (.descriptor table.tableId), some (.record h body)] := by rw [hq]; rfl
      refine ensures_bind (setPage_ensures ?_)
      have hquiet := hfill q
      have hpage : (s₁.pages.set j q)[j]? = some q :=
        List.getElem?_set_self (getElem?_eq_some_iff.mp hallocated.page).1
      refine ensures_bind ((writeExtent_ensures (hquiet.wf hs) (hnamed hquiet j (length + 1))).mono ?_ ?_)
      · rintro settled s₂ ⟨hquiet₂, hothers, -⟩
        have hquiet' := hquiet.trans hquiet₂
        have hj : s₂.pages[j]? = some q := (hothers j hallocated.isPrivate.1).trans hpage
        refine ensures_bind (pin_ensures (fun p' hp' => ?_) hquiet')
        refine ensures_bind (setPage_ensures (bind_update (ensures_pure ?_)))
        exact placed_on_new_page hs hquiet' (hquiet'.pages.tailOf htail) hp' hallocated.isPrivate hj htype hend hslots hnew
      · rintro _ rfl
        exact hquiet

end Append

/-! ## Storing a version -/

/-- A payload that does not fit goes to an overflow chain. -/
def placedHeader (pageSize : ℕ) (h : RecordHeader) (payload : Payload) : RecordHeader :=
  if recordHeaderSize + payload.length ≤ inlineCapacity pageSize then h
  else { h with flags := { h.flags with hasOverflow := true } }

theorem ChainWritten.storable (hs : Wf s) {first : ℕ} {rest : List ℕ} {h : RecordHeader}
    (hchain : ChainWritten s s' payload (first :: rest)) (hbody : BodyOf s'.pages s'.pageSize h payload (.overflow first)) :
    Storable s' h payload (.overflow first) := by
  refine ⟨hbody, ?_⟩
  rintro t w ref i hw ⟨first', ys, bytes, hform, hblob, hi⟩ howns
  have hquiet := hchain.hidden.quiet hs
  obtain rfl := RecordBody.overflow.inj hform
  obtain rfl := hblob.linked.unique hchain.linked
  -- The pages of the chain were nobody's, so no stored version owned one of them.
  have hstored := (hquiet.pages.stored_iff hs.chains).mp hw
  obtain ⟨_, _, _, -, hblob', hi'⟩ := hquiet.owns (hs.bodies t w hstored) howns
  obtain ⟨p, hp, htype⟩ := hblob'.mem_page hi'
  exact (hchain.isPrivate i hi).2 p hp |>.2 htype

theorem storeVersion_ensures (hs : Wf s) {table : TableDef} {h : RecordHeader} {hint : Option TableExtent}
    (hflag : h.flags.hasOverflow = false) (hlength : payload.length = h.payloadLen)
    (hhint : ∀ e, hint = some e → EntryFor s table.tableId e) :
    (storeVersion table h payload hint).Ensures s
      (fun ref s' => Added s s' table.tableId ⟨ref, placedHeader s.pageSize h payload, payload⟩) (Quiet s) := by
  have hextent : (hint.elim (extentFor table) pure : HeapM TableExtent).Ensures s
      (fun e s' => Quiet s s' ∧ EntryFor s' table.tableId e) (Quiet s) := by
    cases hint with
    | some e => exact ensures_pure ⟨Quiet.refl hs, hhint e rfl⟩
    | none =>
      refine (extentFor_ensures hs).mono ?_ fun _ hq => hq
      rintro e s' ⟨hquiet, hmem, hid⟩
      exact ⟨hquiet, hid ▸ EntryFor.of_mem hmem⟩
  refine hextent.bind ?_
  rintro e s₁ ⟨hquiet₁, hentry₁⟩
  refine ensures_bind ((resolveTail_ensures (hquiet₁.wf hs) hentry₁).mono ?_ fun _ hq => hquiet₁.trans hq)
  rintro ⟨tail, length⟩ s₂ ⟨hpages, hquiet₂', htail⟩
  have hquiet₂ := hquiet₁.trans hquiet₂'
  have hs₂ := hquiet₂.wf hs
  have hentry₂ := hentry₁.of_quiet hquiet₂'
  rw [← hpages] at htail
  refine bind_read ?_
  rw [← hquiet₂.pageSize, placedHeader]
  by_cases hinline : recordHeaderSize + payload.length ≤ inlineCapacity s₂.pageSize
  · rw [if_pos hinline, if_pos hinline]
    have hnew : Storable s₂ h payload (.inline payload) := by
      refine ⟨⟨hflag, rfl, hlength⟩, ?_⟩
      rintro t w ref i - ⟨first, ys, bytes, hform, -⟩
      exact nomatch hform
    refine (append_ensures hs₂ hentry₂ htail hnew).mono ?_ fun _ hq => hquiet₂.trans hq
    exact fun ref s' hplaced => (hplaced.added hs₂ hnew.bodyOf).of_quiet hs hquiet₂
  · rw [if_neg hinline, if_neg hinline]
    refine ensures_bind ((retiredOverflowCandidates_ensures hs₂ _).mono ?_ fun _ hh => hquiet₂.trans (hh.quiet hs₂))
    rintro reuse s₃ ⟨hhidden, hsame, hreuse⟩
    have hs₃ := hhidden.wf hs₂
    have hreuse₃ : ∀ i ∈ reuse, Private s₃ i ∧ i < s₃.pages.length := by
      intro i hi
      rw [Private, hsame]
      exact hreuse i hi
    have hquiet₃ := hquiet₂.trans (hhidden.quiet hs₂)
    refine ensures_bind ((writeChain_ensures hs₃ payload hreuse₃).mono ?_ fun _ hh => hquiet₃.trans (hh.quiet hs₃))
    intro chain s₄ hchain
    have hquiet₄' := hchain.hidden.quiet hs₃
    have hquiet₄ := hquiet₃.trans hquiet₄'
    have hquiet₂₄ := (hhidden.quiet hs₂).trans hquiet₄'
    cases chain with
    | nil => exact ensures_refuse hquiet₄
    | cons first rest =>
      have hlarge : 0 < payload.length := by
        have hroom := hs₂.room
        simp only [inlineCapacity, recordHeaderSize, pageHeaderSize, tableDescriptorSize, slotEntrySize] at hinline
        omega
      have hbody : BodyOf s₄.pages s₄.pageSize { h with flags := { h.flags with hasOverflow := true } } payload
          (.overflow first) :=
        ⟨rfl, hlength, first :: rest, hlarge, hchain.linked, hquiet₄'.pageSize.symm ▸ hchain.chunks⟩
      refine (append_ensures (hquiet₄.wf hs) (hentry₂.of_quiet hquiet₂₄) (hquiet₂₄.pages.tailOf htail)
        (hchain.storable hs₃ hbody)).mono ?_ fun _ hq => hquiet₄.trans hq
      exact fun ref s' hplaced => (hplaced.added (hquiet₄.wf hs) hbody).of_quiet hs hquiet₄

end Grafx.Heap
