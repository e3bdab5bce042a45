import OktoGrafx.Heap.Hidden

/-! Writing an overflow chain. It goes to pages nothing points at, so a refusal at any point of it
leaves nothing a reader can reach. -/

namespace Grafx.Heap
open List Fallible

variable {s base : HeapStore}

theorem allocateMore_ensures (hbase : Wf base) (hhidden : Hidden base s) (missing : ℕ) :
    (allocateMore missing).Ensures s
      (fun fresh s' => fresh = range' s.pages.length missing ∧
        s'.pages = s.pages ++ replicate missing (Page.empty .overflow) ∧ Hidden base s' ∧
        ∀ i ∈ fresh, Private base i)
      (Hidden base) := by
  induction missing generalizing s with
  | zero => exact ensures_pure ⟨rfl, by simp, hhidden, by simp⟩
  | succ missing ih =>
    refine (allocate_fresh_ensures hbase hhidden .overflow).bind fun i s' ⟨hi, hpages, hhidden', hprivate⟩ => ?_
    refine (ih hhidden').bind fun rest s'' ⟨hrest, hpages', hhidden'', hprivate'⟩ => ensures_pure ⟨?_, ?_, hhidden'', ?_⟩
    · rw [hrest, hi, hpages, range'_succ, length_append, length_singleton]
    · rw [hpages', hpages, append_assoc, singleton_append, ← replicate_succ]
    · intro j hj
      rcases mem_cons.mp hj with rfl | hj
      · exact hprivate
      · exact hprivate' j hj

theorem fillChain_ensures {pageSize : ℕ} {indices : List ℕ} {chunks : List Payload} (hhidden : Hidden base s)
    (hlength : indices.length = chunks.length) (hnodup : indices.Nodup) (hprivate : ∀ i ∈ indices, Private base i) :
    (fillChain pageSize indices chunks).Ensures s
      (fun _ s' => Hidden base s' ∧ Linked (nextOf s'.pages) indices.head? indices ∧
        List.Forall₂ (IsChunkPage s'.pages) indices chunks ∧ ∀ j, j ∉ indices → s'.pages[j]? = s.pages[j]?)
      (Hidden base) := by
  induction indices generalizing s chunks with
  | nil =>
    obtain rfl := eq_nil_of_length_eq_zero hlength.symm
    exact ensures_pure ⟨hhidden, trivial, .nil, fun _ _ => rfl⟩
  | cons index rest ih =>
    obtain ⟨hnotin, hnodup⟩ := nodup_cons.mp hnodup
    have hindex := hprivate index mem_cons_self
    match chunks, hlength with
    | chunk :: chunks, hlength =>
    refine ensures_bind (pin_ensures (fun p hp => ?_) hhidden)
    cases hfill : Page.insertSlot pageSize { p.clear with pageType := .overflow, nextPage := rest.head? }
        (.chunk chunk) with
    | none =>
      simp only [hfill]
      exact ensures_bind (setPage_ensures (ensures_refuse (hhidden.set hindex _)))
    | some filled =>
      obtain ⟨filled, slot⟩ := filled
      simp only [hfill]
      refine ensures_bind (setPage_ensures ?_)
      obtain ⟨-, hfilled⟩ := Page.insertSlot_eq_some hfill
      have htype : filled.pageType = .overflow := by rw [hfilled]
      have hslots : filled.slots = [some (.chunk chunk)] := by
        rw [hfilled]
        rfl
      have hfollowing : filled.nextPage = rest.head? := by rw [hfilled]
      refine (ih (hhidden.set hindex filled) (Nat.succ.inj hlength) hnodup
        (forall_mem_cons.mp hprivate).2).mono ?_ fun _ h => h
      rintro ⟨⟩ s' ⟨hhidden', hlinked, hchunks, hothers⟩
      -- The pages after this one do not touch it again.
      have hpage : s'.pages[index]? = some filled := by
        rw [hothers index hnotin]
        exact getElem?_set_self (List.getElem?_eq_some_iff.mp hp).1
      have hnext : nextOf s'.pages index = rest.head? := by
        rw [nextOf, hpage, Option.bind_some, hfollowing]
      refine ⟨hhidden', Linked.cons_iff.mpr ⟨rfl, hnext ▸ hlinked⟩, .cons ⟨filled, hpage, htype, hslots⟩ hchunks, ?_⟩
      intro j hj
      rw [hothers j fun hrest => hj (mem_cons_of_mem index hrest)]
      exact getElem?_set_ne fun (heq : index = j) => hj (heq ▸ mem_cons_self)

theorem nodup_of_requireDistinct {reuse : List ℕ} (h : requireDistinctReusablePages reuse = .ok ()) : reuse.Nodup := by
  induction reuse with
  | nil => exact nodup_nil
  | cons index rest ih =>
    rw [requireDistinctReusablePages] at h
    split_ifs at h with hbad
    exact nodup_cons.mpr ⟨fun hmem => hbad (.inr hmem), ih h⟩

structure ChainWritten (s s' : HeapStore) (payload : Payload) (indices : List ℕ) : Prop where
  hidden : Hidden s s'
  isPrivate : ∀ i ∈ indices, Private s i
  linked : Linked (nextOf s'.pages) indices.head? indices
  chunks : List.Forall₂ (IsChunkPage s'.pages) indices (splitPayload (chunkCapacity s.pageSize) payload)

theorem writeChain_ensures (hs : Wf s) {reuse : List ℕ} (payload : Payload)
    (hreuse : ∀ i ∈ reuse, Private s i ∧ i < s.pages.length) :
    (writeChain payload reuse).Ensures s (fun indices s' => ChainWritten s s' payload indices) (Hidden s) := by
  refine bind_lift (fun _ hdistinct => bind_read ?_) (Hidden.refl s)
  by_cases hempty : s.pages = []
  · rw [if_pos hempty]
    exact ensures_refuse (Hidden.refl s)
  rw [if_neg hempty]
  set chunks := splitPayload (chunkCapacity s.pageSize) payload with hchunks
  have hbump : (if reuse = [] then pure () else
      Fallible.update fun s => { s with derivedEpoch := s.derivedEpoch + 1 } : HeapM Unit).Ensures s
      (fun _ s' => Hidden s s' ∧ s'.pages = s.pages) (Hidden s) := by
    split_ifs
    · exact ensures_pure ⟨Hidden.refl s, rfl⟩
    · exact ensures_update ⟨⟨fun _ _ hp _ => hp, rfl, rfl, rfl, Nat.le_succ _⟩, rfl⟩
  refine hbump.bind fun _ s₁ ⟨hhidden, hpages⟩ => ?_
  refine (allocateMore_ensures hs hhidden _).bind fun fresh s₂ ⟨hfresh, _, hhidden', hprivate⟩ => ?_
  have htaken : ∀ i ∈ reuse.take chunks.length, Private s i ∧ i < s.pages.length :=
    fun i hi => hreuse i (mem_of_mem_take hi)
  have hlength : (reuse.take chunks.length ++ fresh).length = chunks.length := by
    simp only [hfresh, length_append, length_range', length_take]
    omega
  have hnodup : (reuse.take chunks.length ++ fresh).Nodup := by
    refine ((nodup_of_requireDistinct hdistinct).sublist (take_sublist _ _)).append ?_ ?_
    · rw [hfresh]
      exact nodup_range'
    · intro i hi hi'
      rw [hfresh, hpages, mem_range'_1] at hi'
      exact absurd (htaken i hi).2 (not_lt.mpr hi'.1)
  have hall : ∀ i ∈ reuse.take chunks.length ++ fresh, Private s i := by
    intro i hi
    rcases mem_append.mp hi with hi | hi
    · exact (htaken i hi).1
    · exact hprivate i hi
  refine (fillChain_ensures hhidden' hlength hnodup hall).bind fun _ s₃ ⟨hhidden'', hlinked, hforall, _⟩ => ?_
  exact ensures_pure ⟨hhidden'', hall, hlinked, hforall⟩

/-! ## Retired pages -/

theorem Hidden.of_cursor (h : ∃ cursor, s = { base with reuseCursor := cursor }) : Hidden base s ∧ s.pages = base.pages := by
  obtain ⟨cursor, rfl⟩ := h
  exact ⟨⟨fun _ _ hp _ => hp, rfl, rfl, rfl, le_rfl⟩, rfl⟩

theorem collectRetired_ensures {floor horizon stop count fuel position : ℕ} {selected : List ℕ} (hbase : Wf base)
    (hs : ∃ cursor, s = { base with reuseCursor := cursor })
    (hselected : ∀ i ∈ selected, Private base i ∧ i < base.pages.length) :
    (collectRetired floor horizon stop count fuel position selected).Ensures s
      (fun found s' => (∃ cursor, s' = { base with reuseCursor := cursor }) ∧
        ∀ i ∈ found, Private base i ∧ i < base.pages.length)
      (fun s' => ∃ cursor, s' = { base with reuseCursor := cursor }) := by
  have hcursor : ∀ cursor, ∃ c, { s with reuseCursor := cursor } = { base with reuseCursor := c } := by
    obtain ⟨c, rfl⟩ := hs
    exact fun cursor => ⟨cursor, rfl⟩
  induction fuel generalizing s position selected with
  | zero => exact bind_update (ensures_pure ⟨hcursor _, hselected⟩)
  | succ fuel ih =>
    rw [collectRetired]
    split_ifs with hgo
    · refine bind_update (ensures_bind (pin_ensures (fun p hp => ?_) (hcursor _)))
      have hs' := hcursor (some ⟨floor, position + 1, stop⟩)
      have hnext : ∀ cursor, ∃ c, { { s with reuseCursor := some ⟨floor, position + 1, stop⟩ } with
          reuseCursor := cursor } = { base with reuseCursor := c } := fun cursor => hcursor cursor
      split_ifs with htype hblank hlsn hcommitted
      · exact ih hs' hselected hnext
      · exact ensures_refuse hs'
      · exact ensures_refuse hs'
      · refine ih hs' (fun i hi => ?_) hnext
        rcases mem_append.mp hi with hi | hi
        · exact hselected i hi
        · rw [mem_singleton.mp hi]
          have hp' : base.pages[position]? = some p := by
            rw [← (Hidden.of_cursor hs').2]
            exact hp
          exact ⟨private_of_free hbase hp' (not_not.mp htype), (List.getElem?_eq_some_iff.mp hp').1⟩
      · exact ih hs' hselected hnext
    · exact bind_update (ensures_pure ⟨hcursor _, hselected⟩)

theorem retiredOverflowCandidates_ensures (hs : Wf s) (count : ℕ) :
    (retiredOverflowCandidates count).Ensures s
      (fun found s' => Hidden s s' ∧ s'.pages = s.pages ∧ ∀ i ∈ found, Private s i ∧ i < s.pages.length)
      (Hidden s) := by
  have hnothing : Hidden s s ∧ s.pages = s.pages ∧ ∀ i ∈ ([] : List ℕ), Private s i ∧ i < s.pages.length :=
    ⟨Hidden.refl s, rfl, by simp⟩
  refine bind_read ?_
  split_ifs with hcapable
  · exact ensures_pure hnothing
  refine ensures_bind (ensures_bind (pin_ensures (fun header _ => ?_) (Hidden.refl s)))
  refine bind_lift (fun floor _ => ensures_pure ?_) (Hidden.refl s)
  dsimp only
  split
  · exact ensures_pure hnothing
  · exact ensures_pure hnothing
  · refine bind_ask ?_ (Hidden.refl s)
    refine (collectRetired_ensures hs ⟨s.reuseCursor, rfl⟩ (by simp)).mono ?_ fun s' h => (Hidden.of_cursor h).1
    rintro found s' ⟨hcursor, hfound⟩
    exact ⟨(Hidden.of_cursor hcursor).1, (Hidden.of_cursor hcursor).2, hfound⟩

end Grafx.Heap
