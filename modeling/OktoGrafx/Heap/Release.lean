import OktoGrafx.Heap.Selection

/-! The overflow pages a vacuum pass gives back. On a well-formed heap the search for owners never
fails, and it releases exactly the pages of the selected versions, each of them once. -/

namespace Grafx.Heap

open List

variable {owners : List ℕ} {capacity t : ℕ}

/-! ## One chain -/

inductive Cut (capacity : ℕ) : ℕ → List Payload → Prop
  | nil : Cut capacity 0 []
  | cons {remaining : ℕ} {chunk : Payload} {rest : List Payload} (hlength : chunk.length = min remaining capacity)
      (hmore : 0 < remaining) (hrest : Cut capacity (remaining - chunk.length) rest) : Cut capacity remaining (chunk :: rest)

theorem splitPayload_cut (hcapacity : 0 < capacity) {payload : Payload} (hpayload : 0 < payload.length) :
    Cut capacity payload.length (splitPayload capacity payload) := by
  have hcut : ∀ fuel (bytes : Payload), bytes.length ≤ fuel → Cut capacity bytes.length (cutPayload capacity fuel bytes) := by
    intro fuel
    induction fuel with
    | zero =>
      intro bytes h
      rw [eq_nil_of_length_eq_zero (Nat.le_zero.mp h)]
      exact .nil
    | succ fuel ih =>
      intro bytes h
      cases bytes with
      | nil => exact .nil
      | cons b rest =>
        have hshort : ((b :: rest).drop capacity).length ≤ fuel := by
          rw [length_drop]
          omega
        have htake : ((b :: rest).take capacity).length = min (b :: rest).length capacity := by
          rw [length_take, Nat.min_comm]
        rw [cutPayload]
        · refine .cons htake (Nat.succ_pos _) ?_
          have hleft : (b :: rest).length - ((b :: rest).take capacity).length = ((b :: rest).drop capacity).length := by
            rw [length_drop, htake]
            omega
          rw [hleft]
          exact ih _ hshort
        · exact cons_ne_nil b rest
  rw [splitPayload, if_neg (ne_nil_of_length_pos hpayload)]
  exact hcut _ _ le_rfl

theorem ownedPages_eq {pages : List (Page Cell)} {fuel remaining : ℕ} {ys : List ℕ} {start : Option ℕ}
    {chunks : List Payload} (hlinked : Linked (nextOf pages) start ys) (hchunks : List.Forall₂ (IsChunkPage pages) ys chunks)
    (hcut : Cut capacity remaining chunks) (hheader : ∀ i ∈ ys, i ≠ headerPageIndex) (howners : ∀ i ∈ ys, i ∉ owners)
    (hfuel : ys.length ≤ fuel) : ownedPages pages capacity fuel owners remaining start = .ok ys := by
  induction hchunks generalizing fuel owners remaining start with
  | nil =>
    cases hcut
    cases start with
    | none => simp [ownedPages]
    | some i => exact hlinked.elim
  | @cons index chunk rest chunks hpage _ ih =>
    obtain ⟨rfl, htail⟩ := Linked.cons_iff.mp hlinked
    obtain ⟨p, hp, htype, hslots⟩ := hpage
    have hnext : nextOf pages index = p.nextPage := by simp [nextOf, hp]
    rw [hnext] at htail
    cases hcut with
    | cons hlength hmore hrest =>
      cases fuel with
      | zero => simp at hfuel
      | succ fuel =>
        have hbound : ¬ pages.length ≤ index := not_le.mpr (List.getElem?_eq_some_iff.mp hp).1
        have hvalid : ¬ (index = headerPageIndex ∨ pages.length ≤ index ∨ index ∈ owners) := by
          rintro (hzero | hlarge | howned)
          · exact hheader index mem_cons_self hzero
          · exact hbound hlarge
          · exact howners index mem_cons_self howned
        have hcovered : ¬ (chunk.length ≠ min remaining capacity ∨ remaining = 0) := by
          rintro (hne | hzero)
          · exact hne hlength
          · exact hmore.ne' hzero
        have hrecursive := ih htail hrest (forall_mem_cons.mp hheader).2 (hlinked.unseen howners)
          (Nat.le_of_succ_le_succ hfuel)
        simp only [ownedPages, if_neg hvalid, hp, htype, hslots, if_neg hcovered, hrecursive, Except.map]

section Chains
variable {s : HeapStore} (hs : Wf s) {v : StoredVersion}
include hs

theorem overflow_ne_header {i : ℕ} {p : Page Cell} (hp : s.pages[i]? = some p) (htype : p.pageType = .overflow) :
    i ≠ headerPageIndex := by
  rintro rfl
  obtain ⟨q, floor, hq, hmeta, -⟩ := hs.header
  rw [Option.some.inj (hp.symm.trans hq)] at htype
  exact absurd (hmeta.symm.trans htype) (by decide)

theorem ownedPages_stored (hv : Stored s.pages t v) (hoverflow : v.header.flags.hasOverflow = true)
    (howners : ∀ i, Owns s.pages s.pageSize v i → i ∉ owners) :
    ∃ first ys, v.body = .overflow first ∧ (∀ i, i ∈ ys ↔ Owns s.pages s.pageSize v i) ∧ ys.Nodup ∧
      ownedPages s.pages (chunkCapacity s.pageSize) (s.pages.length + 1) owners v.header.payloadLen (some first) = .ok ys := by
  obtain ⟨payload, hbody⟩ := hs.bodies t v hv
  cases hform : v.body with
  | inline bytes =>
    rw [hform] at hbody
    exact absurd (hoverflow.symm.trans hbody.1) (by decide)
  | overflow first =>
    rw [hform] at hbody
    obtain ⟨-, hlength, ys, hblob⟩ := hbody
    have hmem : ∀ i, i ∈ ys ↔ Owns s.pages s.pageSize v i := by
      intro i
      constructor
      · exact fun hi => ⟨first, ys, payload, hform, hblob, hi⟩
      · rintro ⟨first', ys', payload', hform', hblob', hi⟩
        rw [hform] at hform'
        obtain rfl := RecordBody.overflow.inj hform'
        rwa [hblob.linked.unique hblob'.linked]
    have hcapacity : 0 < chunkCapacity s.pageSize := by
      have hroom := hs.room
      unfold chunkCapacity pageHeaderSize slotEntrySize
      omega
    have hpages : ∀ i ∈ ys, i < s.pages.length := fun i hi => by
      obtain ⟨p, hp, -⟩ := hblob.mem_page hi
      exact (List.getElem?_eq_some_iff.mp hp).1
    refine ⟨first, ys, rfl, hmem, hblob.linked.nodup, ?_⟩
    refine ownedPages_eq hblob.linked hblob.chunks (hlength ▸ splitPayload_cut hcapacity hblob.nonempty) ?_
      (fun i hi => howners i ((hmem i).mp hi)) ((length_le_of_nodup hblob.linked.nodup hpages).trans (Nat.le_succ _))
    intro i hi
    obtain ⟨p, hp, htype⟩ := hblob.mem_page hi
    exact overflow_ne_header hs hp htype

theorem not_owns_of_inline (hv : Stored s.pages t v) (hinline : v.header.flags.hasOverflow = false) {i : ℕ} : ¬ Owns s.pages s.pageSize v i := by
  rintro ⟨first, ys, payload', hform, -⟩
  obtain ⟨payload, hbody⟩ := hs.bodies t v hv
  rw [hform] at hbody
  exact absurd (hinline.symm.trans hbody.1) (by decide)

end Chains

/-! ## All chains -/

/-- The pages the versions own, and which of them to release. -/
structure Released (s : HeapStore) (sel : List (ℕ × StoredVersion)) (vs : List StoredVersion) (owners owners' released : List ℕ) :
    Prop where
  owned : ∀ i, i ∈ owners' ↔ i ∈ owners ∨ ∃ v ∈ vs, Owns s.pages s.pageSize v i
  pages : ∀ i, i ∈ released ↔ ∃ v ∈ vs, isChosen sel v.ref = true ∧ Owns s.pages s.pageSize v i
  nodup : released.Nodup

section Search
variable {s : HeapStore} (hs : Wf s) {horizon : ℕ} {ts : List ℕ} {sel : List (ℕ × StoredVersion)} (h : Chosen s horizon ts sel)
include hs h

theorem releaseVersions_eq {vs : List StoredVersion} (hvs : ∀ v ∈ vs, Stored s.pages t v)
    (hdistinct : vs.Pairwise fun v w => v.ref ≠ w.ref) (howners : ∀ v ∈ vs, ∀ i, Owns s.pages s.pageSize v i → i ∉ owners) :
    ∃ owners' released, releaseVersions s.pages (chunkCapacity s.pageSize) sel owners vs = .ok (owners', released) ∧
      Released s sel vs owners owners' released := by
  induction vs generalizing owners with
  | nil => exact ⟨owners, [], rfl, by simp, by simp, nodup_nil⟩
  | cons v rest ih =>
    obtain ⟨hne, hdistinct⟩ := pairwise_cons.mp hdistinct
    have hv := hvs v mem_cons_self
    have hrest : ∀ w ∈ rest, Stored s.pages t w := (forall_mem_cons.mp hvs).2
    cases hoverflow : v.header.flags.hasOverflow with
    | false =>
      have hnone : ∀ i, ¬ Owns s.pages s.pageSize v i := fun i => not_owns_of_inline hs hv hoverflow
      obtain ⟨owners', released, hrun, hreleased⟩ := ih hrest hdistinct (forall_mem_cons.mp howners).2
      refine ⟨owners', released, ?_, fun i => ?_, fun i => ?_, hreleased.nodup⟩
      · rw [releaseVersions, if_pos hoverflow, hrun]
      · rw [hreleased.owned i]
        simp only [exists_mem_cons_iff, hnone, false_or]
      · rw [hreleased.pages i]
        simp only [exists_mem_cons_iff, hnone, and_false, false_or]
    | true =>
      obtain ⟨first, ys, hform, hmem, hnodup, howned⟩ := ownedPages_stored hs hv hoverflow (howners v mem_cons_self)
      have hfresh : ∀ w ∈ rest, ∀ i, Owns s.pages s.pageSize w i → i ∉ ys ++ owners := by
        intro w hw i hi hi'
        rcases mem_append.mp hi' with hi' | hi'
        · exact hne w hw (hs.exclusive t v t w i hv (hrest w hw) ((hmem i).mp hi') hi)
        · exact howners w (mem_cons_of_mem v hw) i hi hi'
      obtain ⟨owners', released, hrun, hreleased⟩ := ih hrest hdistinct hfresh
      have hcandidate : ∀ x ∈ candidateAt sel v.ref, x.2.header = v.header := by
        intro x hx
        rw [h.candidate_eq hv hx]
      refine ⟨owners', if isChosen sel v.ref then ys ++ released else released, ?_, fun i => ?_, fun i => ?_, ?_⟩
      · rw [releaseVersions, if_neg (by simp [hoverflow])]
        simp only [hform, requireThat, if_pos hcandidate, howned, hrun, bind, Except.bind, pure, Except.pure]
        rfl
      · rw [hreleased.owned i, mem_append, hmem i]
        simp only [exists_mem_cons_iff]
        tauto
      · have hpages := hreleased.pages i
        cases hchosen : isChosen sel v.ref with
        | false =>
          rw [if_neg (by simp), hpages]
          simp only [exists_mem_cons_iff, hchosen, Bool.false_eq_true, false_and, false_or]
        | true =>
          rw [if_pos rfl, mem_append, hpages, hmem i]
          simp only [exists_mem_cons_iff, hchosen, true_and]
      · split_ifs
        · refine nodup_append.mpr ⟨hnodup, hreleased.nodup, ?_⟩
          rintro i hi _ hi' rfl
          obtain ⟨w, hw, -, hwi⟩ := (hreleased.pages i).mp hi'
          exact hfresh w hw i hwi (mem_append_left _ hi)
        · exact hreleased.nodup

theorem releaseTables_eq {cat : List ℕ} (hcat : cat.Nodup)
    (howners : ∀ t ∈ cat, ∀ v, Stored s.pages t v → ∀ i, Owns s.pages s.pageSize v i → i ∉ owners) :
    ∃ released, releaseTables s.pages (chunkCapacity s.pageSize) sel owners cat = .ok released ∧
      (∀ i, i ∈ released.flatMap (·.2) ↔
        ∃ t ∈ cat, ∃ v, Stored s.pages t v ∧ isChosen sel v.ref = true ∧ Owns s.pages s.pageSize v i) ∧
      (released.flatMap (·.2)).Nodup := by
  induction cat generalizing owners with
  | nil => exact ⟨[], rfl, by simp, nodup_nil⟩
  | cons t rest ih =>
    obtain ⟨ht, hrest⟩ := nodup_cons.mp hcat
    have hstored : ∀ v ∈ (walk s.pages t).versions, Stored s.pages t v := fun v => (mem_walk_iff hs).mp
    have hpairs : (walk s.pages t).versions.Pairwise fun v w => v.ref ≠ w.ref := by
      obtain ⟨xs, hchain⟩ := exists_tableChain hs t
      rw [hchain.walk hs]
      exact versionsOn_pairwise hchain.nodup
    obtain ⟨owners', here, hrun, hreleased⟩ := releaseVersions_eq hs h hstored hpairs fun v hv i hi =>
      howners t mem_cons_self v (hstored v hv) i hi
    have hfresh : ∀ t' ∈ rest, ∀ v, Stored s.pages t' v → ∀ i, Owns s.pages s.pageSize v i → i ∉ owners' := by
      intro t' ht' v hv i hi hi'
      rcases (hreleased.owned i).mp hi' with hi' | ⟨w, hw, hwi⟩
      · exact howners t' (mem_cons_of_mem t ht') v hv i hi hi'
      · have href := hs.exclusive t' v t w i hv (hstored w hw) hi hwi
        exact ht ((stored_unique hv (hstored w hw) href).1 ▸ ht')
    obtain ⟨others, hothers, hmem, hnodup⟩ := ih hrest hfresh
    refine ⟨(t, here) :: others, ?_, fun i => ?_, ?_⟩
    · simp only [releaseTables, hrun, walk_failure hs, Option.elim_none, hothers, bind, Except.bind, pure, Except.pure]
    · rw [flatMap_cons, mem_append, hmem i, hreleased.pages i]
      simp only [exists_mem_cons_iff, mem_walk_iff hs]
    · refine nodup_append.mpr ⟨hreleased.nodup, hnodup, ?_⟩
      rintro i hi _ hi' rfl
      obtain ⟨v, hv, -, hvi⟩ := (hreleased.pages i).mp hi
      obtain ⟨t', ht', w, hw, -, hwi⟩ := (hmem i).mp hi'
      exact hfresh t' ht' w hw i hwi ((hreleased.owned i).mpr (.inr ⟨v, hv, hvi⟩))

end Search

theorem Chosen.filter {s : HeapStore} {horizon : ℕ} {ts : List ℕ} {sel : List (ℕ × StoredVersion)}
    (h : Chosen s horizon ts sel) (keep : ℕ × StoredVersion → Bool) : Chosen s horizon ts (sel.filter keep) :=
  ⟨fun x hx => h.stored x (mem_filter.mp hx).1, fun x hx => h.dead x (mem_filter.mp hx).1,
    fun x hx => h.requested x (mem_filter.mp hx).1, (filter_sublist.map _).nodup h.refs⟩

theorem planOverflowReclaim_eq {s : HeapStore} (hs : Wf s) {horizon : ℕ} {ts : List ℕ} {sel : List (ℕ × StoredVersion)}
    (h : Chosen s horizon ts sel) (catalog : CatalogTables) (hts : ∀ t ∈ ts, t ∈ catalog.ids) :
    ∃ released, planOverflowReclaim s catalog.ids sel = .ok released ∧
      (∀ i, i ∈ released.flatMap (·.2) ↔ ∃ x ∈ sel, Owns s.pages s.pageSize x.2 i) ∧ (released.flatMap (·.2)).Nodup := by
  set wanted := sel.filter fun x => x.2.header.flags.hasOverflow with hwanted
  have hchosen : Chosen s horizon ts wanted := h.filter _
  have howns : ∀ i, (∃ x ∈ sel, Owns s.pages s.pageSize x.2 i) ↔ ∃ x ∈ wanted, Owns s.pages s.pageSize x.2 i := by
    intro i
    constructor
    · rintro ⟨x, hx, hi⟩
      refine ⟨x, mem_filter.mpr ⟨hx, ?_⟩, hi⟩
      by_contra hinline
      exact not_owns_of_inline hs (h.stored x hx) (Bool.not_eq_true _ ▸ hinline) hi
    · rintro ⟨x, hx, hi⟩
      exact ⟨x, (mem_filter.mp hx).1, hi⟩
  unfold planOverflowReclaim
  by_cases hempty : wanted = []
  · refine ⟨[], by rw [← hwanted]; simp [hempty], fun i => ?_, nodup_nil⟩
    rw [howns i, hempty]
    simp
  · have hnobody : ∀ t ∈ catalog.ids, ∀ v, Stored s.pages t v → ∀ i, Owns s.pages s.pageSize v i → i ∉ ([] : List ℕ) :=
      fun _ _ _ _ _ _ => not_mem_nil
    obtain ⟨released, hrun, hmem, hnodup⟩ := releaseTables_eq hs hchosen catalog.nodup hnobody
    have hfound : ∀ x ∈ wanted, x.2.ref ∈ catalog.ids.flatMap fun t => (walk s.pages t).versions.map (·.ref) := by
      intro x hx
      refine mem_flatMap.mpr ⟨x.1, hts _ (hchosen.requested x hx), mem_map_of_mem ?_⟩
      exact (mem_walk_iff hs).mpr (hchosen.stored x hx)
    refine ⟨released, ?_, fun i => ?_, hnodup⟩
    · simp only [← hwanted, if_neg hempty, hrun, requireThat, if_pos hfound, bind, Except.bind, pure, Except.pure]
    · rw [hmem i, howns i]
      constructor
      · rintro ⟨t, -, v, hv, hchosenRef, hi⟩
        exact ⟨(t, v), (hchosen.isChosen_iff hv).mp hchosenRef, hi⟩
      · rintro ⟨x, hx, hi⟩
        exact ⟨x.1, hts _ (hchosen.requested x hx), x.2, hchosen.stored x hx, isChosen_of_mem hx, hi⟩

end Grafx.Heap
