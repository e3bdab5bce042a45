import OktoGrafx.Log.Recycle

/-! When recycling keeps its promise: exactly when the segment with the last readable record stays. In a
log without damage that is the newest segment, which never goes. -/

namespace Grafx.Log

open List Wal

variable {refuses : ℕ → Bool} {horizon k : ℕ} {rs : List WalRecord} {tail : Bytes} {cut seg : Segment}
  {before later d d' segs : Directory} {groups : List (List WalRecord)} {ix' : TailIndex}

structure Indexed (d before : Directory) (groups : List (List WalRecord)) (cut : Segment) (rs : List WalRecord) (tail : Bytes)
    (later : Directory) : Prop where
  ordered : Ordered d
  files : live d = before ++ cut :: later
  cutAt : CutAt everyRecord none before groups cut rs tail
  ends : tail ≠ [] ∨ Stop everyRecord (after none (groups.flatten ++ rs)) later

section
variable (h : Indexed d before groups cut rs tail later)
include h

theorem Indexed.good : goodItems (walk none d).1 = cleanItems before groups ++ recordItems cut.number 0 rs := by
  rw [walk_live, h.files]
  exact h.cutAt.goodItems h.ends

theorem Indexed.order :
    (∀ x ∈ before, x.number < cut.number) ∧ (∀ x ∈ later, cut.number < x.number) ∧ ∀ x ∈ before, ∀ y ∈ later, x.number < y.number := by
  have hlive := h.ordered.live
  rw [h.files] at hlive
  obtain ⟨-, hcut, hcross⟩ := pairwise_append.mp hlive
  exact ⟨fun x hx => hcross x hx cut mem_cons_self, (pairwise_cons.mp hcut).1,
    fun x hx y hy => hcross x hx y (mem_cons_of_mem _ hy)⟩

omit h in
theorem mem_cleanItems : ∀ item ∈ cleanItems segs groups, ∃ seg ∈ segs, item.segment = seg.number := by
  induction segs generalizing groups with
  | nil => exact nofun
  | cons seg segs ih =>
    cases groups with
    | nil => exact nofun
    | cons rs groups =>
      intro item hitem
      rcases mem_append.mp hitem with hitem | hitem
      · exact ⟨seg, mem_cons_self, mem_recordItems item hitem⟩
      · obtain ⟨x, hx, heq⟩ := ih item hitem
        exact ⟨x, mem_cons_of_mem _ hx, heq⟩

omit h in
theorem recordsIn_cleanItems {number : ℕ} (hne : ∀ x ∈ segs, x.number ≠ number) : recordsIn number (cleanItems segs groups) = [] := by
  refine recordsIn_of_ne fun item hitem => ?_
  obtain ⟨x, hx, heq⟩ := mem_cleanItems item hitem
  exact heq ▸ hne x hx

theorem Indexed.count_later (hseg : seg ∈ later) : (infoOf unread (goodItems (walk none d).1) seg).recordCount = 0 := by
  obtain ⟨-, hcut, hcross⟩ := h.order
  apply infoOf_zero
  intro item hitem
  rw [h.good] at hitem
  rcases mem_append.mp hitem with hitem | hitem
  · obtain ⟨x, hx, heq⟩ := mem_cleanItems item hitem
    rw [heq]
    exact (hcross x hx seg hseg).ne
  · rw [mem_recordItems item hitem]
    exact (hcut seg hseg).ne

omit h in
theorem recordsIn_recordItems (segment offset : ℕ) (rs : List WalRecord) : recordsIn segment (recordItems segment offset rs) = rs := by
  induction rs generalizing offset with
  | nil => rfl
  | cons r rs ih =>
    rw [recordItems, recordsIn, filterMap_cons_some (show ScanItem.recordIn segment (.record segment offset r) = some r from if_pos rfl)]
    exact congrArg _ (ih _)

omit h in
theorem recordItems_concat (segment offset : ℕ) (rs : List WalRecord) (r : WalRecord) :
    ∃ offset', (recordItems segment offset (rs.concat r)).getLast? = some (.record segment offset' r) := by
  induction rs generalizing offset with
  | nil => exact ⟨offset, rfl⟩
  | cons x rs ih =>
    obtain ⟨offset', hlast⟩ := ih (offset + x.encodedLength)
    refine ⟨offset', ?_⟩
    rw [concat_cons, recordItems, getLast?_cons, hlast]
    rfl

omit h in
theorem Clean.recordsIn_ne_nil {keep : WalRecord → Bool} {expected : Option ℕ} (h : Clean keep expected segs groups) (hseg : seg ∈ segs)
    (hdata : seg.data ≠ []) : recordsIn seg.number (cleanItems segs groups) ≠ [] := by
  induction h with
  | nil => cases hseg
  | cons himages _ _ _ ih =>
    rw [cleanItems, recordsIn_append]
    rcases mem_cons.mp hseg with rfl | hseg
    · rw [recordsIn_recordItems]
      exact append_ne_nil_of_left_ne_nil (fun hnil => hdata (himages.trans (imagesOf_eq_nil.mpr hnil))) _
    · exact append_ne_nil_of_right_ne_nil _ (ih hseg)

omit h in
theorem lastLsn_of_getLast? {items : List ScanItem} {segment offset : ℕ} {r : WalRecord} (h : items.getLast? = some (.record segment offset r)) :
    lastLsn (items.filterMap ScanItem.record?) = r.lsn := by
  obtain ⟨front, rfl⟩ := getLast?_eq_some_iff.mp h
  rw [filterMap_append, lastLsn, getLast?_append]
  rfl

theorem Indexed.segments : (rescan d).segments = (before ++ cut :: later).map (infoOf unread (goodItems (walk none d).1)) := by
  rw [← h.files]
  rfl

theorem Indexed.mem_dropped (refuses : ℕ → Bool) (horizon : ℕ) {front : Directory} (hfront : front <+: before ++ cut :: later)
    (hlength : front.length ≤ (dropped refuses horizon (rescan d).segments).length) (hseg : seg ∈ front) :
    infoOf unread (goodItems (walk none d).1) seg ∈ dropped refuses horizon (rescan d).segments := by
  have hmap : front.map (infoOf unread (goodItems (walk none d).1)) <+: (rescan d).segments := h.segments ▸ hfront.map _
  have hprefix := prefix_of_prefix_length_le hmap (dropped_prefix_infos refuses horizon _) (by rwa [length_map])
  exact hprefix.mem (mem_map_of_mem hseg)

theorem Indexed.dropped_le : (dropped refuses horizon (rescan d).segments).length ≤ before.length + 1 := by
  by_contra hgt
  have hgt := not_le.mp hgt
  have hle := (dropped_prefix_infos refuses horizon (rescan d).segments).length_le
  rw [h.segments, length_map, ← h.segments, length_append, length_cons] at hle
  obtain ⟨seg, later', rfl⟩ : ∃ seg later', later = seg :: later' := by
    apply exists_cons_of_ne_nil
    rintro rfl
    rw [length_nil] at hle
    omega
  have hfront : before ++ [cut, seg] <+: before ++ cut :: seg :: later' := ⟨later', by simp⟩
  have hmem := h.mem_dropped refuses horizon hfront (by rw [length_append]; exact hgt)
    (mem_append_right _ (mem_cons_of_mem _ mem_cons_self))
  have hread := (Log.mem_dropped hmem).1
  have hzero := h.count_later mem_cons_self
  simp [isReadable, hzero] at hread

theorem Indexed.live_recycled (hrecycle : recycle refuses horizon (rescan d) d = .ok (ix', d')) :
    live d' = (before ++ cut :: later).drop (dropped refuses horizon (rescan d).segments).length ∧
      ∀ seg, seg ∈ d → seg ∉ d' → ∃ x ∈ (before ++ cut :: later).take (dropped refuses horizon (rescan d).segments).length,
        x.number = seg.number := by
  have hnumbers := dropped_take refuses horizon (goodItems (walk none d).1) (before ++ cut :: later)
  rw [← h.segments] at hnumbers
  have hd' := recycle_ok hrecycle
  rw [hnumbers] at hd'
  constructor
  · rw [hd', live_filter, h.files]
    exact filter_oldest (h.files ▸ h.ordered.live) _
  · intro seg hseg hgone
    have hmem : seg.number ∈ ((before ++ cut :: later).take (dropped refuses horizon (rescan d).segments).length).map Segment.number := by
      by_contra hnot
      exact hgone (hd' ▸ mem_filter.mpr ⟨hseg, decide_eq_true hnot⟩)
    obtain ⟨x, hx, heq⟩ := mem_map.mp hmem
    exact ⟨x, hx, heq⟩

omit h in
theorem getLast?_drop {α : Type*} {xs : List α} {n : ℕ} (h : n < xs.length) : (xs.drop n).getLast? = xs.getLast? := by
  rw [List.getLast?_drop, if_neg (not_le.mpr h)]

theorem Indexed.good_drop (k : ℕ) :
    goodItems (walk none (before.drop k ++ cut :: later)).1 = cleanItems (before.drop k) (groups.drop k) ++ recordItems cut.number 0 rs := by
  apply (h.cutAt.drop k).goodItems
  have hends := h.ends
  rw [after_suffix h.cutAt.nonempty] at hends ⊢
  exact hends

section
variable (hrecycle : recycle refuses horizon (rescan d) d = .ok (ix', d'))
include hrecycle

theorem Indexed.recycles (hle : (dropped refuses horizon (rescan d).segments).length ≤ before.length) : Recycles horizon d d' := by
  obtain ⟨hlive, hgone⟩ := h.live_recycled hrecycle
  obtain ⟨k, hk⟩ : ∃ k, (dropped refuses horizon (rescan d).segments).length = k := ⟨_, rfl⟩
  rw [hk] at hlive hgone hle
  rw [drop_append_of_le_length hle] at hlive
  have hgood' : goodItems (walk none d').1 = cleanItems (before.drop k) (groups.drop k) ++ recordItems cut.number 0 rs := by
    rw [walk_live, hlive]
    exact h.good_drop k
  have htake : (before ++ cut :: later).take k = before.take k := take_append_of_le_length hle
  rw [htake] at hgone
  have hdropped : ∀ x ∈ before.take k, infoOf unread (goodItems (walk none d).1) x ∈ dropped refuses horizon (rescan d).segments := by
    intro x hx
    have hfront : before.take k <+: before ++ cut :: later := take_prefix k before |>.trans <| prefix_append _ _
    refine h.mem_dropped refuses horizon hfront ?_ hx
    rw [hk]
    exact length_take_le _ _
  have hascends : ((goodItems (walk none d).1).filterMap ScanItem.record?).Pairwise fun a b => a.lsn < b.lsn :=
    (readable_run everyRecord d).pairwise
  constructor
  · intro seg hseg hnot offset r hitem
    obtain ⟨x, hx, heq⟩ := hgone seg hseg hnot
    have hxbefore : x ∈ before := (take_sublist k before).mem hx
    obtain ⟨hbefore, -, hcross⟩ := h.order
    have hmem : ScanItem.record seg.number offset r ∈ goodItems (walk none d).1 := by
      rw [walk_live, h.files, h.cutAt.before.walk] at hitem
      rw [h.good]
      apply mem_append_left
      refine (mem_append.mp hitem).resolve_right fun hlate => ?_
      obtain ⟨y, hy, hyeq⟩ := walk_segment_mem _ hlate
      have hsame : x.number = y.number := heq.trans hyeq
      rcases mem_cons.mp hy with rfl | hy
      · exact (hbefore x hxbefore).ne hsame
      · exact (hcross x hxbefore y hy).ne hsame
    have hbelow := (Log.mem_dropped (hdropped x hx)).2.1
    rw [(infoOf_unread _ x).2.2] at hbelow
    have hin : r ∈ recordsIn x.number (goodItems (walk none d).1) := mem_recordsIn.mpr ⟨offset, heq ▸ hmem⟩
    exact (le_lastLsn (hascends.sublist recordsIn_sublist) r hin).trans_lt hbelow
  · intro seg hseg hnot
    obtain ⟨x, hx, heq⟩ := hgone seg hseg hnot
    have hread := (Log.mem_dropped (hdropped x hx)).1
    have hcount : 0 < (recordsIn x.number (goodItems (walk none d).1)).length := by
      rw [← (infoOf_unread _ x).2.1]
      exact of_decide_eq_true (Bool.and_eq_true_iff.mp hread).1
    obtain ⟨r, hr⟩ := exists_mem_of_length_pos hcount
    obtain ⟨offset, hitem⟩ := mem_recordsIn.mp hr
    exact ⟨offset, r, heq ▸ hitem⟩
  · rw [hlive, h.files, ← drop_append_of_le_length hle]
    exact getLast?_drop (by rw [length_append, length_cons]; omega)
  · exact readable_run everyRecord d'
  · rw [hgood', h.good]
    obtain ⟨front, hfront⟩ := cleanItems_drop before groups k
    exact ⟨front, by rw [← append_assoc, hfront]⟩
  · rw [hgood', h.good, getLast?_append, getLast?_append]
    obtain ⟨r, rs₀, rfl⟩ := exists_cons_of_ne_nil h.cutAt.nonempty
    rw [recordItems, getLast?_cons]
    rfl

theorem Indexed.not_recycles (hlt : before.length < (dropped refuses horizon (rescan d).segments).length) : ¬ Recycles horizon d d' := by
  intro hpromise
  obtain ⟨hlive, -⟩ := h.live_recycled hrecycle
  have hk : (dropped refuses horizon (rescan d).segments).length = before.length + 1 := le_antisymm h.dropped_le hlt
  have hlater : live d' = later := by
    rw [hlive, hk, ← drop_drop, drop_left' rfl]
    rfl
  obtain ⟨r, rs₀, hrs⟩ := exists_cons_of_ne_nil h.cutAt.nonempty
  obtain ⟨item, hlast⟩ : ∃ item, (recordItems cut.number 0 rs).getLast? = some item := by
    rw [hrs, recordItems, getLast?_cons]
    exact ⟨_, rfl⟩
  have hlast' := hpromise.last
  rw [h.good, getLast?_append, hlast, Option.some_or] at hlast'
  have hmem : item ∈ (walk none d').1 := (takeWhile_sublist _).mem (mem_of_getLast? hlast')
  rw [walk_live, hlater] at hmem
  obtain ⟨x, hx, heq⟩ := walk_segment_mem item hmem
  rw [mem_recordItems item (mem_of_getLast? hlast)] at heq
  exact (h.order.2.1 x hx).ne heq

end

theorem Indexed.last_readable : ∃ offset r, (goodItems (walk none d).1).getLast? = some (.record cut.number offset r) ∧
    (infoOf unread (goodItems (walk none d).1) cut).lastLsn = r.lsn := by
  obtain ⟨front, r, rfl⟩ := (eq_nil_or_concat rs).resolve_left h.cutAt.nonempty
  have hrecords : recordsIn cut.number (goodItems (walk none d).1) = front.concat r := by
    rw [h.good, recordsIn_append, recordsIn_cleanItems fun x hx => (h.order.1 x hx).ne, recordsIn_recordItems, nil_append]
  obtain ⟨offset, hlast⟩ := recordItems_concat cut.number 0 front r
  refine ⟨offset, r, ?_, ?_⟩
  · rw [h.good, getLast?_append, hlast, Option.some_or]
  · rw [(infoOf_unread _ cut).2.2, hrecords, lastLsn, concat_eq_append, getLast?_concat]
    rfl

theorem Indexed.newest_iff : (live d).getLast?.map Segment.number = some cut.number ↔ later = [] := by
  rw [h.files, getLast?_append]
  constructor
  · intro hnewest
    by_contra hne
    obtain ⟨front, last, rfl⟩ := (eq_nil_or_concat later).resolve_left hne
    rw [concat_eq_append, ← cons_append, getLast?_concat] at hnewest
    exact (h.order.2.1 last (concat_eq_append ▸ mem_concat_self)).ne' (Option.some.inj hnewest)
  · rintro rfl
    rfl

theorem Indexed.mem_front (hseg : seg ∈ before ++ cut :: later) (hle : seg.number ≤ cut.number) : seg ∈ before ++ [cut] := by
  rcases mem_append.mp hseg with hseg | hseg
  · exact mem_append_left _ hseg
  · rcases mem_cons.mp hseg with rfl | hseg
    · exact mem_concat_self
    · exact absurd hle (not_le.mpr (h.order.2.1 seg hseg))

theorem Indexed.dropped_le_of_spares (hspares : Spares refuses horizon d) :
    (dropped refuses horizon (rescan d).segments).length ≤ before.length := by
  by_contra hgt
  have hlength : (before ++ [cut]).length ≤ (dropped refuses horizon (rescan d).segments).length := by
    rw [length_append]
    exact not_le.mp hgt
  have hdropped : ∀ seg ∈ before ++ [cut], infoOf unread (goodItems (walk none d).1) seg ∈ dropped refuses horizon (rescan d).segments :=
    fun seg hseg => h.mem_dropped refuses horizon ⟨later, by simp⟩ hlength hseg
  obtain ⟨offset, r, hlast, hlsn⟩ := h.last_readable
  rcases hspares _ _ _ hlast with habove | hnewest | ⟨seg, hseg, hle, hrefused⟩
  · have hbelow := (Log.mem_dropped (hdropped cut mem_concat_self)).2.1
    rw [hlsn] at hbelow
    omega
  · obtain rfl := h.newest_iff.mp hnewest
    have hlt : (dropped refuses horizon (rescan d).segments).length < (rescan d).segments.length :=
      dropped_lt _ _ (by rw [h.segments]; simp)
    rw [h.segments, length_map, ← h.segments] at hlt
    omega
  · have hreleased := (Log.mem_dropped (hdropped seg (h.mem_front (h.files ▸ hseg) hle))).2.2
    rw [(infoOf_unread _ seg).1, hrefused] at hreleased
    cases hreleased

theorem Indexed.recordsIn_ne_nil (hseg : seg ∈ before ++ [cut]) : recordsIn seg.number (goodItems (walk none d).1) ≠ [] := by
  rw [h.good, recordsIn_append]
  rcases mem_append.mp hseg with hseg | hseg
  · have hlive : seg.data ≠ [] := live_ne_nil seg (h.files ▸ mem_append_left _ hseg)
    exact append_ne_nil_of_left_ne_nil (h.cutAt.before.recordsIn_ne_nil hseg hlive) _
  · rw [mem_singleton.mp hseg, recordsIn_recordItems]
    exact append_ne_nil_of_right_ne_nil _ h.cutAt.nonempty

theorem Indexed.spares_of_dropped_le (hlsn : ∀ r ∈ readable everyRecord d, r.lsn ≠ noLsn)
    (hle : (dropped refuses horizon (rescan d).segments).length ≤ before.length) : Spares refuses horizon d := by
  intro segment offset r hlast
  obtain ⟨offset', r', hlast', -⟩ := h.last_readable
  cases hlast.symm.trans hlast'
  by_contra hnone
  push Not at hnone
  obtain ⟨hbelow, hnewest, hreleased⟩ := hnone
  have hlater : later ≠ [] := fun hnil => hnewest (h.newest_iff.mpr hnil)
  -- then every segment up to the last one that reads may go, and nothing keeps it
  have hfront : ∀ info ∈ (before ++ [cut]).map (infoOf unread (goodItems (walk none d).1)),
      (isReadable info = true ∧ info.lastLsn < horizon) ∧ refuses info.number = false := by
    intro info hinfo
    obtain ⟨seg, hseg, rfl⟩ := mem_map.mp hinfo
    obtain ⟨hnumber, hcount, hlastLsn⟩ := infoOf_unread (goodItems (walk none d).1) seg
    have hne := h.recordsIn_ne_nil hseg
    obtain ⟨front, x, hrecords⟩ := (eq_nil_or_concat _).resolve_left hne
    have hx : x ∈ recordsIn seg.number (goodItems (walk none d).1) := hrecords ▸ by simp
    have hxlsn : lastLsn (recordsIn seg.number (goodItems (walk none d).1)) = x.lsn := by
      rw [hrecords, lastLsn, concat_eq_append, getLast?_concat]
      rfl
    have hread : x ∈ readable everyRecord d := recordsIn_sublist.mem hx
    have hmax : x.lsn ≤ r.lsn := by
      have hle := (readable_run everyRecord d).le_last x hread
      rwa [readable, ← goodItems, lastLsn_of_getLast? hlast] at hle
    refine ⟨⟨?_, ?_⟩, ?_⟩
    · rw [isReadable, hcount, hlastLsn, hxlsn]
      exact Bool.and_eq_true_iff.mpr ⟨decide_eq_true (length_pos_iff.mpr hne), decide_eq_true (hlsn x hread)⟩
    · rw [hlastLsn, hxlsn]
      omega
    · rw [hnumber]
      have hmem : seg ∈ live d := by
        rw [h.files]
        exact mem_append.mpr ((mem_append.mp hseg).imp_right fun hcut => mem_cons.mpr (.inl (mem_singleton.mp hcut)))
      have hnumbers : seg.number ≤ cut.number := by
        rcases mem_append.mp hseg with hseg | hseg
        · exact (h.order.1 seg hseg).le
        · rw [mem_singleton.mp hseg]
      simpa using hreleased seg hmem hnumbers
  have hback : later.map (infoOf unread (goodItems (walk none d).1)) ≠ [] := mt map_eq_nil_iff.mp hlater
  have hlong := le_dropped hback hfront
  rw [← map_append, append_assoc, singleton_append, ← h.segments, length_map, length_append, length_singleton] at hlong
  omega

end

/-! ## Logs without damage -/

theorem clean_of_walk {expected : Option ℕ} (hlive : ∀ seg ∈ segs, seg.data ≠ []) (hfound : (walk expected segs).1.findSome? ScanItem.failure? = none)
    (hraised : (walk expected segs).2 = none) : ∃ groups, Clean everyRecord expected segs groups := by
  induction segs generalizing expected with
  | nil => exact ⟨[], .nil⟩
  | cons seg segs ih =>
    obtain ⟨hne, hrest⟩ := forall_mem_cons.mp hlive
    have hsize : seg.data.length ≤ maxSegmentReadBytes := by
      by_contra hbig
      rw [walk_oversized (not_le.mp hbig)] at hraised
      cases hraised
    obtain ⟨rs, tail, hdata, hrun, hstuck⟩ := exists_run everyRecord expected seg.data
    have htail : tail = [] := by
      by_contra htail
      obtain ⟨fuel', hfuel', hwalk⟩ :=
        walkBytes_run seg.number (seg.data.length * resyncChecksumBudgetFactor) 0 0 hrun tail _ 0 le_rfl
      obtain ⟨item, items, hitem, hstuck⟩ := walkBytes_stuck seg.number (seg.data.length * resyncChecksumBudgetFactor)
        (0 + (imagesOf rs).length) 0 0 htail hfuel' hstuck
      rw [← hdata, hstuck] at hwalk
      rw [walk_cons hsize, hwalk] at hfound
      have hmem : item ∈ recordItems seg.number 0 rs ++ item :: items := mem_append_right _ mem_cons_self
      have hnone := findSome?_eq_none_iff.mp hfound item (mem_append_left _ hmem)
      cases item with
      | record _ _ _ => cases hitem
      | failure f => cases hnone
    subst htail
    rw [append_nil] at hdata
    rw [walk_segment hdata hsize hrun] at hfound hraised
    rw [findSome?_append] at hfound
    obtain ⟨groups, hclean⟩ := ih hrest (Option.or_eq_none_iff.mp hfound).2 hraised
    exact ⟨rs :: groups, .cons hdata hsize hrun hclean⟩

theorem clean_of_undamaged (h : (rescan d).damage = none) : ∃ groups, Clean everyRecord none (live d) groups := by
  obtain ⟨hfound, hraised⟩ := Option.or_eq_none_iff.mp h
  rw [walk_live] at hfound hraised
  exact clean_of_walk live_ne_nil hfound (Option.map_eq_none_iff.mp hraised)

theorem Clean.indexed (hd : Ordered d) (h : Clean everyRecord none (live d) groups) (hne : live d ≠ []) :
    ∃ before groups cut rs, Indexed d before groups cut rs [] [] := by
  obtain ⟨before, cut, hlive⟩ := (eq_nil_or_concat (live d)).resolve_left hne
  rw [concat_eq_append] at hlive
  have hcut : cut.data ≠ [] := live_ne_nil cut (hlive ▸ mem_concat_self)
  rw [hlive] at h
  obtain ⟨front, back, rfl, hfront, hback⟩ := h.of_append
  cases hback with
  | @cons _ rs _ _ groups hdata hsize hrun hrest =>
    have hrs : rs ≠ [] := fun hnil => hcut (hdata.trans (imagesOf_eq_nil.mpr hnil))
    exact ⟨before, front, cut, rs, hd, hlive, ⟨hfront, hdata.trans (append_nil _).symm, hsize, hrun, hrs, stuck_nil⟩, .inr (.inl rfl)⟩

theorem spares_of_undamaged (hd : Ordered d) (h : (rescan d).damage = none) : Spares refuses horizon d := by
  obtain ⟨groups, hclean⟩ := clean_of_undamaged h
  intro segment offset r hlast
  have hne : live d ≠ [] := by
    intro hnil
    rw [walk_live, hnil] at hlast
    cases hlast
  obtain ⟨before, groups, cut, rs, hindexed⟩ := hclean.indexed hd hne
  obtain ⟨offset', r', hlast', -⟩ := hindexed.last_readable
  cases hlast.symm.trans hlast'
  exact .inr (.inl (hindexed.newest_iff.mpr rfl))

section
variable (h : Stop everyRecord none (live d))
include h

theorem Stop.nothing_good : Log.goodItems (walk none d).1 = [] := by
  rw [walk_live]
  exact h.goodItems

theorem Stop.counts : ∀ info ∈ (rescan d).segments, info.recordCount = 0 := by
  intro info hinfo
  obtain ⟨seg, -, rfl⟩ := mem_map.mp hinfo
  rw [h.nothing_good]
  exact infoOf_zero nofun

theorem Stop.dropped : dropped refuses horizon (rescan d).segments = [] := by
  apply eq_nil_iff_forall_not_mem.mpr
  intro info hinfo
  have hread := (mem_dropped hinfo).1
  have hzero := h.counts info ((dropped_prefix_infos ..).mem hinfo)
  simp [isReadable, hzero] at hread

theorem Stop.recycles (hrecycle : recycle refuses horizon (rescan d) d = .ok (ix', d')) : Recycles horizon d d' := by
  have hsame : d' = d := by
    rw [recycle_ok hrecycle, h.dropped]
    exact filter_eq_self.mpr fun _ _ => rfl
  subst hsame
  exact ⟨fun seg hseg hnot => absurd hseg hnot, fun seg hseg hnot => absurd hseg hnot, rfl, readable_run everyRecord _, suffix_refl _, rfl⟩

theorem Stop.spares : Spares refuses horizon d := by
  intro segment offset r hlast
  rw [h.nothing_good] at hlast
  cases hlast

end

/-- Recycling keeps its promise when the segment with the last record readable in sequence has to stay, as it always has
in a log without damage. Otherwise that segment goes, unless a segment ends at the number that marks none. -/
theorem recycle_promise (d : Directory) (hd : Ordered d) (refuses : ℕ → Bool) (readers : List ReaderRecord) (checkpoint horizon : ℕ)
    (ix' : TailIndex) (d' : Directory) (hrecycle : recycle refuses horizon (rescan d) d = .ok (ix', d')) :
    (Spares refuses horizon d → Recycles horizon d d') ∧
      ((∀ r ∈ readable everyRecord d, r.lsn ≠ noLsn) → Recycles horizon d d' → Spares refuses horizon d) ∧
      ((rescan d).damage = none → Spares refuses horizon d) ∧
      recyclableHorizon (readerHorizon readers) checkpoint ≤ checkpoint ∧
      ∀ r ∈ readers, r.active = true → r.alive = true → recyclableHorizon (readerHorizon readers) checkpoint ≤ r.snapshotLsn := by
  obtain ⟨hcheckpoint, hpinned⟩ := recyclableHorizon_le (readerHorizon readers) checkpoint
  have hreaders : ∀ r ∈ readers, r.active = true → r.alive = true → recyclableHorizon (readerHorizon readers) checkpoint ≤ r.snapshotLsn := by
    intro r hr hactive halive
    obtain ⟨pinned, heq, hle⟩ := readerHorizon_le hr hactive halive
    exact (hpinned pinned heq).trans hle
  rcases exists_cut everyRecord none (live d) live_ne_nil with hstop | ⟨before, groups, cut, rs, tail, later, hlive, hcut, hend⟩
  · exact ⟨fun _ => hstop.recycles hrecycle, fun _ _ => hstop.spares, spares_of_undamaged hd, hcheckpoint, hreaders⟩
  · have hindexed : Indexed d before groups cut rs tail later := ⟨hd, hlive, hcut, hend⟩
    refine ⟨fun hspares => hindexed.recycles hrecycle (hindexed.dropped_le_of_spares hspares), fun hlsn hpromise => ?_,
      spares_of_undamaged hd, hcheckpoint, hreaders⟩
    refine hindexed.spares_of_dropped_le hlsn ?_
    by_contra hgt
    exact hindexed.not_recycles hrecycle (not_le.mp hgt) hpromise

def begun (lsn : Byte) : WalRecord := plainRecord .begin lsn 1

def twoSegments : Directory := [⟨1, (begun 1).image⟩, ⟨2, (begun 2).image⟩]

theorem recycle_promise_first :
    recycle (fun _ => false) 2 (rescan twoSegments) twoSegments =
        .ok ({ rescan twoSegments with segments := (rescan twoSegments).segments.drop 1 }, twoSegments.drop 1) ∧
      Recycles 2 twoSegments (twoSegments.drop 1) := by
  have hordered : Ordered twoSegments := by decide
  have hrecycle : recycle (fun _ => false) 2 (rescan twoSegments) twoSegments =
      .ok ({ rescan twoSegments with segments := (rescan twoSegments).segments.drop 1 }, twoSegments.drop 1) := by decide +kernel
  obtain ⟨hkeeps, -, hspares, -⟩ := recycle_promise twoSegments hordered (fun _ => false) [⟨2, true, true⟩] 5 2 _ _ hrecycle
  exact ⟨hrecycle, hkeeps (hspares (by decide +kernel))⟩

def damagedFirst : Directory :=
  [⟨1, (begun 1).image ++ 0 :: (begun 9).image⟩, ⟨2, (begun 10).image⟩]

/-- The pass removes the damaged segment, with a record above the horizon and the last record that could be
read in sequence. -/
theorem damaged_segment_recycled :
    recycle (fun _ => false) 2 (rescan damagedFirst) damagedFirst =
        .ok ({ rescan damagedFirst with segments := (rescan damagedFirst).segments.drop 1 }, damagedFirst.drop 1) ∧
      ScanItem.record 1 53 (begun 9) ∈ (walk none damagedFirst).1 ∧ ¬ Recycles 2 damagedFirst (damagedFirst.drop 1) := by
  have hrecord : ScanItem.record 1 53 (begun 9) ∈ (walk none damagedFirst).1 := by decide +kernel
  refine ⟨by decide +kernel, hrecord, ?_⟩
  intro hpromise
  have hbelow := hpromise.below _ mem_cons_self (by decide +kernel) 53 _ hrecord
  exact absurd hbelow (by decide)

end Grafx.Log
