import OktoGrafx.Log.Moves

/-! An index stays of use while others work on the log: each careful step takes the device from one of
the ways an index can be followed to another. -/

namespace Grafx.Log

open List Interrupt Wal

variable {refuses : ℕ → Bool} {horizon next target number n : ℕ} {more : Bytes} {seg t : Segment} {d d' kept new : Directory}
  {groups : List (List WalRecord)} {ix : TailIndex} {dropped : List SegmentInfo}

def Below (ix : TailIndex) (d : Directory) : Prop := ∀ info ∈ ix.segments, ∃ seg ∈ d, info.number ≤ seg.number

theorem Below.fresh (h : Below ix d) (hnext : Fresh next d) : next ∉ ix.numbers := by
  intro hmem
  obtain ⟨info, hinfo, rfl⟩ := mem_map.mp hmem
  obtain ⟨seg, hseg, hle⟩ := h info hinfo
  exact not_lt.mpr hle (hnext seg hseg)

theorem last_mem_numbers {t : SegmentInfo} (h : ix.segments.getLast? = some t) : t.number ∈ ix.numbers :=
  mem_map_of_mem (mem_of_getLast? h)

theorem mem_numbers (h : seg ∈ live d) : seg.number ∈ d.map Segment.number := mem_map_of_mem (live_mem h)

theorem last_info {good : List ScanItem} (hsplit : ix.segments = dropped ++ (kept ++ [t]).map (infoOf unread good)) :
    ∃ info, ix.segments.getLast? = some info ∧ info.number = t.number := by
  refine ⟨infoOf unread good t, ?_, (infoOf_unread good t).1⟩
  rw [hsplit, map_append, ← append_assoc]
  exact getLast?_concat

theorem Follows.of_gone {good : List ScanItem} (hsplit : ix.segments = dropped ++ (kept ++ [t]).map (infoOf unread good))
    (hmissing : t.number ∉ d.map Segment.number) : Follows ix d := by
  obtain ⟨info, hlast, hnumber⟩ := last_info hsplit
  exact .gone hlast (hnumber.symm ▸ hmissing)

theorem Below.missing (h : Below ix d) (hnext : Fresh next d) (hnumbers : ∀ n ∈ d'.map Segment.number, n ∈ d.map Segment.number ∨ n = next) :
    ∀ n ∈ ix.numbers, n ∉ d.map Segment.number → n ∉ d'.map Segment.number := by
  intro n hn hnd hmem
  rcases hnumbers n hmem with hmem | rfl
  · exact hnd hmem
  · exact h.fresh hnext hn

theorem same_infos {kept : List SegmentInfo} (h : TailIndex.Agrees { ix with segments := kept } (rescan (live d))) :
    kept = (live d).map (infoOf unread (goodItems (walk none (live d)).1)) := by
  have hsegments := h.segments
  rw [show kept = _ from hsegments]
  show (live (live d)).map _ = _
  rw [live_live]

theorem same_live {kept : List SegmentInfo} (h : Same ix d dropped kept) : ∃ before t, live d = before ++ [t] ∧
      ix.segments = dropped ++ (before ++ [t]).map (infoOf unread (goodItems (walk none (live d)).1)) := by
  have hinfos := same_infos h.agrees
  have hne : live d ≠ [] := fun hnil => h.kept_ne (by rw [hinfos, hnil]; rfl)
  obtain ⟨before, t, hlive⟩ := (eq_nil_or_concat (live d)).resolve_left hne
  rw [concat_eq_append] at hlive
  exact ⟨before, t, hlive, by rw [h.segments, hinfos, ← hlive]⟩

/-! ## Creating a file -/

theorem Follows.create (hbelow : Below ix d) (hnext : Fresh next d) (h : Follows ix d) : Follows ix ((FileOp.create next).apply d) := by
  have hlive := live_create next d
  have hgone := hbelow.missing hnext fun n => (mem_numbers_created d).mp
  cases h with
  | empty hsegments hlast hdamage => exact .empty hsegments hlast hdamage
  | gone hlast hmissing => exact .gone hlast (hgone _ (last_mem_numbers hlast) hmissing)
  | same h =>
    refine .same { h with missing := fun info hinfo => hgone _ ?_ (h.missing info hinfo), agrees := hlive.symm ▸ h.agrees }
    exact mem_map_of_mem (h.segments ▸ mem_append_left _ hinfo)
  | grown h =>
    refine .grown { h with
      missing := fun info hinfo => hgone _ ?_ (h.missing info hinfo)
      live := hlive.trans h.live
      healthy := healthy_of_live h.healthy hlive }
    exact mem_map_of_mem (h.segments ▸ mem_append_left _ hinfo)
  | changed hlast hanchor hdamage hseg hle hchanged =>
    exact .changed hlast (hlive.symm ▸ hanchor) hdamage (mem_append_left _ hseg) hle hchanged

/-! ## Writing -/

theorem live_write_mem (hseg : seg.number ∈ (live d).map Segment.number) (number : ℕ) (more : Bytes) :
    seg.number ∈ (live ((FileOp.append number more).apply d)).map Segment.number := by
  obtain ⟨x, hx, heq⟩ := mem_map.mp hseg
  have hmem : appendTo number more x ∈ (FileOp.append number more).apply d := mem_map_of_mem (live_mem hx)
  have hnumber : (appendTo number more x).number = x.number := by
    unfold appendTo
    split <;> rfl
  have hne : (appendTo number more x).data ≠ [] := by
    unfold appendTo
    split
    · exact fun hnil => live_ne_nil x hx (append_eq_nil_iff.mp hnil).1
    · exact live_ne_nil x hx
  rw [← heq, ← hnumber]
  exact mem_map_of_mem (mem_filter.mpr ⟨hmem, decide_eq_true hne⟩)

section
variable (hd : Ordered d) (hmem : ∃ seg ∈ d, seg.number = number) (htop : ∀ seg ∈ live d, seg.number ≤ number) (hmore : more ≠ [])
include hd hmem htop hmore

theorem live_written : (∃ front data, live d = front ++ [⟨number, data⟩] ∧ data ≠ [] ∧
        live ((FileOp.append number more).apply d) = front ++ [⟨number, data ++ more⟩]) ∨
      number ∉ (live d).map Segment.number ∧ live ((FileOp.append number more).apply d) = live d ++ [⟨number, more⟩] := by
  obtain ⟨front, data, back, rfl, hback, hat⟩ := split_last hd hmem htop
  have happly : (FileOp.append number more).apply (front ++ ⟨number, data⟩ :: back) = front ++ ⟨number, data ++ more⟩ :: back := by
    rw [FileOp.apply, hat (appendTo number more) fun seg hne => if_neg hne, appendTo, if_pos rfl]
  have hwritten : live (front ++ ⟨number, data ++ more⟩ :: back) = live front ++ [⟨number, data ++ more⟩] := by
    rw [live_append_list, live_cons_of_ne_nil (fun hnil => hmore (append_eq_nil_iff.mp hnil).2), hback]
  rw [happly, hwritten]
  by_cases hdata : data = []
  · right
    have hlive : live (front ++ ⟨number, data⟩ :: back) = live front := by
      rw [live_append_list, live_cons_of_nil hdata, hback, append_nil]
    rw [hlive, hdata]
    refine ⟨?_, rfl⟩
    intro hnumber
    obtain ⟨x, hx, heq⟩ := mem_map.mp hnumber
    exact ((pairwise_append.mp hd).2.2 x (live_mem hx) _ mem_cons_self).ne heq
  · left
    exact ⟨live front, data, by rw [live_append_list, live_cons_of_ne_nil hdata, hback], hdata, rfl⟩

theorem grown_written {more' : Bytes} (hgrown : live d = kept ++ ⟨t.number, t.data ++ more'⟩ :: new) :
    ∃ more' new', live ((FileOp.append number more).apply d) = kept ++ ⟨t.number, t.data ++ more'⟩ :: new' := by
  rcases live_written hd hmem htop hmore with ⟨front, data, hfront, -, heq⟩ | ⟨-, heq⟩
  · rw [heq]
    rcases eq_nil_or_concat new with rfl | ⟨new, x, rfl⟩
    · obtain ⟨rfl, ht⟩ := append_inj' (hgrown.symm.trans hfront) rfl
      obtain ⟨hn, rfl⟩ := Segment.mk.inj (cons.inj ht).1
      exact ⟨more' ++ more, [], by rw [hn, append_assoc]⟩
    · have hall : live d = (kept ++ ⟨t.number, t.data ++ more'⟩ :: new) ++ [x] := by
        rw [hgrown, concat_eq_append, append_assoc, cons_append]
      obtain ⟨rfl, -⟩ := append_inj' (hall.symm.trans hfront) rfl
      exact ⟨more', new ++ [⟨number, data ++ more⟩], by rw [append_assoc, cons_append]⟩
  · exact ⟨more', new ++ [⟨number, more⟩], by rw [heq, hgrown, append_assoc, cons_append]⟩

theorem Follows.write_same {kept : List SegmentInfo} (hordered : ix.Ascending)
    (hhealthy : Healthy ((FileOp.append number more).apply d)) (h : Same ix d dropped kept) : Follows ix ((FileOp.append number more).apply d) := by
  obtain ⟨before, t, hlive, hsplit'⟩ := same_live h
  obtain ⟨hsplit, -, hdropped, hagrees⟩ := h
  have hinfos := same_infos hagrees
  have htlive : t ∈ live d := hlive ▸ mem_concat_self
  have hdropped' : ∀ info ∈ dropped, info.number ∉ ((FileOp.append number more).apply d).map Segment.number := by
    rw [append_numbers]
    exact hdropped
  by_cases hdamage : ix.damage = none
  · obtain ⟨groups, hclean⟩ := clean_of_undamaged (hagrees.damage.symm.trans hdamage)
    rw [live_live, hlive] at hclean
    have hlived : live (before ++ [t]) = before ++ [t] := by rw [← hlive, live_live]
    obtain ⟨hsegments, hlast, -⟩ := hclean.rescan hlived
    rw [← hlive] at hsegments hlast
    have hkept' : kept = (before ++ [t]).map (infoOf unread (cleanItems (before ++ [t]) groups)) := by
      rw [show kept = _ from hagrees.segments, hsegments, hlive]
    have hgrown : live d = before ++ ⟨t.number, t.data ++ []⟩ :: [] := by rw [append_nil]; exact hlive
    obtain ⟨more', new, hgrown⟩ := grown_written hd hmem htop hmore hgrown
    exact .grown ⟨hsplit.trans (congrArg _ hkept'), hdropped', hagrees.lastLsn.trans hlast, hdamage, hclean, hgrown, live_ne_nil t htlive, hhealthy⟩
  · obtain ⟨info, hlast, hnumber⟩ := last_info hsplit'
    have hanchor := live_write_mem (mem_map_of_mem htlive) number more
    have hle := htop t htlive
    rw [← hnumber] at hanchor hle
    rcases live_written hd hmem htop hmore with ⟨front, data, hfront, -, heq⟩ | ⟨hnot, heq⟩
    · have hseg : (⟨number, data ++ more⟩ : Segment) ∈ (FileOp.append number more).apply d :=
        live_mem (heq ▸ mem_concat_self)
      refine .changed hlast hanchor hdamage hseg hle (.inr ?_)
      have hinfo : infoOf unread (goodItems (walk none (live d)).1) ⟨number, data⟩ ∈ ix.segments := by
        rw [hsplit, hinfos]
        exact mem_append_right _ (mem_map_of_mem (hfront ▸ mem_concat_self))
      have hknown : (ix.known number).sizeBytes = data.length := by
        rw [show ix.known number = _ from known_info hordered hinfo, infoOf_size]
      have hpos := length_pos_iff.mpr hmore
      rw [hknown, length_append]
      omega
    · have hseg : (⟨number, more⟩ : Segment) ∈ (FileOp.append number more).apply d :=
        live_mem (heq ▸ mem_concat_self)
      refine .changed hlast hanchor hdamage hseg hle (.inl ?_)
      intro hmem'
      rw [TailIndex.numbers, hsplit, map_append] at hmem'
      rcases mem_append.mp hmem' with hmem' | hmem'
      · obtain ⟨info, hinfo, heq'⟩ := mem_map.mp hmem'
        obtain ⟨x, hx, hxn⟩ := hmem
        exact hdropped info hinfo (mem_map.mpr ⟨x, hx, hxn.trans heq'.symm⟩)
      · rw [hinfos, map_number_infos] at hmem'
        exact hnot hmem'

end

theorem Follows.write (hd : Ordered d) (hordered : ix.Ascending)
    (hallowed : (Move.write number more).Allowed d) (h : Follows ix d) : Follows ix ((FileOp.append number more).apply d) := by
  obtain ⟨hmem, htop, hhealthy⟩ := hallowed
  by_cases hmore : more = []
  · rw [hmore, append_nil_apply]
    exact h
  have hnumbers := append_numbers number more d
  cases h with
  | empty hsegments hlast hdamage => exact .empty hsegments hlast hdamage
  | gone hlast hmissing => exact .gone hlast (hnumbers.symm ▸ hmissing)
  | same h => exact write_same hd hmem htop hmore hordered hhealthy h
  | grown h =>
    obtain ⟨more'', new', hgrown'⟩ := grown_written hd hmem htop hmore h.live
    exact .grown { h with missing := hnumbers.symm ▸ h.missing, live := hgrown', healthy := hhealthy }
  | @changed t seg hlast hanchor hdamage hseg hle hchanged =>
    have hmem' : appendTo number more seg ∈ (FileOp.append number more).apply d := mem_map_of_mem hseg
    have happend : (appendTo number more seg).number = seg.number ∧ seg.data.length ≤ (appendTo number more seg).data.length := by
      unfold appendTo
      split
      · exact ⟨rfl, by rw [length_append]; exact Nat.le_add_right _ _⟩
      · exact ⟨rfl, le_rfl⟩
    obtain ⟨x, hx, hxt⟩ := mem_map.mp hanchor
    have hanchor' := live_write_mem (mem_map_of_mem hx) number more
    rw [hxt] at hanchor'
    refine .changed hlast hanchor' hdamage hmem' (happend.1.symm ▸ hle) ?_
    rw [happend.1]
    exact hchanged.imp_right fun hlt => hlt.trans_le happend.2

/-! ## Cutting in place -/

theorem Follows.cut (hd : Ordered d) (hordered : ix.Ascending) (hallowed : (Move.cut number n).Allowed d)
    (hundamaged : ix.damage = none) (hknown : (ix.known number).sizeBytes ≤ n) (h : Follows ix d) :
    Follows ix ((FileOp.cut number n).apply d) := by
  obtain ⟨hmem, htop, hhealthy⟩ := hallowed
  have hnumbers := cut_numbers number n d
  obtain ⟨front, data, back, hsplit, hback, hat⟩ := split_last hd hmem htop
  have happly : (FileOp.cut number n).apply d = front ++ ⟨number, data.take n⟩ :: back := by
    rw [FileOp.apply, hat (cutTo number n) fun seg hne => if_neg hne, cutTo, if_pos rfl]
  cases h with
  | empty hsegments hlast hdamage => exact .empty hsegments hlast hdamage
  | gone hlast hmissing => exact .gone hlast (hnumbers.symm ▸ hmissing)
  | changed _ _ hdamage _ _ _ => exact absurd hundamaged hdamage
  | same h =>
    -- the index knows the whole of every file, so nothing is cut off
    have hwhole : data.take n = data := by
      by_cases hdata : data = []
      · rw [hdata, take_nil]
      · have hlive : (⟨number, data⟩ : Segment) ∈ live d := mem_filter.mpr ⟨hsplit ▸ mem_append_right _ mem_cons_self, decide_eq_true hdata⟩
        have hinfo : infoOf unread (goodItems (walk none (live d)).1) ⟨number, data⟩ ∈ ix.segments := by
          rw [h.segments, same_infos h.agrees]
          exact mem_append_right _ (mem_map_of_mem hlive)
        rw [show ix.known number = _ from known_info hordered hinfo, infoOf_size] at hknown
        exact take_of_length_le hknown
    rw [happly, hwhole, ← hsplit]
    exact .same h
  | @grown _ kept new t more groups h =>
    have hgrown := h.live
    have hlive : live d = live front ++ live [⟨number, data⟩] := by
      rw [hsplit, live_append_list, ← singleton_append, live_append_list, hback, append_nil]
    have hlive' : live ((FileOp.cut number n).apply d) = live front ++ live [⟨number, data.take n⟩] := by
      rw [happly, live_append_list, ← singleton_append, live_append_list, hback, append_nil]
    have hgrown' : ∃ more' new', live ((FileOp.cut number n).apply d) = kept ++ ⟨t.number, t.data ++ more'⟩ :: new' := by
      rw [hlive']
      by_cases hdata : data = []
      · refine ⟨more, new, ?_⟩
        rw [hdata, take_nil, ← hgrown, hlive, hdata]
      rw [live_cons_of_ne_nil hdata, hgrown] at hlive
      rcases eq_nil_or_concat new with rfl | ⟨new, x, rfl⟩
      · obtain ⟨rfl, ht⟩ := append_inj' hlive rfl
        obtain ⟨rfl, rfl⟩ := Segment.mk.inj (cons.inj ht).1
        have hinfo : infoOf unread (cleanItems (live front ++ [t]) groups) t ∈ ix.segments := by
          rw [h.segments]
          exact mem_append_right _ (mem_map_of_mem mem_concat_self)
        rw [known_info hordered hinfo, infoOf_size] at hknown
        refine ⟨more.take (n - t.data.length), [], ?_⟩
        rw [take_append, take_of_length_le hknown, live_cons_of_ne_nil (fun hnil => h.data_ne (append_eq_nil_iff.mp hnil).1)]
        rfl
      · have hall : (kept ++ ⟨t.number, t.data ++ more⟩ :: new) ++ [x] = live front ++ [⟨number, data⟩] := by
          rw [append_assoc, cons_append, ← concat_eq_append]
          exact hlive
        refine ⟨more, new ++ live [⟨number, data.take n⟩], ?_⟩
        rw [← (append_inj' hall rfl).1, append_assoc, cons_append]
    obtain ⟨more', new', hgrown'⟩ := hgrown'
    exact .grown { h with missing := hnumbers.symm ▸ h.missing, live := hgrown', healthy := hhealthy }

/-! ## Recycling -/

theorem Recycled.missing (h : Recycled d d' n) {m : ℕ} (hm : m ∉ d.map Segment.number) : m ∉ d'.map Segment.number :=
  fun hmem => hm ((h.sublist.map Segment.number).mem hmem)

theorem Recycled.healthy (h : Recycled d d' n) (hhealthy : Healthy d) : Healthy d' := by
  obtain ⟨groups, hsound⟩ := hhealthy.sound
  have hdrop := hsound.drop n
  rw [← h.live] at hdrop
  refine ⟨⟨_, hdrop⟩, ?_⟩
  intro r hr
  rw [hdrop.readable] at hr
  apply hhealthy.assigned
  rw [hsound.readable]
  obtain ⟨rs, hrs, hmem⟩ := mem_flatten.mp hr
  exact mem_flatten.mpr ⟨rs, (drop_sublist n groups).mem hrs, hmem⟩

theorem Follows.recycled_grown (hd : Ordered d) (hleft : Recycled d d' n) (h : Grown ix d dropped kept new t more groups) : Follows ix d' := by
  obtain ⟨hsplit, hdropped, hlast, hdamage, hclean, hlive, hne, hhealthy⟩ := h
  have hordered : Ordered (kept ++ [t]) := by
    have hlived := hd.live
    rw [hlive] at hlived
    obtain ⟨hkept, -, hcross⟩ := pairwise_append.mp hlived
    refine pairwise_append.mpr ⟨hkept, pairwise_singleton .., ?_⟩
    intro x hx y hy
    rw [mem_singleton.mp hy]
    exact hcross x hx ⟨t.number, t.data ++ more⟩ mem_cons_self
  have hne' : ∀ seg ∈ kept ++ [t], seg.data ≠ [] := by
    intro seg hseg
    rcases mem_append.mp hseg with hseg | hseg
    · exact live_ne_nil seg (hlive ▸ mem_append_left _ hseg)
    · rwa [mem_singleton.mp hseg]
  by_cases hle : n ≤ kept.length
  · have htake : (kept ++ [t]).take n = kept.take n := take_append_of_le_length hle
    have hdrop : (kept ++ [t]).drop n = kept.drop n ++ [t] := drop_append_of_le_length hle
    have hcleanDrop := hclean.drop n
    rw [hdrop] at hcleanDrop
    have hlived : ∀ seg ∈ kept.drop n ++ [t], seg.data ≠ [] := fun seg hseg => hne' seg ((hdrop ▸ drop_sublist n (kept ++ [t])).mem hseg)
    -- the accounts of what is left are those of a log that never had the rest
    have hagrees : TailIndex.Agrees { rescan (kept ++ [t]) with segments := (rescan (kept ++ [t])).segments.drop n } (rescan (kept.drop n ++ [t])) := by
      have hsplit' : kept ++ [t] = kept.take n ++ (kept.drop n ++ [t]) := by rw [← append_assoc, take_append_drop]
      have hclean' := hclean
      rw [hsplit'] at hclean'
      obtain ⟨front, back, -, hfront, hback⟩ := hclean'.of_append
      have hwalk : walk (after none front.flatten) (kept.drop n ++ [t]) = walk none (kept.drop n ++ [t]) := by
        obtain ⟨x, xs, hxs⟩ := exists_cons_of_ne_nil (append_ne_nil_of_right_ne_nil (kept.drop n) (cons_ne_nil t []))
        rw [hxs] at hback hlived ⊢
        have hnone := hback.walk_none (hlived x mem_cons_self) []
        rwa [append_nil] at hnone
      have hgood : (goodItems (walk none (kept.drop n ++ [t])).1).filterMap ScanItem.record? ≠ [] := by
        have hreadable := hcleanDrop.sound
        rw [← live_eq_self hlived] at hreadable
        have heq : (goodItems (walk none (kept.drop n ++ [t])).1).filterMap ScanItem.record? = (groups.drop n).flatten := hreadable.readable
        rw [heq]
        exact hcleanDrop.flatten_ne_nil hne
      have hagrees := rescan_drop (hsplit' ▸ hordered) (hsplit' ▸ hne') hfront hwalk hgood
      rwa [← hsplit', length_take_of_le hle] at hagrees
    obtain ⟨hsegments, hlastLsn, -⟩ := hclean.rescan (live_eq_self hne')
    obtain ⟨hsegments', hlastLsn', -⟩ := hcleanDrop.rescan (live_eq_self hlived)
    have hinfos : ((kept ++ [t]).map (infoOf unread (cleanItems (kept ++ [t]) groups))).drop n =
        (kept.drop n ++ [t]).map (infoOf unread (cleanItems (kept.drop n ++ [t]) (groups.drop n))) := by
      rw [← hsegments, ← hsegments']
      exact hagrees.segments
    refine @Follows.grown ix d' (dropped ++ ((kept ++ [t]).map (infoOf unread (cleanItems (kept ++ [t]) groups))).take n) (kept.drop n) new t more
      (groups.drop n) ⟨?_, ?_, ?_, hdamage, hcleanDrop, ?_, hne, hleft.healthy hhealthy⟩
    · rw [← hinfos, append_assoc, take_append_drop, hsplit]
    · intro info hinfo
      rcases mem_append.mp hinfo with hinfo | hinfo
      · exact hleft.missing (hdropped info hinfo)
      · rw [← map_take, htake] at hinfo
        obtain ⟨seg, hseg, rfl⟩ := mem_map.mp hinfo
        rw [(infoOf_unread _ seg).1]
        apply hleft.gone
        rw [hlive, take_append_of_le_length hle]
        exact hseg
    · rw [hlast, ← hlastLsn, ← hlastLsn']
      exact hagrees.lastLsn
    · rw [hleft.live, hlive, drop_append_of_le_length hle]
  · refine .of_gone hsplit ?_
    apply hleft.gone ⟨t.number, t.data ++ more⟩
    rw [hlive, take_append]
    apply mem_append_right
    obtain ⟨k, hk⟩ : ∃ k, n - kept.length = k + 1 := ⟨n - kept.length - 1, by omega⟩
    rw [hk]
    exact mem_cons_self

section
variable (hleft : Recycled d d' n)
  (hagrees' : TailIndex.Agrees { rescan (live d) with segments := (rescan (live d)).segments.drop n } (rescan (live d')))
include hleft hagrees'

theorem Follows.recycled_same {kept : List SegmentInfo} (h : Same ix d dropped kept) : Follows ix d' := by
  obtain ⟨hsplit, hkept, hdropped, hagrees⟩ := h
  have hinfos := same_infos hagrees
  have hlength : kept.length = (live d).length := by rw [hinfos, length_map]
  refine @Follows.same ix d' (dropped ++ kept.take n) (kept.drop n) ⟨?_, ?_, ?_, ?_⟩
  · rw [append_assoc, take_append_drop, hsplit]
  · intro hnil
    have hle := drop_eq_nil_iff.mp hnil
    have hpos := length_pos_iff.mpr hkept
    rcases hleft.newest with hzero | hlt <;> omega
  · intro info hinfo
    rcases mem_append.mp hinfo with hinfo | hinfo
    · exact hleft.missing (hdropped info hinfo)
    · rw [hinfos, ← map_take] at hinfo
      obtain ⟨seg, hseg, rfl⟩ := mem_map.mp hinfo
      rw [(infoOf_unread _ seg).1]
      exact hleft.gone seg hseg
  · refine ⟨?_, hagrees.lastLsn.trans hagrees'.lastLsn, hagrees.damage.trans hagrees'.damage⟩
    rw [← hagrees'.segments]
    rw [← hagrees.segments]

theorem Follows.recycled (hd : Ordered d) (h : Follows ix d) : Follows ix d' := by
  cases h with
  | empty hsegments hlast hdamage => exact .empty hsegments hlast hdamage
  | gone hlast hmissing => exact .gone hlast (hleft.missing hmissing)
  | same h => exact recycled_same hleft hagrees' h
  | grown h => exact recycled_grown hd hleft h
  | @changed t seg hlast hanchor hdamage hseg hle hchanged =>
    obtain ⟨x, hx, heq⟩ := mem_map.mp hanchor
    rw [← take_append_drop n (live d)] at hx
    rcases mem_append.mp hx with hx | hx
    · exact .gone hlast (heq ▸ hleft.gone x hx)
    · refine .changed hlast ?_ hdamage (hleft.stays seg hseg ?_) hle hchanged
      · rw [hleft.live, ← heq]
        exact mem_map_of_mem hx
      · -- a segment at or above one that stays is not among the oldest
        intro hmem
        obtain ⟨y, hy, hyseg⟩ := mem_map.mp hmem
        have hlived := hd.live
        rw [← take_append_drop n (live d)] at hlived
        have hlt := (pairwise_append.mp hlived).2.2 y hy x hx
        omega

end

/-! ## Truncating -/

theorem LogIs.undamaged {rs : List WalRecord} (h : LogIs d rs) : (rescan d).damage = none := by
  have hfailure := unbroken_of_wanted (wanted_of_record? h.1 fun _ _ => rfl)
  show damageOf d (walk none d) _ = none
  rw [damageOf, hfailure, h.2.1]
  rfl

theorem Follows.truncated (hbelow : Below ix d) (hnext : Fresh next d) (hleft : Truncated next d d')
    (hhealthy' : Healthy d → Healthy d') (h : Follows ix d) : Follows ix d' := by
  cases hleft with
  | same heq => rwa [heq]
  | @moved front gone new hlive hlive' hnew hgone hne hnumbers hmade =>
    have hmissing := hbelow.missing hnext hnumbers
    cases h with
    | empty hsegments hlast hdamage => exact .empty hsegments hlast hdamage
    | gone hlast hmiss => exact .gone hlast (hmissing _ (last_mem_numbers hlast) hmiss)
    | same h =>
      obtain ⟨before, t, ht, hsplit'⟩ := same_live h
      refine .of_gone hsplit' (hgone t ?_)
      obtain ⟨back, x, hback⟩ := (eq_nil_or_concat gone).resolve_left hne
      rw [concat_eq_append] at hback
      have hall : before ++ [t] = (front ++ back) ++ [x] := by rw [← ht, hlive, hback, append_assoc]
      have hx : t = x := (cons.inj (append_inj' hall rfl).2).1
      rw [hback, hx]
      exact mem_concat_self
    | @grown dropped kept new' t more groups h =>
      have hmissing' : ∀ info ∈ dropped, info.number ∉ d'.map Segment.number :=
        fun info hinfo => hmissing _ (mem_map_of_mem (h.segments ▸ mem_append_left _ hinfo)) (h.missing info hinfo)
      have hlost : ⟨t.number, t.data ++ more⟩ ∈ gone → Follows ix d' := fun hmem => .of_gone h.segments (hgone ⟨t.number, t.data ++ more⟩ hmem)
      rcases append_eq_append_iff.mp (h.live.symm.trans hlive) with ⟨rest, hfront, htail⟩ | ⟨rest, -, hgoneEq⟩
      · cases rest with
        | nil =>
          rw [nil_append] at htail
          exact hlost (htail ▸ mem_cons_self)
        | cons x rest =>
          obtain ⟨rfl, -⟩ := cons.inj htail
          have hgrown' : live d' = kept ++ ⟨t.number, t.data ++ more⟩ :: (rest ++ new) := by
            rw [hlive', hfront, append_assoc, cons_append]
          exact .grown { h with missing := hmissing', live := hgrown', healthy := hhealthy' h.healthy }
      · exact hlost (hgoneEq ▸ mem_append_right _ mem_cons_self)
    | @changed t seg hlast hanchor hdamage _ _ _ =>
      obtain ⟨x, hx, heq⟩ := mem_map.mp hanchor
      rw [hlive] at hx
      rcases mem_append.mp hx with hx | hx
      · obtain ⟨file, hfile, hfilen⟩ := mem_map.mp hmade
        refine .changed hlast ?_ hdamage hfile ?_ (.inl (hfilen.symm ▸ hbelow.fresh hnext))
        · rw [hlive', ← heq]
          exact mem_map_of_mem (mem_append_left _ hx)
        · have hlt := hnext x (live_mem (hlive ▸ mem_append_left _ hx))
          omega
      · exact .gone hlast (heq ▸ hgone x hx)

/-! ## Any number of steps -/

theorem truncate_reached (hd : Ordered d) (hnext : Fresh next d) :
    readable everyRecord ((Move.truncate refuses next target).apply d) <+: readable everyRecord d ∧
      Ordered ((Move.truncate refuses next target).apply d) := by
  have hreached : Interrupted (truncateAfter refuses next target d).ops d ((Move.truncate refuses next target).apply d) := reaches_run
  obtain ⟨-, hshorter, hordered, -⟩ := truncation_interrupted hd hnext hreached
  exact ⟨hshorter, hordered⟩

theorem truncate_healthy (hd : Ordered d) (hnext : Fresh next d) (hcareful : (Move.truncate refuses next target).Careful d) (h : Healthy d) :
    Healthy ((Move.truncate refuses next target).apply d) := by
  show Healthy (runOps (truncateAfter refuses next target d).ops d)
  rcases hcareful with hops | ⟨hcompleted, -⟩
  · rw [hops]
    exact h
  · have hshorter : readable everyRecord ((Move.truncate refuses next target).apply d) <+: readable everyRecord d := (truncate_reached hd hnext).1
    exact healthy_of_undamaged (truncation_completed hd hnext hcompleted).undamaged fun r hr => h.assigned r (hshorter.mem hr)

theorem recycle_apply (refuses : ℕ → Bool) (horizon : ℕ) (d : Directory) :
    (Move.recycle refuses horizon).apply d = d ∨
      ∃ ix', recycle refuses horizon (rescan d) d = .ok (ix', (Move.recycle refuses horizon).apply d) := by
  cases h : recycle refuses horizon (rescan d) d with
  | error _ =>
    left
    simp only [Move.apply, h]
  | ok found =>
    right
    refine ⟨found.1, ?_⟩
    simp only [Move.apply, h]

theorem Follows.move (m : Move) (hd : Ordered d) (hordered : ix.Ascending) (hbelow : Below ix d)
    (hallowed : m.Allowed d) (hcareful : m.Careful d) (h : Follows ix d) : Follows ix (m.apply d) := by
  cases m with
  | create number => exact h.create hbelow hallowed
  | write number more => exact h.write hd hordered hallowed
  | truncate refuses next target => exact h.truncated hbelow hallowed (Log.truncated hd hallowed hcareful) (truncate_healthy hd hallowed hcareful)
  | recycle refuses horizon =>
    rcases recycle_apply refuses horizon d with hsame | ⟨ix', hrecycle⟩
    · rwa [hsame]
    · exact h.recycled (Log.recycled hd (recycle_ok hrecycle)) (recycled_agrees hd (recycle_ok hrecycle) hcareful) hd
  | cut number size => exact hcareful.elim

theorem topped_of_numbers (h : d'.map Segment.number = d.map Segment.number) : ∀ seg ∈ d, ∃ seg' ∈ d', seg.number ≤ seg'.number := by
  intro seg hseg
  obtain ⟨seg', hseg', heq⟩ := mem_map.mp (h ▸ mem_map_of_mem hseg)
  exact ⟨seg', hseg', heq.ge⟩

theorem Move.topped (m : Move) (hd : Ordered d) (hallowed : m.Allowed d) (hcareful : m.Careful d) :
    ∀ seg ∈ d, ∃ seg' ∈ m.apply d, seg.number ≤ seg'.number := by
  intro seg hseg
  cases m with
  | create number => exact ⟨seg, mem_append_left _ hseg, le_rfl⟩
  | write number more => exact topped_of_numbers (append_numbers number more d) seg hseg
  | truncate refuses next target =>
    cases truncated hd hallowed hcareful with
    | same heq => exact ⟨seg, heq.symm ▸ hseg, le_rfl⟩
    | moved _ _ _ _ _ _ hmade =>
      obtain ⟨file, hfile, hfilen⟩ := mem_map.mp hmade
      exact ⟨file, hfile, hfilen.symm ▸ (hallowed seg hseg).le⟩
  | recycle refuses horizon =>
    rcases recycle_apply refuses horizon d with hsame | ⟨ix', hrecycle⟩
    · exact ⟨seg, hsame.symm ▸ hseg, le_rfl⟩
    · have hleft := recycled hd (recycle_ok hrecycle)
      by_cases hmem : seg.number ∈ ((live d).take (dropped refuses horizon (rescan d).segments).length).map Segment.number
      · -- a segment that went had the newest above it
        obtain ⟨x, hx, heq⟩ := mem_map.mp hmem
        have hlived := hd.live
        rw [← take_append_drop (dropped refuses horizon (rescan d).segments).length (live d), ← hleft.live] at hlived
        have hne : live ((recycle refuses horizon).apply d) ≠ [] := by
          rw [hleft.live]
          intro hnil
          have hle := drop_eq_nil_iff.mp hnil
          rcases hleft.newest with hzero | hlt
          · rw [hzero] at hx
            cases hx
          · omega
        obtain ⟨y, ys, hys⟩ := exists_cons_of_ne_nil hne
        have hy : y ∈ live ((recycle refuses horizon).apply d) := hys ▸ mem_cons_self
        exact ⟨y, live_mem hy, heq ▸ ((pairwise_append.mp hlived).2.2 x hx y hy).le⟩
      · exact ⟨seg, hleft.stays seg hseg hmem, le_rfl⟩
  | cut number size => exact hcareful.elim

theorem Move.ordered (m : Move) (hd : Ordered d) (hallowed : m.Allowed d) : Ordered (m.apply d) := by
  cases m with
  | create number =>
    refine pairwise_append.mpr ⟨hd, pairwise_singleton .., ?_⟩
    intro x hx y hy
    rw [mem_singleton.mp hy]
    exact hallowed x hx
  | write number more => exact ordered_of_numbers hd (append_numbers number more d)
  | truncate refuses next target => exact (truncate_reached hd hallowed).2
  | recycle refuses horizon =>
    rcases recycle_apply refuses horizon d with hsame | ⟨ix', hrecycle⟩
    · rwa [hsame]
    · exact hd.sublist (recycled hd (recycle_ok hrecycle)).sublist
  | cut number size => exact ordered_of_numbers hd (cut_numbers number size d)

def Step (d d' : Directory) : Prop := ∃ m : Move, m.Allowed d ∧ d' = m.apply d

def CarefulStep (d d' : Directory) : Prop := ∃ m : Move, m.Allowed d ∧ m.Careful d ∧ d' = m.apply d

/-- A cut in place that takes nothing the index has seen. -/
def Move.Unseen (ix : TailIndex) : Move → Prop
  | cut number size => ix.damage = none ∧ (ix.known number).sizeBytes ≤ size
  | _ => False

def UnseenStep (ix : TailIndex) (d d' : Directory) : Prop := ∃ m : Move, m.Allowed d ∧ (m.Careful d ∨ m.Unseen ix) ∧ d' = m.apply d

section
variable (h : ix.Agrees (rescan d))
include h

theorem follows_of_agrees (hd : Ordered d) : Follows ix d := by
  have hlive := h.trans (rescan_live hd)
  by_cases hsegments : ix.segments = []
  · have hnil : live d = [] := map_eq_nil_iff.mp (h.segments.symm.trans hsegments)
    rw [hnil] at hlive
    exact .empty hsegments hlive.lastLsn hlive.damage
  · exact @Follows.same ix d [] ix.segments ⟨rfl, hsegments, nofun, hlive⟩

theorem agrees_ordered (hd : Ordered d) : ix.Ascending := by
  rw [TailIndex.Ascending, h.segments]
  show ((live d).map (infoOf unread (goodItems (walk none d).1))).Pairwise _
  rw [pairwise_map]
  refine hd.live.imp ?_
  intro a b hlt
  rw [(infoOf_unread _ a).1, (infoOf_unread _ b).1]
  exact hlt

theorem agrees_below : Below ix d := by
  intro info hinfo
  rw [h.segments] at hinfo
  obtain ⟨seg, hseg, rfl⟩ := mem_map.mp hinfo
  exact ⟨seg, live_mem hseg, (infoOf_unread _ seg).1.le⟩

end

theorem Below.mono (h : Below ix d) (htop : ∀ seg ∈ d, ∃ seg' ∈ d', seg.number ≤ seg'.number) : Below ix d' := by
  intro info hinfo
  obtain ⟨seg, hseg, hle⟩ := h info hinfo
  obtain ⟨seg', hseg', hle'⟩ := htop seg hseg
  exact ⟨seg', hseg', hle.trans hle'⟩

theorem Follows.unseen (hd : Ordered d) (hordered : ix.Ascending) (hbelow : Below ix d)
    (hstep : UnseenStep ix d d') (h : Follows ix d) : Ordered d' ∧ Below ix d' ∧ Follows ix d' := by
  obtain ⟨m, hallowed, hcareful, rfl⟩ := hstep
  refine ⟨m.ordered hd hallowed, ?_⟩
  rcases hcareful with hcareful | hunseen
  · exact ⟨hbelow.mono (m.topped hd hallowed hcareful), h.move m hd hordered hbelow hallowed hcareful⟩
  · cases m with
    | cut number size =>
      exact ⟨hbelow.mono (topped_of_numbers (cut_numbers number size d)), h.cut hd hordered hallowed hunseen.1 hunseen.2⟩
    | create | write | truncate | recycle => exact hunseen.elim

/-- However long others worked on the log with care, a refresh of an index that was right before answers
like a full pass. What they wrote since may have been taken back. -/
theorem refresh_as_rescan (d₀ d : Directory) (ix : TailIndex) (hd : Ordered d₀) (hix : ix.Agrees (rescan d₀))
    (hsteps : Relation.ReflTransGen (UnseenStep ix) d₀ d) : (ix.refresh d).Agrees (rescan d) := by
  have hordered := agrees_ordered hix hd
  have hinvariant : Ordered d ∧ Below ix d ∧ Follows ix d := by
    induction hsteps with
    | refl => exact ⟨hd, agrees_below hix, follows_of_agrees hix hd⟩
    | tail _ hstep ih =>
      obtain ⟨hd, hbelow, hfollows⟩ := ih
      exact hfollows.unseen hd hordered hbelow hstep
  exact hinvariant.2.2.refresh hinvariant.1 hordered

def longRecord : WalRecord := { begun 2 with payload := replicate 52 0, payload_le := by decide }

def beforeReuse : Directory := [⟨1, (begun 1).image⟩, ⟨2, longRecord.image⟩]

def cutAtBoundary : Directory := [⟨1, (begun 1).image⟩]

def afterReuse : Directory := [⟨1, (begun 1).image⟩, ⟨2, imagesOf [begun 2, begun 3]⟩]

theorem refresh_as_rescan_grown : ((rescan cutAtBoundary).refresh afterReuse).Agrees (rescan afterReuse) := by
  have hcreate : UnseenStep (rescan cutAtBoundary) cutAtBoundary (cutAtBoundary ++ [⟨2, []⟩]) :=
    ⟨.create 2, (by decide : Fresh 2 cutAtBoundary), .inl trivial, rfl⟩
  have hfailed : Healthy beforeReuse := healthy_of_undamaged (by decide +kernel) (by decide +kernel)
  have hempty : Healthy (cutAtBoundary ++ [⟨2, []⟩]) := healthy_of_undamaged (by decide +kernel) (by decide +kernel)
  have hhealthy : Healthy afterReuse := healthy_of_undamaged (by decide +kernel) (by decide +kernel)
  -- the batch that failed is taken back, and another one stands in its place
  have hwrite : UnseenStep (rescan cutAtBoundary) (cutAtBoundary ++ [⟨2, []⟩]) beforeReuse :=
    ⟨.write 2 longRecord.image, ⟨by decide, by decide, hfailed⟩, .inl trivial, rfl⟩
  have hcut : UnseenStep (rescan cutAtBoundary) beforeReuse (cutAtBoundary ++ [⟨2, []⟩]) :=
    ⟨.cut 2 0, ⟨by decide, by decide, hempty⟩, .inr ⟨by decide +kernel, by decide +kernel⟩, rfl⟩
  have hagain : UnseenStep (rescan cutAtBoundary) (cutAtBoundary ++ [⟨2, []⟩]) afterReuse :=
    ⟨.write 2 (imagesOf [begun 2, begun 3]), ⟨by decide, by decide, hhealthy⟩, .inl trivial, rfl⟩
  exact refresh_as_rescan cutAtBoundary afterReuse _ (by decide) (.refl _)
    ((((Relation.ReflTransGen.single hcreate).tail hwrite).tail hcut).tail hagain)

/-- A cut at the end of a segment lets the next name be used again. Another participant that knew the
old segment of that name and size does not look again. -/
theorem reused_name_not_noticed : Ordered beforeReuse ∧ Relation.ReflTransGen Step beforeReuse afterReuse ∧
    ((rescan beforeReuse).refresh afterReuse).lastLsn = 2 ∧ (rescan afterReuse).lastLsn = 3 := by
  have htruncate : Step beforeReuse cutAtBoundary := ⟨.truncate (fun _ => false) 3 1, (by decide : Fresh 3 beforeReuse), by decide +kernel⟩
  have hcreate : Step cutAtBoundary (cutAtBoundary ++ [⟨2, []⟩]) := ⟨.create 2, (by decide : Fresh 2 cutAtBoundary), rfl⟩
  have hhealthy : Healthy afterReuse := healthy_of_undamaged (by decide +kernel) (by decide +kernel)
  have hwrite : Step (cutAtBoundary ++ [⟨2, []⟩]) afterReuse :=
    ⟨.write 2 (imagesOf [begun 2, begun 3]), ⟨by decide, by decide, hhealthy⟩, rfl⟩
  exact ⟨by decide, ((Relation.ReflTransGen.single htruncate).tail hcreate).tail hwrite, by decide +kernel, by decide +kernel⟩

end Grafx.Log
