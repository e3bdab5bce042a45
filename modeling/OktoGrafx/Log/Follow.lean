import OktoGrafx.Log.Torn

/-! When a refresh answers like a full pass. A remembered index still serves as long as the device has
moved away from it in one of a few ways; each of them the refresh either resolves from what it
remembers or notices. -/

namespace Grafx.Log

open List Wal TailIndex
open ScanItem (failure? record?)

variable {expected : Option ℕ} {rs rest : List WalRecord} {more : Bytes} {seg t : Segment} {d segs kept new : Directory}
  {groups : List (List WalRecord)} {items : List ScanItem} {number : ℕ} {starts : ℕ → ℕ}

/-! ## Reading on -/

section
variable (h : ∀ seg ∈ segs, seg.data.length ≤ starts seg.number)
include h

theorem walkFrom_skip (later : Directory) : walkFrom starts expected (segs ++ later) = walkFrom starts expected later := by
  induction segs with
  | nil => rfl
  | cons seg segs ih =>
    obtain ⟨hseg, hrest⟩ := forall_mem_cons.mp h
    rw [cons_append, walkFrom, if_pos hseg, ih hrest]

theorem walkFrom_all : walkFrom starts expected segs = ([], none) := by
  rw [← append_nil segs, walkFrom_skip h]
  rfl

end

theorem walkFrom_start (h : ∀ seg ∈ segs, starts seg.number = 0) : walkFrom starts expected segs = walk expected segs := by
  induction segs generalizing expected with
  | nil => rfl
  | cons seg segs ih =>
    obtain ⟨hseg, hrest⟩ := forall_mem_cons.mp h
    have hlater : ∀ e, walkFrom starts e segs = walkFrom (fun _ => 0) e segs := fun _ => ih hrest
    rw [walk, walkFrom, walkFrom, hseg]
    simp only [hlater]

theorem recordItems_append (segment offset : ℕ) (rs rest : List WalRecord) :
    recordItems segment offset (rs ++ rest) = recordItems segment offset rs ++ recordItems segment (offset + (imagesOf rs).length) rest := by
  induction rs generalizing offset with
  | nil => rfl
  | cons r rs ih =>
    rw [cons_append, recordItems, recordItems, ih, imagesOf_cons, length_append, WalRecord.image_length, add_assoc]
    rfl

theorem Clean.items_append {keep : WalRecord → Bool} (h : Clean keep expected segs groups) (seg : Segment) (rs : List WalRecord) :
    cleanItems (segs ++ [seg]) (groups ++ [rs]) = cleanItems segs groups ++ recordItems seg.number 0 rs := by
  induction h with
  | nil => exact cleanItems_single seg rs
  | cons _ _ _ _ ih => rw [cons_append, cons_append, cleanItems, ih, cleanItems, append_assoc]

theorem Clean.walk_grown (starts : ℕ → ℕ) (hclean : Clean everyRecord none (kept ++ [t]) groups) {groups' : List (List WalRecord)}
    (hsound : Sound none (kept ++ ⟨t.number, t.data ++ more⟩ :: new) groups') (hkept : ∀ seg ∈ kept, starts seg.number = seg.data.length)
    (ht : starts t.number = t.data.length) (hnew : ∀ seg ∈ new, starts seg.number = 0) :
    Log.walk none (kept ++ ⟨t.number, t.data ++ more⟩ :: new) =
      (cleanItems (kept ++ [t]) groups ++ (walkFrom starts (after none groups.flatten) (kept ++ ⟨t.number, t.data ++ more⟩ :: new)).1,
        (walkFrom starts (after none groups.flatten) (kept ++ ⟨t.number, t.data ++ more⟩ :: new)).2) := by
  obtain ⟨front, back, rfl, hfront, hback⟩ := hclean.of_append
  obtain ⟨rt, rfl, hdata, hrun⟩ : ∃ rt, back = [rt] ∧ t.data = imagesOf rt ∧ Run everyRecord (after none front.flatten) rt := by
    cases hback with
    | cons hdata _ hrun hrest =>
      cases hrest
      exact ⟨_, rfl, hdata, hrun⟩
  obtain ⟨front', rs, tail, hfront', hgrown, hsize, hrun', htail, -⟩ := hsound.split
  obtain rfl := hfront.unique hfront'
  rw [hdata] at hgrown
  obtain ⟨rest, rfl, rfl⟩ := hrun.prefix_of hrun'.readable htail hgrown
  have hrest : Run everyRecord (after (after none front.flatten) rt) rest := hrun'.of_append.2
  have hafter : after none (front ++ [rt]).flatten = after (after none front.flatten) rt := by
    rw [flatten_append, flatten_singleton, after_append]
  have hbase : (imagesOf rt).length = t.data.length := by rw [hdata]
  have hnew' : ∀ e, walkFrom starts e new = Log.walk e new := fun e => walkFrom_start hnew
  -- the bytes of the grown segment, from its start and from its old end
  have hfull : ∀ budget fuel, (t.data ++ (imagesOf rest ++ tail)).length ≤ fuel →
      walkBytes t.number budget fuel 0 (after none front.flatten) 0 0 (t.data ++ (imagesOf rest ++ tail)) =
        (recordItems t.number 0 rt ++ (recordItems t.number t.data.length rest ++
          tornItems t.number (t.data.length + (imagesOf rest).length) (after (after (after none front.flatten) rt) rest) tail),
          after (after (after none front.flatten) rt) rest) := by
    intro budget fuel hfuel
    have hbytes : t.data ++ (imagesOf rest ++ tail) = imagesOf (rt ++ rest) ++ tail := by rw [hdata, imagesOf_append, append_assoc]
    rw [hbytes] at hfuel ⊢
    rw [walkBytes_sound _ _ _ _ _ hrun' htail hfuel, recordItems_append, imagesOf_append, length_append, hbase, after_append,
      zero_add, zero_add, append_assoc]
  have hgrownWalk : walkFrom starts (after (after none front.flatten) rt) (⟨t.number, t.data ++ (imagesOf rest ++ tail)⟩ :: new) =
      ((recordItems t.number t.data.length rest ++
          tornItems t.number (t.data.length + (imagesOf rest).length) (after (after (after none front.flatten) rt) rest) tail) ++
        (Log.walk (after (after (after none front.flatten) rt) rest) new).1, (Log.walk (after (after (after none front.flatten) rt) rest) new).2) := by
    by_cases hmore : imagesOf rest ++ tail = []
    · obtain ⟨hnil, rfl⟩ := append_eq_nil_iff.mp hmore
      obtain rfl := imagesOf_eq_nil.mp hnil
      rw [walkFrom, if_pos (by rw [ht, hmore, append_nil]), hnew']
      rfl
    · have hpos := length_pos_iff.mpr hmore
      have hsub := walkBytes_sound t.number ((imagesOf rest ++ tail).length * resyncChecksumBudgetFactor) t.data.length 0 0 hrest htail le_rfl
      rw [walkFrom, ht, if_neg (by rw [length_append]; omega), if_neg (by omega), drop_left]
      dsimp only
      rw [hsub, hnew']
  rw [hfront.walk, hafter, walkFrom_skip (fun seg hseg => (hkept seg hseg).ge), hgrownWalk, walk_cons hsize, hfront.items_append]
  rw [hfull _ _ le_rfl]
  simp only [append_assoc]

/-! ## The index of a clean log -/

theorem infoOf_size (known : ℕ → SegmentInfo) (good : List ScanItem) (seg : Segment) : (infoOf known good seg).sizeBytes = seg.data.length :=
  (foldl_noteRecord { known seg.number with sizeBytes := seg.data.length } (recordsIn seg.number good)).2.1

theorem foldl_noteRecord_size (info : SegmentInfo) (size : ℕ) (rs : List WalRecord) :
    { rs.foldl noteRecord info with sizeBytes := size } = rs.foldl noteRecord { info with sizeBytes := size } := by
  induction rs generalizing info with
  | nil => rfl
  | cons r rs ih => exact ih (noteRecord info r)

theorem infoOf_append (known : ℕ → SegmentInfo) (good more : List ScanItem) (seg : Segment) :
    infoOf known (good ++ more) seg = infoOf (fun _ => infoOf known good seg) more seg := by
  rw [infoOf, recordsIn_append, foldl_append, infoOf]
  exact congrArg (fun info => (recordsIn seg.number more).foldl noteRecord info)
    (foldl_noteRecord_size { known seg.number with sizeBytes := seg.data.length } seg.data.length (recordsIn seg.number good)).symm

section
variable (h : Clean everyRecord expected segs groups)
include h

theorem Clean.wanted : ∀ item ∈ cleanItems segs groups, item.wanted everyRecord = true :=
  wanted_of_record? h.record?_items fun _ _ => rfl

theorem Clean.goodItems (items : List ScanItem) : goodItems (cleanItems segs groups ++ items) = cleanItems segs groups ++ goodItems items :=
  takeWhile_append_of_pos h.wanted

omit h in
theorem unbroken_of_wanted (h : ∀ item ∈ items, item.wanted everyRecord = true) : items.findSome? failure? = none := by
  apply findSome?_eq_none_iff.mpr
  intro item hitem
  cases item with
  | record _ _ _ => rfl
  | failure _ => cases h _ hitem

theorem Clean.no_failure (items : List ScanItem) :
    (cleanItems segs groups ++ items).findSome? failure? = items.findSome? failure? := by
  rw [findSome?_append, unbroken_of_wanted h.wanted, Option.none_or]

theorem Clean.records (items : List ScanItem) :
    (cleanItems segs groups ++ items).filterMap record? = groups.flatten ++ items.filterMap record? := by
  rw [filterMap_append, filterMap_of_record? h.record?_items]

end

theorem Clean.rescan (h : Clean everyRecord none segs groups) (hlive : live segs = segs) :
    (rescan segs).segments = segs.map (infoOf unread (cleanItems segs groups)) ∧ (rescan segs).lastLsn = lastLsn groups.flatten ∧
      (rescan segs).damage = none := by
  have hwalk : Log.walk none segs = (cleanItems segs groups, none) := by
    have hwalk := h.walk []
    rw [append_nil] at hwalk
    exact hwalk.trans (congrArg (·, none) (append_nil _))
  have hgood : Log.goodItems (Log.walk none segs).1 = cleanItems segs groups := by
    rw [hwalk]
    exact takeWhile_eq_self_iff.mpr h.wanted
  refine ⟨?_, ?_, ?_⟩
  · show (live segs).map (infoOf unread (Log.goodItems (Log.walk none segs).1)) = _
    rw [hlive, hgood]
  · show lastLsn ((Log.goodItems (Log.walk none segs).1).filterMap record?) = _
    rw [hgood, filterMap_of_record? h.record?_items]
  · show damageOf segs (Log.walk none segs) _ = none
    rw [hwalk, damageOf, unbroken_of_wanted h.wanted]
    rfl

/-! ## Ways the device moves away from an index -/

/-- Leading segments went, and the rest is as it was. -/
structure Same (ix : TailIndex) (d : Directory) (dropped kept : List SegmentInfo) : Prop where
  segments : ix.segments = dropped ++ kept
  kept_ne : kept ≠ []
  missing : ∀ info ∈ dropped, info.number ∉ d.map Segment.number
  agrees : TailIndex.Agrees { ix with segments := kept } (rescan (live d))

/-- Leading segments went, and a clean log was written on. -/
structure Grown (ix : TailIndex) (d : Directory) (dropped : List SegmentInfo) (kept new : Directory) (t : Segment) (more : Bytes)
    (groups : List (List WalRecord)) : Prop where
  segments : ix.segments = dropped ++ (kept ++ [t]).map (infoOf unread (cleanItems (kept ++ [t]) groups))
  missing : ∀ info ∈ dropped, info.number ∉ d.map Segment.number
  lastLsn : ix.lastLsn = lastLsn groups.flatten
  undamaged : ix.damage = none
  clean : Clean everyRecord none (kept ++ [t]) groups
  live : live d = kept ++ ⟨t.number, t.data ++ more⟩ :: new
  data_ne : t.data ≠ []
  healthy : Healthy d

inductive Follows (ix : TailIndex) (d : Directory) : Prop
  | empty : ix.segments = [] → ix.lastLsn = noLsn → ix.damage = none → Follows ix d
  | gone {t : SegmentInfo} : ix.segments.getLast? = some t → t.number ∉ d.map Segment.number → Follows ix d
  | same {dropped kept : List SegmentInfo} : Same ix d dropped kept → Follows ix d
  | grown {dropped : List SegmentInfo} {kept new : Directory} {t : Segment} {more : Bytes} {groups : List (List WalRecord)} :
      Grown ix d dropped kept new t more groups → Follows ix d
  /-- It remembers damage, and something at the end of the log is not as it was. -/
  | changed {t : SegmentInfo} {seg : Segment} : ix.segments.getLast? = some t → t.number ∈ (live d).map Segment.number → ix.damage ≠ none →
      seg ∈ d → t.number ≤ seg.number → (seg.number ∉ ix.numbers ∨ (ix.known seg.number).sizeBytes < seg.data.length) → Follows ix d

variable {ix : TailIndex} {dropped : List SegmentInfo} {info : SegmentInfo}

theorem dropped_nil_of_unmoved {kept : List SegmentInfo} (hsplit : ix.segments = dropped ++ kept)
    (hdropped : ∀ info ∈ dropped, info.number ∉ d.map Segment.number) (h : d.map Segment.number = ix.numbers) : dropped = [] := by
  apply eq_nil_iff_forall_not_mem.mpr
  intro info hinfo
  apply hdropped info hinfo
  rw [h, numbers, hsplit]
  exact mem_map_of_mem (mem_append_left _ hinfo)

theorem known_info {good : List ScanItem} (hordered : ix.Ascending)
    (h : infoOf unread good seg ∈ ix.segments) : ix.known seg.number = infoOf unread good seg := by
  have hknown := known_of_mem hordered h
  rwa [(infoOf_unread good seg).1] at hknown

theorem refresh_empty (hsegments : ix.segments = []) (hlast : ix.lastLsn = noLsn) (hdamage : ix.damage = none) :
    (ix.refresh d).Agrees (rescan d) := by
  rcases ix.refresh_cases d with ⟨hunmoved, heq⟩ | heq | ⟨-, -, heq⟩
  · have hnumbers := (unmoved_iff.mp hunmoved).1
    rw [numbers, hsegments] at hnumbers
    rw [heq, map_eq_nil_iff.mp hnumbers]
    exact ⟨hsegments, hlast, hdamage⟩
  · rw [heq]
    exact .refl _
  · have hknown : ix.known = unread := by
      funext number
      apply known_of_not_mem
      rw [numbers, hsegments]
      exact not_mem_nil
    have hwalk : walkFrom (fun number => (ix.known number).sizeBytes) (if ix.lastLsn = noLsn then none else some (ix.lastLsn + 1)) d = walk none d := by
      rw [if_pos hlast, hknown]
      rfl
    rw [heq]
    refine ⟨?_, ?_, ?_⟩
    · show (live d).map (infoOf ix.known _) = _
      rw [hwalk, hknown]
      rfl
    · show Option.getD _ ix.lastLsn = _
      rw [hwalk, hlast]
      rfl
    · show (damageOf d _ _).or ix.damage = _
      rw [hwalk, hdamage, hlast, Option.or_none]
      rfl

theorem refresh_same {kept : List SegmentInfo} (hd : Ordered d) (hordered : ix.Ascending) (h : Same ix d dropped kept) :
    (ix.refresh d).Agrees (rescan d) := by
  obtain ⟨hsplit, -, hdropped, hagrees⟩ := h
  have hlive := hagrees.trans (rescan_live hd).symm
  rcases ix.refresh_cases d with ⟨hunmoved, heq⟩ | heq | ⟨-, -, heq⟩
  · have hnil := dropped_nil_of_unmoved hsplit hdropped (unmoved_iff.mp hunmoved).1
    rw [hnil, nil_append] at hsplit
    rw [heq]
    exact ⟨hsplit.trans hlive.segments, hlive.lastLsn, hlive.damage⟩
  · rw [heq]
    exact .refl _
  · have hkept : kept = (live d).map (infoOf unread (goodItems (walk none d).1)) := hlive.segments
    have hknown : ∀ seg ∈ live d, ix.known seg.number = infoOf unread (goodItems (walk none d).1) seg := by
      intro seg hseg
      apply known_info hordered
      rw [hsplit, hkept]
      exact mem_append_right _ (mem_map_of_mem hseg)
    have hwalk : ∀ e, walkFrom (fun number => (ix.known number).sizeBytes) e d = ([], none) := by
      intro e
      rw [walkFrom_live]
      apply walkFrom_all
      intro seg hseg
      rw [hknown seg hseg, infoOf_size]
    rw [heq]
    refine ⟨?_, ?_, ?_⟩
    · show (live d).map (infoOf ix.known _) = _
      rw [hwalk]
      apply map_congr_left
      intro seg hseg
      show { ix.known seg.number with sizeBytes := seg.data.length } = _
      rw [hknown seg hseg, ← infoOf_size unread (goodItems (walk none d).1) seg]
    · show Option.getD _ ix.lastLsn = _
      rw [hwalk]
      exact hlive.lastLsn
    · show (damageOf d _ _).or ix.damage = _
      rw [hwalk]
      exact hlive.damage

theorem after_last (h : rs ≠ []) : after expected rs = some (lastLsn rs + 1) := by
  obtain ⟨front, r, hrs⟩ := (eq_nil_or_concat rs).resolve_left h
  rw [concat_eq_append] at hrs
  rw [hrs, after_append, lastLsn, getLast?_concat]
  rfl

theorem lastLsn_append (h : rest ≠ []) : lastLsn (rs ++ rest) = lastLsn rest := by
  obtain ⟨front, r, hrest⟩ := (eq_nil_or_concat rest).resolve_left h
  rw [concat_eq_append] at hrest
  rw [lastLsn, lastLsn, hrest, ← append_assoc, getLast?_concat, getLast?_concat]

theorem exists_last (h : rs ≠ []) : ∃ r, rs.getLast? = some r := ⟨_, getLast?_eq_some_getLast h⟩

theorem getLast?_getD_append (rs rest : List WalRecord) : (rest.getLast?.map WalRecord.lsn).getD (lastLsn rs) = lastLsn (rs ++ rest) := by
  by_cases h : rest = []
  · rw [h, append_nil]
    rfl
  · rw [lastLsn_append h]
    obtain ⟨r, hr⟩ := exists_last h
    have hlast : lastLsn rest = r.lsn := by rw [lastLsn, hr]; rfl
    rw [hr, hlast]
    rfl

theorem Clean.flatten_ne_nil (h : Clean everyRecord expected (kept ++ [t]) groups) (hne : t.data ≠ []) : groups.flatten ≠ [] := by
  intro hnil
  have hdata := h.data
  rw [hnil, flatMap_append, flatMap_singleton] at hdata
  exact hne (append_eq_nil_iff.mp hdata).2

section Grown
variable (hd : Ordered d) (hordered : ix.Ascending) (h : Grown ix d dropped kept new t more groups)
include hd hordered h

theorem resume_grown : (ix.resume d).Agrees (rescan d) := by
  obtain ⟨hsplit, hdropped, hlast, hdamage, hclean, hlive, hne, hhealthy⟩ := h
  obtain ⟨groups', hsound⟩ := hhealthy.sound
  obtain ⟨old, hold⟩ : ∃ old, cleanItems (kept ++ [t]) groups = old := ⟨_, rfl⟩
  have hmem : ∀ seg ∈ kept ++ [t], infoOf unread old seg ∈ ix.segments := by
    intro seg hseg
    rw [hsplit, hold]
    exact mem_append_right _ (mem_map_of_mem hseg)
  have hknown : ∀ seg ∈ kept ++ [t], ix.known seg.number = infoOf unread old seg := fun seg hseg => known_info hordered (hmem seg hseg)
  have hbefore : ∀ x ∈ kept ++ [t], ∀ seg ∈ new, x.number < seg.number := by
    have hlived := hd.live
    rw [hlive] at hlived
    obtain ⟨-, ht, hcross⟩ := pairwise_append.mp hlived
    intro x hx seg hseg
    rcases mem_append.mp hx with hx | hx
    · exact hcross x hx seg (mem_cons_of_mem _ hseg)
    · rw [mem_singleton.mp hx]
      exact (pairwise_cons.mp ht).1 seg hseg
  have hnew : ∀ seg ∈ new, seg.number ∉ ix.numbers := by
    intro seg hseg hnumber
    rw [numbers, hsplit, map_append, map_number_infos] at hnumber
    rcases mem_append.mp hnumber with hnumber | hnumber
    · obtain ⟨info, hinfo, heq⟩ := mem_map.mp hnumber
      have hd' : seg ∈ d := live_mem (hlive ▸ mem_append_right _ (mem_cons_of_mem _ hseg))
      exact hdropped info hinfo (heq ▸ mem_map_of_mem hd')
    · obtain ⟨x, hx, heq⟩ := mem_map.mp hnumber
      exact (hbefore x hx seg hseg).ne heq
  have hunread : ∀ seg ∈ new, ix.known seg.number = unread seg.number := fun seg hseg => known_of_not_mem (hnew seg hseg)
  rw [hlive] at hsound
  have hwalk := Clean.walk_grown (fun number => (ix.known number).sizeBytes) hclean hsound
    (fun seg hseg => by
      rw [hknown seg (mem_append_left _ hseg), infoOf_size])
    (by
      rw [hknown t mem_concat_self, infoOf_size])
    (fun seg hseg => by
      rw [hunread seg hseg]
      rfl)
  rw [← hlive, ← walk_live, ← walkFrom_live, hold] at hwalk
  obtain ⟨found, hfound⟩ : ∃ found, walkFrom (fun number => (ix.known number).sizeBytes) (after none groups.flatten) d = found := ⟨_, rfl⟩
  rw [hfound] at hwalk
  have hgood : goodItems (walk none d).1 = old ++ goodItems found.1 := by
    rw [hwalk, ← hold]
    exact hclean.goodItems _
  have hrecords : (goodItems (walk none d).1).filterMap record? =
      groups.flatten ++ (goodItems found.1).filterMap record? := by
    rw [hgood, ← hold, hclean.records]
  have hne' := hclean.flatten_ne_nil hne
  -- the old end has a number, so the walk goes on from the one behind it
  have hexpected : (if ix.lastLsn = noLsn then none else some (ix.lastLsn + 1)) = after none groups.flatten := by
    have hpos : lastLsn groups.flatten ≠ noLsn := by
      obtain ⟨r, hr⟩ := exists_last hne'
      have hmem : r ∈ readable everyRecord d := by
        show r ∈ (goodItems (walk none d).1).filterMap record?
        rw [hrecords]
        exact mem_append_left _ (mem_of_getLast? hr)
      rw [lastLsn, hr]
      exact hhealthy.assigned r hmem
    rw [hlast, if_neg hpos, after_last hne']
  have hlastLsn : (((goodItems found.1).filterMap record?).getLast?.map WalRecord.lsn).getD ix.lastLsn =
      lastLsn ((goodItems (walk none d).1).filterMap record?) := by
    rw [hlast, hrecords, getLast?_getD_append]
  refine ⟨?_, ?_, ?_⟩
  · show (live d).map (infoOf ix.known _) = (live d).map (infoOf unread (goodItems (walk none d).1))
    rw [hexpected, hfound, hgood]
    apply map_congr_left
    intro seg hseg
    rw [infoOf_append]
    show (recordsIn seg.number (goodItems found.1)).foldl noteRecord { ix.known seg.number with sizeBytes := seg.data.length } =
      (recordsIn seg.number (goodItems found.1)).foldl noteRecord { infoOf unread old seg with sizeBytes := seg.data.length }
    congr 1
    rw [hlive] at hseg
    rcases mem_append.mp hseg with hseg | hseg
    · rw [hknown seg (mem_append_left _ hseg)]
    · rcases mem_cons.mp hseg with rfl | hseg
      · rw [show (⟨t.number, t.data ++ more⟩ : Segment).number = t.number from rfl,
          hknown t mem_concat_self, infoOf, foldl_noteRecord_size, infoOf, foldl_noteRecord_size]
      · rw [hunread seg hseg, infoOf, ← hold, recordsIn_cleanItems fun x hx => (hbefore x hx seg hseg).ne]
        rfl
  · show Option.getD _ ix.lastLsn = _
    rw [hexpected, hfound]
    exact hlastLsn
  · show (damageOf d _ _).or ix.damage = damageOf d (walk none d) _
    rw [hexpected, hfound, hlastLsn, hdamage, Option.or_none, hwalk, damageOf, damageOf, ← hold, hclean.no_failure]

theorem refresh_grown : (ix.refresh d).Agrees (rescan d) := by
  have hresumed := resume_grown hd hordered h
  obtain ⟨hsplit, hdropped, hlast, hdamage, hclean, hlive, -, -⟩ := h
  rcases ix.refresh_cases d with ⟨hunmoved, heq⟩ | heq | ⟨-, -, heq⟩
  · obtain ⟨hnumbers, hsize⟩ := unmoved_iff.mp hunmoved
    have hnil := dropped_nil_of_unmoved hsplit hdropped hnumbers
    rw [hnil, nil_append] at hsplit
    have hd' : d.map Segment.number = (kept ++ [t]).map Segment.number := by
      rw [hnumbers, numbers, hsplit, map_number_infos]
    have hnew : new = [] := by
      have hle : (live d).length ≤ d.length := length_filter_le _ _
      have hlength := congrArg length hd'
      rw [length_map, length_map, length_append] at hlength
      rw [hlive, length_append, length_cons, hlength] at hle
      exact length_eq_zero_iff.mp (by simp only [length_singleton] at hle; omega)
    have hgrown : (⟨t.number, t.data ++ more⟩ : Segment) ∈ d := live_mem (hlive ▸ mem_append_right _ mem_cons_self)
    have hmore : more = [] := by
      have hlastInfo : ix.segments.getLast? = some (infoOf unread (cleanItems (kept ++ [t]) groups) t) := by
        rw [hsplit, map_append]
        exact getLast?_concat
      have hsame := hsize _ hlastInfo
      have hactual : sizeOf d t.number = (t.data ++ more).length := sizeOf_mem hd hgrown
      rw [(infoOf_unread _ t).1, infoOf_size, hactual, length_append] at hsame
      exact length_eq_zero_iff.mp (by omega)
    rw [hnew, hmore, append_nil] at hlive
    have hrescan := hclean.rescan (by rw [← hlive, live_live] : live (kept ++ [t]) = kept ++ [t])
    have hagrees : ix.Agrees (rescan (live d)) := by
      rw [hlive]
      exact ⟨hsplit.trans hrescan.1.symm, hlast.trans hrescan.2.1.symm, hdamage.trans hrescan.2.2.symm⟩
    rw [heq]
    exact hagrees.trans (rescan_live hd).symm
  · rw [heq]
    exact .refl _
  · rw [heq]
    exact hresumed

end Grown

theorem getLast?_max (hordered : ix.Ascending) {t : SegmentInfo} (hlast : ix.segments.getLast? = some t)
    (h : number ∈ ix.numbers) : number ≤ t.number := by
  obtain ⟨info, hinfo, rfl⟩ := mem_map.mp h
  obtain ⟨front, hsplit⟩ := getLast?_eq_some_iff.mp hlast
  rw [Ascending, hsplit] at hordered
  rw [hsplit] at hinfo
  rcases mem_append.mp hinfo with hinfo | hinfo
  · exact ((pairwise_append.mp hordered).2.2 info hinfo t mem_cons_self).le
  · rw [mem_singleton.mp hinfo]

theorem Follows.refresh (hd : Ordered d) (hordered : ix.Ascending) (h : Follows ix d) :
    (ix.refresh d).Agrees (rescan d) := by
  cases h with
  | empty hsegments hlast hdamage => exact refresh_empty hsegments hlast hdamage
  | @gone t hlast hgone =>
    rcases ix.refresh_cases d with ⟨hunmoved, -⟩ | heq | ⟨hanchor, -, -⟩
    · rw [(unmoved_iff.mp hunmoved).1] at hgone
      exact absurd (mem_map_of_mem (mem_of_getLast? hlast)) hgone
    · rw [heq]
      exact .refl _
    · exact absurd (anchorGone_false hanchor t hlast) hgone
  | same h => exact refresh_same hd hordered h
  | grown h => exact refresh_grown hd hordered h
  | @changed t seg hlast _ hdamage hseg hle hchanged =>
    rcases ix.refresh_cases d with ⟨hunmoved, -⟩ | heq | ⟨-, hsame, -⟩
    · obtain ⟨hnumbers, hsize⟩ := unmoved_iff.mp hunmoved
      have hknown : seg.number ∈ ix.numbers := hnumbers ▸ mem_map_of_mem hseg
      have hlt := hchanged.resolve_left (not_not_intro hknown)
      have hnumber : seg.number = t.number := le_antisymm (getLast?_max hordered hlast hknown) hle
      rw [hnumber, known_of_mem hordered (mem_of_getLast? hlast), ← hsize t hlast, ← hnumber, sizeOf_mem hd hseg] at hlt
      exact absurd hlt (lt_irrefl _)
    · rw [heq]
      exact .refl _
    · have hfalse := any_eq_false.mp (hsame.resolve_left hdamage) seg hseg
      refine absurd ?_ hfalse
      rw [TailIndex.changed, Bool.or_eq_true, decide_eq_true_iff, decide_eq_true_iff]
      exact hchanged.imp_right fun hlt => hlt.ne'

end Grafx.Log
