import OktoGrafx.Log.Moved
import OktoGrafx.Log.Participants

/-! What an append makes of the log and of the index it started from: the records stand behind the last
one, and the index that took the write into account is the one a full pass would find. -/

namespace Grafx.Log

open List Interrupt Wal

variable {d d' front segs : Directory} {groups : List (List WalRecord)} {rs : List WalRecord} {more data : Bytes} {number next : ℕ} {ix : TailIndex}
  {a : Append} {seg t : Segment} {expected : Option ℕ} {info : SegmentInfo}

inductive Written (d d' : Directory) (number : ℕ) (more : Bytes) : Prop
  | grown {front : Directory} {data : Bytes} : live d = front ++ [⟨number, data⟩] → data ≠ [] → live d' = front ++ [⟨number, data ++ more⟩] →
      Written d d' number more
  | added : number ∉ (live d).map Segment.number → live d' = live d ++ [⟨number, more⟩] → Written d d' number more

theorem written (hd : Ordered d) (hmem : ∃ seg ∈ d, seg.number = number) (htop : ∀ seg ∈ live d, seg.number ≤ number) (hmore : more ≠ []) :
    Written d ((FileOp.append number more).apply d) number more := by
  rcases live_written hd hmem htop hmore with ⟨front, data, hlive, hdata, hlive'⟩ | ⟨hnot, hlive'⟩
  · exact .grown hlive hdata hlive'
  · exact .added hnot hlive'

theorem Clean.last (h : Clean everyRecord expected (segs ++ [t]) groups) :
    ∃ front rt, groups = front ++ [rt] ∧ Clean everyRecord expected segs front ∧ t.data = imagesOf rt ∧
      Run everyRecord (after expected front.flatten) rt := by
  obtain ⟨front, back, rfl, hfront, hback⟩ := h.of_append
  cases hback with
  | cons hdata _ hrun hrest =>
    cases hrest
    exact ⟨front, _, rfl, hfront, hdata, hrun⟩

/-! ## The log -/

theorem Written.sound (h : Written d d' number more) (hclean : Clean everyRecord none (live d) groups)
    (hrun : Run everyRecord (after none groups.flatten) rs) (hpart : more <+: imagesOf rs)
    (hsize : ∀ seg ∈ live d', seg.data.length ≤ maxSegmentReadBytes) :
    ∃ groups' rs', Sound none (live d') groups' ∧ groups'.flatten = groups.flatten ++ rs' ∧ rs' <+: rs := by
  obtain ⟨rs', tail, rfl, hfirsts, htail⟩ := exists_tear hrun hpart
  obtain ⟨rest, rfl⟩ := hfirsts
  have hrun' := hrun.of_append.1
  cases h with
  | @grown front data hlive _ hlive' =>
    rw [hlive] at hclean
    obtain ⟨groups, rt, rfl, hfront, hdata, hrt⟩ := hclean.last
    have hdata' : data ++ (imagesOf rs' ++ tail) = imagesOf (rt ++ rs') ++ tail := by
      rw [imagesOf_append, append_assoc, show data = imagesOf rt from hdata]
    rw [flatten_append, flatten_singleton, after_append] at hrun'
    have hmem : (⟨number, data ++ (imagesOf rs' ++ tail)⟩ : Segment) ∈ live d' := hlive' ▸ mem_concat_self
    refine ⟨groups ++ [rt ++ rs'], rs', ?_, ?_, prefix_append _ _⟩
    · rw [hlive']
      exact hfront.append_torn hdata' (hsize _ hmem) (hrt.append hrun') htail
    · rw [flatten_append, flatten_append, flatten_singleton, flatten_singleton, append_assoc]
  | added _ hlive' =>
    have hmem : (⟨number, imagesOf rs' ++ tail⟩ : Segment) ∈ live d' := hlive' ▸ mem_concat_self
    refine ⟨groups ++ [rs'], rs', ?_, ?_, prefix_append _ _⟩
    · rw [hlive']
      exact hclean.append_torn rfl (hsize _ hmem) hrun' htail
    · rw [flatten_append, flatten_singleton]

/-! ## Where an append goes -/

theorem Prepared.run (h : Prepared ix a) (hlast : ix.lastLsn = lastLsn rs) : Run everyRecord (after none rs) a.records := by
  apply run_of_lsns h.readable h.lsns
  intro n hn
  by_cases hrs : rs = []
  · rw [hrs] at hn
    cases hn
  · rw [after_last hrs, ← hlast] at hn
    exact (Option.some.inj hn).symm

theorem Prepared.assigned (h : Prepared ix a) : ∀ r ∈ a.records, r.lsn ≠ noLsn := by
  intro r hr hzero
  have hmem : r.lsn ∈ a.records.map WalRecord.lsn := mem_map_of_mem hr
  rw [h.lsns, hzero, mem_range'_1] at hmem
  exact absurd hmem.1 (Nat.not_succ_le_zero _)

structure Target (d d' : Directory) (a : Append) : Prop where
  mem : ∃ seg ∈ d', seg.number = a.number
  top : ∀ seg ∈ live d', seg.number ≤ a.number
  live : live d' = live d
  ordered : Ordered d'

theorem runOps_creates (a : Append) (d : Directory) :
    runOps a.creates d = if a.rolling then (FileOp.create a.number).apply d else d := by
  rw [Append.creates]
  split <;> rfl

theorem Prepared.opened (h : Prepared ix a) (hd : Ordered d) (hfresh : Fresh ix.nextNumber d)
    (htail : ∀ t, ix.segments.getLast? = some t → ∃ seg ∈ d, seg.number = t.number ∧ seg.data.length = t.sizeBytes) :
    Ordered (runOps a.creates d) ∧ ∀ seg ∈ runOps a.creates d, seg.number = a.number → seg.data.length = a.sizeBefore ix := by
  rw [runOps_creates, Append.sizeBefore]
  rcases h.place with ⟨hrolling, hnumber, -⟩ | ⟨hrolling, -, t, ht, hnumber, -⟩
  · rw [← hnumber] at hfresh
    rw [if_pos hrolling, if_pos hrolling]
    refine ⟨(Move.create a.number).ordered hd hfresh, ?_⟩
    intro seg hseg hsame
    rcases mem_append.mp hseg with hold | hnew
    · exact absurd hsame (hfresh seg hold).ne
    · rw [mem_singleton.mp hnew]
      rfl
  · rw [hrolling, if_neg Bool.false_ne_true, if_neg Bool.false_ne_true, lastSize, ht]
    refine ⟨hd, ?_⟩
    obtain ⟨tail, htail, hsame, hlength⟩ := htail t ht
    intro seg hseg heq
    rw [← sizeOf_mem hd hseg, heq, hnumber, ← hsame, sizeOf_mem hd htail, hlength]
    rfl

theorem cut_append (hsize : ∀ seg ∈ d, seg.number = number → seg.data.length = next) (more : Bytes) :
    (FileOp.cut number next).apply ((FileOp.append number more).apply d) = d := by
  rw [FileOp.apply, FileOp.apply, map_map]
  refine map_unchanged fun seg hseg => ?_
  by_cases hnumber : seg.number = number
  · simp only [Function.comp_apply, appendTo, cutTo, if_pos hnumber]
    rw [take_left' (hsize seg hseg hnumber)]
  · simp [appendTo, cutTo, hnumber]

theorem Prepared.last_live (h : ix.Agrees (rescan d)) (ht : ix.segments.getLast? = some info) :
    ∃ front t, live d = front ++ [t] ∧ info = infoOf unread (goodItems (walk none d).1) t := by
  rw [h.segments] at ht
  have hmap : ((live d).map (infoOf unread (goodItems (walk none d).1))).getLast? = some info := ht
  rw [getLast?_map] at hmap
  obtain ⟨t, htd, rfl⟩ := Option.map_eq_some_iff.mp hmap
  obtain ⟨front, hfront⟩ := getLast?_eq_some_iff.mp htd
  exact ⟨front, t, hfront, rfl⟩

theorem Prepared.target (h : Prepared ix a) (hd : Ordered d) (hagrees : ix.Agrees (rescan d)) (hfresh : Fresh ix.nextNumber d) :
    Target d (runOps a.creates d) a := by
  rw [runOps_creates]
  rcases h.place with ⟨hrolling, hnumber, -, -⟩ | ⟨hrolling, -, info, hinfo, hnumber, -⟩
  · rw [if_pos hrolling]
    rw [← hnumber] at hfresh
    have hlive := live_create a.number d
    refine ⟨⟨⟨a.number, []⟩, mem_concat_self, rfl⟩, ?_, hlive, (Move.create a.number).ordered hd hfresh⟩
    rw [hlive]
    exact fun seg hseg => (hfresh seg (live_mem hseg)).le
  · rw [hrolling, if_neg Bool.false_ne_true]
    obtain ⟨front, t, hfront, rfl⟩ := Prepared.last_live hagrees hinfo
    rw [(infoOf_unread _ t).1] at hnumber
    have ht : t ∈ live d := hfront ▸ mem_concat_self
    refine ⟨⟨t, live_mem ht, hnumber.symm⟩, ?_, rfl, hd⟩
    have horder := hd.live
    rw [hfront] at horder ⊢
    intro seg hseg
    rw [hnumber]
    rcases mem_append.mp hseg with hseg | hseg
    · exact ((pairwise_append.mp horder).2.2 seg hseg t mem_cons_self).le
    · rw [mem_singleton.mp hseg]

/-! ## The index -/

theorem foldl_noteRecord_firstLsn (h : info.firstLsn ≠ noLsn) (rs : List WalRecord) : (rs.foldl noteRecord info).firstLsn = info.firstLsn := by
  induction rs generalizing info with
  | nil => rfl
  | cons r rs ih =>
    have hnote : (noteRecord info r).firstLsn = info.firstLsn := if_neg h
    rw [foldl_cons, ih (hnote ▸ h), hnote]

theorem foldl_noteRecord_assigned (info : SegmentInfo) (hrs : rs ≠ []) (h : ∀ r ∈ rs, r.lsn ≠ noLsn) : (rs.foldl noteRecord info).firstLsn ≠ noLsn := by
  obtain ⟨r, rs, rfl⟩ := exists_cons_of_ne_nil hrs
  have hnote : (noteRecord info r).firstLsn ≠ noLsn := by
    show (if info.firstLsn = noLsn then r.lsn else info.firstLsn) ≠ noLsn
    split
    · exact h r mem_cons_self
    · assumption
  rw [foldl_cons, foldl_noteRecord_firstLsn hnote]
  exact hnote

theorem foldl_noteRecord_more (h : info.firstLsn ≠ noLsn) (hrs : rs ≠ []) :
    rs.foldl noteRecord info = { info with lastLsn := lastLsn rs, recordCount := info.recordCount + rs.length } := by
  obtain ⟨hnumber, hsize, hcount, hlast⟩ := foldl_noteRecord info rs
  have hfirst := foldl_noteRecord_firstLsn h rs
  obtain ⟨r, hr⟩ := exists_last hrs
  have hlast' : lastLsn rs = r.lsn := by
    rw [lastLsn, hr]
    rfl
  rw [hr] at hlast
  have hlast'' : (rs.foldl noteRecord info).lastLsn = lastLsn rs := hlast.trans hlast'.symm
  cases hfold : rs.foldl noteRecord info with
  | mk number firstLsn lastLsn sizeBytes recordCount =>
    rw [hfold] at hnumber hsize hcount hfirst hlast''
    simp only at hnumber hsize hcount hfirst hlast''
    rw [hnumber, hsize, hcount, hfirst, hlast'']

theorem infoOf_other {good : List ScanItem} {number : ℕ} (offset : ℕ) (rs : List WalRecord) (h : number ≠ seg.number) :
    infoOf unread (good ++ recordItems number offset rs) seg = infoOf unread good seg := by
  have hnone : recordsIn seg.number (recordItems number offset rs) = [] :=
    recordsIn_of_ne fun item hitem => mem_recordItems item hitem ▸ h
  rw [infoOf, infoOf, recordsIn_append, hnone, append_nil]

theorem agrees_clean (hd : Ordered d) (h : ix.Agrees (rescan d)) (hclean : Clean everyRecord none (live d) groups) :
    ix.segments = (live d).map (infoOf unread (cleanItems (live d) groups)) ∧ ix.lastLsn = lastLsn groups.flatten ∧ ix.damage = none := by
  obtain ⟨hsegments, hlast, hdamage⟩ := hclean.rescan (live_live d)
  have hlive := h.trans (rescan_live hd)
  exact ⟨hlive.segments.trans hsegments, hlive.lastLsn.trans hlast, hlive.damage.trans hdamage⟩

theorem agrees_of_clean (hd : Ordered d) (hclean : Clean everyRecord none (live d) groups)
    (hsegments : ix.segments = (live d).map (infoOf unread (cleanItems (live d) groups))) (hlast : ix.lastLsn = lastLsn groups.flatten)
    (hdamage : ix.damage = none) : ix.Agrees (rescan d) := by
  obtain ⟨hsegments', hlast', hdamage'⟩ := hclean.rescan (live_live d)
  refine TailIndex.Agrees.trans ⟨?_, ?_, ?_⟩ (rescan_live hd).symm
  · exact hsegments.trans hsegments'.symm
  · exact hlast.trans hlast'.symm
  · exact hdamage.trans hdamage'.symm

section
variable (h : Prepared ix a)
include h

theorem Prepared.lastLsn_records (rs : List WalRecord) : lastLsn a.stamped = lastLsn (rs ++ a.records) := by
  rw [Append.records, ← append_assoc, lastLsn_append h.stamped]

theorem Prepared.new_info {header : WalRecord} (hheader : a.header = [header]) :
    a.records.foldl noteRecord { unread a.number with sizeBytes := a.blob.length } =
      ⟨a.number, (a.stamped.head?.map WalRecord.lsn).getD 0 - 1, lastLsn a.stamped, a.blob.length, a.stamped.length + 1⟩ := by
  have hrecords : a.records = header :: a.stamped := by
    rw [Append.records, hheader]
    rfl
  have hassigned : header.lsn ≠ noLsn := h.assigned header (hrecords ▸ mem_cons_self)
  have hlsns := h.lsns
  rw [hrecords, map_cons, length_cons, range'_succ] at hlsns
  obtain ⟨hfirst, hrest⟩ := cons.inj hlsns
  have hhead : (a.stamped.head?.map WalRecord.lsn).getD 0 - 1 = header.lsn := by
    rw [(ends_of_lsns hrest h.stamped).1, hfirst]
    rfl
  have hnote : (noteRecord { unread a.number with sizeBytes := a.blob.length } header).firstLsn ≠ noLsn := hassigned
  rw [hrecords, foldl_cons, foldl_noteRecord_more hnote h.stamped, hhead]
  show (⟨a.number, header.lsn, lastLsn a.stamped, a.blob.length, 0 + 1 + a.stamped.length⟩ : SegmentInfo) = _
  rw [zero_add, add_comm 1]

variable (hd : Ordered d) (hd' : Ordered d') (hagrees : ix.Agrees (rescan d)) (hclean : Clean everyRecord none (live d) groups)
  (hsize : ∀ seg ∈ live d', seg.data.length ≤ maxSegmentReadBytes)
include hd hd' hagrees hclean hsize

theorem Prepared.registered_added (hrolling : a.rolling = true) (hnot : a.number ∉ (live d).map Segment.number)
    (hlive' : live d' = live d ++ [⟨a.number, a.blob⟩]) : (registerAppend ix a).Agrees (rescan d') := by
  obtain ⟨hsegments, hlast, hdamage⟩ := agrees_clean hd hagrees hclean
  obtain ⟨header, hheader⟩ : ∃ header, a.header = [header] := by
    rcases h.place with ⟨-, -, hheader, -⟩ | ⟨hfalse, -⟩
    · exact hheader
    · rw [hrolling] at hfalse
      cases hfalse
  have hmem : (⟨a.number, a.blob⟩ : Segment) ∈ live d' := hlive' ▸ mem_concat_self
  have hclean' : Clean everyRecord none (live d') (groups ++ [a.records]) := by
    rw [hlive']
    exact hclean.append (.cons rfl (hsize _ hmem) (h.run hlast) .nil)
  have hitems := hclean.items_append ⟨a.number, a.blob⟩ a.records
  have hne : ∀ seg ∈ live d, seg.number ≠ a.number := fun seg hseg hsame => hnot (hsame ▸ mem_map_of_mem hseg)
  apply agrees_of_clean hd' hclean'
  · show (if a.rolling then ix.segments ++ [_] else _) = _
    rw [if_pos hrolling, hlive', hitems, map_append, hsegments]
    congr 1
    · exact map_congr_left fun seg hseg => (infoOf_other 0 _ (hne seg hseg).symm).symm
    · rw [map_singleton, infoOf, recordsIn_append, recordsIn_cleanItems hne, nil_append, recordsIn_recordItems, ← h.new_info hheader]
  · show lastLsn a.stamped = _
    rw [flatten_append, flatten_singleton, h.lastLsn_records]
  · exact hdamage

theorem Prepared.registered_grown (hassigned : ∀ r ∈ groups.flatten, r.lsn ≠ noLsn) (hrolling : a.rolling = false)
    (hlive : live d = front ++ [⟨a.number, data⟩]) (hdata : data ≠ []) (hlive' : live d' = front ++ [⟨a.number, data ++ a.blob⟩]) :
    (registerAppend ix a).Agrees (rescan d') := by
  obtain ⟨hsegments, hlast, hdamage⟩ := agrees_clean hd hagrees hclean
  have hrecords : a.records = a.stamped := by
    rcases h.place with ⟨htrue, -⟩ | ⟨-, hheader, -⟩
    · rw [hrolling] at htrue
      cases htrue
    · rw [Append.records, hheader]
      rfl
  have hblob : a.blob = imagesOf a.stamped := by rw [Append.blob, hrecords]
  have hrun := h.run hlast
  have horder := hd.live
  rw [hlive] at hclean hsegments horder
  have hbefore : ∀ x ∈ front, x.number < a.number := fun x hx => (pairwise_append.mp horder).2.2 x hx _ mem_cons_self
  obtain ⟨groups, rt, rfl, hfront, hrt, hrunt⟩ := hclean.last
  have hrt : data = imagesOf rt := hrt
  rw [flatten_append, flatten_singleton, after_append, hrecords] at hrun
  have hmem : (⟨a.number, data ++ a.blob⟩ : Segment) ∈ live d' := hlive' ▸ mem_concat_self
  have hclean' : Clean everyRecord none (live d') (groups ++ [rt ++ a.stamped]) := by
    rw [hlive']
    refine hfront.append (.cons ?_ (hsize _ hmem) (hrunt.append hrun) .nil)
    rw [imagesOf_append, ← hrt, hblob]
  obtain ⟨old, hold⟩ : ∃ old, cleanItems (front ++ [⟨a.number, data⟩]) (groups ++ [rt]) = old := ⟨_, rfl⟩
  have hitems : cleanItems (live d') (groups ++ [rt ++ a.stamped]) = old ++ recordItems a.number (0 + (imagesOf rt).length) a.stamped := by
    rw [hlive', hfront.items_append, recordItems_append, ← hold, hfront.items_append, append_assoc]
  rw [hold] at hsegments
  -- the first record of the segment that grew is numbered
  have hfirst : (infoOf unread old ⟨a.number, data⟩).firstLsn ≠ noLsn := by
    have hrecs : recordsIn a.number old = rt := by
      rw [← hold, hfront.items_append, recordsIn_append, recordsIn_cleanItems fun x hx => (hbefore x hx).ne, nil_append, recordsIn_recordItems]
    have hne : rt ≠ [] := by
      rintro rfl
      exact hdata hrt
    rw [infoOf, hrecs]
    apply foldl_noteRecord_assigned _ hne
    intro r hr
    apply hassigned
    rw [flatten_append, flatten_singleton]
    exact mem_append_right _ hr
  apply agrees_of_clean hd' hclean'
  · show (if a.rolling then _ else ix.segments.dropLast ++ ix.segments.getLast?.toList.map (growInfo a)) = _
    rw [if_neg (by rw [hrolling]; exact Bool.false_ne_true), hlive', ← hlive', hitems, hlive', hsegments, map_append, map_append,
      map_singleton, map_singleton, dropLast_concat, getLast?_concat]
    congr 1
    · exact map_congr_left fun seg hseg => (infoOf_other _ _ (hbefore seg hseg).ne').symm
    · have hgrown : infoOf unread old ⟨a.number, data ++ a.blob⟩ =
          { infoOf unread old ⟨a.number, data⟩ with sizeBytes := (data ++ a.blob).length } := by
        rw [infoOf, infoOf, foldl_noteRecord_size]
      have hmore : infoOf unread (old ++ recordItems a.number (0 + (imagesOf rt).length) a.stamped) ⟨a.number, data ++ a.blob⟩ =
          a.stamped.foldl noteRecord { infoOf unread old ⟨a.number, data⟩ with sizeBytes := (data ++ a.blob).length } := by
        rw [infoOf_append, hgrown, infoOf, recordsIn_recordItems]
      have hsized : ({ infoOf unread old ⟨a.number, data⟩ with sizeBytes := (data ++ a.blob).length } : SegmentInfo).firstLsn ≠ noLsn := hfirst
      rw [hmore, foldl_noteRecord_more hsized h.stamped]
      show [growInfo a _] = _
      rw [growInfo, infoOf_size, length_append]
  · show lastLsn a.stamped = _
    rw [flatten_append, flatten_singleton, ← append_assoc, lastLsn_append h.stamped]
  · exact hdamage

end

/-! ## Appends as steps -/

structure Accepted (ix : TailIndex) (d : Directory) (a : Append) : Prop where
  prepared : Prepared ix a
  ordered : Ordered d
  agrees : ix.Agrees (rescan d)
  fresh : Fresh ix.nextNumber d
  healthy : Healthy d

variable (h : Accepted ix d a)
include h

theorem Accepted.clean :
    ∃ groups, Clean everyRecord none (live d) groups ∧ ix.lastLsn = lastLsn groups.flatten ∧ ∀ r ∈ groups.flatten, r.lsn ≠ noLsn := by
  obtain ⟨groups, hclean⟩ := clean_of_undamaged (h.agrees.damage.symm.trans h.prepared.undamaged)
  refine ⟨groups, hclean, (agrees_clean h.ordered h.agrees hclean).2.1, ?_⟩
  intro r hr
  exact h.healthy.assigned r (hclean.sound.readable.symm ▸ hr)

theorem Accepted.target : Target d (runOps a.creates d) a := h.prepared.target h.ordered h.agrees h.fresh

theorem Accepted.written (hmore : more ≠ []) : Written d ((FileOp.append a.number more).apply (runOps a.creates d)) a.number more := by
  have htarget := h.target
  cases Log.written htarget.ordered htarget.mem htarget.top hmore with
  | grown hlive hdata hlive' => exact .grown (htarget.live ▸ hlive) hdata hlive'
  | added hnot hlive' => exact .added (htarget.live ▸ hnot) (htarget.live ▸ hlive')

theorem Accepted.sizes (hpart : more <+: a.blob) (hmore : more ≠ []) :
    ∀ seg ∈ live ((FileOp.append a.number more).apply (runOps a.creates d)), seg.data.length ≤ maxSegmentReadBytes := by
  obtain ⟨groups, hclean, -, -⟩ := h.clean
  have hold : ∀ seg ∈ live d, seg.data.length ≤ maxSegmentReadBytes := by
    intro seg hseg
    obtain ⟨front, back, hsplit⟩ := append_of_mem hseg
    rw [hsplit] at hclean
    obtain ⟨_, _, _, _, _, hsize, _⟩ := hclean.sound.split
    exact hsize
  have hle := hpart.length_le
  cases h.written hmore with
  | @grown front data hlive _ hlive' =>
    rw [hlive']
    intro seg hseg
    rcases mem_append.mp hseg with hseg | hseg
    · exact hold seg (hlive ▸ mem_append_left _ hseg)
    · rw [mem_singleton.mp hseg]
      have hmem : (⟨a.number, data⟩ : Segment) ∈ live d := hlive ▸ mem_concat_self
      rcases h.prepared.place with ⟨-, hnumber, -, -⟩ | ⟨-, -, info, hinfo, -, hroom⟩
      · exact absurd (h.fresh _ (live_mem hmem)) (hnumber ▸ lt_irrefl _)
      · obtain ⟨front', t, ht, rfl⟩ := Prepared.last_live h.agrees hinfo
        obtain rfl := (cons.inj (append_inj' (hlive.symm.trans ht) rfl).2).1
        rw [infoOf_size] at hroom
        rw [length_append]
        exact (Nat.add_le_add_left hle _).trans hroom
  | added hnot hlive' =>
    rw [hlive']
    intro seg hseg
    rcases mem_append.mp hseg with hseg | hseg
    · exact hold seg hseg
    · rw [mem_singleton.mp hseg]
      refine hle.trans ?_
      rcases h.prepared.place with ⟨-, -, -, hroom⟩ | ⟨-, -, _, -, -, hroom⟩
      · exact hroom
      · exact (Nat.le_add_left _ _).trans hroom

theorem Accepted.healthy_written (hpart : more <+: a.blob) (hmore : more ≠ []) :
    Healthy ((FileOp.append a.number more).apply (runOps a.creates d)) := by
  obtain ⟨groups, hclean, hlast, hassigned⟩ := h.clean
  obtain ⟨groups', rs', hsound, hflatten, hfirsts⟩ := (h.written hmore).sound hclean (h.prepared.run hlast) hpart (h.sizes hpart hmore)
  refine ⟨⟨groups', hsound⟩, ?_⟩
  intro r hr
  rw [hsound.readable, hflatten] at hr
  rcases mem_append.mp hr with hr | hr
  · exact hassigned r hr
  · exact h.prepared.assigned r (hfirsts.mem hr)

theorem Accepted.created : Relation.ReflTransGen CarefulStep d (runOps a.creates d) := by
  rw [runOps_creates]
  split
  · rename_i hrolling
    have hfresh : Fresh a.number d := by
      rcases h.prepared.place with ⟨-, hnumber, -, -⟩ | ⟨hfalse, -⟩
      · exact hnumber ▸ h.fresh
      · rw [hrolling] at hfalse
        cases hfalse
    exact .single ⟨.create a.number, hfresh, trivial, rfl⟩
  · exact .refl

theorem Accepted.steps (hpart : more <+: a.blob) : Relation.ReflTransGen CarefulStep d (runOps (a.creates ++ [.append a.number more]) d) := by
  rw [runOps, run_append]
  show Relation.ReflTransGen CarefulStep d ((FileOp.append a.number more).apply (runOps a.creates d))
  by_cases hmore : more = []
  · rw [hmore, append_nil_apply]
    exact h.created
  · have htarget := h.target
    exact h.created.tail ⟨.write a.number more, ⟨htarget.mem, htarget.top, h.healthy_written hpart hmore⟩, trivial, rfl⟩

theorem Accepted.blob_ne_nil : a.blob ≠ [] := by
  intro hnil
  have hrecords : a.header ++ a.stamped = [] := imagesOf_eq_nil.mp hnil
  exact h.prepared.stamped (append_eq_nil_iff.mp hrecords).2

theorem Accepted.registered : (registerAppend ix a).Agrees (rescan (runOps (a.creates ++ [.append a.number a.blob]) d)) := by
  rw [runOps, run_append]
  obtain ⟨groups, hclean, -, hassigned⟩ := h.clean
  have hsizes := h.sizes (prefix_refl _) h.blob_ne_nil
  have hordered' : Ordered ((FileOp.append a.number a.blob).apply (runOps a.creates d)) :=
    ordered_of_numbers h.target.ordered (append_numbers _ _ _)
  cases h.written h.blob_ne_nil with
  | @grown front data hlive hdata hlive' =>
    have hmem : (⟨a.number, data⟩ : Segment) ∈ live d := hlive ▸ mem_concat_self
    have hrolling : a.rolling = false := by
      rcases h.prepared.place with ⟨-, hnumber, -, -⟩ | ⟨hrolling, -⟩
      · exact absurd (h.fresh _ (live_mem hmem)) (hnumber ▸ lt_irrefl _)
      · exact hrolling
    exact h.prepared.registered_grown h.ordered hordered' h.agrees hclean hsizes hassigned hrolling hlive hdata hlive'
  | added hnot hlive' =>
    have hrolling : a.rolling = true := by
      rcases h.prepared.place with ⟨hrolling, -⟩ | ⟨-, -, info, hinfo, hnumber, -⟩
      · exact hrolling
      · obtain ⟨front, t, ht, rfl⟩ := Prepared.last_live h.agrees hinfo
        rw [(infoOf_unread _ t).1] at hnumber
        exact absurd (hnumber ▸ mem_map_of_mem (ht ▸ mem_concat_self)) hnot
    exact h.prepared.registered_added h.ordered hordered' h.agrees hclean hsizes hrolling hnot hlive'

end Grafx.Log
