import OktoGrafx.Log.TruncateRuns

/-! What a participant remembers of the log: for each segment its size and the numbers of the records it
could read, the last number, and the damage if there is any. -/

namespace Grafx.Log

open List Wal

structure TailIndex where
  segments : List SegmentInfo
  lastLsn : ℕ
  maxEpoch : ℕ
  damage : Option ScanFailure
  nextNumber : ℕ
  deriving DecidableEq

def noteRecord (info : SegmentInfo) (r : WalRecord) : SegmentInfo :=
  { info with
    firstLsn := if info.firstLsn = noLsn then r.lsn else info.firstLsn
    lastLsn := r.lsn
    recordCount := info.recordCount + 1 }

def ScanItem.recordIn (number : ℕ) : ScanItem → Option WalRecord
  | record segment _ r => if segment = number then some r else none
  | failure _ => none

def recordsIn (number : ℕ) (items : List ScanItem) : List WalRecord := items.filterMap (ScanItem.recordIn number)

def infoOf (known : ℕ → SegmentInfo) (good : List ScanItem) (seg : Segment) : SegmentInfo :=
  (recordsIn seg.number good).foldl noteRecord { known seg.number with sizeBytes := seg.data.length }

def unread (number : ℕ) : SegmentInfo := ⟨number, noLsn, noLsn, 0, 0⟩

def goodItems (items : List ScanItem) : List ScanItem := items.takeWhile fun item => item.wanted everyRecord

def ScanItem.failure? : ScanItem → Option ScanFailure
  | record .. => none
  | failure f => some f

def sizeOf (d : Directory) (number : ℕ) : ℕ := ((d.find? fun seg => decide (seg.number = number)).map fun seg => seg.data.length).getD 0

def damageOf (d : Directory) (found : List ScanItem × Option ℕ) (last : ℕ) : Option ScanFailure :=
  (found.1.findSome? ScanItem.failure?).or
    (found.2.map fun number => ⟨.unreadableSegment, number, 0, sizeOf d number, last + 1⟩)

def nextNumberOf (d : Directory) : ℕ := (d.getLast?.map fun seg => seg.number + 1).getD minSegmentNumber

def maxEpochOf (start : ℕ) (rs : List WalRecord) : ℕ := (rs.map WalRecord.epoch).foldl max start

def rescan (d : Directory) : TailIndex :=
  let found := walk none d
  let good := goodItems found.1
  let last := lastLsn (good.filterMap ScanItem.record?)
  ⟨(live d).map (infoOf unread good), last, maxEpochOf 0 (good.filterMap ScanItem.record?), damageOf d found last, nextNumberOf d⟩

variable {keep : WalRecord → Bool} {expected : Option ℕ} {rs : List WalRecord} {seg cut : Segment} {d segs before later : Directory}
  {groups : List (List WalRecord)} {number : ℕ} {items : List ScanItem}

theorem nextNumberOf_fresh (hd : Ordered d) : Fresh (nextNumberOf d) d := by
  intro seg hseg
  obtain ⟨last, hlast⟩ : ∃ last, d.getLast? = some last := ⟨_, getLast?_eq_some_getLast (ne_nil_of_mem hseg)⟩
  obtain ⟨front, rfl⟩ := getLast?_eq_some_iff.mp hlast
  have hnext : nextNumberOf (front ++ [last]) = last.number + 1 := by
    rw [nextNumberOf, hlast]
    rfl
  rw [hnext]
  rcases mem_append.mp hseg with hseg | hseg
  · exact Nat.lt_succ_of_lt ((pairwise_append.mp hd).2.2 seg hseg last mem_cons_self)
  · rw [mem_singleton.mp hseg]
    exact Nat.lt_succ_self _

/-! ## The accounting of a segment -/

theorem foldl_noteRecord (info : SegmentInfo) (rs : List WalRecord) :
    (rs.foldl noteRecord info).number = info.number ∧ (rs.foldl noteRecord info).sizeBytes = info.sizeBytes ∧
      (rs.foldl noteRecord info).recordCount = info.recordCount + rs.length ∧
      (rs.foldl noteRecord info).lastLsn = (rs.getLast?.map WalRecord.lsn).getD info.lastLsn := by
  induction rs generalizing info with
  | nil => exact ⟨rfl, rfl, rfl, rfl⟩
  | cons r rs ih =>
    obtain ⟨hnumber, hsize, hcount, hlast⟩ := ih (noteRecord info r)
    refine ⟨hnumber, hsize, ?_, ?_⟩
    · rw [foldl_cons, hcount, length_cons, noteRecord, add_assoc, add_comm 1]
    · rw [foldl_cons, hlast, getLast?_cons]
      cases rs.getLast? <;> rfl

theorem infoOf_unread (good : List ScanItem) (seg : Segment) :
    (infoOf unread good seg).number = seg.number ∧ (infoOf unread good seg).recordCount = (recordsIn seg.number good).length ∧
      (infoOf unread good seg).lastLsn = lastLsn (recordsIn seg.number good) := by
  obtain ⟨hnumber, -, hcount, hlast⟩ := foldl_noteRecord { unread seg.number with sizeBytes := seg.data.length } (recordsIn seg.number good)
  exact ⟨hnumber, hcount.trans (zero_add _), hlast⟩

/-! ## Records in sequence ascend -/

theorem Run.gt (h : Run keep expected rs) {lsn : ℕ} (hlsn : expected = some lsn) : ∀ r ∈ rs, lsn ≤ r.lsn := by
  induction h generalizing lsn with
  | nil => exact nofun
  | cons _ _ hnext _ ih =>
    have heq := hnext lsn hlsn
    intro x hx
    rcases mem_cons.mp hx with rfl | hx
    · exact heq.ge
    · have hle := ih rfl x hx
      omega

theorem Run.pairwise (h : Run keep expected rs) : rs.Pairwise fun a b => a.lsn < b.lsn := by
  induction h with
  | nil => exact List.Pairwise.nil
  | cons _ _ _ hrest ih => exact pairwise_cons.mpr ⟨fun x hx => hrest.gt rfl x hx, ih⟩

theorem le_lastLsn (h : rs.Pairwise fun a b => a.lsn < b.lsn) : ∀ r ∈ rs, r.lsn ≤ lastLsn rs := by
  intro r hr
  obtain ⟨x, hx⟩ : ∃ x, rs.getLast? = some x := by
    cases hlast : rs.getLast? with
    | none =>
      rw [getLast?_eq_none_iff.mp hlast] at hr
      cases hr
    | some x => exact ⟨x, rfl⟩
  obtain ⟨front, rfl⟩ := getLast?_eq_some_iff.mp hx
  have heq : lastLsn (front ++ [x]) = x.lsn := by rw [lastLsn, hx]; rfl
  rw [heq]
  rcases mem_append.mp hr with hr | hr
  · exact ((pairwise_append.mp h).2.2 r hr x mem_cons_self).le
  · rw [mem_singleton.mp hr]

/-! ## Where items come from -/

def ScanItem.segment : ScanItem → ℕ
  | record segment _ _ => segment
  | failure f => f.segment

theorem walkBytes_segment {segment budget fuel offset candidates spent : ℕ} {rest : Bytes} :
    ∀ item ∈ (walkBytes segment budget fuel offset expected candidates spent rest).1, item.segment = segment := by
  induction fuel generalizing offset expected candidates spent rest with
  | zero => exact nofun
  | succ fuel ih =>
    intro item hitem
    rw [walkBytes] at hitem
    split at hitem
    · cases hitem
    split at hitem
    · rcases mem_append.mp hitem with hitem | hitem
      · unfold discontinuity at hitem
        split at hitem
        · cases hitem
        · split at hitem
          · cases hitem
          · rw [mem_singleton.mp hitem]
            rfl
      · rcases mem_cons.mp hitem with rfl | hitem
        · rfl
        · exact ih item hitem
    · split at hitem
      · rw [mem_singleton.mp hitem]
        rfl
      split at hitem
      · rcases mem_cons.mp hitem with rfl | hitem
        · rfl
        · exact ih item hitem
      split at hitem
      · rw [mem_singleton.mp hitem]
        rfl
      · rcases mem_cons.mp hitem with rfl | hitem
        · rfl
        · exact ih item hitem

theorem walk_segment_mem : ∀ item ∈ (walk expected segs).1, ∃ seg ∈ segs, item.segment = seg.number := by
  induction segs generalizing expected with
  | nil => exact nofun
  | cons seg segs ih =>
    intro item hitem
    by_cases hsize : seg.data.length ≤ maxSegmentReadBytes
    · rw [walk_cons hsize] at hitem
      rcases mem_append.mp hitem with hitem | hitem
      · exact ⟨seg, mem_cons_self, walkBytes_segment item hitem⟩
      · obtain ⟨x, hx, heq⟩ := ih item hitem
        exact ⟨x, mem_cons_of_mem _ hx, heq⟩
    · rw [walk_oversized (not_le.mp hsize)] at hitem
      cases hitem

theorem mem_recordItems {segment offset : ℕ} : ∀ item ∈ recordItems segment offset rs, item.segment = segment := by
  induction rs generalizing offset with
  | nil => exact nofun
  | cons r rs ih => exact forall_mem_cons.mpr ⟨rfl, ih⟩

theorem recordsIn_append (items' : List ScanItem) : recordsIn number (items ++ items') = recordsIn number items ++ recordsIn number items' :=
  filterMap_append

theorem recordsIn_of_ne (h : ∀ item ∈ items, item.segment ≠ number) : recordsIn number items = [] := by
  apply filterMap_eq_nil_iff.mpr
  intro item hitem
  cases item with
  | record segment offset r => exact if_neg (h _ hitem)
  | failure f => rfl

theorem recordsIn_sublist : (recordsIn number items).Sublist (items.filterMap ScanItem.record?) := by
  induction items with
  | nil => exact List.Sublist.refl _
  | cons item items ih =>
    cases item with
    | record segment offset r =>
      by_cases h : segment = number
      · simpa [recordsIn, ScanItem.recordIn, ScanItem.record?, h] using ih
      · simpa [recordsIn, ScanItem.recordIn, ScanItem.record?, h] using ih.cons r
    | failure f => exact ih

theorem mem_recordsIn {r : WalRecord} : r ∈ recordsIn number items ↔ ∃ offset, ScanItem.record number offset r ∈ items := by
  constructor
  · intro h
    obtain ⟨item, hitem, hr⟩ := mem_filterMap.mp h
    cases item with
    | record segment offset r' =>
      simp only [ScanItem.recordIn] at hr
      split at hr
      · rename_i hsegment
        cases hr
        exact ⟨offset, hsegment ▸ hitem⟩
      · cases hr
    | failure f => cases hr
  · rintro ⟨offset, hitem⟩
    exact mem_filterMap.mpr ⟨_, hitem, if_pos rfl⟩

end Grafx.Log
