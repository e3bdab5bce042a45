import OktoGrafx.Log.Follow

/-! What other participants do to the device between two looks at it, and what it looks like afterwards. -/

namespace Grafx.Log

open List Interrupt Wal
open ScanItem (record?)

inductive Move where
  | create (number : ℕ)
  | write (number : ℕ) (more : Bytes)
  | truncate (refuses : ℕ → Bool) (next target : ℕ)
  | recycle (refuses : ℕ → Bool) (horizon : ℕ)
  | cut (number size : ℕ)

def Move.apply : Move → Directory → Directory
  | create number, d => (FileOp.create number).apply d
  | write number more, d => (FileOp.append number more).apply d
  | truncate refuses next target, d => runOps (truncateAfter refuses next target d).ops d
  | recycle refuses horizon, d =>
    match Log.recycle refuses horizon (rescan d) d with
    | .ok (_, d') => d'
    | .error _ => d
  | cut number size, d => (FileOp.cut number size).apply d

/-- A new file has a number above all others, bytes go to the end of the log and continue it, and a cut takes bytes off
that end. -/
def Move.Allowed : Move → Directory → Prop
  | create number, d => Fresh number d
  | write number more, d =>
    (∃ seg ∈ d, seg.number = number) ∧ (∀ seg ∈ live d, seg.number ≤ number) ∧ Healthy ((FileOp.append number more).apply d)
  | truncate _ next _, d => Fresh next d
  | recycle .., _ => True
  | cut number size, d =>
    (∃ seg ∈ d, seg.number = number) ∧ (∀ seg ∈ live d, seg.number ≤ number) ∧ Healthy ((FileOp.cut number size).apply d)

/-- A cut keeps nothing, or lies inside a segment, or has nothing behind it. -/
def keepsNumbers (target : ℕ) (d : Directory) : Bool :=
  match findCut target (walk none (live d)).1 none with
  | none => true
  | some (number, offset) => decide (offset < sizeOf d number) || decide (∀ seg ∈ live d, seg.number ≤ number)

/-- Truncations run to their end and leave a higher number, recycling spares the last record, and nothing is cut off in place. -/
def Move.Careful : Move → Directory → Prop
  | truncate refuses next target, d =>
    (truncateAfter refuses next target d).ops = [] ∨ (truncateAfter refuses next target d).completed = true ∧ keepsNumbers target d = true
  | recycle refuses horizon, d => Spares refuses horizon d
  | cut .., _ => False
  | _, _ => True

variable {refuses : ℕ → Bool} {horizon next target number n : ℕ} {more : Bytes} {rs : List WalRecord} {tail : Bytes} {seg cut : Segment}
  {before later d d' segs front : Directory} {groups : List (List WalRecord)} {expected : Option ℕ}

/-! ## Writing -/

theorem live_append_list (front back : Directory) : live (front ++ back) = live front ++ live back := filter_append ..

theorem live_cons_of_ne_nil (h : seg.data ≠ []) (segs : Directory) : live (seg :: segs) = seg :: live segs := filter_cons_of_pos (decide_eq_true h)

theorem live_cons_of_nil (h : seg.data = []) (segs : Directory) : live (seg :: segs) = live segs :=
  filter_cons_of_neg (by simp [h])

theorem live_eq_self (h : ∀ seg ∈ segs, seg.data ≠ []) : live segs = segs := filter_eq_self.mpr fun seg hseg => decide_eq_true (h seg hseg)

theorem split_last (hd : Ordered d) (hmem : ∃ seg ∈ d, seg.number = number) (htop : ∀ seg ∈ live d, seg.number ≤ number) :
    ∃ front data back, d = front ++ ⟨number, data⟩ :: back ∧ live back = [] ∧
      ∀ f : Segment → Segment, (∀ seg, seg.number ≠ number → f seg = seg) → d.map f = front ++ f ⟨number, data⟩ :: back := by
  obtain ⟨⟨n, data⟩, hseg, rfl⟩ := hmem
  obtain ⟨front, back, rfl⟩ := append_of_mem hseg
  obtain ⟨-, hback, hfront⟩ := pairwise_append.mp hd
  have hfront := fun x hx => hfront x hx _ mem_cons_self
  have hback := (pairwise_cons.mp hback).1
  refine ⟨front, data, back, rfl, ?_, ?_⟩
  · apply eq_nil_iff_forall_not_mem.mpr
    intro x hx
    have hle := htop x (by
      rw [live_append_list]
      exact mem_append_right _ (mem_filter.mpr ⟨mem_cons_of_mem _ (live_mem hx), (mem_filter.mp hx).2⟩))
    exact not_le.mpr (hback x (live_mem hx)) hle
  · intro f hf
    rw [map_append, map_cons, map_unchanged fun x hx => hf x (hfront x hx).ne, map_unchanged fun x hx => hf x (hback x hx).ne']

theorem append_nil_apply (number : ℕ) (d : Directory) : (FileOp.append number []).apply d = d := by
  refine map_unchanged fun seg _ => ?_
  simp only [appendTo, append_nil]
  split <;> rfl

theorem ordered_of_numbers (h : Ordered d) (hnumbers : d'.map Segment.number = d.map Segment.number) : Ordered d' := by
  have hd : (d.map Segment.number).Pairwise (· < ·) := pairwise_map.mpr h
  rw [← hnumbers] at hd
  exact pairwise_map.mp hd

/-! ## Truncating -/

inductive Truncated (next : ℕ) (d d' : Directory) : Prop
  | same : d' = d → Truncated next d d'
  | moved {front gone new : Directory} : live d = front ++ gone → live d' = front ++ new → (∀ seg ∈ new, seg.number = next) →
      (∀ seg ∈ gone, seg.number ∉ d'.map Segment.number) → gone ≠ [] → (∀ n ∈ d'.map Segment.number, n ∈ d.map Segment.number ∨ n = next) →
      next ∈ d'.map Segment.number → Truncated next d d'

theorem mem_numbers_recycled (doomed d : Directory) :
    n ∈ (runOps (doomed.map fun seg => .recycle seg.number) d).map Segment.number ↔ n ∈ d.map Segment.number ∧ n ∉ doomed.map Segment.number := by
  rw [run_recycles]
  simp only [mem_map, mem_filter, decide_eq_true_iff]
  constructor
  · rintro ⟨seg, ⟨hseg, hnot⟩, rfl⟩
    exact ⟨⟨seg, hseg, rfl⟩, hnot⟩
  · rintro ⟨⟨seg, hseg, rfl⟩, hnot⟩
    exact ⟨seg, ⟨hseg, hnot⟩, rfl⟩

theorem mem_numbers_created (d : Directory) : n ∈ ((FileOp.create next).apply d).map Segment.number ↔ n ∈ d.map Segment.number ∨ n = next := by
  rw [FileOp.apply, map_append, mem_append]
  exact or_congr_right mem_singleton

theorem newSegment_completed {more : Truncation} (h : (newSegment next more).completed = true) :
    more.completed = true ∧ (newSegment next more).ops = .create next :: more.ops := by
  unfold newSegment at h ⊢
  split at h
  · rename_i hmax
    rw [if_pos hmax]
    exact ⟨h, rfl⟩
  · cases h

theorem truncated_of_numbers {new : Directory} (hnext : Fresh next d) (hlive : live d = front ++ cut :: later) (hlive' : live d' = front ++ new)
    (hnew : ∀ seg ∈ new, seg.number = next)
    (hnumbers : ∀ n, n ∈ d'.map Segment.number ↔
      ((n ∈ d.map Segment.number ∧ n ∉ later.reverse.map Segment.number) ∨ n = next) ∧ n ∉ [cut].map Segment.number) : Truncated next d d' := by
  have hfresh : ∀ x ∈ cut :: later, x.number ≠ next :=
    fun x hx => (hnext x (live_mem (hlive ▸ mem_append_right _ hx))).ne
  refine .moved hlive hlive' hnew ?_ (cons_ne_nil _ _) ?_ ?_
  · intro x hx hmem
    obtain ⟨hstays, hnot⟩ := (hnumbers _).mp hmem
    rcases mem_cons.mp hx with rfl | hxs
    · exact hnot mem_cons_self
    · rcases hstays with ⟨-, hreleased⟩ | heq
      · exact hreleased (mem_map_of_mem (mem_reverse.mpr hxs))
      · exact hfresh x hx heq
  · intro n hn
    exact ((hnumbers n).mp hn).1.imp_left And.left
  · refine (hnumbers next).mpr ⟨.inr rfl, ?_⟩
    intro hmem
    exact hfresh cut mem_cons_self (mem_singleton.mp hmem).symm

section
variable (hd : Ordered d)
include hd

theorem truncated_emptied (hnext : Fresh next d) (h : (releaseAll refuses next (live d).reverse).completed = true) :
    Truncated next d (runOps (releaseAll refuses next (live d).reverse).ops d) := by
  have hdone := releaseAll_done hd h
  cases hlive : live d with
  | nil => exact .same rfl
  | cons seg segs =>
    rw [hlive, releaseAll_cons] at h hdone
    rw [releaseAll_cons]
    obtain ⟨hreleased, hmore, hrun⟩ := Truncation.thenDo_completed (d := d) h
    obtain ⟨hlast, hops⟩ := newSegment_completed hmore
    apply truncated_of_numbers hnext (hlive.trans (nil_append _).symm) (hdone.trans (append_nil []).symm) nofun
    intro n
    rw [hrun, hops, release_completed hlast, release_completed hreleased]
    show n ∈ (runOps ([seg].map fun seg => .recycle seg.number) ((FileOp.create next).apply _)).map Segment.number ↔ _
    rw [mem_numbers_recycled, mem_numbers_created, mem_numbers_recycled]

theorem truncated_rolled (hnext : Fresh next d) (hlive : live d = before ++ cut :: later) (hdata : cut.data = imagesOf rs ++ tail)
    (hrs : rs ≠ []) (h : ((release refuses later.reverse).thenDo (rollCutSegment refuses next cut (imagesOf rs).length)).completed = true) :
    Truncated next d (runOps ((release refuses later.reverse).thenDo (rollCutSegment refuses next cut (imagesOf rs).length)).ops d) := by
  have hlive' : live d = (before ++ [cut]) ++ later := hlive.trans (append_assoc before [cut] later).symm
  obtain ⟨hreleased, hmore, hrun⟩ := Truncation.thenDo_completed (d := d) h
  obtain ⟨hdone, hsub⟩ := release_done hd hlive' hreleased
  have hrolled := rollCutSegment_done (hd.sublist hsub) (hnext.sublist hsub) hdone hdata hrs hmore
  obtain ⟨hcut, hops⟩ := newSegment_completed hmore
  rw [← hrun] at hrolled
  apply truncated_of_numbers hnext hlive hrolled fun x hx => by rw [mem_singleton.mp hx]
  intro n
  rw [hrun, rollCutSegment, hops, release_completed hcut, release_completed hreleased]
  show n ∈ (runOps ([cut].map fun seg => .recycle seg.number) ((FileOp.append next _).apply ((FileOp.create next).apply _))).map Segment.number ↔ _
  rw [mem_numbers_recycled, append_numbers, mem_numbers_created, mem_numbers_recycled]

theorem truncated (hnext : Fresh next d) (h : (Move.truncate refuses next target).Careful d) :
    Truncated next d ((Move.truncate refuses next target).apply d) := by
  show Truncated next d (runOps (truncateAfter refuses next target d).ops d)
  rcases h with hops | ⟨hcompleted, hkeeps⟩
  · rw [hops]
    exact .same rfl
  rcases exists_cut (upTo target) none (live d) live_ne_nil with hstop | ⟨before, groups, cut, rs, tail, later, hlive, hcut, hend⟩
  · rw [hstop.truncateAfter_eq] at hcompleted ⊢
    exact truncated_emptied hd hnext hcompleted
  · rw [hcut.truncateAfter_eq hend hd hlive] at hcompleted ⊢
    by_cases htail : tail = []
    · -- the cut is at the end of its segment, so nothing may lie behind it
      have hsize : sizeOf d cut.number = (imagesOf rs).length := by
        rw [sizeOf_mem hd (live_mem (hlive ▸ mem_append_right _ mem_cons_self)), hcut.data, htail, append_nil]
      have hlater : later = [] := by
        rw [keepsNumbers, hlive, hcut.findCut hend] at hkeeps
        simp only [hsize, lt_irrefl, decide_false, Bool.false_or, decide_eq_true_iff] at hkeeps
        have horder := hd.live
        rw [hlive] at horder
        apply eq_nil_iff_forall_not_mem.mpr
        intro x hx
        have hlt := (pairwise_cons.mp (pairwise_append.mp horder).2.1).1 x hx
        exact not_le.mpr hlt (hkeeps x (mem_append_right _ (mem_cons_of_mem _ hx)))
      rw [hlater, if_pos htail]
      exact .same rfl
    · rw [if_neg htail] at hcompleted ⊢
      exact truncated_rolled hd hnext hlive hcut.data hcut.nonempty hcompleted

/-! ## Recycling -/

structure Recycled (d d' : Directory) (n : ℕ) : Prop where
  live : live d' = (live d).drop n
  newest : n = 0 ∨ n < (Log.live d).length
  gone : ∀ seg ∈ (Log.live d).take n, seg.number ∉ d'.map Segment.number
  stays : ∀ seg ∈ d, seg.number ∉ ((Log.live d).take n).map Segment.number → seg ∈ d'
  sublist : d'.Sublist d

def withoutDropped (refuses : ℕ → Bool) (horizon : ℕ) (d : Directory) : Directory :=
  d.filter fun seg => decide (seg.number ∉ (dropped refuses horizon (rescan d).segments).map SegmentInfo.number)

theorem recycled (hd' : d' = withoutDropped refuses horizon d) : Recycled d d' (dropped refuses horizon (rescan d).segments).length := by
  have hnumbers := dropped_take refuses horizon (goodItems (walk none d).1) (live d)
  have hsegments : (live d).map (infoOf unread (goodItems (walk none d).1)) = (rescan d).segments := rfl
  rw [hsegments] at hnumbers
  rw [withoutDropped, hnumbers] at hd'
  refine ⟨?_, ?_, ?_, ?_, ?_⟩
  · rw [hd', live_filter]
    exact filter_oldest hd.live _
  · by_cases hne : (rescan d).segments = []
    · left
      rw [hne]
      rfl
    · right
      have hlt := dropped_lt refuses horizon hne
      rwa [← hsegments, length_map, hsegments] at hlt
  · intro seg hseg hmem
    obtain ⟨x, hx, heq⟩ := mem_map.mp hmem
    rw [hd'] at hx
    exact of_decide_eq_true (mem_filter.mp hx).2 (heq ▸ mem_map_of_mem hseg)
  · intro seg hseg hnot
    rw [hd']
    exact mem_filter.mpr ⟨hseg, decide_eq_true hnot⟩
  · rw [hd']
    exact filter_sublist

end

theorem walk_first {r : WalRecord} {rest : Bytes} {expected' : Option ℕ} (hr : r.Readable) (hdata : seg.data = r.image ++ rest)
    (h : Next expected r) (h' : Next expected' r) (segs : Directory) : walk expected (seg :: segs) = walk expected' (seg :: segs) := by
  have hne : seg.data ≠ [] := by
    rw [hdata]
    exact fun hnil => WalRecord.image_ne_nil (append_eq_nil_iff.mp hnil).1
  by_cases hsize : seg.data.length ≤ maxSegmentReadBytes
  · obtain ⟨fuel, hfuel⟩ : ∃ fuel, seg.data.length = fuel + 1 := ⟨seg.data.length - 1, by have := length_pos_iff.mpr hne; omega⟩
    have hbytes : ∀ budget e, Next e r → walkBytes seg.number budget seg.data.length 0 e 0 0 seg.data =
        (.record seg.number 0 r :: (walkBytes seg.number budget fuel (0 + r.encodedLength) (some (r.lsn + 1)) 0 0 rest).1,
          (walkBytes seg.number budget fuel (0 + r.encodedLength) (some (r.lsn + 1)) 0 0 rest).2) := by
      intro budget e he
      rw [hfuel, hdata, walkBytes_image hr, discontinuity_of_next he]
      rfl
    rw [walk_cons hsize, walk_cons hsize, hbytes _ _ h, hbytes _ _ h']
  · rw [walk_oversized (not_le.mp hsize), walk_oversized (not_le.mp hsize)]

theorem Clean.walk_none (h : Clean everyRecord expected (seg :: segs) groups) (hne : seg.data ≠ []) (later : Directory) :
    Log.walk expected ((seg :: segs) ++ later) = Log.walk none ((seg :: segs) ++ later) := by
  cases h with
  | cons hdata _ hrun _ =>
    cases hrun with
    | nil => exact absurd hdata hne
    | @cons _ r _ hr _ hnext _ =>
      have hnone : Next none r := nofun
      exact walk_first hr hdata hnext hnone _

theorem rescan_drop {rest : Directory} (hordered : Ordered (front ++ rest)) (hlive : ∀ seg ∈ front ++ rest, seg.data ≠ [])
    (hfront : Clean everyRecord none front groups) (hwalk : walk (after none groups.flatten) rest = walk none rest)
    (hgood : (goodItems (walk none rest).1).filterMap record? ≠ []) :
    TailIndex.Agrees { rescan (front ++ rest) with segments := (rescan (front ++ rest)).segments.drop front.length } (rescan rest) := by
  have hself := live_eq_self hlive
  have hrest := live_eq_self fun seg hseg => hlive seg (mem_append_right _ hseg)
  obtain ⟨-, -, hcross⟩ := pairwise_append.mp hordered
  have hall := hfront.walk rest
  rw [hwalk] at hall
  have hgoodItems : goodItems (walk none (front ++ rest)).1 = cleanItems front groups ++ goodItems (walk none rest).1 := by
    rw [hall]
    exact hfront.goodItems _
  have hrecords : (goodItems (walk none (front ++ rest)).1).filterMap record? =
      groups.flatten ++ (goodItems (walk none rest).1).filterMap record? := by
    rw [hgoodItems, hfront.records]
  have hlast : lastLsn ((goodItems (walk none (front ++ rest)).1).filterMap record?) =
      lastLsn ((goodItems (walk none rest).1).filterMap record?) := by rw [hrecords, lastLsn_append hgood]
  refine ⟨?_, hlast, ?_⟩
  · show ((live (front ++ rest)).map (infoOf unread (goodItems (walk none (front ++ rest)).1))).drop front.length =
      (live rest).map (infoOf unread (goodItems (walk none rest).1))
    rw [hself, hrest, ← map_drop, drop_left, hgoodItems]
    apply map_congr_left
    intro seg hseg
    rw [infoOf, infoOf, recordsIn_append, recordsIn_cleanItems fun x hx => (hcross x hx seg hseg).ne, nil_append]
  · show damageOf (front ++ rest) _ _ = damageOf rest _ _
    rw [hlast, damageOf, damageOf]
    congr 1
    · rw [hall, hfront.no_failure]
    · rw [hall]
      cases hraised : (walk none rest).2 with
      | none => rfl
      | some number =>
        obtain ⟨seg, hseg, rfl⟩ := walkFrom_raised hraised
        have hsize : sizeOf (front ++ rest) seg.number = seg.data.length := sizeOf_mem hordered (mem_append_right _ hseg)
        have hsize' : sizeOf rest seg.number = seg.data.length := sizeOf_mem (hordered.sublist (sublist_append_right _ _)) hseg
        rw [Option.map_some, Option.map_some, hsize, hsize']

theorem Indexed.walk_none (h : Indexed d before groups cut rs tail later) {front : List (List WalRecord)}
    {back : List (List WalRecord)} (hgroups : groups = front ++ back)
    (hback : Clean everyRecord (after none front.flatten) (before.drop n) back) :
    walk (after none front.flatten) (before.drop n ++ cut :: later) = walk none (before.drop n ++ cut :: later) := by
  cases hrest : before.drop n with
  | nil =>
    rw [hrest] at hback
    cases hback
    have hrun := h.cutAt.run
    have hdata := h.cutAt.data
    rw [hgroups, append_nil] at hrun
    cases hrun with
    | nil => exact absurd rfl h.cutAt.nonempty
    | @cons _ r _ hr _ hnext _ =>
      have hnone : Next none r := fun _ h => nomatch h
      rw [imagesOf_cons, append_assoc] at hdata
      exact walk_first hr hdata hnext hnone _
  | cons x xs =>
    have hx : x ∈ live d := by
      rw [h.files]
      exact mem_append_left _ ((drop_sublist n before).mem (hrest ▸ mem_cons_self))
    rw [hrest] at hback
    exact hback.walk_none (live_ne_nil x hx) _

theorem recycled_agrees (hd : Ordered d) (hd' : d' = withoutDropped refuses horizon d)
    (hspares : Spares refuses horizon d) :
    TailIndex.Agrees { rescan (live d) with
      segments := (rescan (live d)).segments.drop (dropped refuses horizon (rescan d).segments).length } (rescan (live d')) := by
  have hleft := recycled hd hd'
  obtain ⟨n, hn⟩ : ∃ n, (dropped refuses horizon (rescan d).segments).length = n := ⟨_, rfl⟩
  rw [hn] at hleft ⊢
  rcases exists_cut everyRecord none (live d) live_ne_nil with hstop | ⟨before, groups, cut, rs, tail, later, hlive, hcut, hend⟩
  · have hzero : n = 0 := by rw [← hn, hstop.dropped]; rfl
    rw [hleft.live, hzero, drop_zero, drop_zero]
    exact .refl _
  · have hindexed : Indexed d before groups cut rs tail later := ⟨hd, hlive, hcut, hend⟩
    have hle : n ≤ before.length := hn ▸ hindexed.dropped_le_of_spares hspares
    have hsplit : live d = before.take n ++ (before.drop n ++ cut :: later) := by rw [← append_assoc, take_append_drop, hlive]
    have hrest : live d' = before.drop n ++ cut :: later := by rw [hleft.live, hlive, drop_append_of_le_length hle]
    have hclean := hcut.before
    rw [← take_append_drop n before] at hclean
    obtain ⟨front, back, hgroups, hfront, hback⟩ := hclean.of_append
    have hgood : (goodItems (walk none (before.drop n ++ cut :: later)).1).filterMap record? ≠ [] := by
      rw [hindexed.good_drop, filterMap_append, filterMap_of_record? (record?_recordItems cut.number 0 rs)]
      exact fun hnil => hcut.nonempty (append_eq_nil_iff.mp hnil).2
    have hagrees := rescan_drop (hsplit ▸ hd.live) (hsplit ▸ live_ne_nil) hfront (hindexed.walk_none hgroups hback) hgood
    rw [← hsplit, length_take_of_le hle] at hagrees
    rw [hrest]
    exact hagrees

end Grafx.Log
