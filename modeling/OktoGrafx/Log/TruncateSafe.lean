import OktoGrafx.Log.Truncate

/-! Truncation keeps its prefix. Wherever it is stopped, the records up to the cut still read, and what
else reads is a shorter part of what read before; run again, it ends with the same records. -/

namespace Grafx.Log

open List Interrupt Wal
open FileOp (create)
open ScanItem (record?)
open Segment (number)

variable {keep : WalRecord → Bool} {target next : ℕ} {refuses : ℕ → Bool} {r r' : WalRecord} {rs : List WalRecord} {tail : Bytes} {cut : Segment}
  {before later d d' segs doomed : Directory} {groups : List (List WalRecord)} {items : List ScanItem} {expected : Option ℕ} {more t : Truncation}

/-! ## What a directory reads as -/

def readable (keep : WalRecord → Bool) (d : Directory) : List WalRecord :=
  ((walk none d).1.takeWhile fun item => item.wanted keep).filterMap record?

def everyRecord (_ : WalRecord) : Bool := true

def LogIs (d : Directory) (rs : List WalRecord) : Prop :=
  (walk none d).1.map record? = rs.map some ∧ (walk none d).2 = none ∧ d.flatMap Segment.data = imagesOf rs

theorem readable_live (keep : WalRecord → Bool) (d : Directory) : readable keep (live d) = readable keep d := by
  rw [readable, readable, ← walk_live]

theorem record?_recordItems (segment offset : ℕ) (rs : List WalRecord) : (recordItems segment offset rs).map record? = rs.map some := by
  induction rs generalizing offset with
  | nil => rfl
  | cons r rs ih => rw [recordItems, map_cons, map_cons, ih, record?]

theorem Clean.record?_items (h : Clean keep expected segs groups) : (cleanItems segs groups).map record? = groups.flatten.map some := by
  induction h with
  | nil => rfl
  | cons _ _ _ _ ih => rw [cleanItems, map_append, record?_recordItems, ih, flatten_cons, map_append]

theorem wanted_of_record? (h : items.map record? = rs.map some) (hkeep : ∀ r ∈ rs, keep r = true) :
    ∀ item ∈ items, item.wanted keep = true := by
  intro item hitem
  have hmem : item.record? ∈ rs.map some := h ▸ mem_map_of_mem hitem
  obtain ⟨r, hr, hsome⟩ := mem_map.mp hmem
  cases item with
  | record _ _ r' =>
    cases hsome
    exact hkeep r hr
  | failure _ => cases hsome

theorem filterMap_of_record? (h : items.map record? = rs.map some) : items.filterMap record? = rs := by
  have hflat : (items.map record?).filterMap id = (rs.map some).filterMap id := congrArg _ h
  rw [filterMap_map, filterMap_map, Function.id_comp, Function.id_comp, filterMap_some] at hflat
  exact hflat

theorem takeWhile_ends {wanted : List ScanItem} (hwanted : ∀ item ∈ wanted, item.wanted keep = true) (hends : Ends keep items) :
    ((wanted ++ items).takeWhile fun item => item.wanted keep) = wanted := by
  rw [takeWhile_append_of_pos hwanted]
  cases items with
  | nil => exact append_nil _
  | cons item items => rw [takeWhile_cons_of_neg (by rw [hends item rfl]; exact Bool.false_ne_true), append_nil]

theorem readable_of_walk (wanted : List ScanItem) (hwalk : (walk none d).1 = wanted ++ items) (hrecord : wanted.map record? = rs.map some)
    (hkeep : ∀ r ∈ rs, keep r = true) (hends : Ends keep items) : readable keep d = rs := by
  rw [readable, hwalk, takeWhile_ends (wanted_of_record? hrecord hkeep) hends, filterMap_of_record? hrecord]

theorem CutAt.readable (h : CutAt keep none before groups cut rs tail)
    (hend : tail ≠ [] ∨ Stop keep (after none (groups.flatten ++ rs)) later) :
    readable keep (before ++ cut :: later) = groups.flatten ++ rs := by
  obtain ⟨items, hwalk, hends⟩ := h.walk hend
  refine readable_of_walk _ (hwalk.trans (append_assoc ..).symm) ?_ ?_ hends
  · rw [map_append, h.before.record?_items, record?_recordItems, map_append]
  · intro r hr
    exact (mem_append.mp hr).elim (h.before.run.kept r) (h.run.kept r)

theorem Stop.readable (h : Stop keep none segs) : readable keep segs = [] :=
  readable_of_walk [] rfl rfl nofun h.ends

theorem CutAt.clean (h : CutAt keep expected before groups cut rs tail) (seg : Segment) (hseg : seg.data = imagesOf rs) :
    Clean keep expected (before ++ [seg]) (groups ++ [rs]) := by
  have hsize : seg.data.length ≤ maxSegmentReadBytes := by
    have hle := h.size
    rw [h.data, length_append] at hle
    rw [hseg]
    omega
  exact h.before.append (.cons hseg hsize h.run .nil)

theorem flatMap_live (d : Directory) : (live d).flatMap Segment.data = d.flatMap Segment.data := by
  induction d with
  | nil => rfl
  | cons seg d ih =>
    by_cases hseg : seg.data = []
    · rw [live, filter_cons_of_neg (by simp [hseg]), ← live, ih, flatMap_cons, hseg, nil_append]
    · rw [live, filter_cons_of_pos (by simp [hseg]), ← live, flatMap_cons, ih, flatMap_cons]

theorem Clean.logIs (h : Clean keep none (live d) groups) : LogIs d groups.flatten := by
  have hwalk := h.walk []
  rw [append_nil, ← walk_live] at hwalk
  refine ⟨?_, ?_, ?_⟩
  · rw [hwalk]
    show (cleanItems (live d) groups ++ []).map _ = _
    rw [append_nil, h.record?_items]
  · rw [hwalk]
    rfl
  · rw [← flatMap_live, h.data]

theorem LogIs.readable (h : LogIs d rs) : readable everyRecord d = rs := by
  have hwanted : ∀ item ∈ (walk none d).1, item.wanted everyRecord = true := wanted_of_record? h.1 fun _ _ => rfl
  rw [Log.readable, takeWhile_eq_self_iff.mpr hwanted, filterMap_of_record? h.1]

/-! ## Releasing segments -/

theorem release_take (refuses : ℕ → Bool) (doomed : Directory) :
    ∃ n, (release refuses doomed).ops = (doomed.take n).map fun seg => .recycle seg.number := by
  refine ⟨(doomed.takeWhile fun seg => !refuses seg.number).length, ?_⟩
  rw [← prefix_iff_eq_take.mp <| takeWhile_prefix _]
  rfl

theorem release_completed (h : (release refuses doomed).completed = true) :
    (release refuses doomed).ops = doomed.map fun seg => .recycle seg.number := by
  show (doomed.takeWhile _).map _ = _
  rw [takeWhile_eq_self_iff.mpr (all_eq_true.mp h)]

theorem release_interrupted (h : Interrupted (release refuses doomed).ops d d') :
    ∃ n, d' = d.filter fun seg => decide (seg.number ∉ (doomed.take n).map number) := by
  obtain ⟨n, hn⟩ := release_take refuses doomed
  rw [hn] at h
  obtain ⟨m, rfl⟩ := h.of_whole fun op hop => by
    obtain ⟨seg, -, rfl⟩ := mem_map.mp hop
    exact fun _ _ hpart => hpart
  refine ⟨min m n, ?_⟩
  rw [← map_take, take_take]
  exact run_recycles _ d

theorem filter_released (h : Ordered (before ++ later)) (n : ℕ) :
    ((before ++ later).filter fun seg => decide (seg.number ∉ (later.reverse.take n).map number)) =
      before ++ later.take (later.length - n) := by
  have hnewest : later.reverse.take n = (later.drop (later.length - n)).reverse := by rw [take_reverse]
  have hsplit : before ++ later = (before ++ later.take (later.length - n)) ++ later.drop (later.length - n) := by
    rw [append_assoc, take_append_drop]
  obtain ⟨-, -, hcross⟩ := pairwise_append.mp (hsplit ▸ h)
  rw [hsplit, filter_append, hnewest]
  have hstay : ((before ++ later.take (later.length - n)).filter fun seg =>
      decide (seg.number ∉ (later.drop (later.length - n)).reverse.map number)) = before ++ later.take (later.length - n) := by
    apply filter_eq_self.mpr
    intro seg hseg
    apply decide_eq_true
    intro hmem
    obtain ⟨x, hx, heq⟩ := mem_map.mp hmem
    exact (hcross seg hseg x (mem_reverse.mp hx)).ne heq.symm
  have hgo : ((later.drop (later.length - n)).filter fun seg =>
      decide (seg.number ∉ (later.drop (later.length - n)).reverse.map number)) = [] := by
    apply filter_eq_nil_iff.mpr
    intro seg hseg hdec
    exact of_decide_eq_true hdec (mem_map_of_mem (mem_reverse.mpr hseg))
  rw [hstay, hgo, append_nil]

theorem live_filter (f : Segment → Bool) (d : Directory) : live (d.filter f) = (live d).filter f := by
  simp only [live, filter_filter, Bool.and_comm]

theorem release_leaves (hd : Ordered d) (hlive : live d = before ++ later) (h : Interrupted (release refuses later.reverse).ops d d') :
    (∃ n, live d' = before ++ later.take n) ∧ d'.Sublist d := by
  obtain ⟨n, rfl⟩ := release_interrupted h
  refine ⟨⟨later.length - n, ?_⟩, filter_sublist⟩
  rw [live_filter, hlive]
  exact filter_released (hlive ▸ hd.live) n

theorem release_done (hd : Ordered d) (hlive : live d = before ++ later) (h : (release refuses later.reverse).completed = true) :
    live (runOps (release refuses later.reverse).ops d) = before ∧ (runOps (release refuses later.reverse).ops d).Sublist d := by
  rw [release_completed h, run_recycles]
  refine ⟨?_, filter_sublist⟩
  have hall := filter_released (hlive ▸ hd.live) later.length
  rw [take_of_length_le (by rw [length_reverse]), Nat.sub_self, take_zero, append_nil] at hall
  rw [live_filter, hlive, hall]

/-! ## The states of a truncation -/

/-- The cut segment whole, with fewer behind it; with part of its copy; or the copy in its place. -/
inductive Leaves (before : Directory) (cut : Segment) (kept tail : Bytes) (later : Directory) (next : ℕ) : Directory → Prop
  | longer (n : ℕ) : Leaves before cut kept tail later next (before ++ cut :: later.take n)
  | both {part : Bytes} : tail ≠ [] → part ≠ [] → part <+: kept → Leaves before cut kept tail later next (before ++ [cut, ⟨next, part⟩])
  | rolled : tail ≠ [] → Leaves before cut kept tail later next (before ++ [⟨next, kept⟩])

theorem CutAt.truncateAfter_eq (h : CutAt (upTo target) none before groups cut rs tail)
    (hend : tail ≠ [] ∨ Stop (upTo target) (after none (groups.flatten ++ rs)) later) (hd : Ordered d) (hlive : live d = before ++ cut :: later) :
    truncateAfter refuses next target d = (release refuses later.reverse).thenDo
      (if tail = [] then ⟨[], true⟩ else rollCutSegment refuses next cut (imagesOf rs).length) := by
  have hdrop : (before ++ cut :: later).dropWhile (fun seg => decide (seg.number ≠ cut.number)) = cut :: later := by
    obtain ⟨-, -, hcross⟩ := pairwise_append.mp (hlive ▸ hd.live)
    rw [dropWhile_append_of_pos, dropWhile_cons_of_neg (by simp)]
    intro seg hseg
    exact decide_eq_true (hcross seg hseg cut mem_cons_self).ne
  unfold truncateAfter
  simp only [hlive, h.findCut hend, hdrop]
  congr 1
  by_cases htail : tail = []
  · rw [if_pos htail, if_neg (by rw [h.data, htail, append_nil]; exact lt_irrefl _)]
  · have hlt : (imagesOf rs).length < cut.data.length := by
      have hpos := length_pos_iff.mpr htail
      rw [h.data, length_append]
      omega
    rw [if_pos hlt, if_neg htail]

theorem live_copied {data : Bytes} (hnext : Fresh next d) (hdata : data ≠ []) :
    live ((FileOp.append next data).apply ((create next).apply d)) = live d ++ [⟨next, data⟩] := by
  show live ((FileOp.append next data).apply (d ++ [⟨next, []⟩])) = _
  rw [live_append hnext, if_neg hdata]

theorem numbers_copied (next : ℕ) (data : Bytes) (d : Directory) :
    ((FileOp.append next data).apply ((create next).apply d)).map number = d.map number ++ [next] := by
  rw [append_numbers]
  exact map_append

theorem filter_cut {kept : Bytes} (hd : Ordered (before ++ [cut])) (hnext : cut.number < next) :
    ((before ++ [cut, ⟨next, kept⟩]).filter fun seg => decide (seg.number ∉ [cut].map number)) = before ++ [⟨next, kept⟩] := by
  have hbefore : (before.filter fun seg => decide (seg.number ∉ [cut].map number)) = before := by
    apply filter_eq_self.mpr
    intro seg hseg
    have hne := ((pairwise_append.mp hd).2.2 seg hseg cut mem_cons_self).ne
    simp [hne]
  rw [filter_append, hbefore]
  simp [hnext.ne']

theorem Fresh.cut_lt (hnext : Fresh next d) (hlive : live d = before ++ [cut]) : cut.number < next := by
  apply hnext
  have hmem : cut ∈ live d := by
    rw [hlive]
    exact mem_concat_self
  exact (mem_filter.mp hmem).1

theorem take_images (hdata : cut.data = imagesOf rs ++ tail) (hrs : rs ≠ []) :
    cut.data.take (imagesOf rs).length = imagesOf rs ∧ imagesOf rs ≠ [] :=
  ⟨hdata ▸ take_left' rfl, fun hnil => hrs (imagesOf_eq_nil.mp hnil)⟩

theorem rollCutSegment_leaves (later : Directory) (hd : Ordered d) (hnext : Fresh next d) (hlive : live d = before ++ [cut]) (htail : tail ≠ [])
    (hdata : cut.data = imagesOf rs ++ tail) (hrs : rs ≠ [])
    (h : Interrupted (rollCutSegment refuses next cut (imagesOf rs).length).ops d d') :
    Leaves before cut (imagesOf rs) tail later next (live d') ∧ (d'.map number).Sublist (d.map number ++ [next]) := by
  have hself : Leaves before cut (imagesOf rs) tail later next (before ++ [cut]) := Leaves.longer 0
  have hshort : (d.map number).Sublist (d.map number ++ [next]) := sublist_append_left _ _
  obtain ⟨htake, hkept⟩ := take_images hdata hrs
  unfold rollCutSegment newSegment at h
  split at h
  · rw [htake] at h
    cases h with
    | now => exact ⟨hlive ▸ hself, hshort⟩
    | torn hpart => exact hpart.elim
    | later h =>
      cases h with
      | now =>
        refine ⟨?_, map_append ▸ List.Sublist.refl _⟩
        rw [live_create, hlive]
        exact hself
      | torn hpart =>
        obtain ⟨part, hpart, rfl⟩ := hpart
        refine ⟨?_, numbers_copied next part d ▸ List.Sublist.refl _⟩
        by_cases hnil : part = []
        · have hempty : live ((FileOp.append next part).apply ((create next).apply d)) = live d := by
            show live ((FileOp.append next part).apply (d ++ [⟨next, []⟩])) = _
            rw [live_append hnext, if_pos hnil, append_nil]
          rw [hempty, hlive]
          exact hself
        · rw [live_copied hnext hnil, hlive, append_assoc]
          exact .both htail hnil hpart
      | later h =>
        obtain ⟨n, hn⟩ := release_interrupted h
        constructor
        · rw [hn, live_filter, live_copied hnext hkept, hlive, append_assoc]
          cases n with
          | zero =>
            rw [take_zero, map_nil, filter_eq_self.mpr fun _ _ => decide_eq_true not_mem_nil]
            exact .both htail hkept (prefix_refl _)
          | succ n =>
            rw [take_of_length_le (show [cut].length ≤ n + 1 by simp)]
            exact filter_cut (hlive ▸ hd.live) (hnext.cut_lt hlive) ▸ .rolled htail
        · rw [hn, ← numbers_copied next (imagesOf rs) d]
          exact filter_sublist.map _
  · obtain rfl := Reaches.nil h
    exact ⟨hlive ▸ hself, hshort⟩

theorem rollCutSegment_done (hd : Ordered d) (hnext : Fresh next d) (hlive : live d = before ++ [cut]) (hdata : cut.data = imagesOf rs ++ tail)
    (hrs : rs ≠ []) (h : (rollCutSegment refuses next cut (imagesOf rs).length).completed = true) :
    live (runOps (rollCutSegment refuses next cut (imagesOf rs).length).ops d) = before ++ [⟨next, imagesOf rs⟩] := by
  obtain ⟨htake, hkept⟩ := take_images hdata hrs
  unfold rollCutSegment newSegment at h ⊢
  split at h
  · rename_i hmax
    rw [if_pos hmax, htake]
    show live (runOps (release refuses [cut]).ops ((FileOp.append next (imagesOf rs)).apply ((create next).apply d))) = _
    rw [release_completed h, run_recycles, live_filter, live_copied hnext hkept, hlive, append_assoc]
    exact filter_cut (hlive ▸ hd.live) (hnext.cut_lt hlive)
  · cases h

theorem Truncation.thenDo_ops (h : Interrupted (t.thenDo more).ops d d') :
    Interrupted t.ops d d' ∨ t.completed = true ∧ Interrupted more.ops (runOps t.ops d) d' := by
  unfold thenDo at h
  split at h
  · rename_i hcompleted
    exact (Reaches.of_append h).imp_right fun h => ⟨hcompleted, h⟩
  · exact .inl h

theorem Truncation.thenDo_completed (h : (t.thenDo more).completed = true) :
    t.completed = true ∧ more.completed = true ∧ runOps (t.thenDo more).ops d = runOps more.ops (runOps t.ops d) := by
  unfold thenDo at h ⊢
  split at h
  · rename_i hcompleted
    rw [if_pos hcompleted]
    exact ⟨hcompleted, h, run_append⟩
  · rename_i hcompleted
    exact absurd h hcompleted

theorem Fresh.sublist (h : Fresh next d) (hsub : d'.Sublist d) : Fresh next d' := fun seg hseg => h seg (hsub.mem hseg)

section
variable (h : CutAt (upTo target) none before groups cut rs tail)
include h

variable (hend : tail ≠ [] ∨ Stop (upTo target) (after none (groups.flatten ++ rs)) later)
include hend

theorem CutAt.interrupted (hd : Ordered d) (hnext : Fresh next d)
    (hlive : live d = before ++ cut :: later) (hops : Interrupted (truncateAfter refuses next target d).ops d d') :
    Leaves before cut (imagesOf rs) tail later next (live d') ∧ (d'.map number).Sublist (d.map number ++ [next]) := by
  have hlive' : live d = (before ++ [cut]) ++ later := hlive.trans (append_assoc before [cut] later).symm
  rw [h.truncateAfter_eq hend hd hlive] at hops
  rcases Truncation.thenDo_ops hops with hops | ⟨hcompleted, hops⟩
  · obtain ⟨⟨n, hn⟩, hsub⟩ := release_leaves hd hlive' hops
    rw [hn, append_assoc]
    exact ⟨.longer n, (hsub.map _).trans (sublist_append_left _ _)⟩
  · obtain ⟨hdone, hsub⟩ := release_done hd hlive' hcompleted
    have hnumbers := List.Sublist.append_right (hsub.map number) [next]
    split at hops
    · obtain rfl := Reaches.nil hops
      rw [hdone]
      exact ⟨.longer 0, (hsub.map _).trans (sublist_append_left _ _)⟩
    · rename_i htail
      obtain ⟨hleaves, hsub'⟩ := rollCutSegment_leaves later (hd.sublist hsub) (hnext.sublist hsub) hdone htail h.data h.nonempty hops
      exact ⟨hleaves, hsub'.trans hnumbers⟩

theorem CutAt.completed (hd : Ordered d) (hnext : Fresh next d)
    (hlive : live d = before ++ cut :: later) (hcompleted : (truncateAfter refuses next target d).completed = true) :
    LogIs (runOps (truncateAfter refuses next target d).ops d) (groups.flatten ++ rs) := by
  have hlive' : live d = (before ++ [cut]) ++ later := hlive.trans (append_assoc before [cut] later).symm
  rw [h.truncateAfter_eq hend hd hlive] at hcompleted ⊢
  obtain ⟨hreleased, hmore, hrun⟩ := Truncation.thenDo_completed hcompleted
  obtain ⟨hdone, hsub⟩ := release_done hd hlive' hreleased
  have hflatten : (groups ++ [rs]).flatten = groups.flatten ++ rs := by simp
  rw [hrun, ← hflatten]
  by_cases htail : tail = []
  · rw [if_pos htail]
    have hclean : Clean (upTo target) none (live (runOps (release refuses later.reverse).ops d)) (groups ++ [rs]) := by
      rw [hdone]
      exact h.clean cut (by rw [h.data, htail, append_nil])
    exact hclean.logIs
  · rw [if_neg htail] at hmore ⊢
    have hclean := h.clean ⟨next, imagesOf rs⟩ rfl
    rw [← rollCutSegment_done (hd.sublist hsub) (hnext.sublist hsub) hdone h.data h.nonempty hmore] at hclean
    exact hclean.logIs

end

/-! ## A cut that keeps nothing -/

theorem Stop.truncateAfter_eq (h : Stop (upTo target) none (live d)) :
    truncateAfter refuses next target d = releaseAll refuses next (live d).reverse := by
  unfold truncateAfter
  simp only [h.findCut]

theorem releaseAll_cons (seg : Segment) (segs : Directory) :
    releaseAll refuses next (seg :: segs).reverse =
      (release refuses segs.reverse).thenDo (newSegment next (release refuses [seg])) := by
  rw [releaseAll, reverse_cons, getLast?_concat, dropLast_concat]

theorem filter_single (seg : Segment) (n : ℕ) :
    ∃ m, ([seg].filter fun s => decide (s.number ∉ ([seg].take n).map number)) = [seg].take m := by
  cases n with
  | zero => exact ⟨1, by simp⟩
  | succ n => exact ⟨0, by simp⟩

theorem releaseAll_leaves (hd : Ordered d) (hops : Interrupted (releaseAll refuses next (live d).reverse).ops d d') :
    (∃ n, live d' = (live d).take n) ∧ (d'.map number).Sublist (d.map number ++ [next]) := by
  have hshort : (d.map number).Sublist (d.map number ++ [next]) := sublist_append_left _ _
  cases hsegs : live d with
  | nil =>
    rw [hsegs] at hops
    obtain rfl := Reaches.nil hops
    exact ⟨⟨0, hsegs⟩, hshort⟩
  | cons seg segs =>
    rw [hsegs, releaseAll_cons] at hops
    have hlive : live d = [seg] ++ segs := hsegs
    rcases Truncation.thenDo_ops hops with hops | ⟨hcompleted, hops⟩
    · obtain ⟨⟨n, hn⟩, hsub⟩ := release_leaves hd hlive hops
      exact ⟨⟨n + 1, hn⟩, (hsub.map _).trans hshort⟩
    · obtain ⟨hdone, hsub⟩ := release_done hd hlive hcompleted
      have hnumbers := List.Sublist.append_right (hsub.map number) [next]
      have hone : (seg :: segs).take 1 = [seg] := rfl
      unfold newSegment at hops
      split at hops
      · cases hops with
        | now => exact ⟨⟨1, hdone⟩, (hsub.map _).trans hshort⟩
        | torn hpart => exact hpart.elim
        | later hops =>
          obtain ⟨n, hn⟩ := release_interrupted hops
          obtain ⟨m, hm⟩ := filter_single seg n
          refine ⟨⟨min m 1, ?_⟩, ?_⟩
          · rw [hn, live_filter, live_create, hdone, hm, ← hone, take_take]
          · rw [hn]
            refine (filter_sublist.map _).trans ?_
            rw [FileOp.apply, map_append]
            exact hnumbers
      · obtain rfl := Reaches.nil hops
        exact ⟨⟨1, hdone⟩, (hsub.map _).trans hshort⟩

theorem releaseAll_done (hd : Ordered d) (hcompleted : (releaseAll refuses next (live d).reverse).completed = true) :
    live (runOps (releaseAll refuses next (live d).reverse).ops d) = [] := by
  cases hsegs : live d with
  | nil => exact hsegs
  | cons seg segs =>
    rw [hsegs, releaseAll_cons] at hcompleted
    rw [releaseAll_cons]
    obtain ⟨hreleased, hmore, hrun⟩ := Truncation.thenDo_completed (d := d) hcompleted
    have hlive : live d = [seg] ++ segs := hsegs
    obtain ⟨hdone, -⟩ := release_done hd hlive hreleased
    rw [hrun]
    unfold newSegment at hmore ⊢
    split at hmore
    · rename_i hmax
      rw [if_pos hmax]
      show live (runOps (release refuses [seg]).ops ((create next).apply _)) = []
      rw [release_completed hmore, run_recycles, live_filter, live_create, hdone]
      simp
    · cases hmore

end Grafx.Log
