import OktoGrafx.Log.TruncateSafe

/-! Truncation as a whole: what a completed one holds, what every interruption leaves, and that running
it again ends in the same place. -/

namespace Grafx.Log

open List Interrupt Wal

variable {keep keep' : WalRecord → Bool} {target next : ℕ} {refuses : ℕ → Bool} {r r' : WalRecord} {rs : List WalRecord} {raw tail : Bytes}
  {cut : Segment} {before later d d' segs : Directory} {groups : List (List WalRecord)} {expected : Option ℕ} {more : Truncation} {α : Type*}

/-! ## Longer and shorter logs -/

theorem takeWhile_prefix_of_imp {p q : α → Bool} (h : ∀ x, p x = true → q x = true) (xs : List α) : xs.takeWhile p <+: xs.takeWhile q := by
  induction xs with
  | nil => exact prefix_refl _
  | cons x xs ih =>
    by_cases hp : p x = true
    · rw [takeWhile_cons_of_pos hp, takeWhile_cons_of_pos (h x hp)]
      exact (prefix_cons_inj x).mpr ih
    · rw [takeWhile_cons_of_neg hp]
      exact nil_prefix

theorem readable_mono (h : ∀ r, keep r = true → keep' r = true) (d : Directory) : readable keep d <+: readable keep' d := by
  apply List.IsPrefix.filterMap
  apply takeWhile_prefix_of_imp
  intro item hitem
  cases item with
  | record _ _ r => exact h r hitem
  | failure _ => exact hitem

theorem walk_append (expected : Option ℕ) (segs later : Directory) : (walk expected segs).1 <+: (walk expected (segs ++ later)).1 := by
  induction segs generalizing expected with
  | nil => exact nil_prefix
  | cons seg segs ih =>
    by_cases hsize : seg.data.length ≤ maxSegmentReadBytes
    · rw [cons_append, walk_cons hsize, walk_cons hsize]
      exact prefix_append_right_inj _ |>.mpr (ih _)
    · rw [walk_oversized (not_le.mp hsize)]
      exact nil_prefix

theorem readable_append (keep : WalRecord → Bool) (segs later : Directory) : readable keep segs <+: readable keep (segs ++ later) := by
  apply List.IsPrefix.filterMap
  obtain ⟨items, hitems⟩ := walk_append none segs later
  rw [← hitems, takeWhile_append]
  split
  · rename_i hall
    have hwhole := takeWhile_prefix _ |>.eq_of_length hall
    rw [hwhole]
    exact prefix_append _ _
  · exact prefix_refl _

theorem image_unique (hr : r.Readable) (hr' : r'.Readable) (h : r.image <+: raw) (h' : r'.image <+: raw) : r = r' := by
  have hd := decodeRecord_record_iff.mpr ⟨hr, rfl, h⟩
  rw [decodeRecord_record_iff.mpr ⟨hr', rfl, h'⟩] at hd
  exact (DecodeOutcome.record.inj hd).1.symm

theorem Run.after_gt (h : Run keep expected (r :: rs)) : ∃ lsn, after expected (r :: rs) = some lsn ∧ r.lsn < lsn := by
  induction rs generalizing expected r with
  | nil => exact ⟨r.lsn + 1, rfl, Nat.lt_succ_self _⟩
  | cons r₂ rs ih =>
    cases h with
    | cons _ _ _ hrest =>
      obtain ⟨lsn, hlsn, hlt⟩ := ih hrest
      have hnext : r₂.lsn = r.lsn + 1 := by
        cases hrest with
        | cons _ _ hnext _ => exact hnext _ rfl
      exact ⟨lsn, hlsn, by omega⟩

section
variable (h : CutAt keep none before groups cut rs tail)
include h

theorem CutAt.readable_both {part : Bytes} (hne : part ≠ []) (hpart : part <+: imagesOf rs) :
    Log.readable everyRecord (before ++ [cut, ⟨next, part⟩]) = Log.readable everyRecord (before ++ [cut]) := by
  obtain ⟨r, rs₀, rfl⟩ := exists_cons_of_ne_nil h.nonempty
  have hfirst : r.Readable ∧ Next (after none groups.flatten) r := by
    cases h.run with
    | cons hr _ hnext _ => exact ⟨hr, hnext⟩
  have himage : r.image <+: cut.data := by
    rw [h.data, imagesOf_cons, append_assoc]
    exact prefix_append _ _
  obtain ⟨rs', tail', hdata, hrun, hstuck⟩ := exists_run everyRecord (after none groups.flatten) cut.data
  have hrs' : rs' ≠ [] := by
    rintro rfl
    rw [imagesOf, flatMap_nil, nil_append] at hdata
    rw [← hdata] at hstuck
    exact hstuck r hfirst.1 himage rfl hfirst.2
  obtain ⟨r', rs₁, rfl⟩ := exists_cons_of_ne_nil hrs'
  have hsame : r' = r := by
    refine image_unique (hrun.readable r' mem_cons_self) hfirst.1 ?_ himage
    rw [hdata, imagesOf_cons, append_assoc]
    exact prefix_append _ _
  subst hsame
  have hcut : CutAt everyRecord none before groups cut (r' :: rs₁) tail' :=
    ⟨h.before.mono fun _ _ => rfl, hdata, h.size, hrun, hrs', by rw [after_append]; exact hstuck⟩
  have hend : tail' ≠ [] ∨ Stop everyRecord (after none (groups.flatten ++ r' :: rs₁)) [⟨next, part⟩] := by
    refine .inr (.inr ⟨_, [], rfl, hne, .inr ?_⟩)
    intro x hx hximage _ hxnext
    have hxr : x = r' := image_unique hx hfirst.1 (hximage.trans hpart) (prefix_append _ _)
    obtain ⟨lsn, hlsn, hlt⟩ := hrun.after_gt
    rw [after_append] at hxnext
    rw [hxr] at hxnext
    exact absurd (hxnext lsn hlsn) hlt.ne
  rw [hcut.readable hend, hcut.readable (.inr (.inl rfl))]

/-! ## Every interruption -/

theorem CutAt.rolled : CutAt keep none before groups ⟨next, imagesOf rs⟩ rs [] := by
  refine ⟨h.before, (append_nil _).symm, ?_, h.run, h.nonempty, stuck_nil⟩
  have hle := h.size
  rw [h.data, length_append] at hle
  exact (Nat.le_add_right _ _).trans hle

end

section
variable (hcut : CutAt keep none before groups cut rs tail)
include hcut

variable (hend : tail ≠ [] ∨ Stop keep (after none (groups.flatten ++ rs)) later)
include hend

variable (h : Leaves before cut (imagesOf rs) tail later next segs)
include h

theorem Leaves.readable : readable keep segs = groups.flatten ++ rs := by
  cases h with
  | longer n => exact hcut.readable (hend.imp_right fun hstop => hstop.take n)
  | both htail _ _ => exact hcut.readable (.inl htail)
  | rolled _ => exact hcut.rolled.readable (.inr (.inl rfl))

theorem Leaves.shorter :
    Log.readable everyRecord segs <+: Log.readable everyRecord (before ++ cut :: later) := by
  cases h with
  | longer n =>
    have hall : before ++ cut :: later = (before ++ cut :: later.take n) ++ later.drop n := by
      rw [append_assoc, cons_append, take_append_drop]
    rw [hall]
    exact readable_append everyRecord _ _
  | both _ hne hpart =>
    rw [hcut.readable_both hne hpart, show before ++ cut :: later = (before ++ [cut]) ++ later by simp]
    exact readable_append everyRecord _ _
  | rolled _ =>
    have hall : CutAt everyRecord none before groups ⟨next, imagesOf rs⟩ rs [] :=
      ⟨hcut.before.mono fun _ _ => rfl, hcut.rolled.data, hcut.rolled.size, hcut.run.mono fun _ _ _ => rfl, hcut.nonempty, stuck_nil⟩
    rw [hall.readable (.inr (.inl rfl)), ← hcut.readable hend]
    exact readable_mono (fun _ _ => rfl) _

end

/-- The oldest files are left, then at most a copy of a front of the cut file, beside that file or in its place. -/
def NoHole (next : ℕ) (d d' : Directory) : Prop :=
  (∃ n, live d' = (live d).take n) ∨
    ∃ before cut later part, live d = before ++ cut :: later ∧ part <+: cut.data ∧
      (live d' = before ++ [cut, ⟨next, part⟩] ∨ live d' = before ++ [⟨next, part⟩])

theorem Leaves.noHole (hlive : live d = before ++ cut :: later) (hdata : cut.data = imagesOf rs ++ tail)
    (h : Leaves before cut (imagesOf rs) tail later next (live d')) : NoHole next d d' := by
  have hcopy : imagesOf rs <+: cut.data := ⟨tail, hdata.symm⟩
  generalize hleft : live d' = left at h
  cases h with
  | longer n =>
    refine .inl ⟨before.length + (n + 1), hleft.trans ?_⟩
    rw [hlive, take_length_add_append, take_succ_cons]
  | both _ _ hpart => exact .inr ⟨before, cut, later, _, hlive, hpart.trans hcopy, .inl hleft⟩
  | rolled _ => exact .inr ⟨before, cut, later, _, hlive, hcopy, .inr hleft⟩

def keptRecords (target : ℕ) (d : Directory) : List WalRecord := readable (upTo target) d

theorem live_ne_nil : ∀ seg ∈ live d, seg.data ≠ [] := fun _ hseg => of_decide_eq_true (mem_filter.mp hseg).2

theorem truncation_interrupted (hd : Ordered d) (hnext : Fresh next d) (h : Interrupted (truncateAfter refuses next target d).ops d d') :
    keptRecords target d' = keptRecords target d ∧ readable everyRecord d' <+: readable everyRecord d ∧ Ordered d' ∧ NoHole next d d' := by
  rw [keptRecords, keptRecords, ← readable_live _ d, ← readable_live _ d', ← readable_live _ d, ← readable_live _ d']
  rcases exists_cut (upTo target) none (live d) live_ne_nil with hstop | ⟨before, groups, cut, rs, tail, later, hlive, hcut, hend⟩
  · rw [hstop.truncateAfter_eq] at h
    obtain ⟨⟨n, hn⟩, hsub⟩ := releaseAll_leaves hd h
    refine ⟨?_, ?_, ordered_of_sublist hd hnext hsub, .inl ⟨n, hn⟩⟩
    · rw [hn, (hstop.take n).readable, hstop.readable]
    · have happend := readable_append everyRecord ((live d).take n) ((live d).drop n)
      rw [take_append_drop] at happend
      rw [hn]
      exact happend
  · obtain ⟨hleaves, hsub⟩ := hcut.interrupted hend hd hnext hlive h
    refine ⟨?_, ?_, ordered_of_sublist hd hnext hsub, hleaves.noHole hlive hcut.data⟩
    · rw [hleaves.readable hcut hend, hlive, hcut.readable hend]
    · rw [hlive]
      exact hleaves.shorter hcut hend

theorem truncation_completed (hd : Ordered d) (hnext : Fresh next d) (h : (truncateAfter refuses next target d).completed = true) :
    LogIs (runOps (truncateAfter refuses next target d).ops d) (keptRecords target d) := by
  rw [keptRecords, ← readable_live]
  rcases exists_cut (upTo target) none (live d) live_ne_nil with hstop | ⟨before, groups, cut, rs, tail, later, hlive, hcut, hend⟩
  · rw [hstop.readable]
    rw [hstop.truncateAfter_eq] at h ⊢
    have hclean : Clean everyRecord none (live (runOps (releaseAll refuses next (live d).reverse).ops d)) [] := by
      rw [releaseAll_done hd h]
      exact .nil
    exact hclean.logIs
  · rw [hlive, hcut.readable hend]
    exact hcut.completed hend hd hnext hlive h

theorem release_granted (h : ∀ number, refuses number = false) (doomed : Directory) : (release refuses doomed).completed = true :=
  all_eq_true.mpr fun seg _ => by rw [h, Bool.not_false]

theorem Truncation.thenDo_granted {t : Truncation} (h : t.completed = true) (hmore : more.completed = true) :
    (t.thenDo more).completed = true := by rwa [thenDo, if_pos h]

theorem newSegment_granted (h : next ≤ maxSegmentNumber) (hmore : more.completed = true) :
    (newSegment next more).completed = true := by rwa [newSegment, if_pos h]

theorem truncation_granted (h : ∀ number, refuses number = false) (hnext : next ≤ maxSegmentNumber) (target : ℕ) (d : Directory) :
    (truncateAfter refuses next target d).completed = true := by
  have hall : ∀ doomed, (releaseAll refuses next doomed).completed = true := by
    intro doomed
    unfold releaseAll
    split
    · rfl
    · exact Truncation.thenDo_granted (release_granted h _) (newSegment_granted hnext (release_granted h _))
  unfold truncateAfter
  dsimp only
  split
  · exact hall _
  · split
    · rfl
    · apply Truncation.thenDo_granted (release_granted h _)
      split
      · exact newSegment_granted hnext (release_granted h _)
      · rfl

theorem Run.le_last (h : Run keep expected rs) : ∀ r ∈ rs, r.lsn ≤ lastLsn rs := by
  induction h with
  | nil => exact nofun
  | @cons expected r rs _ _ _ hrest ih =>
    have hcons : ∀ r' ∈ rs, lastLsn (r :: rs) = lastLsn rs := by
      intro r' hr'
      obtain ⟨x, xs, rfl⟩ := exists_cons_of_ne_nil (ne_nil_of_mem hr')
      rw [lastLsn, lastLsn, getLast?_cons_cons]
    intro x hx
    rcases mem_cons.mp hx with rfl | hx
    · cases hrest with
      | nil => exact le_rfl
      | cons _ _ hnext _ =>
        have hle := ih _ mem_cons_self
        rw [hnext _ rfl] at hle
        exact Nat.le_of_succ_le hle
    · rw [hcons x hx]
      exact ih x hx

theorem readable_run (keep : WalRecord → Bool) (d : Directory) : Run keep none (readable keep d) := by
  rw [← readable_live]
  rcases exists_cut keep none (live d) live_ne_nil with hstop | ⟨before, groups, cut, rs, tail, later, hlive, hcut, hend⟩
  · rw [hstop.readable]
    exact .nil
  · rw [hlive, hcut.readable hend]
    exact hcut.before.run.append hcut.run

theorem takeWhile_eq_of_all {p q : α → Bool} (xs : List α) (hpq : ∀ x, p x = true → q x = true)
    (h : ∀ x ∈ xs.takeWhile q, p x = true) : xs.takeWhile p = xs.takeWhile q := by
  induction xs with
  | nil => rfl
  | cons x xs ih =>
    by_cases hq : q x = true
    · rw [takeWhile_cons_of_pos hq] at h ⊢
      obtain ⟨hx, hxs⟩ := forall_mem_cons.mp h
      rw [takeWhile_cons_of_pos hx, ih hxs]
    · rw [takeWhile_cons_of_neg hq, takeWhile_cons_of_neg fun hp => hq (hpq x hp)]

theorem keptRecords_last (d : Directory) : keptRecords (lastLsn (readable everyRecord d)) d = readable everyRecord d := by
  have hle := Run.le_last (readable_run everyRecord d)
  unfold keptRecords
  obtain ⟨target, htarget⟩ : ∃ target, lastLsn (readable everyRecord d) = target := ⟨_, rfl⟩
  unfold readable at hle ⊢
  congr 1
  apply takeWhile_eq_of_all
  · intro item hitem
    cases item with
    | record _ _ _ => rfl
    | failure _ => exact hitem
  · intro item hitem
    cases item with
    | record segment offset r => exact decide_eq_true (hle r (mem_filterMap.mpr ⟨_, hitem, rfl⟩))
    | failure _ =>
      have hwanted := mem_takeWhile_imp hitem
      cases hwanted

/-- A truncation keeps the records at or below its number in the clean front of the log. Refused or stopped anywhere,
it leaves no hole and is completed by another attempt. -/
theorem truncation_keeps_prefix (d : Directory) (target next : ℕ) (refuses : ℕ → Bool) (hd : Ordered d) (hnext : Fresh next d) :
    ((truncateAfter refuses next target d).completed = true →
        LogIs (runOps (truncateAfter refuses next target d).ops d) (keptRecords target d)) ∧
      ((∀ number, refuses number = false) → next ≤ maxSegmentNumber → (truncateAfter refuses next target d).completed = true) ∧
      (keptRecords target d <+: readable everyRecord (runOps (truncateAfter refuses next target d).ops d) ∧
        readable everyRecord (runOps (truncateAfter refuses next target d).ops d) <+: readable everyRecord d ∧
        NoHole next d (runOps (truncateAfter refuses next target d).ops d)) ∧
      ∀ d', Interrupted (truncateAfter refuses next target d).ops d d' →
        keptRecords target d' = keptRecords target d ∧ keptRecords target d <+: readable everyRecord d' ∧
        readable everyRecord d' <+: readable everyRecord d ∧ NoHole next d d' ∧
        ∀ next' refuses', Fresh next' d' → (truncateAfter refuses' next' target d').completed = true →
          LogIs (runOps (truncateAfter refuses' next' target d').ops d') (keptRecords target d) := by
  have hfirsts : ∀ d', Interrupted (truncateAfter refuses next target d).ops d d' → keptRecords target d <+: readable everyRecord d' := by
    intro d' hd'
    rw [← (truncation_interrupted hd hnext hd').1]
    exact readable_mono (fun _ _ => rfl) d'
  refine ⟨truncation_completed hd hnext, fun h hmax => truncation_granted h hmax target d,
    ⟨hfirsts _ reaches_run, (truncation_interrupted hd hnext reaches_run).2.1, (truncation_interrupted hd hnext reaches_run).2.2.2⟩, ?_⟩
  intro d' hd'
  obtain ⟨hkept, hshorter, hordered, hhole⟩ := truncation_interrupted hd hnext hd'
  refine ⟨hkept, hfirsts d' hd', hshorter, hhole, ?_⟩
  intro next' refuses' hnext' hcompleted
  rw [← hkept]
  exact truncation_completed hordered hnext' hcompleted

def threeRecords : Directory :=
  [⟨1, imagesOf [plainRecord .begin 1 7, plainRecord .writePage 2 7]⟩,
    ⟨2, imagesOf [plainRecord .commit 3 7]⟩]

theorem truncation_keeps_first : Ordered threeRecords ∧ Fresh 3 threeRecords ∧
    LogIs (runOps (truncateAfter (fun _ => false) 3 1 threeRecords).ops threeRecords) (keptRecords 1 threeRecords) :=
  have h := truncation_keeps_prefix threeRecords 1 3 (fun _ => false) (by decide) (by decide)
  ⟨by decide, by decide, h.1 (h.2.1 (fun _ => rfl) (by decide))⟩

end Grafx.Log
