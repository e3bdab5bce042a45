import OktoGrafx.Log.RecycleSafe

/-! Bringing an index up to date with the device. Where nothing moved nothing is read; where bytes were
added only those are. A newest segment that is gone, damage that moved, or a segment that shrank sends
the participant over the whole log again. -/

namespace Grafx.Log

open List Wal

namespace TailIndex

variable (ix : TailIndex)

def numbers : List ℕ := ix.segments.map SegmentInfo.number

def known (number : ℕ) : SegmentInfo := (ix.segments.find? fun info => decide (info.number = number)).getD (unread number)

def changed (seg : Segment) : Bool := decide (seg.number ∉ ix.numbers) || decide (seg.data.length ≠ (ix.known seg.number).sizeBytes)

def shrunk (seg : Segment) : Bool := decide (seg.data.length < (ix.known seg.number).sizeBytes)

def unmoved (d : Directory) : Bool :=
  decide (d.map Segment.number = ix.numbers) && ix.segments.getLast?.all fun tail => decide (sizeOf d tail.number = tail.sizeBytes)

def anchorGone (d : Directory) : Bool := ix.segments.getLast?.any fun tail => decide (tail.number ∉ d.map Segment.number)

def resume (d : Directory) : TailIndex :=
  let found := walkFrom (fun number => (ix.known number).sizeBytes) (if ix.lastLsn = noLsn then none else some (ix.lastLsn + 1)) d
  let good := goodItems found.1
  let records := good.filterMap ScanItem.record?
  let last := (records.getLast?.map WalRecord.lsn).getD ix.lastLsn
  ⟨(live d).map (infoOf ix.known good), last, maxEpochOf ix.maxEpoch records, (damageOf d found last).or ix.damage, nextNumberOf d⟩

def refresh (d : Directory) : TailIndex :=
  if ix.unmoved d then ix
  else if ix.anchorGone d then rescan d
  else if ix.damage.isSome && d.any ix.changed then rescan d
  else if d.any ix.shrunk then rescan d
  else ix.resume d

structure Agrees (ix ix' : TailIndex) : Prop where
  segments : ix.segments = ix'.segments
  lastLsn : ix.lastLsn = ix'.lastLsn
  damage : ix.damage = ix'.damage

variable {ix} {ix' : TailIndex} {d : Directory}

theorem Agrees.refl (ix : TailIndex) : Agrees ix ix := ⟨rfl, rfl, rfl⟩

theorem Agrees.symm (h : Agrees ix ix') : Agrees ix' ix := ⟨h.segments.symm, h.lastLsn.symm, h.damage.symm⟩

theorem Agrees.trans {ix'' : TailIndex} (h : Agrees ix ix') (h' : Agrees ix' ix'') : Agrees ix ix'' :=
  ⟨h.segments.trans h'.segments, h.lastLsn.trans h'.lastLsn, h.damage.trans h'.damage⟩

theorem refresh_cases (ix : TailIndex) (d : Directory) :
    ix.unmoved d = true ∧ ix.refresh d = ix ∨ ix.refresh d = rescan d ∨
      ix.anchorGone d = false ∧ (ix.damage = none ∨ d.any ix.changed = false) ∧ ix.refresh d = ix.resume d := by
  unfold refresh
  by_cases hunmoved : ix.unmoved d = true
  · rw [if_pos hunmoved]
    exact .inl ⟨hunmoved, rfl⟩
  rw [if_neg hunmoved]
  by_cases hgone : ix.anchorGone d = true
  · rw [if_pos hgone]
    exact .inr (.inl rfl)
  rw [if_neg hgone]
  by_cases hdamage : (ix.damage.isSome && d.any ix.changed) = true
  · rw [if_pos hdamage]
    exact .inr (.inl rfl)
  rw [if_neg hdamage]
  split
  · exact .inr (.inl rfl)
  · refine .inr (.inr ⟨Bool.eq_false_of_not_eq_true hgone, ?_, rfl⟩)
    rcases Bool.and_eq_false_iff.mp (Bool.eq_false_of_not_eq_true hdamage) with hnone | hsame
    · exact .inl (Option.isNone_iff_eq_none.mp (by simpa using hnone))
    · exact .inr hsame

theorem unmoved_iff : ix.unmoved d = true ↔ d.map Segment.number = ix.numbers ∧ ∀ tail, ix.segments.getLast? = some tail → sizeOf d tail.number = tail.sizeBytes := by
  rw [unmoved, Bool.and_eq_true_iff, decide_eq_true_iff, Option.all_eq_true]
  simp only [decide_eq_true_iff]

theorem anchorGone_false (h : ix.anchorGone d = false) : ∀ tail, ix.segments.getLast? = some tail → tail.number ∈ d.map Segment.number := by
  intro tail htail
  rw [anchorGone, htail] at h
  simpa using h

/-! ## What the index knows of a file -/

abbrev Ascending (ix : TailIndex) : Prop := ix.segments.Pairwise fun a b => a.number < b.number

theorem known_of_mem {info : SegmentInfo} (hordered : ix.Ascending) (h : info ∈ ix.segments) :
    ix.known info.number = info := by
  obtain ⟨front, back, hsplit⟩ := append_of_mem h
  rw [Ascending, hsplit] at hordered
  have hfront := (pairwise_append.mp hordered).2.2
  have hfind : (ix.segments.find? fun x => decide (x.number = info.number)) = some info := by
    rw [hsplit, find?_append, find?_eq_none.mpr]
    · simp
    · intro x hx
      have hlt := hfront x hx info mem_cons_self
      simp [hlt.ne]
  rw [known, hfind]
  rfl

theorem known_of_not_mem {number : ℕ} (h : number ∉ ix.numbers) : ix.known number = unread number := by
  have hfind : (ix.segments.find? fun info => decide (info.number = number)) = none := by
    apply find?_eq_none.mpr
    intro info hinfo heq
    exact h (mem_map.mpr ⟨info, hinfo, of_decide_eq_true heq⟩)
  rw [known, hfind]
  rfl

end TailIndex

/-! ## The accounting depends on what is live -/

variable {d segs : Directory} {seg : Segment} {expected : Option ℕ} {number : ℕ}

theorem sizeOf_mem (h : Ordered d) (hseg : seg ∈ d) : sizeOf d seg.number = seg.data.length := by
  obtain ⟨front, back, rfl⟩ := append_of_mem hseg
  have hfront := (pairwise_append.mp h).2.2
  have hfind : ((front ++ seg :: back).find? fun x => decide (x.number = seg.number)) = some seg := by
    rw [find?_append, find?_eq_none.mpr]
    · simp
    · intro x hx
      have hlt := hfront x hx seg mem_cons_self
      simp [hlt.ne]
  rw [sizeOf, hfind]
  rfl

theorem live_live (d : Directory) : live (live d) = live d := by
  rw [live, live, filter_filter]
  simp only [Bool.and_self]

theorem live_mem (h : seg ∈ live d) : seg ∈ d := (mem_filter.mp h).1

theorem walkFrom_raised {starts : ℕ → ℕ} (h : (walkFrom starts expected segs).2 = some number) : ∃ seg ∈ segs, seg.number = number := by
  induction segs generalizing expected with
  | nil => cases h
  | cons seg segs ih =>
    rw [walkFrom] at h
    split at h
    · obtain ⟨x, hx, heq⟩ := ih h
      exact ⟨x, mem_cons_of_mem _ hx, heq⟩
    · split at h
      · exact ⟨seg, mem_cons_self, Option.some.inj h⟩
      · obtain ⟨x, hx, heq⟩ := ih h
        exact ⟨x, mem_cons_of_mem _ hx, heq⟩

theorem rescan_live (h : Ordered d) : (rescan d).Agrees (rescan (live d)) := by
  have hwalk := walk_live none d
  refine ⟨?_, ?_, ?_⟩
  · show (live d).map _ = (live (live d)).map _
    rw [live_live, hwalk]
  · show lastLsn _ = lastLsn _
    rw [hwalk]
  · show damageOf d _ _ = damageOf (live d) _ _
    rw [hwalk, damageOf, damageOf]
    cases hraised : (walk none (live d)).2 with
    | none => rfl
    | some number =>
      obtain ⟨seg, hseg, rfl⟩ := walkFrom_raised hraised
      rw [Option.map_some, Option.map_some, sizeOf_mem h (live_mem hseg), sizeOf_mem h.live hseg]

end Grafx.Log
