import OktoGrafx.Log.Names
import OktoGrafx.Log.Written

/-! One sequence of numbers for all participants. A participant that starts from a refreshed index knows
the last number on the device, and what it writes goes on from there; what it does leaves every other
index in a state from which a refresh finds the end of the log again. -/

namespace Grafx.Log

open List Interrupt Wal

variable {d d' : Directory} {ix : TailIndex} {refuses : ℕ → Bool} {horizon target n : ℕ} {seg : Segment} {infos : List SegmentInfo}

/-! ## Indexes that are right, and indexes that can be refreshed -/

structure Settled (ix : TailIndex) (d : Directory) : Prop where
  segments : ix.segments = (rescan d).segments
  lastLsn : ix.lastLsn = (rescan d).lastLsn
  damage : ix.damage = none → (rescan d).damage = none

structure Tracks (ix : TailIndex) (d : Directory) : Prop where
  follows : ∃ damage, Follows { ix with damage := damage } d ∧ (ix.damage = none → damage = none)
  below : Below ix d
  ascending : ix.Ascending

theorem Settled.agrees (h : Settled ix d) (hdamage : ix.damage = none) : ix.Agrees (rescan d) :=
  ⟨h.segments, h.lastLsn, hdamage.trans (h.damage hdamage).symm⟩

theorem Settled.of_agrees (h : ix.Agrees (rescan d)) : Settled ix d := ⟨h.segments, h.lastLsn, fun hnone => h.damage.symm.trans hnone⟩

theorem Settled.tracks (h : Settled ix d) (hd : Ordered d) : Tracks ix d := by
  have hagrees : TailIndex.Agrees { ix with damage := (rescan d).damage } (rescan d) := ⟨h.segments, h.lastLsn, rfl⟩
  have hbelow : Below { ix with damage := (rescan d).damage } d := agrees_below hagrees
  have hascending : TailIndex.Ascending { ix with damage := (rescan d).damage } :=
    agrees_ordered hagrees hd
  exact ⟨⟨_, follows_of_agrees hagrees hd, h.damage⟩, hbelow, hascending⟩

theorem Settled.ascending (h : Settled ix d) (hd : Ordered d) : ix.Ascending := (h.tracks hd).ascending

theorem refresh_damaged (hdamage : ix.damage ≠ none) (damage : Option ScanFailure) (d : Directory) :
    ix.refresh d = rescan d ∨
      (ix.refresh d).segments = (TailIndex.refresh { ix with damage := damage } d).segments ∧
      (ix.refresh d).lastLsn = (TailIndex.refresh { ix with damage := damage } d).lastLsn ∧ (ix.refresh d).damage ≠ none := by
  have hsome : ix.damage.isSome = true := Option.isSome_iff_ne_none.mpr hdamage
  have hunmoved : TailIndex.unmoved { ix with damage := damage } d = ix.unmoved d := rfl
  have hgone : TailIndex.anchorGone { ix with damage := damage } d = ix.anchorGone d := rfl
  have hchanged : d.any (TailIndex.changed { ix with damage := damage }) = d.any ix.changed := rfl
  have hshrunk : d.any (TailIndex.shrunk { ix with damage := damage }) = d.any ix.shrunk := rfl
  unfold TailIndex.refresh
  rw [hunmoved, hgone, hchanged, hshrunk, hsome]
  by_cases h₁ : ix.unmoved d = true
  · rw [if_pos h₁, if_pos h₁]
    exact .inr ⟨rfl, rfl, hdamage⟩
  rw [if_neg h₁, if_neg h₁]
  by_cases h₂ : ix.anchorGone d = true
  · rw [if_pos h₂]
    exact .inl rfl
  rw [if_neg h₂, if_neg h₂]
  by_cases h₃ : d.any ix.changed = true
  · rw [h₃, if_pos (by rfl)]
    exact .inl rfl
  rw [Bool.eq_false_of_not_eq_true h₃, Bool.and_false, Bool.and_false, if_neg Bool.false_ne_true, if_neg Bool.false_ne_true]
  split
  · exact .inl rfl
  · refine .inr ⟨rfl, rfl, ?_⟩
    intro hnone
    exact hdamage (Option.or_eq_none_iff.mp hnone).2

theorem Tracks.refresh (h : Tracks ix d) (hd : Ordered d) : Settled (ix.refresh d) d := by
  obtain ⟨damage, hfollows, hnone⟩ := h.follows
  have hascending : TailIndex.Ascending { ix with damage := damage } := h.ascending
  have hagrees := hfollows.refresh hd hascending
  by_cases hdamage : ix.damage = none
  · have hsame : { ix with damage := damage } = ix := by rw [hnone hdamage, ← hdamage]
    rw [hsame] at hagrees
    exact .of_agrees hagrees
  · rcases refresh_damaged hdamage damage d with heq | ⟨hsegments, hlast, hsome⟩
    · rw [heq]
      exact .of_agrees (.refl _)
    · exact ⟨hsegments.trans hagrees.segments, hlast.trans hagrees.lastLsn, fun hnone => absurd hnone hsome⟩

/-! ## What a step leaves of the others -/

structure Carries (d d' : Directory) : Prop where
  healthy : Healthy d'
  tracks : ∀ ix, Tracks ix d → Tracks ix d'

section
variable (hd : Ordered d)
include hd

theorem CarefulStep.healthy (h : CarefulStep d d') (hhealthy : Healthy d) : Healthy d' := by
  obtain ⟨m, hallowed, hcareful, rfl⟩ := h
  cases m with
  | create number => exact healthy_of_live hhealthy (live_create number d)
  | write number more => exact hallowed.2.2
  | truncate refuses next target => exact truncate_healthy hd hallowed hcareful hhealthy
  | recycle refuses horizon =>
    rcases recycle_apply refuses horizon d with hsame | ⟨ix', hrecycle⟩
    · rwa [hsame]
    · exact (recycled hd (recycle_ok hrecycle)).healthy hhealthy
  | cut number size => exact hcareful.elim

theorem CarefulStep.tracks (h : CarefulStep d d') (htracks : Tracks ix d) : Tracks ix d' := by
  obtain ⟨m, hallowed, hcareful, rfl⟩ := h
  obtain ⟨damage, hfollows, hnone⟩ := htracks.follows
  exact ⟨⟨damage, hfollows.move m hd htracks.ascending htracks.below hallowed hcareful, hnone⟩,
    htracks.below.mono (m.topped hd hallowed hcareful), htracks.ascending⟩

omit hd in
theorem Carries.refl (h : Healthy d) : Carries d d := ⟨h, fun _ htracks => htracks⟩

theorem carries_of_steps (hhealthy : Healthy d) (h : Relation.ReflTransGen CarefulStep d d') : Carries d d' ∧ Ordered d' := by
  induction h with
  | refl => exact ⟨.refl hhealthy, hd⟩
  | tail _ hstep ih =>
    obtain ⟨hcarries, hordered⟩ := ih
    refine ⟨⟨hstep.healthy hordered hcarries.healthy, fun ix htracks => hstep.tracks hordered (hcarries.tracks ix htracks)⟩, ?_⟩
    obtain ⟨m, hallowed, -, rfl⟩ := hstep
    exact m.ordered hordered hallowed

theorem carries_recycled (hhealthy : Healthy d) (hspares : Spares refuses horizon d)
    (htop : ∀ seg ∈ d, ∃ seg' ∈ withoutDropped refuses horizon d, seg.number ≤ seg'.number) : Carries d (withoutDropped refuses horizon d) := by
  have hleft : Recycled d (withoutDropped refuses horizon d) _ := recycled hd rfl
  refine ⟨hleft.healthy hhealthy, ?_⟩
  intro ix htracks
  obtain ⟨damage, hfollows, hnone⟩ := htracks.follows
  exact ⟨⟨damage, hfollows.recycled hleft (recycled_agrees hd rfl hspares) hd, hnone⟩, htracks.below.mono htop, htracks.ascending⟩

/-! ## Truncating by an index that is right -/

theorem Ordered.eq_of_number {x y : Segment} (hx : x ∈ d) (hy : y ∈ d) (h : x.number = y.number) : x = y := by
  have hnodup : (d.map Segment.number).Nodup := (pairwise_map.mpr hd).imp Nat.ne_of_lt
  exact inj_on_of_nodup_map hnodup hx hy h

end

section
variable (h : Settled ix d)
include h

theorem Settled.numbers : ix.numbers = (live d).map Segment.number := by
  rw [TailIndex.numbers, h.segments]
  exact map_number_infos _ _

variable (hd : Ordered d)
include hd

theorem Settled.files : ix.files d = live d := by
  rw [TailIndex.files, h.numbers]
  apply filter_congr
  intro seg hseg
  apply decide_eq_decide.mpr
  constructor
  · intro hmem
    obtain ⟨x, hx, heq⟩ := mem_map.mp hmem
    rw [← hd.eq_of_number (live_mem hx) hseg heq]
    exact live_ne_nil x hx
  · intro hne
    exact mem_map_of_mem (mem_filter.mpr ⟨hseg, decide_eq_true hne⟩)

theorem Settled.registered : ix.registered d = live d := by
  rw [TailIndex.registered, h.files hd]
  refine map_unchanged fun seg hseg => ?_
  have hmem : infoOf unread (goodItems (walk none d).1) seg ∈ ix.segments := by
    rw [h.segments]
    exact mem_map_of_mem hseg
  rw [show ix.known seg.number = _ from known_info (h.ascending hd) hmem, infoOf_size, take_length]

theorem Settled.findCut : ix.findCut target d = findCut target (walk none (live d)).1 none := by
  rw [TailIndex.findCut, h.registered hd]

theorem Settled.truncateAfter : ix.truncateAfter refuses target d = truncateAfter refuses ix.nextNumber target d := by
  unfold TailIndex.truncateAfter Log.truncateAfter
  rewrite [h.findCut hd, h.files hd]
  rfl

theorem Settled.careful (hgranted : ∀ n, refuses n = false) (hnext : ix.nextNumber ≤ maxSegmentNumber)
    (hcut : ix.behindCut target d = [] ∨ ix.cutsInside target d = true) : (Move.truncate refuses ix.nextNumber target).Careful d := by
  have hcompleted := truncation_granted hgranted hnext target d
  unfold TailIndex.behindCut TailIndex.cutsInside at hcut
  rw [h.findCut hd, h.files hd] at hcut
  cases hfound : Log.findCut target (walk none (live d)).1 none with
  | none =>
    refine .inr ⟨hcompleted, ?_⟩
    rw [keepsNumbers, hfound]
  | some place =>
    obtain ⟨number, offset⟩ := place
    rw [hfound] at hcut
    rcases hcut with hbehind | hinside
    · cases hdrop : (live d).dropWhile fun seg => decide (seg.number ≠ number) with
      | nil =>
        left
        unfold Log.truncateAfter
        simp only [hfound, hdrop]
      | cons cut later =>
        obtain ⟨rfl, -⟩ := dropWhile_number hdrop
        have hlater : later = [] := by
          simp only [hdrop, tail_cons] at hbehind
          exact hbehind
        refine .inr ⟨hcompleted, ?_⟩
        rw [keepsNumbers, hfound]
        apply Bool.or_eq_true_iff.mpr
        right
        apply decide_eq_true
        have horder := hd.live
        rw [← takeWhile_append_dropWhile (p := fun seg => decide (seg.number ≠ cut.number)) (l := live d), hdrop, hlater] at horder
        intro seg hseg
        rw [← takeWhile_append_dropWhile (p := fun seg => decide (seg.number ≠ cut.number)) (l := live d), hdrop, hlater] at hseg
        rcases mem_append.mp hseg with hseg | hseg
        · exact ((pairwise_append.mp horder).2.2 seg hseg cut mem_cons_self).le
        · rw [mem_singleton.mp hseg]
    · refine .inr ⟨hcompleted, ?_⟩
      rw [keepsNumbers, hfound]
      exact Bool.or_eq_true_iff.mpr (.inl hinside)

end

/-! ## Recycling by an index that is right -/

theorem run_dropped (infos : List SegmentInfo) (d : Directory) :
    runOps (infos.map fun info => .recycle info.number) d = d.filter fun seg => decide (seg.number ∉ infos.map SegmentInfo.number) := by
  have hops : (infos.map fun info => FileOp.recycle info.number) =
      (infos.map fun info => (⟨info.number, []⟩ : Segment)).map fun seg => .recycle seg.number := by
    rw [map_map]
    rfl
  rw [hops, run_recycles, map_map]
  rfl

def refusesOthers (refuses : ℕ → Bool) (infos : List SegmentInfo) (m : ℕ) : Bool := refuses m || decide (m ∉ infos.map SegmentInfo.number)

theorem dropped_take_refused (hascending : infos.Pairwise fun a b => a.number < b.number) (refuses : ℕ → Bool) (horizon n : ℕ) :
    dropped (refusesOthers refuses ((dropped refuses horizon infos).take n)) horizon infos = (dropped refuses horizon infos).take n := by
  obtain ⟨ys, hys⟩ : ∃ ys, (dropped refuses horizon infos).take n = ys := ⟨_, rfl⟩
  rw [hys]
  have hfirsts : ys <+: infos.take (recyclablePrefix horizon infos) :=
    hys ▸ (show _ <+: dropped refuses horizon infos from ⟨_, take_append_drop _ _⟩).trans ⟨_, takeWhile_append_dropWhile⟩
  obtain ⟨rest, hrest⟩ := hfirsts
  have hsub : (ys ++ rest).Sublist infos := hrest ▸ take_sublist _ _
  rw [dropped, ← hrest, takeWhile_append_of_pos]
  · cases rest with
    | nil => exact append_nil _
    | cons x rest =>
      have hx : x.number ∉ ys.map SegmentInfo.number := by
        intro hmem
        obtain ⟨y, hy, heq⟩ := mem_map.mp hmem
        exact ((pairwise_append.mp (hascending.sublist hsub)).2.2 y hy x mem_cons_self).ne heq
      rw [takeWhile_cons_of_neg (by simp [refusesOthers, hx]), append_nil]
  · intro x hx
    have hreleased : refuses x.number = false := (mem_dropped (mem_of_mem_take (hys ▸ hx))).2.2
    have hmem : x.number ∈ ys.map SegmentInfo.number := mem_map_of_mem hx
    simp [refusesOthers, hreleased, hmem]

theorem Spares.refusesOthers (h : Spares refuses horizon d) (only : List SegmentInfo) : Spares (refusesOthers refuses only) horizon d := by
  intro segment offset r hlast
  refine (h segment offset r hlast).imp_right (Or.imp_right ?_)
  rintro ⟨older, hmem, hle, hrefused⟩
  exact ⟨older, hmem, hle, Bool.or_eq_true_iff.mpr (.inl hrefused)⟩

theorem Settled.dropped (h : Settled ix d) (hd : Ordered d) (hd' : Ordered (withoutDropped refuses horizon d))
    (hspares : Spares refuses horizon d) :
    Settled { ix with segments := ix.segments.drop (dropped refuses horizon ix.segments).length } (withoutDropped refuses horizon d) := by
  have hagrees := recycled_agrees hd rfl hspares
  have hlive := rescan_live hd
  have hlive' := rescan_live hd'
  refine ⟨?_, ?_, ?_⟩
  · rw [h.segments, hlive'.segments, ← hagrees.segments]
    rw [← hlive.segments]
  · exact h.lastLsn.trans (hlive.lastLsn.trans (hagrees.lastLsn.trans hlive'.lastLsn.symm))
  · intro hnone
    have hdamage : (rescan (live d)).damage = (rescan (live (withoutDropped refuses horizon d))).damage := hagrees.damage
    rw [hlive'.damage, ← hdamage, ← hlive.damage]
    exact h.damage hnone

/-! ## The steps of participants -/

def View.Tracked (v : View) (d : Directory) : Prop := ∀ ix, v.index = some ix → Tracks ix d

theorem View.current_settled {v : View} (h : v.Tracked d) (hd : Ordered d) : Settled (v.current d) d := by
  unfold View.current
  cases hindex : v.index with
  | none => exact .of_agrees (.refl _)
  | some ix => exact (h ix hindex).refresh hd

theorem View.tracked_some {uncertain : Bool} (h : Tracks ix d) : View.Tracked ⟨some ix, uncertain⟩ d :=
  fun _ heq => Option.some.inj heq ▸ h

/-- A truncation ends and leaves a higher number, recycling spares the last record, a failed append keeps its name, and
nobody looks at the log while that append is to be undone. -/
def Act.Careful {ι : Type*} (a : Act ι) (pending : Option (Pending ι)) (v : View) (d : Directory) : Prop :=
  match a with
  | refresh _ => pending = none
  | undo _ c => c.keepsName = true
  | truncate _ target refuses stop => stop = none ∧ (∀ n, refuses n = false) ∧ (v.current d).nextNumber ≤ maxSegmentNumber ∧
      ((v.current d).behindCut target d = [] ∨ (v.current d).cutsInside target d = true)
  | recycle _ horizon refuses _ => Spares refuses horizon d
  | _ => True

section Steps
variable {ι : Type*} {cfg : ι → LogConfig} {a : Act ι} {v : View} {pending : Option (Pending ι)} {p : Pending ι}

theorem Act.Careful.keepsNames (h : a.Careful pending v d) : a.KeepsNames v d := by
  cases a with
  | restart i => trivial
  | refresh i => trivial
  | append i wall records c => trivial
  | undo i c => exact h
  | truncate i target refuses stop =>
    obtain ⟨hstop, hgranted, hnext, hcut⟩ := h
    exact hcut.imp_right fun hinside => .inr ⟨hstop, hgranted, hnext, hinside⟩
  | recycle i horizon refuses stop => trivial

/-! ## Appends that fail -/

/-- What a failed append has left on the device. -/
inductive Leaving (d : Directory) (a : Append) : Directory → Prop
  | nothing : a.number ∉ d.map Segment.number → Leaving d a d
  | part {part : Bytes} : part <+: a.blob → Leaving d a ((FileOp.append a.number part).apply (runOps a.creates d))

section
variable {a : Append} (h : Accepted ix d a)
include h

theorem Accepted.carries (hleft : Leaving d a d') : Carries d d' := by
  cases hleft with
  | nothing _ => exact .refl h.healthy
  | @part part hpart =>
    have hsteps := h.steps hpart
    rw [runOps, run_append] at hsteps
    exact (carries_of_steps h.ordered h.healthy hsteps).1

theorem Accepted.leaving (c : Answers) :
    Leaving d a (runOps (a.writeOps c d).2 d) ∧ (a.accepted c d = true → (a.writeOps c d).2 = a.creates ++ [.append a.number a.blob]) := by
  have hmissing := h.prepared.missing h.fresh
  have hpart : ∀ {part : Bytes}, part <+: a.blob → Leaving d a (runOps (a.creates ++ [.append a.number part]) d) := by
    intro part hpart
    rw [runOps, run_append]
    exact .part hpart
  unfold Append.accepted
  rcases a.writeOps_cases c hmissing with heq | ⟨part, hfirst, heq⟩ | heq | ⟨hrolling, -, heq⟩ <;> rw [heq]
  · exact ⟨hpart (prefix_refl _), fun _ => rfl⟩
  · exact ⟨hpart hfirst, (absurd · Bool.false_ne_true)⟩
  · have hnone := hpart <| nil_prefix (l := a.blob)
    rw [runOps, run_append] at hnone
    exact ⟨append_nil_apply a.number (runOps a.creates d) ▸ hnone, (absurd · Bool.false_ne_true)⟩
  · exact ⟨.nothing (hmissing hrolling), (absurd · Bool.false_ne_true)⟩

theorem Accepted.tail (t : SegmentInfo) (ht : ix.segments.getLast? = some t) : ∃ seg ∈ d, seg.number = t.number ∧ seg.data.length = t.sizeBytes :=
  last_infoOf (fun _ => rfl) (h.agrees.segments ▸ ht)

theorem Accepted.undone {c : Answers} (hkept : c.keepsName = true) (hleft : Leaving d a d') (created : Bool) :
    Leaving d a (runOps (undoOps c a.number (a.sizeBefore ix) created d').2 d') := by
  rcases undoOps_kept hkept a.number (a.sizeBefore ix) created d' with heq | heq <;> rw [heq]
  · exact hleft
  show Leaving d a ((FileOp.cut a.number (a.sizeBefore ix)).apply d')
  cases hleft with
  | nothing hmissing =>
    have hsame : (FileOp.cut a.number (a.sizeBefore ix)).apply d = d :=
      map_unchanged fun seg hseg => if_neg fun heq : seg.number = a.number => hmissing (heq ▸ mem_map_of_mem hseg)
    rw [hsame]
    exact .nothing hmissing
  | part hpart =>
    have hback := Leaving.part (d := d) <| nil_prefix (l := a.blob)
    rw [append_nil_apply] at hback
    rwa [cut_append (h.prepared.opened h.ordered h.fresh h.tail).2]

end

section
variable (h : Settled ix d) (hd : Ordered d) (hhealthy : Healthy d) (hlisted : Listed ix d)
include h hd hhealthy hlisted

theorem Settled.carries_truncate (uncertain : Bool) (hgranted : ∀ n, refuses n = false) (hnext : ix.nextNumber ≤ maxSegmentNumber)
    (hcut : ix.behindCut target d = [] ∨ ix.cutsInside target d = true) :
    Carries d (runOps (ix.truncateAfter refuses target d).ops d) ∧
      (truncatedView ix uncertain (ix.truncateAfter refuses target d) none d).Tracked (runOps (ix.truncateAfter refuses target d).ops d) := by
  have hstep : CarefulStep d (runOps (ix.truncateAfter refuses target d).ops d) := by
    rw [h.truncateAfter hd]
    exact ⟨.truncate refuses ix.nextNumber target, hlisted.fresh, h.careful hd hgranted hnext hcut, rfl⟩
  obtain ⟨hcarries, hordered⟩ := carries_of_steps hd hhealthy (.single hstep)
  refine ⟨hcarries, View.tracked_some ?_⟩
  unfold truncatedIndex
  split
  · have hburned : Settled (ix.burn (burns none (ix.truncateAfter refuses target d).ops)) d := ⟨h.segments, h.lastLsn, h.damage⟩
    exact hcarries.tracks _ (hburned.tracks hd)
  · exact (Settled.of_agrees (.refl _)).tracks hordered

theorem Settled.carries_recycle (hspares : Spares refuses horizon d) :
    Carries d (runOps ((Log.dropped refuses horizon ix.segments).map fun info => .recycle info.number) d) ∧
      Tracks { ix with segments := ix.segments.drop (Log.dropped refuses horizon ix.segments).length }
        (runOps ((Log.dropped refuses horizon ix.segments).map fun info => .recycle info.number) d) := by
  have hburns : Burns d ((Log.dropped refuses horizon ix.segments).map fun info => .recycle info.number) :=
    recycle_burns hlisted (prefix_refl _)
  have hordered := hburns.ordered hd
  have htop := hburns.topped
  have hrun : runOps ((Log.dropped refuses horizon ix.segments).map fun info => .recycle info.number) d = withoutDropped refuses horizon d := by
    rw [run_dropped, h.segments]
    rfl
  rw [hrun] at hordered htop ⊢
  refine ⟨carries_recycled hd hhealthy hspares ?_, (h.dropped hd hordered hspares).tracks hordered⟩
  intro seg hseg
  obtain ⟨m, hm, hle⟩ := htop seg.number (mem_map_of_mem hseg)
  obtain ⟨seg', hseg', rfl⟩ := mem_map.mp hm
  exact ⟨seg', hseg', hle⟩

theorem Settled.accepted {a : Append} (hprepared : Prepared ix a) : Accepted ix d a :=
  ⟨hprepared, hd, h.agrees hprepared.undamaged, hlisted.fresh, hhealthy⟩

end

theorem Settled.undone (h : Settled ix d) (a : Append) (size : ℕ) (repaired : Bool) : Settled (undoneIndex a size repaired ix) d := by
  unfold undoneIndex
  split
  · exact ⟨h.segments, h.lastLsn, h.damage⟩
  · exact ⟨h.segments, h.lastLsn, fun hnone => by cases hnone⟩

theorem Act.carries (hd : Ordered d) (hhealthy : Healthy d) (hnumbered : v.Numbered) (htracked : v.Tracked d) (h : a.Careful none v d) :
    Carries d (runOps (a.ops cfg none v d) d) ∧ (a.view cfg none v d).Tracked (runOps (a.ops cfg none v d) d) := by
  have hsettled := View.current_settled htracked hd
  have hlisted := View.current_listed hnumbered hd
  have htracks := hsettled.tracks hd
  have hrefl : Carries d d := .refl hhealthy
  cases a with
  | restart i => exact ⟨hrefl, fun _ heq => by cases heq⟩
  | refresh i => exact ⟨hrefl, View.tracked_some htracks⟩
  | append i wall records c =>
    simp only [Act.ops, Act.view]
    cases hprepare : prepareAppend (cfg i) (v.current d) v.uncertain wall records with
    | error _ => exact ⟨hrefl, View.tracked_some htracks⟩
    | ok a =>
      have haccepted := hsettled.accepted hd hhealthy hlisted (prepareAppend_ok hprepare).2
      obtain ⟨hleft, hwhole⟩ := haccepted.leaving c
      have hcarries := haccepted.carries hleft
      dsimp only
      split
      · rename_i hdone
        rw [hwhole hdone] at hcarries ⊢
        have hordered := (carries_of_steps hd hhealthy (haccepted.steps (prefix_refl a.blob))).2
        exact ⟨hcarries, View.tracked_some ((Settled.of_agrees haccepted.registered).tracks hordered)⟩
      · exact ⟨hcarries, View.tracked_some (hcarries.tracks _ htracks)⟩
  | undo i c => exact ⟨hrefl, htracked⟩
  | truncate i target refuses stop =>
    obtain ⟨rfl, hgranted, hnext, hcut⟩ := h
    exact hsettled.carries_truncate hd hhealthy hlisted _ hgranted hnext hcut
  | recycle i horizon refuses stop =>
    cases stop with
    | none =>
      show Carries d (runOps (recycleOps refuses horizon (v.current d) d) d) ∧
        View.Tracked ⟨some (recycledIndex refuses horizon (v.current d) d), v.uncertain⟩ (runOps (recycleOps refuses horizon (v.current d) d) d)
      rcases recycle_cases refuses horizon (v.current d) d with ⟨hops, hindex⟩ | ⟨hops, hindex⟩
      · rw [hops, hindex]
        exact ⟨hrefl, View.tracked_some htracks⟩
      · rw [hops, hindex]
        obtain ⟨hcarries, hdropped⟩ := hsettled.carries_recycle hd hhealthy hlisted h
        exact ⟨hcarries, View.tracked_some hdropped⟩
    | some n =>
      have hcarries : Carries d (runOps ((recycleOps refuses horizon (v.current d) d).take n) d) := by
        rcases recycle_cases refuses horizon (v.current d) d with ⟨heq, -⟩ | ⟨heq, -⟩
        · rw [heq, take_nil]
          exact hrefl
        · -- the pass is one that is refused the next segment
          have hstopped := dropped_take_refused (hsettled.ascending hd) refuses horizon n
          have hspares := Spares.refusesOthers h ((dropped refuses horizon (v.current d).segments).take n)
          have hpass := (hsettled.carries_recycle hd hhealthy hlisted hspares).1
          rw [hstopped] at hpass
          rw [heq, ← map_take]
          exact hpass
      exact ⟨hcarries, View.tracked_some (hcarries.tracks _ htracks)⟩

/-! ## Runs -/

/-- The device before the append that is to be undone, which is what every index has seen. -/
structure Failed (p : Pending ι) (views : ι → View) (d₀ d : Directory) : Prop where
  accepted : ∃ ix, (views p.actor).index = some ix ∧ Accepted ix d₀ p.append ∧ p.sizeBefore = p.append.sizeBefore ix
  left : Leaving d₀ p.append d
  tracked : ∀ i, (views i).Tracked d₀

/-- The log is as writers leave it, and every index can be brought up to date. -/
structure Sequenced (s : LogState ι) : Prop where
  numbering : Numbering s
  healthy : Healthy s.files
  tracked : ∀ i, (s.views i).Tracked s.files
  failed : ∀ p, s.pending = some p → ∃ d₀, Failed p s.views d₀ s.files

theorem sequenced_start (hd : Ordered d) (h : Healthy d) : Sequenced (LogState.start ι d) :=
  ⟨numbering_start hd, h, nofun, nofun⟩

variable [DecidableEq ι]

theorem tracked_update {views : ι → View} {i : ι} (hothers : ∀ j, (views j).Tracked d) (h : v.Tracked d) (j : ι) :
    (Function.update views i v j).Tracked d := by
  by_cases hj : j = i
  · rw [hj, Function.update_self]
    exact h
  · rw [Function.update_of_ne hj]
    exact hothers j

section
variable {s : LogState ι} (h : Sequenced s)
include h

theorem Sequenced.step_none (hnone : s.pending = none) (hcareful : a.Careful s.pending (s.views a.actor) s.files)
    (hgoes : a.waits s.pending = false) : Sequenced (s.step cfg a) := by
  have hnumbering : Numbering (s.step cfg a) := h.numbering.step hcareful.keepsNames
  rw [hnone] at hcareful
  have hmoved : Carries s.files (runOps (a.ops cfg none (s.views a.actor) s.files) s.files) ∧ _ :=
    Act.carries h.numbering.ordered h.healthy (h.numbering.views a.actor) (h.tracked a.actor) hcareful
  obtain ⟨hcarries, hview⟩ := hmoved
  rw [LogState.step_of_goes hgoes, hnone] at hnumbering ⊢
  refine ⟨hnumbering, hcarries.healthy, tracked_update (fun i ix hix => hcarries.tracks ix (h.tracked i ix hix)) hview, fun p hp => ?_⟩
  have hsettled := View.current_settled (h.tracked a.actor) h.numbering.ordered
  have hlisted := View.current_listed (h.numbering.views a.actor) h.numbering.ordered
  cases a with
  | append i wall records c =>
    simp only [Act.pending, Act.actor] at hp hsettled hlisted
    cases hprepare : prepareAppend (cfg i) ((s.views i).current s.files) (s.views i).uncertain wall records with
    | error _ =>
      rw [hprepare] at hp
      cases hp
    | ok a =>
      have haccepted := hsettled.accepted h.numbering.ordered h.healthy hlisted (prepareAppend_ok hprepare).2
      simp only [hprepare] at hp
      split at hp
      · cases hp
      · rename_i hfailed
        obtain rfl := Option.some.inj hp
        simp only [Act.ops, Act.view, Act.actor, hprepare, if_neg hfailed]
        have hindex : (Function.update s.views i ⟨some ((s.views i).current s.files), (s.views i).uncertain⟩ i).index =
            some ((s.views i).current s.files) := by rw [Function.update_self]
        refine ⟨s.files, ⟨_, hindex, haccepted, rfl⟩, (haccepted.leaving c).1, ?_⟩
        exact tracked_update h.tracked (View.tracked_some (hsettled.tracks h.numbering.ordered))
  | restart | refresh | undo | truncate | recycle => cases hp

theorem Sequenced.step_undo {i : ι} {c : Answers} (hp : s.pending = some p) (hactor : p.actor = i) (hkept : c.keepsName = true) :
    Sequenced (s.step cfg (.undo i c)) := by
  subst hactor
  have hnumbering : Numbering (s.step cfg (.undo p.actor c)) := h.numbering.step hkept
  obtain ⟨d₀, ⟨ix, hix, haccepted, hsize⟩, hleft, htracked⟩ := h.failed p hp
  have hleft' := haccepted.undone hkept hleft p.append.rolling
  have hcarries := haccepted.carries hleft'
  have hgoes : (Act.undo p.actor c).waits s.pending = false := by simp [Act.waits, hp]
  rw [LogState.step_of_goes hgoes, hp] at hnumbering ⊢
  simp only [Act.ops, Act.view, Act.actor, hsize] at hnumbering ⊢
  refine ⟨hnumbering, hcarries.healthy, tracked_update (fun j ix hix => hcarries.tracks ix (htracked j ix hix)) ?_, fun _ hnone => by cases hnone⟩
  intro ix' hix'
  rw [hix] at hix'
  obtain rfl := Option.some.inj hix'
  exact hcarries.tracks _ (((Settled.of_agrees haccepted.agrees).undone _ _ _).tracks haccepted.ordered)

theorem Sequenced.step_restart (i : ι) : Sequenced (s.step cfg (.restart i)) := by
  have hnumbering : Numbering (s.step cfg (.restart i)) := h.numbering.step trivial
  have hopened : ∀ d, View.opened.Tracked d := fun _ _ heq => by cases heq
  refine ⟨hnumbering, h.healthy, tracked_update h.tracked (hopened _), ?_⟩
  intro q hq
  obtain ⟨hq, hactor⟩ := Option.filter_eq_some_iff.mp hq
  obtain ⟨d₀, ⟨ix, hix, haccepted, hsize⟩, hleft, htracked⟩ := h.failed q hq
  have hother : Function.update s.views i .opened q.actor = s.views q.actor := Function.update_of_ne (of_decide_eq_true hactor) ..
  exact ⟨d₀, ⟨ix, (congrArg View.index hother).trans hix, haccepted, hsize⟩, hleft, tracked_update htracked (hopened _)⟩

theorem Sequenced.step (hcareful : a.Careful s.pending (s.views a.actor) s.files) : Sequenced (s.step cfg a) := by
  by_cases hwaits : a.waits s.pending = true
  · rwa [LogState.step, if_pos hwaits]
  cases hp : s.pending with
  | none => exact h.step_none hp hcareful (Bool.eq_false_of_not_eq_true hwaits)
  | some p =>
    rw [hp] at hwaits hcareful
    cases a with
    | restart i => exact h.step_restart i
    | refresh i => cases hcareful
    | undo i c => exact h.step_undo hp (by simpa [Act.waits] using hwaits) hcareful
    | append | truncate | recycle => exact absurd rfl hwaits

end

end Steps

/-! ## The numbers -/

theorem Run.lsns {keep : WalRecord → Bool} {expected : Option ℕ} {rs : List WalRecord} (h : Run keep expected rs) :
    ∃ first, rs.map WalRecord.lsn = range' first rs.length ∧ ∀ lsn, expected = some lsn → rs ≠ [] → first = lsn := by
  induction h with
  | nil => exact ⟨0, rfl, fun _ _ hne => absurd rfl hne⟩
  | @cons expected r rs _ _ hnext _ ih =>
    obtain ⟨first, hrest, hfirst⟩ := ih
    refine ⟨r.lsn, ?_, fun lsn hlsn _ => hnext lsn hlsn⟩
    rw [map_cons, length_cons, range'_succ, hrest]
    by_cases hnil : rs = []
    · rw [hnil]
      rfl
    · rw [hfirst (r.lsn + 1) rfl hnil]

theorem Healthy.decodable (h : Healthy d) : decodable d = readable everyRecord d := by
  obtain ⟨groups, hsound⟩ := h.sound
  rw [hsound.decodable, hsound.readable]

theorem Settled.lastLsn_decodable (h : Settled ix d) (hhealthy : Healthy d) : ix.lastLsn = Log.lastLsn (decodable d) := by
  rw [h.lastLsn, hhealthy.decodable]
  rfl

/-- In a run of careful steps the records on the device are numbered one after the other, and every batch
that is accepted is numbered on from the last of them. A failed append counts for what it has left until it is undone. -/
theorem one_sequence {ι : Type*} [DecidableEq ι] (cfg : ι → LogConfig) (d : Directory) (hd : Ordered d) (hhealthy : Healthy d)
    (acts : List (Act ι))
    (hcareful : Transition.Along (LogState.step cfg) (fun s a => a.Careful s.pending (s.views a.actor) s.files) (.start ι d) acts) :
    (∃ first, (decodable ((LogState.start ι d).run cfg acts).files).map WalRecord.lsn =
        List.range' first (decodable ((LogState.start ι d).run cfg acts).files).length) ∧
      ∀ i wall records a,
        prepareAppend (cfg i) ((((LogState.start ι d).run cfg acts).views i).current ((LogState.start ι d).run cfg acts).files)
          (((LogState.start ι d).run cfg acts).views i).uncertain wall records = .ok a →
        a.records.map WalRecord.lsn = range' (lastLsn (decodable ((LogState.start ι d).run cfg acts).files) + 1) a.records.length := by
  have hsequenced : Sequenced ((LogState.start ι d).run cfg acts) :=
    hcareful.invariant (fun _ _ h hstep => h.step hstep) (sequenced_start hd hhealthy)
  obtain ⟨s, hs⟩ : ∃ s, (LogState.start ι d).run cfg acts = s := ⟨_, rfl⟩
  rw [hs] at hsequenced ⊢
  constructor
  · rw [hsequenced.healthy.decodable]
    obtain ⟨first, hfirst, -⟩ := (readable_run everyRecord s.files).lsns
    exact ⟨first, hfirst⟩
  · intro i wall records a haccepted
    have hsettled := View.current_settled (hsequenced.tracked i) hsequenced.numbering.ordered
    rw [← hsettled.lastLsn_decodable hsequenced.healthy]
    exact (prepareAppend_ok haccepted).2.lsns

def inTurn : List (Act Bool) :=
  [.append true 0 [unnumbered] .granted, .append false 0 [unnumbered] { Answers.granted with writeFails := some 60 }, .restart true,
    .append true 0 [unnumbered] .granted, .undo false { Answers.granted with keepsName := true }, .append true 0 [unnumbered] .granted]

theorem one_sequence_in_turn :
    ∃ first, (decodable ((LogState.start Bool []).run (fun _ => smallSegments) inTurn).files).map WalRecord.lsn =
      range' first (decodable ((LogState.start Bool []).run (fun _ => smallSegments) inTurn).files).length := by
  have hhealthy : Healthy [] := ⟨⟨[], .nil⟩, nofun⟩
  exact (one_sequence (fun _ => smallSegments) [] List.Pairwise.nil hhealthy inTurn
    ⟨trivial, trivial, trivial, trivial, rfl, trivial, trivial⟩).1

def bulkRecord : WalRecord := { unnumbered with payload := replicate 106 0, payload_le := by rw [length_replicate]; decide }

/-- The second participant knows a segment that the first cuts off and makes again at the same size. -/
def behindTheBack : List (Act Bool) :=
  [.append false 0 [unnumbered] .granted, .append false 0 [bulkRecord] .granted, .refresh true, .truncate false 2 (fun _ => false) none,
    .append false 0 (replicate 3 unnumbered) .granted, .append true 0 [unnumbered] .granted]

theorem numbers_given_twice :
    (decodable ((LogState.start Bool []).run (fun _ => smallSegments) behindTheBack).files).map WalRecord.lsn = [1, 2, 3, 4, 5, 6, 5, 6] := by
  decide +kernel

end Grafx.Log
