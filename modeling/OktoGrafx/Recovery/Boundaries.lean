import OktoGrafx.Recovery.ReplaySpec

/-! A replay read from a log passes the check of commit boundaries, and so do its page view and its
index view. -/

namespace Grafx.Recovery

open List Checked Log

variable {r c : WalRecord} {records cs : List WalRecord} {replay : CommittedReplay} {b b' : Boundaries}

def Ascends (records : List WalRecord) : Prop := records.Pairwise fun a b => a.lsn < b.lsn

instance (records : List WalRecord) : Decidable (Ascends records) := inferInstanceAs (Decidable (List.Pairwise _ _))

section
variable (h : Ascends records)
include h

theorem Ascends.filter (f : WalRecord → Bool) : Ascends (records.filter f) := List.Pairwise.filter f h

theorem Ascends.before {R : WalRecord → WalRecord → Prop} (hR : records.Pairwise R) (hr : r ∈ records) (hc : c ∈ records)
    (hlt : r.lsn < c.lsn) : R r c := by
  induction records with
  | nil => cases hr
  | cons x xs ih =>
    obtain ⟨hx, hxs⟩ := pairwise_cons.mp h
    obtain ⟨hRx, hRxs⟩ := pairwise_cons.mp hR
    rcases mem_cons.mp hr with rfl | hr
    · rcases mem_cons.mp hc with rfl | hc
      · exact absurd hlt (lt_irrefl _)
      · exact hRx c hc
    · rcases mem_cons.mp hc with hceq | hc
      · exact absurd (hceq ▸ hlt) (not_lt.mpr (hx r hr).le)
      · exact ih hxs hRxs hr hc

theorem Ascends.eq_of_lsn (hr : r ∈ records) (hc : c ∈ records) (heq : r.lsn = c.lsn) : r = c := by
  induction records with
  | nil => cases hr
  | cons x xs ih =>
    obtain ⟨hx, hxs⟩ := pairwise_cons.mp h
    rcases mem_cons.mp hr with rfl | hr
    · rcases mem_cons.mp hc with rfl | hc
      · rfl
      · exact absurd heq (hx c hc).ne
    · rcases mem_cons.mp hc with hceq | hc
      · exact absurd (hceq ▸ heq.symm) (hx r hr).ne
      · exact ih hxs hr hc

theorem Ascends.sortByLsn_eq {xs : List WalRecord} {f : WalRecord → Bool} (hperm : xs.Perm (records.filter f)) : sortByLsn xs = records.filter f := by
  have hsort : (sortByLsn xs).Perm (records.filter f) := (perm_insertionSort _ xs).trans hperm
  refine hsort.eq_of_pairwise ?_ (pairwise_insertionSort (fun a b : WalRecord => a.lsn ≤ b.lsn) xs) ((h.filter f).imp Nat.le_of_lt)
  intro a b ha hb hab hba
  exact h.eq_of_lsn (mem_of_mem_filter (hsort.mem_iff.mp ha)) (mem_of_mem_filter hb) (le_antisymm hab hba)

omit h in
theorem foldl_max_le {xs : List ℕ} {start bound : ℕ} (hstart : start ≤ bound) (h : ∀ x ∈ xs, x ≤ bound) : xs.foldl max start ≤ bound := by
  induction xs generalizing start with
  | nil => exact hstart
  | cons x xs ih =>
    exact ih (Nat.max_le.mpr ⟨hstart, h x mem_cons_self⟩) (forall_mem_cons.mp h).2

omit h in
theorem Ascends.foldl_max (h : Ascends cs) : (cs.map WalRecord.lsn).foldl max 0 = lastLsn cs := by
  induction cs using reverseRec with
  | nil => rfl
  | append_singleton cs c _ =>
    have hbound : (cs.map WalRecord.lsn).foldl max 0 ≤ c.lsn := by
      apply foldl_max_le (Nat.zero_le _)
      intro x hx
      obtain ⟨a, ha, rfl⟩ := mem_map.mp hx
      exact ((pairwise_append.mp h).2.2 a ha c mem_cons_self).le
    rw [map_append, foldl_append, lastLsn, getLast?_append]
    exact max_eq_right hbound

/-! ## What a replay holds -/

structure Replays (records : List WalRecord) (replay : CommittedReplay) : Prop where
  settles : Settles records
  effects : replay.effects = effectsWhere records (commits records)
  incomplete : replay.incompleteEffects = effectsWhere records fun k => !settled records k
  commitRecords : replay.commitRecords = records.filter isCommit
  lastCommitted : replay.lastCommittedLsn = lastLsn (records.filter isCommit)

theorem Ascends.replays (hreplay : committedReplay records = .ok replay) : Replays records replay := by
  obtain ⟨s, hs, hfinish⟩ := bind_ok_iff.mp hreplay
  obtain rfl := pure_ok_iff.mp hfinish
  have hpassed := (pass_ok_iff records).2 s hs
  exact ⟨(pass_ok_iff records).1.mp ⟨s, hs⟩, h.sortByLsn_eq hpassed.committed, h.sortByLsn_eq hpassed.pending, hpassed.commitRecords,
    hpassed.lastCommitted.trans (h.filter isCommit).foldl_max⟩

end

theorem committedReplay_ok_iff (records : List WalRecord) : (∃ replay, committedReplay records = .ok replay) ↔ Settles records := by
  rw [← (pass_ok_iff records).1]
  constructor
  · rintro ⟨replay, h⟩
    obtain ⟨s, hs, -⟩ := bind_ok_iff.mp h
    exact ⟨s, hs⟩
  · rintro ⟨s, hs⟩
    exact ⟨s.finish, bind_ok_iff.mpr ⟨s, hs, rfl⟩⟩

theorem committedReplay_error_iff (records : List WalRecord) : (∃ e, committedReplay records = .error e) ↔ ¬ Settles records := by
  rw [← committedReplay_ok_iff]
  cases committedReplay records with
  | ok replay => exact ⟨fun ⟨_, h⟩ => (nomatch h), fun h => absurd ⟨replay, rfl⟩ h⟩
  | error e => exact ⟨fun _ ⟨_, h⟩ => (nomatch h), fun _ => ⟨e, rfl⟩⟩

theorem commits_iff {k : TxnKey} : commits records k = true ↔ ∃ c ∈ records.filter isCommit, txnKey c = k := by
  simp only [commits, any_eq_true, Bool.and_eq_true, decide_eq_true_eq, mem_filter]
  exact exists_congr fun c => and_assoc.symm

theorem Ascends.effect_before (h : Ascends records) (hsettles : Settles records) (hr : r ∈ records) (heffect : isEffect r = true)
    (hc : c ∈ records) (hcommit : isCommit c = true) (hk : txnKey c = txnKey r) : r.lsn < c.lsn := by
  rcases lt_trichotomy r.lsn c.lsn with hlt | heq | hgt
  · exact hlt
  · have hsame := h.eq_of_lsn hr hc heq
    have hboth := not_isOutcome_of_isEffect heffect
    rw [hsame, isOutcome_of_isCommit hcommit] at hboth
    cases hboth
  · have hend := (h.before hsettles hc hr hgt (isOutcome_of_isCommit hcommit) hk).1
    rw [heffect] at hend
    cases hend

theorem Settles.commits_distinct (h : Settles records) : (records.filter isCommit).Pairwise fun a b => txnKey a ≠ txnKey b := by
  apply (List.Pairwise.filter isCommit h).imp_of_mem
  intro a b ha hb hsettles hk
  have hend := (hsettles (isOutcome_of_isCommit (mem_filter.mp ha).2) hk).2
  rw [isOutcome_of_isCommit (mem_filter.mp hb).2] at hend
  cases hend

/-! ## Passing the check -/

theorem Boundaries.fold_ok (hascends : Ascends cs) (hdistinct : cs.Pairwise fun a b => txnKey a ≠ txnKey b)
    (hcs : ∀ c ∈ cs, isCommit c = true ∧ b.previous < c.lsn ∧ c.lsn < provisionalCsn ∧ b.terminals.lookup (txnKey c) = none) :
    ∃ b', cs.foldlM Boundaries.step b = .ok b' ∧ b'.previous = (cs.getLast?.map WalRecord.lsn).getD b.previous ∧
      ∀ k, b'.terminals.lookup k = ((cs.find? fun c => decide (txnKey c = k)).map WalRecord.lsn).or (b.terminals.lookup k) := by
  induction cs generalizing b with
  | nil => exact ⟨b, rfl, rfl, fun k => rfl⟩
  | cons c cs ih =>
    obtain ⟨hcommit, hprevious, hprovisional, hfresh⟩ := hcs c mem_cons_self
    obtain ⟨hlater, hascends⟩ := pairwise_cons.mp hascends
    obtain ⟨hother, hdistinct⟩ := pairwise_cons.mp hdistinct
    have hstep : b.step c = .ok ⟨(txnKey c, c.lsn) :: b.terminals, c.lsn⟩ := by
      simp only [Boundaries.step, bind_ok_iff, ensure_ok_iff, pure_ok_iff]
      exact ⟨⟨⟩, ⟨beq_iff_eq.mp hcommit, hprevious, hprovisional⟩, ⟨⟩, hfresh, trivial⟩
    obtain ⟨b', hb', hlast, hlookup⟩ := ih (b := ⟨(txnKey c, c.lsn) :: b.terminals, c.lsn⟩) hascends hdistinct fun x hx => by
      obtain ⟨hxcommit, -, hxprovisional, hxfresh⟩ := hcs x (mem_cons_of_mem _ hx)
      refine ⟨hxcommit, hlater x hx, hxprovisional, ?_⟩
      rw [lookup_cons, beq_eq_false_iff_ne.mpr (Ne.symm (hother x hx))]
      exact hxfresh
    refine ⟨b', ?_, ?_, ?_⟩
    · rw [foldlM_cons, hstep]
      exact hb'
    · rw [hlast, getLast?_cons]
      cases cs.getLast? <;> rfl
    · intro k
      rw [hlookup, lookup_cons, find?_cons]
      by_cases hk : txnKey c = k
      · have hnone : (cs.find? fun x => decide (txnKey x = k)) = none := by
          rw [find?_eq_none]
          intro x hx hxk
          exact hother x hx (hk.trans (of_decide_eq_true hxk).symm)
        rw [hnone, decide_eq_true hk]
        simp [hk]
      · rw [decide_eq_false hk, beq_eq_false_iff_ne.mpr (Ne.symm hk)]

def Assigned (r : WalRecord) : Prop := 0 < r.lsn ∧ r.lsn < provisionalCsn

theorem Replays.validates (h : Replays records replay) (hascends : Ascends records) (hassigned : ∀ r ∈ records, Assigned r)
    {view : CommittedReplay} (heffects : ∀ r ∈ view.effects, r ∈ replay.effects) (hincomplete : ∀ r ∈ view.incompleteEffects, r ∈ replay.incompleteEffects)
    (hcommits : view.commitRecords = replay.commitRecords) (hlast : view.lastCommittedLsn = replay.lastCommittedLsn) :
    validateCommitBoundaries view = .ok () := by
  unfold validateCommitBoundaries
  by_cases hempty : view.commitRecords = []
  · rw [if_pos hempty]
  rw [if_neg hempty]
  rw [hcommits, h.commitRecords] at hempty ⊢
  have hmem : ∀ c ∈ records.filter isCommit, isCommit c = true ∧ 0 < c.lsn ∧ c.lsn < provisionalCsn ∧ ([] : List (TxnKey × ℕ)).lookup (txnKey c) = none :=
    fun c hc => ⟨(mem_filter.mp hc).2, (hassigned c (mem_of_mem_filter hc)).1, (hassigned c (mem_of_mem_filter hc)).2, rfl⟩
  obtain ⟨b, hb, hprevious, hlookup⟩ := Boundaries.fold_ok (b := {}) (hascends.filter isCommit) h.settles.commits_distinct hmem
  simp only [bind_ok_iff, ensure_ok_iff]
  refine ⟨b, hb, ⟨⟩, ?_, ⟨⟩, ?_, ?_⟩
  · rw [hprevious, hlast, h.lastCommitted]
    rfl
  · apply forM_ok_iff.mpr
    intro r hr
    obtain ⟨hmem, hsel⟩ := mem_filter.mp (h.effects ▸ heffects r hr)
    obtain ⟨heffect, hcommitted⟩ := Bool.and_eq_true_iff.mp hsel
    obtain ⟨c, hc, hk⟩ := commits_iff.mp hcommitted
    obtain ⟨c', hc'⟩ : ∃ c', ((records.filter isCommit).find? fun x => decide (txnKey x = txnKey r)) = some c' :=
      Option.isSome_iff_exists.mp (find?_isSome.mpr ⟨c, hc, decide_eq_true hk⟩)
    have hmem' := mem_of_find?_eq_some hc'
    have hk' : txnKey c' = txnKey r := by simpa using find?_some hc'
    have hlt := hascends.effect_before h.settles hmem heffect (mem_of_mem_filter hmem') (mem_filter.mp hmem').2 hk'
    rw [Boundaries.checkEffect, hlookup, hc']
    exact ensure_pos ⟨(hassigned r hmem).1, hlt⟩
  · apply forM_ok_iff.mpr
    intro r hr
    obtain ⟨-, hsel⟩ := mem_filter.mp (h.incomplete ▸ hincomplete r hr)
    have hopen : settled records (txnKey r) = false := Bool.not_eq_true' _ ▸ (Bool.and_eq_true_iff.mp hsel).2
    have hnone : ((records.filter isCommit).find? fun x => decide (txnKey x = txnKey r)) = none := by
      rw [find?_eq_none]
      intro c hc hk
      rw [settled_of_commits (commits_iff.mpr ⟨c, hc, of_decide_eq_true hk⟩)] at hopen
      cases hopen
    rw [Boundaries.checkIncomplete, hlookup, hnone]
    exact ensure_pos rfl

/-- The replay of an ascending log: when it is refused, what it holds, and that it passes its check. -/
theorem committedReplay_exact (records : List WalRecord) (hascends : Ascends records) :
    ((∃ e, committedReplay records = .error e) ↔ ¬ Settles records) ∧
      ∀ replay, committedReplay records = .ok replay →
        replay.effects = effectsWhere records (commits records) ∧
        replay.incompleteEffects = (effectsWhere records fun k => !settled records k) ∧
        replay.lastCommittedLsn = lastLsn (records.filter isCommit) ∧
        ((∀ r ∈ records, Assigned r) → validateCommitBoundaries replay = .ok () ∧ validateCommitBoundaries (pageReplay replay) = .ok () ∧
          validateCommitBoundaries (indexReplay replay) = .ok ()) := by
  refine ⟨committedReplay_error_iff records, ?_⟩
  intro replay hreplay
  have h := hascends.replays hreplay
  refine ⟨h.effects, h.incomplete, h.lastCommitted, ?_⟩
  intro hassigned
  exact ⟨h.validates hascends hassigned (fun _ hr => hr) (fun _ hr => hr) rfl rfl,
    h.validates hascends hassigned (fun _ hr => mem_of_mem_filter hr) nofun rfl rfl,
    h.validates hascends hassigned (fun _ hr => mem_of_mem_filter hr) nofun rfl rfl⟩

def interleavedLog : List WalRecord :=
  [plainRecord .writePage 1 7, plainRecord .indexWrite 2 8,
    plainRecord .indexWrite 3 7, plainRecord .commit 4 7]

theorem committedReplay_interleaved : Ascends interleavedLog ∧ ∃ replay, committedReplay interleavedLog = .ok replay ∧
    replay.effects = [plainRecord .writePage 1 7, plainRecord .indexWrite 3 7] ∧
    replay.incompleteEffects = [plainRecord .indexWrite 2 8] ∧ replay.lastCommittedLsn = 4 ∧ validateCommitBoundaries replay = .ok () := by
  have hreplay : ∃ replay, committedReplay interleavedLog = .ok replay := ⟨_, rfl⟩
  obtain ⟨replay, hreplay⟩ := hreplay
  obtain ⟨heffects, hincomplete, hlast, hvalid⟩ := (committedReplay_exact interleavedLog (by decide)).2 replay hreplay
  refine ⟨by decide, replay, hreplay, heffects, hincomplete, hlast, (hvalid ?_).1⟩
  simp only [interleavedLog, forall_mem_cons]
  refine ⟨?_, ?_, ?_, ?_, nofun⟩ <;> exact ⟨by decide, by decide⟩

/-- A log that starts at number zero is replayed, and the replay does not pass. -/
theorem replay_from_zero_refused :
    ∃ records replay, Ascends records ∧ committedReplay records = .ok replay ∧ validateCommitBoundaries replay = .error .commitBoundaries :=
  ⟨[plainRecord .writePage 0 7, plainRecord .commit 1 7],
    ⟨[plainRecord .writePage 0 7], 1, [], [plainRecord .commit 1 7]⟩,
    by decide, by decide, by decide⟩

end Grafx.Recovery
