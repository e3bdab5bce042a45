import OktoGrafx.Log.Append
import OktoGrafx.Recovery.Boundaries
import OktoGrafx.Recovery.Plan
import OktoGrafx.Txn.CommitState

/-! What a recovery must find in the log before it truncates it and publishes a commit state: the log
reaches the checkpoint, it goes on from there without a gap, it holds the commit that was published
last, and no effect in it is left without an outcome. -/

namespace Grafx.Recovery

open List Checked Log Txn

inductive LineageRefusal where
  | checkpointAhead (checkpointLsn lastCommittedLsn : ℕ)
  | belowCheckpoint (checkpointLsn lastGoodLsn : ℕ)
  | ambiguousTail (records : List WalRecord) (lastGoodLsn : ℕ)
  | incompleteEffects (records : List WalRecord) (lastGoodLsn : ℕ)
  | recycledFront (expectedLsn observedLsn : ℕ)
  | noLineage (checkpointLsn lastCommittedLsn : ℕ)
  | commitNotProved (publishedLsn recoveredLsn : ℕ)
  | noCommit
  deriving DecidableEq

section Validate
variable (state : CommitState) (stateWasDamaged : Bool) (plan : RecoveryPlan) (replay : CommittedReplay)

def damagedBehind (discarded : DiscardedRecord) : Bool :=
  plan.ranges.any fun range =>
    decide (discarded.segment < range.segment ∨ discarded.segment = range.segment ∧ discarded.offset < range.offset)

/-- Discarded records that may belong to a commit whose effects were applied. -/
def ambiguousTail : List WalRecord :=
  (plan.records.filter fun discarded =>
    decide (state.lastCommittedLsn < discarded.record.lsn) &&
      (isCommit discarded.record || isEffect discarded.record && damagedBehind plan discarded)).map DiscardedRecord.record

def expectedFirst : ℕ := if stateWasDamaged then noLsn + 1 else state.checkpointLsn + 1

def needsLineage : Bool := stateWasDamaged || decide (state.checkpointLsn < state.lastCommittedLsn)

def validateFirst : Except LineageRefusal Unit :=
  match plan.replayable with
  | first :: _ => ensure (first.lsn = expectedFirst state stateWasDamaged) (.recycledFront (expectedFirst state stateWasDamaged) first.lsn)
  | [] => ensure (needsLineage state stateWasDamaged = false) (.noLineage state.checkpointLsn state.lastCommittedLsn)

def validatePublicationLineage : Except LineageRefusal Unit := do
  ensure (state.checkpointLsn ≤ state.lastCommittedLsn) (.checkpointAhead state.checkpointLsn state.lastCommittedLsn)
  ensure (state.checkpointLsn ≤ plan.lastGoodLsn) (.belowCheckpoint state.checkpointLsn plan.lastGoodLsn)
  ensure (ambiguousTail state plan = []) (.ambiguousTail (ambiguousTail state plan) plan.lastGoodLsn)
  ensure (replay.incompleteEffects = []) (.incompleteEffects replay.incompleteEffects plan.lastGoodLsn)
  validateFirst state stateWasDamaged plan
  ensure (state.checkpointLsn < state.lastCommittedLsn → state.lastCommittedLsn ≤ replay.lastCommittedLsn)
    (.commitNotProved state.lastCommittedLsn replay.lastCommittedLsn)
  ensure (stateWasDamaged = true → replay.lastCommittedLsn ≠ noLsn) .noCommit

def redoTarget : ℕ := max state.lastCommittedLsn replay.lastCommittedLsn

def publishedState (formatVersion : ℕ) : Except CommitStateRefusal CommitState :=
  if state.lastCommittedLsn < redoTarget state replay ∨ stateWasDamaged = true ∨ formatVersion ≠ state.formatVersion then
    CommitState.make (redoTarget state replay) (redoTarget state replay) state.checkpointLsn formatVersion
  else .ok state

end Validate

/-! ## The log after a recovery -/

/-- The segments the device holds on to, and how far beyond the last file a new one is numbered. -/
structure TruncationAttempt where
  refuses : ℕ → Bool
  skipped : ℕ

def truncationAttempts : ℕ := 3

def truncateAttempts (lastGoodLsn : ℕ) : List TruncationAttempt → Directory → Option Directory
  | [], _ => none
  | attempt :: more, d =>
    let t := truncateAfter attempt.refuses (nextNumberOf d + attempt.skipped) lastGoodLsn d
    if t.completed then some (runOps t.ops d) else truncateAttempts lastGoodLsn more (runOps t.ops d)

def recoveredLog (plan : RecoveryPlan) (attempts : List TruncationAttempt) (d : Directory) : Option Directory :=
  if plan.damaged then truncateAttempts plan.lastGoodLsn (attempts.take truncationAttempts) d else some d

def issued (cfg : LogConfig) : TailIndex → List (ℕ × List WalRecord) → List ℕ
  | _, [] => []
  | ix, (wall, batch) :: later =>
    match prepareAppend cfg ix false wall batch with
    | .ok a => a.records.map WalRecord.lsn ++ issued cfg (registerAppend ix a) later
    | .error _ => issued cfg ix later

variable {d log : Directory} {items : List ScanItem} {target formatVersion : ℕ} {cfg : LogConfig} {state published : CommitState} {stateWasDamaged : Bool}
  {plan : RecoveryPlan} {replay : CommittedReplay} {attempts : List TruncationAttempt} {ix : TailIndex}

theorem truncateAttempts_readable (hd : Ordered d) (h : truncateAttempts target attempts d = some log) :
    readable everyRecord log = keptRecords target d := by
  induction attempts generalizing d with
  | nil => cases h
  | cons attempt more ih =>
    have hnext : Fresh (nextNumberOf d + attempt.skipped) d := fun seg hseg => Nat.lt_add_right _ (nextNumberOf_fresh hd seg hseg)
    rw [truncateAttempts] at h
    split at h
    · rename_i hcompleted
      cases h
      exact (truncation_completed hd hnext hcompleted).readable
    · -- what an attempt leaves undone, the next one finds
      obtain ⟨hkept, -, hd', -⟩ := truncation_interrupted hd hnext Interrupt.reaches_run
      rw [ih hd' h, hkept]

theorem recoveredLog_readable (hd : Ordered d) (hlast : plan.lastGoodLsn = lastLsn (readable everyRecord d))
    (h : recoveredLog plan attempts d = some log) : readable everyRecord log = readable everyRecord d := by
  unfold recoveredLog at h
  split at h
  · rw [truncateAttempts_readable hd h, hlast, keptRecords_last]
  · rw [Option.some.inj h]

theorem registerAppend_lastLsn {a : Append} (h : Prepared ix a) : ix.lastLsn < (registerAppend ix a).lastLsn := by
  obtain ⟨front, r, hstamped⟩ := eq_nil_or_concat a.stamped |>.resolve_left h.stamped
  have hmem : r.lsn ∈ a.records.map WalRecord.lsn := by
    rw [Append.records, hstamped]
    simp
  rw [h.lsns] at hmem
  show ix.lastLsn < lastLsn a.stamped
  rw [hstamped, lastLsn, concat_eq_append, getLast?_concat]
  exact (mem_range'_1.mp hmem).1

theorem issued_gt {later : List (ℕ × List WalRecord)} : ∀ lsn ∈ issued cfg ix later, ix.lastLsn < lsn := by
  induction later generalizing ix with
  | nil => exact nofun
  | cons next later ih =>
    intro lsn hlsn
    rw [issued] at hlsn
    split at hlsn
    · rename_i a ha
      have hprepared := (prepareAppend_ok ha).2
      rcases mem_append.mp hlsn with hlsn | hlsn
      · rw [hprepared.lsns] at hlsn
        exact (mem_range'_1.mp hlsn).1
      · exact (registerAppend_lastLsn hprepared).trans (ih lsn hlsn)
    · exact ih lsn hlsn

/-! ## What the check grants -/

structure Lineage (state : CommitState) (plan : RecoveryPlan) (replay : CommittedReplay) : Prop where
  checkpoint_le : state.checkpointLsn ≤ state.lastCommittedLsn
  reaches : state.checkpointLsn ≤ plan.lastGoodLsn
  complete : replay.incompleteEffects = []
  proved : state.checkpointLsn < state.lastCommittedLsn → state.lastCommittedLsn ≤ replay.lastCommittedLsn

theorem validatePublicationLineage_ok (h : validatePublicationLineage state stateWasDamaged plan replay = .ok ()) : Lineage state plan replay := by
  simp only [validatePublicationLineage, bind_ok_iff, ensure_ok_iff] at h
  obtain ⟨⟨⟩, hcheckpoint, ⟨⟩, hreaches, ⟨⟩, -, ⟨⟩, hcomplete, ⟨⟩, -, ⟨⟩, hproved, -⟩ := h
  exact ⟨hcheckpoint, hreaches, hcomplete, hproved⟩

theorem lastLsn_filter_le {records : List WalRecord} (h : Ascends records) (f : WalRecord → Bool) : lastLsn (records.filter f) ≤ lastLsn records := by
  cases hlast : (records.filter f).getLast? with
  | none =>
    rw [lastLsn, hlast]
    exact Nat.zero_le _
  | some c =>
    have hc : lastLsn (records.filter f) = c.lsn := by
      rw [lastLsn, hlast]
      rfl
    rw [hc]
    exact le_lastLsn h c (mem_of_mem_filter (mem_of_getLast? hlast))

theorem lastLsn_le_maxU64 (records : List WalRecord) : lastLsn records ≤ maxU64 := by
  rw [lastLsn]
  cases records.getLast? with
  | none => exact Nat.zero_le _
  | some c => exact c.lsn_le

structure Planned (d : Directory) (floorLsn : ℕ) (plan : RecoveryPlan) (replay : CommittedReplay) : Prop where
  lastGoodLsn : plan.lastGoodLsn = lastLsn (readable everyRecord d)
  replayable : plan.replayable = (readable everyRecord d).filter fun r => decide (floorLsn < r.lsn)
  ascends : Ascends plan.replayable
  replays : Replays plan.replayable replay

theorem planned (hscan : scanAll d = .ok items) (hreplay : committedReplay (planRecovery target items).replayable = .ok replay) :
    Planned d target (planRecovery target items) replay := by
  have h := planRecovery_accounted target items
  have hgood := goodRecords_eq hscan
  have hascends : Ascends (planRecovery target items).replayable := by
    rw [h.replayable, hgood]
    exact Ascends.filter (readable_run everyRecord d).pairwise _
  exact ⟨hgood ▸ h.lastGoodLsn, hgood ▸ h.replayable, hascends, hascends.replays hreplay⟩

theorem Planned.lastCommitted_le (h : Planned d target plan replay) : replay.lastCommittedLsn ≤ plan.lastGoodLsn := by
  rw [h.replays.lastCommitted, h.lastGoodLsn]
  have hreplayable := lastLsn_filter_le (readable_run everyRecord d).pairwise fun r => decide (target < r.lsn)
  rw [← h.replayable] at hreplayable
  exact (lastLsn_filter_le h.ascends isCommit).trans hreplayable

theorem Lineage.target_le (h : Lineage state plan replay) (hplan : Planned d target plan replay) : redoTarget state replay ≤ plan.lastGoodLsn := by
  have hreplay := hplan.lastCommitted_le
  apply Nat.max_le.mpr
  refine ⟨?_, hreplay⟩
  rcases lt_or_ge state.checkpointLsn state.lastCommittedLsn with hlt | hle
  · exact (h.proved hlt).trans hreplay
  · exact hle.trans h.reaches

theorem publishedState_inv (h : publishedState state stateWasDamaged replay formatVersion = .ok published) :
    published.lastCommittedLsn = redoTarget state replay ∧ published.checkpointLsn = state.checkpointLsn := by
  unfold publishedState at h
  split at h
  · obtain ⟨hlast, -, hcheckpoint, -⟩ := CommitState.make_inv h
    exact ⟨hlast, hcheckpoint⟩
  · rename_i hsame
    cases h
    have hle : redoTarget state replay ≤ state.lastCommittedLsn := Nat.le_of_not_lt fun hlt => hsame (.inl hlt)
    exact ⟨le_antisymm (le_max_left _ _) hle, rfl⟩

theorem publishedState_ok (state : CommitState) (stateWasDamaged : Bool) (hreplay : replay.lastCommittedLsn ≤ maxU64)
    (hversion : commitStateLegacyFormatVersion ≤ formatVersion ∧ formatVersion ≤ commitStateFormatVersion) :
    ∃ published, publishedState state stateWasDamaged replay formatVersion = .ok published := by
  unfold publishedState
  split
  · have htarget : redoTarget state replay ≤ maxU64 := Nat.max_le.mpr ⟨state.lastCommittedLsn_le, hreplay⟩
    rw [CommitState.make, dif_pos htarget, dif_pos htarget, dif_pos state.checkpointLsn_le, dif_pos hversion]
    exact ⟨_, rfl⟩
  · exact ⟨state, rfl⟩

/-- A lineage that is not refused: what is published does not go back, the log reaches the checkpoint, numbers given
later and commits that are redone are above it, and every effect that was kept has its outcome behind it. -/
theorem lineage_keeps_numbers (d : Directory) (items : List ScanItem) (state : CommitState) (stateWasDamaged : Bool) (plan : RecoveryPlan)
    (replay : CommittedReplay) (formatVersion : ℕ) (hd : Ordered d) (hscan : scanAll d = .ok items)
    (hplan : planRecovery state.checkpointLsn items = plan) (hreplay : committedReplay plan.replayable = .ok replay)
    (hversion : commitStateLegacyFormatVersion ≤ formatVersion ∧ formatVersion ≤ commitStateFormatVersion)
    (hlineage : validatePublicationLineage state stateWasDamaged plan replay = .ok ()) :
    (∃ published, publishedState state stateWasDamaged replay formatVersion = .ok published ∧
      state.lastCommittedLsn ≤ published.lastCommittedLsn ∧ published.checkpointLsn = state.checkpointLsn ∧
      ∀ attempts log, recoveredLog plan attempts d = some log →
        published.checkpointLsn ≤ (rescan log).lastLsn ∧
        ∀ cfg ix later, ix.Agrees (rescan log) → ∀ lsn ∈ issued cfg ix later, published.checkpointLsn < lsn ∧ published.lastCommittedLsn < lsn) ∧
    (∀ r ∈ replay.effects, ∃ c ∈ plan.replayable, isCommit c = true ∧ txnKey c = txnKey r ∧ state.checkpointLsn < c.lsn) ∧
    ∀ r ∈ plan.replayable, isEffect r = true → ∃ c ∈ plan.replayable, isOutcome c = true ∧ txnKey c = txnKey r := by
  subst hplan
  have hplanned := planned hscan hreplay
  have hok := validatePublicationLineage_ok hlineage
  refine ⟨?_, ?_, ?_⟩
  · have hbound : replay.lastCommittedLsn ≤ maxU64 := by
      rw [hplanned.replays.lastCommitted]
      exact lastLsn_le_maxU64 _
    obtain ⟨published, hpublished⟩ := publishedState_ok state stateWasDamaged hbound hversion
    obtain ⟨hlast, hcheckpoint⟩ := publishedState_inv hpublished
    refine ⟨published, hpublished, by rw [hlast]; exact le_max_left _ _, hcheckpoint, ?_⟩
    intro attempts log hlog
    have hend : (rescan log).lastLsn = (planRecovery state.checkpointLsn items).lastGoodLsn := by
      show lastLsn (readable everyRecord log) = _
      rw [recoveredLog_readable hd hplanned.lastGoodLsn hlog, hplanned.lastGoodLsn]
    rw [hcheckpoint, hlast, hend]
    refine ⟨hok.reaches, ?_⟩
    intro cfg ix later hagrees lsn hlsn
    have hgt := issued_gt lsn hlsn
    rw [hagrees.lastLsn, hend] at hgt
    exact ⟨hok.reaches.trans_lt hgt, (hok.target_le hplanned).trans_lt hgt⟩
  · intro r hr
    rw [hplanned.replays.effects] at hr
    have hcommits := (Bool.and_eq_true_iff.mp (mem_filter.mp hr).2).2
    obtain ⟨c, hc, hkey⟩ := commits_iff.mp hcommits
    obtain ⟨hc, hcommit⟩ := mem_filter.mp hc
    refine ⟨c, hc, hcommit, hkey, ?_⟩
    rw [hplanned.replayable] at hc
    exact of_decide_eq_true (mem_filter.mp hc).2
  · intro r hr heffect
    have hnone := hok.complete
    rw [hplanned.replays.incomplete, effectsWhere, filter_eq_nil_iff] at hnone
    have hsettled : settled (planRecovery state.checkpointLsn items).replayable (txnKey r) = true := by
      by_contra hopen
      exact hnone r hr (by rw [heffect, Bool.not_eq_true _ |>.mp hopen]; rfl)
    obtain ⟨c, hc, houtcome⟩ := any_eq_true.mp hsettled
    obtain ⟨houtcome, hkey⟩ := Bool.and_eq_true_iff.mp houtcome
    exact ⟨c, hc, houtcome, of_decide_eq_true hkey⟩

def committedWrite : List WalRecord :=
  [plainRecord .commit 1 6, plainRecord .writePage 2 7, plainRecord .commit 3 7]

def unpublishedCommit : Directory := [⟨1, imagesOf committedWrite ++ [0]⟩]

theorem one_le_maxU64 : 1 ≤ maxU64 := by
  decide

def firstPublished : CommitState :=
  ⟨1, 1, 1, commitStateLegacyFormatVersion, one_le_maxU64, one_le_maxU64, one_le_maxU64, Nat.le_refl _, Nat.le_succ _⟩

theorem lineage_keeps_numbers_unpublished : ∃ items replay published,
    scanAll unpublishedCommit = .ok items ∧ committedReplay (planRecovery 1 items).replayable = .ok replay ∧
    validatePublicationLineage firstPublished false (planRecovery 1 items) replay = .ok () ∧ publishedState firstPublished false replay 1 = .ok published ∧
    published.lastCommittedLsn = 3 ∧ published.checkpointLsn = 1 ∧ (planRecovery 1 items).damaged = true ∧
    ∀ attempts log, recoveredLog (planRecovery 1 items) attempts unpublishedCommit = some log → published.checkpointLsn ≤ (rescan log).lastLsn ∧
      ∀ cfg ix later, ix.Agrees (rescan log) → ∀ lsn ∈ issued cfg ix later, published.checkpointLsn < lsn ∧ published.lastCommittedLsn < lsn := by
  obtain ⟨items, hitems⟩ : ∃ items, items = committedWrite.zipIdx.map (fun x => ScanItem.record 1 (52 * x.2) x.1) ++
    [.failure ⟨.truncatedTail, 1, 156, 1, 4⟩] := ⟨_, rfl⟩
  have hscan : scanAll unpublishedCommit = .ok items := by
    rw [hitems]
    decide +kernel
  have hreplay : committedReplay (planRecovery 1 items).replayable = .ok ⟨[committedWrite[1]], 3, [], [committedWrite[2]]⟩ := by
    rw [hitems]
    decide +kernel
  have hlineage : validatePublicationLineage firstPublished false (planRecovery 1 items) ⟨[committedWrite[1]], 3, [], [committedWrite[2]]⟩ = .ok () := by
    rw [hitems]
    decide +kernel
  obtain ⟨⟨published, hpublished, -, hcheckpoint, hlater⟩, -⟩ :=
    lineage_keeps_numbers unpublishedCommit items firstPublished false _ _ 1 (by decide) hscan rfl hreplay (by decide) hlineage
  have hdamaged : (planRecovery 1 items).damaged = true := by
    rw [hitems]
    decide +kernel
  exact ⟨items, _, published, hscan, hreplay, hlineage, hpublished, (publishedState_inv hpublished).1, hcheckpoint, hdamaged, hlater⟩

end Grafx.Recovery
