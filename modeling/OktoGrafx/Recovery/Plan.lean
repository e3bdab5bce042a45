import OktoGrafx.Log.TruncateRuns

/-! Deciding what a log holds, before anything is touched: where the good work ended, what is
discarded, and what may have to be redone. -/

namespace Grafx.Recovery

open List Log
open ScanItem (record?)

def refusesRecovery (reason : FailureReason) : Bool := reason = .unsupportedVersion || reason = .unsupportedRequiredRecord

structure DiscardedRange where
  segment : ℕ
  offset : ℕ
  length : ℕ
  reason : FailureReason
  expectedLsn : ℕ
  deriving DecidableEq

def DiscardedRange.of (f : ScanFailure) : DiscardedRange := ⟨f.segment, f.offset, f.length, f.reason, f.expectedLsn⟩

structure DiscardedRecord where
  segment : ℕ
  offset : ℕ
  record : WalRecord
  deriving DecidableEq

structure RecoveryPlan where
  lastGoodLsn : ℕ := noLsn
  damaged : Bool := false
  ranges : List DiscardedRange := []
  records : List DiscardedRecord := []
  discontinuities : List DiscardedRange := []
  replayable : List WalRecord := []
  unsupported : Option DiscardedRange := none
  recordsScanned : ℕ := 0
  deriving DecidableEq

def RecoveryPlan.discards (p : RecoveryPlan) : ℕ := p.ranges.length + p.records.length

section Plan
variable (floorLsn : ℕ)

def RecoveryPlan.failure (p : RecoveryPlan) (f : ScanFailure) : RecoveryPlan :=
  if f.reason = .lsnDiscontinuity then { p with damaged := true, discontinuities := p.discontinuities ++ [.of f] }
  else { p with damaged := true, ranges := p.ranges ++ [.of f] }

def RecoveryPlan.scanned (p : RecoveryPlan) (segment offset : ℕ) (r : WalRecord) : RecoveryPlan :=
  if p.damaged then { p with recordsScanned := p.recordsScanned + 1, records := p.records ++ [⟨segment, offset, r⟩] }
  else
    { p with
      recordsScanned := p.recordsScanned + 1
      lastGoodLsn := r.lsn
      replayable := if floorLsn < r.lsn then p.replayable ++ [r] else p.replayable }

def planItems : List ScanItem → RecoveryPlan → RecoveryPlan
  | [], p => p
  | .failure f :: items, p =>
    if refusesRecovery f.reason then { p with unsupported := some (.of f) } else planItems items (p.failure f)
  | .record segment offset r :: items, p => planItems items (p.scanned floorLsn segment offset r)

def planRecovery (items : List ScanItem) : RecoveryPlan := planItems floorLsn items {}

end Plan

/-- The walk of a whole log. It cannot go on where a segment is too large to be one. -/
def scanAll (d : Directory) : Except ℕ (List ScanItem) :=
  match walk none (live d) with
  | (items, none) => .ok items
  | (_, some segment) => .error segment

/-! ## Accounting -/

def considered : List ScanItem → List ScanItem
  | [] => []
  | .record segment offset r :: items => .record segment offset r :: considered items
  | .failure f :: items => if refusesRecovery f.reason then [] else .failure f :: considered items

def refusal : List ScanItem → Option DiscardedRange
  | [] => none
  | .record .. :: items => refusal items
  | .failure f :: items => if refusesRecovery f.reason then some (.of f) else refusal items

def undecodable : ScanItem → Option DiscardedRange
  | .record .. => none
  | .failure f => if f.reason = .lsnDiscontinuity then none else some (.of f)

def discontinuous : ScanItem → Option DiscardedRange
  | .record .. => none
  | .failure f => if f.reason = .lsnDiscontinuity then some (.of f) else none

def scannedAt : ScanItem → Option DiscardedRecord
  | .record segment offset r => some ⟨segment, offset, r⟩
  | .failure _ => none

variable {floorLsn : ℕ} {items front : List ScanItem} {p : RecoveryPlan} {rs : List WalRecord} {d : Directory} {f : ScanFailure}

theorem scannedAt_record (items : List ScanItem) : (items.filterMap scannedAt).map DiscardedRecord.record = items.filterMap record? := by
  induction items with
  | nil => rfl
  | cons item items ih =>
    cases item with
    | record _ _ r => exact congrArg (r :: ·) ih
    | failure _ => exact ih

theorem filterMap_cons_toList {α β : Type*} (g : α → Option β) (x : α) (xs : List α) :
    (x :: xs).filterMap g = (g x).toList ++ xs.filterMap g := by
  cases h : g x <;> simp [h]

theorem RecoveryPlan.failure_eq (p : RecoveryPlan) (f : ScanFailure) :
    p.failure f = { p with
      damaged := true
      ranges := p.ranges ++ (undecodable (.failure f)).toList
      discontinuities := p.discontinuities ++ (discontinuous (.failure f)).toList } := by
  by_cases h : f.reason = .lsnDiscontinuity <;> simp [failure, undecodable, discontinuous, h]

structure Discards (items : List ScanItem) (p p' : RecoveryPlan) : Prop where
  lastGoodLsn : p'.lastGoodLsn = p.lastGoodLsn
  replayable : p'.replayable = p.replayable
  ranges : p'.ranges = p.ranges ++ (considered items).filterMap undecodable
  records : p'.records = p.records ++ (considered items).filterMap scannedAt
  discontinuities : p'.discontinuities = p.discontinuities ++ (considered items).filterMap discontinuous
  unsupported : p'.unsupported = (refusal items).or p.unsupported
  recordsScanned : p'.recordsScanned = p.recordsScanned + ((considered items).filterMap record?).length

theorem planItems_discards (h : p.damaged = true ∨ Ends everyRecord items) : Discards items p (planItems floorLsn items p) := by
  induction items generalizing p with
  | nil => exact ⟨rfl, rfl, (append_nil _).symm, (append_nil _).symm, (append_nil _).symm, rfl, rfl⟩
  | cons item items ih =>
    cases item with
    | record segment offset r =>
      have hdamaged : p.damaged = true := h.resolve_right fun hends => nomatch hends _ rfl
      have hscanned : p.scanned floorLsn segment offset r =
          { p with recordsScanned := p.recordsScanned + 1, records := p.records ++ [⟨segment, offset, r⟩] } := if_pos hdamaged
      rw [planItems, hscanned]
      have hrest := ih (p := { p with recordsScanned := p.recordsScanned + 1, records := p.records ++ [⟨segment, offset, r⟩] }) (.inl hdamaged)
      refine ⟨hrest.lastGoodLsn, hrest.replayable, hrest.ranges, ?_, hrest.discontinuities, hrest.unsupported, ?_⟩
      · rw [hrest.records, append_assoc]
        rfl
      · rw [hrest.recordsScanned, add_assoc, add_comm 1]
        rfl
    | failure f =>
      rw [planItems]
      cases hrefuses : refusesRecovery f.reason with
      | true => constructor <;> simp [considered, refusal, hrefuses]
      | false =>
        have hconsidered : considered (.failure f :: items) = .failure f :: considered items := by simp [considered, hrefuses]
        have hrefusal : refusal (.failure f :: items) = refusal items := by simp [refusal, hrefuses]
        have hdamaged : (p.failure f).damaged = true := by rw [p.failure_eq f]
        have hrest := ih (.inl hdamaged)
        rw [if_neg Bool.false_ne_true]
        constructor
        · rw [hrest.lastGoodLsn, p.failure_eq f]
        · rw [hrest.replayable, p.failure_eq f]
        · rw [hrest.ranges, p.failure_eq f, hconsidered, filterMap_cons_toList, append_assoc]
        · rw [hrest.records, p.failure_eq f, hconsidered]
          rfl
        · rw [hrest.discontinuities, p.failure_eq f, hconsidered, filterMap_cons_toList, append_assoc]
        · rw [hrest.unsupported, p.failure_eq f, hrefusal]
        · rw [hrest.recordsScanned, p.failure_eq f, hconsidered]
          rfl

def RecoveryPlan.taken (floorLsn : ℕ) (p : RecoveryPlan) (rs : List WalRecord) : RecoveryPlan :=
  { p with
    recordsScanned := p.recordsScanned + rs.length
    lastGoodLsn := (rs.getLast?.map WalRecord.lsn).getD p.lastGoodLsn
    replayable := p.replayable ++ rs.filter fun r => decide (floorLsn < r.lsn) }

theorem planItems_records (floorLsn : ℕ) (items : List ScanItem) (h : p.damaged = false) (hfront : front.map record? = rs.map some) :
    planItems floorLsn (front ++ items) p = planItems floorLsn items (p.taken floorLsn rs) := by
  induction front generalizing p rs with
  | nil =>
    obtain rfl : rs = [] := map_eq_nil_iff.mp hfront.symm
    simp [RecoveryPlan.taken]
  | cons item front ih =>
    cases item with
    | failure f =>
      cases rs with
      | nil => cases hfront
      | cons r rs => cases (cons.inj hfront).1
    | record segment offset r =>
      cases rs with
      | nil => cases hfront
      | cons r' rs =>
        obtain ⟨hr, hrest⟩ := cons.inj hfront
        obtain rfl : r = r' := Option.some.inj hr
        have hscanned : p.scanned floorLsn segment offset r = p.taken floorLsn [r] := by
          unfold RecoveryPlan.scanned
          rw [if_neg (by rw [h]; exact Bool.false_ne_true)]
          by_cases hfloor : floorLsn < r.lsn <;> simp [RecoveryPlan.taken, hfloor]
        have hboth : (p.taken floorLsn [r]).taken floorLsn rs = p.taken floorLsn (r :: rs) := by
          simp only [RecoveryPlan.taken, filter_cons, filter_nil, getLast?_cons, append_assoc, length_cons,
            length_nil]
          congr 1
          · cases rs.getLast? <;> rfl
          · split <;> simp
          · omega
        have hdamaged : (p.taken floorLsn [r]).damaged = false := h
        rw [cons_append, planItems, hscanned, ih hdamaged hrest, hboth]

def goodRecords (items : List ScanItem) : List WalRecord := (items.takeWhile fun item => item.wanted everyRecord).filterMap record?

theorem record?_front (items : List ScanItem) :
    (items.takeWhile fun item => item.wanted everyRecord).map record? = (goodRecords items).map some := by
  induction items with
  | nil => rfl
  | cons item items ih =>
    cases item with
    | record segment offset r =>
      rw [goodRecords, takeWhile_cons_of_pos rfl, map_cons, ih]
      rfl
    | failure f =>
      rfl

theorem scan_split (items : List ScanItem) :
    ∃ front back, items = front ++ back ∧ front.map record? = (goodRecords items).map some ∧ Ends everyRecord back := by
  refine ⟨_, _, (takeWhile_append_dropWhile (p := fun item : ScanItem => item.wanted everyRecord)).symm, record?_front items, ?_⟩
  intro item hitem
  have hhead := head?_dropWhile_not (fun item : ScanItem => item.wanted everyRecord) items
  rw [hitem] at hhead
  exact hhead

theorem considered_front (items : List ScanItem) (h : front.map record? = rs.map some) :
    considered (front ++ items) = front ++ considered items ∧ refusal (front ++ items) = refusal items := by
  induction front generalizing rs with
  | nil => exact ⟨rfl, rfl⟩
  | cons item front ih =>
    cases rs with
    | nil => cases h
    | cons r rs =>
      obtain ⟨hr, hrest⟩ := cons.inj h
      cases item with
      | failure f => cases hr
      | record segment offset r =>
        obtain ⟨hconsidered, hrefusal⟩ := ih hrest
        exact ⟨congrArg _ hconsidered, hrefusal⟩

theorem filterMap_front {β : Type*} {g : ScanItem → Option β} (hg : ∀ segment offset r, g (.record segment offset r) = none)
    (h : front.map record? = rs.map some) : front.filterMap g = [] := by
  apply filterMap_eq_nil_iff.mpr
  intro item hitem
  have hmem : item.record? ∈ rs.map some := h ▸ mem_map_of_mem hitem
  obtain ⟨r, -, hr⟩ := mem_map.mp hmem
  cases item with
  | record segment offset r => exact hg segment offset r
  | failure f => cases hr

structure Accounted (floorLsn : ℕ) (items : List ScanItem) (plan : RecoveryPlan) : Prop where
  lastGoodLsn : plan.lastGoodLsn = lastLsn (goodRecords items)
  replayable : plan.replayable = (goodRecords items).filter fun r => decide (floorLsn < r.lsn)
  scanned : plan.recordsScanned = ((considered items).filterMap record?).length
  records : (considered items).filterMap record? = goodRecords items ++ plan.records.map DiscardedRecord.record
  ranges : plan.ranges = (considered items).filterMap undecodable
  discontinuities : plan.discontinuities = (considered items).filterMap discontinuous
  unsupported : plan.unsupported = refusal items

theorem planRecovery_accounted (floorLsn : ℕ) (items : List ScanItem) : Accounted floorLsn items (planRecovery floorLsn items) := by
  obtain ⟨front, back, hitems, hfront, hends⟩ := scan_split items
  obtain ⟨hconsidered, hrefusal⟩ := considered_front back hfront
  have hplan : planRecovery floorLsn items = planItems floorLsn back (RecoveryPlan.taken floorLsn {} (goodRecords items)) := by
    conv_lhs => rw [planRecovery, hitems]
    exact planItems_records floorLsn back rfl hfront
  have h : Discards back _ (planRecovery floorLsn items) := hplan ▸ planItems_discards (.inr hends)
  have hgood := filterMap_of_record? hfront
  constructor
  · exact h.lastGoodLsn
  · exact h.replayable
  · rw [h.recordsScanned, hitems, hconsidered, filterMap_append, ← hitems, hgood, length_append]
    exact congrArg (· + _) (zero_add _)
  · rw [hitems, hconsidered, filterMap_append, ← hitems, hgood, h.records, map_append, scannedAt_record]
    rfl
  · rw [h.ranges, hitems, hconsidered, filterMap_append, filterMap_front (fun _ _ _ => rfl) hfront]
    rfl
  · rw [h.discontinuities, hitems, hconsidered, filterMap_append, filterMap_front (fun _ _ _ => rfl) hfront]
    rfl
  · rw [h.unsupported, hitems, hrefusal]
    exact Option.or_none

theorem considered_of_refusal (h : refusal items = none) : considered items = items := by
  induction items with
  | nil => rfl
  | cons item items ih =>
    cases item with
    | record _ _ _ => exact congrArg _ (ih h)
    | failure f =>
      cases hrefuses : refusesRecovery f.reason with
      | true => simp [refusal, hrefuses] at h
      | false =>
        rw [refusal, hrefuses, if_neg Bool.false_ne_true] at h
        rw [considered, hrefuses, if_neg Bool.false_ne_true, ih h]

/-! ## A fixed point -/

theorem scanAll_ok_iff : scanAll d = .ok items ↔ walk none d = (items, none) := by
  rw [walk_live, scanAll]
  match walk none (live d) with
  | (items', none) => exact ⟨fun h => by rw [Except.ok.inj h], fun h => by rw [(Prod.mk.inj h).1]⟩
  | (items', some n) => exact ⟨nofun, fun h => (nomatch (Prod.mk.inj h).2)⟩

theorem goodRecords_eq (hscan : scanAll d = .ok items) : goodRecords items = readable everyRecord d := by
  rw [goodRecords, readable, scanAll_ok_iff.mp hscan]

theorem planRecovery_records (h : items.map record? = rs.map some) : planRecovery floorLsn items = RecoveryPlan.taken floorLsn {} rs := by
  have hplan := planItems_records floorLsn [] (p := {}) rfl h
  rw [append_nil] at hplan
  exact hplan

/-- Planning a recovery accounts for every record and every undecodable range once; once the log is cut at the last
good number, planning again finds the same records and nothing to discard. -/
theorem plan_then_truncate (d : Directory) (floorLsn next : ℕ) (refuses : ℕ → Bool) (items : List ScanItem) (hd : Ordered d) (hnext : Fresh next d)
    (hscan : scanAll d = .ok items) :
    ((planRecovery floorLsn items).recordsScanned = ((considered items).filterMap record?).length ∧
      (∃ good, (considered items).filterMap record? = good ++ (planRecovery floorLsn items).records.map DiscardedRecord.record ∧
        (planRecovery floorLsn items).replayable = good.filter fun r => decide (floorLsn < r.lsn)) ∧
      (planRecovery floorLsn items).ranges = (considered items).filterMap undecodable ∧
      (planRecovery floorLsn items).discards = ((considered items).filterMap undecodable).length + (planRecovery floorLsn items).records.length ∧
      (planRecovery floorLsn items).unsupported = refusal items ∧
      ((planRecovery floorLsn items).unsupported = none → considered items = items)) ∧
    ((truncateAfter refuses next (planRecovery floorLsn items).lastGoodLsn d).completed = true →
      ∃ items', scanAll (runOps (truncateAfter refuses next (planRecovery floorLsn items).lastGoodLsn d).ops d) = .ok items' ∧
        (planRecovery floorLsn items').damaged = false ∧ (planRecovery floorLsn items').unsupported = none ∧
        (planRecovery floorLsn items').lastGoodLsn = (planRecovery floorLsn items).lastGoodLsn ∧
        (planRecovery floorLsn items').replayable = (planRecovery floorLsn items).replayable ∧ (planRecovery floorLsn items').discards = 0) := by
  have h := planRecovery_accounted floorLsn items
  refine ⟨⟨h.scanned, ⟨_, h.records, h.replayable⟩, h.ranges, by rw [RecoveryPlan.discards, h.ranges], h.unsupported, ?_⟩, ?_⟩
  · intro hnone
    exact considered_of_refusal (h.unsupported ▸ hnone)
  · intro hcompleted
    have hgood := goodRecords_eq hscan
    have hlog := truncation_completed hd hnext hcompleted
    rw [h.lastGoodLsn, hgood, keptRecords_last] at hlog
    obtain ⟨hrecords, hraised, -⟩ := hlog
    rw [h.lastGoodLsn, h.replayable, hgood]
    refine ⟨_, scanAll_ok_iff.mpr (Prod.ext rfl hraised), ?_⟩
    rw [planRecovery_records hrecords]
    exact ⟨rfl, rfl, rfl, nil_append _, rfl⟩

def tornByte : Directory := [⟨1, (plainRecord .commit 1 7).image ++ [0]⟩]

theorem plan_then_truncate_torn : ∃ items, Ordered tornByte ∧ Fresh 2 tornByte ∧ scanAll tornByte = .ok items ∧
    ∃ items', scanAll (runOps (truncateAfter (fun _ => false) 2 (planRecovery 0 items).lastGoodLsn tornByte).ops tornByte) = .ok items' ∧
      (planRecovery 0 items').damaged = false ∧ (planRecovery 0 items').unsupported = none ∧
      (planRecovery 0 items').lastGoodLsn = (planRecovery 0 items).lastGoodLsn ∧
      (planRecovery 0 items').replayable = (planRecovery 0 items).replayable ∧ (planRecovery 0 items').discards = 0 :=
  have hscan : scanAll tornByte =
      .ok [.record 1 0 (plainRecord .commit 1 7), .failure ⟨.truncatedTail, 1, 52, 1, 2⟩] := by decide +kernel
  ⟨_, by decide, by decide, hscan, (plan_then_truncate tornByte 0 2 (fun _ => false) _ (by decide) (by decide) hscan).2
    (truncation_granted (fun _ => rfl) (by decide) _ _)⟩

def laterFormat : Directory := [⟨1, (⟨walMagic, 3, 3, walHeaderLength, 0, 52, 1, 1, 7, 0, 0⟩ : WireHeader).pack⟩]

/-- What a later build wrote does not decode, and is not discarded. -/
theorem later_format_not_discarded : ∃ items, scanAll laterFormat = .ok items ∧ items.filterMap undecodable ≠ [] ∧
    (planRecovery 0 items).ranges = [] ∧ (planRecovery 0 items).discards = 0 :=
  have hscan : scanAll laterFormat = .ok [.failure ⟨.unsupportedVersion, 1, 0, 48, 0⟩] := by decide +kernel
  ⟨_, hscan, by decide, by decide, by decide⟩

end Grafx.Recovery
