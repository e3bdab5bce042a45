import OktoGrafx.Txn.CommitBatch
import OktoGrafx.Lib.Pointwise

/-! The number a commit batch carries is the sequence number the log gives its COMMIT record. -/

namespace Grafx.Txn
open List Wal
open RowWrite (stage stageDelete stageInsert)
open WalManager (bodyLength)

namespace CommitAttempt
variable {fmt : Format} {a : CommitAttempt}
  {b : Batch} {compress : Bool} {records : List WalRecord} {src : PageSource} {item : PageSource × Page Cell} {w : WalManager} {csn new old : ℕ}

theorem pages_length (a : CommitAttempt) :
    a.pages.length = a.staged.length + a.resident.length + a.journal.length := by
  simp [pages, length_mergeSort, add_assoc]

theorem mem_pages : src ∈ a.pages ↔ src ∈ a.staged ++ a.resident ++ a.journal := by
  simp [pages, mem_mergeSort]

theorem stage_length (row : RowWrite) (csn : ℕ) :
    (row.stage csn).length = (if row.ended.isSome then row.endedEntries.length else 0) +
      if row.born.isSome then row.bornEntries.length else 0 := by
  unfold stage stageDelete stageInsert
  cases row.ended <;> cases row.born <;> simp

theorem changesAt_length (a : CommitAttempt) (csn : ℕ) :
    (a.changesAt csn).length = a.pending.length + a.indexRecordCount := by
  simp [changesAt, indexRecordCount, length_flatMap, stage_length]

theorem assemble_length (compress : Bool) (images changes) (terminal : WalRecord) :
    (a.assemble fmt compress images changes terminal).length = images.length + changes.length + 1 := by
  simp [assemble, add_assoc]

/-! ## The batch built for a number -/

theorem batchAt_eq_some_iff : a.batchAt fmt csn = some b ↔ ∃ images, List.Forall₂ (fun src item => a.imageAt csn src = some item) a.pages images ∧
        b = ⟨a.assemble fmt false images (a.changesAt csn) a.commitRecord, images, a.changesAt csn, csn⟩ := by
  simp only [batchAt, Option.bind_eq_bind, Option.pure_def, Option.bind_eq_some_iff, Option.some.injEq,
    Pointwise.mapM_eq_some_iff, @eq_comm _ b]

theorem batchAt_length (h : a.batchAt fmt csn = some b) (base : ℕ) : base + b.records.length = a.predicted base := by
  obtain ⟨images, himages, rfl⟩ := batchAt_eq_some_iff.mp h
  rw [assemble_length, ← himages.length_eq, pages_length, changesAt_length, predicted]
  omega

theorem assemble_unnumbered {images changes} : ∀ r ∈ a.assemble fmt compress images changes a.commitRecord, r.lsn = 0 ∧ r.epoch = a.epoch := by
  intro r hr
  simp only [assemble, mem_append, mem_map, mem_singleton] at hr
  rcases hr with (⟨item, -, rfl⟩ | ⟨change, -, rfl⟩) | rfl <;> exact ⟨rfl, rfl⟩

theorem imageAt_fst (h : a.imageAt csn src = some item) : item.1 = src := by
  obtain ⟨page, -, rfl⟩ := Option.map_eq_some_iff.mp h
  rfl

/-! ## Lengths do not depend on the number -/

theorem pageRecord_length (compress : Bool) (item : PageSource × Page Cell) :
    (a.pageRecord fmt compress item).encodedLength fmt =
      48 + fmt.descriptorBytes + (pageWritePrefix item.1.loc.file + if compress && isCompressible fmt item.2 then
        uncompressedLengthSize + fmt.zlibLength item.2 else fmt.pageSize) + checksumLength :=
  WalRecord.encodedLength_withPageWrite ..

theorem pageLengths_eq {sources : List PageSource} {images : List (PageSource × Page Cell)}
    (h : List.Forall₂ (fun src item => a.imageAt csn src = some item) sources images) :
    (images.map fun item => (a.pageRecord fmt false item).encodedLength fmt) =
      sources.map fun src =>
        48 + fmt.descriptorBytes + (pageWritePrefix src.loc.file + fmt.pageSize) + checksumLength := by
  induction h with
  | nil => rfl
  | cons hitem _ ih =>
    rw [map_cons, map_cons, ih, pageRecord_length, imageAt_fst hitem]
    rfl

theorem stage_lengths (row : RowWrite) (m n : ℕ) :
    ((row.stage m).map fun c => (a.indexRecord c).encodedLength fmt) =
      (row.stage n).map fun c => (a.indexRecord c).encodedLength fmt := by
  unfold stage stageDelete stageInsert
  cases row.ended <;> cases row.born <;> simp [Function.comp_def, indexRecord, WalRecord.encodedLength,
    RecordPayload.encodedLength]

theorem changeLengths_eq (m n : ℕ) :
    ((a.changesAt m).map fun c => (a.indexRecord c).encodedLength fmt) =
      (a.changesAt n).map fun c => (a.indexRecord c).encodedLength fmt := by
  simp only [changesAt, map_append, map_flatMap, stage_lengths _ m n]

theorem bodyLength_batchAt {m n : ℕ} {b' : Batch} (h : a.batchAt fmt m = some b) (h' : a.batchAt fmt n = some b') :
    bodyLength fmt b.records = bodyLength fmt b'.records := by
  obtain ⟨images, himages, rfl⟩ := batchAt_eq_some_iff.mp h
  obtain ⟨images', himages', rfl⟩ := batchAt_eq_some_iff.mp h'
  simp only [bodyLength, assemble, map_append, map_map, Function.comp_def, pageLengths_eq himages,
    pageLengths_eq himages', changeLengths_eq m n]

/-! ## Compression -/

theorem compressPageRecords_eq (images changes) (csn : ℕ) (terminal : WalRecord) :
    a.compressPageRecords fmt ⟨a.assemble fmt false images changes terminal, images, changes, csn⟩ =
      a.assemble fmt a.walRecordV2Capable images changes terminal := by
  unfold compressPageRecords
  cases hcapable : a.walRecordV2Capable with
  | false => rfl
  | true =>
    cases images with
    | nil => rfl
    | cons item rest =>
      have hzip : ∀ items : List (PageSource × Page Cell), ∀ tail : List WalRecord,
          zipWith (fun (r : WalRecord) item => r.withPageWrite
            (encodePageWriteRecord fmt item.1.loc.file item.1.loc.pageIndex item.2 true))
            (items.map (a.pageRecord fmt false) ++ tail) items = items.map (a.pageRecord fmt true) := by
        intro items tail
        induction items with
        | nil => simp
        | cons x xs ih => simp only [map_cons, cons_append, zipWith_cons_cons, ih]; rfl
      simp only [isEmpty_cons, Bool.not_false, Bool.and_true, if_true, assemble, append_assoc, hzip]
      rw [drop_append_of_le_length (by simp), drop_of_length_le (by simp), nil_append]

theorem bodyLength_compressed_le (compress : Bool) (images changes) (terminal : WalRecord) :
    bodyLength fmt (a.assemble fmt compress images changes terminal) ≤
      bodyLength fmt (a.assemble fmt false images changes terminal) := by
  have hpages : ∀ items : List (PageSource × Page Cell),
      (items.map fun item => (a.pageRecord fmt compress item).encodedLength fmt).sum ≤
        (items.map fun item => (a.pageRecord fmt false item).encodedLength fmt).sum := by
    intro items
    refine sum_le_sum fun item _ => ?_
    cases compress with
    | false => exact le_refl _
    | true => exact compressed_length_le ..
  have := hpages images
  simp only [bodyLength, assemble, map_append, map_map, Function.comp_def, sum_append]
  omega

/-! ## Retargeting -/

theorem retargetImage_eq (hle : old ≤ new) (h : a.imageAt old src = some item) : a.retargetImage new item = a.imageAt new src := by
  obtain ⟨page, hpage, rfl⟩ := Option.map_eq_some_iff.mp h
  unfold retargetImage imageAt
  cases hrebound : src.rebound with
  | true => simp
  | false =>
    simp only [Bool.false_eq_true, if_false]
    rw [stampPage_stampPage hle hpage, src.fixed hrebound old new]

theorem imageAt_isSome (hsrc : src ∈ a.pages) (h : a.imageAt old src = some item) : ∃ item', a.imageAt new src = some item' := by
  obtain ⟨page, hpage, rfl⟩ := Option.map_eq_some_iff.mp h
  rw [stampPage_eq] at hpage
  split_ifs at hpage with hslots
  have hnew : RecordSlots (a.stampsOf src.loc) (src.image new).slots := by
    cases hrebound : src.rebound with
    | false => exact src.fixed hrebound old new ▸ hslots
    | true =>
      have hfile := a.rebound_not_heap src (mem_pages.mp hsrc) hrebound
      simp [stampsOf, hfile, RecordSlots]
  unfold imageAt
  exact ⟨_, by rw [stampPage_eq, if_pos hnew]; rfl⟩

theorem retargetChange_stage (hold : old ≠ 0) (row : RowWrite) : (row.stage old).map (retargetChange old new) = row.stage new := by
  unfold stage stageDelete stageInsert
  rw [map_append]
  congr 1
  · cases row.ended <;> simp [retargetChange, Function.comp_def]
  · cases row.born with
    | none => rfl
    | some ref =>
      simp only [map_map]
      refine map_congr_left fun e _ => ?_
      cases hv : e.versioned <;> simp [retargetChange, hv, noCsn, hold.symm]

theorem retargetChange_changesAt (hold : old ≠ 0) (hpending : ∀ c ∈ a.pending, c.csn ≠ old) :
    (a.changesAt old).map (retargetChange old new) = a.changesAt new := by
  have hkept : a.pending.map (retargetChange old new) = a.pending := by
    refine (map_congr_left fun c hc => ?_).trans (map_id _)
    simp [retargetChange, hpending c hc]
  simp only [changesAt, map_append, map_flatMap, hkept, retargetChange_stage hold]

theorem retargetCommitBatch_eq (hold : old ≠ 0) (hle : old ≤ new) (hpending : ∀ c ∈ a.pending, c.csn ≠ old) (hb : a.batchAt fmt old = some b) :
    ∃ b', a.batchAt fmt new = some b' ∧ a.retargetCommitBatch fmt b new = .ok b' := by
  obtain ⟨images, himages, rfl⟩ := batchAt_eq_some_iff.mp hb
  have hexists : ∀ src ∈ a.pages, ∃ item, a.imageAt new src = some item := by
    intro src hsrc
    obtain ⟨item, hitem⟩ := Pointwise.exists_of_mem himages hsrc
    exact imageAt_isSome hsrc hitem
  obtain ⟨images', himages'⟩ := Pointwise.exists_forall₂ hexists
  have hretarget : images.mapM (a.retargetImage new) = some images' := by
    rw [Pointwise.mapM_eq_some_iff]
    refine Pointwise.forall₂_of_common himages himages' fun src _ item item' hitem hitem' => ?_
    rw [retargetImage_eq hle hitem, hitem']
  have hlast : (a.assemble fmt false images (a.changesAt old) a.commitRecord).getLast? = some a.commitRecord := by
    simp [assemble]
  have hcommit : a.commitRecord.recordType = .commit := rfl
  refine ⟨_, batchAt_eq_some_iff.mpr ⟨images', himages', rfl⟩, ?_⟩
  simp only [retargetCommitBatch, retargetChange_changesAt hold hpending, hlast, hcommit, hretarget, assemble_length,
    changesAt_length, ne_eq, not_true_eq_false, or_self, if_false]

/-! ## The batch the log receives -/

theorem validateBatch_assemble {images changes} :
    w.validateBatch 0 (a.assemble fmt compress images changes a.commitRecord) = none ↔ w.maxEpoch ≤ a.epoch := by
  rw [WalManager.validateBatch_eq_none_iff]
  constructor
  · intro h
    exact (h a.commitRecord (by simp [assemble])).2
  · intro hepoch r hr
    obtain ⟨hlsn, hr⟩ := assemble_unnumbered r hr
    exact ⟨hlsn, hr ▸ hepoch⟩

theorem planBatch_assemble {images images' changes changes'} {plan : BatchPlan}
    (hplan : w.planBatch fmt (a.assemble fmt false images changes a.commitRecord) = .ok plan)
    (himages : images'.length = images.length) (hchanges : changes'.length = changes.length)
    (hle : bodyLength fmt (a.assemble fmt compress images' changes' a.commitRecord) ≤
      bodyLength fmt (a.assemble fmt false images changes a.commitRecord))
    (hroll : plan.rolling = true → bodyLength fmt (a.assemble fmt false images changes a.commitRecord) ≤
      bodyLength fmt (a.assemble fmt compress images' changes' a.commitRecord)) :
    ∃ plan', w.planBatch fmt (a.assemble fmt compress images' changes' a.commitRecord) = .ok plan' ∧
      plan'.terminal = plan.terminal ∧ plan'.rolling = plan.rolling := by
  obtain ⟨-, hvalid, -, -, rfl⟩ := (WalManager.planBatch_eq_ok_iff fmt w).mp hplan
  refine ⟨_, WalManager.planBatch_of_shorter fmt w hplan ?_ ?_ hle ?_⟩
  · simp only [assemble_length, himages, hchanges]
  · exact validateBatch_assemble.mpr (validateBatch_assemble.mp hvalid)
  · cases hrolling : w.needsRoll (bodyLength fmt (a.assemble fmt false images changes a.commitRecord)) with
    | false => exact WalManager.needsRoll_mono w hle hrolling
    | true => rw [le_antisymm hle (hroll hrolling), hrolling]

/-- The batch of the number it is planned for; after a roll it is the retargeted one. -/
structure FinalBatch (fmt : Format) (a : CommitAttempt) (w : WalManager) (records : List WalRecord) (csn : ℕ) where
  first : Batch
  images : List (PageSource × Page Cell)
  compress : Bool
  plan : BatchPlan
  built : a.buildRecords fmt w.lastLsn = some first
  images_eq : List.Forall₂ (fun src item => a.imageAt csn src = some item) a.pages images
  records_eq : records = a.assemble fmt compress images (a.changesAt csn) a.commitRecord
  planned : w.planBatch fmt records = .ok plan
  terminal_eq : plan.terminal = csn
  number_eq : csn = a.predicted w.lastLsn + plan.rolling.toNat

theorem finalBatch_eq_ok (hpending : ∀ c ∈ a.pending, c.csn ≤ w.lastLsn)
    (h : a.finalBatch fmt w = .ok (records, csn)) : Nonempty (FinalBatch fmt a w records csn) := by
  unfold finalBatch at h
  match hbuild : a.buildRecords fmt w.lastLsn with
  | none => simp [hbuild] at h
  | some first =>
    simp only [hbuild, WalManager.plannedTerminalLsn, bind, Except.bind] at h
    match hplan : w.planBatch fmt first.records with
    | .error refusal => simp [hplan] at h
    | .ok plan =>
      have hterminal : plan.terminal = a.predicted w.lastLsn + plan.rolling.toNat := by
        obtain ⟨-, -, -, -, rfl⟩ := (WalManager.planBatch_eq_ok_iff fmt w).mp hplan
        simp only [WalManager.planOf, batchAt_length hbuild]
      have hpredicted : w.lastLsn < a.predicted w.lastLsn := by unfold predicted; omega
      obtain ⟨images, himages, rfl⟩ := batchAt_eq_some_iff.mp hbuild
      simp only [hplan, pure, Except.pure, hterminal] at h
      cases hroll : plan.rolling with
      | true =>
        have hfresh : ∀ c ∈ a.pending, c.csn ≠ a.predicted w.lastLsn := fun c hc =>
          (Nat.lt_of_le_of_lt (hpending c hc) hpredicted).ne
        obtain ⟨b, hb, hretarget⟩ := retargetCommitBatch_eq (Nat.zero_lt_of_lt hpredicted).ne'
          (Nat.le_add_right _ 1) hfresh hbuild
        have hbody := bodyLength_batchAt hbuild hb
        obtain ⟨images', himages', rfl⟩ := batchAt_eq_some_iff.mp hb
        simp only [hroll, Bool.toNat_true, ne_eq, Nat.add_eq_left, one_ne_zero, not_false_eq_true, if_true,
          hretarget, Except.ok.injEq, Prod.mk.injEq] at h
        obtain ⟨rfl, rfl⟩ := h
        obtain ⟨plan', hplan', hterminal', hrolling'⟩ := planBatch_assemble hplan
          (himages'.length_eq.symm.trans himages.length_eq) (by simp only [changesAt_length])
          hbody.symm.le (fun _ => hbody.le)
        exact ⟨_, images', false, plan', hbuild, himages', rfl, hplan', by rw [hterminal', hterminal, hroll]; rfl,
          by rw [hrolling', hroll]; rfl⟩
      | false =>
        simp only [hroll, Bool.toNat_false, add_zero, ne_eq, not_true_eq_false, if_false, Except.ok.injEq,
          Prod.mk.injEq] at h
        obtain ⟨hrecords, rfl⟩ := h
        have hcompress : ∃ compress, records = a.assemble fmt compress images (a.changesAt (a.predicted w.lastLsn))
            a.commitRecord := by
          rw [← hrecords]
          split_ifs
          · exact ⟨false, rfl⟩
          · exact ⟨_, compressPageRecords_eq ..⟩
        obtain ⟨compress, rfl⟩ := hcompress
        obtain ⟨plan', hplan', hterminal', hrolling'⟩ := planBatch_assemble hplan rfl rfl
          (bodyLength_compressed_le compress images _ _) (fun htrue => by simp [hroll] at htrue)
        exact ⟨_, images, compress, plan', hbuild, himages, rfl, hplan', by rw [hterminal', hterminal, hroll]; rfl,
          by rw [hrolling', hroll]; rfl⟩

theorem FinalBatch.append (f : FinalBatch fmt a w records csn) : ∃ w', w.appendMany fmt records (some csn) = .ok (w', csn) ∧
      w'.records = w.records ++ w.rollHeader f.plan.rolling records ++
        WalManager.stamped (csn - records.length) records := by
  have h := WalManager.appendMany_of_plan fmt w f.planned
  rw [f.terminal_eq] at h
  exact ⟨_, h.1, h.2⟩

theorem commitBatch_eq_ok {w' : WalManager} (h : a.commitBatch fmt w = .ok (w', csn)) :
    ∃ records planned, a.finalBatch fmt w = .ok (records, planned) ∧
      w.appendMany fmt records (some planned) = .ok (w', csn) := by
  unfold commitBatch at h
  match hfinal : a.finalBatch fmt w with
  | .error refusal => simp [hfinal] at h
  | .ok (records, planned) =>
    simp only [hfinal] at h
    split at h
    · simp at h
    · split at h
      · simp at h
      · exact ⟨records, planned, rfl, by simp_all⟩

end CommitAttempt
end Grafx.Txn
