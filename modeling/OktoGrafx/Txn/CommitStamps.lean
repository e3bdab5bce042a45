import OktoGrafx.Txn.CommitNumber

/-! What the records of a commit batch carry: one number in every page LSN, version stamp and staged
index change, and otherwise the records of the batch that was built first. -/

namespace Grafx.Txn
open List Wal
open WalManager (stamped)

namespace CommitAttempt
variable {fmt : Format} {a : CommitAttempt} {images : List (PageSource × Page Cell)} {src : PageSource} {csn : ℕ}

/-- The page LSN, the stamps of the versions and the index changes of the rows are the commit's number. -/
def Carries (a : CommitAttempt) (csn : ℕ) (r : WalRecord) : Prop :=
  match r.payload with
  | .writePage file i image _ =>
    image.pageLsn = csn ∧ ∀ s ∈ a.stampsOf ⟨file, i⟩, ∃ h body,
      image.slots[s.reference.slot]? = some (some (.record h body)) ∧ (if s.isBirth then h.xmin else h.xmax) = csn
  | .index change =>
    change ∈ a.pending ∨ change.csn = if change.operation = .insert ∧ change.versioned = false then noCsn else csn
  | .commit _ => r.lsn = csn
  | .segmentHeader .. => False

theorem imageAt_eq_some_iff {item : PageSource × Page Cell} : a.imageAt csn src = some item ↔ RecordSlots (a.stampsOf src.loc) (src.image csn).slots ∧
      item = (src, { src.image csn with
        pageLsn := max (src.image csn).pageLsn csn
        slots := markSlots csn (a.stampsOf src.loc) (src.image csn).slots }) := by
  unfold imageAt
  rw [stampPage_eq]
  split_ifs with hslots
  · simp [hslots, eq_comm]
  · simp [hslots]

theorem stage_csn {row : RowWrite} {c : IndexChange} (hc : c ∈ row.stage csn) :
    c.csn = if c.operation = .insert ∧ c.versioned = false then noCsn else csn := by
  unfold RowWrite.stage RowWrite.stageDelete RowWrite.stageInsert at hc
  rcases mem_append.mp hc with hc | hc
  · cases hended : row.ended with
    | none => simp [hended] at hc
    | some ref =>
      simp only [hended, mem_map] at hc
      obtain ⟨e, -, rfl⟩ := hc
      rfl
  · cases hborn : row.born with
    | none => simp [hborn] at hc
    | some ref =>
      simp only [hborn, mem_map] at hc
      obtain ⟨e, -, rfl⟩ := hc
      cases e.versioned <;> simp

theorem markSlots_stamped {stamps : List VersionStamp} {slots : List (Option Cell)}
    (h : RecordSlots stamps slots) {s : VersionStamp} (hs : s ∈ stamps) :
    ∃ hd body, (markSlots csn stamps slots)[s.reference.slot]? = some (some (.record hd body)) ∧
      (if s.isBirth then hd.xmin else hd.xmax) = csn := by
  have hslot := h s hs
  rw [markSlots, getElem?_mapIdx]
  obtain ⟨hd, body, hcell⟩ : ∃ hd body, slots[s.reference.slot]? = some (some (.record hd body)) := by
    unfold isRecord at hslot
    split at hslot
    next hd body hcell => exact ⟨hd, body, hcell⟩
    next => cases hslot
  rw [hcell]
  refine ⟨_, _, rfl, ?_⟩
  cases hb : s.isBirth with
  | true =>
    have : bornAt stamps s.reference.slot = true := any_eq_true.mpr ⟨s, hs, by simp [hb]⟩
    simp [this]
  | false =>
    have : endedAt stamps s.reference.slot = true := any_eq_true.mpr ⟨s, hs, by simp [hb]⟩
    simp [this]

theorem carries_assemble {compress : Bool} (hpages : ∀ src ∈ a.pages, (src.image csn).pageLsn ≤ csn)
    (himages : List.Forall₂ (fun src item => a.imageAt csn src = some item) a.pages images) :
    ∀ r ∈ images.map (a.pageRecord fmt compress) ++ (a.changesAt csn).map a.indexRecord, ∀ lsn,
      a.Carries csn { r with lsn := lsn } := by
  intro r hr lsn
  rcases mem_append.mp hr with hr | hr
  · obtain ⟨item, hitem, rfl⟩ := mem_map.mp hr
    obtain ⟨src, hsrc, himage⟩ := Pointwise.exists_of_mem' himages hitem
    obtain ⟨hslots, rfl⟩ := imageAt_eq_some_iff.mp himage
    simp only [Carries, pageRecord, WalRecord.withPageWrite, encodePageWriteRecord_payload]
    exact ⟨max_eq_right (hpages src hsrc), fun s hs => markSlots_stamped hslots hs⟩
  · obtain ⟨change, hchange, rfl⟩ := mem_map.mp hr
    rcases mem_append.mp hchange with hpending | hstaged
    · exact .inl hpending
    · obtain ⟨row, -, hrow⟩ := mem_flatMap.mp hstaged
      exact .inr (stage_csn hrow)

theorem mem_stamped {lsn : ℕ} {records : List WalRecord} {r : WalRecord} (h : r ∈ stamped lsn records) :
    ∃ r' ∈ records, ∃ n, r = { r' with lsn := n } := by
  induction records generalizing lsn with
  | nil => cases h
  | cons x xs ih =>
    rcases mem_cons.mp h with rfl | h
    · exact ⟨x, mem_cons_self, _, rfl⟩
    · obtain ⟨r', hr', n, rfl⟩ := ih h
      exact ⟨r', mem_cons_of_mem x hr', n, rfl⟩

theorem stamped_assemble (compress : Bool) (images changes) (hle : (a.assemble fmt compress images changes a.commitRecord).length ≤ csn) :
    ∃ lsn, stamped (csn - (a.assemble fmt compress images changes a.commitRecord).length)
      (a.assemble fmt compress images changes a.commitRecord) =
        stamped lsn (images.map (a.pageRecord fmt compress) ++ changes.map a.indexRecord) ++
          [{ a.commitRecord with lsn := csn }] := by
  refine ⟨_, (WalManager.stamped_append ..).trans (congrArg _ ?_)⟩
  have hlast : csn - (images.length + changes.length + 1) + (images.length + changes.length) + 1 = csn := by
    rw [assemble_length] at hle
    omega
  simp only [assemble_length, length_append, length_map, stamped, hlast]

/-- The number a commit was built or retargeted for is the one the log gives its COMMIT record, and the one its
records carry. What is appended is the batch of that number, compressed or not. -/
theorem commitBatch_number (fmt : Format) (a : CommitAttempt) (w : WalManager)
    (hpages : ∀ src ∈ a.pages, ∀ n, w.lastLsn < n → (src.image n).pageLsn ≤ n)
    (hpending : ∀ c ∈ a.pending, c.csn ≤ w.lastLsn) :
    (∀ records csn, a.finalBatch fmt w = .ok (records, csn) →
      ∃ w', w.appendMany fmt records (some csn) = .ok (w', csn)) ∧
    ∀ w' csn, a.commitBatch fmt w = .ok (w', csn) →
      ∃ first images compress rolled batch, a.buildRecords fmt w.lastLsn = some first ∧
        List.Forall₂ (fun src item => a.imageAt csn src = some item) a.pages images ∧
        batch = stamped (csn - first.records.length) (a.assemble fmt compress images (a.changesAt csn) a.commitRecord) ∧
        w'.records = w.records ++ rolled ++ batch ∧ rolled.length ≤ 1 ∧ csn = a.predicted w.lastLsn + rolled.length ∧
        batch.getLast? = some { a.commitRecord with lsn := csn } ∧ ∀ r ∈ batch, a.Carries csn r := by
  constructor
  · intro records csn hfinal
    obtain ⟨f⟩ := finalBatch_eq_ok hpending hfinal
    obtain ⟨w', happend, -⟩ := f.append
    exact ⟨w', happend⟩
  · intro w' csn h
    obtain ⟨records, planned, hfinal, happended⟩ := commitBatch_eq_ok h
    obtain ⟨f⟩ := finalBatch_eq_ok hpending hfinal
    obtain ⟨w'', happend, hrecords⟩ := f.append
    obtain ⟨rfl, rfl⟩ : w'' = w' ∧ planned = csn := by simpa [happend] using happended
    have hfresh : w.lastLsn < planned := by
      have hnumber := f.number_eq
      unfold predicted at hnumber
      omega
    have hlength : records.length ≤ planned := by
      have hterminal := f.terminal_eq
      obtain ⟨-, -, -, -, hplan⟩ := (WalManager.planBatch_eq_ok_iff fmt w).mp f.planned
      simp only [hplan, WalManager.planOf] at hterminal
      omega
    have hsame : f.first.records.length = records.length := by
      obtain ⟨images, himages, hfirst⟩ := batchAt_eq_some_iff.mp f.built
      simp only [hfirst, f.records_eq, assemble_length, changesAt_length, ← himages.length_eq, ← f.images_eq.length_eq]
    obtain ⟨lsn, hstamped⟩ := stamped_assemble f.compress f.images (a.changesAt planned) (f.records_eq ▸ hlength)
    rw [← f.records_eq] at hstamped
    refine ⟨f.first, f.images, f.compress, _, _, f.built, f.images_eq, by rw [hsame, ← f.records_eq], hrecords, ?_, ?_, ?_, ?_⟩
    · rw [WalManager.rollHeader_length]
      exact Bool.toNat_le _
    · rw [WalManager.rollHeader_length]
      exact f.number_eq
    · rw [hstamped, getLast?_concat]
    · intro r hr
      rw [hstamped] at hr
      rcases mem_append.mp hr with hr | hr
      · obtain ⟨r', hr', n, rfl⟩ := mem_stamped hr
        exact carries_assemble (fun src hsrc => hpages src hsrc planned hfresh) f.images_eq r' hr' n
      · rw [mem_singleton.mp hr]
        rfl

/-! A commit of one row, with an unversioned index entry, that starts the first segment of the log. -/

def plainRow : PageSource where
  loc := ⟨heapFile, 1⟩
  image _ := { (Page.empty .heap : Page Cell) with
    slots := [some (.descriptor 1), some (.record ⟨1, provisionalCsn, 0, none, 1, 1, {}⟩ (.inline [5]))] }
  rebound := false
  fixed _ _ _ := rfl

def plainInsert : CommitAttempt where
  txnId := 1
  epoch := 1
  snapshotLsn := 7
  readPartitions := []
  writePartitions := [3]
  staged := []
  resident := [plainRow]
  journal := []
  rows := [{ born := some ⟨1, 1⟩, bornEntries := [⟨"by_name", false, [9]⟩] }]
  pending := []
  activation := false
  walRecordV2Capable := true
  maxWalBatchBytes := none
  rebound_not_heap := by simp [plainRow]

def emptyLog : WalManager := ⟨4096, [], 1, 7, 1, []⟩

def smallFormat : Format := ⟨512, 16, fun _ => 100⟩

theorem plainInsert_pages : plainInsert.pages = [plainRow] := by
  simp [pages, plainInsert]

theorem commitBatch_number_plainInsert :
    ∃ w', plainInsert.commitBatch smallFormat emptyLog = .ok (w', 11) ∧
      ∃ first images compress rolled batch, plainInsert.buildRecords smallFormat 7 = some first ∧
        List.Forall₂ (fun src item => plainInsert.imageAt 11 src = some item) plainInsert.pages images ∧
        batch = stamped (11 - first.records.length)
          (plainInsert.assemble smallFormat compress images (plainInsert.changesAt 11) plainInsert.commitRecord) ∧
        w'.records = [] ++ rolled ++ batch ∧ rolled.length ≤ 1 ∧ 11 = plainInsert.predicted 7 + rolled.length ∧
        batch.getLast? = some { plainInsert.commitRecord with lsn := 11 } ∧ ∀ r ∈ batch, plainInsert.Carries 11 r := by
  have hpages : ∀ src ∈ plainInsert.pages, ∀ n, emptyLog.lastLsn < n → (src.image n).pageLsn ≤ n := by
    rw [plainInsert_pages]
    intro src hsrc n _
    rw [mem_singleton.mp hsrc]
    exact Nat.zero_le n
  have hcommit : ∃ w', plainInsert.commitBatch smallFormat emptyLog = .ok (w', 11) := by
    simp only [commitBatch, finalBatch, buildRecords, batchAt, commitRecord, plainInsert_pages]
    exact ⟨_, rfl⟩
  obtain ⟨w', hw'⟩ := hcommit
  have hpending : ∀ c ∈ plainInsert.pending, c.csn ≤ emptyLog.lastLsn := by simp [plainInsert]
  exact ⟨w', hw', (commitBatch_number smallFormat plainInsert emptyLog hpages hpending).2 w' 11 hw'⟩

theorem plainInsert_index_change_without_number :
    ∃ w' csn, plainInsert.commitBatch smallFormat emptyLog = .ok (w', csn) ∧
      ∃ r ∈ w'.records, ∃ change, r.payload = .index change ∧ change.csn ≠ csn := by
  simp only [commitBatch, finalBatch, buildRecords, batchAt, commitRecord, plainInsert_pages]
  refine ⟨_, 11, rfl, _, .tail _ (.tail _ (.head _)), _, rfl, ?_⟩
  decide

end CommitAttempt
end Grafx.Txn
