import OktoGrafx.Log.Torn

/-! Appending a batch. The log numbers the records; a batch that does not fit the newest segment opens a
new one, whose header is a record like any other. -/

namespace Grafx.Log

open List ByteCodec Checked Wal

def minSegmentBytes : ℕ := 256

structure LogConfig where
  segmentBytes : ℕ
  descriptor : Bytes
  segmentBytes_ge : minSegmentBytes ≤ segmentBytes
  segmentBytes_le : segmentBytes ≤ maxSegmentReadBytes
  descriptor_ne : descriptor ≠ []
  descriptor_valid : utf8Valid descriptor = true
  descriptor_le : descriptor.length ≤ maxDescriptorBytes

inductive AppendRefusal where
  | damaged (f : ScanFailure)
  | uncertain (lastLsn : ℕ)
  | batch (e : WalRefusal)
  | recordType (value : ℕ)
  | lsn (value : ℕ)
  | epoch (value : ℕ)
  | segmentNumber (value : ℕ)
  | encode (e : EncodeRefusal)
  deriving DecidableEq

def WalRecord.withDescriptor (cfg : LogConfig) (r : WalRecord) : WalRecord :=
  if r.descriptor = [] then
    { r with descriptor := cfg.descriptor, descriptor_valid := cfg.descriptor_valid, descriptor_le := cfg.descriptor_le }
  else r

def WalRecord.withLsn (r : WalRecord) (lsn : ℕ) : Except AppendRefusal WalRecord :=
  if h : lsn ≤ maxU64 then .ok { r with lsn := lsn, lsn_le := h } else .error (.lsn lsn)

def WalRecord.withEpoch (r : WalRecord) (epoch : ℕ) : Except AppendRefusal WalRecord :=
  if h : epoch ≤ maxU64 then .ok { r with epoch := epoch, epoch_le := h } else .error (.epoch epoch)

/-- The record that opens a segment. -/
def segmentHeader (cfg : LogConfig) (number previousLastLsn wall : ℕ) : WalRecord where
  recordType := WalRecordType.segmentHeader.code
  payload := littleEndian 8 number ++ (littleEndian 8 previousLastLsn ++ littleEndian 8 wall)
  descriptor := cfg.descriptor
  lsn := noLsn
  epoch := 0
  txnId := 0
  flags := 0
  formatVersion := walLegacyFormatVersion
  recordType_le := WalRecordType.segmentHeader.code_le
  formatVersion_le := walLegacyFormatVersion_le
  flags_le := Nat.zero_le _
  lsn_le := Nat.zero_le _
  epoch_le := Nat.zero_le _
  txnId_le := Nat.zero_le _
  descriptor_valid := cfg.descriptor_valid
  descriptor_le := cfg.descriptor_le
  payload_le := by
    simp only [length_append, littleEndian_length]
    decide

def segmentHeaderLength (cfg : LogConfig) : ℕ := (segmentHeader cfg 0 0 0).encodedLength

section Plan
variable (cfg : LogConfig) (ix : TailIndex)

def validateRecord (position : ℕ) (r : WalRecord) : Except AppendRefusal PUnit := do
  ensure (r.lsn = noLsn) (.batch (.carriesLsn position r.lsn))
  ensure (isKnownRecordType r.recordType = true) (.recordType r.recordType)
  ensure (ix.maxEpoch ≤ r.epoch) (.batch (.staleEpoch r.epoch ix.maxEpoch position))

def validateBatch : ℕ → List WalRecord → Except AppendRefusal PUnit
  | _, [] => .ok ⟨⟩
  | position, r :: records => do
    validateRecord ix position r
    validateBatch (position + 1) records

def bodyLength (batch : List WalRecord) : ℕ := (batch.map WalRecord.encodedLength).sum

def lastSize : ℕ := (ix.segments.getLast?.map SegmentInfo.sizeBytes).getD 0

def needsRoll (body : ℕ) : Bool := ix.segments.isEmpty || decide (cfg.segmentBytes < lastSize ix + body)

/-- The batch but for its numbers, and whether it rolls. -/
def planBatch (records : List WalRecord) : Except AppendRefusal (List WalRecord × Bool) := do
  ensure (records ≠ []) (.batch .emptyBatch)
  let batch := records.map (WalRecord.withDescriptor cfg)
  validateBatch ix 0 batch
  let rolling := needsRoll cfg ix (bodyLength batch)
  let projected := (if rolling then segmentHeaderLength cfg else lastSize ix) + bodyLength batch
  ensure (projected ≤ maxSegmentReadBytes) (.batch (.segmentTooLarge batch.length projected))
  ensure (ix.lastLsn + batch.length + rolling.toNat < provisionalCsn) (.batch (.exhausted ix.lastLsn))
  return (batch, rolling)

def stamp : ℕ → List WalRecord → Except AppendRefusal (List WalRecord)
  | _, [] => .ok []
  | lsn, r :: records => do
    let first ← r.withLsn (lsn + 1)
    let rest ← stamp (lsn + 1) records
    return first :: rest

structure Append where
  number : ℕ
  rolling : Bool
  header : List WalRecord
  stamped : List WalRecord
  deriving DecidableEq

def Append.records (a : Append) : List WalRecord := a.header ++ a.stamped

def Append.blob (a : Append) : Bytes := imagesOf a.records

def openSegment (wall : ℕ) (batch : List WalRecord) : Except AppendRefusal WalRecord := do
  ensure (ix.nextNumber ≤ maxSegmentNumber) (.segmentNumber ix.nextNumber)
  let header ← (segmentHeader cfg ix.nextNumber ix.lastLsn wall).withLsn (ix.lastLsn + 1)
  header.withEpoch (maxEpochOf ix.maxEpoch batch)

def encodeAll : List WalRecord → Except AppendRefusal PUnit
  | [] => .ok ⟨⟩
  | r :: records => do
    let _ ← r.encode.mapError .encode
    encodeAll records

def prepareAppend (uncertain : Bool) (wall : ℕ) (records : List WalRecord) : Except AppendRefusal Append := do
  match ix.damage with
  | some f => .error (.damaged f)
  | none => do
    ensure (uncertain = false) (.uncertain ix.lastLsn)
    let (batch, rolling) ← planBatch cfg ix records
    if rolling then do
      let header ← openSegment cfg ix wall batch
      let stamped ← stamp (ix.lastLsn + 1) batch
      encodeAll (header :: stamped)
      return ⟨ix.nextNumber, true, [header], stamped⟩
    else do
      let stamped ← stamp ix.lastLsn batch
      encodeAll stamped
      return ⟨(ix.segments.getLast?.map SegmentInfo.number).getD 0, false, [], stamped⟩

def growInfo (a : Append) (previous : SegmentInfo) : SegmentInfo :=
  { previous with
    lastLsn := lastLsn a.stamped
    sizeBytes := previous.sizeBytes + a.blob.length
    recordCount := previous.recordCount + a.stamped.length }

def registerAppend (a : Append) : TailIndex :=
  { ix with
    segments :=
      if a.rolling then
        ix.segments ++ [⟨a.number, (a.stamped.head?.map WalRecord.lsn).getD 0 - 1, lastLsn a.stamped, a.blob.length, a.stamped.length + 1⟩]
      else ix.segments.dropLast ++ ix.segments.getLast?.toList.map (growInfo a)
    lastLsn := lastLsn a.stamped
    maxEpoch := maxEpochOf ix.maxEpoch a.stamped
    nextNumber := if a.rolling then a.number + 1 else ix.nextNumber }

end Plan

/-! ## What is written -/

variable {cfg : LogConfig} {ix : TailIndex} {records batch rs : List WalRecord} {r r' : WalRecord} {lsn wall : ℕ} {uncertain : Bool} {a : Append}
  {expected : Option ℕ}

/-- A record that was only given a number. -/
def Renumbers (r r' : WalRecord) : Prop := r' = { r with lsn := r'.lsn, lsn_le := r'.lsn_le }

theorem withLsn_ok (h : r.withLsn lsn = .ok r') : r'.lsn = lsn ∧ Renumbers r r' := by
  unfold WalRecord.withLsn at h
  split at h
  · cases h
    exact ⟨rfl, rfl⟩
  · cases h

theorem withEpoch_ok {epoch : ℕ} (h : r.withEpoch epoch = .ok r') : r'.lsn = r.lsn ∧ r'.encodedLength = r.encodedLength := by
  unfold WalRecord.withEpoch at h
  split at h
  · cases h
    exact ⟨rfl, rfl⟩
  · cases h

theorem stamp_ok (h : stamp lsn records = .ok rs) : rs.map WalRecord.lsn = range' (lsn + 1) records.length ∧ Forall₂ Renumbers records rs := by
  induction records generalizing lsn rs with
  | nil =>
    cases h
    exact ⟨rfl, .nil⟩
  | cons r records ih =>
    obtain ⟨first, hfirst, hbehind⟩ := bind_ok_iff.mp h
    obtain ⟨rest, hstamp, heq⟩ := bind_ok_iff.mp hbehind
    obtain rfl := pure_ok_iff.mp heq
    obtain ⟨hlsn, hsame⟩ := withLsn_ok hfirst
    obtain ⟨hlsns, hall⟩ := ih hstamp
    refine ⟨?_, .cons hsame hall⟩
    rw [map_cons, hlsn, hlsns, length_cons, range'_succ]

/-- What does not read the number of a record is as before. -/
theorem renumbered_map {f : WalRecord → ℕ} (h : Forall₂ Renumbers records rs) (hf : ∀ {r r'}, Renumbers r r' → f r' = f r) :
    rs.map f = records.map f := by
  induction h with
  | nil => rfl
  | cons hr _ ih => rw [map_cons, map_cons, hf hr, ih]

theorem bodyLength_cons (r : WalRecord) (rs : List WalRecord) : bodyLength (r :: rs) = r.encodedLength + bodyLength rs := sum_cons

theorem renumbered_length (h : Forall₂ Renumbers records rs) : bodyLength rs = bodyLength records :=
  congrArg sum (renumbered_map h fun hr => (congrArg WalRecord.encodedLength hr :))

theorem ends_of_lsns (h : records.map WalRecord.lsn = range' (lsn + 1) records.length) (hne : records ≠ []) :
    (records.head?.map WalRecord.lsn).getD 0 = lsn + 1 ∧ lastLsn records = lsn + records.length := by
  have hpos : records.length ≠ 0 := (length_pos_of_ne_nil hne).ne'
  rw [lastLsn, ← head?_map, ← getLast?_map, h, head?_range', getLast?_range', if_neg hpos, if_neg hpos]
  exact ⟨rfl, by rw [Option.getD_some]; omega⟩

theorem encodeAll_ok (h : encodeAll records = .ok ⟨⟩) : ∀ r ∈ records, r.Readable := by
  induction records with
  | nil => exact nofun
  | cons r records ih =>
    obtain ⟨raw, hraw, hrest⟩ := bind_ok_iff.mp h
    exact forall_mem_cons.mpr ⟨(WalRecord.encode_ok_iff.mp (mapError_ok_iff.mp hraw)).1.readable, ih hrest⟩

theorem run_of_lsns (hreadable : ∀ r ∈ records, r.Readable) (hlsns : records.map WalRecord.lsn = range' lsn records.length)
    (hexpected : ∀ n, expected = some n → n = lsn) : Run everyRecord expected records := by
  induction records generalizing lsn expected with
  | nil => exact .nil
  | cons r records ih =>
    obtain ⟨hr, hrest⟩ := forall_mem_cons.mp hreadable
    obtain ⟨hlsn, hlsns⟩ := cons.inj hlsns
    refine .cons hr rfl (fun n hn => hlsn.trans (hexpected n hn).symm) (ih hrest hlsns ?_)
    intro n hn
    rw [← Option.some.inj hn, hlsn]

theorem imagesOf_length (records : List WalRecord) : (imagesOf records).length = bodyLength records := by
  induction records with
  | nil => rfl
  | cons r records ih => rw [imagesOf_cons, length_append, WalRecord.image_length, ih, bodyLength_cons]

/-- Records numbered on from the end of the log, for a new file or behind the newest segment. -/
structure Prepared (ix : TailIndex) (a : Append) : Prop where
  undamaged : ix.damage = none
  lsns : a.records.map WalRecord.lsn = range' (ix.lastLsn + 1) a.records.length
  readable : ∀ r ∈ a.records, r.Readable
  stamped : a.stamped ≠ []
  place : (a.rolling = true ∧ a.number = ix.nextNumber ∧ (∃ header, a.header = [header]) ∧ a.blob.length ≤ maxSegmentReadBytes) ∨
    (a.rolling = false ∧ a.header = [] ∧ ∃ t, ix.segments.getLast? = some t ∧ a.number = t.number ∧
      t.sizeBytes + a.blob.length ≤ maxSegmentReadBytes)

theorem planBatch_ok {rolling : Bool} (h : planBatch cfg ix records = .ok (batch, rolling)) :
    batch = records.map (WalRecord.withDescriptor cfg) ∧ batch ≠ [] ∧ rolling = needsRoll cfg ix (bodyLength batch) ∧
      (if rolling then segmentHeaderLength cfg else lastSize ix) + bodyLength batch ≤ maxSegmentReadBytes := by
  unfold planBatch at h
  simp only [bind_ok_iff, ensure_ok_iff, pure_ok_iff, Prod.mk.injEq] at h
  obtain ⟨-, hne, -, -, -, hsize, -, -, rfl, rfl⟩ := h
  exact ⟨rfl, fun hnil => hne (map_eq_nil_iff.mp hnil), rfl, hsize⟩

theorem openSegment_ok {header : WalRecord} (h : openSegment cfg ix wall batch = .ok header) :
    header.lsn = ix.lastLsn + 1 ∧ header.encodedLength = segmentHeaderLength cfg := by
  unfold openSegment at h
  simp only [bind_ok_iff, ensure_ok_iff] at h
  obtain ⟨-, -, first, hfirst, hheader⟩ := h
  obtain ⟨hlsn, hsame⟩ := withLsn_ok hfirst
  obtain ⟨hlsn', hlength⟩ := withEpoch_ok hheader
  refine ⟨hlsn'.trans hlsn, hlength.trans ((congrArg WalRecord.encodedLength hsame).trans ?_)⟩
  simp only [segmentHeaderLength, WalRecord.encodedLength, segmentHeader, length_append, littleEndian_length]

/-- An accepted batch is planned, numbered on from the end of the log and encoded, behind a header if it rolls. -/
theorem prepareAppend_cases (h : prepareAppend cfg ix uncertain wall records = .ok a) :
    ix.damage = none ∧ uncertain = false ∧ ∃ batch, planBatch cfg ix records = .ok (batch, a.rolling) ∧
      stamp (ix.lastLsn + a.rolling.toNat) batch = .ok a.stamped ∧ encodeAll a.records = .ok ⟨⟩ ∧
      ((a.rolling = true ∧ a.number = ix.nextNumber ∧ ∃ header, openSegment cfg ix wall batch = .ok header ∧ a.header = [header]) ∨
        (a.rolling = false ∧ a.number = (ix.segments.getLast?.map SegmentInfo.number).getD 0 ∧ a.header = [])) := by
  unfold prepareAppend at h
  split at h
  · cases h
  rename_i hdamage
  simp only [bind_ok_iff, ensure_ok_iff] at h
  obtain ⟨-, huncertain, ⟨batch, rolling⟩, hplan, h⟩ := h
  refine ⟨hdamage, huncertain, batch, ?_⟩
  cases rolling with
  | true =>
    simp only [if_true, bind_ok_iff, pure_ok_iff] at h
    obtain ⟨header, hheader, stamped, hstamped, ⟨⟩, hencoded, rfl⟩ := h
    exact ⟨hplan, hstamped, hencoded, .inl ⟨rfl, rfl, header, hheader, rfl⟩⟩
  | false =>
    rw [if_neg Bool.false_ne_true] at h
    simp only [bind_ok_iff, pure_ok_iff] at h
    obtain ⟨stamped, hstamped, ⟨⟩, hencoded, rfl⟩ := h
    exact ⟨hplan, hstamped, hencoded, .inr ⟨rfl, rfl, rfl⟩⟩

theorem prepareAppend_ok (h : prepareAppend cfg ix uncertain wall records = .ok a) : uncertain = false ∧ Prepared ix a := by
  obtain ⟨hdamage, huncertain, batch, hplan, hstamp, hencoded, hplace⟩ := prepareAppend_cases h
  obtain ⟨-, hne, hrolling, hsize⟩ := planBatch_ok hplan
  obtain ⟨hlsns, hall⟩ := stamp_ok hstamp
  have hlengths := renumbered_length hall
  have hcount := hall.length_eq.symm
  have hstamped : a.stamped ≠ [] := fun hnil => hne (length_eq_zero_iff.mp (hcount.symm.trans (length_eq_zero_iff.mpr hnil)))
  rcases hplace with ⟨hroll, hnumber, header, hopen, hheader⟩ | ⟨hroll, hnumber, hheader⟩
  · obtain ⟨hlsn, hlength⟩ := openSegment_ok hopen
    rw [hroll] at hlsns hsize
    have hrecords : a.records = header :: a.stamped := by rw [Append.records, hheader]; rfl
    refine ⟨huncertain, hdamage, ?_, encodeAll_ok hencoded, hstamped, .inl ⟨hroll, hnumber, ⟨header, hheader⟩, ?_⟩⟩
    · rw [hrecords, map_cons, hlsn, hlsns, length_cons, hcount, range'_succ]
      rfl
    · rw [Append.blob, imagesOf_length, hrecords, bodyLength_cons, hlength, hlengths]
      exact hsize
  · rw [hroll] at hlsns hsize hrolling
    have hrecords : a.records = a.stamped := by rw [Append.records, hheader]; rfl
    obtain ⟨t, ht⟩ : ∃ t, ix.segments.getLast? = some t := by
      have hfull := Bool.or_eq_false_iff.mp hrolling.symm
      refine ⟨_, getLast?_eq_some_getLast ?_⟩
      rintro hnil
      rw [hnil] at hfull
      cases hfull.1
    rw [ht] at hnumber
    refine ⟨huncertain, hdamage, ?_, encodeAll_ok hencoded, hstamped, .inr ⟨hroll, hheader, t, ht, hnumber, ?_⟩⟩
    · rw [hrecords, hlsns, hcount]
      rfl
    · have hlast : lastSize ix = t.sizeBytes := by
        rw [lastSize, ht]
        rfl
      rw [Append.blob, imagesOf_length, hrecords, hlengths, ← hlast]
      exact hsize

theorem prepareAppend_records (h : prepareAppend cfg ix uncertain wall records = .ok a) :
    Forall₂ Renumbers (records.map (WalRecord.withDescriptor cfg)) a.stamped := by
  obtain ⟨-, -, batch, hplan, hstamp, -⟩ := prepareAppend_cases h
  exact (planBatch_ok hplan).1 ▸ (stamp_ok hstamp).2

/-! ## The plan of a commit -/

/-- What the plan of a commit knows of the log. -/
def summary (cfg : LogConfig) (ix : TailIndex) (logged : List Wal.WalRecord) : WalManager :=
  ⟨cfg.segmentBytes, ix.segments, ix.nextNumber, ix.lastLsn, ix.maxEpoch, logged⟩

/-- Planned records are as long as those written, and name the same epochs. -/
structure Outlines (fmt : Format) (cfg : LogConfig) (planned : List Wal.WalRecord) (batch : List WalRecord) : Prop where
  header : WalManager.segmentHeaderLength fmt = segmentHeaderLength cfg
  lengths : planned.map (·.encodedLength fmt) = batch.map WalRecord.encodedLength
  epochs : planned.map (·.epoch) = batch.map WalRecord.epoch

/-- The log gives a commit the numbers it was planned with, and the plan of the next commit knows the log as it is then. -/
theorem appendMany_summary {fmt : Format} {planned logged : List Wal.WalRecord} {plan : BatchPlan}
    (h : prepareAppend cfg ix uncertain wall records = .ok a) (hplanned : Outlines fmt cfg planned (records.map (WalRecord.withDescriptor cfg)))
    (hplan : (summary cfg ix logged).planBatch fmt planned = .ok plan) :
    ∃ w, (summary cfg ix logged).appendMany fmt planned (some plan.terminal) = .ok (w, lastLsn a.stamped) ∧
      w = summary cfg (registerAppend ix a) w.records := by
  obtain ⟨-, -, batch, hbatch, hstamp, -, hplace⟩ := prepareAppend_cases h
  obtain ⟨rfl, hne, hrolling, -⟩ := planBatch_ok hbatch
  obtain ⟨hlsns, hall⟩ := stamp_ok hstamp
  rw [hall.length_eq] at hlsns
  obtain ⟨hfirst, hlast⟩ := ends_of_lsns hlsns (prepareAppend_ok h).2.stamped
  have hbody : WalManager.bodyLength fmt planned = bodyLength a.stamped := (congrArg sum hplanned.lengths).trans (renumbered_length hall).symm
  have hcount : planned.length = a.stamped.length := by
    rw [← hall.length_eq]
    simpa using congrArg length hplanned.lengths
  have hepochs : WalManager.maxEpochOf (summary cfg ix logged).maxEpoch planned = maxEpochOf ix.maxEpoch a.stamped := by
    rw [maxEpochOf, renumbered_map hall fun hr => (congrArg WalRecord.epoch hr :), ← hplanned.epochs, foldl_map]
    rfl
  have hended : (summary cfg ix logged).lastLsn + a.rolling.toNat + planned.length = lastLsn a.stamped := by
    rw [hlast, hcount]
    rfl
  have hplanOf : (summary cfg ix logged).planOf fmt planned = ⟨bodyLength a.stamped, a.rolling, lastLsn a.stamped⟩ := by
    have hroll : (summary cfg ix logged).needsRoll (bodyLength a.stamped) = a.rolling := by
      rw [renumbered_length hall, hrolling]
      rfl
    rw [WalManager.planOf, hbody, hroll, ← hended, Nat.add_right_comm]
  have happend := (WalManager.appendMany_of_plan fmt _ hplan).1
  obtain ⟨-, -, -, -, rfl⟩ := (WalManager.planBatch_eq_ok_iff fmt _).mp hplan
  rw [hplanOf] at happend ⊢
  have hblob : a.blob.length = bodyLength a.header + bodyLength a.stamped := by
    rw [Append.blob, imagesOf_length, Append.records, bodyLength, map_append, sum_append, bodyLength, bodyLength]
  have hplaced : (summary cfg ix logged).registerSegments a.rolling (WalManager.bodyLength fmt ((summary cfg ix logged).rollHeader a.rolling planned) +
      bodyLength a.stamped) planned.length (lastLsn a.stamped) = (registerAppend ix a).segments ∧
      (summary cfg ix logged).nextNumber + a.rolling.toNat = (registerAppend ix a).nextNumber := by
    rw [registerAppend, hcount, hblob]
    rcases hplace with ⟨htrue, hnumber, header, hopen, hheader⟩ | ⟨hfalse, -, hheader⟩
    · rw [htrue, hnumber, hheader, hfirst, htrue, bodyLength_cons, (openSegment_ok hopen).2, ← hplanned.header]
      exact ⟨rfl, rfl⟩
    · rw [hfalse, hheader]
      refine ⟨?_, rfl⟩
      simp only [WalManager.registerSegments, WalManager.rollHeader, summary, Bool.false_eq_true, if_false]
      cases hnewest : ix.segments.getLast? with
      | none => rw [getLast?_eq_none_iff.mp hnewest]; rfl
      | some t => simp [growInfo, hblob, hheader, WalManager.bodyLength, bodyLength]
  refine ⟨_, happend, ?_⟩
  simp only [WalManager.registerAppend, WalManager.rollHeader_length, hended, hepochs, hplaced]
  rfl

end Grafx.Log
