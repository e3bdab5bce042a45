import OktoGrafx.Log.Codec
import OktoGrafx.Wal.Append

/-! Walking the segments of a log. The walk reports what it meets and does not judge: a record out of
sequence is announced and then yielded, and after damage it looks for the next record whose
checksum holds. -/

namespace Grafx.Log

open List ByteCodec Wal

def noLsn : ℕ := 0

def maxResyncCandidates : ℕ := 4096

def resyncChecksumBudgetFactor : ℕ := 2

def totalLengthOffset : ℕ := 12

structure Segment where
  number : ℕ
  data : Bytes
  deriving DecidableEq

abbrev Directory := List Segment

structure ScanFailure where
  reason : FailureReason
  segment : ℕ
  offset : ℕ
  length : ℕ
  expectedLsn : ℕ := noLsn
  deriving DecidableEq

inductive ScanItem where
  | record (segment offset : ℕ) (r : WalRecord)
  | failure (f : ScanFailure)
  deriving DecidableEq

def ScanItem.record? : ScanItem → Option WalRecord
  | record _ _ r => some r
  | failure _ => none

def magicBytes : Bytes := littleEndian 4 walMagic

def declaredLength (raw : Bytes) : Option ℕ :=
  if raw.length < walHeaderLength then none else some (ofLittleEndian ((raw.drop totalLengthOffset).take 4))

/-- The first place that shows the magic and decodes, within bounds on candidates and bytes. -/
def nextRecordOffset (budget : ℕ) : Bytes → ℕ → ℕ → ℕ → Option ℕ × ℕ × ℕ
  | [], _, candidates, spent => (none, candidates, spent)
  | byte :: rest, position, candidates, spent =>
    if (byte :: rest).take 4 = magicBytes then
      if maxResyncCandidates ≤ candidates then (none, candidates, spent)
      else match declaredLength (byte :: rest) with
        | none => nextRecordOffset budget rest (position + 1) candidates spent
        | some declared =>
          if spent + declared ≤ budget then
            match decodeRecord (byte :: rest) with
            | .record _ _ => (some position, candidates + 1, spent + declared)
            | .failure _ _ => nextRecordOffset budget rest (position + 1) (candidates + 1) (spent + declared)
          else nextRecordOffset budget rest (position + 1) candidates spent
    else nextRecordOffset budget rest (position + 1) candidates spent

def discontinuity (segment offset length : ℕ) (expected : Option ℕ) (r : WalRecord) : List ScanItem :=
  match expected with
  | none => []
  | some lsn => if r.lsn = lsn then [] else [.failure ⟨.lsnDiscontinuity, segment, offset, length, lsn⟩]

/-- The walk of one segment, and the number it expects next. Each round but the last takes a byte. -/
def walkBytes (segment budget : ℕ) : ℕ → ℕ → Option ℕ → ℕ → ℕ → Bytes → List ScanItem × Option ℕ
  | 0, _, expected, _, _, _ => ([], expected)
  | fuel + 1, offset, expected, candidates, spent, rest =>
    if rest = [] then ([], expected)
    else match decodeRecord rest with
      | .record r consumed =>
        let later := walkBytes segment budget fuel (offset + consumed) (some (r.lsn + 1)) candidates spent (rest.drop consumed)
        (discontinuity segment offset rest.length expected r ++ .record segment offset r :: later.1, later.2)
      | .failure reason consumed =>
        if reason = .truncatedTail then ([.failure ⟨reason, segment, offset, rest.length, expected.getD noLsn⟩], expected)
        else if 0 < consumed then
          let later := walkBytes segment budget fuel (offset + consumed) expected candidates spent (rest.drop consumed)
          (.failure ⟨reason, segment, offset, consumed, expected.getD noLsn⟩ :: later.1, later.2)
        else match nextRecordOffset budget (rest.drop 1) 1 candidates spent with
          | (none, _, _) => ([.failure ⟨reason, segment, offset, rest.length, expected.getD noLsn⟩], expected)
          | (some following, candidates', spent') =>
            let later := walkBytes segment budget fuel (offset + following) expected candidates' spent' (rest.drop following)
            (.failure ⟨reason, segment, offset, following, expected.getD noLsn⟩ :: later.1, later.2)

/-- The walk of a directory ends where a segment is too large to be read, and says which. -/
def walkFrom (starts : ℕ → ℕ) : Option ℕ → Directory → List ScanItem × Option ℕ
  | _, [] => ([], none)
  | expected, seg :: segs =>
    let base := starts seg.number
    if seg.data.length ≤ base then walkFrom starts expected segs
    else if maxSegmentReadBytes < seg.data.length - base then ([], some seg.number)
    else
      let data := seg.data.drop base
      let here := walkBytes seg.number (data.length * resyncChecksumBudgetFactor) data.length base expected 0 0 data
      let later := walkFrom starts here.2 segs
      (here.1 ++ later.1, later.2)

def walk (expected : Option ℕ) (segs : Directory) : List ScanItem × Option ℕ := walkFrom (fun _ => 0) expected segs

def live (d : Directory) : Directory := d.filter fun seg => decide (seg.data ≠ [])

/-! ## Runs of records -/

def imagesOf (rs : List WalRecord) : Bytes := rs.flatMap WalRecord.image

def Next (expected : Option ℕ) (r : WalRecord) : Prop := ∀ lsn, expected = some lsn → r.lsn = lsn

def after (expected : Option ℕ) (rs : List WalRecord) : Option ℕ := rs.foldl (fun _ r => some (r.lsn + 1)) expected

inductive Run (keep : WalRecord → Bool) : Option ℕ → List WalRecord → Prop
  | nil {expected} : Run keep expected []
  | cons {expected r rs} : r.Readable → keep r = true → Next expected r → Run keep (some (r.lsn + 1)) rs → Run keep expected (r :: rs)

def Stuck (keep : WalRecord → Bool) (expected : Option ℕ) (tail : Bytes) : Prop :=
  ∀ r : WalRecord, r.Readable → r.image <+: tail → keep r = true → ¬ Next expected r

variable {keep : WalRecord → Bool} {expected : Option ℕ} {r : WalRecord} {rs rs' : List WalRecord} {raw tail : Bytes} {seg : Segment}
  {d : Directory}

theorem WalRecord.image_ne_nil : r.image ≠ [] := by
  rw [← length_pos_iff, WalRecord.image_length]
  exact Nat.zero_lt_of_lt r.encodedLength_pos

theorem stuck_nil : Stuck keep expected [] := fun _ _ himage _ _ => WalRecord.image_ne_nil (prefix_nil.mp himage)

theorem imagesOf_cons : imagesOf (r :: rs) = r.image ++ imagesOf rs := rfl

theorem imagesOf_append : imagesOf (rs ++ rs') = imagesOf rs ++ imagesOf rs' := flatMap_append

theorem imagesOf_eq_nil : imagesOf rs = [] ↔ rs = [] := by
  cases rs with
  | nil => exact ⟨fun _ => rfl, fun _ => rfl⟩
  | cons r rs => exact ⟨fun h => absurd (append_eq_nil_iff.mp h).1 WalRecord.image_ne_nil, nofun⟩

theorem after_append : after expected (rs ++ rs') = after (after expected rs) rs' := foldl_append

section
variable (h : Run keep expected rs)
include h

theorem Run.append (h' : Run keep (after expected rs) rs') : Run keep expected (rs ++ rs') := by
  induction h with
  | nil => exact h'
  | cons hr hkeep hnext _ ih => exact .cons hr hkeep hnext (ih h')

omit h in
theorem Run.of_append (h : Run keep expected (rs ++ rs')) : Run keep expected rs ∧ Run keep (after expected rs) rs' := by
  induction rs generalizing expected with
  | nil => exact ⟨.nil, h⟩
  | cons r rs ih =>
    obtain ⟨hr, hkeep, hnext, hrest⟩ : r.Readable ∧ keep r = true ∧ Next expected r ∧ Run keep (some (r.lsn + 1)) (rs ++ rs') := by
      cases h with
      | cons hr hkeep hnext hrest => exact ⟨hr, hkeep, hnext, hrest⟩
    exact ⟨.cons hr hkeep hnext (ih hrest).1, (ih hrest).2⟩

theorem Run.mono {keep' : WalRecord → Bool} (hkeep : ∀ r ∈ rs, keep r = true → keep' r = true) : Run keep' expected rs := by
  induction h with
  | nil => exact .nil
  | cons hr hk hnext _ ih =>
    exact .cons hr (hkeep _ mem_cons_self hk) hnext (ih (forall_mem_cons.mp hkeep).2)

theorem Run.readable : ∀ r ∈ rs, r.Readable := by
  induction h with
  | nil => exact nofun
  | cons hr _ _ _ ih => exact forall_mem_cons.mpr ⟨hr, ih⟩

theorem Run.kept : ∀ r ∈ rs, keep r = true := by
  induction h with
  | nil => exact nofun
  | cons _ hkeep _ _ ih => exact forall_mem_cons.mpr ⟨hkeep, ih⟩

end

theorem exists_run (keep : WalRecord → Bool) (expected : Option ℕ) (raw : Bytes) :
    ∃ rs tail, raw = imagesOf rs ++ tail ∧ Run keep expected rs ∧ Stuck keep (after expected rs) tail := by
  obtain ⟨n, hn⟩ : ∃ n, raw.length = n := ⟨_, rfl⟩
  induction n using Nat.strong_induction_on generalizing raw expected with
  | _ n ih =>
    by_cases hstuck : Stuck keep expected raw
    · exact ⟨[], raw, rfl, .nil, hstuck⟩
    · unfold Stuck at hstuck
      push Not at hstuck
      obtain ⟨r, hr, ⟨rest, rfl⟩, hkeep, hnext⟩ := hstuck
      have hshorter : rest.length < n := by
        have hpos := length_pos_iff.mpr (r.image_ne_nil)
        rw [length_append] at hn
        omega
      obtain ⟨rs, tail, rfl, hrun, htail⟩ := ih rest.length hshorter (some (r.lsn + 1)) rest rfl
      exact ⟨r :: rs, tail, by rw [imagesOf_cons, append_assoc], .cons hr hkeep hnext hrun, htail⟩

/-! ## The walk along a run -/

def recordItems (segment : ℕ) : ℕ → List WalRecord → List ScanItem
  | _, [] => []
  | offset, r :: rs => .record segment offset r :: recordItems segment (offset + r.encodedLength) rs

theorem discontinuity_of_next {segment offset length : ℕ} (h : Next expected r) : discontinuity segment offset length expected r = [] := by
  cases expected with
  | none => rfl
  | some lsn => exact if_pos (h lsn rfl)

theorem walkBytes_nil (segment budget fuel offset candidates spent : ℕ) :
    walkBytes segment budget fuel offset expected candidates spent [] = ([], expected) := by
  cases fuel with
  | zero => rfl
  | succ fuel => rw [walkBytes, if_pos rfl]

theorem walkBytes_image {segment budget fuel offset candidates spent : ℕ} (hr : r.Readable) :
    walkBytes segment budget (fuel + 1) offset expected candidates spent (r.image ++ tail) =
      (discontinuity segment offset (r.image ++ tail).length expected r ++ .record segment offset r ::
        (walkBytes segment budget fuel (offset + r.encodedLength) (some (r.lsn + 1)) candidates spent tail).1,
        (walkBytes segment budget fuel (offset + r.encodedLength) (some (r.lsn + 1)) candidates spent tail).2) := by
  have hne : r.image ++ tail ≠ [] := fun h => WalRecord.image_ne_nil (append_eq_nil_iff.mp h).1
  have hdrop : (r.image ++ tail).drop r.encodedLength = tail := drop_left' WalRecord.image_length
  rw [walkBytes, if_neg hne, decodeRecord_image hr]
  simp only [hdrop]

theorem walkBytes_run (segment budget candidates spent : ℕ) (h : Run keep expected rs) (tail : Bytes) (fuel offset : ℕ)
    (hfuel : (imagesOf rs ++ tail).length ≤ fuel) :
    ∃ fuel', tail.length ≤ fuel' ∧ walkBytes segment budget fuel offset expected candidates spent (imagesOf rs ++ tail) =
      (recordItems segment offset rs ++
        (walkBytes segment budget fuel' (offset + (imagesOf rs).length) (after expected rs) candidates spent tail).1,
        (walkBytes segment budget fuel' (offset + (imagesOf rs).length) (after expected rs) candidates spent tail).2) := by
  induction h generalizing fuel offset with
  | nil => exact ⟨fuel, hfuel, rfl⟩
  | @cons expected r rs hr _ hnext _ ih =>
    have hpos := length_pos_iff.mpr (r.image_ne_nil)
    rw [imagesOf_cons, append_assoc, length_append] at hfuel
    obtain ⟨fuel, rfl⟩ : ∃ k, fuel = k + 1 := ⟨fuel - 1, by omega⟩
    obtain ⟨fuel', hfuel', hwalk⟩ := ih fuel (offset + r.encodedLength) (by omega)
    refine ⟨fuel', hfuel', ?_⟩
    rw [imagesOf_cons, append_assoc, walkBytes_image hr, discontinuity_of_next hnext, hwalk, length_append, WalRecord.image_length,
      ← add_assoc]
    rfl

def ScanItem.wanted (keep : WalRecord → Bool) : ScanItem → Bool
  | record _ _ r => keep r
  | failure _ => false

theorem walkBytes_stuck (segment budget offset candidates spent : ℕ) {fuel : ℕ} (hne : tail ≠ []) (hfuel : tail.length ≤ fuel)
    (h : Stuck keep expected tail) :
    ∃ item items, item.wanted keep = false ∧ (walkBytes segment budget fuel offset expected candidates spent tail).1 = item :: items := by
  obtain ⟨fuel, rfl⟩ : ∃ k, fuel = k + 1 := ⟨fuel - 1, by have := length_pos_iff.mpr hne; omega⟩
  rw [walkBytes, if_neg hne]
  cases hd : decodeRecord tail with
  | record r n =>
    obtain ⟨hr, -, himage⟩ := decodeRecord_record_iff.mp hd
    by_cases hnext : Next expected r
    · have hunwanted : keep r = false := Bool.eq_false_of_not_eq_true fun hkeep => h r hr himage hkeep hnext
      dsimp only
      rw [discontinuity_of_next hnext]
      exact ⟨.record segment offset r, _, hunwanted, rfl⟩
    · unfold Next at hnext
      push Not at hnext
      obtain ⟨lsn, rfl, hlsn⟩ := hnext
      dsimp only [discontinuity]
      rw [if_neg hlsn]
      exact ⟨_, _, rfl, rfl⟩
  | failure reason n =>
    dsimp only
    by_cases htail : reason = .truncatedTail
    · rw [if_pos htail]
      exact ⟨_, _, rfl, rfl⟩
    rw [if_neg htail]
    by_cases hpos : 0 < n
    · rw [if_pos hpos]
      exact ⟨_, _, rfl, rfl⟩
    rw [if_neg hpos]
    match nextRecordOffset budget (tail.drop 1) 1 candidates spent with
    | (none, _, _) => exact ⟨_, _, rfl, rfl⟩
    | (some _, _, _) => exact ⟨_, _, rfl, rfl⟩

end Grafx.Log
