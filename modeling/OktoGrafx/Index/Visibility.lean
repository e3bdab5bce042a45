import OktoGrafx.Index.Entry
import OktoGrafx.Log.Recycle

/-! When a snapshot sees an index entry, and when a pass may remove it. -/

namespace Grafx.Index

open Checked
open IndexEntry (decode unpack)

inductive StampField where
  | bornCsn
  | deadCsn
  deriving DecidableEq, Repr

inductive EntryRefusal where
  | key (length : ℕ)
  | commitNumber (field : StampField) (value : ℕ)
  | provisional (field : StampField)
  | birth (versioned : Bool) (value : ℕ)
  | versioned
  | horizon (value : ℕ)
  deriving DecidableEq, Repr

def IndexEntry.make (key : Bytes) (ref : StoredRef) (versioned : Bool) (bornCsn deadCsn page slot : ℕ) :
    Except EntryRefusal IndexEntry :=
  if hkey : key.length ≤ maxIndexKeyBytes then
    if maxU64 < bornCsn then .error (.commitNumber .bornCsn bornCsn)
    else if maxU64 < deadCsn then .error (.commitNumber .deadCsn deadCsn)
    else if hborn : bornCsn < provisionalCsn then
      if hdead : deadCsn < provisionalCsn then
        if hstamped : versioned = true ↔ bornCsn ≠ noCsn then
          .ok ⟨key, ref, versioned, bornCsn, deadCsn, page, slot, hkey, hborn, hdead, hstamped⟩
        -- an unversioned entry with a birth stamp, or a versioned one without
        else .error (.birth versioned bornCsn)
      else .error (.provisional .deadCsn)
    else .error (.provisional .bornCsn)
  else .error (.key key.length)

/-- An exact entry has no birth stamp, so no snapshot decides it. -/
def entryVisible (e : IndexEntry) (s : Snapshot) : Except EntryRefusal Bool :=
  if e.versioned then .ok (s.visible e.bornCsn e.deadCsn) else .error .versioned

def requireHorizon (horizon : ℕ) : Except EntryRefusal ℕ :=
  if provisionalCsn ≤ horizon then .error (.horizon horizon) else .ok horizon

def isReclaimable (e : IndexEntry) (horizon : ℕ) : Except EntryRefusal Bool := do
  let horizon ← requireHorizon horizon
  return !e.live && decide (e.deadCsn ≤ horizon)

variable {e : IndexEntry} {s : Snapshot} {horizon : ℕ}

theorem requireHorizon_ok_iff {h : ℕ} : requireHorizon horizon = .ok h ↔ horizon < provisionalCsn ∧ horizon = h := by
  unfold requireHorizon
  split
  · rename_i hle
    exact ⟨nofun, fun h => absurd h.1 (not_lt.mpr hle)⟩
  · rename_i hlt
    rw [Except.ok.injEq]
    exact ⟨fun h => ⟨not_le.mp hlt, h⟩, fun h => h.2⟩

theorem isReclaimable_iff :
    isReclaimable e horizon = .ok true ↔ horizon < provisionalCsn ∧ e.deadCsn ≠ noCsn ∧ e.deadCsn ≤ horizon := by
  unfold isReclaimable
  rw [bind_ok_iff]
  constructor
  · rintro ⟨h, hrequire, hrule⟩
    obtain ⟨hlt, rfl⟩ := requireHorizon_ok_iff.mp hrequire
    have hended := pure_ok_iff.mp hrule
    rw [Bool.and_eq_true, Bool.not_eq_true', IndexEntry.live, beq_eq_false_iff_ne, decide_eq_true_eq] at hended
    exact ⟨hlt, hended⟩
  · intro ⟨hlt, hended⟩
    refine ⟨horizon, requireHorizon_ok_iff.mpr ⟨hlt, rfl⟩, pure_ok_iff.mpr ?_⟩
    rw [Bool.and_eq_true, Bool.not_eq_true', IndexEntry.live, beq_eq_false_iff_ne, decide_eq_true_eq]
    exact hended

theorem entryVisible_of_versioned (hv : e.versioned = true) : entryVisible e s = .ok (s.visible e.bornCsn e.deadCsn) :=
  if_pos hv

theorem visible_ended (hended : e.deadCsn ≠ noCsn) (hle : e.deadCsn ≤ s.readLsn) : s.visible e.bornCsn e.deadCsn = false := by
  rw [Bool.eq_false_iff]
  intro hvisible
  obtain ⟨-, -, hopen⟩ := Snapshot.visible_iff.mp hvisible
  rcases hopen with hnone | hprovisional | hlater
  · exact hended hnone
  · exact absurd hprovisional e.dead_lt.ne
  · exact absurd hle (not_le.mpr hlater)

theorem entryVisible_reclaimable (hv : e.versioned = true) (hreclaimable : isReclaimable e horizon = .ok true)
    (hs : horizon ≤ s.readLsn) : entryVisible e s = .ok false := by
  obtain ⟨-, hended, hle⟩ := isReclaimable_iff.mp hreclaimable
  rw [entryVisible_of_versioned hv, visible_ended hended (hle.trans hs)]

/-! ## Entries without a commit -/

theorem make_stamps {key : Bytes} {ref : StoredRef} {versioned : Bool} {born dead page slot : ℕ}
    (h : IndexEntry.make key ref versioned born dead page slot = .ok e) : e.bornCsn = born ∧ e.deadCsn = dead := by
  unfold IndexEntry.make at h
  split at h
  · repeat' split at h
    all_goals cases h
    exact ⟨rfl, rfl⟩
  · cases h

theorem decode_stamps {raw : Bytes} (h : decode raw = .ok e) :
    e.bornCsn = (unpack raw).bornCsn ∧ e.deadCsn = (unpack raw).deadCsn := by
  unfold decode IndexEntry.check at h
  dsimp only at h
  repeat' split at h
  all_goals cases h
  exact ⟨rfl, rfl⟩

theorem IndexEntry.committed (e : IndexEntry) : ¬ (e.bornCsn = provisionalCsn ∨ e.deadCsn = provisionalCsn) := by
  intro h
  rcases h with h | h
  · exact absurd h e.born_lt.ne
  · exact absurd h e.dead_lt.ne

/-- What a pass may remove at a horizon no reader lies below, no reader sees; and no entry with a provisional stamp
can be removed. -/
theorem reclaimed_unseen :
    (∀ (e : IndexEntry) (horizon : ℕ) (s : Snapshot), e.versioned = true → isReclaimable e horizon = .ok true →
        horizon ≤ s.readLsn → entryVisible e s = .ok false) ∧
      (∀ (key : Bytes) (ref : StoredRef) (versioned : Bool) (born dead page slot horizon : ℕ),
        born = provisionalCsn ∨ dead = provisionalCsn →
        (IndexEntry.make key ref versioned born dead page slot >>= fun e => isReclaimable e horizon) ≠ .ok true) ∧
      ∀ (raw : Bytes) (e : IndexEntry),
        (unpack raw).bornCsn = provisionalCsn ∨ (unpack raw).deadCsn = provisionalCsn →
        decode raw ≠ .ok e := by
  refine ⟨fun e horizon s hv hreclaimable hs => entryVisible_reclaimable hv hreclaimable hs, ?_, ?_⟩
  · intro key ref versioned born dead page slot horizon hprovisional h
    obtain ⟨e, hmake, -⟩ := bind_ok_iff.mp h
    obtain ⟨rfl, rfl⟩ := make_stamps hmake
    exact e.committed hprovisional
  · intro raw e hprovisional h
    rw [← (decode_stamps h).1, ← (decode_stamps h).2] at hprovisional
    exact e.committed hprovisional

def endedEntry : IndexEntry := ⟨[], ⟨1, 0, one_le_maxPageIndex, Nat.zero_le _⟩, true, 3, 5, noPage, 0, by decide, by decide, by decide, by decide⟩

theorem reclaimed_unseen_ended :
    isReclaimable endedEntry 5 = .ok true ∧ entryVisible endedEntry ⟨4, by decide⟩ = .ok true ∧
      entryVisible endedEntry ⟨5, by decide⟩ = .ok false :=
  ⟨rfl, rfl, reclaimed_unseen.1 endedEntry 5 ⟨5, by decide⟩ rfl rfl le_rfl⟩

end Grafx.Index
