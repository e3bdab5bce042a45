import OktoGrafx.Domain.Ids

/-! The published commit state: the last committed number, the last commit number and the checkpoint. -/

namespace Grafx.Txn

def commitStateLegacyFormatVersion : ℕ := 1

def commitStateFormatVersion : ℕ := 2

structure CommitState where
  lastCommittedLsn : ℕ := 0
  lastCsn : ℕ := 0
  checkpointLsn : ℕ := 0
  formatVersion : ℕ := commitStateLegacyFormatVersion
  lastCommittedLsn_le : lastCommittedLsn ≤ maxU64 := by decide
  lastCsn_le : lastCsn ≤ maxU64 := by decide
  checkpointLsn_le : checkpointLsn ≤ maxU64 := by decide
  le_formatVersion : commitStateLegacyFormatVersion ≤ formatVersion := by decide
  formatVersion_le : formatVersion ≤ commitStateFormatVersion := by decide
  deriving DecidableEq

inductive CommitStateField where
  | lastCommittedLsn | lastCsn | checkpointLsn | formatVersion | length | magic | checksum
  deriving DecidableEq, Repr

inductive CommitStateRefusal where
  | configuration (field : CommitStateField) (value : ℕ)
  | corrupt (field : CommitStateField) (value : ℕ)
  | schema (version : ℕ)
  deriving DecidableEq, Repr

def CommitState.make (lastCommittedLsn lastCsn checkpointLsn formatVersion : ℕ) : Except CommitStateRefusal CommitState :=
  if hlast : lastCommittedLsn ≤ maxU64 then
    if hcsn : lastCsn ≤ maxU64 then
      if hcheckpoint : checkpointLsn ≤ maxU64 then
        if hversion : commitStateLegacyFormatVersion ≤ formatVersion ∧ formatVersion ≤ commitStateFormatVersion then
          .ok ⟨lastCommittedLsn, lastCsn, checkpointLsn, formatVersion, hlast, hcsn, hcheckpoint, hversion.1, hversion.2⟩
        else .error (.configuration .formatVersion formatVersion)
      else .error (.configuration .checkpointLsn checkpointLsn)
    else .error (.configuration .lastCsn lastCsn)
  else .error (.configuration .lastCommittedLsn lastCommittedLsn)

theorem CommitState.make_inv {s : CommitState} {last csn checkpoint version : ℕ} (h : make last csn checkpoint version = .ok s) :
    s.lastCommittedLsn = last ∧ s.lastCsn = csn ∧ s.checkpointLsn = checkpoint ∧ s.formatVersion = version := by
  unfold make at h
  split at h
  · split at h
    · split at h
      · split at h
        · cases h
          exact ⟨rfl, rfl, rfl, rfl⟩
        · cases h
      · cases h
    · cases h
  · cases h

end Grafx.Txn
