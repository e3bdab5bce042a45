import Mathlib

/-! Commit numbers, their two reserved values, and the visibility rule of a snapshot. -/

namespace Grafx

def noCsn : ℕ := 0

def provisionalCsn : ℕ := 0xFFFFFFFFFFFFFFFF

def maxU64 : ℕ := 0xFFFFFFFFFFFFFFFF

def isProvisionalCsn (value : ℕ) : Bool := value == provisionalCsn

def isCommittedCsn (value : ℕ) : Bool := decide (noCsn < value) && decide (value < provisionalCsn)

def isOpenEndCsn (value : ℕ) : Bool := value == noCsn || value == provisionalCsn

theorem isCommittedCsn_iff {v : ℕ} : isCommittedCsn v = true ↔ 0 < v ∧ v < provisionalCsn := by
  rw [isCommittedCsn, Bool.and_eq_true, decide_eq_true_eq, decide_eq_true_eq, noCsn]

theorem isOpenEndCsn_iff {v : ℕ} : isOpenEndCsn v = true ↔ v = 0 ∨ v = provisionalCsn := by
  simp [isOpenEndCsn, noCsn]

theorem isOpenEndCsn_of_committed {csn : ℕ} (h : isCommittedCsn csn = true) : isOpenEndCsn csn = false := by
  obtain ⟨hpos, hlt⟩ := isCommittedCsn_iff.mp h
  simp only [isOpenEndCsn, noCsn, Bool.or_eq_false_iff, beq_eq_false_iff_ne]
  exact ⟨hpos.ne', hlt.ne⟩

structure RecordRef where
  page : ℕ
  slot : ℕ
  deriving DecidableEq, Repr

structure Snapshot where
  readLsn : ℕ
  below_provisional : readLsn < provisionalCsn
  deriving DecidableEq

def Snapshot.visible (s : Snapshot) (xmin xmax : ℕ) : Bool :=
  isCommittedCsn xmin && decide (xmin ≤ s.readLsn) && (isOpenEndCsn xmax || decide (s.readLsn < xmax))

theorem Snapshot.visible_iff {s : Snapshot} {xmin xmax : ℕ} :
    s.visible xmin xmax = true ↔
      0 < xmin ∧ xmin ≤ s.readLsn ∧ (xmax = 0 ∨ xmax = provisionalCsn ∨ s.readLsn < xmax) := by
  have hs := s.below_provisional
  simp only [visible, Bool.and_eq_true, Bool.or_eq_true, isCommittedCsn_iff, isOpenEndCsn_iff,
    decide_eq_true_eq]
  constructor
  · rintro ⟨⟨⟨h0, -⟩, hle⟩, hmax⟩
    exact ⟨h0, hle, or_assoc.mp hmax⟩
  · rintro ⟨h0, hle, hmax⟩
    exact ⟨⟨⟨h0, hle.trans_lt hs⟩, hle⟩, or_assoc.mpr hmax⟩

end Grafx
