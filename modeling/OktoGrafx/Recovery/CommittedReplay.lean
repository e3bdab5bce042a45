import OktoGrafx.Log.Record

/-! What a recovery replays. One pass keeps the effects of each transaction until its outcome: a COMMIT
releases them, an ABORT drops them, and what is left at the end had no outcome. -/

namespace Grafx.Recovery

open Checked Log

/-- A transaction number belongs to one run of one process; the epoch tells the runs apart. -/
abbrev TxnKey := ℕ × ℕ

def txnKey (r : WalRecord) : TxnKey := (r.epoch, r.txnId)

def replayEffectTypes : List ℕ := [WalRecordType.writePage.code, WalRecordType.indexWrite.code, WalRecordType.indexReconcile.code]

def isEffect (r : WalRecord) : Bool := decide (r.recordType ∈ replayEffectTypes)

def isCommit (r : WalRecord) : Bool := r.recordType == WalRecordType.commit.code

def isAbort (r : WalRecord) : Bool := r.recordType == WalRecordType.abort.code

def isOutcome (r : WalRecord) : Bool := isCommit r || isAbort r

structure CommittedReplay where
  effects : List WalRecord := []
  lastCommittedLsn : ℕ := 0
  incompleteEffects : List WalRecord := []
  commitRecords : List WalRecord := []
  deriving DecidableEq

/-- A record behind its outcome, or boundaries that do not match. -/
inductive ReplayRefusal where
  | walTransaction (terminal record : WalRecord)
  | commitBoundaries
  deriving DecidableEq

/-- The effects each open transaction has so far. -/
abbrev Pending := List (TxnKey × List WalRecord)

def Pending.add (r : WalRecord) : Pending → Pending
  | [] => [(txnKey r, [r])]
  | (k, rs) :: p => if k = txnKey r then (k, rs ++ [r]) :: p else (k, rs) :: Pending.add r p

def Pending.effectsOf (k : TxnKey) (p : Pending) : List WalRecord := (p.lookup k).getD []

def Pending.drop (k : TxnKey) (p : Pending) : Pending := p.filter fun entry => entry.1 ≠ k

def Pending.values (p : Pending) : List WalRecord := p.flatMap Prod.snd

structure ReplayState where
  pending : Pending := []
  terminals : List (TxnKey × WalRecord) := []
  committed : List WalRecord := []
  commitRecords : List WalRecord := []
  lastCommittedLsn : ℕ := 0

def ReplayState.settle (s : ReplayState) (r : WalRecord) : ReplayState :=
  let s' := { s with terminals := (txnKey r, r) :: s.terminals, pending := Pending.drop (txnKey r) s.pending }
  if isCommit r then
    { s' with
      committed := s.committed ++ Pending.effectsOf (txnKey r) s.pending
      commitRecords := s.commitRecords ++ [r]
      lastCommittedLsn := max s.lastCommittedLsn r.lsn }
  else s'

def ReplayState.step (s : ReplayState) (r : WalRecord) : Except ReplayRefusal ReplayState :=
  if isEffect r || isOutcome r then
    match s.terminals.lookup (txnKey r) with
    | some terminal => .error (.walTransaction terminal r)
    | none => .ok (if isEffect r then { s with pending := Pending.add r s.pending } else s.settle r)
  else .ok s

def sortByLsn (rs : List WalRecord) : List WalRecord := rs.insertionSort fun a b => a.lsn ≤ b.lsn

def ReplayState.finish (s : ReplayState) : CommittedReplay :=
  ⟨sortByLsn s.committed, s.lastCommittedLsn, sortByLsn (Pending.values s.pending), s.commitRecords⟩

def committedReplay (records : List WalRecord) : Except ReplayRefusal CommittedReplay := do
  return (← records.foldlM ReplayState.step {}).finish

/-! ## Boundaries -/

structure Boundaries where
  terminals : List (TxnKey × ℕ) := []
  previous : ℕ := 0

def Boundaries.step (b : Boundaries) (r : WalRecord) : Except ReplayRefusal Boundaries := do
  ensure (r.recordType = WalRecordType.commit.code ∧ b.previous < r.lsn ∧ r.lsn < provisionalCsn) .commitBoundaries
  ensure (b.terminals.lookup (txnKey r) = none) .commitBoundaries
  return ⟨(txnKey r, r.lsn) :: b.terminals, r.lsn⟩

def Boundaries.checkEffect (b : Boundaries) (r : WalRecord) : Except ReplayRefusal Unit :=
  match b.terminals.lookup (txnKey r) with
  | none => .error .commitBoundaries
  | some terminal => ensure (0 < r.lsn ∧ r.lsn < terminal) .commitBoundaries

def Boundaries.checkIncomplete (b : Boundaries) (r : WalRecord) : Except ReplayRefusal Unit :=
  ensure (b.terminals.lookup (txnKey r) = none) .commitBoundaries

def validateCommitBoundaries (replay : CommittedReplay) : Except ReplayRefusal Unit :=
  if replay.commitRecords = [] then .ok ()
  else do
    let b ← replay.commitRecords.foldlM Boundaries.step {}
    ensure (b.previous = replay.lastCommittedLsn) .commitBoundaries
    replay.effects.forM b.checkEffect
    replay.incompleteEffects.forM b.checkIncomplete

/-! ## The views of the page redo and of the index redo -/

def CommittedReplay.project (replay : CommittedReplay) (types : List ℕ) : CommittedReplay where
  effects := replay.effects.filter fun r => decide (r.recordType ∈ types)
  lastCommittedLsn := replay.lastCommittedLsn
  commitRecords := replay.commitRecords

def pageReplay (replay : CommittedReplay) : CommittedReplay := replay.project [WalRecordType.writePage.code]

def indexReplay (replay : CommittedReplay) : CommittedReplay :=
  replay.project [WalRecordType.indexWrite.code, WalRecordType.indexReconcile.code]

end Grafx.Recovery
