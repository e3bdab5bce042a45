import OktoGrafx.Lib.Transition
import OktoGrafx.Log.Append

/-! Participants that share a log. Each holds an index of its own and brings it up to date before it
appends, truncates or recycles; between two such steps the others may do what they like. -/

namespace Grafx.Log

open Interrupt Wal

/-! ## Truncating by an index -/

namespace TailIndex
variable (ix : TailIndex)

def files (d : Directory) : Directory := d.filter fun seg => decide (seg.number ∈ ix.numbers)

def registered (d : Directory) : Directory :=
  (ix.files d).map fun seg => { seg with data := seg.data.take (ix.known seg.number).sizeBytes }

def findCut (target : ℕ) (d : Directory) : Option (ℕ × ℕ) := Log.findCut target (walk none (ix.registered d)).1 none

def truncateAfter (refuses : ℕ → Bool) (target : ℕ) (d : Directory) : Truncation :=
  match ix.findCut target d with
  | none => releaseAll refuses ix.nextNumber (ix.files d).reverse
  | some (number, offset) =>
    match (ix.files d).dropWhile fun seg => decide (seg.number ≠ number) with
    | [] => ⟨[], true⟩
    | cut :: later =>
      (release refuses later.reverse).thenDo
        (if offset < cut.data.length then rollCutSegment refuses ix.nextNumber cut offset else ⟨[], true⟩)

def behindCut (target : ℕ) (d : Directory) : Directory :=
  match ix.findCut target d with
  | none => (ix.files d).tail
  | some (number, _) => ((ix.files d).dropWhile fun seg => decide (seg.number ≠ number)).tail

def cutsInside (target : ℕ) (d : Directory) : Bool :=
  match ix.findCut target d with
  | none => true
  | some (number, offset) => decide (offset < sizeOf d number)

end TailIndex

/-! ## The machine -/

/-- A process that has just started has no index yet. -/
structure View where
  index : Option TailIndex
  uncertain : Bool

def View.opened : View := ⟨none, false⟩

def View.current (v : View) (d : Directory) : TailIndex :=
  match v.index with
  | none => rescan d
  | some ix => ix.refresh d

/-- How the device answers. A call that fails may have had its effect, a write a part of it; a segment let go may keep its
name. Taking the append into the index may fail as well, after some of its assignments. -/
structure Answers where
  createFails : Option Bool
  writeFails : Option ℕ
  registerFails : Option ℕ
  sizeFails : Bool
  truncateFails : Option Bool
  sizeAgainFails : Bool
  recycleFails : Bool
  keepsName : Bool

def Append.sizeBefore (a : Append) (ix : TailIndex) : ℕ := if a.rolling then 0 else lastSize ix

section Calls
variable (c : Answers)

def createOps (number : ℕ) (d : Directory) : Bool × List FileOp :=
  if number ∈ d.map Segment.number then (false, [])
  else (c.createFails.isNone, if c.createFails = some false then [] else [.create number])

def Append.writeOps (a : Append) (d : Directory) : Bool × List FileOp :=
  let made := if a.rolling then createOps c a.number d else (true, [])
  if made.1 then (c.writeFails.isNone, made.2 ++ [.append a.number ((c.writeFails.map a.blob.take).getD a.blob)]) else made

/-- The segment back at its size, and gone if it was made for the batch; and whether every call went through. -/
def undoOps (number sizeBefore : ℕ) (created : Bool) (d : Directory) : Bool × List FileOp :=
  let longer := decide (sizeBefore < sizeOf d number)
  let cut := if longer && c.truncateFails != some false then [.cut number sizeBefore] else []
  if c.sizeFails ∨ number ∉ d.map Segment.number then (false, [])
  else if longer && (c.truncateFails.isSome || c.sizeAgainFails) then (false, cut)
  else if sizeOf (runOps cut d) number ≠ sizeBefore then (false, cut)
  else if created then (!c.recycleFails, cut ++ if c.keepsName then [] else [.recycle number])
  else (true, cut)

end Calls

/-- An append that failed and has not been undone yet; its participant holds the commit section. -/
structure Pending (ι : Type*) where
  actor : ι
  append : Append
  sizeBefore : ℕ

inductive Act (ι : Type*) where
  | restart (i : ι)
  | refresh (i : ι)
  | append (i : ι) (wall : ℕ) (records : List WalRecord) (answers : Answers)
  | undo (i : ι) (answers : Answers)
  | truncate (i : ι) (target : ℕ) (refuses : ℕ → Bool) (stop : Option (ℕ × ℕ))
  | recycle (i : ι) (horizon : ℕ) (refuses : ℕ → Bool) (stop : Option ℕ)

def Act.actor {ι : Type*} : Act ι → ι
  | restart i | refresh i | append i .. | undo i _ | truncate i .. | recycle i .. => i

def Append.creates (a : Append) : List FileOp := if a.rolling then [.create a.number] else []

def Append.accepted (a : Append) (c : Answers) (d : Directory) : Bool := (a.writeOps c d).1 && c.registerFails.isNone

theorem Append.writeOps_cases {a : Append} {d : Directory} (c : Answers) (hfresh : a.rolling = true → a.number ∉ d.map Segment.number) :
    a.writeOps c d = (true, a.creates ++ [.append a.number a.blob]) ∨
      (∃ part, part <+: a.blob ∧ a.writeOps c d = (false, a.creates ++ [.append a.number part])) ∨
      a.writeOps c d = (false, a.creates) ∨ a.rolling = true ∧ c.createFails = some false ∧ a.writeOps c d = (false, []) := by
  have hwrite (ops : List FileOp) : (c.writeFails.isNone, ops ++ [.append a.number ((c.writeFails.map a.blob.take).getD a.blob)]) =
        (true, ops ++ [.append a.number a.blob]) ∨
      ∃ part, part <+: a.blob ∧ (c.writeFails.isNone, ops ++ [.append a.number ((c.writeFails.map a.blob.take).getD a.blob)]) =
        (false, ops ++ [.append a.number part]) := by
    cases c.writeFails with
    | none => exact .inl rfl
    | some kept => exact .inr ⟨_, List.take_prefix kept a.blob, rfl⟩
  unfold writeOps creates
  cases hrolling : a.rolling with
  | false => exact (hwrite []).imp_right .inl
  | true =>
    simp only [if_true, createOps, if_neg (hfresh hrolling)]
    rcases c.createFails with _ | _ | _
    · exact (hwrite _).imp_right .inl
    · exact .inr (.inr (.inr ⟨trivial, rfl, rfl⟩))
    · exact .inr (.inr (.inl rfl))

theorem undoOps_kept {c : Answers} (h : c.keepsName = true) (number size : ℕ) (created : Bool) (d : Directory) :
    (undoOps c number size created d).2 = [] ∨ (undoOps c number size created d).2 = [.cut number size] := by
  unfold undoOps
  simp only [h, if_true]
  generalize hcut : (if decide (size < sizeOf d number) && c.truncateFails != some false then [FileOp.cut number size] else []) = cut
  have hcuts : cut = [] ∨ cut = [.cut number size] := by
    rw [← hcut]
    split
    · exact .inr rfl
    · exact .inl rfl
  split
  · exact .inl rfl
  split
  · exact hcuts
  split
  · exact hcuts
  split
  · rwa [List.append_nil]
  · exact hcuts

def unrepaired (ix : TailIndex) (a : Append) (sizeBefore : ℕ) : ScanFailure :=
  ⟨.truncatedTail, a.number, sizeBefore, 0, ix.lastLsn + 1⟩

def undoneIndex (a : Append) (sizeBefore : ℕ) (repaired : Bool) (ix : TailIndex) : TailIndex :=
  if repaired then { ix with nextNumber := if a.rolling then max ix.nextNumber a.number + 1 else ix.nextNumber }
  else { ix with damage := some (unrepaired ix a sizeBefore) }

/-- A failure after some operations, or inside an append. -/
def stopped : Option (ℕ × ℕ) → List FileOp → List FileOp
  | none, ops => ops
  | some (n, kept), ops =>
    ops.take n ++
      match ops.drop n with
      | .append number data :: _ => [.append number (data.take kept)]
      | _ => []

def FileOp.creates : FileOp → Bool
  | create _ => true
  | _ => false

def startsAppend : List FileOp → Bool
  | .append _ _ :: _ => true
  | _ => false

/-- Whether the number of a new file was burned. -/
def burns : Option (ℕ × ℕ) → List FileOp → Bool
  | none, ops => ops.any FileOp.creates
  | some (n, _), ops => (ops.take n).any FileOp.creates && !startsAppend (ops.drop n)

def TailIndex.burn (ix : TailIndex) (burned : Bool) : TailIndex :=
  { ix with nextNumber := if burned then ix.nextNumber + 1 else ix.nextNumber }

def truncatedIndex (ix : TailIndex) (ops : List FileOp) (d : Directory) : TailIndex :=
  if ops.all FileOp.creates then ix.burn (burns none ops) else rescan (runOps ops d)

def truncatedView (ix : TailIndex) (uncertain : Bool) (t : Truncation) (stop : Option (ℕ × ℕ)) (d : Directory) : View :=
  match stop with
  | none => ⟨some (truncatedIndex ix t.ops d), uncertain && !(t.completed && (truncatedIndex ix t.ops d).damage.isNone)⟩
  | some _ => ⟨some (ix.burn (burns stop t.ops)), uncertain⟩

def recycleOps (refuses : ℕ → Bool) (horizon : ℕ) (ix : TailIndex) (d : Directory) : List FileOp :=
  match recycle refuses horizon ix d with
  | .error _ => []
  | .ok _ => (dropped refuses horizon ix.segments).map fun info => .recycle info.number

def recycledIndex (refuses : ℕ → Bool) (horizon : ℕ) (ix : TailIndex) (d : Directory) : TailIndex :=
  match recycle refuses horizon ix d with
  | .error _ => ix
  | .ok (ix', _) => ix'

section Machine
variable {ι : Type*} (cfg : ι → LogConfig)

def Act.ops (a : Act ι) (pending : Option (Pending ι)) (v : View) (d : Directory) : List FileOp :=
  let ix := v.current d
  match a with
  | restart _ | refresh _ => []
  | append i wall records c =>
    match prepareAppend (cfg i) ix v.uncertain wall records with
    | .error _ => []
    | .ok a => (a.writeOps c d).2
  | undo _ c =>
    match pending with
    | none => []
    | some p => (undoOps c p.append.number p.sizeBefore p.append.rolling d).2
  | truncate _ target refuses stop => stopped stop (ix.truncateAfter refuses target d).ops
  | recycle _ horizon refuses stop =>
    match stop with
    | none => recycleOps refuses horizon ix d
    | some n => (recycleOps refuses horizon ix d).take n

def Act.view (a : Act ι) (pending : Option (Pending ι)) (v : View) (d : Directory) : View :=
  let ix := v.current d
  match a with
  | restart _ => .opened
  | refresh _ => ⟨some ix, v.uncertain⟩
  | append i wall records c =>
    match prepareAppend (cfg i) ix v.uncertain wall records with
    | .error _ => ⟨some ix, v.uncertain⟩
    | .ok a => ⟨some (if a.accepted c d then registerAppend ix a else ix), v.uncertain⟩
  | undo _ c =>
    match pending with
    | none => v
    | some p =>
      let repaired := (undoOps c p.append.number p.sizeBefore p.append.rolling d).1
      ⟨v.index.map (undoneIndex p.append p.sizeBefore repaired), v.uncertain || !repaired⟩
  | truncate _ target refuses stop => truncatedView ix v.uncertain (ix.truncateAfter refuses target d) stop d
  | recycle _ horizon refuses stop =>
    match stop with
    | none => ⟨some (recycledIndex refuses horizon ix d), v.uncertain⟩
    | some _ => ⟨some ix, v.uncertain⟩

/-- `history` is all that was done to the directory. -/
structure LogState (ι : Type*) where
  files : Directory
  views : ι → View
  pending : Option (Pending ι)
  history : List FileOp

def LogState.start (ι : Type*) (d : Directory) : LogState ι := ⟨d, fun _ => .opened, none, []⟩

variable [DecidableEq ι]

/-- What changes the log waits for the section. A look at the log, and a new process, do not. -/
def Act.waits (a : Act ι) (pending : Option (Pending ι)) : Bool :=
  match a with
  | restart _ | refresh _ => false
  | undo i _ => pending.all fun p => decide (p.actor ≠ i)
  | append .. | truncate .. | recycle .. => pending.isSome

def Act.pending (a : Act ι) (pending : Option (Pending ι)) (v : View) (d : Directory) : Option (Pending ι) :=
  match a with
  | restart i => pending.filter fun p => decide (p.actor ≠ i)
  | refresh _ => pending
  | append i wall records c =>
    match prepareAppend (cfg i) (v.current d) v.uncertain wall records with
    | .error _ => none
    | .ok a => if a.accepted c d then none else some ⟨i, a, a.sizeBefore (v.current d)⟩
  | undo .. | truncate .. | recycle .. => none

def LogState.step (s : LogState ι) (a : Act ι) : LogState ι :=
  let v := s.views a.actor
  let ops := a.ops cfg s.pending v s.files
  if a.waits s.pending then s
  else ⟨runOps ops s.files, Function.update s.views a.actor (a.view cfg s.pending v s.files), a.pending cfg s.pending v s.files, s.history ++ ops⟩

variable {cfg} in
theorem LogState.step_of_goes {s : LogState ι} {a : Act ι} (h : a.waits s.pending = false) :
    s.step cfg a = ⟨runOps (a.ops cfg s.pending (s.views a.actor) s.files) s.files,
      Function.update s.views a.actor (a.view cfg s.pending (s.views a.actor) s.files),
      a.pending cfg s.pending (s.views a.actor) s.files, s.history ++ a.ops cfg s.pending (s.views a.actor) s.files⟩ := by
  rw [step, h, if_neg Bool.false_ne_true]

def LogState.run (s : LogState ι) (acts : List (Act ι)) : LogState ι := acts.foldl (LogState.step cfg) s

end Machine

end Grafx.Log
