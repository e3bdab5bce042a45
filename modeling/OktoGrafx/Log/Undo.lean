import OktoGrafx.Log.Names
import OktoGrafx.Log.Written

/-! An append that fails on the way. Every call to the device can fail, with or without its effect; what was
written is then taken back, call by call, and the log closes if that fails as well. -/

namespace Grafx.Log

open List Interrupt Wal

/-- All that a participant keeps of the log. The marks say where some records of a segment begin. -/
structure Manager where
  index : TailIndex
  uncertain : Bool
  marks : ℕ → List (ℕ × ℕ)
  unflushed : List ℕ
  totalBytes : ℕ

/-- A participant and the device as a refresh leaves them. -/
structure Site where
  files : Directory
  manager : Manager
  ordered : Ordered files
  fresh : Fresh manager.index.nextNumber files
  tail : ∀ t, manager.index.segments.getLast? = some t → ∃ seg ∈ files, seg.number = t.number ∧ seg.data.length = t.sizeBytes

inductive AppendResult where
  | returned (lsn : ℕ)
  | refused (e : AppendRefusal)
  | raised (repaired : Bool)
  deriving DecidableEq

/-! ## Taking an append into the index -/

def lsnIndexStrideBytes : ℕ := 4096

def noteMark (number : ℕ) (marks : ℕ → List (ℕ × ℕ)) (mark : ℕ × ℕ) : ℕ → List (ℕ × ℕ) :=
  if (marks number).getLast?.any fun last => decide (mark.2 < last.2 + lsnIndexStrideBytes) then marks
  else Function.update marks number (marks number ++ [mark])

def placed : ℕ → List WalRecord → List (ℕ × ℕ)
  | _, [] => []
  | offset, r :: records => (r.lsn, offset) :: placed (offset + r.encodedLength) records

namespace Manager

/-- The assignments in their order. -/
def registration (a : Append) (sizeBefore : ℕ) : List (Manager → Manager) :=
  [fun m => { m with marks := (placed sizeBefore a.records).foldl (noteMark a.number) m.marks },
    fun m => { m with index := { m.index with
      segments := (registerAppend m.index a).segments, nextNumber := (registerAppend m.index a).nextNumber } },
    fun m => { m with totalBytes := m.totalBytes + a.blob.length },
    fun m => { m with index := { m.index with lastLsn := lastLsn a.stamped } },
    fun m => { m with index := { m.index with maxEpoch := maxEpochOf m.index.maxEpoch a.stamped } },
    fun m => { m with unflushed := if a.number ∈ m.unflushed then m.unflushed else m.unflushed ++ [a.number] }]

def registered (m : Manager) (a : Append) (sizeBefore : ℕ) (fails : Option ℕ) : Manager :=
  let assigns := registration a sizeBefore
  ((fails.map assigns.take).getD assigns).foldl (fun m assign => assign m) m

/-- What was noted before the write is put back. -/
def restored (m before : Manager) : Manager :=
  { m with
    index := { m.index with
      segments := before.index.segments
      nextNumber := before.index.nextNumber
      lastLsn := before.index.lastLsn
      maxEpoch := before.index.maxEpoch }
    marks := before.marks
    unflushed := before.unflushed
    totalBytes := before.totalBytes }

def undone (m : Manager) (a : Append) (sizeBefore : ℕ) (repaired : Bool) : Manager :=
  { m with index := undoneIndex a sizeBefore repaired m.index, uncertain := m.uncertain || !repaired }

end Manager

def appendMany (c : Answers) (cfg : LogConfig) (s : Site) (wall : ℕ) (records : List WalRecord) : AppendResult × Manager × Directory :=
  match prepareAppend cfg s.manager.index s.manager.uncertain wall records with
  | .error e => (.refused e, s.manager, s.files)
  | .ok a =>
    let size := a.sizeBefore s.manager.index
    let written := a.writeOps c s.files
    let files := runOps written.2 s.files
    let m := if written.1 then s.manager.registered a size c.registerFails else s.manager
    if a.accepted c s.files then (.returned (lastLsn a.stamped), m, files)
    else
      let back := undoOps c a.number size a.rolling files
      (.raised back.1, (m.restored s.manager).undone a size back.1, runOps back.2 files)

/-- A participant that has brought its index up to date. -/
def Site.refreshed (d : Directory) (hd : Ordered d) (v : View) (hv : v.Numbered) (marks : ℕ → List (ℕ × ℕ)) (unflushed : List ℕ) (totalBytes : ℕ) :
    Site where
  files := d
  manager := ⟨v.current d, v.uncertain, marks, unflushed, totalBytes⟩
  ordered := hd
  fresh := (View.current_listed hv hd).fresh
  tail := (View.current_listed hv hd).tail

variable {c : Answers} {d : Directory} {number size : ℕ} {part : Bytes} {s : Site} {a : Append} {m : Manager}

theorem Manager.restored_registered (fails : Option ℕ) : (m.registered a size fails).restored m = m := by
  -- no assignment touches what is not put back
  have hkept : (m.registered a size fails).uncertain = m.uncertain ∧ (m.registered a size fails).index.damage = m.index.damage := by
    refine foldlRecOn (motive := fun m' : Manager => m'.uncertain = m.uncertain ∧ m'.index.damage = m.index.damage) _ _ ⟨rfl, rfl⟩
      fun m' hm' assign hassign => ?_
    have hmem : assign ∈ registration a size := by
      cases fails with
      | none => exact hassign
      | some n => exact mem_of_mem_take hassign
    simp only [registration, mem_cons, not_mem_nil, or_false] at hmem
    rcases hmem with rfl | rfl | rfl | rfl | rfl | rfl <;> exact hm'
  rw [restored]
  dsimp only
  rw [hkept.1, hkept.2]

theorem Manager.registered_whole : m.registered a size none =
    { m with
      index := registerAppend m.index a
      marks := (placed size a.records).foldl (noteMark a.number) m.marks
      unflushed := if a.number ∈ m.unflushed then m.unflushed else m.unflushed ++ [a.number]
      totalBytes := m.totalBytes + a.blob.length } := rfl

theorem Manager.undone_false : m.undone a size false =
    { m with index := { m.index with damage := some (unrepaired m.index a size) }, uncertain := true } := by
  simp [undone, undoneIndex]

theorem Manager.undone_true : m.undone a size true =
    { m with index := { m.index with nextNumber := if a.rolling then max m.index.nextNumber a.number + 1 else m.index.nextNumber } } := by
  simp [undone, undoneIndex]

/-! ## Taking back what was written -/

theorem sizeOf_append (hd : Ordered d) (hmem : number ∈ d.map Segment.number)
    (hsize : ∀ seg ∈ d, seg.number = number → seg.data.length = size) :
    sizeOf ((FileOp.append number part).apply d) number = size + part.length := by
  obtain ⟨seg, hseg, rfl⟩ := mem_map.mp hmem
  have hgrown : appendTo seg.number part seg ∈ (FileOp.append seg.number part).apply d := mem_map_of_mem hseg
  have hfound := sizeOf_mem (ordered_of_numbers hd (append_numbers seg.number part d)) hgrown
  simpa only [appendTo, if_true, length_append, hsize seg hseg rfl] using hfound

theorem cuts_back (part : Bytes) (hsize : ∀ seg ∈ d, seg.number = number → seg.data.length = size) (hnone : part = [] ∨ c.truncateFails = none) :
    runOps (if decide (size < size + part.length) && c.truncateFails != some false then [.cut number size] else [])
      ((FileOp.append number part).apply d) = d := by
  cases part with
  | nil =>
    rw [append_nil_apply, length_nil, Nat.add_zero, decide_eq_false (lt_irrefl size), Bool.false_and, if_neg Bool.false_ne_true]
    rfl
  | cons b part =>
    rw [hnone.resolve_left (cons_ne_nil b part), if_pos (by simp)]
    exact cut_append hsize _

section
variable {created : Bool} (hd : Ordered d) (hmem : number ∈ d.map Segment.number)
  (hsize : ∀ seg ∈ d, seg.number = number → seg.data.length = size)
include hd hmem hsize

/-- The undo of what an append left fails with a call it makes; otherwise all is as before, or a file that was made for the batch is gone. -/
theorem undoOps_append : (undoOps c number size created ((FileOp.append number part).apply d)).1 =
      !(c.sizeFails || decide (size < size + part.length) && (c.truncateFails.isSome || c.sizeAgainFails) || created && c.recycleFails) ∧
    ((undoOps c number size created ((FileOp.append number part).apply d)).1 = true →
      runOps (undoOps c number size created ((FileOp.append number part).apply d)).2 ((FileOp.append number part).apply d) = d ∨
        created = true ∧ runOps (undoOps c number size created ((FileOp.append number part).apply d)).2 ((FileOp.append number part).apply d) =
          (FileOp.recycle number).apply d) := by
  unfold undoOps
  rw [append_numbers, sizeOf_append hd hmem hsize]
  dsimp only
  by_cases hasked : c.sizeFails = true
  · rw [if_pos (.inl hasked), hasked]
    exact ⟨rfl, fun h => by cases h⟩
  rw [if_neg (by simp [hasked, hmem])]
  by_cases hfailed : (decide (size < size + part.length) && (c.truncateFails.isSome || c.sizeAgainFails)) = true
  · rw [if_pos hfailed, hfailed, Bool.or_true]
    exact ⟨rfl, fun h => by cases h⟩
  have hnone : part = [] ∨ c.truncateFails = none := by
    cases part with
    | nil => exact .inl rfl
    | cons b part =>
      right
      cases htruncate : c.truncateFails with
      | none => rfl
      | some _ => simp [htruncate] at hfailed
  have hback := cuts_back part hsize hnone
  have hsame : sizeOf d number = size := by
    obtain ⟨seg, hseg, rfl⟩ := mem_map.mp hmem
    rw [sizeOf_mem hd hseg, hsize seg hseg rfl]
  rw [if_neg hfailed, hback, if_neg (not_not.mpr hsame), Bool.eq_false_of_not_eq_true hasked, Bool.eq_false_of_not_eq_true hfailed]
  cases created with
  | false => exact ⟨rfl, fun _ => .inl hback⟩
  | true =>
    refine ⟨rfl, fun _ => ?_⟩
    rw [if_pos rfl, runOps, run_append, show run FileOp.apply _ _ = d from hback]
    cases c.keepsName with
    | true => exact .inl rfl
    | false => exact .inr ⟨rfl, rfl⟩

end

theorem recycle_create (h : number ∉ d.map Segment.number) : (FileOp.recycle number).apply ((FileOp.create number).apply d) = d := by
  rw [FileOp.apply, FileOp.apply, filter_append, filter_eq_self.mpr, filter_cons_of_neg (by simp), filter_nil, append_nil]
  exact fun seg hseg => decide_eq_true fun heq => h (heq ▸ mem_map_of_mem hseg)

theorem Prepared.number_mem (h : Prepared s.manager.index a) : a.number ∈ (runOps a.creates s.files).map Segment.number := by
  rw [runOps_creates]
  rcases h.place with ⟨hrolling, -⟩ | ⟨hrolling, -, t, ht, hnumber, -⟩
  · rw [if_pos hrolling]
    exact mem_map_of_mem (mem_append_right s.files mem_cons_self)
  · obtain ⟨seg, hseg, hsame, -⟩ := s.tail t ht
    rw [hrolling, if_neg Bool.false_ne_true, hnumber, ← hsame]
    exact mem_map_of_mem hseg

/-! ## The append -/

/-- A call of the undo fails; so does asking for the size of a file that was never made. -/
def Append.undoFails (a : Append) (c : Answers) (s : Site) : Bool :=
  c.sizeFails ||
    decide (a.sizeBefore s.manager.index < sizeOf (runOps (a.writeOps c s.files).2 s.files) a.number) && (c.truncateFails.isSome || c.sizeAgainFails) ||
    a.rolling && (c.recycleFails || c.createFails == some false)

/-- The batch stands behind what was there, with a segment header before it where it opened a segment; or all is as before
but for an empty segment and its number; or a call of the undo failed, and the log is closed to the participant. -/
inductive Settles (c : Answers) (cfg : LogConfig) (s : Site) (wall : ℕ) (records : List WalRecord) : AppendResult × Manager × Directory → Prop
  | wrote {a : Append} : Forall₂ Renumbers (records.map (WalRecord.withDescriptor cfg)) a.stamped →
      a.records.map WalRecord.lsn = range' (s.manager.index.lastLsn + 1) a.records.length →
      (a.rolling = true ∧ a.number = s.manager.index.nextNumber ∧
          (∃ header, openSegment cfg s.manager.index wall (records.map (WalRecord.withDescriptor cfg)) = .ok header ∧ a.header = [header]) ∨
        a.rolling = false ∧ a.header = [] ∧ ∃ t, s.manager.index.segments.getLast? = some t ∧ a.number = t.number) →
      Settles c cfg s wall records (.returned (lastLsn a.stamped),
        { s.manager with
          index := registerAppend s.manager.index a
          marks := (placed (a.sizeBefore s.manager.index) a.records).foldl (noteMark a.number) s.manager.marks
          unflushed := if a.number ∈ s.manager.unflushed then s.manager.unflushed else s.manager.unflushed ++ [a.number]
          totalBytes := s.manager.totalBytes + (imagesOf a.records).length },
        (FileOp.append a.number (imagesOf a.records)).apply (if a.rolling then s.files ++ [⟨a.number, []⟩] else s.files))
  | refused {e : AppendRefusal} : prepareAppend cfg s.manager.index s.manager.uncertain wall records = .error e →
      Settles c cfg s wall records (.refused e, s.manager, s.files)
  | asBefore {next : ℕ} {files : Directory} :
      (files = s.files ∧ s.manager.index.nextNumber ≤ next ∨
        files = s.files ++ [⟨s.manager.index.nextNumber, []⟩] ∧ s.manager.index.nextNumber < next) →
      Settles c cfg s wall records (.raised true, { s.manager with index := { s.manager.index with nextNumber := next } }, files)
  | closed {a : Append} {files : Directory} {f : ScanFailure} :
      prepareAppend cfg s.manager.index s.manager.uncertain wall records = .ok a → a.undoFails c s = true →
      Settles c cfg s wall records
        (.raised false, { s.manager with index := { s.manager.index with damage := some f }, uncertain := true }, files)

section
variable {cfg : LogConfig} {wall : ℕ} {records : List WalRecord}
  (hprepare : prepareAppend cfg s.manager.index s.manager.uncertain wall records = .ok a)
include hprepare

theorem settles_accepted (h : a.accepted c s.files = true) : Settles c cfg s wall records
    (.returned (lastLsn a.stamped), s.manager.registered a (a.sizeBefore s.manager.index) none, runOps (a.writeOps c s.files).2 s.files) := by
  have hprepared := (prepareAppend_ok hprepare).2
  have hwritten := (Bool.and_eq_true_iff.mp h).1
  have hfiles : runOps (a.writeOps c s.files).2 s.files =
      (FileOp.append a.number a.blob).apply (if a.rolling then s.files ++ [⟨a.number, []⟩] else s.files) := by
    rcases a.writeOps_cases c (hprepared.missing s.fresh) with heq | ⟨part, -, heq⟩ | heq | ⟨-, -, heq⟩ <;> rw [heq] at hwritten ⊢
    · rw [runOps, run_append]
      show (FileOp.append a.number a.blob).apply (runOps a.creates s.files) = _
      rw [runOps_creates]
      rfl
    all_goals cases hwritten
  rw [hfiles, Manager.registered_whole]
  refine .wrote (prepareAppend_records hprepare) hprepared.lsns ?_
  obtain ⟨-, -, batch, hplan, -, -, hplace⟩ := prepareAppend_cases hprepare
  rw [(planBatch_ok hplan).1] at hplace
  rcases hplace with hrolled | ⟨hrolling, -⟩
  · exact .inl hrolled
  · rcases hprepared.place with ⟨htrue, -⟩ | ⟨-, hheader, t, ht, hnumber, -⟩
    · rw [hrolling] at htrue
      cases htrue
    · exact .inr ⟨hrolling, hheader, t, ht, hnumber⟩

theorem settles_undone {back : Bool × List FileOp}
    (hback : undoOps c a.number (a.sizeBefore s.manager.index) a.rolling (runOps (a.writeOps c s.files).2 s.files) = back) :
    Settles c cfg s wall records (.raised back.1, s.manager.undone a (a.sizeBefore s.manager.index) back.1,
      runOps back.2 (runOps (a.writeOps c s.files).2 s.files)) := by
  have hprepared := (prepareAppend_ok hprepare).2
  obtain ⟨hordered, hsize⟩ := hprepared.opened s.ordered s.fresh s.tail
  have hmissing := hprepared.missing s.fresh
  -- what is on the device now is a part of the batch, perhaps none of it, unless the file was never made
  have hleft : (∃ part, runOps (a.writeOps c s.files).2 s.files = (FileOp.append a.number part).apply (runOps a.creates s.files)) ∨
      runOps (a.writeOps c s.files).2 s.files = s.files ∧ a.rolling = true ∧ c.createFails = some false := by
    rcases a.writeOps_cases c hmissing with heq | ⟨part, -, heq⟩ | heq | ⟨hrolling, hnever, heq⟩
    · exact .inl ⟨a.blob, by rw [heq, runOps, run_append]; rfl⟩
    · exact .inl ⟨part, by rw [heq, runOps, run_append]; rfl⟩
    · exact .inl ⟨[], by rw [heq, append_nil_apply]⟩
    · exact .inr ⟨by rw [heq]; rfl, hrolling, hnever⟩
  rcases hleft with ⟨part, heq⟩ | ⟨heq, hrolling, hnever⟩
  · rw [heq] at hback ⊢
    have hmem := hprepared.number_mem
    cases hrepaired : back.1 with
    | false =>
      rw [Manager.undone_false]
      refine .closed hprepare ?_
      rw [← hback, (undoOps_append hordered hmem hsize).1, Bool.not_eq_false'] at hrepaired
      rw [Append.undoFails, heq, sizeOf_append hordered hmem hsize]
      grind
    | true =>
      rw [Manager.undone_true]
      refine .asBefore ?_
      rw [← hback] at hrepaired ⊢
      rcases (undoOps_append hordered hmem hsize).2 hrepaired with hkept | ⟨hrolling, hgone⟩
      · rw [hkept, runOps_creates]
        cases hrolling : a.rolling with
        | true =>
          rw [hprepared.rolled hrolling, Nat.max_self]
          exact .inr ⟨rfl, Nat.lt_succ_self _⟩
        | false => exact .inl ⟨rfl, le_rfl⟩
      · rw [hgone, runOps_creates, if_pos hrolling, if_pos hrolling, recycle_create (hmissing hrolling)]
        exact .inl ⟨rfl, Nat.le_succ_of_le (le_max_left _ _)⟩
  · rw [heq, undoOps, if_pos (.inr (hmissing hrolling))] at hback
    subst hback
    rw [Manager.undone_false]
    exact .closed hprepare (by simp [Append.undoFails, hrolling, hnever])

end

theorem appendMany_settles (c : Answers) (cfg : LogConfig) (s : Site) (wall : ℕ) (records : List WalRecord) :
    Settles c cfg s wall records (appendMany c cfg s wall records) ∧
      ∀ next cfg' uncertain wall' records' a,
        prepareAppend cfg' { s.manager.index with nextNumber := next } uncertain wall' records' = .ok a →
        a.records.map WalRecord.lsn = range' (s.manager.index.lastLsn + 1) a.records.length := by
  refine ⟨?_, fun _ _ _ _ _ _ h => (prepareAppend_ok h).2.lsns⟩
  unfold appendMany
  cases hprepare : prepareAppend cfg s.manager.index s.manager.uncertain wall records with
  | error e => exact .refused hprepare
  | ok a =>
    dsimp only
    split
    · rename_i haccepted
      obtain ⟨hwritten, hregister⟩ := Bool.and_eq_true_iff.mp haccepted
      rw [Option.isNone_iff_eq_none.mp hregister, if_pos hwritten]
      exact settles_accepted hprepare haccepted
    · have hrestored : Manager.restored (if (a.writeOps c s.files).1 then s.manager.registered a (a.sizeBefore s.manager.index) c.registerFails
          else s.manager) s.manager = s.manager := by
        split
        · exact Manager.restored_registered _
        · rfl
      rw [hrestored]
      exact settles_undone hprepare rfl

end Grafx.Log
