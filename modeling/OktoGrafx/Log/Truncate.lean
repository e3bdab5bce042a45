import OktoGrafx.Lib.Interrupt
import OktoGrafx.Log.Cut

/-! Removing every record above a number. The newest segments go first, and the segment of the cut is
not shortened: what survives of it is rolled into a new file, and only then is the old one let go. -/

namespace Grafx.Log

open List Interrupt Wal

def minSegmentNumber : ℕ := 1

def maxSegmentNumber : ℕ := 10 ^ 12 - 1

inductive FileOp where
  | recycle (number : ℕ)
  | create (number : ℕ)
  | append (number : ℕ) (data : Bytes)
  | cut (number size : ℕ)
  deriving DecidableEq

def appendTo (number : ℕ) (data : Bytes) (seg : Segment) : Segment :=
  if seg.number = number then { seg with data := seg.data ++ data } else seg

def cutTo (number size : ℕ) (seg : Segment) : Segment :=
  if seg.number = number then { seg with data := seg.data.take size } else seg

def FileOp.apply : FileOp → Directory → Directory
  | recycle number, d => d.filter fun seg => decide (seg.number ≠ number)
  | create number, d => d ++ [⟨number, []⟩]
  | append number data, d => d.map (appendTo number data)
  | cut number size, d => d.map (cutTo number size)

def FileOp.partly : FileOp → Directory → Directory → Prop
  | append number data, d, d' => ∃ part, part <+: data ∧ d' = (FileOp.append number part).apply d
  | _, _, _ => False

abbrev runOps (ops : List FileOp) (d : Directory) : Directory := run FileOp.apply ops d

abbrev Interrupted (ops : List FileOp) (d d' : Directory) : Prop := Reaches FileOp.apply FileOp.partly ops d d'

def findCut (target : ℕ) : List ScanItem → Option (ℕ × ℕ) → Option (ℕ × ℕ)
  | [], cut => cut
  | .failure _ :: _, cut => cut
  | .record segment offset r :: items, cut =>
    if target < r.lsn then cut else findCut target items (some (segment, offset + r.encodedLength))

structure Truncation where
  ops : List FileOp
  completed : Bool

section Truncate
variable (refuses : ℕ → Bool) (next : ℕ)

/-- One after the other, up to the first that is not released. -/
def release (doomed : Directory) : Truncation :=
  ⟨(doomed.takeWhile fun seg => !refuses seg.number).map fun seg => .recycle seg.number, doomed.all fun seg => !refuses seg.number⟩

def Truncation.thenDo (t : Truncation) (more : Truncation) : Truncation :=
  if t.completed then ⟨t.ops ++ more.ops, more.completed⟩ else t

def newSegment (more : Truncation) : Truncation :=
  if next ≤ maxSegmentNumber then ⟨.create next :: more.ops, more.completed⟩ else ⟨[], false⟩

def releaseAll (doomed : Directory) : Truncation :=
  match doomed.getLast? with
  | none => ⟨[], true⟩
  | some last => (release refuses doomed.dropLast).thenDo (newSegment next (release refuses [last]))

def rollCutSegment (cut : Segment) (offset : ℕ) : Truncation :=
  let released := release refuses [cut]
  newSegment next ⟨.append next (cut.data.take offset) :: released.ops, released.completed⟩

def truncateAfter (target : ℕ) (d : Directory) : Truncation :=
  let segments := live d
  match findCut target (walk none segments).1 none with
  | none => releaseAll refuses next segments.reverse
  | some (number, offset) =>
    match segments.dropWhile fun seg => decide (seg.number ≠ number) with
    | [] => ⟨[], true⟩  -- does not happen: the cut lies in one of the segments
    | cut :: later =>
      (release refuses later.reverse).thenDo (if offset < cut.data.length then rollCutSegment refuses next cut offset else ⟨[], true⟩)

end Truncate

/-! ## Where the cut is -/

def upTo (target : ℕ) (r : WalRecord) : Bool := decide (r.lsn ≤ target)

variable {keep : WalRecord → Bool} {target next : ℕ} {refuses : ℕ → Bool} {rs : List WalRecord} {tail : Bytes} {cut : Segment}
  {before later d d' segs : Directory} {groups : List (List WalRecord)} {items : List ScanItem} {expected : Option ℕ}

theorem findCut_recordItems (segment offset : ℕ) (place : Option (ℕ × ℕ)) (h : ∀ r ∈ rs, upTo target r = true) :
    findCut target (recordItems segment offset rs ++ items) place =
      findCut target items (if rs = [] then place else some (segment, offset + (imagesOf rs).length)) := by
  induction rs generalizing offset place with
  | nil => rfl
  | cons r rs ih =>
    have hr : ¬ target < r.lsn := not_lt.mpr (of_decide_eq_true (h r mem_cons_self))
    rw [recordItems, cons_append, findCut, if_neg hr, ih _ _ (forall_mem_cons.mp h).2, if_neg (cons_ne_nil _ _),
      imagesOf_cons, length_append, WalRecord.image_length, ← add_assoc]
    by_cases hrs : rs = []
    · rw [if_pos hrs, imagesOf_eq_nil.mpr hrs]
      rfl
    · rw [if_neg hrs]

theorem findCut_cleanItems (h : Clean (upTo target) expected segs groups) (items : List ScanItem) (place : Option (ℕ × ℕ)) :
    ∃ place', findCut target (cleanItems segs groups ++ items) place = findCut target items place' := by
  induction h generalizing place with
  | nil => exact ⟨place, rfl⟩
  | cons _ _ hrun _ ih =>
    rw [cleanItems, append_assoc, findCut_recordItems _ _ _ hrun.kept]
    exact ih _

theorem findCut_ends (h : Ends (upTo target) items) (place : Option (ℕ × ℕ)) : findCut target items place = place := by
  match items with
  | [] => rfl
  | .failure _ :: _ => rfl
  | .record _ _ r :: _ =>
    have hr : upTo target r = false := h _ rfl
    exact if_pos (not_le.mp (of_decide_eq_false hr))

theorem CutAt.findCut (h : CutAt (upTo target) none before groups cut rs tail)
    (hend : tail ≠ [] ∨ Stop (upTo target) (after none (groups.flatten ++ rs)) later) :
    findCut target (Log.walk none (before ++ cut :: later)).1 none = some (cut.number, (imagesOf rs).length) := by
  obtain ⟨items, hwalk, hends⟩ := h.walk hend
  obtain ⟨place, hplace⟩ := findCut_cleanItems h.before (recordItems cut.number 0 rs ++ items) none
  rw [hwalk, hplace, findCut_recordItems _ _ _ h.run.kept, if_neg h.nonempty, findCut_ends hends, zero_add]

theorem Stop.findCut (h : Stop (upTo target) none segs) : findCut target (walk none segs).1 none = none := findCut_ends h.ends none

/-! ## Directories in order -/

/-- Files are listed by number. -/
def Ordered (d : Directory) : Prop := d.Pairwise fun a b => a.number < b.number

instance (d : Directory) : Decidable (Ordered d) := inferInstanceAs (Decidable (List.Pairwise _ _))

def Fresh (next : ℕ) (d : Directory) : Prop := ∀ seg ∈ d, seg.number < next

instance (next : ℕ) (d : Directory) : Decidable (Fresh next d) := inferInstanceAs (Decidable (∀ seg ∈ d, _))

theorem Ordered.live (h : Ordered d) : Ordered (live d) := List.Pairwise.filter _ h

theorem ordered_of_sublist (h : Ordered d) (hnext : Fresh next d) (hsub : (d'.map Segment.number).Sublist (d.map Segment.number ++ [next])) :
    Ordered d' := by
  have hall : (d.map Segment.number ++ [next]).Pairwise (· < ·) := by
    rw [pairwise_append]
    refine ⟨pairwise_map.mpr h, pairwise_singleton .., ?_⟩
    intro n hn m hm
    obtain ⟨seg, hseg, rfl⟩ := mem_map.mp hn
    obtain rfl := mem_singleton.mp hm
    exact hnext seg hseg
  exact pairwise_map.mp (hall.sublist hsub)

theorem live_create (number : ℕ) (d : Directory) : live ((FileOp.create number).apply d) = live d := by
  simp [live, FileOp.apply]

theorem map_unchanged {f : Segment → Segment} (hf : ∀ seg ∈ d, f seg = seg) : d.map f = d := (map_congr_left hf).trans (map_id d)

theorem map_numbers {f : Segment → Segment} (hf : ∀ seg, (f seg).number = seg.number) (d : Directory) :
    (d.map f).map Segment.number = d.map Segment.number := by
  rw [map_map]
  exact map_congr_left fun seg _ => hf seg

theorem append_numbers (number : ℕ) (more : Bytes) (d : Directory) : ((FileOp.append number more).apply d).map Segment.number = d.map Segment.number :=
  map_numbers (fun seg => by unfold appendTo; split <;> rfl) d

theorem cut_numbers (number size : ℕ) (d : Directory) : ((FileOp.cut number size).apply d).map Segment.number = d.map Segment.number :=
  map_numbers (fun seg => by unfold cutTo; split <;> rfl) d

theorem run_recycles (doomed d : Directory) :
    runOps (doomed.map fun seg => .recycle seg.number) d = d.filter fun seg => decide (seg.number ∉ doomed.map Segment.number) := by
  induction doomed generalizing d with
  | nil => exact (filter_eq_self.mpr fun _ _ => by simp).symm
  | cons seg doomed ih =>
    show runOps (doomed.map _) (d.filter _) = _
    rw [ih, filter_filter]
    apply filter_congr
    intro x _
    by_cases hx : x.number = seg.number <;> simp [hx]

theorem live_append {data : Bytes} (hnext : Fresh next d) :
    live ((FileOp.append next data).apply (d ++ [⟨next, []⟩])) = live d ++ if data = [] then [] else [⟨next, data⟩] := by
  have hkeep : d.map (appendTo next data) = d := map_unchanged fun seg hseg => if_neg (hnext seg hseg).ne
  rw [FileOp.apply, map_append, hkeep, live, filter_append, ← live]
  by_cases hdata : data = []
  · simp [appendTo, hdata]
  · simp [appendTo, hdata]

end Grafx.Log
