import OktoGrafx.Log.Scan

/-! Where the wanted part of a log ends. Whatever the files hold, a walk reads whole segments of records
in sequence, then possibly part of one more, and stops there. -/

namespace Grafx.Log

open List Wal

inductive Clean (keep : WalRecord → Bool) : Option ℕ → Directory → List (List WalRecord) → Prop
  | nil {expected} : Clean keep expected [] []
  | cons {expected rs seg segs groups} : seg.data = imagesOf rs → seg.data.length ≤ maxSegmentReadBytes → Run keep expected rs →
      Clean keep (after expected rs) segs groups → Clean keep expected (seg :: segs) (rs :: groups)

def Stop (keep : WalRecord → Bool) (expected : Option ℕ) (segs : Directory) : Prop :=
  segs = [] ∨ ∃ seg later, segs = seg :: later ∧ seg.data ≠ [] ∧ (maxSegmentReadBytes < seg.data.length ∨ Stuck keep expected seg.data)

structure CutAt (keep : WalRecord → Bool) (expected : Option ℕ) (before : Directory) (groups : List (List WalRecord)) (cut : Segment)
    (rs : List WalRecord) (tail : Bytes) : Prop where
  before : Clean keep expected before groups
  data : cut.data = imagesOf rs ++ tail
  size : cut.data.length ≤ maxSegmentReadBytes
  run : Run keep (after expected groups.flatten) rs
  nonempty : rs ≠ []
  stuck : Stuck keep (after expected (groups.flatten ++ rs)) tail

variable {keep : WalRecord → Bool} {expected : Option ℕ} {rs : List WalRecord} {tail : Bytes} {seg cut : Segment} {segs before later d segs' : Directory}
  {groups : List (List WalRecord)}

section
variable (h : Clean keep expected segs groups)
include h

theorem Clean.append {groups' : List (List WalRecord)}
    (h' : Clean keep (after expected groups.flatten) segs' groups') : Clean keep expected (segs ++ segs') (groups ++ groups') := by
  induction h with
  | nil => exact h'
  | cons hdata hsize hrun _ ih =>
    rw [flatten_cons, after_append] at h'
    exact .cons hdata hsize hrun (ih h')

omit h in
theorem Clean.of_append (h : Clean keep expected (segs ++ segs') groups) :
    ∃ front back, groups = front ++ back ∧ Clean keep expected segs front ∧ Clean keep (after expected front.flatten) segs' back := by
  induction segs generalizing expected groups with
  | nil => exact ⟨[], groups, rfl, .nil, h⟩
  | cons seg segs ih =>
    cases h with
    | @cons _ rs _ _ groups hdata hsize hrun hrest =>
      obtain ⟨front, back, rfl, hfront, hback⟩ := ih hrest
      refine ⟨rs :: front, back, rfl, .cons hdata hsize hrun hfront, ?_⟩
      rw [flatten_cons, after_append]
      exact hback

theorem Clean.run : Run keep expected groups.flatten := by
  induction h with
  | nil => exact .nil
  | cons _ _ hrun _ ih => exact hrun.append ih

theorem Clean.mono {keep' : WalRecord → Bool} (hkeep : ∀ r, keep r = true → keep' r = true) : Clean keep' expected segs groups := by
  induction h with
  | nil => exact .nil
  | cons hdata hsize hrun _ ih => exact .cons hdata hsize (hrun.mono fun r _ => hkeep r) ih

theorem Clean.data : segs.flatMap Segment.data = imagesOf groups.flatten := by
  induction h with
  | nil => rfl
  | cons hdata _ _ _ ih => rw [flatMap_cons, hdata, ih, flatten_cons, imagesOf_append]

end

theorem Stop.take (h : Stop keep expected segs) (n : ℕ) : Stop keep expected (segs.take n) := by
  obtain rfl | ⟨seg, later, rfl, hstop⟩ := h
  · exact .inl take_nil
  · cases n with
    | zero => exact .inl rfl
    | succ n => exact .inr ⟨seg, later.take n, rfl, hstop⟩

theorem exists_cut (keep : WalRecord → Bool) (expected : Option ℕ) (segs : Directory) (hlive : ∀ seg ∈ segs, seg.data ≠ []) :
    Stop keep expected segs ∨ ∃ before groups cut rs tail later, segs = before ++ cut :: later ∧ CutAt keep expected before groups cut rs tail ∧
      (tail ≠ [] ∨ Stop keep (after expected (groups.flatten ++ rs)) later) := by
  induction segs generalizing expected with
  | nil => exact .inl (.inl rfl)
  | cons seg segs ih =>
    have hseg := hlive seg mem_cons_self
    by_cases hsize : seg.data.length ≤ maxSegmentReadBytes
    · obtain ⟨rs, tail, hdata, hrun, hstuck⟩ := exists_run keep expected seg.data
      by_cases hrs : rs = []
      · subst hrs
        exact .inl (.inr ⟨seg, segs, rfl, hseg, .inr (by rw [hdata]; exact hstuck)⟩)
      · have hcut : CutAt keep expected [] [] seg rs tail := ⟨.nil, hdata, hsize, hrun, hrs, hstuck⟩
        by_cases htail : tail = []
        · subst htail
          rw [append_nil] at hdata
          obtain hstop | ⟨before, groups, cut, rs', tail, later, rfl, hcut', hend⟩ :=
            ih (after expected rs) (forall_mem_cons.mp hlive).2
          · exact .inr ⟨[], [], seg, rs, [], segs, rfl, hcut, .inr hstop⟩
          · refine .inr ⟨seg :: before, rs :: groups, cut, rs', tail, later, rfl, ?_, ?_⟩
            · refine ⟨.cons hdata hsize hrun hcut'.before, hcut'.data, hcut'.size, ?_, hcut'.nonempty, ?_⟩
              · rw [flatten_cons, after_append]
                exact hcut'.run
              · rw [flatten_cons, append_assoc, after_append]
                exact hcut'.stuck
            · rw [flatten_cons, append_assoc, after_append]
              exact hend
        · exact .inr ⟨[], [], seg, rs, tail, segs, rfl, hcut, .inl htail⟩
    · exact .inl (.inr ⟨seg, segs, rfl, hseg, .inl (not_le.mp hsize)⟩)

/-! ## The walk up to the end -/

def cleanItems : Directory → List (List WalRecord) → List ScanItem
  | seg :: segs, rs :: groups => recordItems seg.number 0 rs ++ cleanItems segs groups
  | _, _ => []

theorem walk_nil_data (h : seg.data = []) : walk expected (seg :: segs) = walk expected segs := by
  show walkFrom _ _ _ = walkFrom _ _ _
  rw [walkFrom, if_pos (by rw [h]; exact le_rfl)]

theorem walkFrom_live (starts : ℕ → ℕ) (expected : Option ℕ) (d : Directory) : walkFrom starts expected d = walkFrom starts expected (live d) := by
  induction d generalizing expected with
  | nil => rfl
  | cons seg d ih =>
    by_cases hseg : seg.data = []
    · rw [live, filter_cons_of_neg (by simp [hseg]), ← live, ← ih, walkFrom, if_pos (by rw [hseg]; exact Nat.zero_le _)]
    · rw [live, filter_cons_of_pos (by simp [hseg]), ← live, walkFrom, walkFrom]
      simp only [ih]

theorem walk_live (expected : Option ℕ) (d : Directory) : walk expected d = walk expected (live d) := walkFrom_live _ expected d

theorem walk_cons (hsize : seg.data.length ≤ maxSegmentReadBytes) :
    walk expected (seg :: segs) =
      ((walkBytes seg.number (seg.data.length * resyncChecksumBudgetFactor) seg.data.length 0 expected 0 0 seg.data).1 ++
        (walk (walkBytes seg.number (seg.data.length * resyncChecksumBudgetFactor) seg.data.length 0 expected 0 0 seg.data).2 segs).1,
        (walk (walkBytes seg.number (seg.data.length * resyncChecksumBudgetFactor) seg.data.length 0 expected 0 0 seg.data).2 segs).2) := by
  by_cases hne : seg.data = []
  · rw [walk_nil_data hne, hne, length_nil, walkBytes_nil]
    rfl
  have hpos := length_pos_iff.mpr hne
  unfold walk
  rw [walkFrom, if_neg (not_le.mpr hpos), Nat.sub_zero, if_neg (not_lt.mpr hsize)]
  rfl

theorem walk_oversized (hsize : maxSegmentReadBytes < seg.data.length) : walk expected (seg :: segs) = ([], some seg.number) := by
  have hpos : 0 < seg.data.length := Nat.zero_lt_of_lt hsize
  unfold walk
  rw [walkFrom, if_neg (not_le.mpr hpos), Nat.sub_zero, if_pos hsize]

theorem walk_segment (hdata : seg.data = imagesOf rs) (hsize : seg.data.length ≤ maxSegmentReadBytes) (hrun : Run keep expected rs) :
    walk expected (seg :: segs) = (recordItems seg.number 0 rs ++ (walk (after expected rs) segs).1, (walk (after expected rs) segs).2) := by
  obtain ⟨fuel', -, hwalk⟩ :=
    walkBytes_run seg.number (seg.data.length * resyncChecksumBudgetFactor) 0 0 hrun [] _ 0 le_rfl
  rw [append_nil, ← hdata, walkBytes_nil] at hwalk
  rw [walk_cons hsize, hwalk, append_nil]

theorem Clean.walk (h : Clean keep expected segs groups) (later : Directory) :
    walk expected (segs ++ later) =
      (cleanItems segs groups ++ (walk (after expected groups.flatten) later).1, (walk (after expected groups.flatten) later).2) := by
  induction h with
  | nil => rfl
  | cons hdata hsize hrun _ ih =>
    rw [cons_append, walk_segment hdata hsize hrun, ih, cleanItems, append_assoc, flatten_cons, after_append]

def Ends (keep : WalRecord → Bool) (items : List ScanItem) : Prop := ∀ item ∈ items.head?, item.wanted keep = false

theorem ends_cons {item : ScanItem} {items : List ScanItem} (h : item.wanted keep = false) : Ends keep (item :: items) := by
  intro x hx
  cases hx
  exact h

theorem Stop.ends (h : Stop keep expected segs) : Ends keep (walk expected segs).1 := by
  obtain rfl | ⟨seg, later, rfl, hne, hsize | hstuck⟩ := h
  · exact nofun
  · rw [walk_oversized hsize]
    exact nofun
  · by_cases hsize : seg.data.length ≤ maxSegmentReadBytes
    · rw [walk_cons hsize]
      obtain ⟨item, items, hitem, hwalk⟩ :=
        walkBytes_stuck seg.number (seg.data.length * resyncChecksumBudgetFactor) 0 0 0 hne le_rfl hstuck
      rw [hwalk]
      exact ends_cons hitem
    · rw [walk_oversized (not_le.mp hsize)]
      exact nofun

theorem CutAt.walk (h : CutAt keep expected before groups cut rs tail)
    (hend : tail ≠ [] ∨ Stop keep (after expected (groups.flatten ++ rs)) later) :
    ∃ items, (walk expected (before ++ cut :: later)).1 = cleanItems before groups ++ (recordItems cut.number 0 rs ++ items) ∧
      Ends keep items := by
  rw [h.before.walk]
  by_cases htail : tail = []
  · subst htail
    have hdata : cut.data = imagesOf rs := h.data.trans (append_nil _)
    have hstop := hend.resolve_left (not_not_intro rfl)
    rw [walk_segment hdata h.size h.run]
    rw [after_append] at hstop
    exact ⟨_, rfl, hstop.ends⟩
  · obtain ⟨fuel', hfuel', hwalk⟩ :=
      walkBytes_run cut.number (cut.data.length * resyncChecksumBudgetFactor) 0 0 h.run tail _ 0 le_rfl
    have hstuck := h.stuck
    rw [after_append] at hstuck
    obtain ⟨item, items, hitem, hstuck⟩ := walkBytes_stuck cut.number (cut.data.length * resyncChecksumBudgetFactor)
      (0 + (imagesOf rs).length) 0 0 htail hfuel' hstuck
    rw [← h.data] at hwalk
    rw [walk_cons h.size, hwalk]
    rw [hstuck, append_assoc]
    exact ⟨_, rfl, ends_cons hitem⟩

end Grafx.Log
