import OktoGrafx.Log.TailIndex

/-! Recycling: the oldest segments go, as long as all their records lie below the horizon. -/

namespace Grafx.Log

open List Wal

structure ReaderRecord where
  snapshotLsn : ℕ
  active : Bool
  alive : Bool
  deriving DecidableEq

/-- The smallest snapshot; a record that is inactive, or whose reader has stalled, is removed on the way. -/
def pin (horizon : Option ℕ) (r : ReaderRecord) : Option ℕ :=
  if r.active && r.alive then
    match horizon with
    | none => some r.snapshotLsn
    | some pinned => if r.snapshotLsn < pinned then some r.snapshotLsn else some pinned
  else horizon

def readerHorizon (records : List ReaderRecord) : Option ℕ := records.foldl pin none

def recyclableHorizon (readerHorizon : Option ℕ) (checkpointLsn : ℕ) : ℕ :=
  match readerHorizon with
  | none => checkpointLsn
  | some pinned => if pinned < checkpointLsn then pinned else checkpointLsn

def isReadable (info : SegmentInfo) : Bool := decide (0 < info.recordCount) && decide (info.lastLsn ≠ noLsn)

def recyclablePrefix (horizonLsn : ℕ) : List SegmentInfo → ℕ
  | [] => 0
  | [_] => 0
  | info :: newer :: infos =>
    if !isReadable info then 0 else if horizonLsn ≤ info.lastLsn then 0 else recyclablePrefix horizonLsn (newer :: infos) + 1

inductive RecycleRefusal where
  | schema (damage : ScanFailure)
  deriving DecidableEq

/-- The pass stops at the first segment that is not released. -/
def dropped (refuses : ℕ → Bool) (horizonLsn : ℕ) (infos : List SegmentInfo) : List SegmentInfo :=
  (infos.take (recyclablePrefix horizonLsn infos)).takeWhile fun info => !refuses info.number

def recycle (refuses : ℕ → Bool) (horizonLsn : ℕ) (ix : TailIndex) (d : Directory) : Except RecycleRefusal (TailIndex × Directory) :=
  match ix.damage.filter fun f => f.reason = .unsupportedVersion || f.reason = .unsupportedRequiredRecord with
  | some f => .error (.schema f)
  | none =>
    let gone := dropped refuses horizonLsn ix.segments
    .ok ({ ix with segments := ix.segments.drop gone.length }, d.filter fun seg => decide (seg.number ∉ gone.map SegmentInfo.number))

variable {keep : WalRecord → Bool} {refuses : ℕ → Bool} {horizon next : ℕ} {infos : List SegmentInfo} {info : SegmentInfo}
  {rs : List WalRecord} {tail : Bytes} {cut seg : Segment} {before later d d' segs : Directory} {groups : List (List WalRecord)}
  {expected : Option ℕ}

/-! ## The horizon -/

theorem pin_le {horizon : Option ℕ} {lsn : ℕ} (r : ReaderRecord) (h : ∃ pinned, horizon = some pinned ∧ pinned ≤ lsn) :
    ∃ pinned, pin horizon r = some pinned ∧ pinned ≤ lsn := by
  obtain ⟨pinned, rfl, hle⟩ := h
  unfold pin
  split
  · split
    · rename_i hnone
      cases hnone
    · rename_i pinned' hsome
      cases hsome
      split
      · exact ⟨_, rfl, by omega⟩
      · exact ⟨_, rfl, hle⟩
  · exact ⟨pinned, rfl, hle⟩

theorem pin_own {horizon : Option ℕ} {r : ReaderRecord} (hactive : r.active = true) (halive : r.alive = true) :
    ∃ pinned, pin horizon r = some pinned ∧ pinned ≤ r.snapshotLsn := by
  unfold pin
  rw [hactive, halive, if_pos (by rfl)]
  cases horizon with
  | none => exact ⟨_, rfl, le_rfl⟩
  | some pinned =>
    dsimp only
    split
    · exact ⟨_, rfl, le_rfl⟩
    · rename_i hlt
      exact ⟨_, rfl, not_lt.mp hlt⟩

theorem foldl_pin_le {lsn : ℕ} (records : List ReaderRecord) {horizon : Option ℕ} (h : ∃ pinned, horizon = some pinned ∧ pinned ≤ lsn) :
    ∃ pinned, records.foldl pin horizon = some pinned ∧ pinned ≤ lsn := by
  induction records generalizing horizon with
  | nil => exact h
  | cons r records ih => exact ih (pin_le r h)

theorem readerHorizon_le {records : List ReaderRecord} {r : ReaderRecord} (hr : r ∈ records) (hactive : r.active = true)
    (halive : r.alive = true) : ∃ pinned, readerHorizon records = some pinned ∧ pinned ≤ r.snapshotLsn := by
  obtain ⟨front, back, rfl⟩ := append_of_mem hr
  rw [readerHorizon, foldl_append, foldl_cons]
  exact foldl_pin_le back (pin_own hactive halive)

theorem recyclableHorizon_le (readers : Option ℕ) (checkpoint : ℕ) :
    recyclableHorizon readers checkpoint ≤ checkpoint ∧ ∀ pinned, readers = some pinned → recyclableHorizon readers checkpoint ≤ pinned := by
  cases readers with
  | none => exact ⟨le_rfl, nofun⟩
  | some pinned =>
    unfold recyclableHorizon
    dsimp only
    split
    · rename_i hlt
      exact ⟨hlt.le, fun _ h => (Option.some.inj h).le⟩
    · rename_i hlt
      exact ⟨le_rfl, fun _ h => (Option.some.inj h) ▸ not_lt.mp hlt⟩

/-! ## The prefix that may go -/

theorem recyclablePrefix_lt (horizon : ℕ) (infos : List SegmentInfo) : infos = [] ∨ recyclablePrefix horizon infos < infos.length := by
  induction infos with
  | nil => exact .inl rfl
  | cons info infos ih =>
    cases infos with
    | nil => exact .inr one_pos
    | cons newer infos =>
      have hlt := ih.resolve_left (cons_ne_nil _ _)
      refine .inr ?_
      unfold recyclablePrefix
      split
      · exact Nat.zero_lt_succ _
      · split
        · exact Nat.zero_lt_succ _
        · exact Nat.succ_lt_succ hlt

theorem recyclablePrefix_mem : ∀ info ∈ infos.take (recyclablePrefix horizon infos), isReadable info = true ∧ info.lastLsn < horizon := by
  induction infos with
  | nil => exact nofun
  | cons info infos ih =>
    cases infos with
    | nil => exact nofun
    | cons newer infos =>
      unfold recyclablePrefix
      split
      · exact nofun
      · rename_i hread
        split
        · exact nofun
        · rename_i hbelow
          refine forall_mem_cons.mpr ⟨⟨?_, not_le.mp hbelow⟩, ih⟩
          simpa using hread

theorem dropped_prefix_infos (refuses : ℕ → Bool) (horizon : ℕ) (infos : List SegmentInfo) : dropped refuses horizon infos <+: infos :=
  takeWhile_prefix _ |>.trans <| take_prefix _ _

theorem mem_dropped (h : info ∈ dropped refuses horizon infos) :
    isReadable info = true ∧ info.lastLsn < horizon ∧ refuses info.number = false := by
  obtain ⟨hread, hbelow⟩ := recyclablePrefix_mem info ((takeWhile_sublist _).mem h)
  have hreleased := mem_takeWhile_imp h
  exact ⟨hread, hbelow, by simpa using hreleased⟩

theorem dropped_lt (refuses : ℕ → Bool) (horizon : ℕ) (hne : infos ≠ []) : (dropped refuses horizon infos).length < infos.length := by
  refine ((takeWhile_sublist _).length_le.trans ?_).trans_lt ((recyclablePrefix_lt horizon infos).resolve_left hne)
  exact length_take_le _ _

theorem recyclablePrefix_ge {front back : List SegmentInfo} (hback : back ≠ [])
    (h : ∀ info ∈ front, isReadable info = true ∧ info.lastLsn < horizon) : front.length ≤ recyclablePrefix horizon (front ++ back) := by
  induction front with
  | nil => exact Nat.zero_le _
  | cons info front ih =>
    obtain ⟨⟨hread, hbelow⟩, hfront⟩ := forall_mem_cons.mp h
    obtain ⟨newer, infos, hinfos⟩ := exists_cons_of_ne_nil (append_ne_nil_of_right_ne_nil front hback)
    have hle := ih hfront
    rw [hinfos] at hle
    rw [cons_append, hinfos, recyclablePrefix, hread, if_neg (by decide), if_neg (not_le.mpr hbelow)]
    exact Nat.succ_le_succ hle

theorem le_dropped {front back : List SegmentInfo} (hback : back ≠ [])
    (h : ∀ info ∈ front, (isReadable info = true ∧ info.lastLsn < horizon) ∧ refuses info.number = false) :
    front.length ≤ (dropped refuses horizon (front ++ back)).length := by
  have hle := recyclablePrefix_ge hback fun info hinfo => (h info hinfo).1
  obtain ⟨more, hmore⟩ : front <+: (front ++ back).take (recyclablePrefix horizon (front ++ back)) :=
    prefix_of_prefix_length_le (prefix_append _ _) ⟨_, take_append_drop _ _⟩ (by rw [length_take, length_append]; omega)
  rw [dropped, ← hmore, takeWhile_append_of_pos fun info hinfo => by simp [(h info hinfo).2], length_append]
  exact Nat.le_add_right _ _

/-! ## A log without its oldest segments -/

theorem after_of_ne_nil {expected' : Option ℕ} (h : rs ≠ []) : after expected rs = after expected' rs := by
  obtain ⟨r, rs, rfl⟩ := exists_cons_of_ne_nil h
  rfl

theorem after_suffix {rs' : List WalRecord} (h : rs' ≠ []) : after expected (rs ++ rs') = after none rs' := by
  rw [after_append]
  exact after_of_ne_nil h

theorem Run.relax (h : Run keep expected rs) : Run keep none rs := by
  cases h with
  | nil => exact .nil
  | cons hr hkeep _ hrest => exact .cons hr hkeep nofun hrest

theorem Clean.relax (h : Clean keep expected segs groups) : Clean keep none segs groups := by
  induction h with
  | nil => exact .nil
  | @cons expected rs seg segs groups hdata hsize hrun hrest ih =>
    refine .cons hdata hsize hrun.relax ?_
    by_cases hrs : rs = []
    · subst hrs
      exact ih
    · rw [after_of_ne_nil hrs]
      exact hrest

theorem Clean.drop (h : Clean keep none segs groups) (n : ℕ) : Clean keep none (segs.drop n) (groups.drop n) := by
  induction n generalizing segs groups with
  | zero => exact h
  | succ n ih =>
    cases h with
    | nil => exact .nil
    | cons _ _ _ hrest => exact ih hrest.relax

theorem CutAt.drop (h : CutAt keep none before groups cut rs tail) (n : ℕ) : CutAt keep none (before.drop n) (groups.drop n) cut rs tail := by
  refine ⟨h.before.drop n, h.data, h.size, ?_, h.nonempty, ?_⟩
  · by_cases hnil : (groups.drop n).flatten = []
    · rw [hnil]
      exact h.run.relax
    · have hrun := h.run
      rw [← take_append_drop n groups, flatten_append, after_suffix hnil] at hrun
      exact hrun
  · have hstuck := h.stuck
    rw [after_suffix h.nonempty] at hstuck ⊢
    exact hstuck

theorem cleanItems_drop (segs : Directory) (groups : List (List WalRecord)) (n : ℕ) :
    cleanItems (segs.drop n) (groups.drop n) <:+ cleanItems segs groups := by
  induction n generalizing segs groups with
  | zero => exact suffix_refl _
  | succ n ih =>
    match segs, groups with
    | [], [] => exact suffix_refl _
    | [], _ :: _ => exact nil_suffix
    | _ :: _, [] =>
      simp [cleanItems]
    | seg :: segs, rs :: groups => exact (ih segs groups).trans (suffix_append _ _)

theorem CutAt.goodItems (h : CutAt everyRecord none before groups cut rs tail)
    (hend : tail ≠ [] ∨ Stop everyRecord (after none (groups.flatten ++ rs)) later) :
    goodItems (Log.walk none (before ++ cut :: later)).1 = cleanItems before groups ++ recordItems cut.number 0 rs := by
  obtain ⟨items, hwalk, hends⟩ := h.walk hend
  have hrecord : (cleanItems before groups ++ recordItems cut.number 0 rs).map ScanItem.record? = (groups.flatten ++ rs).map some := by
    rw [map_append, h.before.record?_items, record?_recordItems, map_append]
  have hwanted : ∀ item ∈ cleanItems before groups ++ recordItems cut.number 0 rs, item.wanted everyRecord = true :=
    wanted_of_record? hrecord fun _ _ => rfl
  rw [Log.goodItems, hwalk, ← append_assoc, takeWhile_ends hwanted hends]

theorem Stop.goodItems (h : Stop everyRecord none segs) : goodItems (walk none segs).1 = [] := by
  have hwanted : ∀ item ∈ ([] : List ScanItem), item.wanted everyRecord = true := nofun
  exact takeWhile_ends hwanted h.ends

theorem filter_oldest (h : Ordered segs) (n : ℕ) :
    (segs.filter fun seg => decide (seg.number ∉ (segs.take n).map Segment.number)) = segs.drop n := by
  obtain ⟨front, back, hfront, hback⟩ : ∃ front back, segs.take n = front ∧ segs.drop n = back := ⟨_, _, rfl, rfl⟩
  have hsplit : segs = front ++ back := by rw [← hfront, ← hback, take_append_drop]
  obtain ⟨-, -, hcross⟩ := pairwise_append.mp (hsplit ▸ h)
  rw [hfront, hback, hsplit, filter_append]
  have hgo : (front.filter fun seg => decide (seg.number ∉ front.map Segment.number)) = [] := by
    apply filter_eq_nil_iff.mpr
    intro seg hseg hdec
    exact of_decide_eq_true hdec (mem_map_of_mem hseg)
  have hstay : (back.filter fun seg => decide (seg.number ∉ front.map Segment.number)) = back := by
    apply filter_eq_self.mpr
    intro seg hseg
    apply decide_eq_true
    intro hmem
    obtain ⟨x, hx, heq⟩ := mem_map.mp hmem
    exact (hcross x hx seg hseg).ne heq
  rw [hgo, hstay, nil_append]

/-! ## What recycling promises -/

/-- What went is below the horizon, the newest segment stays, and what reads is the end of what read before. -/
structure Recycles (horizon : ℕ) (d d' : Directory) : Prop where
  below : ∀ seg ∈ d, seg ∉ d' → ∀ offset r, ScanItem.record seg.number offset r ∈ (walk none d).1 → r.lsn < horizon
  read : ∀ seg ∈ d, seg ∉ d' → ∃ offset r, ScanItem.record seg.number offset r ∈ goodItems (walk none d).1
  newest : (live d').getLast? = (live d).getLast?
  contiguous : Run everyRecord none (readable everyRecord d')
  suffix : goodItems (walk none d').1 <:+ goodItems (walk none d).1
  last : (goodItems (walk none d').1).getLast? = (goodItems (walk none d).1).getLast?

/-- The last record readable in sequence is at or above the horizon or lies in the newest segment, or the platform keeps
its segment or an older one. -/
def Spares (refuses : ℕ → Bool) (horizon : ℕ) (d : Directory) : Prop :=
  ∀ segment offset r, (goodItems (walk none d).1).getLast? = some (.record segment offset r) →
    horizon ≤ r.lsn ∨ (live d).getLast?.map Segment.number = some segment ∨
      ∃ older ∈ live d, older.number ≤ segment ∧ refuses older.number = true

theorem recycle_ok {ix ix' : TailIndex} (h : recycle refuses horizon ix d = .ok (ix', d')) :
    d' = d.filter fun seg => decide (seg.number ∉ (dropped refuses horizon ix.segments).map SegmentInfo.number) := by
  unfold recycle at h
  split at h
  · cases h
  · exact (Prod.mk.inj (Except.ok.inj h)).2.symm

theorem map_number_infos (good : List ScanItem) (segs : Directory) : (segs.map (infoOf unread good)).map SegmentInfo.number = segs.map Segment.number := by
  rw [map_map]
  apply map_congr_left
  intro seg _
  exact (infoOf_unread good seg).1

theorem dropped_take (refuses : ℕ → Bool) (horizon : ℕ) (good : List ScanItem) (segs : Directory) :
    (dropped refuses horizon (segs.map (infoOf unread good))).map SegmentInfo.number =
      (segs.take (dropped refuses horizon (segs.map (infoOf unread good))).length).map Segment.number := by
  have hfirsts := prefix_iff_eq_take.mp (dropped_prefix_infos refuses horizon (segs.map (infoOf unread good)))
  conv_lhs => rw [hfirsts]
  rw [← map_take, map_number_infos]

theorem infoOf_zero {good : List ScanItem} (h : ∀ item ∈ good, item.segment ≠ seg.number) : (infoOf unread good seg).recordCount = 0 := by
  rw [(infoOf_unread good seg).2.1, recordsIn_of_ne h]
  rfl

end Grafx.Log
