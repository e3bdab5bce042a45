import OktoGrafx.Lib.MultiVersion
import OktoGrafx.Txn.Attempt

/-! Lifetimes of rows, and abandoned attempts. Neither the provisional stamps of an attempt nor the
restamping that takes them back changes when any row lives. -/

namespace Grafx.Txn
open Heap Fallible MultiVersion

variable {r r' : Row}

def lifetime (r : Row) : Version ℕ RowValue where
  key := r.header.recordId
  value := rowValue r
  born := if isCommittedCsn r.header.xmin then some r.header.xmin else none
  died := if isOpenEndCsn r.header.xmax then none else some r.header.xmax

theorem visibleTo_iff (snapshot : Snapshot) (r : Row) :
    r.visibleTo snapshot = true ↔ AliveAt snapshot.readLsn (lifetime r) := by
  simp only [Row.visibleTo, Snapshot.visible, AliveAt, lifetime, Bool.and_eq_true, Bool.or_eq_true, decide_eq_true_eq]
  cases isCommittedCsn r.header.xmin <;> cases isOpenEndCsn r.header.xmax <;> simp

structure SameFate (r r' : Row) : Prop where
  ref : r'.ref = r.ref
  previous : r'.header.previous = r.header.previous
  lifetime : lifetime r' = lifetime r

theorem SameFate.refl (r : Row) : SameFate r r := ⟨rfl, rfl, rfl⟩

theorem SameFate.trans {r'' : Row} (h : SameFate r r') (h' : SameFate r' r'') : SameFate r r'' :=
  ⟨h'.ref.trans h.ref, h'.previous.trans h.previous, h'.lifetime.trans h.lifetime⟩

structure Idle (s s' : HeapStore) : Prop extends Advances s s' where
  rows : ∀ t, List.Forall₂ SameFate (rowsOf s.pages t) (rowsOf s'.pages t)

section Idle
variable {s s' s'' : HeapStore}

theorem forall₂_map {rows : List Row} {f : Row → Row} {R : Row → Row → Prop} (h : ∀ r ∈ rows, R r (f r)) :
    List.Forall₂ R rows (rows.map f) := by
  rw [List.forall₂_map_right_iff]
  exact List.forall₂_same.mpr h

theorem Idle.refl (hs : Wf s) : Idle s s :=
  ⟨⟨hs, rfl, rfl, .refl s.pages⟩, fun _ => List.forall₂_same.mpr fun r _ => SameFate.refl r⟩

theorem Idle.trans (h : Idle s s') (h' : Idle s' s'') : Idle s s'' := by
  refine ⟨h.toAdvances.trans h'.toAdvances, fun t => ?_⟩
  have hflip : List.Forall₂ (flip SameFate) (rowsOf s'.pages t) (rowsOf s.pages t) := (h.rows t).flip
  exact Pointwise.forall₂_of_common hflip (h'.rows t) fun _ _ r r'' hr hr'' => SameFate.trans hr hr''

theorem Idle.of_quiet (hs : Wf s) (h : Quiet s s') : Idle s s' := by
  refine ⟨h.advances hs, fun t => ?_⟩
  rw [h.rowsOf hs]
  exact List.forall₂_same.mpr fun r _ => SameFate.refl r

theorem Idle.mem (h : Idle s s') {t : ℕ} (hr : r ∈ rowsOf s.pages t) : ∃ r' ∈ rowsOf s'.pages t, SameFate r r' := by
  obtain ⟨i, hi⟩ := List.getElem?_of_mem hr
  obtain ⟨r', hr', hsame⟩ := Pointwise.exists_getElem? (h.rows t) hi
  exact ⟨r', List.mem_of_getElem? hr', hsame⟩

theorem Changed.idle {t : ℕ} {o : Row} (ho : o ∈ rowsOf s.pages t) (hs : Wf s) {f : RecordHeader → RecordHeader}
    (hfate : SameFate o (o.mapHeader (headAt o.ref f)))
    (h : Changed s s' (rowsWith s t ((rowsOf s.pages t).map (Row.mapHeader (headAt o.ref f))))) : Idle s s' := by
  refine ⟨h.toAdvances, fun t' => ?_⟩
  rw [h.rowsOf, rowsWith]
  split_ifs with ht
  · rw [ht]
    refine forall₂_map fun r hr => ?_
    by_cases href : r.ref = o.ref
    · rw [(row_unique hs hr ho href).2]
      exact hfate
    · rw [Row.mapHeader_of_ne href]
      exact SameFate.refl r
  · exact List.forall₂_same.mpr fun r _ => SameFate.refl r

end Idle

/-! ## Restamping -/

section Restamp
variable {s s' : HeapStore} {t : ℕ} {o : Row} {item : RowWrite}

theorem restamp_ensures (hs : Wf s) (ho : o ∈ rowsOf s.pages t) {xmin xmax : Option ℕ} {live : Bool}
    (hfate : SameFate o (o.mapHeader (headAt o.ref (restampHeader xmin xmax live)))) :
    (restamp o.ref xmin xmax live).Ensures s (fun _ s' => Idle s s') (fun s' => s' = s) := by
  refine ensures_bind (pin_ensures (fun p hp => bind_read ?_) rfl)
  obtain ⟨v, hv, hrow⟩ := (mem_rowsOf hs).mp ho
  have href : v.ref = o.ref := by rw [← hrow]; rfl
  rw [← href] at hp hfate ⊢
  have hcell : p.slots[v.ref.slot]? = some (some (.record v.header v.body)) := by
    obtain ⟨-, -, -, xs, -, hmem⟩ := hv
    obtain ⟨-, q, hq, -, hcell⟩ := mem_versionsOn.mp hmem
    rwa [Option.some.inj (hp.symm.trans hq)]
  obtain ⟨p', hset, -⟩ := setSlot_reheaded hv hp (restampHeader xmin xmax live)
  simp only [hcell, hset]
  have hkeeps : ∀ h, (restampHeader xmin xmax live h).payloadLen = h.payloadLen ∧
      (restampHeader xmin xmax live h).flags.hasOverflow = h.flags.hasOverflow := fun _ => ⟨rfl, rfl⟩
  have hchanged := headed_changed hs hv hp hkeeps hset
  rw [href] at hchanged hfate
  have hidle := Changed.idle ho hs hfate hchanged
  rw [← href] at hidle
  exact setPage_ensures hidle

theorem unborn_fate (hunborn : isCommittedCsn o.header.xmin = false) :
    SameFate o (o.mapHeader (headAt o.ref (restampHeader (some noCsn) none false))) := by
  have hzero : isCommittedCsn noCsn = false := by decide
  refine ⟨rfl, ?_, ?_⟩
  · simp [Row.mapHeader, headAt, restampHeader]
  · simp [lifetime, rowValue, Row.mapHeader, headAt, restampHeader, hunborn, hzero]

theorem open_fate (hopen : isOpenEndCsn o.header.xmax = true) :
    SameFate o (o.mapHeader (headAt o.ref (restampHeader none (some noCsn) true))) := by
  have hzero : isOpenEndCsn noCsn = true := by decide
  refine ⟨rfl, ?_, ?_⟩
  · simp [Row.mapHeader, headAt, restampHeader]
  · simp [lifetime, rowValue, Row.mapHeader, headAt, restampHeader, hopen, hzero]

theorem lifetime_unborn (h : lifetime r' = lifetime r) (hunborn : isCommittedCsn r.header.xmin = false) : isCommittedCsn r'.header.xmin = false := by
  have hborn := congrArg Version.born h
  simp only [lifetime, hunborn] at hborn
  by_contra hcommitted
  simp [Bool.not_eq_false _ |>.mp hcommitted] at hborn

theorem lifetime_open (h : lifetime r' = lifetime r) (hopen : isOpenEndCsn r.header.xmax = true) : isOpenEndCsn r'.header.xmax = true := by
  have hdied := congrArg Version.died h
  simp only [lifetime, hopen] at hdied
  by_contra hended
  simp [Bool.eq_false_iff.mpr hended] at hdied

def Revocable (s : HeapStore) (item : RowWrite) : Prop :=
  (∀ ref, item.born = some ref → ∃ t, ∃ r ∈ rowsOf s.pages t, r.ref = ref ∧ isCommittedCsn r.header.xmin = false) ∧
  ∀ ref, item.ended = some ref → ∃ t, ∃ r ∈ rowsOf s.pages t, r.ref = ref ∧ isOpenEndCsn r.header.xmax = true

theorem Revocable.of_idle (h : Revocable s item) (hidle : Idle s s') : Revocable s' item := by
  refine ⟨fun ref href => ?_, fun ref href => ?_⟩
  · obtain ⟨t, r, hr, rfl, hunborn⟩ := h.1 ref href
    obtain ⟨r', hr', hsame⟩ := hidle.mem hr
    exact ⟨t, r', hr', hsame.ref, lifetime_unborn hsame.lifetime hunborn⟩
  · obtain ⟨t, r, hr, rfl, hopen⟩ := h.2 ref href
    obtain ⟨r', hr', hsame⟩ := hidle.mem hr
    exact ⟨t, r', hr', hsame.ref, lifetime_open hsame.lifetime hopen⟩

theorem abandonRow_ensures (hs : Wf s) (h : Revocable s item) : (abandonRow item).Ensures s (fun _ s' => Idle s s') (Idle s) := by
  have hbirth : (item.born.elim (pure ()) fun ref => restamp ref (some noCsn) none false : HeapM Unit).Ensures s
      (fun _ s' => Idle s s') (Idle s) := by
    cases hborn : item.born with
    | none => exact ensures_pure (Idle.refl hs)
    | some ref =>
      obtain ⟨t, r, hr, rfl, hunborn⟩ := h.1 ref hborn
      exact (restamp_ensures hs hr (unborn_fate hunborn)).mono (fun _ _ hidle => hidle) fun s' hs' => by rw [hs']; exact Idle.refl hs
  refine hbirth.bind fun _ s' hidle => ?_
  cases hended : item.ended with
  | none => exact ensures_pure hidle
  | some ref =>
    obtain ⟨t, r, hr, rfl, hopen⟩ := (h.of_idle hidle).2 ref hended
    exact (restamp_ensures hidle.wf hr (open_fate hopen)).mono (fun _ _ hidle' => hidle.trans hidle')
      fun s'' hs'' => by rw [hs'']; exact hidle

theorem abandonRows_idle {written : List RowWrite} (hs : Wf s) (h : ∀ item ∈ written, Revocable s item)
    (script : List Bool) : Idle s (abandonRows written script s).1 := by
  induction written generalizing s script with
  | nil => exact Idle.refl hs
  | cons item rest ih =>
    have hitem := abandonRow_ensures hs (h item List.mem_cons_self) script
    have hstep : ∀ r s' script', abandonRow item script s = (r, s', script') → Idle s s' := by
      intro r s' script' hrun
      rw [hrun] at hitem
      cases r with
      | ok _ => exact hitem
      | error _ => exact hitem
    rw [abandonRows]
    match hrun : abandonRow item script s with
    | (r, s', script') =>
      have hidle := hstep r s' script' hrun
      exact hidle.trans (ih hidle.wf (fun x hx => (h x (List.mem_cons_of_mem item hx)).of_idle hidle) script')

end Restamp

/-! ## Taking pages back -/

theorem entriesOf_append {pages : List (Page Cell)} (h : HeaderPage pages) (more : List (Page Cell)) :
    entriesOf (pages ++ more) = entriesOf pages ∧ HeaderPage (pages ++ more) := by
  obtain ⟨p, floor, hp, htype, hslots⟩ := h
  have hlength := (getElem?_eq_some_iff.mp hp).1
  have hsame : (pages ++ more)[headerPageIndex]? = pages[headerPageIndex]? := List.getElem?_append_left hlength
  have hentries : entriesOf (pages ++ more) = entriesOf pages := by rw [entriesOf, entriesOf, hsame]
  exact ⟨hentries, p, floor, hsame.trans hp, htype, hentries ▸ hslots⟩

theorem undoPages_cases {base s : HeapStore} (hbase : Wf base) (hs : Wf s) (hsize : s.pageSize = base.pageSize)
    (hlabels : s.labelLength = base.labelLength) (escaped : Bool) :
    undoPages base escaped s = s ∨ Idle base (undoPages base escaped s) := by
  unfold undoPages
  split_ifs with hkeep
  · exact .inl rfl
  right
  obtain ⟨hentries, hheader⟩ := entriesOf_append hbase.header
    (List.replicate (s.pages.length - base.pages.length) (Page.empty .free))
  refine Idle.of_quiet hbase ⟨⟨fun i p hp _ => ?_, hheader, hentries.symm ▸ hbase.distinct, fun e he => ?_,
    fun e he => ?_⟩, hsize, hlabels, fun _ tableId hint hhint => ?_⟩
  · rwa [List.getElem?_append_left (getElem?_eq_some_iff.mp hp).1]
  · exact ⟨e, hentries.symm ▸ he, rfl, rfl, le_rfl⟩
  · exact .inl ⟨e, hentries ▸ he, rfl, rfl⟩
  · -- Every hint is older than the epoch that dropping the pages has started.
    have hold := (hs.cache tableId hint hhint).1
    exact ⟨Nat.le_succ_of_le hold, fun heq => absurd hold (not_le.mpr (Nat.lt_of_succ_le heq.symm.le))⟩

end Grafx.Txn
