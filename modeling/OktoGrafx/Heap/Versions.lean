import OktoGrafx.Heap.Mutations
import OktoGrafx.Heap.Vacuum

/-! Version chains: every version points back to an earlier one of its record, so the chain of a
version ends, and a walk along it returns it. -/

namespace Grafx.Heap

open List

variable {rows : List Row}

def Chained (rows : List Row) : Prop :=
  ∀ pre r post, rows = pre ++ r :: post → ∀ ref, r.header.previous = some ref →
    ∃ o ∈ pre, o.ref = ref ∧ o.header.recordId = r.header.recordId

structure SameLink (r r' : Row) : Prop where
  ref : r'.ref = r.ref
  previous : r'.header.previous = r.header.previous
  recordId : r'.header.recordId = r.header.recordId

theorem Chained.of_links {rows' : List Row} (h : Chained rows) (hsame : List.Forall₂ SameLink rows rows') : Chained rows' := by
  rintro pre' r' post' rfl ref href
  have hpre := forall₂_take_append rows pre' (r' :: post') hsame
  have hrest := forall₂_drop_append rows pre' (r' :: post') hsame
  match hdrop : rows.drop pre'.length, hrest with
  | r :: post, .cons hr _ =>
    rw [hr.previous] at href
    have hsplit := (take_append_drop pre'.length rows).symm
    rw [hdrop] at hsplit
    obtain ⟨o, ho, horef, hid⟩ := h _ r post hsplit ref href
    obtain ⟨i, hi⟩ := getElem?_of_mem ho
    obtain ⟨o', ho', hlink⟩ := Pointwise.exists_getElem? hpre hi
    exact ⟨o', mem_of_getElem? ho', hlink.ref.trans horef, hlink.recordId.trans (hid.trans hr.recordId.symm)⟩

theorem Chained.append {new : List Row} (h : Chained rows) (hnew : ∀ r ∈ new, ∀ ref, r.header.previous = some ref →
      ∃ o ∈ rows, o.ref = ref ∧ o.header.recordId = r.header.recordId) : Chained (rows ++ new) := by
  intro pre r post heq ref href
  rcases append_eq_append_iff.mp heq with ⟨mid, rfl, hmid⟩ | ⟨mid, rfl, hmid⟩
  · obtain ⟨o, ho, hrest⟩ := hnew r (by rw [hmid]; simp) ref href
    exact ⟨o, mem_append_left _ ho, hrest⟩
  · cases mid with
    | nil =>
      rw [nil_append] at hmid
      obtain ⟨o, ho, hrest⟩ := hnew r (hmid ▸ mem_cons_self) ref href
      exact ⟨o, by simpa using ho, hrest⟩
    | cons r' mid =>
      obtain ⟨rfl, -⟩ := cons.inj hmid
      exact h pre r mid rfl ref href

/-! ## Chains on the pages -/

def headerAt (pages : List (Page Cell)) (ref : RecordRef) : Option RecordHeader :=
  match pages[ref.page]?.bind (·.slots[ref.slot]?) with
  | some (some (.record h _)) => some h
  | _ => none

def previousAt (pages : List (Page Cell)) (ref : RecordRef) : Option RecordRef := (headerAt pages ref).bind (·.previous)

variable {s : HeapStore} {t fuel : ℕ} {r : Row} {pages : List (Page Cell)} {refs seen : List RecordRef} {start : Option RecordRef}

section
variable (hs : Wf s)
include hs

theorem headerAt_row (hr : r ∈ rowsOf s.pages t) : headerAt s.pages r.ref = some r.header := by
  obtain ⟨v, ⟨-, -, -, xs, -, hmem⟩, rfl⟩ := (mem_rowsOf hs).mp hr
  obtain ⟨-, p, hp, -, hcell⟩ := mem_versionsOn.mp hmem
  have href : (rowOf s.pages v).ref = v.ref := rfl
  simp only [headerAt, href, hp, Option.bind_some, hcell]
  rfl

theorem previousAt_row (hr : r ∈ rowsOf s.pages t) : previousAt s.pages r.ref = r.header.previous := by
  rw [previousAt, headerAt_row hs hr, Option.bind_some]

theorem Chained.linked_before (hc : Chained (rowsOf s.pages t)) {pre post : List Row} (hrows : rowsOf s.pages t = pre ++ r :: post) :
    ∃ refs, Linked (previousAt s.pages) r.header.previous refs ∧
      ∀ ref ∈ refs, ∃ o ∈ pre, o.ref = ref ∧ o.header.recordId = r.header.recordId := by
  induction hn : pre.length using Nat.strongRecOn generalizing pre r post with
  | ind n ih =>
    cases hprev : r.header.previous with
    | none => exact ⟨[], trivial, nofun⟩
    | some ref =>
      obtain ⟨o, ho, rfl, hid⟩ := hc pre r post hrows ref hprev
      obtain ⟨pre', post', rfl⟩ := append_of_mem ho
      have hrows' : rowsOf s.pages t = pre' ++ o :: (post' ++ r :: post) := by
        rw [hrows, append_assoc, cons_append]
      have ho' : o ∈ rowsOf s.pages t := by
        rw [hrows']
        exact mem_append_right _ mem_cons_self
      have hlt : pre'.length < n := by
        rw [← hn, length_append, length_cons]
        omega
      obtain ⟨refs, hlinked, hbefore⟩ := ih pre'.length hlt hrows' rfl
      refine ⟨o.ref :: refs, ⟨rfl, ?_⟩, ?_⟩
      · rw [previousAt_row hs ho']
        exact hlinked
      · intro ref href
        rcases mem_cons.mp href with rfl | href
        · exact ⟨o, ho, rfl, hid⟩
        · obtain ⟨o', ho', href', hid'⟩ := hbefore ref href
          exact ⟨o', mem_append_left _ ho', href', hid'.trans hid⟩

theorem Chained.linked (hc : Chained (rowsOf s.pages t)) (hr : r ∈ rowsOf s.pages t) : ∃ refs, Linked (previousAt s.pages) (some r.ref) refs ∧
      ∀ ref ∈ refs, ∃ o ∈ rowsOf s.pages t, o.ref = ref ∧ o.header.recordId = r.header.recordId := by
  obtain ⟨pre, post, hrows⟩ := append_of_mem hr
  obtain ⟨refs, hlinked, hbefore⟩ := hc.linked_before hs hrows
  refine ⟨r.ref :: refs, ⟨rfl, ?_⟩, ?_⟩
  · rw [previousAt_row hs hr]
    exact hlinked
  · intro ref href
    rcases mem_cons.mp href with rfl | href
    · exact ⟨r, hr, rfl, rfl⟩
    · obtain ⟨o, ho, horef, hid⟩ := hbefore ref href
      exact ⟨o, hrows ▸ mem_append_left _ ho, horef, hid⟩

theorem readSlot_row (hr : r ∈ rowsOf s.pages t) : ∃ body, readSlot s.pages r.ref = .ok (t, r.header, body) := by
  obtain ⟨v, hv, rfl⟩ := (mem_rowsOf hs).mp hr
  exact ⟨v.body, readSlot_eq hs hv⟩

theorem versionChainFrom_eq (hlinked : Linked (previousAt s.pages) start refs) (hrows : ∀ ref ∈ refs, ∃ o ∈ rowsOf s.pages t, o.ref = ref)
    (hseen : ∀ ref ∈ refs, ref ∉ seen) (hfuel : refs.length ≤ fuel) :
    versionChainFrom s.pages fuel seen start = .ok refs := by
  induction refs generalizing fuel seen start with
  | nil =>
    cases start with
    | none => rw [versionChainFrom]
    | some _ => exact hlinked.elim
  | cons ref rest ih =>
    obtain ⟨rfl, hrest⟩ := Linked.cons_iff.mp hlinked
    cases fuel with
    | zero => exact absurd hfuel (Nat.not_succ_le_zero _)
    | succ fuel =>
      obtain ⟨o, ho, rfl⟩ := hrows ref mem_cons_self
      obtain ⟨body, hread⟩ := readSlot_row hs ho
      rw [previousAt_row hs ho] at hrest
      have htail := ih hrest (forall_mem_cons.mp hrows).2 (hlinked.unseen hseen)
        (Nat.le_of_succ_le_succ hfuel)
      rw [versionChainFrom, if_neg (hseen _ mem_cons_self), hread]
      simp only [htail, Except.map]

end

theorem readSlot_header {ref : RecordRef} {owner : ℕ} {h : RecordHeader} {body : RecordBody}
    (hread : readSlot pages ref = .ok (owner, h, body)) : headerAt pages ref = some h := by
  unfold readSlot at hread
  split_ifs at hread
  cases hp : pages[ref.page]? with
  | none => simp [hp] at hread
  | some p =>
    simp only [hp, bind, Except.bind] at hread
    cases hdata : requireDataPage ref.page p with
    | error e => simp [hdata] at hread
    | ok _ =>
      cases hid : pageTableId ref.page p with
      | error e => simp [hdata, hid] at hread
      | ok id =>
        simp only [hdata, hid, requireThat] at hread
        by_cases hslot : firstRecordSlot ≤ ref.slot
        · simp only [if_pos hslot] at hread
          split at hread
          next h' body' hcell =>
            obtain ⟨-, rfl, -⟩ := hread
            simp [headerAt, hp, hcell]
          all_goals simp [throw, throwThe, MonadExceptOf.throw] at hread
        · simp [if_neg hslot] at hread

theorem versionChainFrom_linked (h : versionChainFrom pages fuel seen start = .ok refs) :
    Linked (previousAt pages) start refs ∧ refs.length ≤ fuel := by
  induction fuel generalizing seen start refs with
  | zero =>
    cases start with
    | none =>
      rw [versionChainFrom, Except.ok.injEq] at h
      exact h ▸ ⟨trivial, le_rfl⟩
    | some ref => exact nomatch h
  | succ fuel ih =>
    cases start with
    | none =>
      rw [versionChainFrom, Except.ok.injEq] at h
      exact h ▸ ⟨trivial, Nat.zero_le _⟩
    | some ref =>
      rw [versionChainFrom] at h
      split_ifs at h
      match hread : readSlot pages ref with
      | .error e => simp [hread] at h
      | .ok (owner, hd, body) =>
        simp only [hread] at h
        cases hrest : versionChainFrom pages fuel (ref :: seen) hd.previous with
        | error e => simp [hrest, Except.map] at h
        | ok rest =>
          simp only [hrest, Except.map, Except.ok.injEq] at h
          obtain ⟨hlinked, hlength⟩ := ih hrest
          rw [← h]
          refine ⟨⟨rfl, ?_⟩, Nat.succ_le_succ hlength⟩
          rw [previousAt, readSlot_header hread]
          exact hlinked

end Grafx.Heap
