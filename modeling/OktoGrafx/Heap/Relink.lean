import OktoGrafx.Heap.Release

/-! The second pass of a vacuum: selected versions leave their slots, and every version that stays
is linked to the next one behind it that stays as well. -/

namespace Grafx.Heap

open List

def relinked (sel : List (ℕ × StoredVersion)) (t : ℕ) (v : StoredVersion) : StoredVersion :=
  { v with
    header := { v.header with
      previous := (relinkFrom sel t v.header.recordId v.ref (sel.length + 1) [] v.header.previous).toOption.join } }

def stays (sel : List (ℕ × StoredVersion)) (v : StoredVersion) : Bool := !isChosen sel v.ref

variable {s : HeapStore} {horizon t : ℕ} {ts : List ℕ} {sel : List (ℕ × StoredVersion)}

section Links
variable (hs : Wf s) (h : Chosen s horizon ts sel)
include hs h

theorem relinkFrom_eq {recordId fuel : ℕ} {ref : RecordRef} {start : Option RecordRef} {refs seen : List RecordRef}
    (hlinked : Linked (previousAt s.pages) start refs)
    (hrows : ∀ x ∈ refs, ∃ o ∈ rowsOf s.pages t, o.ref = x ∧ o.header.recordId = recordId)
    (hseen : ∀ x ∈ refs, x ∉ seen) (hfuel : (refs.takeWhile (isChosen sel)).length < fuel) :
    relinkFrom sel t recordId ref fuel seen start = .ok (refs.find? fun x => !isChosen sel x) := by
  induction refs generalizing fuel start seen with
  | nil =>
    cases start with
    | none => rw [relinkFrom]; rfl
    | some _ => exact hlinked.elim
  | cons x rest ih =>
    obtain ⟨rfl, hrest⟩ := Linked.cons_iff.mp hlinked
    cases fuel with
    | zero => exact absurd hfuel (Nat.not_lt_zero _)
    | succ fuel =>
      rw [relinkFrom]
      cases hcandidate : candidateAt sel x with
      | none =>
        have hstays : isChosen sel x = false := by rw [isChosen, hcandidate]; rfl
        rw [find?_cons_of_pos (by simp [hstays])]
      | some y =>
        obtain ⟨o, ho, rfl, hid⟩ := hrows x mem_cons_self
        obtain ⟨v, hv, rfl⟩ := (mem_rowsOf hs).mp ho
        obtain rfl := h.candidate_eq hv hcandidate
        have hchosen : isChosen sel (rowOf s.pages v).ref = true := by rw [isChosen, hcandidate]; rfl
        rw [previousAt_row hs ho] at hrest
        rw [takeWhile_cons_of_pos hchosen, length_cons] at hfuel
        have hsame : ¬ (t ≠ t ∨ v.header.recordId ≠ recordId) := by
          rintro (hne | hne)
          · exact hne rfl
          · exact hne hid
        dsimp only
        rw [if_neg (hseen _ mem_cons_self), if_neg hsame, find?_cons_of_neg (by simp [hchosen])]
        exact ih hrest (forall_mem_cons.mp hrows).2 (hlinked.unseen hseen) (Nat.lt_of_succ_lt_succ hfuel)

theorem relinked_previous (hc : Chained (rowsOf s.pages t)) {v : StoredVersion} (hv : Stored s.pages t v) :
    ∃ refs, Linked (previousAt s.pages) v.header.previous refs ∧
      (∀ x ∈ refs, ∃ o ∈ rowsOf s.pages t, o.ref = x ∧ o.header.recordId = v.header.recordId) ∧
      relinkFrom sel t v.header.recordId v.ref (sel.length + 1) [] v.header.previous =
        .ok (refs.find? fun x => !isChosen sel x) := by
  have hrow : rowOf s.pages v ∈ rowsOf s.pages t := (mem_rowsOf hs).mpr ⟨v, hv, rfl⟩
  obtain ⟨refs, hlinked, hrecord⟩ := hc.linked hs hrow
  obtain ⟨rest, rfl, hrest⟩ := Linked.some_iff.mp hlinked
  rw [previousAt_row hs hrow] at hrest
  have hrows : ∀ x ∈ rest, ∃ o ∈ rowsOf s.pages t, o.ref = x ∧ o.header.recordId = v.header.recordId :=
    (forall_mem_cons.mp hrecord).2
  refine ⟨rest, hrest, hrows, relinkFrom_eq hs h hrest hrows (fun _ _ => not_mem_nil) ?_⟩
  -- The selected versions at the head of the chain are different selected versions.
  have hsub : rest.takeWhile (isChosen sel) ⊆ sel.map (·.2.ref) := by
    intro x hx
    have hchosen : isChosen sel x = true := mem_takeWhile_imp hx
    obtain ⟨y, hy⟩ := Option.isSome_iff_exists.mp hchosen
    obtain ⟨hmem, href⟩ := mem_of_candidateAt hy
    exact href ▸ mem_map_of_mem hmem
  have hnodup : (rest.takeWhile (isChosen sel)).Nodup := (takeWhile_sublist _).nodup hrest.nodup
  have hle := (subperm_of_subset hnodup hsub).length_le
  rw [length_map] at hle
  omega

end Links

/-! ## Pages -/

structure VacuumedPage (sel : List (ℕ × StoredVersion)) (t i : ℕ) (p p' : Page Cell) : Prop where
  data : DataPage t p'
  next : p'.nextPage = p.nextPage
  versions : cellVersions i firstRecordSlot p'.slots.tail =
    ((cellVersions i firstRecordSlot p.slots.tail).filter (stays sel)).map (relinked sel t)

section Pages
variable (hs : Wf s) (h : Chosen s horizon ts sel) (hc : Chained (rowsOf s.pages t))
include hs h hc

theorem vacuumCells_eq {index slot : ℕ} {cells : List (Option Cell)} (hcells : ∀ c ∈ cells, IsVersionSlot c)
    (hstored : ∀ v ∈ cellVersions index slot cells, Stored s.pages t v) :
    ∃ cells', vacuumCells sel t index slot cells = .ok cells' ∧ (∀ c ∈ cells', IsVersionSlot c) ∧
      cellVersions index slot cells' = ((cellVersions index slot cells).filter (stays sel)).map (relinked sel t) := by
  induction cells generalizing slot with
  | nil => exact ⟨[], rfl, nofun, rfl⟩
  | cons c rest ih =>
    have hrest : ∀ c ∈ rest, IsVersionSlot c := (forall_mem_cons.mp hcells).2
    match c, hcells c mem_cons_self with
    | none, _ =>
      have hhere : cellVersions index slot (none :: rest) = cellVersions index (slot + 1) rest := rfl
      obtain ⟨cells', hrun, hslots, hversions⟩ := ih hrest hstored
      refine ⟨none :: cells', ?_, forall_mem_cons.mpr ⟨trivial, hslots⟩, hversions⟩
      simp only [vacuumCells, vacuumCell, hrun, bind, Except.bind, pure, Except.pure]
    | some (.record hd body), _ =>
      have hhere : cellVersions index slot (some (.record hd body) :: rest) =
          ⟨⟨index, slot⟩, hd, body⟩ :: cellVersions index (slot + 1) rest := rfl
      rw [hhere] at hstored ⊢
      have hv := hstored _ mem_cons_self
      have hothers : ∀ v ∈ cellVersions index (slot + 1) rest, Stored s.pages t v :=
        (forall_mem_cons.mp hstored).2
      obtain ⟨cells', hrun, hslots, hversions⟩ := ih hrest hothers
      cases hcandidate : candidateAt sel ⟨index, slot⟩ with
      | some x =>
        obtain rfl := h.candidate_eq hv hcandidate
        have hchosen : stays sel ⟨⟨index, slot⟩, hd, body⟩ = false := by simp [stays, isChosen, hcandidate]
        refine ⟨none :: cells', ?_, forall_mem_cons.mpr ⟨trivial, hslots⟩, ?_⟩
        · simp only [vacuumCells, vacuumCell, hcandidate, ne_eq, not_true_eq_false, if_false, hrun, bind, Except.bind, pure,
            Except.pure]
        · rw [filter_cons_of_neg (by simp [hchosen])]
          exact hversions
      | none =>
        have hstays : stays sel ⟨⟨index, slot⟩, hd, body⟩ = true := by simp [stays, isChosen, hcandidate]
        obtain ⟨refs, -, -, hlink⟩ := relinked_previous hs h hc hv
        refine ⟨some (.record (relinked sel t ⟨⟨index, slot⟩, hd, body⟩).header body) :: cells', ?_,
          forall_mem_cons.mpr ⟨trivial, hslots⟩, ?_⟩
        · simp only [vacuumCells, vacuumCell, hcandidate, hlink, Except.map, hrun, bind, Except.bind, pure, Except.pure,
            relinked, Except.toOption, Option.join_some]
        · rw [filter_cons_of_pos hstays, map_cons, ← hversions]
          rfl

theorem vacuumPage_eq {index : ℕ} {p : Page Cell} (hp : s.pages[index]? = some p) (hdata : DataPage t p)
    (hstored : ∀ v ∈ cellVersions index firstRecordSlot p.slots.tail, Stored s.pages t v) :
    ∃ pass, vacuumPage sel t index p = .ok pass ∧ pass.index = index ∧ VacuumedPage sel t index p (pass.image.getD p) ∧
      ∀ x ∈ sel, x.2.ref.page = index → x.2.ref ∈ pass.found := by
  obtain ⟨cells, hrun, hslots, hversions⟩ := vacuumCells_eq hs h hc hdata.tail hstored
  obtain ⟨rest, hcells⟩ := head?_eq_some_iff.mp hdata.head
  have htake : p.slots.take firstRecordSlot ++ cells = some (.descriptor t) :: cells := by rw [hcells]; rfl
  refine ⟨_, by simp only [vacuumPage, hdata.require, hrun, bind, Except.bind, pure, Except.pure]; rfl, rfl, ?_, ?_⟩
  · by_cases hsame : p.slots.take firstRecordSlot ++ cells = p.slots
    · rw [if_pos hsame, Option.getD_none]
      refine ⟨hdata, rfl, ?_⟩
      rw [← hversions, ← hsame, htake, tail_cons]
    · rw [if_neg hsame, Option.getD_some, htake]
      exact ⟨⟨hdata.type, rfl, hslots⟩, rfl, hversions⟩
  · intro x hx hpage
    obtain ⟨-, -, -, xs, -, hmem⟩ := h.stored x hx
    obtain ⟨-, q, hq, -, hcell⟩ := mem_versionsOn.mp hmem
    rw [hpage, hp] at hq
    cases hq
    refine mem_filter.mpr ⟨mem_map_of_mem hx, ?_⟩
    rw [hcell, hpage, beq_self_eq_true]
    rfl

end Pages

end Grafx.Heap
