import OktoGrafx.Heap.Vacuumed

/-! What a vacuum leaves to readers: every chain of versions without the reclaimed ones, every scan
at or above the horizon, and the same versions however the work is cut into passes. -/

namespace Grafx.Heap

open List

variable {r : Row} {t : ℕ} {s : HeapStore} {catalog : CatalogTables} {request : VacuumRequest} {plan : VacuumPlan}
  {sel : List (ℕ × StoredVersion)}

section Pass
variable (hs : Wf s) (hc : ∀ t, Chained (Heap.rowsOf s.pages t)) (h : Plans s request sel plan) {refs : List RecordRef} {snapshot : Snapshot}
include hs hc h

/-! ## Chains -/

theorem Plans.previous_eq (hr : r ∈ Heap.rowsOf s.pages t) (hlinked : Linked (previousAt s.pages) r.header.previous refs) :
    (relinkedRow sel t r).header.previous = refs.find? fun x => !isChosen sel x := by
  obtain ⟨v, hv, rfl⟩ := (Heap.mem_rowsOf hs).mp hr
  obtain ⟨refs', hlinked', -, hlink⟩ := relinked_previous hs h.chosen (hc t) hv
  have hsame := hlinked.unique hlinked'
  have hprevious : (relinkedRow sel t (rowOf s.pages v)).header.previous =
      (relinkFrom sel t v.header.recordId v.ref (sel.length + 1) [] v.header.previous).toOption.join := rfl
  rw [hprevious, hlink, hsame]
  rfl

theorem Plans.wf : Wf (applyPlan plan s) := (h.rewritten hs hc).wf hs

theorem Plans.mem_rowsOf (hr : r ∈ Heap.rowsOf s.pages t) (hstays : isChosen sel r.ref = false) :
    relinkedRow sel t r ∈ Heap.rowsOf (applyPlan plan s).pages t := by
  rw [h.rowsOf hs hc]
  exact mem_map_of_mem (mem_filter.mpr ⟨hr, by simp [hstays]⟩)

theorem Plans.chained (t : ℕ) : Chained (Heap.rowsOf (applyPlan plan s).pages t) := by
  intro pre' r' post' heq ref href
  rw [h.rowsOf hs hc] at heq
  obtain ⟨pre, rest, hsplit, rfl, hrest⟩ := map_eq_append_iff.mp heq
  obtain ⟨r, post, rfl, rfl, -⟩ := map_eq_cons_iff.mp hrest
  -- Where the row stood before, and what was behind it.
  obtain ⟨front, back, hrows, hpre, hback⟩ := filter_eq_append_iff.mp hsplit
  obtain ⟨skipped, back', hback', hskipped, hkept, -⟩ := filter_eq_cons_iff.mp hback
  have hrows' : Heap.rowsOf s.pages t = (front ++ skipped) ++ r :: back' := by
    rw [hrows, hback', append_assoc]
  obtain ⟨refs, hlinked, hbefore⟩ := (hc t).linked_before hs hrows'
  have hr : r ∈ Heap.rowsOf s.pages t := by
    rw [hrows']
    exact mem_append_right _ mem_cons_self
  rw [h.previous_eq hs hc hr hlinked] at href
  obtain ⟨o, ho, rfl, hid⟩ := hbefore ref (mem_of_find?_eq_some href)
  have hstays : isChosen sel o.ref = false := by simpa using List.find?_some href
  refine ⟨relinkedRow sel t o, mem_map_of_mem ?_, rfl, hid⟩
  rw [← hpre]
  refine mem_filter.mpr ⟨(mem_append.mp ho).resolve_right fun hmem => ?_, by simp [hstays]⟩
  exact hskipped o hmem (by simp [hstays])

theorem Plans.versionChain (hr : r ∈ Heap.rowsOf s.pages t) (hstays : isChosen sel r.ref = false) (hchain : Heap.versionChain s r.ref = .ok refs) :
    Heap.versionChain (applyPlan plan s) r.ref = .ok (refs.filter fun x => !isChosen sel x) := by
  obtain ⟨hlinked, hlength⟩ := versionChainFrom_linked hchain
  obtain ⟨refs', hlinked', hrecord⟩ := (hc t).linked hs hr
  obtain rfl := hlinked.unique hlinked'
  have hpages : (applyPlan plan s).pages.length = s.pages.length := by
    simp only [applyPlan, length_mapIdx]
  have hrelinked : Linked (previousAt (applyPlan plan s).pages) (refs.find? fun x => !isChosen sel x)
      (refs.filter fun x => !isChosen sel x) := by
    refine hlinked.relink fun pre k post hsplit hkeep => ?_
    obtain ⟨o, ho, rfl, -⟩ := hrecord k (by rw [hsplit]; exact mem_append_right _ mem_cons_self)
    have hbehind := (Linked.suffix (hsplit ▸ hlinked)).2
    rw [previousAt_row hs ho] at hbehind
    have ho' := h.mem_rowsOf hs hc ho (by simpa using hkeep)
    rw [← h.previous_eq hs hc ho hbehind]
    exact previousAt_row (h.wf hs hc) ho'
  have hfirst : refs.find? (fun x => !isChosen sel x) = some r.ref := by
    obtain ⟨rest, rfl, -⟩ := Linked.some_iff.mp hlinked
    rw [List.find?_cons_of_pos (by simp [hstays])]
  rw [hfirst] at hrelinked
  refine versionChainFrom_eq (t := t) (h.wf hs hc) hrelinked (fun ref href => ?_) (fun _ _ => not_mem_nil) ?_
  · obtain ⟨hmem, hkeep⟩ := mem_filter.mp href
    obtain ⟨o, ho, rfl, -⟩ := hrecord ref hmem
    exact ⟨relinkedRow sel t o, h.mem_rowsOf hs hc ho (by simpa using hkeep), rfl⟩
  · rw [hpages]
    exact filter_sublist.length_le.trans hlength

/-! ## Reads -/

def unlinked (v : HeapVersion) : HeapVersion := { v with prev := none }

omit hs hc in
theorem Plans.visible_stays (hsnapshot : request.horizon ≤ snapshot.readLsn)
    (hs : Wf s) (hr : r ∈ Heap.rowsOf s.pages t) (hvisible : r.visibleTo snapshot = true) : isChosen sel r.ref = false := by
  obtain ⟨v, hv, rfl⟩ := (Heap.mem_rowsOf hs).mp hr
  rw [Bool.eq_false_iff, ne_eq]
  intro hchosen
  have hdead := h.chosen.dead _ ((h.chosen.isChosen_iff hv).mp hchosen)
  simp only [eligible, Bool.and_eq_true, decide_eq_true_eq] at hdead
  obtain ⟨⟨⟨-, hended⟩, -⟩, hxmax⟩ := hdead
  have hvisible : snapshot.visible v.header.xmin v.header.xmax = true := hvisible
  simp only [Snapshot.visible, isOpenEndCsn_of_committed hended, Bool.false_or, Bool.and_eq_true, decide_eq_true_eq] at hvisible
  exact absurd (hxmax.trans hsnapshot) (not_le.mpr hvisible.2)

section
variable (hsnapshot : request.horizon ≤ snapshot.readLsn)
include hsnapshot

theorem Plans.visible_rows (t : ℕ) : (Heap.rowsOf (applyPlan plan s).pages t).filter (Row.visibleTo snapshot) =
      ((Heap.rowsOf s.pages t).filter (Row.visibleTo snapshot)).map (relinkedRow sel t) := by
  rw [h.rowsOf hs hc, filter_map, filter_filter]
  refine congrArg (List.map (relinkedRow sel t)) (filter_congr fun r hr => ?_)
  have hsame : (Row.visibleTo snapshot ∘ relinkedRow sel t) r = r.visibleTo snapshot := rfl
  rw [hsame]
  cases hvisible : r.visibleTo snapshot with
  | false => rfl
  | true => simp [h.visible_stays hsnapshot hs hr hvisible]

theorem Plans.scan (t : ℕ) : (Heap.scan (applyPlan plan s).pages t snapshot).map (List.map fun x => (x.1, unlinked x.2)) =
      (Heap.scan s.pages t snapshot).map (List.map fun x => (x.1, unlinked x.2)) := by
  rw [scan_eq (h.wf hs hc), scan_eq hs, h.visible_rows hs hc hsnapshot]
  simp only [Except.map, map_map]
  rfl

theorem Plans.lookup (t id : ℕ) : (lookupWithRef (applyPlan plan s).pages t id snapshot).map (Option.map fun x => (x.1, unlinked x.2)) =
      (lookupWithRef s.pages t id snapshot).map (Option.map fun x => (x.1, unlinked x.2)) := by
  have hfind : ∀ rows : List Row, rows.find? (fun r => r.header.recordId == id && r.visibleTo snapshot) =
      (rows.filter (Row.visibleTo snapshot)).find? fun r => r.header.recordId == id := by
    intro rows
    rw [List.find?_filter]
    congr 1
    funext r
    rw [Bool.decide_and, Bool.decide_eq_true, Bool.decide_eq_true, Bool.and_comm]
  rw [lookupWithRef_eq (h.wf hs hc), lookupWithRef_eq hs, hfind, hfind, h.visible_rows hs hc hsnapshot, List.find?_map]
  simp only [Except.map, Option.map_map]
  rfl

end

/-! ## Pages -/

theorem Plans.pagesOf (t : ℕ) : Heap.pagesOf (applyPlan plan s).pages t = Heap.pagesOf s.pages t := by
  obtain ⟨xs, hchain⟩ := exists_tableChain hs t
  rw [hchain.pagesOf hs]
  have hentries := (h.rewritten hs hc).entries
  rcases id hchain with ⟨e, he, hid, hdata⟩ | ⟨habsent, rfl⟩
  · exact TableChain.pagesOf (h.wf hs hc) (.inl ⟨e, hentries.symm ▸ he, hid, (h.dataChain hs hc hdata hchain).1⟩)
  · exact TableChain.pagesOf (h.wf hs hc) (.inr ⟨fun e he => habsent e (hentries ▸ he), rfl⟩)

end Pass

/-! ## Passes -/

def reclaimable (request : VacuumRequest) (t : ℕ) (r : Row) : Bool := decide (t ∈ request.tables) && eligible request.horizon r.header

def bare (r : Row) : Row := { r with header := { r.header with previous := none } }

def VacuumPlan.reclaimedVersions (plan : VacuumPlan) : ℕ := (plan.tables.map (·.reclaimedVersions)).sum

inductive Passes (catalog : CatalogTables) (request : VacuumRequest) : HeapStore → HeapStore → Prop where
  | done {s : HeapStore} {plan : VacuumPlan} : planVacuum s catalog request = .ok plan → plan.reclaimedVersions = 0 →
      Passes catalog request s s
  | pass {s s' : HeapStore} {plan : VacuumPlan} : planVacuum s catalog request = .ok plan → 0 < plan.reclaimedVersions →
      Passes catalog request (applyPlan plan s) s' → Passes catalog request s s'

theorem planVacuum_accepts (h : planVacuum s catalog request = .ok plan) :
    s.reclaimCapable = true ∧ (1 ≤ request.horizon ∧ request.horizon < provisionalCsn) ∧
      request.maxVersions ≠ some 0 ∧ request.tables.Nodup := by
  simp only [planVacuum, requireThat, bind, Except.bind] at h
  by_cases hhorizon : 1 ≤ request.horizon ∧ request.horizon < provisionalCsn
  · by_cases hbound : request.maxVersions ≠ some 0
    · by_cases hnodup : (request.tables.insertionSort (· ≤ ·)).Nodup
      · by_cases hcapable : s.reclaimCapable = true
        · exact ⟨hcapable, hhorizon, hbound, (perm_insertionSort _ _).nodup_iff.mp hnodup⟩
        · simp [hhorizon, hbound, hnodup, hcapable] at h
      · simp [hhorizon, hbound, hnodup] at h
    · simp [hhorizon, hbound] at h
  · simp [hhorizon] at h

section Runs

theorem exists_plans (hs : Wf s) (hc : ∀ t, Chained (rowsOf s.pages t)) (hcatalog : ∀ t ∈ request.tables, t ∈ catalog.ids)
    (hplan : planVacuum s catalog request = .ok plan) : ∃ sel, Plans s request sel plan := by
  obtain ⟨hcapable, hhorizon, hbound, hnodup⟩ := planVacuum_accepts hplan
  obtain ⟨plan', sel, hplan', h⟩ := planVacuum_eq hs hc catalog request hcapable hhorizon hbound hnodup hcatalog
  cases hplan.symm.trans hplan'
  exact ⟨sel, h⟩

variable (hs : Wf s) (hc : ∀ t, Chained (Heap.rowsOf s.pages t))
  (h : Plans s request sel plan)
include hs h

theorem Plans.reclaimable_of_chosen (hr : r ∈ Heap.rowsOf s.pages t) (hchosen : isChosen sel r.ref = true) : reclaimable request t r = true := by
  obtain ⟨v, hv, rfl⟩ := (Heap.mem_rowsOf hs).mp hr
  have hmem := (h.chosen.isChosen_iff hv).mp hchosen
  have hdead : eligible request.horizon (rowOf s.pages v).header = true := h.chosen.dead _ hmem
  rw [reclaimable, hdead, decide_eq_true (h.chosen.requested _ hmem)]
  rfl

omit h in
theorem mem_eligibleOf (hr : r ∈ Heap.rowsOf s.pages t) (hdead : reclaimable request t r = true) :
    t ∈ request.tables ∧ ∃ v ∈ eligibleOf s request.horizon t, v.ref = r.ref := by
  rw [reclaimable, Bool.and_eq_true, decide_eq_true_eq] at hdead
  obtain ⟨v, hv, rfl⟩ := (Heap.mem_rowsOf hs).mp hr
  exact ⟨hdead.1, v, mem_filter.mpr ⟨(mem_walk_iff hs).mpr hv, hdead.2⟩, rfl⟩

theorem Plans.nothing_left (hidle : plan.reclaimedVersions = 0) (hr : r ∈ Heap.rowsOf s.pages t) : reclaimable request t r = false := by
  have hsel : sel = [] := eq_nil_of_length_eq_zero (h.reclaimed.symm.trans hidle)
  rw [Bool.eq_false_iff, ne_eq]
  intro hdead
  obtain ⟨ht, v, hv, -⟩ := mem_eligibleOf hs hr hdead
  cases hbound : request.maxVersions with
  | none =>
    have hmem := h.unbounded hbound t ht v hv
    rw [hsel] at hmem
    exact nomatch hmem
  | some n =>
    rw [(h.bounded n hbound).2 hsel t ht] at hv
    exact nomatch hv

include hc

theorem Plans.keeps (t : ℕ) :
    ((Heap.rowsOf (applyPlan plan s).pages t).filter (!reclaimable request t ·)).map bare =
      ((Heap.rowsOf s.pages t).filter (!reclaimable request t ·)).map bare := by
  rw [h.rowsOf hs hc, filter_map, filter_filter, map_map]
  have hbare : bare ∘ relinkedRow sel t = bare := rfl
  have hsame : ((!reclaimable request t ·) ∘ relinkedRow sel t) = (!reclaimable request t ·) := rfl
  rw [hbare, hsame]
  refine congrArg (List.map bare) (filter_congr fun r hr => ?_)
  cases hchosen : isChosen sel r.ref with
  | false => simp
  | true => simp [h.reclaimable_of_chosen hs hr hchosen]

theorem Plans.unbounded_left (hbound : request.maxVersions = none)
    (hr : r ∈ Heap.rowsOf (applyPlan plan s).pages t) : reclaimable request t r = false := by
  rw [h.rowsOf hs hc] at hr
  obtain ⟨r, hmem, rfl⟩ := mem_map.mp hr
  obtain ⟨hr, hstays⟩ := mem_filter.mp hmem
  have hsame : reclaimable request t (relinkedRow sel t r) = reclaimable request t r := rfl
  rw [hsame, Bool.eq_false_iff, ne_eq]
  intro hdead
  obtain ⟨ht, v, hv, href⟩ := mem_eligibleOf hs hr hdead
  rw [← href, isChosen_of_mem (h.unbounded hbound t ht v hv)] at hstays
  exact nomatch hstays

end Runs

def backlog (s : HeapStore) (request : VacuumRequest) : ℕ :=
  (request.tables.map fun t => ((rowsOf s.pages t).filter (reclaimable request t)).length).sum

section Backlog
variable (hs : Wf s) (hc : ∀ t, Chained (rowsOf s.pages t)) (h : Plans s request sel plan)
include hs hc h

theorem backlog_lt (hwork : 0 < plan.reclaimedVersions) : backlog (applyPlan plan s) request < backlog s request := by
  have hrows : ∀ t, (rowsOf (applyPlan plan s).pages t).filter (reclaimable request t) =
      (((rowsOf s.pages t).filter (reclaimable request t)).filter (!isChosen sel ·.ref)).map (relinkedRow sel t) := by
    intro t
    rw [h.rowsOf hs hc, filter_map, filter_filter, filter_filter]
    refine congrArg (List.map _) (filter_congr fun r _ => ?_)
    exact Bool.and_comm _ _
  have hnonempty : sel ≠ [] := by
    rintro rfl
    exact absurd h.reclaimed (Nat.pos_iff_ne_zero.mp hwork)
  obtain ⟨x, hx⟩ := exists_mem_of_ne_nil sel hnonempty
  have hrow : rowOf s.pages x.2 ∈ rowsOf s.pages x.1 := (mem_rowsOf hs).mpr ⟨x.2, h.chosen.stored x hx, rfl⟩
  have hchosen : isChosen sel (rowOf s.pages x.2).ref = true := isChosen_of_mem hx
  have hdead := h.reclaimable_of_chosen hs hrow hchosen
  refine sum_lt_sum _ _ (fun t _ => ?_) ⟨x.1, h.chosen.requested x hx, ?_⟩
  · rw [hrows, length_map]
    exact filter_sublist.length_le
  · rw [hrows, length_map]
    refine length_filter_lt_length_iff_exists.mpr ⟨_, mem_filter.mpr ⟨hrow, hdead⟩, ?_⟩
    simp [hchosen]

end Backlog

theorem exists_passes (hs : Wf s) (hc : ∀ t, Chained (rowsOf s.pages t))
    (hcatalog : ∀ t ∈ request.tables, t ∈ catalog.ids)
    (hplan : planVacuum s catalog request = .ok plan) : ∃ s', Passes catalog request s s' := by
  induction hn : backlog s request using Nat.strong_induction_on generalizing s plan with
  | _ n ih =>
    obtain ⟨hcapable, hhorizon, hbound, hnodup⟩ := planVacuum_accepts hplan
    obtain ⟨sel, h⟩ := exists_plans hs hc hcatalog hplan
    rcases Nat.eq_zero_or_pos plan.reclaimedVersions with hidle | hwork
    · exact ⟨s, .done hplan hidle⟩
    · obtain ⟨plan', -, hplan', -⟩ := planVacuum_eq (h.wf hs hc) (h.chained hs hc) catalog request
        (show (applyPlan plan s).reclaimCapable = true from hcapable) hhorizon hbound hnodup hcatalog
      obtain ⟨s', hrun⟩ := ih _ (hn ▸ backlog_lt hs hc h hwork) (h.wf hs hc) (h.chained hs hc) hplan' rfl
      exact ⟨s', .pass hplan hwork hrun⟩

theorem Passes.rowsOf (hcatalog : ∀ t ∈ request.tables, t ∈ catalog.ids)
    {s s' : HeapStore} (hrun : Passes catalog request s s') (hs : Wf s) (hc : ∀ t, Chained (Heap.rowsOf s.pages t)) (t : ℕ) :
    (Heap.rowsOf s'.pages t).map bare = ((Heap.rowsOf s.pages t).filter (!reclaimable request t ·)).map bare := by
  induction hrun with
  | done hplan hidle =>
    obtain ⟨sel, h⟩ := exists_plans hs hc hcatalog hplan
    rw [filter_eq_self.mpr fun r hr => by simp [h.nothing_left hs hidle hr]]
  | pass hplan _ _ ih =>
    obtain ⟨sel, h⟩ := exists_plans hs hc hcatalog hplan
    rw [ih (h.wf hs hc) (h.chained hs hc), h.keeps hs hc]

theorem Plans.unbounded_rowsOf (hs : Wf s) (hc : ∀ t, Chained (Heap.rowsOf s.pages t)) (h : Plans s request sel plan)
    (hbound : request.maxVersions = none) (t : ℕ) :
    (Heap.rowsOf (applyPlan plan s).pages t).map bare =
      ((Heap.rowsOf s.pages t).filter (!reclaimable request t ·)).map bare := by
  rw [← h.keeps hs hc, filter_eq_self.mpr fun r hr => by simp [h.unbounded_left hs hc hbound hr]]

end Grafx.Heap
