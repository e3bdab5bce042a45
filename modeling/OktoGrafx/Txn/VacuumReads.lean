import OktoGrafx.Heap.VacuumRuns
import OktoGrafx.Lib.Checked
import OktoGrafx.Txn.SnapshotReads

/-! Vacuum of a heap that commits have written. -/

namespace Grafx.Txn

open Heap

variable {labelLength : Payload → Option ℕ} {history : History} {s : HeapStore}

def present (s : HeapStore) (t : ℕ) (refs : List RecordRef) : List RecordRef :=
  refs.filter fun x => (rowsOf s.pages t).any (·.ref == x)

theorem present_of_plans (hs : Wf s) (hc : ∀ t, Chained (rowsOf s.pages t)) {request : VacuumRequest}
    {sel : List (ℕ × StoredVersion)} {plan : VacuumPlan} (h : Plans s request sel plan) {t : ℕ} {r : Row}
    (hr : r ∈ rowsOf s.pages t) :
    ((rowsOf (applyPlan plan s).pages t).any (·.ref == r.ref)) = !isChosen sel r.ref := by
  rw [Bool.eq_iff_iff, List.any_eq_true]
  constructor
  · rintro ⟨r', hr', href⟩
    rw [h.rowsOf hs hc] at hr'
    obtain ⟨o, ho, rfl⟩ := List.mem_map.mp hr'
    have hsame : o.ref = r.ref := eq_of_beq href
    rw [← hsame]
    exact (List.mem_filter.mp ho).2
  · intro hstays
    exact ⟨relinkedRow sel t r, h.mem_rowsOf hs hc hr (by simpa using hstays), beq_self_eq_true r.ref⟩

/-- A vacuum keeps every read at or above the horizon, but for the links of the rows, every chain without the
reclaimed versions, and touches no overflow page of a version that stays, whether or not a snapshot can see it.
However the bound cuts it, it removes the same versions. -/
theorem vacuum_keeps_reads (h : Reached labelLength history s) {catalog : CatalogTables} {request : VacuumRequest}
    (hcatalog : ∀ t ∈ request.tables, t ∈ catalog.ids) {plan : VacuumPlan} (hplan : planVacuum s catalog request = .ok plan) :
    (∀ snapshot : Snapshot, request.horizon ≤ snapshot.readLsn → ∀ t,
      (scan (applyPlan plan s).pages t snapshot).map (List.map fun x => (x.1, unlinked x.2)) =
          (scan s.pages t snapshot).map (List.map fun x => (x.1, unlinked x.2)) ∧
        ∀ id, (lookupWithRef (applyPlan plan s).pages t id snapshot).map (Option.map fun x => (x.1, unlinked x.2)) =
          (lookupWithRef s.pages t id snapshot).map (Option.map fun x => (x.1, unlinked x.2))) ∧
    (∀ t, Chained (rowsOf (applyPlan plan s).pages t) ∧ pagesOf (applyPlan plan s).pages t = pagesOf s.pages t ∧
      ∀ r ∈ rowsOf (applyPlan plan s).pages t, ∀ refs, versionChain s r.ref = .ok refs →
        versionChain (applyPlan plan s) r.ref = .ok (present (applyPlan plan s) t refs)) ∧
    (∀ t v, Stored s.pages t v → v.ref ∈ (rowsOf (applyPlan plan s).pages t).map (·.ref) →
      ∀ i, Owns s.pages s.pageSize v i → ∀ q, (i, q) ∉ plan.pageImages) ∧
    ((plan.pageImages.filter fun x => x.2.pageType = .free).map (·.1)).Nodup ∧
    (∃ s', Passes catalog request s s') ∧
    ∃ whole, planVacuum s catalog { request with maxVersions := none } = .ok whole ∧
      ∀ s', Passes catalog request s s' → ∀ t,
        (rowsOf s'.pages t).map bare = (rowsOf (applyPlan whole s).pages t).map bare := by
  have hs := h.holds.wf
  have hc := h.holds.chained
  obtain ⟨sel, hplans⟩ := exists_plans hs hc hcatalog hplan
  obtain ⟨hcapable, hhorizon, -, hnodup⟩ := planVacuum_accepts hplan
  refine ⟨fun snapshot hsnapshot t => ⟨?_, fun id => ?_⟩, fun t => ⟨?_, ?_, ?_⟩, ?_, hplans.freed, ?_, ?_⟩
  · exact hplans.scan hs hc hsnapshot t
  · exact hplans.lookup hs hc hsnapshot t id
  · exact hplans.chained hs hc t
  · exact hplans.pagesOf hs hc t
  · intro r' hr' refs hchain
    rw [hplans.rowsOf hs hc] at hr'
    obtain ⟨r, hr, rfl⟩ := List.mem_map.mp hr'
    obtain ⟨hr, hstays⟩ := List.mem_filter.mp hr
    have hkept := hplans.versionChain hs hc hr (by simpa using hstays) hchain
    -- Every reference of the chain is a row of the table, so it is present unless it was selected.
    obtain ⟨refs', hlinked, hrecord⟩ := (hc t).linked hs hr
    have hsame := (versionChainFrom_linked hchain).1.unique hlinked
    refine hkept.trans (congrArg Except.ok (List.filter_congr fun x hx => ?_))
    obtain ⟨o, ho, rfl, -⟩ := hrecord x (hsame ▸ hx)
    exact (present_of_plans hs hc hplans ho).symm
  · intro t v hv hleft i howns
    obtain ⟨r, hr, href⟩ := List.mem_map.mp hleft
    have hrow : rowOf s.pages v ∈ rowsOf s.pages t := (mem_rowsOf hs).mpr ⟨v, hv, rfl⟩
    have hpresent : (rowsOf (applyPlan plan s).pages t).any (·.ref == (rowOf s.pages v).ref) = true :=
      List.any_eq_true.mpr ⟨r, hr, beq_of_eq href⟩
    have hstays : isChosen sel (rowOf s.pages v).ref = false := by simpa using (present_of_plans hs hc hplans hrow).symm.trans hpresent
    exact hplans.overflow_kept hs hv hstays howns
  · exact exists_passes hs hc hcatalog hplan
  · obtain ⟨whole, sel', hwhole, hplans'⟩ := planVacuum_eq hs hc catalog { request with maxVersions := none } hcapable
      hhorizon nofun hnodup hcatalog
    refine ⟨whole, hwhole, fun s' hrun t => ?_⟩
    rw [hrun.rowsOf hcatalog hs hc, hplans'.unbounded_rowsOf hs hc rfl]
    rfl

/-- A scan at the horizon returns the row with another link. -/
theorem vacuum_changes_link :
    Reached (fun _ => none) [(2, [⟨1, 1, .update ⟨none, [6]⟩⟩]), (1, [⟨1, 1, .insert wideImage⟩])] updatedRow ∧
      ∃ plan, planVacuum updatedRow ⟨[1], by decide⟩ ⟨[1], 2, none⟩ = .ok plan ∧
        scan (applyPlan plan updatedRow).pages 1 ⟨2, by decide⟩ ≠ scan updatedRow.pages 1 ⟨2, by decide⟩ := by
  have hbefore : scan updatedRow.pages 1 ⟨2, by decide⟩ =
      .ok [(⟨1, 2⟩, ⟨1, 2, noCsn, [6], some ⟨1, 1⟩, false, false⟩)] := by decide +kernel
  have hafter : (planVacuum updatedRow ⟨[1], by decide⟩ ⟨[1], 2, none⟩).toOption.map
        (fun plan => scan (applyPlan plan updatedRow).pages 1 ⟨2, by decide⟩) =
      some (.ok [(⟨1, 2⟩, ⟨1, 2, noCsn, [6], none, false, false⟩)]) := by decide +kernel
  obtain ⟨plan, hplan, hlink⟩ := Checked.exists_of_toOption_map hafter
  refine ⟨reached_updatedRow, plan, hplan, ?_⟩
  rw [hlink, hbefore]
  decide

/-- The version behind the row is reclaimed with its overflow pages, and the row can still be read. -/
theorem vacuum_keeps_reads_updated :
    ∃ plan, planVacuum updatedRow ⟨[1], by decide⟩ ⟨[1], 2, some 1⟩ = .ok plan ∧
      (plan.pageImages.filter fun x => x.2.pageType = .free).map (·.1) = [2, 3] ∧
      (scan (applyPlan plan updatedRow).pages 1 ⟨2, by decide⟩).map (List.map fun x => (x.1, unlinked x.2)) =
        .ok [(⟨1, 2⟩, ⟨1, 2, noCsn, [6], none, false, false⟩)] := by
  have haccepts : (planVacuum updatedRow ⟨[1], by decide⟩ ⟨[1], 2, some 1⟩).toOption.map
      (fun plan => (plan.pageImages.filter fun x => x.2.pageType = .free).map (·.1)) = some [2, 3] := by decide +kernel
  obtain ⟨plan, hplan, hfreed⟩ := Checked.exists_of_toOption_map haccepts
  have hreads := (vacuum_keeps_reads reached_updatedRow (fun t ht => ht) hplan).1 ⟨2, by decide⟩ le_rfl 1
  exact ⟨plan, hplan, hfreed, hreads.1.trans (by decide +kernel)⟩

end Grafx.Txn
