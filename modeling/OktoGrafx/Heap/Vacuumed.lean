import OktoGrafx.Heap.VacuumPlan

/-! A heap after a vacuum pass: the chains of its tables are the same, the selected versions are
gone, and the others are what they were except for their links. -/

namespace Grafx.Heap

open List

variable {p : Page Cell} {i : ℕ}

/-! ## Pages -/

theorem applyPlan_page (plan : VacuumPlan) (s : HeapStore) (hp : s.pages[i]? = some p) :
    (applyPlan plan s).pages[i]? = some p ∧ (∀ q, (i, q) ∉ plan.pageImages) ∨
      ∃ q, (i, q) ∈ plan.pageImages ∧ (applyPlan plan s).pages[i]? = some q := by
  have hpage : (applyPlan plan s).pages[i]? = some (((plan.pageImages.find? (·.1 == i)).map (·.2)).getD p) := by
    simp only [applyPlan, getElem?_mapIdx, hp, Option.map_some]
  rw [hpage]
  cases hfind : plan.pageImages.find? (·.1 == i) with
  | none =>
    refine .inl ⟨rfl, fun q hq => ?_⟩
    rw [find?_eq_none] at hfind
    exact hfind _ hq (beq_self_eq_true i)
  | some x =>
    have hkey : x.1 = i := by simpa using find?_some hfind
    exact .inr ⟨x.2, hkey ▸ mem_of_find?_eq_some hfind, rfl⟩

theorem applyPlan_same {plan : VacuumPlan} {s : HeapStore} (hp : s.pages[i]? = some p) (hnone : ∀ q, (i, q) ∉ plan.pageImages) :
    (applyPlan plan s).pages[i]? = some p := by
  rcases applyPlan_page plan s hp with ⟨hsame, -⟩ | ⟨q, hq, -⟩
  · exact hsame
  · exact absurd hq (hnone q)

section Applied
variable {s : HeapStore} (hs : Wf s) (hc : ∀ t, Chained (rowsOf s.pages t)) {request : VacuumRequest}
  {sel : List (ℕ × StoredVersion)} {plan : VacuumPlan} (h : Plans s request sel plan) {xs : List ℕ} {v : StoredVersion} {t : ℕ}

theorem ReleasedImage.overflow {q : Page Cell} (hq : ReleasedImage s sel i q) (hp : s.pages[i]? = some p) : p.pageType = .overflow := by
  obtain ⟨⟨x, -, first, ys, payload, -, hblob, hi⟩, -⟩ := hq
  obtain ⟨p', hp', htype⟩ := hblob.mem_page hi
  rwa [Option.some.inj (hp.symm.trans hp')]

include h

theorem Plans.no_image (hp : s.pages[i]? = some p) (hheap : p.pageType ≠ .heap)
    (howned : ∀ x ∈ sel, ¬ Owns s.pages s.pageSize x.2 i) (q : Page Cell) : (i, q) ∉ plan.pageImages := by
  intro hq
  rcases (h.images i q).mp hq with ⟨⟨x, hx, howns⟩, -⟩ | hpass
  · exact howned x hx howns
  · obtain ⟨t, -, xs, hchain, hi, -⟩ := hpass
    obtain ⟨p', hp', hdata⟩ := hchain.data i hi
    rw [Option.some.inj (hp.symm.trans hp')] at hheap
    exact hheap hdata.type

theorem Plans.not_chosen (ht : t ∉ request.tables) (hv : Stored s.pages t v) : isChosen sel v.ref = false := by
  rw [Bool.eq_false_iff, ne_eq, h.chosen.isChosen_iff hv]
  exact fun hmem => ht (h.chosen.requested _ hmem)

include hs hc

theorem Plans.relinked_other (ht : t ∉ request.tables) (hv : Stored s.pages t v) : stays sel v = true ∧ relinked sel t v = v := by
  refine ⟨by rw [stays, h.not_chosen ht hv]; rfl, ?_⟩
  obtain ⟨refs, hlinked, hrows, hlink⟩ := relinked_previous hs h.chosen (hc t) hv
  have hfirst : refs.find? (fun x => !isChosen sel x) = v.header.previous := by
    cases refs with
    | nil =>
      cases hprev : v.header.previous with
      | none => rfl
      | some ref => rw [hprev] at hlinked; exact hlinked.elim
    | cons x rest =>
      obtain ⟨hstart, -⟩ := Linked.cons_iff.mp hlinked
      obtain ⟨o, ho, rfl, -⟩ := hrows x mem_cons_self
      obtain ⟨w, hw, rfl⟩ := (mem_rowsOf hs).mp ho
      have hstays : isChosen sel (rowOf s.pages w).ref = false := h.not_chosen ht hw
      rw [find?_cons_of_pos (by simp [hstays]), hstart]
  rw [relinked, hlink, hfirst]
  rfl

theorem Plans.data_page (hchain : TableChain s t xs) (hi : i ∈ xs)
    (hp : s.pages[i]? = some p) : ∃ p', (applyPlan plan s).pages[i]? = some p' ∧ VacuumedPage sel t i p p' := by
  obtain ⟨p₀, hp₀, hdata⟩ := hchain.data i hi
  cases hp.symm.trans hp₀
  rcases applyPlan_page plan s hp with ⟨hsame, hnone⟩ | ⟨q, hq, himage⟩
  · refine ⟨p, hsame, ?_⟩
    by_cases ht : t ∈ request.tables
    · -- A page without an image had nothing to change.
      obtain ⟨pass, hpass, -, hvacuumed, -⟩ := hchain.pass hs hc h.chosen hi hp
      cases hempty : pass.image with
      | none => rwa [hempty, Option.getD_none] at hvacuumed
      | some q =>
        refine absurd ((h.images i q).mpr (.inr ?_)) (hnone q)
        exact ⟨t, ht, xs, hchain, hi, pass, ⟨p, hp, hpass⟩, hempty⟩
    · refine ⟨hdata, rfl, ?_⟩
      have hstored := hchain.stored hs hi hp
      rw [filter_eq_self.mpr fun v hv => (h.relinked_other hs hc ht (hstored v hv)).1]
      refine ((map_congr_left fun v hv => ?_).trans (map_id _)).symm
      exact (h.relinked_other hs hc ht (hstored v hv)).2
  · refine ⟨q, himage, ?_⟩
    rcases (h.images i q).mp hq with hreleased | hpass
    · exact absurd (hdata.type.symm.trans (hreleased.overflow hp)) (by decide)
    · obtain ⟨t', p', hp', hdata', hvacuumed⟩ := hpass.heap hs hc h.chosen
      cases hp.symm.trans hp'
      rwa [hdata'.unique hdata] at hvacuumed

/-! ## Versions -/

def survivors (s : HeapStore) (sel : List (ℕ × StoredVersion)) (t : ℕ) : List StoredVersion :=
  ((walk s.pages t).versions.filter (stays sel)).map (relinked sel t)

omit h hc in
theorem mem_survivors (hv : v ∈ survivors s sel t) : ∃ w, Stored s.pages t w ∧ isChosen sel w.ref = false ∧ relinked sel t w = v := by
  obtain ⟨w, hw, rfl⟩ := mem_map.mp hv
  obtain ⟨hw, hstays⟩ := mem_filter.mp hw
  exact ⟨w, (mem_walk_iff hs).mp hw, by simpa [stays] using hstays, rfl⟩

theorem Plans.dataChain {first : ℕ} (hchain : DataChain s.pages t first xs) (htable : TableChain s t xs) :
    DataChain (applyPlan plan s).pages t first xs ∧ versionsOn (applyPlan plan s).pages xs = survivors s sel t := by
  refine ⟨⟨hchain.linked.congr fun i hi => ?_, fun i hi => ?_⟩, ?_⟩
  · obtain ⟨p, hp, -⟩ := hchain.data i hi
    obtain ⟨p', hp', hvacuumed⟩ := h.data_page hs hc htable hi hp
    simp only [nextOf, hp, hp', Option.bind_some, hvacuumed.next]
  · obtain ⟨p, hp, -⟩ := hchain.data i hi
    obtain ⟨p', hp', hvacuumed⟩ := h.data_page hs hc htable hi hp
    exact ⟨p', hp', hvacuumed.data⟩
  · rw [survivors, htable.walk hs, versionsOn, versionsOn, filter_flatMap, map_flatMap]
    refine flatMap_congr fun i hi => ?_
    obtain ⟨p, hp, -⟩ := hchain.data i hi
    obtain ⟨p', hp', hvacuumed⟩ := h.data_page hs hc htable hi hp
    rw [pageVersions, pageVersions, hp, hp']
    exact hvacuumed.versions

omit hc in
theorem Plans.overflow_kept {w : StoredVersion} (hw : Stored s.pages t w) (hstays : isChosen sel w.ref = false)
    (howns : Owns s.pages s.pageSize w i) (q : Page Cell) : (i, q) ∉ plan.pageImages := by
  obtain ⟨first, ys, payload, -, hblob, hi⟩ := id howns
  obtain ⟨p, hp, htype⟩ := hblob.mem_page hi
  refine h.no_image hp (by rw [htype]; decide) (fun x hx howned => ?_) q
  have href := hs.exclusive _ _ _ _ i (h.chosen.stored x hx) hw howned howns
  rw [← href, isChosen_of_mem hx] at hstays
  exact nomatch hstays

theorem Plans.rewritten : Rewritten s (applyPlan plan s) (survivors s sel) := by
  obtain ⟨header, floor, hheader, hmeta, hslots⟩ := hs.header
  have hheader' : (applyPlan plan s).pages[headerPageIndex]? = some header := by
    refine applyPlan_same hheader (h.no_image hheader (by rw [hmeta]; decide) ?_)
    rintro x - ⟨first, ys, payload, -, hblob, hi⟩
    obtain ⟨p, hp, htype⟩ := hblob.mem_page hi
    exact overflow_ne_header hs hp htype rfl
  have hentries : entriesOf (applyPlan plan s).pages = entriesOf s.pages := entriesOf_eq (hheader'.trans hheader.symm)
  have hgrows : Grows s.pages (applyPlan plan s).pages := fun e he => ⟨e, hentries.symm ▸ he, rfl, le_rfl, fun xs hchain =>
    ⟨[], (append_nil xs).symm ▸ (h.dataChain hs hc hchain (.inl ⟨e, he, rfl, hchain⟩)).1⟩⟩
  refine ⟨⟨header, floor, hheader', hmeta, hentries.symm ▸ hslots⟩, hentries, ?_, ?_, rfl, rfl, ?_, ?_, ?_, ?_, hgrows⟩
  · intro e he
    obtain ⟨xs, hchain⟩ := hs.chains e he
    exact ⟨xs, h.dataChain hs hc hchain (.inl ⟨e, he, rfl, hchain⟩)⟩
  · intro t habsent
    rw [survivors, walk_of_absent hs habsent]
    rfl
  · intro t v hv
    obtain ⟨w, hw, -, rfl⟩ := mem_survivors hs hv
    obtain ⟨payload, hbody⟩ := hs.bodies t w hw
    exact ⟨payload, hbody⟩
  · intro t v hv i howns p hp
    obtain ⟨w, hw, hstays, rfl⟩ := mem_survivors hs hv
    exact ⟨p, applyPlan_same hp (h.overflow_kept hs hw hstays howns), rfl, rfl, rfl⟩
  · intro t v t' v' i hv hv' howns howns'
    obtain ⟨w, hw, -, rfl⟩ := mem_survivors hs hv
    obtain ⟨w', hw', -, rfl⟩ := mem_survivors hs hv'
    exact hs.exclusive t w t' w' i hw hw' howns howns'
  · intro t hint hhint
    obtain ⟨hold, htail⟩ := hs.cache t hint hhint
    exact ⟨hold, fun hepoch => hgrows.onChain (htail hepoch)⟩

/-! ## Rows -/

def relinkedRow (sel : List (ℕ × StoredVersion)) (t : ℕ) (r : Row) : Row :=
  { r with header := { r.header with
      previous := (relinkFrom sel t r.header.recordId r.ref (sel.length + 1) [] r.header.previous).toOption.join } }

theorem Plans.rowsOf (t : ℕ) :
    rowsOf (applyPlan plan s).pages t =
      ((rowsOf s.pages t).filter fun r => !isChosen sel r.ref).map (relinkedRow sel t) := by
  rw [(h.rewritten hs hc).rowsOf hs, survivors, Heap.rowsOf, filter_map, map_map, map_map]
  refine map_congr_left fun v hv => ?_
  obtain ⟨payload, hbody⟩ := hs.bodies t v ((mem_walk_iff hs).mp (mem_filter.mp hv).1)
  have hbody' : BodyOf s.pages s.pageSize (relinked sel t v).header payload (relinked sel t v).body := hbody
  rfl

end Applied

end Grafx.Heap
