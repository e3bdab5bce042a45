import OktoGrafx.Heap.Relink

/-! The plan of a vacuum pass as a whole. On a well-formed heap whose versions are chained it always
succeeds, and its images are those of the second pass and of the released pages. -/

namespace Grafx.Heap

open List
open Pointwise (exists_of_mem' exists_mem_of_mem)

variable {pages : List (Page Cell)} {xs : List ℕ} {q : Page Cell} {i t : ℕ}

def PassOf (s : HeapStore) (sel : List (ℕ × StoredVersion)) (t i : ℕ) (pass : PagePass) : Prop :=
  ∃ p, s.pages[i]? = some p ∧ vacuumPage sel t i p = .ok pass

section Pass
variable {s : HeapStore} (hs : Wf s) (hc : ∀ t, Chained (rowsOf s.pages t)) {horizon : ℕ} {ts : List ℕ}
  {sel : List (ℕ × StoredVersion)} (h : Chosen s horizon ts sel) {p : Page Cell}
include hs

theorem TableChain.stored (hchain : TableChain s t xs) (hi : i ∈ xs)
    (hp : s.pages[i]? = some p) : ∀ v ∈ cellVersions i firstRecordSlot p.slots.tail, Stored s.pages t v := by
  intro v hv
  rw [← mem_walk_iff hs, hchain.walk hs]
  refine mem_flatMap.mpr ⟨i, hi, ?_⟩
  rw [pageVersions, hp]
  exact hv

include hc h

theorem TableChain.pass (hchain : TableChain s t xs) (hi : i ∈ xs) (hp : s.pages[i]? = some p) :
    ∃ pass, vacuumPage sel t i p = .ok pass ∧ pass.index = i ∧ VacuumedPage sel t i p (pass.image.getD p) ∧
      ∀ x ∈ sel, x.2.ref.page = i → x.2.ref ∈ pass.found := by
  obtain ⟨q, hq, hdata⟩ := hchain.data i hi
  cases hp.symm.trans hq
  exact vacuumPage_eq hs h (hc t) hp hdata (hchain.stored hs hi hp)

theorem vacuumChain_eq (hchain : TableChain s t xs) :
    ∃ passes, vacuumChain s.pages sel t xs = .ok passes ∧ List.Forall₂ (PassOf s sel t) xs passes := by
  have hpages : ∀ i ∈ xs, ∃ pass, PassOf s sel t i pass := by
    intro i hi
    obtain ⟨p, hp, -⟩ := hchain.data i hi
    obtain ⟨pass, hpass, -⟩ := hchain.pass hs hc h hi hp
    exact ⟨pass, p, hp, hpass⟩
  clear hchain
  induction xs with
  | nil => exact ⟨[], rfl, .nil⟩
  | cons i rest ih =>
    obtain ⟨pass, p, hp, hpass⟩ := hpages i mem_cons_self
    obtain ⟨passes, hrun, hall⟩ := ih (forall_mem_cons.mp hpages).2
    refine ⟨pass :: passes, ?_, .cons ⟨p, hp, hpass⟩ hall⟩
    simp only [vacuumChain, hp, hpass, hrun, bind, Except.bind, pure, Except.pure]

def PassesOf (s : HeapStore) (sel : List (ℕ × StoredVersion)) (x : TableSelection) (y : TableSelection × List PagePass) : Prop :=
  y.1 = x ∧ List.Forall₂ (PassOf s sel x.tableId) x.pages y.2

theorem vacuumTables_eq {xs : List TableSelection} (hxs : ∀ x ∈ xs, TableChain s x.tableId x.pages) :
    ∃ done, vacuumTables s.pages sel xs = .ok done ∧ List.Forall₂ (PassesOf s sel) xs done := by
  induction xs with
  | nil => exact ⟨[], rfl, .nil⟩
  | cons x rest ih =>
    obtain ⟨passes, hpasses, hall⟩ := vacuumChain_eq hs hc h (hxs x mem_cons_self)
    obtain ⟨done, hrun, hdone⟩ := ih (forall_mem_cons.mp hxs).2
    refine ⟨(x, passes) :: done, ?_, .cons ⟨rfl, hall⟩ hdone⟩
    simp only [vacuumTables, hpasses, hrun, bind, Except.bind, pure, Except.pure]

end Pass

theorem mem_passes {s : HeapStore} {sel : List (ℕ × StoredVersion)} {xs : List TableSelection} {done : List (TableSelection × List PagePass)}
    (hdone : List.Forall₂ (PassesOf s sel) xs done) {pass : PagePass} :
    (∃ y ∈ done, pass ∈ y.2) ↔ ∃ x ∈ xs, ∃ i ∈ x.pages, PassOf s sel x.tableId i pass := by
  constructor
  · rintro ⟨y, hy, hpass⟩
    obtain ⟨x, hx, -, hpasses⟩ := exists_of_mem' hdone hy
    obtain ⟨i, hi, hof⟩ := exists_of_mem' hpasses hpass
    exact ⟨x, hx, i, hi, hof⟩
  · rintro ⟨x, hx, i, hi, p, hp, hpass⟩
    obtain ⟨y, hy, -, hpasses⟩ := exists_mem_of_mem hdone hx
    obtain ⟨pass', hmem, q, hq, hpass'⟩ := exists_mem_of_mem hpasses hi
    cases hp.symm.trans hq
    cases hpass.symm.trans hpass'
    exact ⟨y, hy, hmem⟩

/-! ## Images -/

def PassImage (s : HeapStore) (ts : List ℕ) (sel : List (ℕ × StoredVersion)) (i : ℕ) (q : Page Cell) : Prop :=
  ∃ t ∈ ts, ∃ xs, TableChain s t xs ∧ i ∈ xs ∧ ∃ pass, PassOf s sel t i pass ∧ pass.image = some q

def ReleasedImage (s : HeapStore) (sel : List (ℕ × StoredVersion)) (i : ℕ) (q : Page Cell) : Prop :=
  (∃ x ∈ sel, Owns s.pages s.pageSize x.2 i) ∧ ∃ p, s.pages[i]? = some p ∧ q = releasedPage p

structure Plans (s : HeapStore) (request : VacuumRequest) (sel : List (ℕ × StoredVersion)) (plan : VacuumPlan) : Prop where
  chosen : Chosen s request.horizon request.tables sel
  unbounded : request.maxVersions = none → ∀ t ∈ request.tables, ∀ v ∈ eligibleOf s request.horizon t, (t, v) ∈ sel
  bounded : ∀ n, request.maxVersions = some n →
    sel.length ≤ n ∧ (sel = [] → ∀ t ∈ request.tables, eligibleOf s request.horizon t = [])
  reclaimed : (plan.tables.map (·.reclaimedVersions)).sum = sel.length
  images : ∀ i q, (i, q) ∈ plan.pageImages ↔ ReleasedImage s sel i q ∨ PassImage s request.tables sel i q
  freed : ((plan.pageImages.filter fun x => x.2.pageType = .free).map (·.1)).Nodup

theorem mem_releasedImages {released : List (ℕ × List ℕ)} :
    (i, q) ∈ releasedImages pages released ↔ i ∈ released.flatMap (·.2) ∧ ∃ p, pages[i]? = some p ∧ q = releasedPage p := by
  simp only [releasedImages, mem_flatMap, mem_filterMap, Option.map_eq_some_iff, Prod.mk.injEq]
  constructor
  · rintro ⟨x, hx, j, hj, p, hp, rfl, rfl⟩
    exact ⟨⟨x, hx, hj⟩, p, hp, rfl⟩
  · rintro ⟨⟨x, hx, hi⟩, p, hp, rfl⟩
    exact ⟨x, hx, i, hi, p, hp, rfl, rfl⟩

theorem mem_passImages {passes : List PagePass} : (i, q) ∈ passImages passes ↔ ∃ pass ∈ passes, pass.index = i ∧ pass.image = some q := by
  simp only [passImages, mem_filterMap, Option.map_eq_some_iff, Prod.mk.injEq]
  constructor
  · rintro ⟨pass, hpass, p, hp, rfl, rfl⟩
    exact ⟨pass, hpass, rfl, hp⟩
  · rintro ⟨pass, hpass, rfl, hq⟩
    exact ⟨pass, hpass, q, hq, rfl, rfl⟩

theorem releasedImages_keys (released : List (ℕ × List ℕ)) : List.Sublist ((releasedImages pages released).map (·.1)) (released.flatMap (·.2)) := by
  have hone : ∀ indices : List ℕ,
      List.Sublist ((indices.filterMap fun i => pages[i]?.map fun p => (i, releasedPage p)).map (·.1)) indices := by
    intro indices
    induction indices with
    | nil => exact List.Sublist.slnil
    | cons i rest ih =>
      cases hp : pages[i]? with
      | none => simpa [hp] using ih.trans (sublist_cons_self i rest)
      | some p => simpa [hp] using ih
  induction released with
  | nil => exact List.Sublist.slnil
  | cons x rest ih =>
    rw [releasedImages, flatMap_cons, map_append, flatMap_cons]
    exact (hone x.2).append ih

theorem TableChain.unique {s : HeapStore} (hs : Wf s) {ys : List ℕ} (hxs : TableChain s t xs)
    (hys : TableChain s t ys) : xs = ys := Except.ok.inj ((hxs.pagesOf hs).symm.trans (hys.pagesOf hs))

theorem TableChain.page_mem {s : HeapStore} (hs : Wf s) (hchain : TableChain s t xs)
    {v : StoredVersion} (hv : Stored s.pages t v) : v.ref.page ∈ xs := by
  rw [← mem_walk_iff hs, hchain.walk hs] at hv
  exact (mem_versionsOn.mp hv).1

section Plan
variable {s : HeapStore} (hs : Wf s) (hc : ∀ t, Chained (rowsOf s.pages t))
include hs hc

theorem PassImage.heap {ts : List ℕ} {horizon : ℕ} {ts' : List ℕ} {sel : List (ℕ × StoredVersion)}
    (h : Chosen s horizon ts' sel) (hq : PassImage s ts sel i q) :
    ∃ t, ∃ p, s.pages[i]? = some p ∧ DataPage t p ∧ VacuumedPage sel t i p q := by
  obtain ⟨t, -, xs, hchain, hi, pass, ⟨p, hp, hpass⟩, himage⟩ := hq
  obtain ⟨pass', hpass', -, hvacuumed, -⟩ := hchain.pass hs hc h hi hp
  cases hpass.symm.trans hpass'
  rw [himage, Option.getD_some] at hvacuumed
  obtain ⟨p', hp', hdata⟩ := hchain.data i hi
  cases hp.symm.trans hp'
  exact ⟨t, p, hp, hdata, hvacuumed⟩

theorem planVacuum_eq (catalog : CatalogTables) (request : VacuumRequest) (hcapable : s.reclaimCapable = true)
    (hhorizon : 1 ≤ request.horizon ∧ request.horizon < provisionalCsn) (hbound : request.maxVersions ≠ some 0)
    (hnodup : request.tables.Nodup) (hcatalog : ∀ t ∈ request.tables, t ∈ catalog.ids) :
    ∃ plan sel, planVacuum s catalog request = .ok plan ∧ Plans s request sel plan := by
  set ordered := request.tables.insertionSort (· ≤ ·) with hordered
  have hperm : ordered.Perm request.tables := perm_insertionSort _ _
  have hordnodup : ordered.Nodup := hperm.nodup_iff.mpr hnodup
  obtain ⟨xs, hselect, hall⟩ := selectTables_eq hs request.horizon request.maxVersions ordered
  set sel := selectedOf xs with hsel
  have hchosen : Chosen s request.horizon ordered sel := hall.chosen hs hordnodup
  obtain ⟨released, hrelease, hmem, hreleased⟩ := planOverflowReclaim_eq hs hchosen catalog
    fun t ht => hcatalog t (hperm.mem_iff.mp ht)
  have hchains : ∀ x ∈ xs, TableChain s x.tableId x.pages ∧ x.tableId ∈ ordered := by
    intro x hx
    obtain ⟨t, ht, hselects⟩ := exists_of_mem' hall.tables hx
    rw [hselects.tableId]
    exact ⟨hselects.chain, ht⟩
  obtain ⟨done, hdone, hpasses⟩ := vacuumTables_eq hs hc hchosen fun x hx => (hchains x hx).1
  have hfound : ∀ x ∈ sel, x.2.ref ∈ done.flatMap fun x => x.2.flatMap (·.found) := by
    intro x hx
    obtain ⟨y, hy, hid, -⟩ := mem_selectedOf.mp hx
    have hpage : x.2.ref.page ∈ y.pages := (hchains y hy).1.page_mem hs (hid ▸ hchosen.stored x hx)
    obtain ⟨p, hp, -⟩ := (hchains y hy).1.data _ hpage
    obtain ⟨pass, hpass, -, -, hfound⟩ := (hchains y hy).1.pass hs hc hchosen hpage hp
    obtain ⟨z, hz, hmem⟩ := (mem_passes hpasses).mpr ⟨y, hy, _, hpage, p, hp, hpass⟩
    exact mem_flatMap.mpr ⟨z, hz, mem_flatMap.mpr ⟨pass, hmem, hfound x hx rfl⟩⟩
  have hsorted : (buildPlan s request.horizon released done).pageImages.Perm
      (releasedImages s.pages released ++ done.flatMap fun x => passImages x.2) := perm_insertionSort _ _
  have hpassImages : ∀ i q, (i, q) ∈ (done.flatMap fun x => passImages x.2) ↔ PassImage s request.tables sel i q := by
    intro i q
    simp only [mem_flatMap, mem_passImages]
    constructor
    · rintro ⟨y, hy, pass, hpass, rfl, himage⟩
      obtain ⟨x, hx, j, hj, p, hp, hrun⟩ := (mem_passes hpasses).mp ⟨y, hy, hpass⟩
      obtain ⟨pass', hrun', hindex, -⟩ := (hchains x hx).1.pass hs hc hchosen hj hp
      cases hrun.symm.trans hrun'
      rw [hindex]
      exact ⟨x.tableId, hperm.mem_iff.mp (hchains x hx).2, x.pages, (hchains x hx).1, hj, pass, ⟨p, hp, hrun⟩, himage⟩
    · rintro ⟨t, ht, ys, hchain, hi, pass, ⟨p, hp, hrun⟩, himage⟩
      obtain ⟨x, hx, hselects⟩ := exists_mem_of_mem hall.tables (hperm.mem_iff.mpr ht)
      obtain rfl := hchain.unique hs hselects.chain
      obtain rfl := hselects.tableId
      obtain ⟨y, hy, hmem⟩ := (mem_passes hpasses).mpr ⟨x, hx, i, hi, p, hp, hrun⟩
      obtain ⟨pass', hrun', hindex, -⟩ := hchain.pass hs hc hchosen hi hp
      cases hrun.symm.trans hrun'
      exact ⟨y, hy, pass, hmem, hindex, himage⟩
  refine ⟨buildPlan s request.horizon released done, sel, ?_, ?_, ?_, ?_, ?_, ?_, ?_⟩
  · simp only [planVacuum, requireThat, if_pos hhorizon, if_pos hbound, ← hordered, if_pos hordnodup, if_pos hcapable, hselect,
      ← hsel, hrelease, hdone, if_pos hfound, bind, Except.bind, pure, Except.pure]
  · exact { hchosen with requested := fun x hx => hperm.mem_iff.mp (hchosen.requested x hx) }
  · intro hnone t ht v hv
    obtain ⟨x, hx, hselects⟩ := exists_mem_of_mem hall.tables (hperm.mem_iff.mpr ht)
    refine mem_selectedOf.mpr ⟨x, hx, hselects.tableId, ?_⟩
    rw [hall.unbounded hnone x hx, hselects.eligible]
    exact hv
  · intro n hn
    obtain ⟨hlength, hempty⟩ := hall.bounded n hn
    refine ⟨hlength, fun hnone t ht => ?_⟩
    obtain ⟨x, hx, hselects⟩ := exists_mem_of_mem hall.tables (hperm.mem_iff.mpr ht)
    rw [← hselects.eligible]
    exact hempty (Nat.pos_of_ne_zero fun hzero => hbound (hzero ▸ hn)) hnone x hx
  · have hsum : ∀ {xs : List TableSelection} {done : List (TableSelection × List PagePass)},
        List.Forall₂ (PassesOf s sel) xs done →
        ((done.map fun x => tablePlan released x.1 x.2).map (·.reclaimedVersions)).sum = (selectedOf xs).length := by
      intro xs done hall
      induction hall with
      | nil => rfl
      | @cons x y xs done hx _ ih =>
        rw [map_cons, map_cons, sum_cons, ih, selectedOf, selectedOf, flatMap_cons, length_append,
          length_map, tablePlan, hx.1]
    exact hsum hpasses
  · intro i q
    rw [hsorted.mem_iff, mem_append, mem_releasedImages, hmem i, hpassImages i q]
    rfl
  · -- Only released pages are free.
    have hheap : (done.flatMap fun x => passImages x.2).filter (fun x => x.2.pageType = .free) = [] := by
      refine filter_eq_nil_iff.mpr fun x hx => ?_
      obtain ⟨t, p, -, -, hvacuumed⟩ := ((hpassImages x.1 x.2).mp hx).heap hs hc hchosen
      simp [hvacuumed.data.type]
    rw [((hsorted.filter _).map _).nodup_iff, filter_append, hheap, append_nil]
    exact ((filter_sublist.map _).trans (releasedImages_keys released)).nodup hreleased

end Plan

end Grafx.Heap
