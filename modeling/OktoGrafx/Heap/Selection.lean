import OktoGrafx.Heap.Versions

/-! What a vacuum pass selects. On a well-formed heap the selection never fails, and takes from each
table the first of its eligible versions, as many as the bound leaves. -/

namespace Grafx.Heap

open List

variable {v : StoredVersion}

/-! ## The pages of a table -/

def TableChain (s : HeapStore) (t : ℕ) (xs : List ℕ) : Prop :=
  (∃ e ∈ entriesOf s.pages, e.tableId = t ∧ DataChain s.pages t e.firstPage xs) ∨
    (∀ e ∈ entriesOf s.pages, e.tableId ≠ t) ∧ xs = []

theorem pagesFrom_eq {pages : List (Page Cell)} {tableId first fuel : ℕ} {seen xs : List ℕ}
    (h : DataChain pages tableId first xs) (hseen : ∀ i ∈ xs, i ∉ seen) (hfuel : xs.length ≤ fuel) :
    pagesFrom pages tableId fuel seen first = .ok xs := by
  induction fuel generalizing first xs seen with
  | zero => exact absurd (eq_nil_of_length_eq_zero (Nat.le_zero.mp hfuel)) h.linked.ne_nil
  | succ fuel ih =>
    obtain ⟨p, rest, rfl, hp, hdata, hend⟩ := h.step
    simp only [pagesFrom, if_neg (hseen first mem_cons_self), hp, hdata.require]
    rcases hend with ⟨hnext, rfl⟩ | ⟨following, hnext, hchain⟩
    · simp only [hnext]
    · simp only [hnext, ih hchain (h.linked.unseen hseen) (Nat.le_of_succ_le_succ hfuel), Except.map]

section Chains
variable {s : HeapStore} (hs : Wf s)
include hs

theorem exists_tableChain (t : ℕ) : ∃ xs, TableChain s t xs := by
  by_cases h : ∃ e ∈ entriesOf s.pages, e.tableId = t
  · obtain ⟨e, he, rfl⟩ := h
    obtain ⟨xs, hchain⟩ := hs.chains e he
    exact ⟨xs, .inl ⟨e, he, rfl, hchain⟩⟩
  · exact ⟨[], .inr ⟨by simpa using h, rfl⟩⟩

variable {t : ℕ} {xs : List ℕ} (h : TableChain s t xs)
include h

omit hs in
theorem TableChain.data : ∀ i ∈ xs, ∃ p, s.pages[i]? = some p ∧ DataPage t p := by
  rcases h with ⟨e, -, -, hchain⟩ | ⟨-, rfl⟩
  · exact hchain.data
  · exact nofun

omit hs in
theorem TableChain.nodup : xs.Nodup := by
  rcases h with ⟨e, -, -, hchain⟩ | ⟨-, rfl⟩
  · exact hchain.linked.nodup
  · exact nodup_nil

theorem TableChain.walk : walk s.pages t = ⟨versionsOn s.pages xs, none⟩ := by
  rcases h with ⟨e, he, rfl, hchain⟩ | ⟨habsent, rfl⟩
  · exact walk_of_entry hs he hchain
  · exact walk_of_absent hs habsent

theorem TableChain.pagesOf : pagesOf s.pages t = .ok xs := by
  obtain ⟨p, floor, hp, -⟩ := hs.header
  rcases h with ⟨e, he, rfl, hchain⟩ | ⟨habsent, rfl⟩
  · simp only [pagesOf, hp, extentOf_eq hs e.tableId hp, find?_of_mem hs.distinct he]
    exact pagesFrom_eq hchain (by simp) (hchain.length_le.trans (Nat.le_succ _))
  · have hfind : (entriesOf s.pages).find? (·.tableId == t) = none :=
      find?_eq_none.mpr fun e he => by simpa using habsent e he
    simp only [pagesOf, hp, extentOf_eq hs t hp, hfind]

end Chains

/-! ## Selected versions -/

def eligibleOf (s : HeapStore) (horizon t : ℕ) : List StoredVersion :=
  (walk s.pages t).versions.filter fun v => eligible horizon v.header

structure Selects (s : HeapStore) (horizon t : ℕ) (x : TableSelection) : Prop where
  tableId : x.tableId = t
  chain : TableChain s t x.pages
  eligible : x.eligible = eligibleOf s horizon t
  selected : x.selected <+: x.eligible

theorem takeAtMost_prefix {α : Type*} (limit : Option ℕ) (xs : List α) : takeAtMost limit xs <+: xs := by
  cases limit with
  | none => exact prefix_refl xs
  | some n => exact take_prefix n xs

structure SelectsAll (s : HeapStore) (horizon : ℕ) (limit : Option ℕ) (ts : List ℕ) (xs : List TableSelection) : Prop where
  tables : List.Forall₂ (Selects s horizon) ts xs
  unbounded : limit = none → ∀ x ∈ xs, x.selected = x.eligible
  bounded : ∀ n, limit = some n → ((selectedOf xs).length ≤ n ∧ (0 < n → selectedOf xs = [] → ∀ x ∈ xs, x.eligible = []))

theorem selectTables_eq {s : HeapStore} (hs : Wf s) (horizon : ℕ) (limit : Option ℕ) (ts : List ℕ) :
    ∃ xs, selectTables s.pages horizon limit ts = .ok xs ∧ SelectsAll s horizon limit ts xs := by
  induction ts generalizing limit with
  | nil => exact ⟨[], rfl, .nil, nofun, fun n _ => ⟨Nat.zero_le n, nofun⟩⟩
  | cons t ts ih =>
    obtain ⟨chain, hchain⟩ := exists_tableChain hs t
    set versions := eligibleOf s horizon t with hversions
    obtain ⟨others, hothers, hall⟩ := ih (limit.map (· - (takeAtMost limit versions).length))
    refine ⟨⟨t, chain, versions, takeAtMost limit versions⟩ :: others, ?_, ?_, ?_, ?_⟩
    · simp only [selectTables, hchain.pagesOf hs, walk_failure hs, Option.elim_none, bind, Except.bind]
      rw [← eligibleOf, ← hversions, hothers]
      rfl
    · exact .cons ⟨rfl, hchain, rfl, takeAtMost_prefix limit versions⟩ hall.tables
    · rintro rfl x hx
      rcases mem_cons.mp hx with rfl | hx
      · rfl
      · exact hall.unbounded rfl x hx
    · rintro n rfl
      have hrest := hall.bounded (n - (takeAtMost (some n) versions).length) rfl
      obtain ⟨hlength, hempty⟩ := hrest
      have hsplit : selectedOf (⟨t, chain, versions, takeAtMost (some n) versions⟩ :: others) =
          ((takeAtMost (some n) versions).map fun v => (t, v)) ++ selectedOf others := by
        rfl
      have htake : (takeAtMost (some n) versions).length ≤ n := length_take_le n versions
      refine ⟨?_, fun hn hnone x hx => ?_⟩
      · rw [hsplit, length_append, length_map]
        omega
      · rw [hsplit, append_eq_nil_iff, map_eq_nil_iff] at hnone
        have hhere : versions = [] := by
          have htake := hnone.1
          simp only [takeAtMost, Option.elim_some, take_eq_nil_iff] at htake
          exact htake.resolve_left hn.ne'
        rcases mem_cons.mp hx with rfl | hx
        · exact hhere
        · rw [hnone.1, length_nil, Nat.sub_zero] at hempty
          exact hempty hn hnone.2 x hx

/-! ## The versions of a pass -/

structure Chosen (s : HeapStore) (horizon : ℕ) (ts : List ℕ) (sel : List (ℕ × StoredVersion)) : Prop where
  stored : ∀ x ∈ sel, Stored s.pages x.1 x.2
  dead : ∀ x ∈ sel, eligible horizon x.2.header = true
  requested : ∀ x ∈ sel, x.1 ∈ ts
  refs : (sel.map (·.2.ref)).Nodup

theorem mem_selectedOf {xs : List TableSelection} {y : ℕ × StoredVersion} :
    y ∈ selectedOf xs ↔ ∃ x ∈ xs, x.tableId = y.1 ∧ y.2 ∈ x.selected := by
  simp only [selectedOf, mem_flatMap, mem_map]
  constructor
  · rintro ⟨x, hx, v, hv, rfl⟩
    exact ⟨x, hx, rfl, hv⟩
  · rintro ⟨x, hx, hid, hv⟩
    exact ⟨x, hx, y.2, hv, Prod.ext hid rfl⟩

theorem walk_nodup {s : HeapStore} (hs : Wf s) (t : ℕ) : (walk s.pages t).versions.Nodup := by
  obtain ⟨xs, hchain⟩ := exists_tableChain hs t
  rw [hchain.walk hs]
  exact (versionsOn_pairwise hchain.nodup).imp fun {v w} hne heq => hne (congrArg StoredVersion.ref heq)

theorem Selects.mem {s : HeapStore} {horizon t : ℕ} {x : TableSelection} (h : Selects s horizon t x)
    (hv : v ∈ x.selected) : v ∈ (walk s.pages t).versions ∧ Heap.eligible horizon v.header = true := by
  have hmem := h.selected.subset hv
  rw [h.eligible, eligibleOf, mem_filter] at hmem
  exact hmem

theorem SelectsAll.chosen {s : HeapStore} (hs : Wf s) {horizon : ℕ} {limit : Option ℕ} {ts : List ℕ}
    {xs : List TableSelection} (h : SelectsAll s horizon limit ts xs) (hts : ts.Nodup) : Chosen s horizon ts (selectedOf xs) := by
  have hmem : ∀ y ∈ selectedOf xs, y.1 ∈ ts ∧ Stored s.pages y.1 y.2 ∧ eligible horizon y.2.header = true := by
    intro y hy
    obtain ⟨x, hx, hid, hv⟩ := mem_selectedOf.mp hy
    obtain ⟨t, ht, hselects⟩ := Pointwise.exists_of_mem' h.tables hx
    obtain ⟨hwalk, hdead⟩ := hselects.mem hv
    rw [← hid, hselects.tableId]
    exact ⟨ht, (mem_walk_iff hs).mp hwalk, hdead⟩
  refine ⟨fun y hy => (hmem y hy).2.1, fun y hy => (hmem y hy).2.2, fun y hy => (hmem y hy).1, ?_⟩
  have hids : xs.map (·.tableId) = ts := by
    have htables := h.tables
    clear h hmem hts
    induction htables with
    | nil => rfl
    | cons hx _ ih => rw [map_cons, hx.tableId, ih]
  have hnodup : (selectedOf xs).Nodup := by
    refine nodup_flatMap.mpr ⟨fun x hx => ?_, ?_⟩
    · obtain ⟨t, -, hselects⟩ := Pointwise.exists_of_mem' h.tables hx
      have hsub : x.selected.Sublist (walk s.pages t).versions := by
        refine hselects.selected.sublist.trans ?_
        rw [hselects.eligible]
        exact filter_sublist
      exact (hsub.nodup (walk_nodup hs t)).map fun v w heq => (Prod.mk.inj heq).2
    · rw [← hids, List.Nodup, pairwise_map] at hts
      refine hts.imp fun {x x'} hne => ?_
      intro y hy hy'
      obtain ⟨v, -, rfl⟩ := mem_map.mp hy
      obtain ⟨v', -, heq⟩ := mem_map.mp hy'
      exact hne (Prod.mk.inj heq).1.symm
  refine hnodup.map_on fun y hy y' hy' href => ?_
  obtain ⟨ht, hv⟩ := stored_unique (hmem y hy).2.1 (hmem y' hy').2.1 href
  exact Prod.ext ht hv

/-! ## Candidates -/

def isChosen (sel : List (ℕ × StoredVersion)) (ref : RecordRef) : Bool := (candidateAt sel ref).isSome

section Candidates
variable {s : HeapStore} {horizon : ℕ} {ts : List ℕ} {sel : List (ℕ × StoredVersion)} (h : Chosen s horizon ts sel) {x : ℕ × StoredVersion}

theorem mem_of_candidateAt {ref : RecordRef} (hx : candidateAt sel ref = some x) : x ∈ sel ∧ x.2.ref = ref :=
  ⟨mem_of_find?_eq_some hx, by simpa using find?_some hx⟩

theorem isChosen_of_mem (hx : x ∈ sel) : isChosen sel x.2.ref = true := by
  unfold isChosen candidateAt
  rw [find?_isSome]
  exact ⟨x, hx, beq_self_eq_true _⟩

include h

variable {t : ℕ} (hv : Stored s.pages t v)
include hv

theorem Chosen.candidate_eq (hx : candidateAt sel v.ref = some x) : x = (t, v) := by
  obtain ⟨hmem, href⟩ := mem_of_candidateAt hx
  obtain ⟨ht, heq⟩ := stored_unique (h.stored x hmem) hv href
  exact Prod.ext ht heq

theorem Chosen.isChosen_iff : isChosen sel v.ref = true ↔ (t, v) ∈ sel := by
  constructor
  · intro hchosen
    obtain ⟨x, hx⟩ := Option.isSome_iff_exists.mp hchosen
    exact h.candidate_eq hv hx ▸ (mem_of_candidateAt hx).1
  · exact isChosen_of_mem

end Candidates

end Grafx.Heap
