import OktoGrafx.Index.TreeMutation

/-! Whether the levels over a mutated tree come to an end. A round takes fewer pages than it was given
nodes exactly when two neighbours go on one page; where no two do, every round gives back as many, and
only the page numbers running out ends the loop. -/

namespace Grafx.Index

open List Checked Packing
open ChildPointer (node)
open IndexEntry (insertion)

def maxKeyBytes (pageSize : ℕ) : ℕ := pageSize - pageHeaderSize - slotEntrySize - indexEntryHeaderSize

def pointerSize (high : High) : ℕ := orderedInternalEntrySize + high.key.length + slotEntrySize

structure LoopState where
  nodes : List CowNode
  newPages : List TreePage

variable {g : Growth} {s t : LoopState} {nodes : List CowNode} {newPages : List TreePage} {height rounds : ℕ}

structure Roomy (g : Growth) (s : LoopState) : Prop where
  pointable : ∀ n ∈ s.nodes, n.Pointable
  fits : ∀ n ∈ s.nodes, pointerSize n.maximum ≤ g.room
  numbers : g.startPage + s.newPages.length + s.nodes.length ≤ noPage

def Shares (g : Growth) (s : LoopState) : Prop := NeighboursFit pointerSize g.room (s.nodes.map (·.maximum))

inductive Rounds (g : Growth) (s : LoopState) : LoopState → Prop where
  | start : Rounds g s s
  | round {t : LoopState} {nodes : List CowNode} {newPages : List TreePage} (before : Rounds g s t) (more : 2 ≤ t.nodes.length)
      (packed : packInternal g t.nodes t.newPages = .ok (nodes, newPages)) : Rounds g s ⟨nodes, newPages⟩

/-! ## One round -/

theorem pointerItem_sizes : (fun q : ChildPointer => (pointerItem q).size) = fun q => pointerSize q.high := funext pointerItem_size

theorem binsOf_pointers (ps : List ChildPointer) :
    (binsOf pointerItem g ps).length = (greedy pointerSize g.room ((ps.map node).map (·.maximum))).length := by
  rw [map_map, greedy_map, length_map, binsOf, pointerItem_sizes]
  rfl

theorem packInternal_inv {nodes' : List CowNode} {newPages' : List TreePage} (hne : nodes ≠ [])
    (h : packInternal g nodes newPages = .ok (nodes', newPages')) :
    ∃ ps : List ChildPointer, nodes = ps.map node ∧ (∀ q ∈ ps, (pointerItem q).size ≤ g.room) ∧
      g.startPage + newPages.length + (binsOf pointerItem g ps).length ≤ noPage ∧
      nodes' = nodesOf pointerItem (g.startPage + newPages.length) (binsOf pointerItem g ps) ∧
      newPages' = newPages ++ levelPages pointerItem g .indexOrderedInternal (g.startPage + newPages.length) ps := by
  obtain ⟨ps, hps, h⟩ := bind_ok_iff.mp h
  have hnodes := mapM_make hps
  have hpages : g.startPage + newPages.length ≤ noPage := by
    cases ps with
    | nil => exact absurd hnodes hne
    | cons q ps =>
      obtain ⟨r, hr, -⟩ := bind_ok_iff.mp h
      obtain ⟨o, ho, -⟩ := bind_ok_iff.mp hr
      exact (openPage_ok_iff.mp ho).1.le
  obtain ⟨hsize, hend, heq⟩ := (packLevel_ok_iff hpages).mp h
  cases heq
  exact ⟨ps, hnodes, hsize, hend, rfl, rfl⟩

theorem round_length (hmore : 2 ≤ s.nodes.length)
    (h : packInternal g s.nodes s.newPages = .ok (nodes, newPages)) : nodes.length < s.nodes.length ↔ Shares g s := by
  have hne : s.nodes ≠ [] := by
    intro hnil
    rw [hnil] at hmore
    exact absurd hmore (by simp)
  obtain ⟨ps, hnodes, -, -, rfl, -⟩ := packInternal_inv hne h
  rw [Shares, ← greedy_length_lt_iff, length_map, nodesOf_length, binsOf_pointers, ← hnodes]

theorem nodesOf_maximum (k : ℕ) (ps : List ChildPointer) :
    (nodesOf pointerItem k (ps.map fun q => [q])).map (·.maximum) = (ps.map node).map (·.maximum) := by
  have hfst : ((ps.map fun q => [q]).zipIdx k).map Prod.fst = ps.map fun q => [q] := zipIdx_map_fst k _
  calc (nodesOf pointerItem k (ps.map fun q => [q])).map (·.maximum)
      = (((ps.map fun q => [q]).zipIdx k).map Prod.fst).map fun bin => lastHigh (bin.map pointerItem) := by
        rw [nodesOf, map_map, map_map]
        rfl
    _ = (ps.map node).map (·.maximum) := by
        rw [hfst, map_map, map_map]
        rfl

section Stuck
variable {ps : List ChildPointer}

theorem stuck_bins (hnodes : s.nodes = ps.map node) (hstuck : ¬ Shares g s) :
    binsOf pointerItem g ps = ps.map fun q => [q] := by
  apply greedy_of_not_fit
  rw [Shares, hnodes, map_map, neighboursFit_map] at hstuck
  rw [pointerItem_sizes]
  exact hstuck

end Stuck

theorem stuck_round (hroomy : Roomy g s) (hstuck : ¬ Shares g s) :
    ∃ nodes level, packInternal g s.nodes s.newPages = .ok (nodes, s.newPages ++ level) ∧ level.length = s.nodes.length ∧
      nodes.map (·.maximum) = s.nodes.map (·.maximum) ∧
      ∀ n ∈ nodes, g.startPage ≤ n.page ∧ n.page < g.startPage + s.newPages.length + s.nodes.length := by
  obtain ⟨ps, hnodes⟩ := exists_pointers hroomy.pointable
  have hbins := stuck_bins hnodes hstuck
  have hlength : (binsOf pointerItem g ps).length = s.nodes.length := by rw [hbins, hnodes, length_map, length_map]
  have hfits : ∀ q ∈ ps, (pointerItem q).size ≤ g.room := by
    intro q hq
    have hq := hroomy.fits q.node (hnodes ▸ mem_map_of_mem hq)
    rw [pointerItem_size]
    exact hq
  have hnumbers := hroomy.numbers
  refine ⟨_, _, hnodes ▸ packInternal_ok hfits (by omega), ?_, ?_, ?_⟩
  · rw [levelPages_length, hlength]
  · rw [hbins, nodesOf_maximum, ← hnodes]
  · intro n hn
    obtain ⟨hge, hlt⟩ := nodesOf_page hn
    exact ⟨by omega, by omega⟩

theorem stuck_exhausted (hpointable : ∀ n ∈ s.nodes, n.Pointable) (hfits : ∀ n ∈ s.nodes, pointerSize n.maximum ≤ g.room)
    (hpages : g.startPage + s.newPages.length ≤ noPage) (hover : noPage < g.startPage + s.newPages.length + s.nodes.length)
    (hstuck : ¬ Shares g s) : packInternal g s.nodes s.newPages = .error (.pageIndexSpace noPage) := by
  obtain ⟨ps, hnodes⟩ := exists_pointers hpointable
  have hbins := stuck_bins hnodes hstuck
  have hitems : ∀ q ∈ ps, (pointerItem q).size ≤ g.room := by
    intro q hq
    rw [pointerItem_size]
    exact hfits q.node (hnodes ▸ mem_map_of_mem hq)
  rw [hnodes, length_map] at hover
  rw [hnodes, packInternal, mapM_node, ok_bind]
  refine ((packLevel_within hpages hitems).resolve_right ?_).1
  rintro ⟨_, -, hend, rfl⟩
  rw [length_append, levelPages_length, hbins, length_map] at hend
  omega

/-! ## The loop -/

theorem stuck_loop (hstart : firstOrderedTreePage ≤ g.startPage) (hmore : 2 ≤ s.nodes.length)
    (hpointable : ∀ n ∈ s.nodes, n.Pointable) (hfits : ∀ n ∈ s.nodes, pointerSize n.maximum ≤ g.room) (hstuck : ¬ Shares g s)
    (hpages : g.startPage + s.newPages.length ≤ noPage) (hrounds : noPage ≤ g.startPage + s.newPages.length + rounds) :
    packLevels g rounds s.nodes height s.newPages = .error (.pageIndexSpace noPage) := by
  induction rounds generalizing s height with
  | zero =>
    have hend : g.startPage + s.newPages.length = noPage := by omega
    cases hnodes : s.nodes with
    | nil =>
      rw [hnodes] at hmore
      exact absurd hmore (by simp)
    | cons a nodes =>
      cases nodes with
      | nil =>
        rw [hnodes] at hmore
        exact absurd hmore (by simp)
      | cons b nodes =>
        rw [packLevels, hend] <;> simp
  | succ rounds ih =>
    rw [packLevels_more hmore]
    by_cases hnumbers : g.startPage + s.newPages.length + s.nodes.length ≤ noPage
    · obtain ⟨nodes, level, hpack, hlevel, hmaxima, hrange⟩ := stuck_round ⟨hpointable, hfits, hnumbers⟩ hstuck
      have hcount : nodes.length = s.nodes.length := by
        have hlength := congrArg length hmaxima
        rwa [length_map, length_map] at hlength
      have hmem : ∀ n ∈ nodes, ∃ m ∈ s.nodes, m.maximum = n.maximum := by
        intro n hn
        have hmax : n.maximum ∈ s.nodes.map (·.maximum) := hmaxima ▸ mem_map_of_mem hn
        exact mem_map.mp hmax
      have hpointable' : ∀ n ∈ nodes, n.Pointable := by
        intro n hn
        obtain ⟨m, hm, hmax⟩ := hmem n hn
        obtain ⟨hkey, hlength, -, -⟩ := hpointable m hm
        obtain ⟨hge, hlt⟩ := hrange n hn
        rw [hmax] at hkey hlength
        exact ⟨hkey, hlength, by omega, by omega⟩
      have hfits' : ∀ n ∈ nodes, pointerSize n.maximum ≤ g.room := by
        intro n hn
        obtain ⟨m, hm, hmax⟩ := hmem n hn
        rw [← hmax]
        exact hfits m hm
      have hstuck' : ¬ Shares g ⟨nodes, s.newPages ++ level⟩ := by
        unfold Shares
        rw [hmaxima]
        exact hstuck
      have hlength : (s.newPages ++ level).length = s.newPages.length + s.nodes.length := by rw [length_append, hlevel]
      rw [hpack, ok_bind]
      apply ih (s := ⟨nodes, s.newPages ++ level⟩) (hcount ▸ hmore) hpointable' hfits' hstuck'
      · simp only [hlength]
        omega
      · simp only [hlength]
        omega
    · rw [stuck_exhausted hpointable hfits hpages (by omega) hstuck]
      rfl

theorem Rounds.head (hmore : 2 ≤ s.nodes.length)
    (hpack : packInternal g s.nodes s.newPages = .ok (nodes, newPages)) (h : Rounds g ⟨nodes, newPages⟩ t) : Rounds g s t := by
  induction h with
  | start => exact .round .start hmore hpack
  | round before more packed ih => exact .round ih more packed

def Reduces (g : Growth) (s : LoopState) : Prop :=
  ∀ t, Rounds g s t → 2 ≤ t.nodes.length → ∀ nodes newPages, packInternal g t.nodes t.newPages = .ok (nodes, newPages) →
    nodes.length < t.nodes.length

def AlwaysShares (g : Growth) (s : LoopState) : Prop := ∀ t, Rounds g s t → 2 ≤ t.nodes.length → Roomy g t → Shares g t

theorem reduces_iff : Reduces g s ↔ AlwaysShares g s := by
  constructor
  · intro hreduces t ht hmore hroomy
    by_contra hstuck
    obtain ⟨nodes, level, hpack, -, hmaxima, -⟩ := stuck_round hroomy hstuck
    exact hstuck ((round_length hmore hpack).mp (hreduces t ht hmore _ _ hpack))
  · intro hshares t ht hmore nodes newPages hpack
    apply (round_length hmore hpack).mpr
    by_contra hstuck
    apply hstuck
    apply hshares t ht hmore
    have hne : t.nodes ≠ [] := fun hnil => absurd hmore (by simp [hnil])
    obtain ⟨ps, hnodes, hfits, hend, -, -⟩ := packInternal_inv hne hpack
    have hbins := stuck_bins hnodes hstuck
    constructor
    · intro n hn
      rw [hnodes] at hn
      obtain ⟨q, -, rfl⟩ := mem_map.mp hn
      exact ⟨q.key_ne, q.key_le, q.first_le, q.child_lt⟩
    · intro n hn
      rw [hnodes] at hn
      obtain ⟨q, hq, rfl⟩ := mem_map.mp hn
      exact (pointerItem_size q).symm.le.trans (hfits q hq)
    · rw [hbins, length_map] at hend
      rw [hnodes, length_map]
      exact hend

theorem loop_ends (bound : ℕ) {rounds' : ℕ} (hbound : s.nodes.length ≤ bound) (hreduces : Reduces g s)
    (hrounds : s.nodes.length ≤ rounds) (hrounds' : s.nodes.length ≤ rounds') :
    packLevels g rounds s.nodes height s.newPages = packLevels g rounds' s.nodes height s.newPages := by
  induction bound generalizing s rounds rounds' height with
  | zero =>
    have hnil : s.nodes = [] := length_eq_zero_iff.mp (Nat.le_zero.mp hbound)
    rw [hnil]
    cases rounds <;> cases rounds' <;> rfl
  | succ bound ih =>
    by_cases hmore : 2 ≤ s.nodes.length
    · obtain ⟨k, rfl⟩ : ∃ k, rounds = k + 1 := ⟨rounds - 1, by omega⟩
      obtain ⟨k', rfl⟩ : ∃ k', rounds' = k' + 1 := ⟨rounds' - 1, by omega⟩
      rw [packLevels_more hmore, packLevels_more hmore]
      cases hpack : packInternal g s.nodes s.newPages with
      | error e => rfl
      | ok r =>
        obtain ⟨nodes, newPages⟩ := r
        have hfewer := hreduces s .start hmore nodes newPages hpack
        have hrest : Reduces g ⟨nodes, newPages⟩ := fun t ht => hreduces t (ht.head hmore hpack)
        have hle : nodes.length ≤ bound := by omega
        have hle₁ : nodes.length ≤ k := by omega
        have hle₂ : nodes.length ≤ k' := by omega
        exact ih (s := ⟨nodes, newPages⟩) hle hrest hle₁ hle₂
    · cases hnodes : s.nodes with
      | nil => cases rounds <;> cases rounds' <;> rfl
      | cons n nodes =>
        rw [hnodes, length_cons] at hmore
        have hnil : nodes = [] := length_eq_zero_iff.mp (by omega)
        rw [hnil]
        cases rounds <;> cases rounds' <;> rfl

theorem Rounds.loop (height : ℕ) (h : Rounds g s t) (hrounds : noPage ≤ g.startPage + s.newPages.length + rounds) :
    ∃ rounds' height', packLevels g rounds s.nodes height s.newPages = packLevels g rounds' t.nodes height' t.newPages ∧
      noPage ≤ g.startPage + t.newPages.length + rounds' := by
  induction h with
  | start => exact ⟨rounds, height, rfl, hrounds⟩
  | @round t nodes newPages before more packed ih =>
    obtain ⟨rounds', height', hloop, hleft⟩ := ih
    have hne : t.nodes ≠ [] := fun hnil => absurd more (by simp [hnil])
    obtain ⟨ps, hnodes, -, hend, -, rfl⟩ := packInternal_inv hne packed
    have hbins : 0 < (binsOf pointerItem g ps).length := by
      cases ps with
      | nil => exact absurd hnodes hne
      | cons q ps => exact fill_length_pos _ _
    obtain ⟨k, rfl⟩ : ∃ k, rounds' = k + 1 := ⟨rounds' - 1, by omega⟩
    refine ⟨k, height' + 1, ?_, ?_⟩
    · rw [hloop, packLevels_more more, packed]
      rfl
    · rw [length_append, levelPages_length]
      omega

theorem mutate_stuck {pages : ℕ → Option TreePage} {rootPage entryCount height' : ℕ} {changes : List TreeChange} {r : CowResult}
    (hpageSize : validatePageSize g.pageSize = .ok ()) (hstart : checkStart g = .ok ()) (hlsn : checkLsn g = .ok ())
    (hchanges : changes.forM checkChange = .ok ()) (hne : changes ≠ [])
    (hroot : mutateRoot g pages rootPage height entryCount (orderChanges changes) = .ok (r, height', newPages))
    (hreached : Rounds g ⟨r.nodes, newPages⟩ t) (hmore : 2 ≤ t.nodes.length) (hroomy : Roomy g t) (hstuck : ¬ Shares g t) :
    mutateOrderedTree g pages rootPage height entryCount changes = .error (.pageIndexSpace noPage) := by
  have hfirst : firstOrderedTreePage ≤ g.startPage := (ensure_ok_iff.mp hstart).1
  have hfuel : noPage ≤ g.startPage + newPages.length + (noPage - (g.startPage + newPages.length)) := by omega
  obtain ⟨rounds, height'', hloop, hleft⟩ := hreached.loop height' hfuel
  have hnumbers := hroomy.numbers
  have hlevels : packLevels g (noPage - (g.startPage + newPages.length)) r.nodes height' newPages = .error (.pageIndexSpace noPage) := by
    apply hloop.trans
    exact stuck_loop hfirst hmore hroomy.pointable hroomy.fits hstuck (by omega) hleft
  rw [mutateOrderedTree, hpageSize, hstart, hlsn, hchanges]
  simp only [ok_bind, if_neg hne, hroot, hlevels]
  rfl

/-! ## Short keys -/

theorem Rounds.maxima (h : Rounds g s t) : ∀ n ∈ t.nodes, ∃ m ∈ s.nodes, m.maximum = n.maximum := by
  induction h with
  | start => exact fun n hn => ⟨n, hn, rfl⟩
  | @round t nodes newPages before more packed ih =>
    have hne : t.nodes ≠ [] := fun hnil => absurd more (by simp [hnil])
    obtain ⟨ps, hnodes, -, -, rfl, -⟩ := packInternal_inv hne packed
    intro n hn
    obtain ⟨⟨bin, i⟩, hbin, rfl⟩ := mem_map.mp hn
    have hin : bin ∈ binsOf pointerItem g ps := fst_mem_of_mem_zipIdx hbin
    have hend : bin.getLast?.map (fun q => q.high) = some (lastHigh (bin.map pointerItem)) :=
      getLast_lastHigh pointerItem (fun _ => rfl) (greedy_ne_nil ps bin hin)
    obtain ⟨last, hlast, hhigh⟩ := Option.map_eq_some_iff.mp hend
    have hmem : last ∈ ps := by
      have hflat : (binsOf pointerItem g ps).flatten = ps := greedy_flatten ps
      rw [← hflat]
      exact mem_flatten.mpr ⟨bin, hin, mem_of_getLast? hlast⟩
    obtain ⟨m, hm, hmax⟩ := ih last.node (hnodes ▸ mem_map_of_mem hmem)
    exact ⟨m, hm, hmax.trans hhigh⟩

theorem alwaysShares_of_short (h : ∀ n ∈ s.nodes, g.FitsTwice n.maximum.key) : AlwaysShares g s := by
  intro t ht hmore hroomy
  obtain ⟨ps, hnodes⟩ := exists_pointers hroomy.pointable
  have hshort : ∀ q ∈ ps, g.FitsTwice q.high.key := by
    intro q hq
    obtain ⟨m, hm, hmax⟩ := ht.maxima q.node (hnodes ▸ mem_map_of_mem hq)
    have hfits := h m hm
    rw [hmax] at hfits
    exact hfits
  have hfit := two_fit hshort (by rw [hnodes, length_map] at hmore; exact hmore)
  rw [Shares, hnodes, map_map, neighboursFit_map]
  rw [pointerItem_sizes] at hfit
  exact hfit

/-! ## The loop of a call -/

/-- The upper loop of a call gets fewer nodes every round exactly when in every round it has page numbers
for two neighbours share a page. Then it ends by itself; otherwise it uses up the page numbers. -/
theorem upper_levels_reduce_iff (g : Growth) (pages : ℕ → Option TreePage) (rootPage height entryCount height' : ℕ)
    (changes : List TreeChange) (r : CowResult) (newPages : List TreePage) (hpageSize : validatePageSize g.pageSize = .ok ())
    (hstart : checkStart g = .ok ()) (hlsn : checkLsn g = .ok ()) (hchanges : changes.forM checkChange = .ok ()) (hne : changes ≠ [])
    (hroot : mutateRoot g pages rootPage height entryCount (orderChanges changes) = .ok (r, height', newPages)) :
    (Reduces g ⟨r.nodes, newPages⟩ ↔ AlwaysShares g ⟨r.nodes, newPages⟩) ∧
    (AlwaysShares g ⟨r.nodes, newPages⟩ → ∀ rounds, r.nodes.length ≤ rounds →
      packLevels g rounds r.nodes height' newPages = packLevels g r.nodes.length r.nodes height' newPages) ∧
    (¬ AlwaysShares g ⟨r.nodes, newPages⟩ →
      mutateOrderedTree g pages rootPage height entryCount changes = .error (.pageIndexSpace noPage)) ∧
    ((∀ n ∈ r.nodes, g.FitsTwice n.maximum.key) → AlwaysShares g ⟨r.nodes, newPages⟩) := by
  refine ⟨reduces_iff, fun hshares rounds hrounds => ?_, fun hnot => ?_, fun hshort => alwaysShares_of_short hshort⟩
  · exact loop_ends (s := ⟨r.nodes, newPages⟩) r.nodes.length le_rfl (reduces_iff.mpr hshares) hrounds le_rfl
  · simp only [AlwaysShares, not_forall] at hnot
    obtain ⟨t, hreached, hmore, hroomy, hstuck⟩ := hnot
    exact mutate_stuck hpageSize hstart hlsn hchanges hne hroot hreached hmore hroomy hstuck

theorem upper_levels_reduce_long_key : ∃ r newPages,
    mutateRoot ⟨512, 3, 0⟩ (fun _ => none) noPage 0 0 (orderChanges ([longEntry 0, longEntry 1, longEntry 2].map (insertion "by_name"))) =
      .ok (r, 1, newPages) ∧ r.nodes.length = 2 ∧ Reduces ⟨512, 3, 0⟩ ⟨r.nodes, newPages⟩ := by
  have hnodes : (mutateRoot ⟨512, 3, 0⟩ (fun _ => none) noPage 0 0
      (orderChanges ([longEntry 0, longEntry 1, longEntry 2].map (insertion "by_name")))).toOption.map
        (fun x => (x.1.nodes.map (·.maximum), x.2.1)) = some ([(longEntry 1).high, (longEntry 2).high], 1) := by decide +kernel
  obtain ⟨⟨r, height', newPages⟩, hroot, hvalues⟩ := exists_of_toOption_map hnodes
  obtain ⟨hmaxima, rfl⟩ := Prod.mk.inj hvalues
  obtain ⟨hiff, -, -, hshort⟩ := upper_levels_reduce_iff ⟨512, 3, 0⟩ (fun _ => none) noPage 0 0 1 _ r newPages rfl rfl rfl
    (by decide +kernel) (by simp) hroot
  refine ⟨r, newPages, hroot, ?_, hiff.mpr (hshort fun n hn => ?_)⟩
  · have hlength := congrArg length hmaxima
    rwa [length_map] at hlength
  · have hmem : n.maximum ∈ [(longEntry 1).high, (longEntry 2).high] := hmaxima ▸ mem_map_of_mem hn
    revert hmem
    generalize n.maximum = high
    revert high
    decide +kernel

def longestEntry (first : Fin 256) : IndexEntry :=
  ⟨replicate 449 first, ⟨1, 0, one_le_maxPageIndex, Nat.zero_le _⟩, false, noCsn, noCsn, noPage, 0, by rw [length_replicate]; decide,
    noCsn_lt, noCsn_lt, unstamped⟩

/-- Two entries with keys of the greatest length use up the page numbers. -/
theorem longest_keys_use_up_page_numbers :
    (∃ v, verifyOrderedTree (fun _ => none) noPage 0 (some 0) = .ok v) ∧
    (∀ c ∈ [longestEntry 1, longestEntry 2].map (insertion "by_name"), c.key.length ≤ maxKeyBytes 512) ∧
    (∃ r newPages nodes newPages', mutateRoot ⟨512, 3, 0⟩ (fun _ => none) noPage 0 0
        (orderChanges ([longestEntry 1, longestEntry 2].map (insertion "by_name"))) = .ok (r, 1, newPages) ∧
      packInternal ⟨512, 3, 0⟩ r.nodes newPages = .ok (nodes, newPages') ∧ r.nodes.length = 2 ∧ nodes.length = 2) ∧
    mutateOrderedTree ⟨512, 3, 0⟩ (fun _ => none) noPage 0 0 ([longestEntry 1, longestEntry 2].map (insertion "by_name")) =
      .error (.pageIndexSpace noPage) := by
  refine ⟨⟨_, rfl⟩, by decide +kernel, ?_⟩
  have hnodes : (mutateRoot ⟨512, 3, 0⟩ (fun _ => none) noPage 0 0
      (orderChanges ([longestEntry 1, longestEntry 2].map (insertion "by_name")))).toOption.map
        (fun x => (x.1.nodes, x.2.1, x.2.2.length)) = some ([⟨3, (longestEntry 1).high⟩, ⟨4, (longestEntry 2).high⟩], 1, 2) := by
    decide +kernel
  obtain ⟨⟨r, height', newPages⟩, hroot, hvalues⟩ := exists_of_toOption_map hnodes
  obtain ⟨hlist, hrest⟩ := Prod.mk.inj hvalues
  obtain ⟨rfl, hcount⟩ := Prod.mk.inj hrest
  have hlist : r.nodes = [⟨3, (longestEntry 1).high⟩, ⟨4, (longestEntry 2).high⟩] := hlist
  have hcount : newPages.length = 2 := hcount
  have hmaxima : r.nodes.map (·.maximum) = [(longestEntry 1).high, (longestEntry 2).high] := by rw [hlist]; rfl
  have hroomy : Roomy ⟨512, 3, 0⟩ ⟨r.nodes, newPages⟩ := by
    constructor
    · simp only [hlist]
      unfold CowNode.Pointable
      decide +kernel
    · simp only [hlist]
      decide +kernel
    · simp only [hlist, hcount]
      decide
  have hstuck : ¬ Shares ⟨512, 3, 0⟩ ⟨r.nodes, newPages⟩ := by
    unfold Shares NeighboursFit
    rw [hmaxima, not_not]
    exact isChain_cons_cons.mpr ⟨by decide +kernel, isChain_singleton _⟩
  have hmore : 2 ≤ r.nodes.length := by rw [hlist]; exact le_rfl
  obtain ⟨nodes, level, hpack, -, hsame, -⟩ := stuck_round hroomy hstuck
  have hlength : nodes.length = 2 := by
    have hlength := congrArg length hsame
    simp only [length_map, hlist] at hlength
    exact hlength
  refine ⟨⟨r, newPages, nodes, _, hroot, hpack, by rw [hlist]; rfl, hlength⟩, ?_⟩
  exact mutate_stuck rfl rfl rfl (by decide +kernel) (by simp) hroot .start hmore hroomy hstuck

end Grafx.Index
