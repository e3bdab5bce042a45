import OktoGrafx.Index.Mutated

/-! What a mutation that returns has done, whatever the keys it was given and the page numbers left. -/

namespace Grafx.Index

open List Checked Packing

variable {g : Growth} {pages : ℕ → Option TreePage} {before newPages : List TreePage} {r : CowResult}
  {high : High} {nodes : List CowNode} {es : List IndexEntry} {batch : List TreeChange} {d height rootPage : ℕ}

theorem packLeaf_inv (hroom : g.startPage + before.length ≤ noPage) (h : packLeaf g es before = .ok (nodes, newPages)) :
    nodes = nodesOf leafItem (g.startPage + before.length) (binsOf leafItem g es) ∧
      newPages = before ++ levelPages leafItem g .indexOrderedLeaf (g.startPage + before.length) es ∧ g.startPage + newPages.length ≤ noPage := by
  obtain ⟨-, hend, heq⟩ := (packLevel_ok_iff hroom).mp h
  cases heq
  refine ⟨rfl, rfl, ?_⟩
  rwa [length_append, levelPages_length, ← add_assoc]

theorem packInternal_pages {nodes' : List CowNode} (hroom : g.startPage + before.length ≤ noPage)
    (h : packInternal g nodes before = .ok (nodes', newPages)) :
    ∃ ps : List ChildPointer, nodes = ps.map ChildPointer.node ∧
      nodes' = nodesOf pointerItem (g.startPage + before.length) (binsOf pointerItem g ps) ∧
      newPages = before ++ levelPages pointerItem g .indexOrderedInternal (g.startPage + before.length) ps ∧
      g.startPage + newPages.length ≤ noPage := by
  obtain ⟨ps, hps, h⟩ := bind_ok_iff.mp h
  obtain ⟨-, hend, heq⟩ := (packLevel_ok_iff hroom).mp h
  cases heq
  refine ⟨ps, mapM_make hps, rfl, rfl, ?_⟩
  rwa [length_append, levelPages_length, ← add_assoc]

theorem plain_foldl (hes : ∀ e ∈ es, e.Plain) (hbatch : ∀ c ∈ batch, c.key ≠ []) :
    ∀ e ∈ batch.foldl foldChange es, e.Plain := @unversioned_foldl (· ≠ []) batch es hes hbatch

/-! ## Subtrees -/

theorem visitChildren_stands {visit : ℕ → List TreeChange → List TreePage → Except TreeRefusal (CowResult × List TreePage)}
    {items : List (ChildPointer × List TreeChange)}
    (hvisit : ∀ x ∈ items, ∀ before r newPages, g.startPage + before.length ≤ noPage → visit x.1.childPage x.2 before = .ok (r, newPages) →
      ∃ new, newPages = before ++ new ∧ g.startPage + newPages.length ≤ noPage ∧ Stands g pages d (entriesAt pages d x.1.childPage)
        (x.2.foldl foldChange (entriesAt pages d x.1.childPage)) before new r)
    (hsub : ∀ x ∈ items, Subtree pages d x.1.childPage x.1.high) (hbelow : ∀ x ∈ items, x.1.childPage < g.startPage)
    (hsorted : Keyed.Sorted IndexEntry.identity (items.flatMap fun x => x.2.foldl foldChange (entriesAt pages d x.1.childPage)))
    (hroom : g.startPage + before.length ≤ noPage) (h : visitChildren visit items before = .ok (r, newPages)) :
    ∃ new, newPages = before ++ new ∧ g.startPage + newPages.length ≤ noPage ∧ Stands g pages d (items.flatMap fun x => entriesAt pages d x.1.childPage)
      (items.flatMap fun x => x.2.foldl foldChange (entriesAt pages d x.1.childPage)) before new r := by
  induction items generalizing before r with
  | nil =>
    obtain ⟨rfl, rfl⟩ := Prod.mk.inj (Except.ok.inj h)
    exact ⟨[], (append_nil _).symm, hroom, stands_nil before⟩
  | cons x items ih =>
    obtain ⟨pointer, group⟩ := x
    obtain ⟨⟨child, pages₁⟩, hchild, h⟩ := bind_ok_iff.mp h
    obtain ⟨⟨others, pages₂⟩, hothers, h⟩ := bind_ok_iff.mp h
    cases pure_ok_iff.mp h
    have hx : (pointer, group) ∈ (pointer, group) :: items := mem_cons_self
    have hfirst : ∃ new, pages₁ = before ++ new ∧ g.startPage + pages₁.length ≤ noPage ∧ Stands g pages d (entriesAt pages d pointer.childPage)
        (group.foldl foldChange (entriesAt pages d pointer.childPage)) before new child := by
      by_cases hgroup : group = []
      · subst hgroup
        cases hchild
        refine ⟨[], (append_nil _).symm, hroom, ?_⟩
        exact stands_kept 0 (hsub _ hx) pointer.first_le (hbelow _ hx) (Keyed.sorted_append.mp hsorted).1 rfl
      · rw [visitChild, if_neg hgroup] at hchild
        exact hvisit _ hx before child pages₁ hroom hchild
    obtain ⟨new, rfl, hroom', hstands⟩ := hfirst
    obtain ⟨new', rfl, hroom'', hstands'⟩ := ih (forall_mem_cons.mp hvisit).2
      (forall_mem_cons.mp hsub).2 (forall_mem_cons.mp hbelow).2
      (Keyed.sorted_append.mp hsorted).2.1 hroom' hothers
    exact ⟨new ++ new', append_assoc .., hroom'', hstands.append hstands' hsorted⟩

section
variable (hstart : firstOrderedTreePage ≤ g.startPage)
include hstart

theorem applyLeaf_stands {i : ℕ}
    (hsub : Subtree pages 0 i high) (hfirst : firstOrderedTreePage ≤ i) (hbelow : i < g.startPage) (hbatch : ∀ c ∈ batch, c.key ≠ [])
    (hroom : g.startPage + before.length ≤ noPage) (h : applyLeaf g pages i batch before = .ok (r, newPages)) :
    ∃ new, newPages = before ++ new ∧ g.startPage + newPages.length ≤ noPage ∧
      Stands g pages 0 (entriesAt pages 0 i) (batch.foldl foldChange (entriesAt pages 0 i)) before new r := by
  have hleafsub := hsub
  obtain ⟨es, hleaf, hlast⟩ := hsub
  have hentries : entriesAt pages 0 i = es := hleaf.entries
  obtain ⟨hsorted, hplain⟩ := hleaf.spec
  obtain ⟨last, hlast, hhigh⟩ := Option.map_eq_some_iff.mp hlast
  obtain ⟨p, hp, -, hdecode⟩ := hleaf
  simp only [applyLeaf, hp, hdecode, ok_bind] at h
  by_cases hchanged : (batch.foldl applyChange ⟨es, false, 0, 0⟩).changed = true
  · rw [if_pos hchanged, sort_applied hsorted batch] at h
    obtain ⟨⟨nodes, pages₁⟩, hpack, h⟩ := bind_ok_iff.mp h
    cases pure_ok_iff.mp h
    obtain ⟨rfl, rfl, hend⟩ := packLeaf_inv hroom hpack
    rw [hentries]
    exact ⟨_, rfl, hend, stands_packLeaf _ hstart (foldChange_step.foldl_sorted batch hsorted) (plain_foldl hplain hbatch)
      (delta_applied hsorted batch)⟩
  · have hsame : (batch.foldl applyChange ⟨es, false, 0, 0⟩).changed = false := Bool.eq_false_iff.mpr hchanged
    simp only [if_neg hchanged, hlast] at h
    cases pure_ok_iff.mp h
    refine ⟨[], (append_nil _).symm, hroom, ?_⟩
    rw [hentries, unchanged_applied hsorted hsame, ← hentries, hhigh]
    exact stands_kept _ hleafsub hfirst hbelow (hentries ▸ hsorted) rfl

theorem visit_stands {i : ℕ} (hsub : Subtree pages d i high) (hfirst : firstOrderedTreePage ≤ i) (hbelow : i < g.startPage)
    (hsorted : Keyed.Sorted IndexEntry.identity (entriesAt pages d i)) (hbatch : ∀ c ∈ batch, c.key ≠ [])
    (hroom : g.startPage + before.length ≤ noPage) (h : visit g pages d i batch before = .ok (r, newPages)) :
    ∃ new, newPages = before ++ new ∧ g.startPage + newPages.length ≤ noPage ∧
      Stands g pages d (entriesAt pages d i) (batch.foldl foldChange (entriesAt pages d i)) before new r := by
  induction d generalizing i high batch before r newPages with
  | zero => exact applyLeaf_stands hstart hsub hfirst hbelow hbatch hroom h
  | succ d ih =>
    obtain ⟨ps, last, hbranch⟩ := hsub.branch hbelow hsorted batch
    obtain ⟨p, hp, -, hdecode⟩ := hbranch.internal
    rw [visit, hp] at h
    simp only [hdecode, ok_bind, hbranch.getLast] at h
    obtain ⟨⟨result, pages₁⟩, hvisited, h⟩ := bind_ok_iff.mp h
    obtain ⟨new, rfl, hroom', hstands⟩ := visitChildren_stands
      (fun x hx before' r' pages' hroom' hx' => ih (hbranch.subtree x hx) x.1.first_le (hbranch.below x hx) (hbranch.sorted x hx)
        (fun c hc => hbatch c (hbranch.changes x hx c hc)) hroom' hx')
      hbranch.subtree hbranch.below (hbranch.after ▸ foldChange_step.foldl_sorted batch hsorted) hroom hvisited
    rw [hbranch.after, hbranch.before] at hstands
    by_cases hchanged : result.changed = true
    · rw [if_pos hchanged] at h
      obtain ⟨⟨nodes, pages₂⟩, hpack, h⟩ := bind_ok_iff.mp h
      cases pure_ok_iff.mp h
      obtain ⟨qs, hnodes, rfl, rfl, hend⟩ := packInternal_pages hroom' hpack
      exact ⟨_, append_assoc .., hend, hstands.packed hstart hnodes⟩
    · rw [if_neg hchanged] at h
      cases pure_ok_iff.mp h
      rw [hstands.unchanged (Bool.eq_false_iff.mpr hchanged), hbranch.high]
      exact ⟨new, rfl, hroom', stands_kept _ hsub hfirst hbelow hsorted hstands.index⟩

/-! ## Trees -/

omit hstart in
theorem packLevels_more {rounds : ℕ} (htwo : 2 ≤ nodes.length) (newPages : List TreePage) : packLevels g (rounds + 1) nodes height newPages =
      (packInternal g nodes newPages >>= fun s => packLevels g rounds s.1 (height + 1) s.2) := by
  cases nodes with
  | nil => exact absurd htwo (by simp)
  | cons a nodes =>
    cases nodes with
    | nil => exact absurd htwo (by simp)
    | cons b nodes => rfl

omit hstart in
theorem packLevels_ok_iff {rounds : ℕ} {r : List CowNode × ℕ × List TreePage} : packLevels g rounds nodes height newPages = .ok r ↔
      (nodes.length ≤ 1 ∧ r = (nodes, height, newPages)) ∨
      (2 ≤ nodes.length ∧ ∃ rounds', rounds = rounds' + 1 ∧
        ∃ s, packInternal g nodes newPages = .ok s ∧ packLevels g rounds' s.1 (height + 1) s.2 = .ok r) := by
  by_cases hmore : 2 ≤ nodes.length
  · cases rounds with
    | zero =>
      obtain _ | ⟨n, _ | ⟨m, rest⟩⟩ := nodes
      · cases hmore
      · exact absurd hmore (by simp)
      · simp [packLevels]
    | succ rounds =>
      rw [packLevels_more hmore, bind_ok_iff]
      constructor
      · intro h
        exact .inr ⟨hmore, rounds, rfl, h⟩
      · rintro (⟨hone, -⟩ | ⟨-, rounds', heq, h⟩)
        · exact absurd hmore (Nat.not_le_of_lt (Nat.lt_succ_of_le hone))
        · rwa [Nat.succ.inj heq]
  · have hone : nodes = [] ∨ ∃ n, nodes = [n] := by
      rw [← length_eq_zero_iff, ← length_eq_one_iff]
      omega
    rcases hone with rfl | ⟨n, rfl⟩ <;> cases rounds <;> simp [packLevels, eq_comm]

omit hstart in
theorem Stands.packLevels {rounds : ℕ} {after : List IndexEntry} {new : List TreePage}
    (h : Stands g pages d es after [] new r) (hstart : firstOrderedTreePage ≤ g.startPage) (hroom : g.startPage + new.length ≤ noPage)
    (hne : r.nodes ≠ []) (hlevels : packLevels g rounds r.nodes (d + 1) new = .ok (nodes, height, newPages)) :
    ∃ n d', nodes = [n] ∧ height = d' + 1 ∧ g.startPage + newPages.length ≤ noPage ∧
      Stands g pages d' es after [] newPages { r with nodes := [n] } := by
  induction rounds using Nat.strong_induction_on generalizing r new d with
  | _ rounds ih =>
    rcases packLevels_ok_iff.mp hlevels with ⟨hone, heq⟩ | ⟨hmore, rounds', rfl, ⟨nodes₁, pages₁⟩, hround, hrest⟩
    · obtain ⟨rfl, rfl, rfl⟩ : nodes = r.nodes ∧ height = d + 1 ∧ newPages = new := by simpa using heq
      obtain ⟨n, hn⟩ := length_eq_one_iff.mp (le_antisymm hone (length_pos_of_ne_nil hne))
      refine ⟨n, d, hn, rfl, hroom, ?_⟩
      rw [← hn]
      exact h
    · obtain ⟨ps, hnodes, rfl, rfl, hend⟩ := packInternal_pages hroom hround
      have hps : ps ≠ [] := by
        rintro rfl
        exact hne hnodes
      have hnext : nodesOf pointerItem (g.startPage + new.length) (binsOf pointerItem g ps) ≠ [] := by
        apply ne_nil_of_length_pos
        rw [nodesOf_length]
        cases ps with
        | nil => exact absurd rfl hps
        | cons q ps => exact fill_length_pos [q] ps
      have hraised := h.packed hstart hnodes
      have htop := ih rounds' (Nat.lt_succ_self rounds') hraised hend hnext hrest
      exact htop

theorem mutateRoot_stands {height' : ℕ}
    (hroom : g.startPage + ([] : List TreePage).length ≤ noPage) (htree : Tree pages rootPage height) (hbelow : rootPage ≠ noPage → rootPage < g.startPage)
    (hbatch : ∀ c ∈ batch, c.key ≠ [])
    (h : mutateRoot g pages rootPage height (treeEntries pages rootPage height).length batch = .ok (r, height', newPages)) :
    height' = (if r.nodes = [] then 0 else height - 1 + 1) ∧ g.startPage + newPages.length ≤ noPage ∧
      Stands g pages (height - 1) (treeEntries pages rootPage height) (batch.foldl foldChange (treeEntries pages rootPage height)) [] newPages r := by
  unfold Tree at htree
  unfold treeEntries at h ⊢
  unfold mutateRoot at h
  by_cases hempty : rootPage = noPage
  · simp only [if_pos hempty] at htree h ⊢
    obtain ⟨_, _, h⟩ := bind_ok_iff.mp h
    obtain ⟨⟨result, pages₁⟩, hvisit, h⟩ := bind_ok_iff.mp h
    obtain ⟨rfl, hrest⟩ := Prod.mk.inj (pure_ok_iff.mp h)
    cases hrest
    rw [visitEmpty, sort_applied .nil batch] at hvisit
    obtain ⟨⟨nodes, pages₂⟩, hpack, hvisit⟩ := bind_ok_iff.mp hvisit
    cases pure_ok_iff.mp hvisit
    obtain ⟨rfl, rfl, hend⟩ := packLeaf_inv hroom hpack
    have hstands : Stands g pages 0 [] (batch.foldl foldChange []) [] _ _ := stands_packLeaf (batch.foldl applyChange ⟨[], false, 0, 0⟩).missing
      hstart (foldChange_step.foldl_sorted batch .nil) (plain_foldl (by simp) hbatch) (delta_applied .nil batch)
    subst htree
    refine ⟨rfl, hend, { hstands with unchanged := fun hsame => hstands.nodes_nil_iff.mp ?_ }⟩
    simpa using hsame
  · simp only [if_neg hempty] at htree h ⊢
    obtain ⟨hheight, hfirst, ⟨high, hsub⟩, hsorted⟩ := htree
    have hpred : height - 1 + 1 = height := Nat.succ_pred_eq_of_pos hheight
    obtain ⟨_, _, h⟩ := bind_ok_iff.mp h
    obtain ⟨⟨result, pages₁⟩, hvisit, h⟩ := bind_ok_iff.mp h
    obtain ⟨rfl, hrest⟩ := Prod.mk.inj (pure_ok_iff.mp h)
    cases hrest
    obtain ⟨new, rfl, hend, hstands⟩ := visit_stands hstart hsub hfirst (hbelow hempty) hsorted hbatch hroom hvisit
    exact ⟨by rw [hpred], hend, hstands⟩

end

theorem Tree.transfer {start : ℕ} {pages' : ℕ → Option TreePage} (h : Tree pages rootPage height)
    (hagree : Agree pages pages' start) (hbelow : rootPage ≠ noPage → rootPage < start) :
    Tree pages' rootPage height ∧ treeEntries pages' rootPage height = treeEntries pages rootPage height := by
  unfold Tree at h ⊢
  unfold treeEntries
  by_cases hempty : rootPage = noPage
  · simp only [if_pos hempty] at h ⊢
    exact ⟨h, trivial⟩
  · simp only [if_neg hempty] at h ⊢
    obtain ⟨hheight, hfirst, ⟨high, hsub⟩, hsorted⟩ := h
    obtain ⟨hsub', hentries, -⟩ := hsub.transfer fun u hu => hagree u (by omega)
    exact ⟨⟨hheight, hfirst, ⟨high, hsub'⟩, hentries ▸ hsorted⟩, hentries⟩

theorem Forest.tree {n : CowNode} (h : Forest pages d [n]) (hfirst : firstOrderedTreePage ≤ n.page) (hpage : n.page < noPage) :
    Tree pages n.page (d + 1) ∧ treeEntries pages n.page (d + 1) = forestEntries pages d [n] := by
  have hne : n.page ≠ noPage := hpage.ne
  have hone : forestEntries pages d [n] = entriesAt pages d n.page := flatMap_singleton _ n
  constructor
  · rw [Tree, if_neg hne]
    exact ⟨Nat.succ_pos d, hfirst, ⟨n.maximum, h.subtree n (mem_singleton_self n)⟩, hone ▸ h.sorted⟩
  · rw [treeEntries, if_neg hne, hone]
    rfl

theorem foldl_orderChanges (changes : List TreeChange) (hes : Keyed.Sorted IndexEntry.identity es) :
    (orderChanges changes).foldl foldChange es = changes.foldl foldChange es :=
  foldChange_step.foldl_congr hes fun i => Keyed.allAt_sort changes i

theorem length_orderChanges (changes : List TreeChange) : (orderChanges changes).length = changes.length :=
  (Keyed.sort_perm changes).length_eq

theorem mem_orderChanges {changes : List TreeChange} {c : TreeChange} : c ∈ orderChanges changes ↔ c ∈ changes := Keyed.mem_sort

/-- What a mutation that returned left: a tree over any pages that agree with the old ones below the
first new page and hold the new ones. -/
theorem mutateOrderedTree_sound {changes : List TreeChange} {m : OrderedTreeMutation} (htree : Tree pages rootPage height)
    (hbelow : rootPage ≠ noPage → rootPage < g.startPage)
    (h : mutateOrderedTree g pages rootPage height (treeEntries pages rootPage height).length changes = .ok m) :
    firstOrderedTreePage ≤ g.startPage ∧ m.pages.map (·.pageIndex) = range' g.startPage m.pages.length ∧
    (m.rootPage ≠ noPage → m.rootPage < g.startPage + m.pages.length) ∧
    ∀ pages', Agree pages pages' g.startPage → Stores pages' m.pages → Tree pages' m.rootPage m.height ∧
      m.entryCount = (treeEntries pages' m.rootPage m.height).length ∧
      (treeEntries pages' m.rootPage m.height).map IndexEntry.bare =
        changes.foldl foldChange ((treeEntries pages rootPage height).map IndexEntry.bare) := by
  obtain ⟨_, -, h⟩ := bind_ok_iff.mp h
  obtain ⟨_, hstart, h⟩ := bind_ok_iff.mp h
  obtain ⟨_, -, h⟩ := bind_ok_iff.mp h
  obtain ⟨_, hchecked, h⟩ := bind_ok_iff.mp h
  obtain ⟨hfirst, hlast⟩ := ensure_ok_iff.mp hstart
  by_cases hnil : changes = []
  · subst hnil
    obtain rfl := pure_ok_iff.mp h
    refine ⟨hfirst, rfl, fun hroot => (hbelow hroot).trans_le (Nat.le_add_right _ _), fun pages' hagree _ => ?_⟩
    obtain ⟨htree', hentries⟩ := htree.transfer hagree hbelow
    exact ⟨htree', by rw [hentries], by rw [hentries]; rfl⟩
  rw [if_neg hnil] at h
  obtain ⟨⟨result, height', pages₁⟩, hroot, h⟩ := bind_ok_iff.mp h
  obtain ⟨⟨nodes, height'', pages₂⟩, hlevels, h⟩ := bind_ok_iff.mp h
  obtain ⟨_, -, h⟩ := bind_ok_iff.mp h
  obtain rfl := pure_ok_iff.mp h
  have hbatch : ∀ c ∈ orderChanges changes, c.key ≠ [] := by
    intro c hc
    have hok := forM_ok_iff.mp hchecked c (mem_orderChanges.mp hc)
    simp only [checkChange, bind_ok_iff, ensure_ok_iff, keyBytes_ok_iff] at hok
    obtain ⟨_, _, _, _, hkey, _⟩ := hok
    exact hkey
  obtain ⟨rfl, hroom, hstands⟩ := mutateRoot_stands hfirst hlast.le htree hbelow hbatch hroot
  rw [foldl_orderChanges changes htree.sorted] at hstands
  rw [← map_bare_foldl]
  have hdelta : ((changes.foldl foldChange (treeEntries pages rootPage height)).length : ℤ) =
      (treeEntries pages rootPage height).length + result.entryDelta := hstands.delta
  by_cases hnone : result.nodes = []
  · have hafter := hstands.nodes_nil_iff.mp hnone
    rw [hnone] at hlevels
    rcases packLevels_ok_iff.mp hlevels with ⟨-, heq⟩ | ⟨hmore, -⟩
    · obtain ⟨rfl, rfl, rfl⟩ : nodes = [] ∧ height'' = 0 ∧ pages₂ = pages₁ := by simpa using heq
      refine ⟨hfirst, hstands.index, fun hroot => absurd rfl hroot, fun pages' _ _ => ⟨rfl, ?_, ?_⟩⟩
      · rw [← hdelta, hafter]
        rfl
      · rw [hafter]
        rfl
    · exact absurd hmore (by simp)
  · rw [if_neg hnone] at hlevels
    obtain ⟨n, d', rfl, rfl, hend, htop⟩ := hstands.packLevels hfirst hroom hnone hlevels
    obtain ⟨hge, hlt⟩ := htop.first n (mem_singleton_self n)
    refine ⟨hfirst, htop.index, fun _ => hlt, fun pages' hagree hstores => ?_⟩
    obtain ⟨hforest, hentries⟩ := htop.forest pages' hagree hstores
    obtain ⟨htree', hone⟩ := hforest.tree hge (hlt.trans_le hend)
    rw [← hone] at hentries
    refine ⟨htree', ?_, hentries⟩
    have hlength := congrArg length hentries
    rw [length_map, length_map] at hlength
    rw [← hdelta, Int.toNat_natCast]
    exact hlength.symm

end Grafx.Index
