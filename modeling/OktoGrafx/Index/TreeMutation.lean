import OktoGrafx.Index.MutationSound

/-! A batch applied to a verified tree. The new root is a verified tree with the entries the batch read
change by change leaves, and the old root is still the tree it was. -/

namespace Grafx.Index

open List Checked Packing

variable {g : Growth} {pages : ℕ → Option TreePage} {d total entryCount height rootPage rounds : ℕ} {ps : List ChildPointer} {es after : List IndexEntry} {before new : List TreePage} {r : CowResult}
  {nodes : List CowNode} {changes : List TreeChange} {c : TreeChange}

/-! ## One level up -/

def CowNode.Pointable (n : CowNode) : Prop :=
  n.maximum.key ≠ [] ∧ n.maximum.key.length ≤ maxIndexKeyBytes ∧ firstOrderedTreePage ≤ n.page ∧ n.page < noPage

theorem exists_pointers {nodes : List CowNode} (h : ∀ n ∈ nodes, n.Pointable) : ∃ ps : List ChildPointer, nodes = ps.map ChildPointer.node := by
  induction nodes with
  | nil => exact ⟨[], rfl⟩
  | cons n nodes ih =>
    obtain ⟨ps, hps⟩ := ih (forall_mem_cons.mp h).2
    obtain ⟨hkey, hlength, hfirst, hlt⟩ := h n mem_cons_self
    exact ⟨⟨n.maximum, n.page, hkey, hlength, hfirst, hlt⟩ :: ps, by rw [hps]; rfl⟩

theorem two_fit (hfits : ∀ q ∈ ps, g.FitsTwice q.high.key) (htwo : 2 ≤ ps.length) : NeighboursFit (fun q => (pointerItem q).size) g.room ps := by
  intro hchain
  cases ps with
  | nil => exact absurd htwo (by simp)
  | cons a ps =>
    cases ps with
    | nil => exact absurd htwo (by simp)
    | cons b ps =>
      have hapart : g.room < (pointerItem a).size + (pointerItem b).size := (isChain_cons_cons.mp hchain).1
      have ha := (hfits a (by simp)).2.2
      have hb := (hfits b (by simp)).2.2
      rw [pointerItem_size, pointerItem_size] at hapart
      omega

/-! ## Numbers that run out -/

section
variable {α β : Type} {x : Except TreeRefusal α} {f : α → Except TreeRefusal β} {P P' : α → Prop} {Q : β → Prop} {limit limit' few few' : ℕ}

/-- A result with `P`, or a refusal for want of page numbers, which then end before `limit`. -/
def Within (limit : ℕ) (x : Except TreeRefusal α) (P : α → Prop) : Prop :=
  x = .error (.pageIndexSpace noPage) ∧ noPage < limit ∨ ∃ a, x = .ok a ∧ P a

theorem Within.imp (h : Within limit x P) (hlimit : limit ≤ limit') (himp : ∀ a, P a → P' a) : Within limit' x P' := by
  rcases h with ⟨hx, hend⟩ | ⟨a, hx, ha⟩
  · exact .inl ⟨hx, hend.trans_le hlimit⟩
  · exact .inr ⟨a, hx, himp a ha⟩

theorem Within.bind (h : Within limit x P) (hlimit : limit ≤ limit') (hf : ∀ a, x = .ok a → P a → Within limit' (f a) Q) :
    Within limit' (x >>= f) Q := by
  rcases h with ⟨rfl, hend⟩ | ⟨a, rfl, ha⟩
  · exact .inl ⟨rfl, hend.trans_le hlimit⟩
  · exact hf a rfl ha

theorem packLevel_within {toItem : α → Item} {xs : List α} {pageType : PageType} (hpages : g.startPage + before.length ≤ noPage)
    (hfits : ∀ a ∈ xs, (toItem a).size ≤ g.room) :
    Within (g.startPage + before.length + (binsOf toItem g xs).length)
      (appendPackedPages g pageType (xs.map toItem) before >>= fun s => pure (s.1.map Packed.node, s.2)) fun r =>
        g.startPage + r.2.length ≤ noPage ∧ r = (nodesOf toItem (g.startPage + before.length) (binsOf toItem g xs),
          before ++ levelPages toItem g pageType (g.startPage + before.length) xs) := by
  by_cases hend : g.startPage + before.length + (binsOf toItem g xs).length ≤ noPage
  · refine .inr ⟨_, (packLevel_ok_iff hpages).mpr ⟨hfits, hend, rfl⟩, ?_, rfl⟩
    rwa [length_append, levelPages_length, ← add_assoc]
  · refine .inl ⟨?_, not_le.mp hend⟩
    rw [appendPackedPages_exhausted hpages (forall_mem_map.mpr hfits) (by rw [greedy_map, length_map]; exact not_le.mp hend)]
    rfl

/-- A step that adds at most `few` pages. -/
def Grows (g : Growth) (before : List TreePage) (few : ℕ) (x : Except TreeRefusal (CowResult × List TreePage)) : Prop :=
  Within (g.startPage + before.length + few) x fun r => g.startPage + r.2.length ≤ noPage ∧ ∃ new, r.2 = before ++ new ∧ new.length ≤ few

theorem Grows.result (hroom : g.startPage + before.length ≤ noPage) (r : CowResult) : Grows g before few (.ok (r, before)) :=
  .inr ⟨_, rfl, hroom, [], (append_nil _).symm, Nat.zero_le _⟩

end

theorem Replaces.packed {new : List TreePage} {r : CowResult}
    (h : Replaces g pages d total es after before new r) (hstart : firstOrderedTreePage ≤ g.startPage)
    (hpages : g.startPage + (before ++ new).length ≤ noPage) :
    Within (g.startPage + before.length + (d + 1 + 1) * total) (packInternal g r.nodes (before ++ new)) fun s =>
      g.startPage + s.2.length ≤ noPage ∧ ∃ level, s.2 = before ++ new ++ level ∧ level.length = s.1.length ∧
        Replaces g pages (d + 1) total es after before (new ++ level) { r with nodes := s.1 } ∧
        (2 ≤ r.nodes.length → s.1.length < r.nodes.length) := by
  have hnodes : r.nodes.length ≤ total := h.nodes_le.trans h.size
  have hfew := h.few
  have hmul : (d + 1 + 1) * total = (d + 1) * total + total := Nat.succ_mul (d + 1) total
  have hlength : (before ++ new).length = before.length + new.length := length_append
  have hfits := h.maximum_fits
  have hpointable : ∀ n ∈ r.nodes, n.Pointable := by
    intro n hn
    obtain ⟨hkey, hlength, -⟩ := hfits n hn
    obtain ⟨hge, hlt⟩ := h.first n hn
    exact ⟨hkey, hlength, hge, by omega⟩
  obtain ⟨ps, hps⟩ := exists_pointers hpointable
  have hcount : r.nodes.length = ps.length := by rw [hps, length_map]
  have hbins : (binsOf pointerItem g ps).length ≤ ps.length := greedy_length ps
  have hhigh : ∀ q ∈ ps, g.FitsTwice q.high.key := fun q hq => hfits q.node (hps ▸ mem_map_of_mem hq)
  have hsize : ∀ q ∈ ps, (pointerItem q).size ≤ g.room := by
    intro q hq
    have hq := (hhigh q hq).2.2
    rw [pointerItem_size]
    omega
  rw [hps, packInternal, mapM_node, ok_bind]
  refine (packLevel_within hpages hsize).imp (by omega) ?_
  rintro s ⟨hend, rfl⟩
  refine ⟨hend, _, rfl, by rw [levelPages_length, nodesOf_length], ⟨h.toStands.packed hstart hps, ?_, h.size, h.takes⟩, ?_⟩
  · rw [length_append, levelPages_length]
    omega
  · intro htwo
    rw [length_map] at htwo ⊢
    rw [nodesOf_length]
    exact (greedy_length_lt_iff ps).mpr (two_fit hhigh htwo)

/-! ## Levels on top -/

theorem packLevels_within (h : Replaces g pages d total es after [] new r) (hstart : firstOrderedTreePage ≤ g.startPage)
    (hne : r.nodes ≠ []) (hpages : g.startPage + new.length ≤ noPage) (hrounds : noPage ≤ g.startPage + new.length + rounds) :
    Within (g.startPage + (d + 1 + r.nodes.length) * total) (packLevels g rounds r.nodes (d + 1) new) fun s => ∃ n, s.1 = [n] := by
  induction rounds generalizing d new r with
  | zero =>
    have hnodes : r.nodes.length ≤ total := h.nodes_le.trans h.size
    have hfew := h.few
    have hend : g.startPage + new.length = noPage := by omega
    generalize r.nodes = nodes at hne hnodes ⊢
    have hmul : (d + 1 + nodes.length) * total = (d + 1) * total + nodes.length * total := add_mul _ _ _
    have hmore : 0 < nodes.length * total := Nat.mul_pos (length_pos_of_ne_nil hne) ((length_pos_of_ne_nil hne).trans_le hnodes)
    obtain _ | ⟨a, _ | ⟨b, rest⟩⟩ := nodes
    · exact absurd rfl hne
    · exact .inr ⟨([a], d + 1, new), rfl, a, rfl⟩
    · exact .inl ⟨congrArg (Except.error ∘ TreeRefusal.pageIndexSpace) hend, by omega⟩
  | succ rounds ih =>
    by_cases hone : r.nodes.length = 1
    · obtain ⟨n, hn⟩ := length_eq_one_iff.mp hone
      exact .inr ⟨([n], d + 1, new), by rw [hn]; rfl, n, rfl⟩
    have hpos : 0 < r.nodes.length := length_pos_of_ne_nil hne
    have htwo : 2 ≤ r.nodes.length := by omega
    have hmul : (d + 1 + 1) * total ≤ (d + 1 + r.nodes.length) * total := Nat.mul_le_mul_right _ (by omega)
    rw [packLevels_more htwo]
    refine Within.bind (h.packed hstart hpages) (by rw [length_nil]; omega) ?_
    rintro ⟨nodes, pages₁⟩ - ⟨hpages', level, hnew, hlevel, hpacked, hfewer⟩
    obtain rfl : pages₁ = new ++ level := hnew
    have hfewer : nodes.length < r.nodes.length := hfewer htwo
    have hlevel : level.length = nodes.length := hlevel
    have hsome : nodes ≠ [] := fun hnil => hne (h.nodes_nil_iff.mpr (hpacked.nodes_nil_iff.mp hnil))
    have hadded : 0 < nodes.length := length_pos_of_ne_nil hsome
    have hlength : (new ++ level).length = new.length + level.length := length_append
    have hlimit : (d + 1 + 1 + nodes.length) * total ≤ (d + 1 + r.nodes.length) * total := Nat.mul_le_mul_right _ (by omega)
    exact (ih hpacked hsome hpages' (by omega)).imp (Nat.add_le_add_left hlimit _) fun _ hs => hs

/-! ## Subtrees -/

theorem visitChildren_grows {visit : ℕ → List TreeChange → List TreePage → Except TreeRefusal (CowResult × List TreePage)}
    {items : List (ChildPointer × List TreeChange)} (size : ChildPointer × List TreeChange → ℕ)
    (hvisit : ∀ x ∈ items, ∀ before : List TreePage, g.startPage + before.length ≤ noPage →
      Grows g before ((d + 1) * size x) (visit x.1.childPage x.2 before))
    (hroom : g.startPage + before.length ≤ noPage) : Grows g before ((d + 1) * (items.map size).sum) (visitChildren visit items before) := by
  induction items generalizing before with
  | nil => exact .result hroom _
  | cons x items ih =>
    obtain ⟨pointer, group⟩ := x
    rw [map_cons, sum_cons, mul_add]
    have hchild : Grows g before ((d + 1) * size (pointer, group)) (visitChild visit pointer group before) := by
      by_cases hgroup : group = []
      · rw [visitChild, if_pos hgroup]
        exact .result hroom _
      · rw [visitChild, if_neg hgroup]
        exact hvisit _ mem_cons_self before hroom
    refine Within.bind hchild (by omega) ?_
    rintro ⟨child, pages₁⟩ - ⟨hroom', new, hnew, hfew⟩
    obtain rfl : pages₁ = before ++ new := hnew
    have hlength : (before ++ new).length = before.length + new.length := length_append
    refine Within.bind (ih (forall_mem_cons.mp hvisit).2 hroom') (by omega) ?_
    rintro ⟨others, pages₂⟩ - ⟨hend, new', hnew', hfew'⟩
    refine .inr ⟨_, rfl, hend, new ++ new', hnew'.trans (append_assoc _ _ _), ?_⟩
    rw [length_append]
    omega

section
variable {batch : List TreeChange} (hstart : firstOrderedTreePage ≤ g.startPage)
include hstart

theorem visit_grows {high : High} {i : ℕ} (hsub : Subtree pages d i high) (hfirst : firstOrderedTreePage ≤ i) (hbelow : i < g.startPage)
    (hsorted : Keyed.Sorted IndexEntry.identity (entriesAt pages d i)) (htakes : ∀ e ∈ entriesAt pages d i, g.Takes e)
    (hbatch : ∀ c ∈ batch, g.FitsTwice c.key) (hroom : g.startPage + before.length ≤ noPage) :
    Grows g before ((d + 1) * ((entriesAt pages d i).length + batch.length)) (visit g pages d i batch before) := by
  induction d generalizing i high batch before with
  | zero =>
    obtain ⟨es, hleaf, hlast⟩ := hsub
    rw [entriesAt, hleaf.entries] at htakes ⊢
    obtain ⟨last, hlast, -⟩ := Option.map_eq_some_iff.mp hlast
    obtain ⟨hsorted, -⟩ := hleaf.spec
    obtain ⟨p, hp, -, hdecode⟩ := hleaf
    rw [zero_add, one_mul]
    simp only [visit, applyLeaf, hp, hdecode, ok_bind]
    split
    · have hbins : (binsOf leafItem g (batch.foldl foldChange es)).length ≤ es.length + batch.length :=
        (greedy_length _).trans (length_foldl batch es)
      rw [sort_applied hsorted batch]
      refine Within.bind (packLevel_within hroom fun e he => (takes_foldl htakes hbatch e he).2.leaf) (by omega) ?_
      rintro s - ⟨hend, rfl⟩
      exact .inr ⟨_, rfl, hend, _, rfl, by rwa [levelPages_length]⟩
    · rw [hlast]
      exact .result hroom _
  | succ d ih =>
    obtain ⟨ps, last, hbranch⟩ := hsub.branch hbelow hsorted batch
    have hmul : (d + 1 + 1) * ((entriesAt pages (d + 1) i).length + batch.length) =
        (d + 1) * ((entriesAt pages (d + 1) i).length + batch.length) + ((entriesAt pages (d + 1) i).length + batch.length) := Nat.succ_mul _ _
    have hchildren := visitChildren_grows _ (fun x hx before' hroom' => ih (hbranch.subtree x hx) x.1.first_le
      (hbranch.below x hx) (hbranch.sorted x hx) (fun e he => htakes e (hbranch.entries x hx e he))
      (fun c hc => hbatch c (hbranch.changes x hx c hc)) hroom') hroom
    rw [hbranch.total] at hchildren
    obtain ⟨p, hp, -, hdecode⟩ := hbranch.internal
    simp only [visit, hp, hdecode, ok_bind, hbranch.getLast]
    refine Within.bind hchildren (by omega) ?_
    rintro ⟨r, pages₁⟩ hvisited ⟨hroom', new, hnew, hfew⟩
    obtain rfl : pages₁ = before ++ new := hnew
    have hstands : Stands g pages d (entriesAt pages (d + 1) i) (batch.foldl foldChange (entriesAt pages (d + 1) i)) before new r := by
      obtain ⟨new', heq, -, hstands⟩ := visitChildren_stands
        (fun x hx before' r' pages' => visit_stands hstart (hbranch.subtree x hx) x.1.first_le (hbranch.below x hx) (hbranch.sorted x hx)
          fun c hc => (hbatch c (hbranch.changes x hx c hc)).1)
        hbranch.subtree hbranch.below (hbranch.after ▸ foldChange_step.foldl_sorted batch hsorted) hroom hvisited
      rwa [hbranch.after, hbranch.before, ← append_cancel_left heq] at hstands
    have hreplaces := Replaces.mk hstands hfew (length_foldl batch _) (takes_foldl htakes hbatch)
    dsimp only
    split
    · refine Within.bind (hreplaces.packed hstart hroom') le_rfl ?_
      rintro ⟨nodes, pages₂⟩ - ⟨hend, level, hs, -, hpacked, -⟩
      exact .inr ⟨_, rfl, hend, new ++ level, hs.trans (append_assoc _ _ _), hpacked.few⟩
    · exact .inr ⟨_, rfl, hroom', new, rfl, by omega⟩

/-! ## The whole batch -/

theorem mutateRoot_within (htree : Tree pages rootPage height) (htakes : ∀ e ∈ treeEntries pages rootPage height, g.Takes e)
    (hbatch : ∀ c ∈ batch, g.FitsTwice c.key) (hbelow : rootPage ≠ noPage → rootPage < g.startPage) (hroom : g.startPage ≤ noPage) :
    Within (g.startPage + (height - 1 + 1) * ((treeEntries pages rootPage height).length + batch.length))
      (mutateRoot g pages rootPage height (treeEntries pages rootPage height).length batch)
      fun s => s.2.2.length ≤ (height - 1 + 1) * ((treeEntries pages rootPage height).length + batch.length) := by
  unfold Tree at htree
  unfold treeEntries at htakes ⊢
  unfold mutateRoot
  by_cases hempty : rootPage = noPage
  · simp only [if_pos hempty] at htree htakes ⊢
    subst htree
    have hbins : (binsOf leafItem g (batch.foldl foldChange [])).length ≤ ([] : List IndexEntry).length + batch.length :=
      (greedy_length _).trans (length_foldl batch [])
    rw [Nat.zero_sub, zero_add, one_mul, ensure_pos ⟨rfl, rfl⟩, ok_bind, visitEmpty, sort_applied .nil batch]
    rw [bind_assoc]
    refine Within.bind (packLevel_within (show g.startPage + ([] : List TreePage).length ≤ noPage from hroom)
      fun e he => (takes_foldl htakes hbatch e he).2.leaf) (Nat.add_le_add_left hbins _) ?_
    rintro s - ⟨-, rfl⟩
    refine .inr ⟨_, rfl, ?_⟩
    show (levelPages ..).length ≤ _
    rw [levelPages_length]
    exact hbins
  · simp only [if_neg hempty] at htree htakes ⊢
    obtain ⟨hheight, hfirst, ⟨high, hsub⟩, hsorted⟩ := htree
    rw [ensure_pos hheight, ok_bind]
    refine Within.bind (visit_grows hstart hsub hfirst (hbelow hempty) hsorted htakes hbatch
      (show g.startPage + ([] : List TreePage).length ≤ noPage from hroom)) le_rfl ?_
    rintro ⟨r, pages₁⟩ - ⟨-, new, rfl, hfew⟩
    exact .inr ⟨_, rfl, hfew⟩

end

theorem checkChange_ok (hversioned : c.versioned = false) (hreset : c.operation ≠ .reset) (hkey : g.FitsTwice c.key) : checkChange c = .ok () := by
  simp only [checkChange, bind_ok_iff, ensure_ok_iff, keyBytes_ok_iff]
  exact ⟨⟨⟩, hversioned, ⟨⟩, hreset, hkey.1, hkey.2.1⟩

/-- A verified tree below the first new page, changes an exact tree takes, and short keys. -/
structure Mutable (g : Growth) (pages : ℕ → Option TreePage) (rootPage height : ℕ) (changes : List TreeChange) : Prop where
  pageSize : validatePageSize g.pageSize = .ok ()
  start : checkStart g = .ok ()
  lsn : checkLsn g = .ok ()
  plain : ∀ c ∈ changes, c.versioned = false ∧ c.operation ≠ .reset ∧ g.FitsTwice c.key
  entries : ∀ e ∈ treeEntries pages rootPage height, g.FitsTwice e.key
  above : ∀ u ∈ treePages pages rootPage height, u < g.startPage

/-- With numbers up to this one no batch is refused: at most a page for every entry on every level. -/
def pagesEnd (g : Growth) (height entries changes : ℕ) : ℕ := g.startPage + (height + 1 + (entries + changes)) * (entries + changes)

theorem root_mem_treePages (height : ℕ) (hroot : rootPage ≠ noPage) : rootPage ∈ treePages pages rootPage height := by
  have hmem : ∀ d, rootPage ∈ pagesAt pages d rootPage := by
    intro d
    cases d with
    | zero => exact mem_singleton_self _
    | succ d => exact mem_concat_self
  rw [treePages, if_neg hroot]
  exact hmem _

theorem Tree.takes (h : Tree pages rootPage height)
    (hfits : ∀ e ∈ treeEntries pages rootPage height, g.FitsTwice e.key) : ∀ e ∈ treeEntries pages rootPage height, g.Takes e := by
  intro e he
  refine ⟨?_, hfits e he⟩
  unfold Tree at h
  unfold treeEntries at he
  split at h
  · rename_i hempty
    rw [if_pos hempty] at he
    exact nomatch he
  · rename_i hroot
    rw [if_neg hroot] at he
    obtain ⟨-, -, ⟨high, hsub⟩, -⟩ := h
    exact (hsub.plain e he).1

section
variable (hsize : validatePageSize g.pageSize = .ok ()) (hstart : checkStart g = .ok ()) (hlsn : checkLsn g = .ok ())
include hsize hstart hlsn

theorem mutateOrderedTree_nil :
    mutateOrderedTree g pages rootPage height entryCount [] = .ok ⟨rootPage, height, entryCount, [], false, 0⟩ := by
  rw [mutateOrderedTree, hsize, hstart, hlsn]
  rfl

theorem mutateOrderedTree_run {height' height'' : ℕ} {new' : List TreePage} (hchecked : changes.forM checkChange = .ok ⟨⟩) (hnil : changes ≠ [])
    (hroot : mutateRoot g pages rootPage height entryCount (orderChanges changes) = .ok (r, height', new))
    (hlevels : packLevels g (noPage - (g.startPage + new.length)) r.nodes height' new = .ok (nodes, height'', new'))
    (hcount : 0 ≤ (entryCount : ℤ) + r.entryDelta ∧ (nodes ≠ [] ↔ (entryCount : ℤ) + r.entryDelta ≠ 0)) :
    mutateOrderedTree g pages rootPage height entryCount changes =
      .ok ⟨(nodes.head?.map (·.page)).getD noPage, height'', ((entryCount : ℤ) + r.entryDelta).toNat, new', r.changed, r.missingTargets⟩ := by
  rw [mutateOrderedTree, hsize, hstart, hlsn, hchecked]
  simp only [ok_bind, if_neg hnil, hroot, hlevels, ensure_pos hcount]
  rfl

end

theorem Mutable.checked (h : Mutable g pages rootPage height changes) : changes.forM checkChange = .ok ⟨⟩ :=
  forM_ok_iff.mpr fun c hc => checkChange_ok (h.plain c hc).1 (h.plain c hc).2.1 (h.plain c hc).2.2

theorem mutateOrderedTree_within (htree : Tree pages rootPage height) (h : Mutable g pages rootPage height changes) :
    Within (pagesEnd g height (treeEntries pages rootPage height).length changes.length)
      (mutateOrderedTree g pages rootPage height (treeEntries pages rootPage height).length changes) fun _ => True := by
  by_cases hnil : changes = []
  · rw [hnil, mutateOrderedTree_nil h.pageSize h.start h.lsn]
    exact .inr ⟨_, rfl, trivial⟩
  rw [mutateOrderedTree, h.pageSize, h.start, h.lsn, h.checked]
  simp only [ok_bind, if_neg hnil]
  obtain ⟨hstart, hlast⟩ := ensure_ok_iff.mp h.start
  have hbelow : rootPage ≠ noPage → rootPage < g.startPage := fun hroot => h.above rootPage (root_mem_treePages height hroot)
  have hbatch : ∀ c ∈ orderChanges changes, g.FitsTwice c.key := fun c hc => (h.plain c (mem_orderChanges.mp hc)).2.2
  have htakes := htree.takes h.entries
  have hrootPages := mutateRoot_within hstart htree htakes hbatch hbelow hlast.le
  rw [pagesEnd]
  rw [length_orderChanges changes] at hrootPages
  -- The bound on the new pages: those of the levels there were, and one more level for every node.
  obtain ⟨total, htotal⟩ : ∃ total, (treeEntries pages rootPage height).length + changes.length = total := ⟨_, rfl⟩
  rw [htotal] at hrootPages ⊢
  have hheight : (height - 1 + 1) * total ≤ (height + 1 + total) * total := Nat.mul_le_mul_right _ (by omega)
  refine Within.bind hrootPages (by omega) ?_
  rintro ⟨r, height', new⟩ hroot hfew
  obtain ⟨rfl, hroom, hstands⟩ := mutateRoot_stands hstart hlast.le htree hbelow (fun c hc => (hbatch c hc).1) hroot
  have hsize := length_foldl (orderChanges changes) (treeEntries pages rootPage height)
  rw [length_orderChanges, htotal] at hsize
  have hreplaces := Replaces.mk hstands hfew hsize (takes_foldl htakes hbatch)
  have hdelta := hstands.delta
  have hlevels : Within (g.startPage + (height + 1 + total) * total)
      (packLevels g (noPage - (g.startPage + new.length)) r.nodes (if r.nodes = [] then 0 else height - 1 + 1) new)
      fun s => s.1 ≠ [] ↔ r.nodes ≠ [] := by
    by_cases hnone : r.nodes = []
    · rw [hnone]
      exact .inr ⟨([], 0, new), by cases noPage - (g.startPage + new.length) <;> rfl, Iff.rfl⟩
    · have hnodes : r.nodes.length ≤ total := hstands.nodes_le.trans hreplaces.size
      have hlimit : (height - 1 + 1 + r.nodes.length) * total ≤ (height + 1 + total) * total := Nat.mul_le_mul_right _ (by omega)
      rw [if_neg hnone]
      refine (packLevels_within hreplaces hstart hnone hroom (by omega)).imp (Nat.add_le_add_left hlimit _) ?_
      rintro s ⟨n, hs⟩
      exact iff_of_true (hs ▸ cons_ne_nil n []) hnone
  refine Within.bind hlevels le_rfl ?_
  rintro ⟨nodes, height'', new'⟩ - hnodes
  have hcount : 0 ≤ ((treeEntries pages rootPage height).length : ℤ) + r.entryDelta ∧
      (nodes ≠ [] ↔ ((treeEntries pages rootPage height).length : ℤ) + r.entryDelta ≠ 0) := by
    rw [← hdelta, hnodes, ne_eq, hstands.nodes_nil_iff, ← length_eq_zero_iff]
    omega
  simp only [ensure_pos hcount]
  exact .inr ⟨_, rfl, trivial⟩

/-- A batch on a verified tree: the new root verifies, holds what the batch read change by change leaves, and the
old root is what it was. Only a batch that may need more pages than there are numbers can be refused. -/
theorem mutation_of_verified_tree (g : Growth) (pages : ℕ → Option TreePage) (rootPage height count : ℕ) (changes : List TreeChange)
    (v : OrderedTreeVerification) (hverified : verifyOrderedTree pages rootPage height (some count) = .ok v)
    (h : Mutable g pages rootPage height changes) :
    (mutateOrderedTree g pages rootPage height count changes = .error (.pageIndexSpace noPage) ∧
      noPage < pagesEnd g height count changes.length) ∨
    ∃ m, mutateOrderedTree g pages rootPage height count changes = .ok m ∧
      (∃ v', verifyOrderedTree (overlay pages m.pages) m.rootPage m.height (some m.entryCount) = .ok v' ∧ v'.entryCount = m.entryCount) ∧
      (treeEntries (overlay pages m.pages) m.rootPage m.height).map IndexEntry.bare =
        changes.foldl foldChange ((treeEntries pages rootPage height).map IndexEntry.bare) ∧
      (∀ i < g.startPage, overlay pages m.pages i = pages i) ∧
      (∃ v', verifyOrderedTree (overlay pages m.pages) rootPage height (some count) = .ok v') ∧
      treeEntries (overlay pages m.pages) rootPage height = treeEntries pages rootPage height := by
  obtain ⟨htree, hcount⟩ := verifyOrderedTree_ok_iff.mp ⟨v, hverified⟩
  have hcount : (treeEntries pages rootPage height).length = count := hcount count rfl
  have hbelow : rootPage ≠ noPage → rootPage < g.startPage := fun hroot => h.above rootPage (root_mem_treePages height hroot)
  have hwithin := mutateOrderedTree_within htree h
  rw [hcount] at hwithin
  rcases hwithin with hrefused | ⟨m, hm, -⟩
  · exact .inl hrefused
  obtain ⟨-, hindex, -, hsound⟩ := mutateOrderedTree_sound htree hbelow (hcount.symm ▸ hm)
  obtain ⟨hagree, hstores⟩ := overlay_of_index hindex le_rfl
  obtain ⟨hnew, hsize, hentries⟩ := hsound _ hagree hstores
  obtain ⟨hold, hsame⟩ := htree.transfer hagree hbelow
  obtain ⟨v', hv'⟩ : ∃ v', verifyOrderedTree (overlay pages m.pages) m.rootPage m.height (some m.entryCount) = .ok v' := by
    apply verifyOrderedTree_ok_iff.mpr
    refine ⟨hnew, fun n hn => ?_⟩
    rw [← Option.some.inj hn, hsize]
  refine .inr ⟨m, hm, ⟨v', hv', ?_⟩, hentries, hagree, ?_, hsame⟩
  · rw [verifyOrderedTree_count hv', hsize]
  · apply verifyOrderedTree_ok_iff.mpr
    refine ⟨hold, fun n hn => ?_⟩
    rw [hsame, hcount]
    exact Option.some.inj hn

def longBatch : List TreeChange :=
  [⟨"by_name", .tombstone, (longEntry 0).key, (longEntry 0).ref, 7, false, (longEntry 0).key_le, by decide, nofun, by decide, nofun⟩,
    ⟨"by_name", .remove, (longEntry 1).key, (longEntry 1).ref, 0, false, (longEntry 1).key_le, by decide, nofun, nofun, nofun⟩,
    (longEntry 3).insertion "by_name"]

theorem mutation_of_long_key_tree : ∃ m, mutateOrderedTree ⟨512, 6, 9⟩ longPages 5 2 3 longBatch = .ok m ∧
    (treeEntries (overlay longPages m.pages) m.rootPage m.height).map (fun e => (e.ref.slot, e.deadCsn)) = [(0, 7), (2, 0), (3, 0)] := by
  have hok : (verifyOrderedTree longPages 5 2 (some 3)).toOption.map (·.leafPages) = some 2 := by decide +kernel
  have hready : Mutable ⟨512, 6, 9⟩ longPages 5 2 longBatch :=
    ⟨rfl, rfl, rfl, by decide +kernel, by decide +kernel, by decide +kernel⟩
  obtain ⟨v, hv, -⟩ := exists_of_toOption_map hok
  have hnumbers : ¬ noPage < pagesEnd ⟨512, 6, 9⟩ 2 3 longBatch.length := by decide
  obtain ⟨m, hm, -, hentries, -⟩ :=
    (mutation_of_verified_tree ⟨512, 6, 9⟩ longPages 5 2 3 longBatch v hv hready).resolve_left fun hrefused => hnumbers hrefused.2
  have hread := congrArg (map fun e : IndexEntry => (e.ref.slot, e.deadCsn)) hentries
  rw [map_map] at hread
  exact ⟨m, hm, hread.trans (by decide +kernel)⟩

/-- With one page number left a batch of short keys is refused for want of numbers. -/
theorem mutation_out_of_page_numbers :
    (∃ v, verifyOrderedTree (fun _ => none) noPage 0 (some 0) = .ok v) ∧
    (∀ c ∈ [longEntry 0, longEntry 1, longEntry 2].map (IndexEntry.insertion "by_name"),
      c.operation = .insert ∧ c.versioned = false ∧ (⟨512, noPage - 1, 0⟩ : Growth).FitsTwice c.key) ∧
    mutateOrderedTree ⟨512, noPage - 1, 0⟩ (fun _ => none) noPage 0 0
      ([longEntry 0, longEntry 1, longEntry 2].map (IndexEntry.insertion "by_name")) = .error (.pageIndexSpace noPage) := by
  refine ⟨⟨_, rfl⟩, by decide +kernel, ?_⟩
  have hrefused : (match mutateOrderedTree ⟨512, noPage - 1, 0⟩ (fun _ => none) noPage 0 0
      ([longEntry 0, longEntry 1, longEntry 2].map (IndexEntry.insertion "by_name")) with
      | .error e => some e
      | .ok _ => none) = some (.pageIndexSpace noPage) := by decide +kernel
  split at hrefused
  · rename_i e he
    rw [he, Option.some.inj hrefused]
  · exact nomatch hrefused

end Grafx.Index
