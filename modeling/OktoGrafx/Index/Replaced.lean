import OktoGrafx.Index.BatchFold
import OktoGrafx.Index.Forest

/-! One subtree replaced by others of its height. What a batch does to the children of a page is put
together from what it does to each of them. -/

namespace Grafx.Index

open List Checked Packing
open IndexEntry (bare identity)

variable {r' : CowResult} {high : High} {e : IndexEntry} {after' es' : List IndexEntry} {new' newPages : List TreePage} {pages' : ℕ → Option TreePage}

/-! ## Keys that leave room -/

def Growth.FitsTwice (g : Growth) (key : Bytes) : Prop :=
  key ≠ [] ∧ key.length ≤ maxIndexKeyBytes ∧ 2 * (orderedInternalEntrySize + key.length + slotEntrySize) ≤ g.room

instance (g : Growth) (key : Bytes) : Decidable (g.FitsTwice key) := inferInstanceAs (Decidable (_ ∧ _ ∧ _))

def Growth.Takes (g : Growth) (e : IndexEntry) : Prop := e.versioned = false ∧ g.FitsTwice e.key

theorem pointerItem_size (q : ChildPointer) : (pointerItem q).size = orderedInternalEntrySize + q.high.key.length + slotEntrySize := by
  show q.encode.length + slotEntrySize = _
  rw [q.encode_length]

theorem leafItem_size (e : IndexEntry) : (leafItem e).size = indexEntryHeaderSize + e.key.length + slotEntrySize := by
  show e.encode.length + slotEntrySize = _
  rw [e.encode_length]

theorem Growth.FitsTwice.leaf {g : Growth} (h : g.FitsTwice e.key) : (leafItem e).size ≤ g.room := by
  obtain ⟨hne, -, htwo⟩ := h
  rw [leafItem_size]
  simp only [orderedInternalEntrySize, slotEntrySize, indexEntryHeaderSize] at htwo ⊢
  omega

theorem mem_foldChange {es : List IndexEntry} {c : TreeChange} (h : e ∈ foldChange es c) :
    e = c.entry ∨ ∃ e₀ ∈ es, e.key = e₀.key ∧ e.versioned = e₀.versioned := by
  unfold foldChange at h
  split at h
  · split at h
    · rcases (mem_orderedInsert _).mp h with rfl | hmem
      · exact .inl rfl
      · exact .inr ⟨e, hmem, rfl, rfl⟩
    · exact .inr ⟨e, h, rfl, rfl⟩
  · obtain ⟨e₀, hmem, rfl⟩ := mem_map.mp h
    apply Or.inr
    unfold TreeChange.stamp
    split <;> exact ⟨e₀, hmem, rfl, rfl⟩
  · exact .inr ⟨e, mem_of_mem_filter h, rfl, rfl⟩
  · exact .inr ⟨e, mem_of_mem_filter h, rfl, rfl⟩

theorem unversioned_foldl {good : Bytes → Prop} {batch : List TreeChange} {es : List IndexEntry} (hes : ∀ e ∈ es, e.versioned = false ∧ good e.key)
    (hbatch : ∀ c ∈ batch, good c.key) : ∀ e ∈ batch.foldl foldChange es, e.versioned = false ∧ good e.key := by
  induction batch generalizing es with
  | nil => exact hes
  | cons c batch ih =>
    refine ih (fun e he => ?_) (forall_mem_cons.mp hbatch).2
    rcases mem_foldChange he with rfl | ⟨e₀, hmem, hkey, hversioned⟩
    · exact ⟨rfl, hbatch c mem_cons_self⟩
    · obtain ⟨hplain, hgood⟩ := hes e₀ hmem
      exact ⟨hversioned.trans hplain, hkey ▸ hgood⟩

theorem takes_foldl {g : Growth} {batch : List TreeChange} {es : List IndexEntry} (hes : ∀ e ∈ es, g.Takes e)
    (hbatch : ∀ c ∈ batch, g.FitsTwice c.key) : ∀ e ∈ batch.foldl foldChange es, g.Takes e := unversioned_foldl hes hbatch

theorem length_foldChange (es : List IndexEntry) (c : TreeChange) : (foldChange es c).length ≤ es.length + 1 := by
  unfold foldChange
  split
  · split
    · exact (orderedInsert_length _ es c.entry).le
    · exact Nat.le_succ _
  · rw [length_map]
    exact Nat.le_succ _
  · exact Nat.le_succ_of_le (length_filter_le _ _)
  · exact Nat.le_succ_of_le (length_filter_le _ _)

theorem length_foldl (batch : List TreeChange) (es : List IndexEntry) : (batch.foldl foldChange es).length ≤ es.length + batch.length := by
  induction batch generalizing es with
  | nil => exact le_rfl
  | cons c batch ih =>
    have hstep := length_foldChange es c
    have hrest := ih (foldChange es c)
    rw [foldl_cons, length_cons]
    omega

/-! ## Old pages under new ones -/

def Agree (pages pages' : ℕ → Option TreePage) (start : ℕ) : Prop := ∀ u < start, pages' u = pages u

theorem Subtree.transfer {pages : ℕ → Option TreePage} {d i : ℕ} (h : Subtree pages d i high) (hagree : Agree pages pages' (i + 1)) :
    Subtree pages' d i high ∧ entriesAt pages' d i = entriesAt pages d i ∧ pagesAt pages' d i = pagesAt pages d i := by
  induction d generalizing i high with
  | zero =>
    obtain ⟨es, hleaf, hlast⟩ := h
    have hleaf' : LeafAt pages' i es := by
      obtain ⟨p, hp, hrest⟩ := hleaf
      exact ⟨p, (hagree i (Nat.lt_succ_self i)).trans hp, hrest⟩
    exact ⟨⟨es, hleaf', hlast⟩, by rw [entriesAt, entriesAt, hleaf.entries, hleaf'.entries], rfl⟩
  | succ d ih =>
    obtain ⟨ps, hinternal, hlast, hsub⟩ := h
    have hinternal' : InternalAt pages' i ps := by
      obtain ⟨p, hp, hrest⟩ := hinternal
      exact ⟨p, (hagree i (Nat.lt_succ_self i)).trans hp, hrest⟩
    have hchild : ∀ q ∈ ps, Subtree pages' d q.childPage q.high ∧ entriesAt pages' d q.childPage = entriesAt pages d q.childPage ∧
        pagesAt pages' d q.childPage = pagesAt pages d q.childPage := by
      intro q hq
      apply ih (hsub q hq)
      intro u hu
      apply hagree
      have hbelow := hinternal.spec.2 q hq
      omega
    refine ⟨⟨ps, hinternal', hlast, fun q hq => (hchild q hq).1⟩, ?_, ?_⟩
    · rw [hinternal.entriesAt, hinternal'.entriesAt]
      exact flatMap_congr fun q hq => (hchild q hq).2.1
    · rw [hinternal.pagesAt, hinternal'.pagesAt]
      exact congrArg (· ++ [i]) (flatMap_congr fun q hq => (hchild q hq).2.2)

def overlay (pages : ℕ → Option TreePage) (newPages : List TreePage) : ℕ → Option TreePage :=
  fun i => (pageMap newPages i).or (pages i)

theorem overlay_of_index {pages : ℕ → Option TreePage} {start first n : ℕ} (hindex : newPages.map (·.pageIndex) = range' first n)
    (hstart : start ≤ first) : Agree pages (overlay pages newPages) start ∧ Stores (overlay pages newPages) newPages := by
  constructor
  · intro u hu
    have hnone : pageMap newPages u = none := by
      refine find?_eq_none.mpr fun p hp heq => ?_
      have hp : p.pageIndex ∈ range' first n := hindex ▸ mem_map_of_mem hp
      have hequal : p.pageIndex = u := by simpa using heq
      obtain ⟨hge, -⟩ := mem_range'_1.mp hp
      omega
    rw [overlay, hnone]
    rfl
  · intro p hp
    have hfound : pageMap newPages p.pageIndex = some p := by
      cases hfind : pageMap newPages p.pageIndex with
      | none => exact absurd (find?_eq_none.mp hfind p hp) (by simp)
      | some p' =>
        have hequal : p'.pageIndex = p.pageIndex := by simpa using find?_some hfind
        rw [inj_on_of_nodup_map (hindex ▸ nodup_range') (mem_of_find?_eq_some hfind) hp hequal]
    rw [overlay, hfound]
    rfl

/-! ## Standing in -/

structure Stands (g : Growth) (pages : ℕ → Option TreePage) (d : ℕ) (es after : List IndexEntry) (before new : List TreePage)
    (r : CowResult) : Prop where
  index : new.map (·.pageIndex) = range' (g.startPage + before.length) new.length
  first : ∀ n ∈ r.nodes, firstOrderedTreePage ≤ n.page ∧ n.page < g.startPage + before.length + new.length
  forest : ∀ pages', Agree pages pages' g.startPage → Stores pages' new →
    Forest pages' d r.nodes ∧ (forestEntries pages' d r.nodes).map bare = after.map bare
  delta : (after.length : ℤ) = es.length + r.entryDelta
  unchanged : r.changed = false → after = es

variable {g : Growth} {pages : ℕ → Option TreePage} {d total : ℕ} {es after : List IndexEntry} {before new : List TreePage} {r : CowResult}

section Stands
variable (h : Stands g pages d es after before new r)
include h

theorem Stands.overlaid : Agree pages (overlay pages new) g.startPage ∧ Stores (overlay pages new) new :=
  overlay_of_index h.index (Nat.le_add_right _ _)

omit h in
theorem Forest.length_le {nodes : List CowNode} (h : ∀ n ∈ nodes, Subtree pages' d n.page n.maximum) :
    nodes.length ≤ (forestEntries pages' d nodes).length := by
  induction nodes with
  | nil => exact le_rfl
  | cons n nodes ih =>
    have hfirst : 0 < (entriesAt pages' d n.page).length := length_pos_of_ne_nil (h n mem_cons_self).ne_nil
    have hrest := ih (forall_mem_cons.mp h).2
    have hsplit : forestEntries pages' d (n :: nodes) = entriesAt pages' d n.page ++ forestEntries pages' d nodes := flatMap_cons
    rw [hsplit, length_append, length_cons]
    omega

theorem Stands.nodes_le : r.nodes.length ≤ after.length := by
  obtain ⟨hagree, hstores⟩ := h.overlaid
  obtain ⟨hforest, hentries⟩ := h.forest _ hagree hstores
  have hlength := congrArg length hentries
  rw [length_map, length_map] at hlength
  rw [← hlength]
  exact Forest.length_le hforest.subtree

theorem Stands.nodes_nil_iff : r.nodes = [] ↔ after = [] := by
  obtain ⟨hagree, hstores⟩ := h.overlaid
  obtain ⟨hforest, hentries⟩ := h.forest _ hagree hstores
  constructor
  · intro hnil
    rw [hnil] at hentries
    exact map_eq_nil_iff.mp hentries.symm
  · intro hnil
    have hle := h.nodes_le
    rw [hnil] at hle
    exact length_eq_zero_iff.mp (Nat.le_zero.mp hle)

omit h in
theorem stands_kept {i : ℕ} (missing : ℕ) (hsub : Subtree pages d i high) (hfirst : firstOrderedTreePage ≤ i)
    (hbelow : i < g.startPage) (hsorted : Keyed.Sorted identity (entriesAt pages d i))
    (hindex : new.map (·.pageIndex) = range' (g.startPage + before.length) new.length) :
    Stands g pages d (entriesAt pages d i) (entriesAt pages d i) before new ⟨[⟨i, high⟩], false, 0, missing⟩ where
  index := hindex
  first := by
    intro n hn
    rw [mem_singleton.mp hn]
    exact ⟨hfirst, by dsimp only; omega⟩
  forest := by
    intro pages' hagree _
    obtain ⟨hsub', hentries, -⟩ := hsub.transfer fun u hu => hagree u (by omega)
    have hforest : forestEntries pages' d [⟨i, high⟩] = entriesAt pages d i := by
      rw [forestEntries, flatMap_singleton, hentries]
    refine ⟨⟨fun n hn => ?_, hforest ▸ hsorted⟩, by rw [hforest]⟩
    rw [mem_singleton.mp hn]
    exact hsub'
  delta := (Int.add_zero _).symm
  unchanged := fun _ => rfl

theorem Stands.append (h' : Stands g pages d es' after' (before ++ new) new' r') (hsorted : Keyed.Sorted identity (after ++ after')) :
    Stands g pages d (es ++ es') (after ++ after') before (new ++ new')
      ⟨r.nodes ++ r'.nodes, r.changed || r'.changed, r.entryDelta + r'.entryDelta, r.missingTargets + r'.missingTargets⟩ where
  index := by
    rw [map_append, h.index, h'.index, length_append, length_append, ← add_assoc]
    exact range'_append_1
  first := by
    intro n hn
    have hlength : (before ++ new).length = before.length + new.length := length_append
    rw [length_append]
    rcases mem_append.mp hn with hn | hn
    · obtain ⟨hge, hlt⟩ := h.first n hn
      exact ⟨hge, by omega⟩
    · obtain ⟨hge, hlt⟩ := h'.first n hn
      exact ⟨hge, by omega⟩
  forest := by
    intro pages' hagree hstores
    obtain ⟨hforest, hentries⟩ := h.forest pages' hagree hstores.append.1
    obtain ⟨hforest', hentries'⟩ := h'.forest pages' hagree hstores.append.2
    have hall : (forestEntries pages' d (r.nodes ++ r'.nodes)).map bare = (after ++ after').map bare := by
      rw [forestEntries, flatMap_append, map_append, map_append, ← hentries, ← hentries']
      rfl
    refine ⟨⟨fun n hn => ?_, ?_⟩, hall⟩
    · rcases mem_append.mp hn with hn | hn
      · exact hforest.subtree n hn
      · exact hforest'.subtree n hn
    · rw [← sorted_map_bare, hall, sorted_map_bare]
      exact hsorted
  delta := by
    have hd := h.delta
    have hd' := h'.delta
    rw [length_append, length_append]
    push_cast
    omega
  unchanged := by
    intro hsame
    obtain ⟨hfirst, hsecond⟩ := Bool.or_eq_false_iff.mp hsame
    rw [h.unchanged hfirst, h'.unchanged hsecond]

omit h in
theorem stands_nil (before : List TreePage) : Stands g pages d [] [] before [] ⟨[], false, 0, 0⟩ where
  index := rfl
  first := by simp
  forest := fun _ _ _ => ⟨⟨by simp, .nil⟩, rfl⟩
  delta := rfl
  unchanged := fun _ => rfl

omit h in
theorem stands_packLeaf {delta : ℤ} (missing : ℕ) (hstart : firstOrderedTreePage ≤ g.startPage)
    (hsorted : Keyed.Sorted identity after) (hplain : ∀ e ∈ after, e.Plain) (hdelta : (after.length : ℤ) = es.length + delta) :
    Stands g pages 0 es after before (levelPages leafItem g .indexOrderedLeaf (g.startPage + before.length) after)
      ⟨nodesOf leafItem (g.startPage + before.length) (binsOf leafItem g after), true, delta, missing⟩ where
  index := by rw [levelPages_index, levelPages_length]
  first := by
    intro n hn
    obtain ⟨hge, hlt⟩ := nodesOf_page hn
    rw [levelPages_length]
    exact ⟨by omega, hlt⟩
  forest := fun _ _ hstores => packLeaf_forest hplain hsorted hstores
  delta := hdelta
  unchanged := nofun

theorem Stands.packed {ps : List ChildPointer} (hstart : firstOrderedTreePage ≤ g.startPage) (hnodes : r.nodes = ps.map ChildPointer.node) :
    Stands g pages (d + 1) es after before (new ++ levelPages pointerItem g .indexOrderedInternal (g.startPage + (before ++ new).length) ps)
      { r with nodes := nodesOf pointerItem (g.startPage + (before ++ new).length) (binsOf pointerItem g ps) } where
  index := by
    rw [map_append, h.index, levelPages_index, length_append, length_append, levelPages_length, ← add_assoc]
    exact range'_append_1
  first := by
    intro n hn
    obtain ⟨hge, hlt⟩ := nodesOf_page hn
    rw [length_append] at hge hlt
    rw [length_append, levelPages_length]
    exact ⟨by omega, by omega⟩
  forest := by
    intro pages' hagree hstores
    obtain ⟨hforest, hentries⟩ := h.forest pages' hagree hstores.append.1
    rw [hnodes] at hforest hentries
    have hold : ∀ q ∈ ps, q.childPage < g.startPage + (before ++ new).length := by
      intro q hq
      rw [length_append, ← add_assoc]
      exact (h.first q.node (hnodes ▸ mem_map_of_mem hq)).2
    obtain ⟨hforest', hentries'⟩ := packInternal_forest hforest hold hstores.append.2
    exact ⟨hforest', by rw [hentries', hentries]⟩
  delta := h.delta
  unchanged := h.unchanged

end Stands

/-! ## Replacing -/

structure Replaces (g : Growth) (pages : ℕ → Option TreePage) (d total : ℕ) (es after : List IndexEntry) (before new : List TreePage)
    (r : CowResult) : Prop extends Stands g pages d es after before new r where
  few : new.length ≤ (d + 1) * total
  size : after.length ≤ total
  takes : ∀ e ∈ after, g.Takes e

section Replaces
variable (h : Replaces g pages d total es after before new r)
include h

theorem Replaces.maximum_fits : ∀ n ∈ r.nodes, g.FitsTwice n.maximum.key := by
  intro n hn
  obtain ⟨hagree, hstores⟩ := h.overlaid
  obtain ⟨hforest, hentries⟩ := h.forest _ hagree hstores
  obtain ⟨last, hlast, hhigh⟩ := Option.map_eq_some_iff.mp (hforest.subtree n hn).last
  have hmem : last.bare ∈ after.map bare := by
    rw [← hentries]
    exact mem_map_of_mem (mem_flatMap.mpr ⟨n, hn, mem_of_getLast? hlast⟩)
  obtain ⟨e, he, hbare⟩ := mem_map.mp hmem
  have hkey : e.key = last.key := by
    show e.bare.key = last.bare.key
    rw [hbare]
  rw [← hhigh]
  show g.FitsTwice last.key
  rw [← hkey]
  exact (h.takes e he).2

end Replaces

end Grafx.Index
