import OktoGrafx.Index.OrderedTree

/-! What verification establishes. A subtree is well formed page by page, and its entries are in order
from left to right; no page is met twice because no entry is. -/

namespace Grafx.Index

open List Checked
open Option (map_eq_some_iff)
open IndexEntry (identity)

section Contents
variable (pages : ℕ → Option TreePage)

def pageEntries (i : ℕ) : List IndexEntry :=
  match pages i with
  | none => []
  | some p => (decodeOrderedLeaf p).toOption.getD []

def pagePointers (i : ℕ) : List ChildPointer :=
  match pages i with
  | none => []
  | some p => (decodeOrderedInternal p).toOption.getD []

def entriesAt : ℕ → ℕ → List IndexEntry
  | 0, i => pageEntries pages i
  | d + 1, i => (pagePointers pages i).flatMap fun q => entriesAt d q.childPage

def pagesAt : ℕ → ℕ → List ℕ
  | 0, i => [i]
  | d + 1, i => ((pagePointers pages i).flatMap fun q => pagesAt d q.childPage) ++ [i]

def treeEntries (rootPage height : ℕ) : List IndexEntry := if rootPage = noPage then [] else entriesAt pages (height - 1) rootPage

def treePages (rootPage height : ℕ) : List ℕ := if rootPage = noPage then [] else pagesAt pages (height - 1) rootPage

def LeafAt (i : ℕ) (es : List IndexEntry) : Prop := ∃ p, pages i = some p ∧ p.pageIndex = i ∧ decodeOrderedLeaf p = .ok es

def InternalAt (i : ℕ) (ps : List ChildPointer) : Prop :=
  ∃ p, pages i = some p ∧ p.pageIndex = i ∧ decodeOrderedInternal p = .ok ps

/-- The pages decode down to leaves of one depth, and separators are what the children end at. -/
def Subtree : ℕ → ℕ → High → Prop
  | 0, i, high => ∃ es, LeafAt pages i es ∧ es.getLast?.map (·.high) = some high
  | d + 1, i, high => ∃ ps, InternalAt pages i ps ∧ ps.getLast?.map (·.high) = some high ∧ ∀ q ∈ ps, Subtree d q.childPage q.high

def Tree (rootPage height : ℕ) : Prop :=
  if rootPage = noPage then height = 0
  else 0 < height ∧ firstOrderedTreePage ≤ rootPage ∧ (∃ high, Subtree pages (height - 1) rootPage high) ∧
    Keyed.Sorted identity (entriesAt pages (height - 1) rootPage)

end Contents

variable {pages : ℕ → Option TreePage} {d i height rootPage : ℕ} {high high' : High} {es : List IndexEntry} {ps : List ChildPointer}
  {e : IndexEntry} {visiting : List ℕ} {previous : Option Identity} {expected : Option ℕ} {p : TreePage} {r : Verified} {s s' : VerifyState} {visit : ℕ → VerifyState → Except TreeRefusal (Verified × VerifyState)}

/-! ## Pages and their contents -/

theorem LeafAt.entries (h : LeafAt pages i es) : pageEntries pages i = es := by
  obtain ⟨p, hp, -, hdecode⟩ := h
  rw [pageEntries, hp]
  show (decodeOrderedLeaf p).toOption.getD [] = es
  rw [hdecode]
  rfl

section
variable (h : InternalAt pages i ps)
include h

theorem InternalAt.pointers : pagePointers pages i = ps := by
  obtain ⟨p, hp, -, hdecode⟩ := h
  rw [pagePointers, hp]
  show (decodeOrderedInternal p).toOption.getD [] = ps
  rw [hdecode]
  rfl

theorem InternalAt.entriesAt : entriesAt pages (d + 1) i = ps.flatMap fun q => entriesAt pages d q.childPage := by
  rw [Index.entriesAt, h.pointers]

theorem InternalAt.pagesAt : pagesAt pages (d + 1) i = (ps.flatMap fun q => pagesAt pages d q.childPage) ++ [i] := by
  rw [Index.pagesAt, h.pointers]

omit h in
theorem LeafAt.spec (h : LeafAt pages i es) : Keyed.Sorted identity es ∧ ∀ e ∈ es, e.Plain := by
  obtain ⟨p, -, -, hdecode⟩ := h
  exact decodeOrderedLeaf_spec hdecode

theorem InternalAt.spec : Keyed.Sorted (fun q : ChildPointer => q.high.identity) ps ∧ ∀ q ∈ ps, q.childPage < i := by
  obtain ⟨p, -, hindex, hdecode⟩ := h
  rw [← hindex]
  exact decodeOrderedInternal_spec hdecode

end

theorem decodeOrderedLeaf_type (h : decodeOrderedLeaf p = .ok es) : p.pageType = .indexOrderedLeaf := by
  obtain ⟨_, hshape, _⟩ := bind_ok_iff.mp h
  obtain ⟨_, htype, _⟩ := bind_ok_iff.mp hshape
  exact ensure_ok_iff.mp htype

theorem decodeOrderedInternal_type (h : decodeOrderedInternal p = .ok ps) : p.pageType = .indexOrderedInternal := by
  obtain ⟨_, hshape, _⟩ := bind_ok_iff.mp h
  obtain ⟨_, htype, _⟩ := bind_ok_iff.mp hshape
  exact ensure_ok_iff.mp htype

theorem LeafAt.not_internal (h : LeafAt pages i es) : ¬ InternalAt pages i ps := by
  rintro ⟨p', hp', -, hinternal⟩
  obtain ⟨p, hp, -, hleaf⟩ := h
  cases hp.symm.trans hp'
  exact absurd ((decodeOrderedLeaf_type hleaf).symm.trans (decodeOrderedInternal_type hinternal)) (by decide)

theorem InternalAt.unique {ps' : List ChildPointer} (h : InternalAt pages i ps) (h' : InternalAt pages i ps') : ps = ps' :=
  h.pointers.symm.trans h'.pointers

/-! ## Subtrees -/

section
variable (h : Subtree pages d i high)
include h

theorem Subtree.last : (entriesAt pages d i).getLast?.map (·.high) = some high := by
  induction d generalizing i high with
  | zero =>
    obtain ⟨es, hleaf, hlast⟩ := h
    rw [entriesAt, hleaf.entries]
    exact hlast
  | succ d ih =>
    obtain ⟨ps, hinternal, hlast, hchildren⟩ := h
    obtain ⟨q, hq, rfl⟩ := map_eq_some_iff.mp hlast
    obtain ⟨ps', rfl⟩ := getLast?_eq_some_iff.mp hq
    obtain ⟨e, he, hhigh⟩ := map_eq_some_iff.mp (ih (hchildren q (by simp)))
    rw [hinternal.entriesAt, flatMap_append, getLast?_append]
    simp only [flatMap_cons, flatMap_nil, append_nil, he]
    exact congrArg some hhigh

theorem Subtree.ne_nil : entriesAt pages d i ≠ [] := by
  intro hnil
  have hlast := h.last
  rw [hnil] at hlast
  exact nomatch hlast

theorem Subtree.plain : ∀ e ∈ entriesAt pages d i, e.Plain := by
  induction d generalizing i high with
  | zero =>
    obtain ⟨es, hleaf, -⟩ := h
    rw [entriesAt, hleaf.entries]
    exact hleaf.spec.2
  | succ d ih =>
    obtain ⟨ps, hinternal, -, hchildren⟩ := h
    intro e he
    rw [hinternal.entriesAt, mem_flatMap] at he
    obtain ⟨q, hq, he⟩ := he
    exact ih (hchildren q hq) e he

theorem Subtree.depth_unique {d' : ℕ} (h' : Subtree pages d' i high') : d = d' := by
  induction d generalizing i high d' high' with
  | zero =>
    obtain ⟨es, hleaf, -⟩ := h
    cases d' with
    | zero => rfl
    | succ d' =>
      obtain ⟨ps, hinternal, -⟩ := h'
      exact absurd hinternal hleaf.not_internal
  | succ d ih =>
    obtain ⟨ps, hinternal, hlast, hchildren⟩ := h
    cases d' with
    | zero =>
      obtain ⟨es, hleaf, -⟩ := h'
      exact absurd hinternal hleaf.not_internal
    | succ d' =>
      obtain ⟨ps', hinternal', -, hchildren'⟩ := h'
      obtain rfl := hinternal.unique hinternal'
      obtain ⟨q, hq, -⟩ := map_eq_some_iff.mp hlast
      have hmem : q ∈ ps := mem_of_getLast? hq
      rw [ih (hchildren q hmem) (hchildren' q hmem)]

theorem Subtree.below {u : ℕ} (hu : u ∈ pagesAt pages d i) :
    ∃ k high', Subtree pages k u high' ∧ ∀ e ∈ entriesAt pages k u, e ∈ entriesAt pages d i := by
  induction d generalizing i high with
  | zero =>
    rw [mem_singleton.mp hu]
    exact ⟨0, high, h, fun e he => he⟩
  | succ d ih =>
    have hroot := h
    obtain ⟨ps, hinternal, -, hchildren⟩ := h
    rw [hinternal.pagesAt, mem_append, mem_flatMap, mem_singleton] at hu
    rcases hu with ⟨q, hq, hu⟩ | rfl
    · obtain ⟨k, high', hsub, hmem⟩ := ih (hchildren q hq) hu
      refine ⟨k, high', hsub, fun e he => ?_⟩
      rw [hinternal.entriesAt, mem_flatMap]
      exact ⟨q, hq, hmem e he⟩
    · exact ⟨d + 1, high, hroot, fun e he => he⟩

theorem Subtree.pages_apart {d' i' : ℕ} (h' : Subtree pages d' i' high')
    (hapart : ∀ a ∈ entriesAt pages d i, ∀ b ∈ entriesAt pages d' i', a.identity < b.identity) {u : ℕ}
    (hu : u ∈ pagesAt pages d i) : u ∉ pagesAt pages d' i' := by
  intro hu'
  obtain ⟨k, _, hsub, hmem⟩ := h.below hu
  obtain ⟨k', _, hsub', hmem'⟩ := h'.below hu'
  obtain rfl := hsub.depth_unique hsub'
  obtain ⟨e, he⟩ := exists_mem_of_ne_nil _ hsub.ne_nil
  exact lt_irrefl _ (hapart e (hmem e he) e (hmem' e he))

end

/-! ## Verification accepts exactly these -/

structure Summarizes (pages : ℕ → Option TreePage) (d i : ℕ) (r : Verified) : Prop where
  subtree : ∃ high, Subtree pages d i high ∧ high.identity = r.maximum
  sorted : Keyed.Sorted identity (entriesAt pages d i)
  minimum : (entriesAt pages d i).head?.map identity = some r.minimum
  count : r.count = (entriesAt pages d i).length

theorem Summarizes.min_le (h : Summarizes pages d i r) (he : e ∈ entriesAt pages d i) : r.minimum ≤ e.identity := by
  obtain ⟨first, hfirst, hmin⟩ := map_eq_some_iff.mp h.minimum
  rw [← hmin]
  exact h.sorted.head_le hfirst he

theorem Summarizes.le_max (h : Summarizes pages d i r) (he : e ∈ entriesAt pages d i) : e.identity ≤ r.maximum := by
  obtain ⟨high, hsub, hmax⟩ := h.subtree
  obtain ⟨last, hlast, hhigh⟩ := map_eq_some_iff.mp hsub.last
  rw [← hmax, ← hhigh]
  exact h.sorted.le_last hlast he

structure ChildrenSound (pages : ℕ → Option TreePage) (d : ℕ) (previous : Option Identity) (ps : List ChildPointer)
    (children : List Verified) : Prop where
  subtree : ∀ q ∈ ps, Subtree pages d q.childPage q.high
  sorted : Keyed.Sorted identity (ps.flatMap fun q => entriesAt pages d q.childPage)
  above : ∀ m ∈ previous, ∀ e ∈ ps.flatMap fun q => entriesAt pages d q.childPage, m < e.identity
  minimum : children.head?.map (·.minimum) = (ps.flatMap fun q => entriesAt pages d q.childPage).head?.map identity
  maximum : children.getLast?.map (·.maximum) = ps.getLast?.map (·.high.identity)
  count : (children.map (·.count)).sum = (ps.flatMap fun q => entriesAt pages d q.childPage).length

theorem verifyChildren_sound (hvisit : ∀ j s r s', visit j s = .ok (r, s') → Summarizes pages d j r)
    {children : List Verified} (h : verifyChildren visit i previous ps s = .ok (children, s')) :
    ChildrenSound pages d previous ps children := by
  induction ps generalizing previous s s' children with
  | nil =>
    obtain ⟨rfl, -⟩ := Prod.mk.inj (Except.ok.inj h)
    exact ⟨by simp, by simp [Keyed.Sorted], by simp, rfl, rfl, rfl⟩
  | cons q ps ih =>
    simp only [verifyChildren, bind_ok_iff, ensure_ok_iff, pure_ok_iff] at h
    obtain ⟨⟨child, s₁⟩, hchild, -, hmax, -, hprevious, ⟨others, s₂⟩, hothers, heq⟩ := h
    obtain ⟨rfl, -⟩ := Prod.mk.inj heq
    have hc := hvisit _ _ _ _ hchild
    have hrest := ih hothers
    obtain ⟨high, hsub, hhigh⟩ := hc.subtree
    obtain rfl : high = q.high := High.identity_injective (hhigh.trans hmax)
    have hfirst := hsub.ne_nil
    refine ⟨?_, ?_, ?_, ?_, ?_, ?_⟩
    · intro q' hq'
      rcases mem_cons.mp hq' with rfl | hq'
      · exact hsub
      · exact hrest.subtree q' hq'
    · rw [flatMap_cons, Keyed.sorted_append]
      refine ⟨hc.sorted, hrest.sorted, fun a ha b hb => ?_⟩
      exact lt_of_le_of_lt (hc.le_max ha) (hrest.above _ rfl b hb)
    · intro m hm e he
      rw [flatMap_cons, mem_append] at he
      rcases he with he | he
      · exact lt_of_lt_of_le (hprevious m hm) (hc.min_le he)
      · obtain ⟨e', he'⟩ := exists_mem_of_ne_nil _ hfirst
        calc m < child.minimum := hprevious m hm
          _ ≤ e'.identity := hc.min_le he'
          _ ≤ child.maximum := hc.le_max he'
          _ < e.identity := hrest.above _ rfl e he
    · rw [flatMap_cons, head?_append_of_ne_nil _ hfirst, hc.minimum]
      rfl
    · cases ps with
      | nil =>
        obtain ⟨rfl, -⟩ := Prod.mk.inj (Except.ok.inj hothers)
        exact congrArg some hmax
      | cons q' ps =>
        cases others with
        | nil => exact nomatch hrest.maximum
        | cons other others => exact hrest.maximum
    · rw [flatMap_cons, length_append, ← hrest.count, ← hc.count]
      rfl

theorem verifyVisit_sound (h : verifyVisit pages d visiting i s = .ok (r, s')) : Summarizes pages d i r := by
  induction d generalizing visiting i s s' r with
  | zero =>
    rw [verifyVisit, bind_ok_iff] at h
    obtain ⟨-, -, h⟩ := h
    cases hp : pages i with
    | none =>
      rw [hp] at h
      exact nomatch h
    | some p =>
      rw [hp] at h
      simp only [bind_ok_iff, ensure_ok_iff, verifyLeaf] at h
      obtain ⟨-, hindex, es, hdecode, h⟩ := h
      have hleaf : LeafAt pages i es := ⟨p, hp, hindex, hdecode⟩
      split at h
      · rename_i first last hfirst hlast
        obtain ⟨rfl, -⟩ := Prod.mk.inj (pure_ok_iff.mp h)
        refine ⟨⟨last.high, ⟨es, hleaf, by rw [hlast]; rfl⟩, rfl⟩, ?_, ?_, ?_⟩
        · rw [entriesAt, hleaf.entries]
          exact hleaf.spec.1
        · rw [entriesAt, hleaf.entries, hfirst]
          rfl
        · rw [entriesAt, hleaf.entries]
      · exact nomatch h
  | succ d ih =>
    rw [verifyVisit, bind_ok_iff] at h
    obtain ⟨-, -, h⟩ := h
    cases hp : pages i with
    | none =>
      rw [hp] at h
      exact nomatch h
    | some p =>
      rw [hp] at h
      simp only [bind_ok_iff, ensure_ok_iff] at h
      obtain ⟨-, hindex, ps, hdecode, ⟨children, s₁⟩, hchildren, h⟩ := h
      have hinternal : InternalAt pages i ps := ⟨p, hp, hindex, hdecode⟩
      have hc := verifyChildren_sound (fun j s r s' hj => ih hj) hchildren
      split at h
      · rename_i first last hfirst hlast
        obtain ⟨rfl, -⟩ := Prod.mk.inj (pure_ok_iff.mp h)
        have hmax := hc.maximum
        rw [hlast] at hmax
        obtain ⟨q, hq, hhigh⟩ := map_eq_some_iff.mp hmax.symm
        refine ⟨⟨q.high, ⟨ps, hinternal, by rw [hq]; rfl, hc.subtree⟩, hhigh⟩, ?_, ?_, ?_⟩
        · rw [hinternal.entriesAt]
          exact hc.sorted
        · rw [hinternal.entriesAt, ← hc.minimum, hfirst]
          rfl
        · rw [hinternal.entriesAt]
          exact hc.count
      · exact nomatch h

def Adds (s s' : VerifyState) (us : List ℕ) : Prop := ∀ u, u ∈ s'.visited ↔ u ∈ s.visited ∨ u ∈ us

theorem verifyChildren_complete (hsound : ∀ j s r s', visit j s = .ok (r, s') → Summarizes pages d j r)
    (hvisit : ∀ q ∈ ps, ∀ s, (∀ u ∈ pagesAt pages d q.childPage, u ∉ s.visited) →
      ∃ r s', visit q.childPage s = .ok (r, s') ∧ Adds s s' (pagesAt pages d q.childPage))
    (hsub : ∀ q ∈ ps, Subtree pages d q.childPage q.high)
    (hsorted : Keyed.Sorted identity (ps.flatMap fun q => entriesAt pages d q.childPage))
    (habove : ∀ m ∈ previous, ∀ e ∈ ps.flatMap fun q => entriesAt pages d q.childPage, m < e.identity)
    (hnew : ∀ u ∈ ps.flatMap fun q => pagesAt pages d q.childPage, u ∉ s.visited) :
    ∃ children s', verifyChildren visit i previous ps s = .ok (children, s') ∧
      Adds s s' (ps.flatMap fun q => pagesAt pages d q.childPage) := by
  induction ps generalizing previous s with
  | nil => exact ⟨[], s, rfl, fun u => by simp⟩
  | cons q ps ih =>
    have hq : q ∈ q :: ps := mem_cons_self
    obtain ⟨hfirst, hrest, hapart⟩ := Keyed.sorted_append.mp (flatMap_cons .. ▸ hsorted)
    simp only [flatMap_cons, mem_append] at habove hnew
    obtain ⟨child, s₁, hchild, hadds⟩ := hvisit q hq s fun u hu => hnew u (.inl hu)
    have hc := hsound _ _ _ _ hchild
    obtain ⟨high, hsub', hhigh⟩ := hc.subtree
    obtain ⟨last, hlast, hlasthigh⟩ := map_eq_some_iff.mp (hsub q hq).last
    have hmax : child.maximum = q.high.identity := by
      obtain ⟨last', hlast', hlasthigh'⟩ := map_eq_some_iff.mp hsub'.last
      cases hlast.symm.trans hlast'
      rw [← hhigh, ← hlasthigh', ← hlasthigh]
    have hmin : ∀ m ∈ previous, m < child.minimum := by
      intro m hm
      obtain ⟨first, hfirst, hfirstmin⟩ := map_eq_some_iff.mp hc.minimum
      rw [← hfirstmin]
      exact habove m hm first (.inl (mem_of_head? hfirst))
    have hpast : ∀ m ∈ some child.maximum, ∀ e ∈ ps.flatMap fun q => entriesAt pages d q.childPage, m < e.identity := by
      intro m hm e he
      cases hm
      rw [hmax, ← hlasthigh]
      exact hapart last (mem_of_getLast? hlast) e he
    have hnew' : ∀ u ∈ ps.flatMap fun q => pagesAt pages d q.childPage, u ∉ s₁.visited := by
      intro u hu hvisited
      rcases (hadds u).mp hvisited with hold | hbefore
      · exact hnew u (.inr hu) hold
      · obtain ⟨q', hq', hu'⟩ := mem_flatMap.mp hu
        refine (hsub q hq).pages_apart (hsub q' (mem_cons_of_mem q hq')) (fun a ha b hb => ?_) hbefore hu'
        exact hapart a ha b (mem_flatMap.mpr ⟨q', hq', hb⟩)
    obtain ⟨children, s₂, hchildren, hadds'⟩ :=
      ih (forall_mem_cons.mp hvisit).2 (forall_mem_cons.mp hsub).2 hrest hpast hnew'
    refine ⟨child :: children, s₂, ?_, fun u => ?_⟩
    · simp only [verifyChildren, bind_ok_iff, ensure_ok_iff, pure_ok_iff]
      exact ⟨(child, s₁), hchild, ⟨⟩, hmax, ⟨⟩, hmin, (children, s₂), hchildren, rfl⟩
    · rw [hadds' u, hadds u, flatMap_cons, mem_append, or_assoc]

theorem verifyVisit_complete (h : Subtree pages d i high)
    (hsorted : Keyed.Sorted identity (entriesAt pages d i)) (hvisiting : ∀ v ∈ visiting, i < v)
    (hnew : ∀ u ∈ pagesAt pages d i, u ∉ s.visited) :
    ∃ r s', verifyVisit pages d visiting i s = .ok (r, s') ∧ Adds s s' (pagesAt pages d i) := by
  have hfresh : i ∉ visiting := fun hi => lt_irrefl i (hvisiting i hi)
  induction d generalizing visiting i s high with
  | zero =>
    obtain ⟨es, ⟨p, hp, hindex, hdecode⟩, hlast⟩ := h
    obtain ⟨last, hlast, -⟩ := map_eq_some_iff.mp hlast
    obtain ⟨first, hfirst⟩ : ∃ first, es.head? = some first := by
      cases es with
      | nil => exact nomatch hlast
      | cons first es => exact ⟨first, rfl⟩
    refine ⟨⟨i, first.identity, last.identity, es.length⟩, ⟨i :: s.visited, s.leafPages + 1, s.internalPages⟩, ?_, fun u => ?_⟩
    · simp only [verifyVisit, hp, bind_ok_iff, ensure_ok_iff, verifyLeaf]
      refine ⟨⟨⟩, ⟨hfresh, hnew i (mem_singleton_self i)⟩, ⟨⟩, hindex, es, hdecode, ?_⟩
      rw [hfirst, hlast]
      rfl
    · rw [pagesAt, mem_singleton, mem_cons, or_comm]
  | succ d ih =>
    obtain ⟨ps, hinternal, hlast, hsub⟩ := h
    obtain ⟨q, hq, -⟩ := map_eq_some_iff.mp hlast
    rw [hinternal.entriesAt] at hsorted
    simp only [hinternal.pagesAt, mem_append, mem_singleton] at hnew
    have hbelow := hinternal.spec.2
    have hsound : ∀ j s r s', verifyVisit pages d (i :: visiting) j s = .ok (r, s') → Summarizes pages d j r :=
      fun j s r s' hj => verifyVisit_sound hj
    have hsortedAt := (pairwise_flatMap.mp hsorted).1
    obtain ⟨children, s₁, hchildren, hadds⟩ : ∃ children s', verifyChildren (verifyVisit pages d (i :: visiting)) i none ps s =
        .ok (children, s') ∧ Adds s s' (ps.flatMap fun q => pagesAt pages d q.childPage) := by
      apply verifyChildren_complete hsound _ hsub hsorted (by simp) fun u hu => hnew u (.inl hu)
      intro q' hq' s' hs'
      -- Children come before their parent, so none of them is on the path down to it.
      have hpath : ∀ v ∈ i :: visiting, q'.childPage < v := by
        intro v hv
        rcases mem_cons.mp hv with rfl | hv
        · exact hbelow q' hq'
        · exact (hbelow q' hq').trans (hvisiting v hv)
      exact ih (hsub q' hq') (hsortedAt q' hq') hpath hs' fun hmem => lt_irrefl _ (hpath _ hmem)
    have hc := verifyChildren_sound hsound hchildren
    obtain ⟨last, hlastchild, -⟩ : ∃ last, children.getLast? = some last ∧ last.maximum = q.high.identity := by
      apply map_eq_some_iff.mp
      rw [hc.maximum, hq]
      rfl
    obtain ⟨first, hfirstchild⟩ : ∃ first, children.head? = some first := by
      cases children with
      | nil => exact nomatch hlastchild
      | cons first children => exact ⟨first, rfl⟩
    obtain ⟨p, hp, hindex, hdecode⟩ := hinternal
    refine ⟨⟨i, first.minimum, last.maximum, (children.map (·.count)).sum⟩,
      ⟨i :: s₁.visited, s₁.leafPages, s₁.internalPages + 1⟩, ?_, fun u => ?_⟩
    · simp only [verifyVisit, hp, bind_ok_iff, ensure_ok_iff]
      refine ⟨⟨⟩, ⟨hfresh, hnew i (.inr rfl)⟩, ⟨⟩, hindex, ps, hdecode, (children, s₁), hchildren, ?_⟩
      rw [hfirstchild, hlastchild]
      rfl
    · have hinternal : InternalAt pages i ps := ⟨p, hp, hindex, hdecode⟩
      rw [hinternal.pagesAt, mem_append, mem_singleton, mem_cons, hadds u]
      tauto

theorem verifyOrderedTree_ok_iff : (∃ v, verifyOrderedTree pages rootPage height expected = .ok v) ↔
      Tree pages rootPage height ∧ ∀ n ∈ expected, (treeEntries pages rootPage height).length = n := by
  unfold verifyOrderedTree Tree treeEntries
  split
  · simp only [bind_ok_iff, ensure_ok_iff, pure_ok_iff, length_nil]
    constructor
    · rintro ⟨v, -, ⟨hheight, hcount⟩, -⟩
      exact ⟨hheight, fun n hn => (hcount n hn).symm⟩
    · rintro ⟨hheight, hcount⟩
      exact ⟨_, ⟨⟩, ⟨hheight, fun n hn => (hcount n hn).symm⟩, rfl⟩
  · simp only [bind_ok_iff, ensure_ok_iff, pure_ok_iff]
    constructor
    · rintro ⟨v, -, ⟨hheight, hroot⟩, ⟨r, s⟩, hvisit, -, hcount, -⟩
      have hr := verifyVisit_sound hvisit
      obtain ⟨high, hsub, -⟩ := hr.subtree
      exact ⟨⟨hheight, hroot, ⟨high, hsub⟩, hr.sorted⟩, fun n hn => hr.count.symm.trans (hcount n hn)⟩
    · rintro ⟨⟨hheight, hroot, ⟨high, hsub⟩, hsorted⟩, hcount⟩
      have hpath : ∀ v ∈ ([] : List ℕ), rootPage < v := by simp
      have hnew : ∀ u ∈ pagesAt pages (height - 1) rootPage, u ∉ (⟨[], 0, 0⟩ : VerifyState).visited := by simp
      obtain ⟨r, s, hvisit, -⟩ := verifyVisit_complete hsub hsorted hpath hnew
      have hr := verifyVisit_sound hvisit
      exact ⟨_, ⟨⟩, ⟨hheight, hroot⟩, (r, s), hvisit, ⟨⟩, fun n hn => hr.count.trans (hcount n hn), rfl⟩

theorem verifyOrderedTree_count {v : OrderedTreeVerification}
    (h : verifyOrderedTree pages rootPage height expected = .ok v) : v.entryCount = (treeEntries pages rootPage height).length := by
  unfold verifyOrderedTree at h
  unfold treeEntries
  split at h
  · rename_i hempty
    rw [if_pos hempty]
    simp only [bind_ok_iff, ensure_ok_iff, pure_ok_iff] at h
    obtain ⟨-, -, rfl⟩ := h
    rfl
  · rename_i hroot
    rw [if_neg hroot]
    simp only [bind_ok_iff, ensure_ok_iff, pure_ok_iff] at h
    obtain ⟨-, -, ⟨r, s⟩, hvisit, -, -, rfl⟩ := h
    exact (verifyVisit_sound hvisit).count

end Grafx.Index
