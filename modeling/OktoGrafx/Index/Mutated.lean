import OktoGrafx.Index.Replaced
import OktoGrafx.Index.TreeReads

/-! What a batch makes of a subtree. Changes go to the child whose range they fall in, so the children
can be taken one by one. -/

namespace Grafx.Index

open List Checked Packing

variable {g : Growth} {pages : ℕ → Option TreePage} {before : List TreePage}
  {high : High} {ps : List ChildPointer} {after es : List IndexEntry} {batch : List TreeChange} {d i total : ℕ}

/-! ## Packing, when there is room -/

theorem packLeaf_ok (hfits : ∀ e ∈ es, (leafItem e).size ≤ g.room)
    (hroom : g.startPage + before.length + (binsOf leafItem g es).length ≤ noPage) : packLeaf g es before =
      .ok (nodesOf leafItem (g.startPage + before.length) (binsOf leafItem g es),
        before ++ levelPages leafItem g .indexOrderedLeaf (g.startPage + before.length) es) := by
  apply (packLevel_ok_iff (by omega)).mpr
  exact ⟨hfits, hroom, rfl⟩

theorem mapM_node (ps : List ChildPointer) :
    (ps.map ChildPointer.node).mapM (fun n => ChildPointer.make n.maximum n.page) = .ok ps := by
  induction ps with
  | nil => rfl
  | cons q ps ih =>
    rw [map_cons, mapM_cons, ih]
    show (ChildPointer.make q.high q.childPage >>= _) = _
    rw [q.make_eq]
    rfl

theorem mapM_make {nodes : List CowNode} (h : nodes.mapM (fun n => ChildPointer.make n.maximum n.page) = .ok ps) :
    nodes = ps.map ChildPointer.node := by
  have hmake : ∀ {n : CowNode} {q : ChildPointer}, ChildPointer.make n.maximum n.page = .ok q → n = q.node := by
    intro n q hq
    unfold ChildPointer.make at hq
    split at hq
    · split at hq
      · cases hq
        rfl
      · exact nomatch hq
    · exact nomatch hq
  induction nodes generalizing ps with
  | nil =>
    obtain rfl := pure_ok_iff.mp h
    rfl
  | cons n nodes ih =>
    rw [mapM_cons, bind_ok_iff] at h
    obtain ⟨q, hq, h⟩ := h
    obtain ⟨qs, hqs, h⟩ := bind_ok_iff.mp h
    obtain rfl := pure_ok_iff.mp h
    rw [map_cons, ← ih hqs, ← hmake hq]

theorem packInternal_ok (hfits : ∀ q ∈ ps, (pointerItem q).size ≤ g.room)
    (hroom : g.startPage + before.length + (binsOf pointerItem g ps).length ≤ noPage) : packInternal g (ps.map ChildPointer.node) before =
      .ok (nodesOf pointerItem (g.startPage + before.length) (binsOf pointerItem g ps),
        before ++ levelPages pointerItem g .indexOrderedInternal (g.startPage + before.length) ps) := by
  rw [packInternal, mapM_node, ok_bind]
  apply (packLevel_ok_iff (by omega)).mpr
  exact ⟨hfits, hroom, rfl⟩

/-! ## Routing -/

theorem length_takeWhile_mono {α : Type*} {p q : α → Bool} (h : ∀ a, p a → q a) (xs : List α) :
    (xs.takeWhile p).length ≤ (xs.takeWhile q).length := by
  induction xs with
  | nil => exact le_rfl
  | cons a xs ih =>
    by_cases hp : p a
    · rw [takeWhile_cons_of_pos hp, takeWhile_cons_of_pos (h a hp)]
      exact Nat.succ_le_succ ih
    · rw [takeWhile_cons_of_neg hp]
      exact Nat.zero_le _

theorem route_mono (ps : List ChildPointer) {i j : Identity} (h : i < j) : route ps i ≤ route ps j := by
  have hle : bisectLeft (fun p => decide (p.high.identity < i)) ps ≤ bisectLeft (fun p => decide (p.high.identity < j)) ps := by
    apply length_takeWhile_mono
    intro q hq
    exact decide_eq_true (lt_trans (of_decide_eq_true hq) h)
  unfold route
  omega

theorem route_lt (hps : ps ≠ []) (i : Identity) : route ps i < ps.length := by
  have hpos : 0 < ps.length := length_pos_of_ne_nil hps
  unfold route
  omega

theorem route_entry {f : ChildPointer → List IndexEntry} {first rest : List ChildPointer} {q : ChildPointer} {e : IndexEntry}
    (h : Separated f (first ++ q :: rest)) (he : e ∈ f q) : route (first ++ q :: rest) e.identity = first.length := by
  obtain ⟨-, -, hapart⟩ := Keyed.sorted_append.mp (flatMap_append .. ▸ h.sorted)
  have hmem : q ∈ first ++ q :: rest := by simp
  have hbefore : ∀ p ∈ first, decide (p.high.identity < e.identity) = true := by
    intro p hp
    obtain ⟨last, hlast, hhigh⟩ := Option.map_eq_some_iff.mp (h.last p (mem_append_left _ hp))
    rw [← hhigh]
    apply decide_eq_true
    apply hapart last (mem_flatMap.mpr ⟨p, hp, mem_of_getLast? hlast⟩) e
    exact mem_flatMap.mpr ⟨q, mem_cons_self, he⟩
  have hself : ¬ decide (q.high.identity < e.identity) = true := by
    obtain ⟨last, hlast, hhigh⟩ := Option.map_eq_some_iff.mp (h.last q hmem)
    have hsorted : Keyed.Sorted IndexEntry.identity (f q) := (pairwise_flatMap.mp h.sorted).1 q hmem
    rw [← hhigh, decide_eq_true_iff, not_lt]
    exact hsorted.le_last hlast he
  have htake : (first ++ q :: rest).takeWhile (fun p => decide (p.high.identity < e.identity)) = first := by
    rw [takeWhile_append_of_pos hbefore, takeWhile_cons_of_neg (p := fun p : ChildPointer => decide (p.high.identity < e.identity)) hself,
      append_nil]
  rw [route, bisectLeft, htake, length_append, length_cons]
  omega

/-! ## Children -/

theorem foldl_groups (batch : List TreeChange) (h : Separated (fun q => entriesAt pages d q.childPage) ps) (hps : ps ≠ []) :
    ((groupsOf ps batch).flatMap fun x => x.2.foldl foldChange (entriesAt pages d x.1.childPage)) =
      batch.foldl foldChange (ps.flatMap fun q => entriesAt pages d q.childPage) := by
  have hmono : ∀ i j, i < j → route ps i ≤ route ps j := fun _ _ hij => route_mono ps hij
  rw [foldChange_step.foldl_flatMap hmono _ ps 0 h.sorted, groupsOf, flatMap_map]
  · intro x hx e he
    obtain ⟨n, hn, rfl⟩ : ∃ n, ∃ hn : n < ps.length, x = (ps[n], n) := by
      obtain ⟨q, n⟩ := x
      have hget := mk_mem_zipIdx_iff_getElem?.mp hx
      obtain ⟨hn, hq⟩ := List.getElem?_eq_some_iff.mp hget
      exact ⟨n, hn, by rw [hq]⟩
    have hsplit : ps = ps.take n ++ ps[n] :: ps.drop (n + 1) := by
      rw [getElem_cons_drop, take_append_drop]
    have hroute := route_entry (hsplit ▸ h) he
    rw [← hsplit, length_take] at hroute
    omega
  · intro c _
    exact ⟨Nat.zero_le _, by simpa using route_lt hps c.identity⟩

theorem sum_groups (pages : ℕ → Option TreePage) (d : ℕ) (batch : List TreeChange) (hps : ps ≠ []) :
    ((groupsOf ps batch).map fun x => (entriesAt pages d x.1.childPage).length + x.2.length).sum =
      (ps.flatMap fun q => entriesAt pages d q.childPage).length + batch.length := by
  have hchanges := Keyed.sum_length_classes (fun c : TreeChange => route ps c.identity) ps 0 batch fun c _ =>
    ⟨Nat.zero_le _, by simpa using route_lt hps c.identity⟩
  have hentries : ((ps.zipIdx 0).map fun x => (entriesAt pages d x.1.childPage).length).sum =
      (ps.flatMap fun q => entriesAt pages d q.childPage).length := by
    have hfst : ((ps.zipIdx 0).map Prod.fst) = ps := zipIdx_map_fst 0 ps
    rw [length_flatMap]
    conv_rhs => rw [← hfst, map_map]
    rfl
  rw [groupsOf, map_map, ← hentries, ← hchanges, ← sum_map_add]
  rfl

/-! ## Subtrees -/

structure Branch (g : Growth) (pages : ℕ → Option TreePage) (d i : ℕ) (high : High) (batch : List TreeChange) (ps : List ChildPointer)
    (last : ChildPointer) : Prop where
  internal : InternalAt pages i ps
  getLast : ps.getLast? = some last
  high : last.high = high
  subtree : ∀ x ∈ groupsOf ps batch, Subtree pages d x.1.childPage x.1.high
  below : ∀ x ∈ groupsOf ps batch, x.1.childPage < g.startPage
  sorted : ∀ x ∈ groupsOf ps batch, Keyed.Sorted IndexEntry.identity (entriesAt pages d x.1.childPage)
  entries : ∀ x ∈ groupsOf ps batch, ∀ e ∈ entriesAt pages d x.1.childPage, e ∈ entriesAt pages (d + 1) i
  changes : ∀ x ∈ groupsOf ps batch, ∀ c ∈ x.2, c ∈ batch
  before : ((groupsOf ps batch).flatMap fun x => entriesAt pages d x.1.childPage) = entriesAt pages (d + 1) i
  after : ((groupsOf ps batch).flatMap fun x => x.2.foldl foldChange (entriesAt pages d x.1.childPage)) =
    batch.foldl foldChange (entriesAt pages (d + 1) i)
  total : ((groupsOf ps batch).map fun x => (entriesAt pages d x.1.childPage).length + x.2.length).sum =
    (entriesAt pages (d + 1) i).length + batch.length

theorem Subtree.branch (hsub : Subtree pages (d + 1) i high) (hbelow : i < g.startPage)
    (hsorted : Keyed.Sorted IndexEntry.identity (entriesAt pages (d + 1) i)) (batch : List TreeChange) :
    ∃ ps last, Branch g pages d i high batch ps last := by
  obtain ⟨ps, hinternal, hlast, hchildren⟩ := hsub
  obtain ⟨last, hlast, hhigh⟩ := Option.map_eq_some_iff.mp hlast
  have hps : ps ≠ [] := by
    rintro rfl
    cases hlast
  have hentries : entriesAt pages (d + 1) i = ps.flatMap fun q => entriesAt pages d q.childPage := hinternal.entriesAt
  rw [hentries] at hsorted
  have hmem : ∀ x ∈ groupsOf ps batch, x.1 ∈ ps ∧ ∀ c ∈ x.2, c ∈ batch := by
    intro x hx
    obtain ⟨y, hy, rfl⟩ := mem_map.mp hx
    exact ⟨fst_mem_of_mem_zipIdx hy, fun c hc => mem_of_mem_filter hc⟩
  refine ⟨ps, last, hinternal, hlast, hhigh, fun x hx => hchildren x.1 (hmem x hx).1, ?_, ?_, ?_, fun x hx => (hmem x hx).2, ?_, ?_, ?_⟩
  · exact fun x hx => (hinternal.spec.2 x.1 (hmem x hx).1).trans hbelow
  · exact fun x hx => (pairwise_flatMap.mp hsorted).1 x.1 (hmem x hx).1
  · intro x hx e he
    rw [hentries]
    exact mem_flatMap.mpr ⟨x.1, (hmem x hx).1, he⟩
  · rw [hentries, groupsOf, flatMap_map]
    exact flatMap_zipIdx_fst ps 0 fun q => entriesAt pages d q.childPage
  · rw [hentries]
    exact foldl_groups batch (separated_of_subtree hsorted hchildren) hps
  · rw [hentries]
    exact sum_groups pages d batch hps

end Grafx.Index
