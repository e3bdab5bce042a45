import OktoGrafx.Index.Subtree
import OktoGrafx.Lib.Ascending

/-! What the two walks of a verified tree return. Both leave out subtrees by their separators alone;
what they leave out holds nothing they were asked for. -/

namespace Grafx.Index

open List Checked Ascending
open IndexEntry (identity)

variable {visiting : List ℕ} {α : Type*} {i : ℕ} {pages : ℕ → Option TreePage}

theorem IndexEntry.key_le_key {a b : IndexEntry} (h : a.identity ≤ b.identity) : a.key ≤ b.key := Prod.Lex.monotone_fst _ _ h

theorem ascends_of_sorted {es : List IndexEntry} (h : Keyed.Sorted identity es) : Ascends IndexEntry.key es :=
  h.imp fun hlt => IndexEntry.key_le_key hlt.le

theorem take_bisectLeft (below : α → Bool) (xs : List α) : xs.take (bisectLeft below xs) = xs.takeWhile below := by
  have hsplit : xs.takeWhile below ++ xs.dropWhile below = xs := takeWhile_append_dropWhile
  calc xs.take (bisectLeft below xs)
      = (xs.takeWhile below ++ xs.dropWhile below).take (xs.takeWhile below).length := by rw [hsplit]; rfl
    _ = xs.takeWhile below := take_left

theorem drop_bisectLeft (below : α → Bool) (xs : List α) : xs.drop (bisectLeft below xs) = xs.dropWhile below := by
  have hsplit : xs.takeWhile below ++ xs.dropWhile below = xs := takeWhile_append_dropWhile
  calc xs.drop (bisectLeft below xs)
      = (xs.takeWhile below ++ xs.dropWhile below).drop (xs.takeWhile below).length := by rw [hsplit]; rfl
    _ = xs.dropWhile below := drop_left

theorem resolve_ok {p : TreePage} (hp : pages i = some p)
    (hindex : p.pageIndex = i) (hvisiting : ∀ v ∈ visiting, i < v) : resolve pages visiting i = .ok p := by
  simp only [resolve, hp, bind_ok_iff, ensure_ok_iff, pure_ok_iff]
  exact ⟨⟨⟩, fun hi => lt_irrefl i (hvisiting i hi), ⟨⟩, hindex, trivial⟩

/-! ## Separators -/

structure Separated (f : ChildPointer → List IndexEntry) (ps : List ChildPointer) : Prop where
  sorted : Keyed.Sorted identity (ps.flatMap f)
  last : ∀ q ∈ ps, (f q).getLast?.map (·.high) = some q.high

variable {f : ChildPointer → List IndexEntry} {ps rest : List ChildPointer} {q : ChildPointer} {e : IndexEntry}
  {high : High} {limit : Option ℕ} {d height rootPage : ℕ}

theorem Separated.append (h : Separated f (ps ++ rest)) : Separated f ps ∧ Separated f rest := by
  obtain ⟨hfirst, hrest, -⟩ := Keyed.sorted_append.mp (flatMap_append .. ▸ h.sorted)
  exact ⟨⟨hfirst, fun q hq => h.last q (mem_append_left rest hq)⟩, ⟨hrest, fun q hq => h.last q (mem_append_right ps hq)⟩⟩

theorem Separated.key_le (h : Separated f ps) (hq : q ∈ ps) (he : e ∈ f q) : e.key ≤ q.high.key := by
  obtain ⟨last, hlast, hhigh⟩ := Option.map_eq_some_iff.mp (h.last q hq)
  have hsorted : Keyed.Sorted identity (f q) := (pairwise_flatMap.mp h.sorted).1 q hq
  rw [← hhigh]
  exact IndexEntry.key_le_key (hsorted.le_last hlast he)

theorem Separated.le_key (h : Separated f (q :: rest)) (he : e ∈ rest.flatMap f) : q.high.key ≤ e.key := by
  obtain ⟨last, hlast, hhigh⟩ := Option.map_eq_some_iff.mp (h.last q mem_cons_self)
  obtain ⟨-, -, hapart⟩ := Keyed.sorted_append.mp (flatMap_cons .. ▸ h.sorted)
  rw [← hhigh]
  exact IndexEntry.key_le_key (hapart last (mem_of_getLast? hlast) e he).le

theorem Separated.below (h : Separated f ps) {bound : Bytes} (hps : ∀ q ∈ ps, q.high.key < bound) (he : e ∈ ps.flatMap f) :
    e.key < bound := by
  obtain ⟨q, hq, heq⟩ := mem_flatMap.mp he
  exact lt_of_le_of_lt (h.key_le hq heq) (hps q hq)

theorem separated_of_subtree (hsorted : Keyed.Sorted identity (ps.flatMap fun q => entriesAt pages d q.childPage))
    (hsub : ∀ q ∈ ps, Subtree pages d q.childPage q.high) : Separated (fun q => entriesAt pages d q.childPage) ps :=
  ⟨hsorted, fun q hq => (hsub q hq).last⟩

/-! ## Seeking a key -/

theorem seekChildren_eq {descend : ℕ → Except TreeRefusal (List IndexEntry)} {wanted : Bytes} (h : Separated f ps)
    (hdescend : ∀ q ∈ ps, descend q.childPage = .ok ((f q).filter fun e => decide (e.key = wanted))) :
    seekChildren descend wanted ps = .ok ((ps.flatMap f).filter fun e => decide (e.key = wanted)) := by
  induction ps with
  | nil => rfl
  | cons q ps ih =>
    rw [seekChildren, hdescend q mem_cons_self, ok_bind, flatMap_cons, filter_append]
    split
    · rename_i hpast
      have hnone : (ps.flatMap f).filter (fun e => decide (e.key = wanted)) = [] := by
        refine filter_eq_nil_iff.mpr fun e he => ?_
        simpa using (lt_of_lt_of_le hpast (h.le_key he)).ne'
      rw [hnone, append_nil]
      rfl
    · have hsplit : Separated f ([q] ++ ps) := h
      rw [ih hsplit.append.2 (forall_mem_cons.mp hdescend).2]
      rfl

theorem seekDescend_eq (wanted : Bytes) (h : Subtree pages d i high) (hsorted : Keyed.Sorted identity (entriesAt pages d i))
    (hvisiting : ∀ v ∈ visiting, i < v) :
    seekDescend pages wanted d visiting i = .ok ((entriesAt pages d i).filter fun e => decide (e.key = wanted)) := by
  induction d generalizing visiting i high with
  | zero =>
    obtain ⟨es, hleaf, -⟩ := h
    rw [entriesAt, hleaf.entries] at hsorted ⊢
    obtain ⟨p, hp, hindex, hdecode⟩ := hleaf
    rw [seekDescend, resolve_ok hp hindex hvisiting, ok_bind]
    simp only [hdecode, ok_bind]
    have hfound : (es.dropWhile fun e => decide (e.key < wanted)).takeWhile (fun e => decide (e.key = wanted)) =
        es.filter fun e => decide (e.key = wanted) :=
      (ascends_of_sorted hsorted).takeWhile_at (fun _ => decide_eq_true_iff) (fun _ => decide_eq_true_iff)
    rw [drop_bisectLeft, hfound]
    rfl
  | succ d ih =>
    obtain ⟨ps, hinternal, -, hsub⟩ := h
    rw [hinternal.entriesAt] at hsorted ⊢
    have hseparated := separated_of_subtree hsorted hsub
    have hbelow := hinternal.spec.2
    have hdescend : ∀ q ∈ ps, seekDescend pages wanted d (i :: visiting) q.childPage =
        .ok ((entriesAt pages d q.childPage).filter fun e => decide (e.key = wanted)) := by
      intro q hq
      refine ih (hsub q hq) ((pairwise_flatMap.mp hsorted).1 q hq) fun v hv => ?_
      rcases mem_cons.mp hv with rfl | hv
      · exact hbelow q hq
      · exact (hbelow q hq).trans (hvisiting v hv)
    obtain ⟨p, hp, hindex, hdecode⟩ := hinternal
    rw [seekDescend, resolve_ok hp hindex hvisiting, ok_bind]
    simp only [hdecode, ok_bind]
    rw [drop_bisectLeft]
    -- The children left out at the start end below the key.
    let before : ChildPointer → Bool := fun q => decide (q.high.key < wanted)
    have hsplit : ps = ps.takeWhile before ++ ps.dropWhile before := takeWhile_append_dropWhile.symm
    obtain ⟨hskipped, hseparated⟩ := Separated.append (hsplit ▸ hseparated)
    rw [seekChildren_eq hseparated fun q hq => hdescend q ((dropWhile_sublist before).mem hq)]
    nth_rewrite 2 [hsplit]
    rw [flatMap_append, filter_append]
    have hnone : ((ps.takeWhile before).flatMap fun q => entriesAt pages d q.childPage).filter (fun e => decide (e.key = wanted)) = [] := by
      refine filter_eq_nil_iff.mpr fun e he => ?_
      have hps : ∀ q ∈ ps.takeWhile before, q.high.key < wanted := fun q hq => by simpa [before] using mem_takeWhile_imp hq
      simpa using (hskipped.below hps he).ne
    rw [hnone, nil_append]

/-! ## Walking down from a bound -/

def below (ceiling : Option Bytes) (e : IndexEntry) : Bool := ceiling.all fun bound => decide (e.key < bound)

theorem cut_append (limit : Option ℕ) (emitted : ℕ) (xs ys : List α) :
    cut limit emitted (xs ++ ys) = cut limit emitted xs ++ cut limit (emitted + (cut limit emitted xs).length) ys := by
  cases limit with
  | none => rfl
  | some n =>
    simp only [cut, take_append, length_take]
    congr 2
    omega

theorem cut_reached {emitted : ℕ} (h : reached limit emitted = true) (xs : List α) : cut limit emitted xs = [] := by
  cases limit with
  | none => exact nomatch h
  | some n =>
    have hn : n ≤ emitted := by simpa [reached] using h
    rw [cut, Nat.sub_eq_zero_of_le hn, take_zero]

theorem walkChildren_eq {descend : ℕ → Option Bytes → ℕ → Except TreeRefusal (List IndexEntry)}
    {g : ChildPointer × Option Bytes → List IndexEntry} {items : List (ChildPointer × Option Bytes)}
    (h : ∀ x ∈ items, ∀ emitted, descend x.1.childPage x.2 emitted = .ok (cut limit emitted (g x))) (emitted : ℕ) :
    walkChildren descend limit items emitted = .ok (cut limit emitted (items.flatMap g)) := by
  induction items generalizing emitted with
  | nil => cases limit <;> simp [walkChildren, cut]
  | cons x items ih =>
    obtain ⟨pointer, ceiling⟩ := x
    rw [walkChildren]
    split
    · rename_i hreached
      rw [cut_reached hreached]
    · rw [h _ mem_cons_self emitted, ok_bind, ih (forall_mem_cons.mp h).2, ok_bind, flatMap_cons,
        cut_append]
      rfl

theorem walkOrder_some (ps : List ChildPointer) (bound : Bytes) (hps : ps ≠ []) :
    ∃ first q rest, ps = first ++ q :: rest ∧ (∀ p ∈ first, p.high.key < bound) ∧ (rest = [] ∨ bound ≤ q.high.key) ∧
      walkOrder ps (some bound) = (q, some bound) :: first.reverse.map fun p => (p, none) := by
  let before : ChildPointer → Bool := fun p => decide (p.high.key < bound)
  have hsplit : ps = ps.takeWhile before ++ ps.dropWhile before := takeWhile_append_dropWhile.symm
  have hbefore : ∀ p ∈ ps.takeWhile before, p.high.key < bound := fun p hp => by simpa [before] using mem_takeWhile_imp hp
  cases hdrop : ps.dropWhile before with
  | nil =>
    -- All children end below the bound; the last one is the first to be walked.
    rw [hdrop, append_nil] at hsplit
    obtain ⟨first, q, hlast⟩ := (eq_nil_or_concat ps).resolve_left hps
    rw [concat_eq_append] at hlast
    refine ⟨first, q, [], hlast, fun p hp => ?_, .inl rfl, ?_⟩
    · exact hbefore p (hsplit ▸ hlast ▸ mem_append_left [q] hp)
    · have hlength : bisectLeft before ps = ps.length := congrArg length hsplit.symm
      have htake : ps.take (min (bisectLeft before ps) (ps.length - 1) + 1) = first ++ [q] := by
        rw [← hlast]
        apply take_of_length_le
        omega
      simp only [walkOrder]
      rw [htake, reverse_append]
      rfl
  | cons q rest =>
    rw [hdrop] at hsplit
    have hq : bound ≤ q.high.key := by
      have hhead : ¬ before q := by
        have hne : ps.dropWhile before ≠ [] := by simp [hdrop]
        have hnot := head_dropWhile_not before hne
        simpa [hdrop] using hnot
      simpa [before] using hhead
    refine ⟨ps.takeWhile before, q, rest, hsplit, hbefore, .inr hq, ?_⟩
    have htake : ps.take (min (bisectLeft before ps) (ps.length - 1) + 1) = ps.takeWhile before ++ [q] := by
      have hlength : ps.length = (ps.takeWhile before).length + (rest.length + 1) := by
        conv_lhs => rw [hsplit]
        rw [length_append, length_cons]
      have hmin : min (bisectLeft before ps) (ps.length - 1) = (ps.takeWhile before).length := by
        rw [bisectLeft, hlength]
        omega
      rw [hmin]
      nth_rewrite 2 [hsplit]
      rw [take_length_add_append]
      rfl
    simp only [walkOrder]
    rw [htake, reverse_append]
    rfl

theorem walkOrder_none (ps : List ChildPointer) : walkOrder ps none = ps.reverse.map fun p => (p, none) := by
  have htake : ps.take (ps.length - 1 + 1) = ps := take_of_length_le (by omega)
  simp only [walkOrder]
  rw [htake]
  cases ps.reverse <;> rfl

theorem walkOrder_flatMap (h : Separated f ps) (ceiling : Option Bytes) :
    (walkOrder ps ceiling).flatMap (fun x => ((f x.1).filter (below x.2)).reverse) = ((ps.flatMap f).filter (below ceiling)).reverse := by
  have hopen : ∀ first : List ChildPointer, (first.reverse.map fun p => (p, (none : Option Bytes))).flatMap
      (fun x => ((f x.1).filter (below x.2)).reverse) = (first.flatMap f).reverse := by
    intro first
    have hall : ∀ es : List IndexEntry, es.filter (below none) = es := fun es => filter_eq_self.mpr fun _ _ => rfl
    rw [flatMap_map, reverse_flatMap]
    simp only [hall]
    rfl
  cases ceiling with
  | none =>
    rw [walkOrder_none, hopen]
    exact congrArg reverse (filter_eq_self.mpr fun _ _ => rfl).symm
  | some bound =>
    by_cases hps : ps = []
    · subst hps
      rfl
    · obtain ⟨first, q, rest, rfl, hfirst, hrest, horder⟩ := walkOrder_some ps bound hps
      obtain ⟨hbefore, hafter⟩ := h.append
      have hkept : (first.flatMap f).filter (below (some bound)) = first.flatMap f := by
        refine filter_eq_self.mpr fun e he => ?_
        simpa [below] using hbefore.below hfirst he
      have hnone : (rest.flatMap f).filter (below (some bound)) = [] := by
        refine filter_eq_nil_iff.mpr fun e he => ?_
        rcases hrest with rfl | hq
        · exact nomatch he
        · simpa [below] using le_trans hq (hafter.le_key he)
      rw [horder, flatMap_cons, hopen, flatMap_append, flatMap_cons, filter_append, filter_append, hkept, hnone,
        append_nil, reverse_append]

theorem mem_of_walkOrder {ceiling : Option Bytes} {x : ChildPointer × Option Bytes} (h : x ∈ walkOrder ps ceiling) : x.1 ∈ ps := by
  unfold walkOrder at h
  dsimp only at h
  have htake : ∀ {n y}, y ∈ (ps.take n).reverse → y ∈ ps := fun hy => mem_of_mem_take (mem_reverse.mp hy)
  generalize hys : (ps.take _).reverse = ys at h
  cases ys with
  | nil => cases h
  | cons y ys =>
    rcases mem_cons.mp h with rfl | h
    · exact htake (hys ▸ mem_cons_self)
    · obtain ⟨y', hy', rfl⟩ := mem_map.mp h
      exact htake (hys ▸ mem_cons_of_mem y hy')

theorem walkDescend_eq (limit : Option ℕ) (ceiling : Option Bytes) (emitted : ℕ) (h : Subtree pages d i high)
    (hsorted : Keyed.Sorted identity (entriesAt pages d i)) (hvisiting : ∀ v ∈ visiting, i < v) :
    walkDescend pages limit d visiting i ceiling emitted =
      .ok (cut limit emitted ((entriesAt pages d i).filter (below ceiling)).reverse) := by
  induction d generalizing visiting i high ceiling emitted with
  | zero =>
    obtain ⟨es, hleaf, -⟩ := h
    rw [entriesAt, hleaf.entries] at hsorted ⊢
    obtain ⟨p, hp, hindex, hdecode⟩ := hleaf
    rw [walkDescend, resolve_ok hp hindex hvisiting, ok_bind]
    simp only [hdecode, ok_bind]
    cases ceiling with
    | none =>
      rw [take_length, show es.filter (below none) = es from filter_eq_self.mpr fun _ _ => rfl]
      rfl
    | some bound =>
      have hfound : es.takeWhile (fun e => decide (e.key < bound)) = es.filter fun e => decide (e.key < bound) :=
        (ascends_of_sorted hsorted).takeWhile_before fun _ => decide_eq_true_iff
      simp only [take_bisectLeft, hfound]
      rfl
  | succ d ih =>
    obtain ⟨ps, hinternal, -, hsub⟩ := h
    rw [hinternal.entriesAt] at hsorted ⊢
    have hseparated := separated_of_subtree hsorted hsub
    have hbelow := hinternal.spec.2
    have hdescend : ∀ q ∈ ps, ∀ c n, walkDescend pages limit d (i :: visiting) q.childPage c n =
        .ok (cut limit n ((entriesAt pages d q.childPage).filter (below c)).reverse) := by
      intro q hq c n
      refine ih c n (hsub q hq) ((pairwise_flatMap.mp hsorted).1 q hq) fun v hv => ?_
      rcases mem_cons.mp hv with rfl | hv
      · exact hbelow q hq
      · exact (hbelow q hq).trans (hvisiting v hv)
    obtain ⟨p, hp, hindex, hdecode⟩ := hinternal
    rw [walkDescend, resolve_ok hp hindex hvisiting, ok_bind]
    simp only [hdecode, ok_bind]
    rw [walkChildren_eq (g := fun x => ((entriesAt pages d x.1.childPage).filter (below x.2)).reverse)
      fun x hx n => hdescend x.1 (mem_of_walkOrder hx) x.2 n, walkOrder_flatMap hseparated]

/-! ## Verified trees -/

section
variable (h : Tree pages rootPage height)
include h

theorem Tree.sorted : Keyed.Sorted identity (treeEntries pages rootPage height) := by
  unfold Tree at h
  unfold treeEntries
  split at h
  · rename_i hempty
    rw [if_pos hempty]
    exact .nil
  · rename_i hroot
    rw [if_neg hroot]
    exact h.2.2.2

theorem Tree.seek (key : Bytes) : seekOrderedExact pages rootPage height key =
      (keyBytes key false >>= fun _ => .ok ((treeEntries pages rootPage height).filter fun e => decide (e.key = key))) := by
  unfold Tree at h
  unfold seekOrderedExact treeEntries
  split at h
  · rename_i hempty
    rw [if_pos hempty, if_pos hempty, ensure_pos h]
    rfl
  · rename_i hroot
    obtain ⟨hheight, -, ⟨high, hsub⟩, hsorted⟩ := h
    rw [if_neg hroot, if_neg hroot, ensure_pos hheight, ok_bind, seekDescend_eq key hsub hsorted (by simp)]

theorem Tree.walk (upperKey : Option Bytes) (limit : Option ℕ) (hupper : checkUpper upperKey = .ok ()) :
    walkOrderedDesc pages rootPage height upperKey limit =
      .ok (cut limit 0 ((treeEntries pages rootPage height).filter (below upperKey)).reverse) := by
  unfold Tree at h
  unfold walkOrderedDesc treeEntries
  split at h
  · rename_i hempty
    rw [hupper, ok_bind, if_pos hempty, if_pos hempty, ensure_pos h]
    cases limit <;> simp [cut, ok_bind, pure, Except.pure]
  · rename_i hroot
    obtain ⟨hheight, -, ⟨high, hsub⟩, hsorted⟩ := h
    rw [hupper, ok_bind, if_neg hroot, if_neg hroot, ensure_pos hheight, ok_bind]
    split
    · rename_i hzero
      subst hzero
      rfl
    · exact walkDescend_eq limit upperKey 0 hsub hsorted (by simp)

end

/-- The reads of a tree that verifies: the entries of a key in order, and those below a bound from the highest down,
as many as asked for. -/
theorem verified_tree_reads (pages : ℕ → Option TreePage) (rootPage height : ℕ) (expected : Option ℕ)
    (v : OrderedTreeVerification) (h : verifyOrderedTree pages rootPage height expected = .ok v) :
    Keyed.Sorted identity (treeEntries pages rootPage height) ∧
    (∀ key, seekOrderedExact pages rootPage height key =
      (keyBytes key false >>= fun _ => .ok ((treeEntries pages rootPage height).filter fun e => decide (e.key = key)))) ∧
    (∀ n, walkOrderedDesc pages rootPage height none none = .ok (treeEntries pages rootPage height).reverse ∧
      walkOrderedDesc pages rootPage height none (some n) = .ok ((treeEntries pages rootPage height).reverse.take n)) ∧
    ∀ bound n,
      walkOrderedDesc pages rootPage height (some bound) none = (keyBytes bound false >>= fun _ =>
        .ok ((treeEntries pages rootPage height).filter fun e => decide (e.key < bound)).reverse) ∧
      walkOrderedDesc pages rootPage height (some bound) (some n) = (keyBytes bound false >>= fun _ =>
        .ok (((treeEntries pages rootPage height).filter fun e => decide (e.key < bound)).reverse.take n)) := by
  have htree : Tree pages rootPage height := (verifyOrderedTree_ok_iff.mp ⟨v, h⟩).1
  have hall : (treeEntries pages rootPage height).filter (below none) = treeEntries pages rootPage height :=
    filter_eq_self.mpr fun _ _ => rfl
  refine ⟨htree.sorted, htree.seek, fun n => ⟨?_, ?_⟩, fun bound n => ?_⟩
  · rw [htree.walk none none rfl, hall]
    rfl
  · rw [htree.walk none (some n) rfl, hall]
    rfl
  · cases hkey : keyBytes bound false with
    | error e => constructor <;> (rw [walkOrderedDesc, checkUpper, hkey]; rfl)
    | ok x => exact ⟨htree.walk (some bound) none hkey, htree.walk (some bound) (some n) hkey⟩

def longEntry (slot : Byte) : IndexEntry :=
  ⟨replicate 200 1, ⟨1, slot, one_le_maxPageIndex, slot.isLt.le.trans (by decide)⟩, false, noCsn, noCsn, noPage, 0,
    by rw [length_replicate]; decide, noCsn_lt, noCsn_lt, unstamped⟩

def longPages : ℕ → Option TreePage :=
  match buildOrderedTree [longEntry 2, longEntry 0, longEntry 1] ⟨512, 3, 0⟩ with
  | .ok b => pageMap b.pages
  | .error _ => fun _ => none

theorem verified_tree_reads_long_key : ∃ v, verifyOrderedTree longPages 5 2 (some 3) = .ok v ∧ v.leafPages = 2 ∧
    (seekOrderedExact longPages 5 2 (replicate 200 1)).toOption.map (·.map (·.ref.slot)) = some [0, 1, 2] ∧
    (walkOrderedDesc longPages 5 2 none (some 2)).toOption.map (·.map (·.ref.slot)) = some [2, 1] := by
  have hok : (verifyOrderedTree longPages 5 2 (some 3)).toOption.map (·.leafPages) = some 2 := by decide +kernel
  obtain ⟨v, hv, hleaves⟩ := exists_of_toOption_map hok
  obtain ⟨-, hseek, hwalk, -⟩ := verified_tree_reads longPages 5 2 (some 3) v hv
  rw [hseek, (hwalk 2).2]
  refine ⟨v, hv, hleaves, ?_, ?_⟩ <;> decide +kernel

end Grafx.Index
