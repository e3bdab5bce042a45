import OktoGrafx.Index.Packed

/-! Subtrees side by side, all of one height. Packing entries makes a forest of leaves, and packing a
forest makes one of the next height with the same entries. -/

namespace Grafx.Index

open List Checked Packing
open IndexEntry (bare identity)

variable {ps : List ChildPointer} {nodes : List CowNode} {es : List IndexEntry} {previous : Option Identity} {d i k page : ℕ}
  {pages : ℕ → Option TreePage}

/-! ## Packed pages decode -/

theorem liveSlots_pageOf (g : Growth) (pageType : PageType) (i : ℕ) (bin : List Item) :
    (pageOf g pageType i bin).liveSlots = bin.zipIdx.map fun x => (x.2, x.1.payload) := by
  show (bin.map fun x => some x.payload).zipIdx.filterMap _ = _
  rw [zipIdx_map, filterMap_map]
  exact congrFun filterMap_eq_map bin.zipIdx

theorem validateShape_pageOf {g : Growth} {pageType : PageType} {bin : List Item} (hbin : bin ≠ []) :
    (pageOf g pageType i bin).validateShape pageType = .ok ⟨⟩ := by
  have hslots : (pageOf g pageType i bin).slots ≠ [] := by
    intro h
    exact hbin (map_eq_nil_iff.mp h)
  simp only [TreePage.validateShape, bind_ok_iff, ensure_ok_iff]
  exact ⟨⟨⟩, rfl, ⟨⟩, ⟨rfl, rfl, rfl⟩, ⟨⟩, rfl, hslots⟩

def placed (page slot : ℕ) (es : List IndexEntry) : List IndexEntry := (es.zipIdx slot).map fun x => x.1.locatedAt page x.2

theorem map_bare_placed (page slot : ℕ) (es : List IndexEntry) : (placed page slot es).map bare = es.map bare := by
  induction es generalizing slot with
  | nil => rfl
  | cons e es ih =>
    exact congrArg (e.bare :: ·) (ih (slot + 1))

theorem sorted_map_bare : Keyed.Sorted identity (es.map bare) ↔ Keyed.Sorted identity es := by
  unfold Keyed.Sorted
  rw [pairwise_map]
  rfl

theorem getLast_placed (page slot : ℕ) (es : List IndexEntry) :
    (placed page slot es).getLast?.map (·.high) = es.getLast?.map (·.high) := by
  have hhigh : ∀ es : List IndexEntry, es.getLast?.map (·.high) = ((es.map bare).getLast?).map (·.high) := by
    intro es
    rw [getLast?_map, Option.map_map]
    rfl
  rw [hhigh, map_bare_placed, ← hhigh]

theorem decodeEntries_encode (slot : ℕ) (hplain : ∀ e ∈ es, e.Plain)
    (hsorted : Keyed.Sorted identity es) (habove : ∀ m ∈ previous, ∀ e ∈ es, m < e.identity) :
    decodeEntries page previous ((es.zipIdx slot).map fun x => (x.2, x.1.encode)) = .ok (placed page slot es) := by
  induction es generalizing slot previous with
  | nil => rfl
  | cons e es ih =>
    obtain ⟨hfirst, hrest⟩ := pairwise_cons.mp hsorted
    obtain ⟨hversioned, hkey⟩ := hplain e mem_cons_self
    have hpast : ∀ m ∈ some (e.bare.locatedAt page slot).identity, ∀ e' ∈ es, m < e'.identity := by
      intro m hm e' he'
      cases hm
      exact hfirst e' he'
    have hothers := ih (slot + 1) (forall_mem_cons.mp hplain).2 hrest hpast
    rw [zipIdx_cons, map_cons, decodeEntries, e.decode_encode]
    simp only [ok_bind, bind_ok_iff, ensure_ok_iff, pure_ok_iff, keyBytes_ok_iff]
    exact ⟨⟨⟩, hversioned, ⟨⟩, ⟨hkey, e.key_le⟩, ⟨⟩, fun m hm => habove m hm e mem_cons_self, _, hothers, rfl⟩

theorem decodePointers_encode (slot : ℕ) {children : List ℕ}
    (hsorted : Keyed.Sorted (fun q : ChildPointer => q.high.identity) ps) (hbelow : ∀ q ∈ ps, q.childPage < page)
    (hdistinct : (ps.map (·.childPage)).Nodup) (habove : ∀ m ∈ previous, ∀ q ∈ ps, m < q.high.identity)
    (hnew : ∀ q ∈ ps, q.childPage ∉ children) :
    decodePointers page previous children ((ps.zipIdx slot).map fun x => (x.2, x.1.encode)) = .ok ps := by
  induction ps generalizing slot previous children with
  | nil => rfl
  | cons q ps ih =>
    obtain ⟨hfirst, hrest⟩ := pairwise_cons.mp hsorted
    obtain ⟨honce, hothers⟩ := nodup_cons.mp hdistinct
    have hpast : ∀ m ∈ some q.high.identity, ∀ q' ∈ ps, m < q'.high.identity := by
      intro m hm q' hq'
      cases hm
      exact hfirst q' hq'
    have hnew' : ∀ q' ∈ ps, q'.childPage ∉ q.childPage :: children := by
      intro q' hq' hmem
      rcases mem_cons.mp hmem with heq | hmem
      · exact honce (mem_map.mpr ⟨q', hq', heq⟩)
      · exact hnew q' (mem_cons_of_mem q hq') hmem
    have hread := ih (slot + 1) hrest (forall_mem_cons.mp hbelow).2 hothers hpast hnew'
    rw [zipIdx_cons, map_cons, decodePointers, q.decode_encode]
    simp only [ok_bind, bind_ok_iff, ensure_ok_iff, pure_ok_iff]
    exact ⟨⟨⟩, hbelow q mem_cons_self, ⟨⟩, fun m hm => habove m hm q mem_cons_self, ⟨⟩, hnew q mem_cons_self, _, hread, rfl⟩

theorem leafAt_pageOf {g : Growth}
    (hpage : pages i = some (pageOf g .indexOrderedLeaf i (es.map leafItem))) (hes : es ≠ []) (hplain : ∀ e ∈ es, e.Plain)
    (hsorted : Keyed.Sorted identity es) : LeafAt pages i (placed i 0 es) := by
  have hslots : (pageOf g .indexOrderedLeaf i (es.map leafItem)).liveSlots = (es.zipIdx 0).map fun x => (x.2, x.1.encode) := by
    rw [liveSlots_pageOf, zipIdx_map, map_map]
    rfl
  refine ⟨_, hpage, rfl, ?_⟩
  rw [decodeOrderedLeaf, validateShape_pageOf (mt map_eq_nil_iff.mp hes), ok_bind, hslots]
  exact decodeEntries_encode 0 hplain hsorted (by simp)

theorem internalAt_pageOf {g : Growth} (hpage : pages i = some (pageOf g .indexOrderedInternal i (ps.map pointerItem))) (hps : ps ≠ [])
    (hsorted : Keyed.Sorted (fun q : ChildPointer => q.high.identity) ps) (hbelow : ∀ q ∈ ps, q.childPage < i)
    (hdistinct : (ps.map (·.childPage)).Nodup) : InternalAt pages i ps := by
  have hslots : (pageOf g .indexOrderedInternal i (ps.map pointerItem)).liveSlots = (ps.zipIdx 0).map fun x => (x.2, x.1.encode) := by
    rw [liveSlots_pageOf, zipIdx_map, map_map]
    rfl
  refine ⟨_, hpage, rfl, ?_⟩
  rw [decodeOrderedInternal, validateShape_pageOf (mt map_eq_nil_iff.mp hps), ok_bind, hslots]
  exact decodePointers_encode 0 hsorted hbelow hdistinct (by simp) (by simp)

/-! ## Packed levels -/

section Levels
variable {α : Type} (toItem : α → Item)

def binsOf (g : Growth) (xs : List α) : List (List α) := greedy (fun a => (toItem a).size) g.room xs

def nodesOf (i : ℕ) (bins : List (List α)) : List CowNode := (bins.zipIdx i).map fun x => ⟨x.2, lastHigh (x.1.map toItem)⟩

def levelPages (g : Growth) (pageType : PageType) (i : ℕ) (xs : List α) : List TreePage :=
  pagesOf g pageType i ((binsOf toItem g xs).map (map toItem))

variable {toItem} {g : Growth} {pageType : PageType} {xs : List α} {newPages : List TreePage}

theorem packLevel_ok_iff (hpages : g.startPage + newPages.length ≤ noPage) {r : List CowNode × List TreePage} :
    (appendPackedPages g pageType (xs.map toItem) newPages >>= fun s => pure (s.1.map Packed.node, s.2)) = .ok r ↔
      (∀ x ∈ xs, (toItem x).size ≤ g.room) ∧ g.startPage + newPages.length + (binsOf toItem g xs).length ≤ noPage ∧
        r = (nodesOf toItem (g.startPage + newPages.length) (binsOf toItem g xs),
          newPages ++ levelPages toItem g pageType (g.startPage + newPages.length) xs) := by
  have hnodes : ∀ i (bins : List (List α)), (packedsOf i (bins.map (map toItem))).map Packed.node = nodesOf toItem i bins := by
    intro i bins
    rw [packedsOf, nodesOf, zipIdx_map, map_map, map_map]
    rfl
  simp only [bind_ok_iff, appendPackedPages_ok_iff hpages, pure_ok_iff, greedy_map, length_map, forall_mem_map]
  constructor
  · rintro ⟨s, ⟨hsize, hend, rfl⟩, rfl⟩
    exact ⟨hsize, hend, by rw [hnodes]; rfl⟩
  · rintro ⟨hsize, hend, rfl⟩
    exact ⟨_, ⟨hsize, hend, rfl⟩, by rw [hnodes]; rfl⟩

theorem getLast_lastHigh (toItem : α → Item) {high : α → High} (hhigh : ∀ a, (toItem a).high = high a) {bin : List α} (hbin : bin ≠ []) :
    bin.getLast?.map high = some (lastHigh (bin.map toItem)) := by
  obtain ⟨last, hlast⟩ : ∃ last, bin.getLast? = some last := ⟨bin.getLast hbin, getLast?_eq_some_getLast hbin⟩
  rw [lastHigh, getLast?_map, hlast]
  exact congrArg some (hhigh last).symm

theorem nodesOf_length (i : ℕ) (bins : List (List α)) : (nodesOf toItem i bins).length = bins.length := by
  rw [nodesOf, length_map, length_zipIdx]

theorem nodesOf_page {bins : List (List α)} {n : CowNode} (h : n ∈ nodesOf toItem k bins) : k ≤ n.page ∧ n.page < k + bins.length := by
  obtain ⟨⟨bin, i⟩, hbin, rfl⟩ := mem_map.mp h
  have hlt := snd_lt_add_of_mem_zipIdx hbin
  exact ⟨le_snd_of_mem_zipIdx hbin, by simpa [add_comm] using hlt⟩

theorem pagesOf_length (i : ℕ) (bins : List (List Item)) : (pagesOf g pageType i bins).length = bins.length := by
  rw [pagesOf, length_map, length_zipIdx]

theorem levelPages_length (i : ℕ) : (levelPages toItem g pageType i xs).length = (binsOf toItem g xs).length := by
  rw [levelPages, pagesOf_length, length_map]

theorem pagesOf_index (i : ℕ) (bins : List (List Item)) :
    (pagesOf g pageType i bins).map (·.pageIndex) = range' i bins.length := by
  rw [pagesOf, map_map]
  exact zipIdx_map_snd i bins

theorem levelPages_index (i : ℕ) :
    (levelPages toItem g pageType i xs).map (·.pageIndex) = range' i (binsOf toItem g xs).length := by
  rw [levelPages, pagesOf_index, length_map]

end Levels

def Stores (pages : ℕ → Option TreePage) (newPages : List TreePage) : Prop := ∀ p ∈ newPages, pages p.pageIndex = some p

theorem Stores.append {a b : List TreePage} (h : Stores pages (a ++ b)) : Stores pages a ∧ Stores pages b :=
  ⟨fun p hp => h p (mem_append_left b hp), fun p hp => h p (mem_append_right a hp)⟩

theorem Stores.bin {α : Type} {toItem : α → Item} {g : Growth} {pageType : PageType} {xs : List α}
    (h : Stores pages (levelPages toItem g pageType k xs)) {bin : List α} (hbin : (bin, i) ∈ (binsOf toItem g xs).zipIdx k) :
    pages i = some (pageOf g pageType i (bin.map toItem)) := by
  apply h (pageOf g pageType i (bin.map toItem))
  rw [levelPages, pagesOf, zipIdx_map, map_map]
  exact mem_map.mpr ⟨(bin, i), hbin, rfl⟩

/-! ## Forests -/

def forestEntries (pages : ℕ → Option TreePage) (d : ℕ) (nodes : List CowNode) : List IndexEntry :=
  nodes.flatMap fun n => entriesAt pages d n.page

structure Forest (pages : ℕ → Option TreePage) (d : ℕ) (nodes : List CowNode) : Prop where
  subtree : ∀ n ∈ nodes, Subtree pages d n.page n.maximum
  sorted : Keyed.Sorted identity (forestEntries pages d nodes)

theorem Forest.highs (h : Forest pages d nodes) : Keyed.Sorted (fun n : CowNode => n.maximum.identity) nodes := by
  have hapart := (pairwise_flatMap.mp h.sorted).2
  refine hapart.imp_of_mem fun {a b} ha hb hab => ?_
  obtain ⟨last, hlast, hhigh⟩ := Option.map_eq_some_iff.mp (h.subtree a ha).last
  obtain ⟨last', hlast', hhigh'⟩ := Option.map_eq_some_iff.mp (h.subtree b hb).last
  show a.maximum.identity < b.maximum.identity
  rw [← hhigh, ← hhigh']
  exact hab last (mem_of_getLast? hlast) last' (mem_of_getLast? hlast')

theorem Forest.pages_distinct (h : Forest pages d nodes) : (nodes.map (·.page)).Nodup := by
  have hapart := (pairwise_flatMap.mp h.sorted).2
  refine pairwise_map.mpr (hapart.imp_of_mem fun {a b} ha _ hab hpage => ?_)
  obtain ⟨e, he⟩ := exists_mem_of_ne_nil _ (h.subtree a ha).ne_nil
  exact lt_irrefl _ (hab e he e (hpage ▸ he))

theorem flatMap_zipIdx_fst {α β : Type} (xs : List α) (k : ℕ) (f : α → List β) : (xs.zipIdx k).flatMap (fun x => f x.1) = xs.flatMap f := by
  have hfst : (xs.zipIdx k).map Prod.fst = xs := zipIdx_map_fst k xs
  rw [← flatMap_map Prod.fst f, hfst]

theorem packLeaf_forest {g : Growth} (hplain : ∀ e ∈ es, e.Plain)
    (hsorted : Keyed.Sorted identity es) (hstores : Stores pages (levelPages leafItem g .indexOrderedLeaf k es)) :
    Forest pages 0 (nodesOf leafItem k (binsOf leafItem g es)) ∧
      (forestEntries pages 0 (nodesOf leafItem k (binsOf leafItem g es))).map bare = es.map bare := by
  have hflat : (binsOf leafItem g es).flatten = es := greedy_flatten es
  have hin : ∀ {bin i}, (bin, i) ∈ (binsOf leafItem g es).zipIdx k → bin ∈ binsOf leafItem g es := fst_mem_of_mem_zipIdx
  have hsub : ∀ bin ∈ binsOf leafItem g es, bin.Sublist es := fun bin hbin => hflat ▸ sublist_flatten_of_mem hbin
  have hleaf : ∀ bin i, (bin, i) ∈ (binsOf leafItem g es).zipIdx k → LeafAt pages i (placed i 0 bin) := by
    intro bin i hbin
    have hmem := hsub bin (hin hbin)
    exact leafAt_pageOf (hstores.bin hbin) (greedy_ne_nil es bin (hin hbin)) (fun e he => hplain e (hmem.mem he)) (hsorted.sublist hmem)
  have hentries : forestEntries pages 0 (nodesOf leafItem k (binsOf leafItem g es)) =
      ((binsOf leafItem g es).zipIdx k).flatMap fun x => placed x.2 0 x.1 := by
    rw [forestEntries, nodesOf, flatMap_map]
    exact flatMap_congr fun x hx => (hleaf x.1 x.2 hx).entries
  have hbare : (forestEntries pages 0 (nodesOf leafItem k (binsOf leafItem g es))).map bare = es.map bare := by
    rw [hentries, map_flatMap]
    simp only [map_bare_placed]
    rw [flatMap_zipIdx_fst _ k (map bare), flatMap_def, ← map_flatten, hflat]
  refine ⟨⟨fun n hn => ?_, ?_⟩, hbare⟩
  · obtain ⟨⟨bin, i⟩, hbin, rfl⟩ := mem_map.mp hn
    refine ⟨_, hleaf bin i hbin, ?_⟩
    rw [getLast_placed]
    exact getLast_lastHigh leafItem (fun _ => rfl) (greedy_ne_nil es bin (hin hbin))
  · rw [← sorted_map_bare, hbare, sorted_map_bare]
    exact hsorted

def ChildPointer.node (q : ChildPointer) : CowNode := ⟨q.childPage, q.high⟩

theorem packInternal_forest {g : Growth} (hforest : Forest pages d (ps.map ChildPointer.node)) (hbelow : ∀ q ∈ ps, q.childPage < k)
    (hstores : Stores pages (levelPages pointerItem g .indexOrderedInternal k ps)) :
    Forest pages (d + 1) (nodesOf pointerItem k (binsOf pointerItem g ps)) ∧
      forestEntries pages (d + 1) (nodesOf pointerItem k (binsOf pointerItem g ps)) = forestEntries pages d (ps.map ChildPointer.node) := by
  have hflat : (binsOf pointerItem g ps).flatten = ps := greedy_flatten ps
  have hin : ∀ {bin i}, (bin, i) ∈ (binsOf pointerItem g ps).zipIdx k → bin ∈ binsOf pointerItem g ps ∧ k ≤ i := fun h =>
    ⟨fst_mem_of_mem_zipIdx h, le_snd_of_mem_zipIdx h⟩
  have hsub : ∀ bin ∈ binsOf pointerItem g ps, bin.Sublist ps := fun bin hbin => hflat ▸ sublist_flatten_of_mem hbin
  have hhighs : Keyed.Sorted (fun q : ChildPointer => q.high.identity) ps := by
    have hnodes : (ps.map ChildPointer.node).Pairwise fun a b => a.maximum.identity < b.maximum.identity := hforest.highs
    rw [pairwise_map] at hnodes
    exact hnodes
  have hdistinct : (ps.map (·.childPage)).Nodup := by
    have hpages := hforest.pages_distinct
    rwa [map_map] at hpages
  have hinternal : ∀ bin i, (bin, i) ∈ (binsOf pointerItem g ps).zipIdx k → InternalAt pages i bin := by
    intro bin i hbin
    have hmem := hsub bin (hin hbin).1
    refine internalAt_pageOf (hstores.bin hbin) (greedy_ne_nil ps bin (hin hbin).1) (hhighs.sublist hmem) (fun q hq => ?_)
      (hdistinct.sublist (hmem.map _))
    exact (hbelow q (hmem.mem hq)).trans_le (hin hbin).2
  have hentries : forestEntries pages (d + 1) (nodesOf pointerItem k (binsOf pointerItem g ps)) =
      forestEntries pages d (ps.map ChildPointer.node) := by
    calc forestEntries pages (d + 1) (nodesOf pointerItem k (binsOf pointerItem g ps))
        = ((binsOf pointerItem g ps).zipIdx k).flatMap fun x => x.1.flatMap fun q => entriesAt pages d q.childPage := by
          rw [forestEntries, nodesOf, flatMap_map]
          exact flatMap_congr fun x hx => (hinternal x.1 x.2 hx).entriesAt
      _ = (binsOf pointerItem g ps).flatMap fun bin => bin.flatMap fun q => entriesAt pages d q.childPage :=
          flatMap_zipIdx_fst _ k _
      _ = ps.flatMap fun q => entriesAt pages d q.childPage := by
          conv_rhs => rw [← hflat]
          simp only [flatMap_def, map_flatten, flatten_flatten, map_map]
          rfl
      _ = forestEntries pages d (ps.map ChildPointer.node) := by
          rw [forestEntries, flatMap_map]
          rfl
  refine ⟨⟨fun n hn => ?_, ?_⟩, hentries⟩
  · obtain ⟨⟨bin, i⟩, hbin, rfl⟩ := mem_map.mp hn
    refine ⟨bin, hinternal bin i hbin, getLast_lastHigh pointerItem (fun _ => rfl) (greedy_ne_nil ps bin (hin hbin).1), fun q hq => ?_⟩
    exact hforest.subtree q.node (mem_map_of_mem ((hsub bin (hin hbin).1).mem hq))
  · rw [hentries]
    exact hforest.sorted

end Grafx.Index
