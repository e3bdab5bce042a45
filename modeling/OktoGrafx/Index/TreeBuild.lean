import OktoGrafx.Index.PackingRounds

/-! Bulk building. It packs level for level what a mutation of the empty tree packs, so the tree it
leaves holds what inserting its entries in any order leaves. -/

namespace Grafx.Index

open List Checked Packing
open Packed (node)
open Keyed (sort sort_perm insert)
open IndexEntry (identity bare insertion)

variable {g : Growth} {nodes nodes' : List CowNode} {newPages newPages' before leaves new : List TreePage}
  {n : CowNode} {e : IndexEntry} {es order : List IndexEntry} {level : List Packed} {d height rounds : ℕ}

/-! ## Levels of a loop that ended -/

structure Raised (g : Growth) (d : ℕ) (nodes : List CowNode) (before new : List TreePage) (d' : ℕ) (nodes' : List CowNode) : Prop where
  index : new.map (·.pageIndex) = range' (g.startPage + before.length) new.length
  within : ∀ n ∈ nodes', g.startPage ≤ n.page ∧ n.page < g.startPage + (before ++ new).length
  forest : ∀ pages, Stores pages new → Forest pages d nodes →
    Forest pages d' nodes' ∧ forestEntries pages d' nodes' = forestEntries pages d nodes
  internal : ∀ pages, Stores pages new → Forest pages d nodes → ∀ p ∈ new, ∃ ps, InternalAt pages p.pageIndex ps

theorem Raised.refl (hwithin : ∀ n ∈ nodes, g.startPage ≤ n.page ∧ n.page < g.startPage + newPages.length) : Raised g d nodes newPages [] d nodes where
  index := rfl
  within := by rwa [append_nil]
  forest := fun _ _ hforest => ⟨hforest, rfl⟩
  internal := nofun

theorem Raised.trans {d' d'' : ℕ} {nodes'' : List CowNode} {new' : List TreePage} (h : Raised g d nodes before new d' nodes')
    (h' : Raised g d' nodes' (before ++ new) new' d'' nodes'') : Raised g d nodes before (new ++ new') d'' nodes'' where
  index := by
    rw [map_append, h.index, h'.index, length_append, length_append, ← add_assoc]
    exact range'_append_1
  within := by
    rw [← append_assoc]
    exact h'.within
  forest := by
    intro pages hstores hforest
    obtain ⟨hnew, hnew'⟩ := hstores.append
    obtain ⟨hmid, hentries⟩ := h.forest pages hnew hforest
    obtain ⟨htop, hentries'⟩ := h'.forest pages hnew' hmid
    exact ⟨htop, hentries'.trans hentries⟩
  internal := by
    intro pages hstores hforest p hp
    obtain ⟨hnew, hnew'⟩ := hstores.append
    rcases mem_append.mp hp with hp | hp
    · exact h.internal pages hnew hforest p hp
    · exact h'.internal pages hnew' (h.forest pages hnew hforest).1 p hp

section
variable (hne : nodes ≠ []) (hwithin : ∀ n ∈ nodes, g.startPage ≤ n.page ∧ n.page < g.startPage + newPages.length)
include hne hwithin

theorem packInternal_raised (h : packInternal g nodes newPages = .ok (nodes', newPages')) :
    ∃ level, newPages' = newPages ++ level ∧ nodes' ≠ [] ∧ g.startPage + newPages'.length ≤ noPage ∧ 0 < level.length ∧
      Raised g d nodes newPages level (d + 1) nodes' ∧
      ∀ before : List TreePage, before.length = newPages.length → packInternal g nodes before = .ok (nodes', before ++ level) := by
  obtain ⟨ps, rfl, hfits, hend, rfl, rfl⟩ := packInternal_inv hne h
  have hps : ps ≠ [] := mt map_eq_nil_iff.mpr hne
  have hbins : 0 < (binsOf pointerItem g ps).length := by
    cases ps with
    | nil => exact absurd rfl hps
    | cons q ps => exact fill_length_pos [q] ps
  have hlevel : (levelPages pointerItem g .indexOrderedInternal (g.startPage + newPages.length) ps).length = (binsOf pointerItem g ps).length :=
    levelPages_length _
  have hforest : ∀ pages, Stores pages (levelPages pointerItem g .indexOrderedInternal (g.startPage + newPages.length) ps) →
      Forest pages d (ps.map ChildPointer.node) →
      Forest pages (d + 1) (nodesOf pointerItem (g.startPage + newPages.length) (binsOf pointerItem g ps)) ∧
      forestEntries pages (d + 1) (nodesOf pointerItem (g.startPage + newPages.length) (binsOf pointerItem g ps)) =
        forestEntries pages d (ps.map ChildPointer.node) := fun pages hstores hforest =>
    packInternal_forest hforest (fun q hq => (hwithin q.node (mem_map_of_mem hq)).2) hstores
  refine ⟨_, rfl, ?_, ?_, hlevel ▸ hbins, ⟨?_, ?_, hforest, ?_⟩, ?_⟩
  · exact ne_nil_of_length_pos (by rwa [nodesOf_length])
  · rw [length_append, hlevel]
    omega
  · rw [levelPages_index, hlevel]
  · intro n hn
    obtain ⟨hge, hlt⟩ := nodesOf_page hn
    rw [length_append, hlevel]
    omega
  · -- Every page of the level is the page of one of its nodes.
    intro pages hstores hbelow p hp
    rw [levelPages, pagesOf, zipIdx_map, map_map] at hp
    obtain ⟨x, hx, rfl⟩ := mem_map.mp hp
    obtain ⟨qs, hinternal, -⟩ := (hforest pages hstores hbelow).1.subtree _ (mem_map_of_mem hx)
    exact ⟨qs, hinternal⟩
  · intro before hlength
    rw [← hlength] at hend ⊢
    exact packInternal_ok hfits hend

theorem packLevels_raised (hpages : g.startPage + newPages.length ≤ noPage)
    (h : packLevels g rounds nodes (d + 1) newPages = .ok (nodes', height, newPages')) :
    ∃ n d' new, nodes' = [n] ∧ height = d' + 1 ∧ newPages' = newPages ++ new ∧ g.startPage + newPages'.length ≤ noPage ∧
      Raised g d nodes newPages new d' [n] ∧
      ∀ before : List TreePage, before.length = newPages.length → packLevels g rounds nodes (d + 1) before = .ok ([n], height, before ++ new) := by
  induction rounds using Nat.strong_induction_on generalizing nodes newPages d with
  | _ rounds ih =>
    rcases packLevels_ok_iff.mp h with ⟨hone, heq⟩ | ⟨hmore, rounds', rfl, ⟨nodes₁, pages₁⟩, hround, hrest⟩
    · obtain ⟨rfl, rfl, rfl⟩ : nodes' = nodes ∧ height = d + 1 ∧ newPages' = newPages := by simpa using heq
      obtain ⟨n, rfl⟩ := length_eq_one_iff.mp (le_antisymm hone (length_pos_of_ne_nil hne))
      refine ⟨n, d, [], rfl, rfl, (append_nil _).symm, hpages, .refl hwithin, fun before _ => ?_⟩
      rw [append_nil]
      exact packLevels_ok_iff.mpr (.inl ⟨hone, rfl⟩)
    · obtain ⟨level, rfl, hne₁, hpages₁, -, hraised, hsame⟩ := packInternal_raised (d := d) hne hwithin hround
      obtain ⟨n, d', new, rfl, rfl, rfl, hend, hraised', hsame'⟩ := ih rounds' (Nat.lt_succ_self rounds') hne₁ hraised.within hpages₁ hrest
      refine ⟨n, d', level ++ new, rfl, rfl, append_assoc .., hend, hraised.trans hraised', fun before hlength => ?_⟩
      rw [← append_assoc]
      refine packLevels_ok_iff.mpr (.inr ⟨hmore, rounds', rfl, _, hsame before hlength, ?_⟩)
      exact hsame' _ (by rw [length_append, length_append, hlength])

end

/-! ## The levels of a build -/

theorem packedsOf_cons (k : ℕ) (bin : List Item) (bins : List (List Item)) :
    packedsOf k (bin :: bins) = packedOf k bin :: packedsOf (k + 1) bins := by
  rfl

theorem rebuild_length (next level : List Packed) : (rebuild next level).length = next.length := by
  induction next generalizing level with
  | nil => rfl
  | cons s next ih => rw [rebuild, length_cons, length_cons, ih]

theorem rebuild_node {k : ℕ} {bins : List (List Item)} (hne : ∀ bin ∈ bins, bin ≠ []) (h : level.map (·.maximum) = bins.flatten.map (·.high)) :
    (rebuild (packedsOf k bins) level).map node = (packedsOf k bins).map node := by
  induction bins generalizing k level with
  | nil => rfl
  | cons bin bins ih =>
    rw [flatten_cons, map_append] at h
    have htake : (level.take bin.length).map (·.maximum) = bin.map (·.high) := by
      rw [map_take, h, take_left' (length_map _)]
    have hdrop : (level.drop bin.length).map (·.maximum) = bins.flatten.map (·.high) := by
      rw [map_drop, h, drop_left' (length_map _)]
    have hlast : (level.take bin.length).getLast?.map (·.maximum) = some (lastHigh bin) := by
      rw [← getLast?_map, htake, getLast?_map]
      have hsome := getLast_lastHigh id (fun x : Item => rfl) (hne bin mem_cons_self)
      rwa [map_id] at hsome
    rw [packedsOf_cons, rebuild, map_cons, map_cons]
    congr 1
    · show CowNode.mk k (((level.take bin.length).getLast?.map (·.maximum)).getD _) = _
      rw [hlast]
      rfl
    · exact ih (forall_mem_cons.mp hne).2 hdrop

theorem buildPointers_eq (level : List Packed) :
    buildPointers level = (level.map node).mapM fun n => ChildPointer.make n.maximum n.page := by
  rw [mapM_map]
  rfl

theorem packLevels_of_buildLevels {fuel height' : ℕ} {top : List Packed} {pages pages' : List TreePage}
    (h : buildLevels g fuel level height pages = .ok (top, height', pages')) (hfuel : level.length ≤ fuel)
    (hpages : g.startPage + pages.length ≤ noPage) (hrounds : noPage ≤ g.startPage + pages.length + rounds) :
    packLevels g rounds (level.map node) height pages = .ok (top.map node, height', pages') := by
  induction fuel generalizing level rounds height pages with
  | zero =>
    cases h
    exact packLevels_ok_iff.mpr (.inl ⟨by rw [length_map]; omega, rfl⟩)
  | succ fuel ih =>
    rw [buildLevels] at h
    by_cases hone : level.length ≤ 1
    · rw [if_pos hone] at h
      cases h
      exact packLevels_ok_iff.mpr (.inl ⟨by rwa [length_map], rfl⟩)
    · rw [if_neg hone, buildPointers_eq] at h
      obtain ⟨ps, hps, h⟩ := bind_ok_iff.mp h
      obtain ⟨⟨next, pages₁⟩, hnext, h⟩ := bind_ok_iff.mp h
      obtain ⟨_, hless, h⟩ := bind_ok_iff.mp h
      have hless : next.length < level.length := ensure_ok_iff.mp hless
      have hround : packInternal g (level.map node) pages = .ok (next.map node, pages₁) := by
        rw [packInternal, hps, ok_bind, hnext]
        rfl
      obtain ⟨-, hend, heq⟩ := (appendPackedPages_ok_iff hpages).mp hnext
      cases heq
      have hsome : 0 < (greedy Item.size g.room (ps.map pointerItem)).length := by
        have hlength := congrArg length (mapM_make hps)
        rw [length_map, length_map] at hlength
        cases ps with
        | nil => exact absurd (hlength ▸ Nat.zero_le 1) hone
        | cons q ps => exact fill_length_pos _ _
      have hkeep : (rebuild (packedsOf (g.startPage + pages.length) (greedy Item.size g.room (ps.map pointerItem))) level).map node =
          (packedsOf (g.startPage + pages.length) (greedy Item.size g.room (ps.map pointerItem))).map node := by
        apply rebuild_node (greedy_ne_nil _)
        have hmaxima := congrArg (map CowNode.maximum) (mapM_make hps)
        rw [map_map, map_map] at hmaxima
        rw [greedy_flatten, map_map]
        exact hmaxima
      have hlength : (pages ++ pagesOf g .indexOrderedInternal (g.startPage + pages.length) (greedy Item.size g.room (ps.map pointerItem))).length =
          pages.length + (greedy Item.size g.room (ps.map pointerItem)).length := by
        rw [length_append, pagesOf_length]
      obtain ⟨rounds, rfl⟩ : ∃ r, rounds = r + 1 := ⟨rounds - 1, by omega⟩
      rw [packLevels_more (by rw [length_map]; omega), hround, ok_bind, ← hkeep]
      apply ih h
      · rw [rebuild_length]
        omega
      · rw [hlength]
        omega
      · rw [hlength]
        omega

/-! ## Leaves that differ in their stamps -/

def leafSize (high : High) : ℕ := indexEntryHeaderSize + high.key.length + slotEntrySize

theorem binsOf_leaves (es : List IndexEntry) :
    (binsOf leafItem g es).map (map IndexEntry.high) = greedy leafSize g.room (es.map IndexEntry.high) := by
  have hsize : (fun e : IndexEntry => (leafItem e).size) = fun e => leafSize e.high := by
    funext e
    exact leafItem_size e
  rw [greedy_map, binsOf, hsize]

theorem nodesOf_leaves (k : ℕ) (bins : List (List IndexEntry)) :
    nodesOf leafItem k bins = ((bins.map (map IndexEntry.high)).zipIdx k).map fun x => ⟨x.2, x.1.getLast?.getD noHigh⟩ := by
  rw [nodesOf, zipIdx_map, map_map]
  apply map_congr_left
  intro x _
  rw [lastHigh, ← getLast?_map, map_map]
  rfl

theorem leafNodes_ne_nil (hne : es ≠ []) (k : ℕ) : nodesOf leafItem k (binsOf leafItem g es) ≠ [] := by
  cases es with
  | nil => exact absurd rfl hne
  | cons e es =>
    apply ne_nil_of_length_pos
    rw [nodesOf_length]
    exact fill_length_pos [e] es

theorem packLeaf_congr {es' : List IndexEntry} (h : es.map IndexEntry.high = es'.map IndexEntry.high) :
    nodesOf leafItem g.startPage (binsOf leafItem g es) = nodesOf leafItem g.startPage (binsOf leafItem g es') ∧
      (binsOf leafItem g es).length = (binsOf leafItem g es').length ∧
      ((∀ e ∈ es, (leafItem e).size ≤ g.room) → ∀ e ∈ es', (leafItem e).size ≤ g.room) := by
  have hbins : (binsOf leafItem g es).map (map IndexEntry.high) = (binsOf leafItem g es').map (map IndexEntry.high) := by
    rw [binsOf_leaves, binsOf_leaves, h]
  refine ⟨?_, ?_, fun hfits e he => ?_⟩
  · rw [nodesOf_leaves, nodesOf_leaves, hbins]
  · simpa using congrArg length hbins
  · obtain ⟨e', he', heq⟩ : ∃ e' ∈ es, e'.high = e.high := mem_map.mp (h ▸ mem_map_of_mem he)
    have hfit := hfits e' he'
    rw [leafItem_size] at hfit ⊢
    rw [← show e'.key = e.key from congrArg High.key heq]
    exact hfit

/-! ## What a build accepts -/

theorem checkDistinct_sorted (hle : es.Pairwise fun a b => a.identity ≤ b.identity)
    (h : checkDistinct es = .ok ()) : Keyed.Sorted identity es := by
  induction es with
  | nil => exact .nil
  | cons a es ih =>
    cases es with
    | nil => exact pairwise_singleton _ a
    | cons b es =>
      obtain ⟨_, hne, hrest⟩ := bind_ok_iff.mp h
      obtain ⟨hfirst, hle'⟩ := pairwise_cons.mp hle
      have hrest := ih hle' hrest
      have hab : a.identity < b.identity := lt_of_le_of_ne (hfirst b mem_cons_self) (ensure_ok_iff.mp hne)
      refine pairwise_cons.mpr ⟨fun c hc => ?_, hrest⟩
      rcases mem_cons.mp hc with rfl | hc
      · exact hab
      · exact lt_trans hab ((pairwise_cons.mp hrest).1 c hc)

structure Built (entries : List IndexEntry) (g : Growth) (b : OrderedTreeBuild) : Prop where
  pageSize : validatePageSize g.pageSize = .ok ()
  lsn : checkLsn g = .ok ()
  start : checkStart g = .ok ()
  plain : ∀ e ∈ entries, e.Plain
  sorted : Keyed.Sorted identity (sort identity entries)
  empty : entries = [] → b = ⟨noPage, 0, 0, []⟩
  packed : entries ≠ [] → (∀ e ∈ sort identity entries, (leafItem e).size ≤ g.room) ∧
    g.startPage + (binsOf leafItem g (sort identity entries)).length ≤ noPage ∧
    ∃ top : List CowNode, b.rootPage = (top.head?.map (·.page)).getD noPage ∧ b.entryCount = entries.length ∧
      packLevels g (noPage - (g.startPage + (binsOf leafItem g (sort identity entries)).length))
        (nodesOf leafItem g.startPage (binsOf leafItem g (sort identity entries))) 1
        (levelPages leafItem g .indexOrderedLeaf g.startPage (sort identity entries)) = .ok (top, b.height, b.pages)

theorem buildOrderedTree_built {entries : List IndexEntry} {b : OrderedTreeBuild} (h : buildOrderedTree entries g = .ok b) :
    Built entries g b := by
  obtain ⟨⟨⟩, hsize, h⟩ := bind_ok_iff.mp h
  obtain ⟨⟨⟩, hlsn, h⟩ := bind_ok_iff.mp h
  obtain ⟨⟨⟩, hstart, h⟩ := bind_ok_iff.mp h
  obtain ⟨⟨⟩, hinput, h⟩ := bind_ok_iff.mp h
  obtain ⟨⟨⟩, hdistinct, h⟩ := bind_ok_iff.mp h
  have hplain : ∀ e ∈ entries, e.Plain := by
    intro e he
    have hchecked := forM_ok_iff.mp hinput e he
    simp only [checkInput, bind_ok_iff, ensure_ok_iff, keyBytes_ok_iff] at hchecked
    obtain ⟨_, hversioned, hkey, _⟩ := hchecked
    exact ⟨hversioned, hkey⟩
  have hnil : sort identity entries = [] ↔ entries = [] := by
    rw [← length_eq_zero_iff, (sort_perm entries).length_eq, length_eq_zero_iff]
  have hle : (sort identity entries).Pairwise fun a b => a.identity ≤ b.identity :=
    pairwise_insertionSort (r := fun a b : IndexEntry => a.identity ≤ b.identity) entries
  refine ⟨hsize, hlsn, hstart, hplain, checkDistinct_sorted hle hdistinct, fun hempty => ?_, fun hne => ?_⟩
  · rw [if_pos (hnil.mpr hempty)] at h
    exact (pure_ok_iff.mp h).symm
  · rw [if_neg (mt hnil.mp hne)] at h
    obtain ⟨⟨level, pages⟩, hleaves, h⟩ := bind_ok_iff.mp h
    obtain ⟨⟨top, height, pages'⟩, hlevels, h⟩ := bind_ok_iff.mp h
    obtain rfl := pure_ok_iff.mp h
    have hstart' : g.startPage + ([] : List TreePage).length ≤ noPage := (ensure_ok_iff.mp hstart).2.le
    have hpack : packLeaf g (sort identity entries) [] = .ok (level.map node, pages) := by
      rw [packLeaf, hleaves]
      rfl
    obtain ⟨hfits, hend, heq⟩ := (packLevel_ok_iff hstart').mp hpack
    obtain ⟨hnodes, rfl⟩ := Prod.mk.inj heq
    have hlength : (levelPages leafItem g .indexOrderedLeaf g.startPage (sort identity entries)).length =
        (binsOf leafItem g (sort identity entries)).length := levelPages_length _
    refine ⟨hfits, hend, top.map node, ?_, (sort_perm entries).length_eq, ?_⟩
    · rw [head?_map, Option.map_map]
      rfl
    · rw [← hlength, ← show level.map node = nodesOf leafItem g.startPage _ from hnodes]
      exact packLevels_of_buildLevels hlevels le_rfl (hlength ▸ hend) (Nat.add_sub_of_le (hlength ▸ hend)).symm.le

/-! ## One tree -/

def IndexEntry.unended (e : IndexEntry) : IndexEntry := e.endedAt noCsn noCsn_lt

theorem IndexEntry.unended_of_live (h : e.live = true) : e.bare.unended = e.bare := by
  have hdead : e.deadCsn = noCsn := beq_iff_eq.mp h
  cases e
  subst hdead
  rfl

theorem insertion_entry (h : e.Plain) (index : String) : (e.insertion index).entry = e.bare.unended := by
  obtain ⟨hversioned, -⟩ := h
  have hborn : e.bornCsn = noCsn := by
    by_contra hne
    exact absurd (e.stamped.mpr hne) (by simp [hversioned])
  cases e
  subst hversioned
  subst hborn
  rfl

theorem foldl_insertions (index : String) (hnew : ((order ++ es).map identity).Nodup) :
    ((order.map (insertion index)).foldl foldChange es).Perm (order.map (fun e => (e.insertion index).entry) ++ es) := by
  induction order generalizing es with
  | nil => exact .refl _
  | cons e order ih =>
    rw [cons_append, map_cons, nodup_cons] at hnew
    obtain ⟨hfresh, hrest⟩ := hnew
    have hinsert : foldChange es (e.insertion index) = insert identity es (e.insertion index).entry := by
      apply foldChange_insert_new rfl
      intro e' he' heq
      exact hfresh (mem_map.mpr ⟨e', mem_append_right order he', heq⟩)
    have hperm : (insert identity es (e.insertion index).entry).Perm ((e.insertion index).entry :: es) :=
      perm_orderedInsert _ _ es
    have hmiddle := hperm.append_left (order.map fun e => (e.insertion index).entry)
    rw [map_cons, map_cons, foldl_cons, hinsert]
    have hnodup : ((order ++ insert identity es (e.insertion index).entry).map identity).Nodup := by
      have hkeys : ((order ++ insert identity es (e.insertion index).entry).map identity).Perm
          (e.identity :: (order ++ es).map identity) := ((hperm.append_left order).trans perm_middle).map _
      exact hkeys.nodup_iff.mpr (nodup_cons.mpr ⟨hfresh, hrest⟩)
    exact (ih hnodup).trans (hmiddle.trans perm_middle)

theorem foldl_sorted_insertions (index : String) {entries : List IndexEntry} (hplain : ∀ e ∈ entries, e.Plain)
    (hsorted : Keyed.Sorted identity (sort identity entries)) (hperm : order.Perm entries) :
    (order.map (insertion index)).foldl foldChange [] =
      (sort identity entries).map fun e => e.bare.unended := by
  have hsort : order.Perm (sort identity entries) := hperm.trans (sort_perm entries).symm
  have hnodup : ((order ++ []).map identity).Nodup := by
    rw [append_nil]
    exact (hsort.map _).nodup_iff.mpr hsorted.nodup
  have hentries : order.map (fun e => (e.insertion index).entry) = order.map fun e => e.bare.unended :=
    map_congr_left fun e he => insertion_entry (hplain e (hperm.mem_iff.mp he)) index
  have hfolded := foldl_insertions index hnodup
  rw [append_nil, hentries] at hfolded
  have hfold : Keyed.Sorted identity ((order.map (insertion index)).foldl foldChange []) :=
    foldChange_step.foldl_sorted _ .nil
  have hinput : Keyed.Sorted identity ((sort identity entries).map fun e => e.bare.unended) :=
    pairwise_map.mpr hsorted
  exact hfold.ext hinput fun i => Keyed.lookup_perm hfold.nodup (hfolded.trans (hsort.map _)) i

theorem overlay_none (newPages : List TreePage) : overlay (fun _ => none) newPages = pageMap newPages := by
  funext i
  exact Option.or_none

theorem Raised.pages_index (h : Raised g 0 nodes leaves new d nodes') (hleaves : levelPages leafItem g .indexOrderedLeaf g.startPage es = leaves) :
    (leaves ++ new).map (·.pageIndex) = range' g.startPage (leaves ++ new).length := by
  rw [map_append, h.index, ← hleaves, levelPages_index, ← levelPages_length g.startPage, length_append]
  exact range'_append_1

theorem Raised.tree (h : Raised g 0 (nodesOf leafItem g.startPage (binsOf leafItem g es)) leaves new d [n])
    (hleaves : levelPages leafItem g .indexOrderedLeaf g.startPage es = leaves) (hplain : ∀ e ∈ es, e.Plain)
    (hsorted : Keyed.Sorted identity es) (hstart : firstOrderedTreePage ≤ g.startPage)
    (hend : g.startPage + (leaves ++ new).length ≤ noPage) :
    Tree (pageMap (leaves ++ new)) n.page (d + 1) ∧
    (treeEntries (pageMap (leaves ++ new)) n.page (d + 1)).map bare = es.map bare ∧
    ∀ p ∈ leaves ++ new, p.pageType = .indexOrderedInternal →
      ∃ ps, decodeOrderedInternal p = .ok ps ∧ ∀ q ∈ ps, q.childPage < p.pageIndex := by
  have hstores : Stores (pageMap (leaves ++ new)) (leaves ++ new) := by
    rw [← overlay_none]
    exact (overlay_of_index (h.pages_index hleaves) le_rfl).2
  obtain ⟨hleaf, hnew⟩ := hstores.append
  rw [← hleaves] at hleaf
  obtain ⟨hforest, hentries⟩ := packLeaf_forest hplain hsorted hleaf
  rw [hleaves] at hforest hentries
  obtain ⟨htop, hsame⟩ := h.forest _ hnew hforest
  obtain ⟨hge, hlt⟩ := h.within n (mem_singleton_self n)
  obtain ⟨htree, hread⟩ := htop.tree (hstart.trans hge) (hlt.trans_le hend)
  refine ⟨htree, by rw [hread, hsame, hentries], fun p hp htype => ?_⟩
  rcases mem_append.mp hp with hp | hp
  · rw [← hleaves] at hp
    obtain ⟨x, -, rfl⟩ := mem_map.mp hp
    exact nomatch htype
  · obtain ⟨ps, p', hp', -, hdecode⟩ := h.internal _ hnew hforest p hp
    cases (hnew p hp).symm.trans hp'
    exact ⟨ps, hdecode, (decodeOrderedInternal_spec hdecode).2⟩

theorem mutateOrderedTree_empty {pages : ℕ → Option TreePage} {changes : List TreeChange} {after : List IndexEntry}
    (hsize : validatePageSize g.pageSize = .ok ()) (hstart : checkStart g = .ok ()) (hlsn : checkLsn g = .ok ())
    (hchecked : changes.forM checkChange = .ok ⟨⟩) (hafter : changes.foldl foldChange [] = after) (hne : after ≠ [])
    (hfits : ∀ e ∈ after, (leafItem e).size ≤ g.room) (hend : g.startPage + (binsOf leafItem g after).length ≤ noPage)
    (hlevels : packLevels g (noPage - (g.startPage + (binsOf leafItem g after).length)) (nodesOf leafItem g.startPage (binsOf leafItem g after)) 1
      (levelPages leafItem g .indexOrderedLeaf g.startPage after) = .ok ([n], height, newPages)) :
    ∃ m, mutateOrderedTree g pages noPage 0 0 changes = .ok m ∧ m.rootPage = n.page ∧ m.height = height ∧ m.entryCount = after.length := by
  have hnil : changes ≠ [] := by
    intro hnil
    rw [hnil] at hafter
    exact hne hafter.symm
  have hordered : (orderChanges changes).foldl foldChange [] = after := (foldl_orderChanges changes .nil).trans hafter
  obtain ⟨s, hs⟩ : ∃ s, (orderChanges changes).foldl applyChange ⟨[], false, 0, 0⟩ = s := ⟨_, rfl⟩
  have hdelta : (after.length : ℤ) = 0 + s.delta := by
    rw [← hs, ← hordered]
    exact delta_applied .nil (orderChanges changes)
  have hpack : packLeaf g (sort identity s.byIdentity) [] =
      .ok (nodesOf leafItem g.startPage (binsOf leafItem g after), levelPages leafItem g .indexOrderedLeaf g.startPage after) := by
    rw [← hs, sort_applied .nil, hordered]
    exact packLeaf_ok hfits hend
  have hnodes : nodesOf leafItem g.startPage (binsOf leafItem g after) ≠ [] := leafNodes_ne_nil hne _
  obtain ⟨nodes, hnodes'⟩ : ∃ nodes, nodesOf leafItem g.startPage (binsOf leafItem g after) = nodes := ⟨_, rfl⟩
  rw [hnodes'] at hpack hnodes hlevels
  have hvisit : visitEmpty g (orderChanges changes) =
      .ok (⟨nodes, true, s.delta, s.missing⟩, levelPages leafItem g .indexOrderedLeaf g.startPage after) := by
    rw [visitEmpty, hs, hpack, ← decide_eq_true hnodes]
    rfl
  have hroot : mutateRoot g pages noPage 0 0 (orderChanges changes) =
      .ok (⟨nodes, true, s.delta, s.missing⟩, 1, levelPages leafItem g .indexOrderedLeaf g.startPage after) := by
    rw [mutateRoot, if_pos rfl, hvisit]
    show Except.ok (_, if nodes = [] then 0 else 1, _) = _
    rw [if_neg hnodes]
  have hpos : 0 < after.length := length_pos_of_ne_nil hne
  refine ⟨_, mutateOrderedTree_run hsize hstart hlsn hchecked hnil hroot ((levelPages_length _).symm ▸ hlevels) ⟨?_, ?_⟩, rfl, rfl, ?_⟩
  · show (0 : ℤ) ≤ 0 + s.delta
    omega
  · exact iff_of_true (cons_ne_nil n []) (show (0 : ℤ) + s.delta ≠ 0 by omega)
  · show ((0 : ℤ) + s.delta).toNat = _
    rw [← hdelta, Int.toNat_natCast]

section Built
variable {entries : List IndexEntry} {b : OrderedTreeBuild}

theorem Built.ordered_ne_nil (hne : entries ≠ []) : sort identity entries ≠ [] := by
  intro hnil
  have hlength : (sort identity entries).length = entries.length := (sort_perm entries).length_eq
  rw [hnil] at hlength
  exact hne (length_eq_zero_iff.mp hlength.symm)

variable (hb : Built entries g b)
include hb

theorem Built.ordered_plain : ∀ e ∈ sort identity entries, e.Plain :=
  fun e he => hb.plain e (Keyed.mem_sort.mp he)

theorem Built.raised (hne : entries ≠ []) : ∃ n d new, b.rootPage = n.page ∧ b.height = d + 1 ∧
    b.pages = levelPages leafItem g .indexOrderedLeaf g.startPage (sort identity entries) ++ new ∧
    g.startPage + b.pages.length ≤ noPage ∧
    Raised g 0 (nodesOf leafItem g.startPage (binsOf leafItem g (sort identity entries)))
      (levelPages leafItem g .indexOrderedLeaf g.startPage (sort identity entries)) new d [n] ∧
    ∀ before : List TreePage, before.length = (binsOf leafItem g (sort identity entries)).length →
      packLevels g (noPage - (g.startPage + (binsOf leafItem g (sort identity entries)).length))
        (nodesOf leafItem g.startPage (binsOf leafItem g (sort identity entries))) 1 before =
        .ok ([n], b.height, before ++ new) := by
  obtain ⟨-, hend, top, hroot, -, hlevels⟩ := hb.packed hne
  have hlength : (levelPages leafItem g .indexOrderedLeaf g.startPage (sort identity entries)).length =
      (binsOf leafItem g (sort identity entries)).length := levelPages_length _
  obtain ⟨n, d, new, rfl, hheight, hpages, hlast, hraised, hsame⟩ := packLevels_raised (leafNodes_ne_nil (Built.ordered_ne_nil hne) _)
    (fun n hn => hlength ▸ nodesOf_page hn) (hlength ▸ hend) hlevels
  exact ⟨n, d, new, hroot, hheight, hpages, hlast, hraised, fun before hbefore => hsame before (hbefore.trans hlength.symm)⟩

theorem Built.pages_index : b.pages.map (·.pageIndex) = range' g.startPage b.pages.length := by
  by_cases hne : entries = []
  · rw [hb.empty hne]
    rfl
  · obtain ⟨n, d, new, -, -, hpages, -, hraised, -⟩ := hb.raised hne
    rw [hpages]
    exact hraised.pages_index rfl

theorem Built.tree (hne : entries ≠ []) : Tree (pageMap b.pages) b.rootPage b.height ∧
    (treeEntries (pageMap b.pages) b.rootPage b.height).map bare = (sort identity entries).map bare ∧
    ∀ p ∈ b.pages, p.pageType = .indexOrderedInternal → ∃ ps, decodeOrderedInternal p = .ok ps ∧ ∀ q ∈ ps, q.childPage < p.pageIndex := by
  obtain ⟨n, d, new, hroot, hheight, hpages, hlast, hraised, -⟩ := hb.raised hne
  rw [hpages] at hlast
  rw [hroot, hheight, hpages]
  exact hraised.tree rfl hb.ordered_plain hb.sorted (ensure_ok_iff.mp hb.start).1 hlast

omit hb in
theorem Built.whole (hb : Built entries g b) : Tree (pageMap b.pages) b.rootPage b.height ∧
    (treeEntries (pageMap b.pages) b.rootPage b.height).map bare = (sort identity entries).map bare ∧
    (treeEntries (pageMap b.pages) b.rootPage b.height).length = b.entryCount ∧
    (b.rootPage ≠ noPage → b.rootPage < g.startPage + b.pages.length) := by
  by_cases hne : entries = []
  · rw [hb.empty hne]
    subst hne
    exact ⟨rfl, rfl, rfl, fun hroot => absurd rfl hroot⟩
  · obtain ⟨htree, hentries, -⟩ := hb.tree hne
    obtain ⟨-, -, -, -, hcount, -⟩ := hb.packed hne
    obtain ⟨n, d, new, hroot, -, hpages, -, hraised, -⟩ := hb.raised hne
    refine ⟨htree, hentries, ?_, fun _ => ?_⟩
    · have hsize := congrArg length hentries
      rw [length_map, length_map, (sort_perm entries).length_eq] at hsize
      rw [hsize, hcount]
    · rw [hroot, hpages]
      exact (hraised.within n (mem_singleton_self n)).2

theorem Built.insertions (hne : entries ≠ []) (index : String) (hperm : order.Perm entries) :
    ∃ m, mutateOrderedTree g (fun _ => none) noPage 0 0 (order.map (insertion index)) = .ok m ∧
      m.rootPage = b.rootPage ∧ m.height = b.height ∧ m.entryCount = b.entryCount ∧
      (treeEntries (pageMap m.pages) m.rootPage m.height).map bare =
        (sort identity entries).map fun e => e.bare.unended := by
  obtain ⟨hfits, hend, -, -, hcount, -⟩ := hb.packed hne
  obtain ⟨n, d, new, hroot, -, -, -, -, hsame⟩ := hb.raised hne
  have hfold := foldl_sorted_insertions index hb.plain hb.sorted hperm
  have hchecked : (order.map (insertion index)).forM checkChange = .ok ⟨⟩ := by
    apply forM_ok_iff.mpr
    intro c hc
    obtain ⟨e, he, rfl⟩ := mem_map.mp hc
    simp only [checkChange, bind_ok_iff, ensure_ok_iff, keyBytes_ok_iff]
    exact ⟨⟨⟩, rfl, ⟨⟩, by simp [insertion], (hb.plain e (hperm.mem_iff.mp he)).2, e.key_le⟩
  have hsome := Built.ordered_ne_nil hne
  have hcount' : b.entryCount = (sort identity entries).length := hcount.trans (sort_perm entries).length_eq.symm
  generalize sort identity entries = ordered at *
  obtain ⟨after, hafter⟩ : ∃ after, (ordered.map fun e => e.bare.unended) = after := ⟨_, rfl⟩
  rw [hafter] at hfold ⊢
  have hhighs : ordered.map IndexEntry.high = after.map IndexEntry.high := by
    rw [← hafter, map_map]
    rfl
  obtain ⟨hnodes, hbins, hfits'⟩ := packLeaf_congr (g := g) hhighs
  rw [hnodes, hbins] at hsame
  rw [hbins] at hend
  have hsome' : after ≠ [] := hafter ▸ mt map_eq_nil_iff.mp hsome
  obtain ⟨m, hm, hmroot, hmheight, hmcount⟩ := mutateOrderedTree_empty hb.pageSize hb.start hb.lsn hchecked hfold hsome' (hfits' hfits)
    hend (hsame _ (levelPages_length _))
  have hempty : Tree (fun _ => none) noPage 0 := rfl
  obtain ⟨-, hindex, -, hsound⟩ := mutateOrderedTree_sound hempty (fun hroot => absurd rfl hroot) hm
  obtain ⟨hagree, hstores⟩ := overlay_of_index hindex le_rfl
  obtain ⟨-, -, hentries⟩ := hsound _ hagree hstores
  rw [overlay_none] at hentries
  refine ⟨m, hm, hmroot.trans hroot.symm, hmheight, ?_, hentries.trans hfold⟩
  rw [hmcount, hcount', ← hafter, length_map]

end Built

/-- A build that returns leaves a verified tree of the given entries in order; inserting them into the empty tree, in
any order, leaves a tree of the same shape with the same entries, all of them live. -/
theorem build_of_entries (entries : List IndexEntry) (g : Growth) (b : OrderedTreeBuild) (h : buildOrderedTree entries g = .ok b) :
    (∃ v, verifyOrderedTree (pageMap b.pages) b.rootPage b.height (some b.entryCount) = .ok v) ∧
    (treeEntries (pageMap b.pages) b.rootPage b.height).map bare = (sort identity entries).map bare ∧
    (∀ p ∈ b.pages, p.pageType = .indexOrderedInternal → ∃ ps, decodeOrderedInternal p = .ok ps ∧ ∀ q ∈ ps, q.childPage < p.pageIndex) ∧
    ∀ (order : List IndexEntry) (index : String), order.Perm entries →
      ∃ m, mutateOrderedTree g (fun _ => none) noPage 0 0 (order.map (insertion index)) = .ok m ∧
        m.rootPage = b.rootPage ∧ m.height = b.height ∧ m.entryCount = b.entryCount ∧
        (treeEntries (pageMap m.pages) m.rootPage m.height).map bare =
          (treeEntries (pageMap b.pages) b.rootPage b.height).map (fun e => e.bare.unended) ∧
        ((∀ e ∈ entries, e.live = true) → (treeEntries (pageMap m.pages) m.rootPage m.height).map bare =
          (treeEntries (pageMap b.pages) b.rootPage b.height).map bare) := by
  have hb := buildOrderedTree_built h
  by_cases hnil : entries = []
  · obtain rfl := hb.empty hnil
    subst hnil
    refine ⟨⟨_, rfl⟩, rfl, nofun, fun order index hperm => ?_⟩
    obtain rfl := hperm.eq_nil
    exact ⟨_, mutateOrderedTree_nil hb.pageSize hb.start hb.lsn, rfl, rfl, rfl, rfl, fun _ => rfl⟩
  obtain ⟨htree, hentries, hdown⟩ := hb.tree hnil
  obtain ⟨-, -, -, -, hcount, -⟩ := hb.packed hnil
  have hsize : (sort identity entries).length = entries.length := (sort_perm entries).length_eq
  refine ⟨verifyOrderedTree_ok_iff.mpr ⟨htree, fun k hk => ?_⟩, hentries, hdown, fun order index hperm => ?_⟩
  · rw [← Option.some.inj hk, hcount, ← hsize]
    simpa using congrArg length hentries
  obtain ⟨m, hm, hroot, hheight, hsize, hinserted⟩ := hb.insertions hnil index hperm
  have hunended : (treeEntries (pageMap b.pages) b.rootPage b.height).map (fun e => e.bare.unended) =
      (sort identity entries).map fun e => e.bare.unended := by
    have hmapped := congrArg (map IndexEntry.unended) hentries
    rwa [map_map, map_map] at hmapped
  refine ⟨m, hm, hroot, hheight, hsize, hinserted.trans hunended.symm, fun hlive => ?_⟩
  rw [hinserted, hentries]
  apply map_congr_left
  intro e he
  exact IndexEntry.unended_of_live (hlive e (Keyed.mem_sort.mp he))

theorem build_of_long_keys : ∃ b, buildOrderedTree [longEntry 2, longEntry 0, longEntry 1] ⟨512, 3, 9⟩ = .ok b ∧
    (treeEntries (pageMap b.pages) b.rootPage b.height).map (fun e => (e.ref.slot, e.deadCsn)) = [(0, 0), (1, 0), (2, 0)] := by
  have hok : (buildOrderedTree [longEntry 2, longEntry 0, longEntry 1] ⟨512, 3, 9⟩).toOption.map (·.height) = some 2 := by decide +kernel
  obtain ⟨b, hb, -⟩ := exists_of_toOption_map hok
  obtain ⟨-, hentries, -⟩ := build_of_entries [longEntry 2, longEntry 0, longEntry 1] ⟨512, 3, 9⟩ b hb
  have hread := congrArg (map fun e : IndexEntry => (e.ref.slot, e.deadCsn)) hentries
  rw [map_map, map_map] at hread
  exact ⟨b, hb, hread.trans (by decide +kernel)⟩

/-- An entry that has ended keeps its stamp in a build, and is live after its insert. -/
theorem build_keeps_end_stamp :
    ((buildOrderedTree [(longEntry 0).endedAt 7 (by decide)] ⟨512, 3, 9⟩).toOption.map fun b =>
      (treeEntries (pageMap b.pages) b.rootPage b.height).map (·.deadCsn)) = some [7] ∧
    ((mutateOrderedTree ⟨512, 3, 9⟩ (fun _ => none) noPage 0 0 [((longEntry 0).endedAt 7 (by decide)).insertion "by_name"]).toOption.map fun m =>
      (treeEntries (pageMap m.pages) m.rootPage m.height).map (·.deadCsn)) = some [0] := by
  constructor <;> decide +kernel

end Grafx.Index
