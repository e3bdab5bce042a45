import Mathlib

/-! Lists as finite maps. Every element stands under its key, no two under one; in key order such a
list is determined by what it holds under each key. -/

namespace Keyed

open List
variable {α γ ι : Type*} [LinearOrder ι] (key : α → ι) {b : α}

def Sorted (xs : List α) : Prop := xs.Pairwise fun a b => key a < key b

def lookup (xs : List α) (i : ι) : Option α := xs.find? fun a => decide (key a = i)

def put (xs : List α) (a : α) : List α :=
  if xs.any (fun b => decide (key b = key a)) then xs.map fun b => if key b = key a then a else b else xs ++ [a]

def erase (xs : List α) (i : ι) : List α := xs.filter fun a => decide (key a ≠ i)

def sort (xs : List α) : List α := xs.insertionSort fun a b => key a ≤ key b

def insert (xs : List α) (a : α) : List α := xs.orderedInsert (fun a b => key a ≤ key b) a

variable {key} {xs ys : List α} {a : α} {i : ι}

/-! ## Looking up -/

theorem lookup_some (h : lookup key xs i = some a) : a ∈ xs ∧ key a = i :=
  ⟨mem_of_find?_eq_some h, by simpa using find?_some h⟩

theorem lookup_none_iff : lookup key xs i = none ↔ ∀ a ∈ xs, key a ≠ i := by
  simp [lookup]

theorem lookup_cons (a : α) (xs : List α) (i : ι) : lookup key (a :: xs) i = if key a = i then some a else lookup key xs i := by
  by_cases h : key a = i <;> simp [lookup, h]

theorem lookup_append : lookup key (xs ++ ys) i = (lookup key xs i).or (lookup key ys i) := find?_append

theorem lookup_eq_some_iff (hxs : (xs.map key).Nodup) : lookup key xs i = some a ↔ a ∈ xs ∧ key a = i := by
  constructor
  · exact lookup_some
  · rintro ⟨ha, rfl⟩
    cases hfound : lookup key xs (key a) with
    | none => exact absurd rfl (lookup_none_iff.mp hfound a ha)
    | some b =>
      obtain ⟨hb, hkey⟩ := lookup_some hfound
      rw [inj_on_of_nodup_map hxs hb ha hkey]

theorem Sorted.nodup (h : Sorted key xs) : (xs.map key).Nodup := by
  rw [List.Nodup, pairwise_map]
  exact h.imp ne_of_lt

theorem Sorted.ext (hxs : Sorted key xs) (hys : Sorted key ys) (h : ∀ i, lookup key xs i = lookup key ys i) : xs = ys := by
  have hmem : ∀ a, a ∈ xs ↔ a ∈ ys := by
    intro a
    have hx := lookup_eq_some_iff (a := a) (i := key a) hxs.nodup
    have hy := lookup_eq_some_iff (a := a) (i := key a) hys.nodup
    rw [h (key a), hy] at hx
    simpa using hx.symm
  have hperm : xs.Perm ys :=
    (perm_ext_iff_of_nodup hxs.nodup.of_map hys.nodup.of_map).mpr hmem
  have hxs' : xs.Pairwise fun a b => key a < key b := hxs
  exact hperm.eq_of_pairwise (fun a b _ _ hab hba => absurd hab (lt_asymm hba)) hxs' hys

theorem Sorted.ext_mem (hxs : Sorted key xs) (hys : Sorted key ys) (h : ∀ a, a ∈ xs ↔ a ∈ ys) : xs = ys := by
  apply hxs.ext hys
  intro i
  apply Option.ext
  intro a
  rw [lookup_eq_some_iff hxs.nodup, lookup_eq_some_iff hys.nodup, h a]

theorem sorted_append : Sorted key (xs ++ ys) ↔ Sorted key xs ∧ Sorted key ys ∧ ∀ a ∈ xs, ∀ b ∈ ys, key a < key b :=
  pairwise_append

theorem Sorted.head_le (h : Sorted key xs) (hhead : xs.head? = some a) (hb : b ∈ xs) : key a ≤ key b := by
  obtain ⟨xs', rfl⟩ := head?_eq_some_iff.mp hhead
  rcases mem_cons.mp hb with rfl | hb
  · exact le_refl _
  · exact le_of_lt ((pairwise_cons.mp h).1 b hb)

theorem Sorted.le_last (h : Sorted key xs) (hlast : xs.getLast? = some a) (hb : b ∈ xs) : key b ≤ key a := by
  obtain ⟨xs', rfl⟩ := getLast?_eq_some_iff.mp hlast
  rcases mem_append.mp hb with hb | hb
  · exact le_of_lt ((pairwise_append.mp h).2.2 b hb a (mem_singleton_self a))
  · exact le_of_eq (congrArg key (mem_singleton.mp hb))

/-! ## Writing -/

theorem lookup_replace_ne (h : key a ≠ i) (xs : List α) :
    lookup key (xs.map fun b => if key b = key a then a else b) i = lookup key xs i := by
  induction xs with
  | nil => rfl
  | cons b xs ih =>
    rw [map_cons, lookup_cons, lookup_cons, ih]
    by_cases hb : key b = key a
    · rw [if_pos hb, if_neg h, hb, if_neg h]
    · rw [if_neg hb]

theorem lookup_replace (xs : List α) (h : ∃ b ∈ xs, key b = key a) :
    lookup key (xs.map fun b => if key b = key a then a else b) (key a) = some a := by
  induction xs with
  | nil => exact absurd h (by simp)
  | cons b xs ih =>
    rw [map_cons, lookup_cons]
    by_cases hb : key b = key a
    · rw [if_pos hb, if_pos rfl]
    · obtain ⟨c, hc, hkey⟩ := h
      rw [if_neg hb, if_neg hb]
      rcases mem_cons.mp hc with rfl | hc
      · exact absurd hkey hb
      · exact ih ⟨c, hc, hkey⟩

theorem lookup_put (xs : List α) (a : α) (i : ι) :
    lookup key (put key xs a) i = if key a = i then some a else lookup key xs i := by
  unfold put
  by_cases hi : key a = i
  · subst hi
    rw [if_pos rfl]
    split
    · rename_i hany
      exact lookup_replace xs (by simpa using hany)
    · rename_i hany
      have hnone : lookup key xs (key a) = none := lookup_none_iff.mpr (by simpa using hany)
      rw [lookup_append, hnone]
      simp [lookup]
  · split
    · exact lookup_replace_ne hi xs
    · rw [lookup_append]
      cases hfound : lookup key xs i <;> simp [hi, lookup]

theorem lookup_erase (xs : List α) (i j : ι) : lookup key (erase key xs i) j = if i = j then none else lookup key xs j := by
  by_cases hij : i = j
  · rw [if_pos hij, lookup_none_iff]
    intro a ha
    rw [← hij]
    simpa using (mem_filter.mp ha).2
  · rw [if_neg hij, lookup, erase, find?_filter, lookup]
    congr 1
    funext a
    by_cases ha : key a = j
    · simp [ha, Ne.symm hij]
    · simp [ha]

section
variable (hxs : (xs.map key).Nodup)
include hxs

theorem nodup_put (a : α) : ((put key xs a).map key).Nodup := by
  unfold put
  split
  · have hkeys : (xs.map fun b => if key b = key a then a else b).map key = xs.map key := by
      rw [map_map]
      refine map_congr_left fun b _ => ?_
      by_cases hb : key b = key a
      · simp [hb]
      · simp [hb]
    rwa [hkeys]
  · rename_i hany
    rw [map_append, map_singleton]
    refine nodup_append.mpr ⟨hxs, nodup_singleton _, ?_⟩
    rintro i hi _ hj rfl
    obtain ⟨b, hb, hkey⟩ := mem_map.mp hi
    exact hany (any_eq_true.mpr ⟨b, hb, by simpa [hkey] using hj⟩)

theorem nodup_erase (i : ι) : ((erase key xs i).map key).Nodup :=
  (filter_sublist.map key).nodup hxs

omit hxs in
theorem length_put_none (h : lookup key xs (key a) = none) : (put key xs a).length = xs.length + 1 := by
  have hany : ¬ xs.any (fun b => decide (key b = key a)) = true := by simpa using lookup_none_iff.mp h
  rw [put, if_neg hany, length_append, length_singleton]

omit hxs in
theorem length_put_some (h : lookup key xs (key a) = some b) : (put key xs a).length = xs.length := by
  obtain ⟨hb, hkey⟩ := lookup_some h
  rw [put, if_pos (any_eq_true.mpr ⟨b, hb, decide_eq_true hkey⟩), length_map]

theorem length_erase_some (h : lookup key xs i = some a) : (erase key xs i).length + 1 = xs.length := by
  obtain ⟨ha, hkey⟩ := lookup_some h
  have hone : (xs.filter fun b => decide (key b = i)) = [a] := by
    have hnodup : (xs.filter fun b => decide (key b = i)).Nodup := hxs.of_map.filter _
    refine perm_singleton.mp ((perm_ext_iff_of_nodup hnodup (nodup_singleton a)).mpr fun b => ?_)
    rw [mem_filter, mem_singleton, decide_eq_true_iff]
    constructor
    · rintro ⟨hb, hkey'⟩
      exact inj_on_of_nodup_map hxs hb ha (hkey'.trans hkey.symm)
    · rintro rfl
      exact ⟨ha, hkey⟩
  have hsplit := length_eq_length_filter_add (fun b => decide (key b = i)) (l := xs)
  rw [hone, length_singleton] at hsplit
  simp only [erase, ne_eq, decide_not]
  omega

/-! ## Sorting -/

omit hxs in
theorem sort_perm (xs : List α) : (sort key xs).Perm xs := perm_insertionSort _ _

omit hxs in
theorem mem_sort : a ∈ sort key xs ↔ a ∈ xs := (sort_perm xs).mem_iff

theorem sorted_sort : Sorted key (sort key xs) := by
  have hle : (sort key xs).Pairwise fun a b => key a ≤ key b :=
    pairwise_insertionSort (r := fun a b => key a ≤ key b) xs
  have hne : (sort key xs).Pairwise fun a b => key a ≠ key b := by
    rw [← pairwise_map (f := key) (R := (· ≠ ·))]
    exact ((sort_perm xs).map key).nodup_iff.mpr hxs
  exact (hle.and hne).imp fun h => lt_of_le_of_ne h.1 h.2

theorem lookup_perm (h : xs.Perm ys) (i : ι) : lookup key xs i = lookup key ys i := by
  cases hfound : lookup key ys i with
  | none => exact lookup_none_iff.mpr fun a ha => lookup_none_iff.mp hfound a (h.mem_iff.mp ha)
  | some a =>
    obtain ⟨ha, hkey⟩ := lookup_some hfound
    exact (lookup_eq_some_iff hxs).mpr ⟨h.mem_iff.mpr ha, hkey⟩

theorem lookup_sort (i : ι) : lookup key (sort key xs) i = lookup key xs i :=
  (lookup_perm hxs (sort_perm xs).symm i).symm

theorem nodup_insert (ha : ∀ b ∈ xs, key b ≠ key a) : ((insert key xs a).map key).Nodup := by
  have hperm : ((insert key xs a).map key).Perm (key a :: xs.map key) := (perm_orderedInsert _ a xs).map key
  refine hperm.nodup_iff.mpr (nodup_cons.mpr ⟨fun hmem => ?_, hxs⟩)
  obtain ⟨b, hb, hkey⟩ := mem_map.mp hmem
  exact ha b hb hkey

omit hxs in
theorem sorted_insert (hxs : Sorted key xs) (ha : ∀ b ∈ xs, key b ≠ key a) : Sorted key (insert key xs a) := by
  have hle : (insert key xs a).Pairwise fun a b => key a ≤ key b :=
    List.Pairwise.orderedInsert (r := fun a b => key a ≤ key b) a xs (hxs.imp le_of_lt)
  have hne : (insert key xs a).Pairwise fun a b => key a ≠ key b := by
    rw [← pairwise_map (f := key) (R := (· ≠ ·))]
    exact nodup_insert hxs.nodup ha
  exact (hle.and hne).imp fun h => lt_of_le_of_ne h.1 h.2

theorem lookup_insert (ha : ∀ b ∈ xs, key b ≠ key a) (i : ι) : lookup key (insert key xs a) i = if key a = i then some a else lookup key xs i := by
  rw [lookup_perm (nodup_insert hxs ha) (perm_orderedInsert _ a xs), lookup_cons]

end

def allAt (key : α → ι) (xs : List α) (i : ι) : List α := xs.filter fun a => decide (key a = i)

theorem allAt_cons_eq (h : key a = i) (xs : List α) : allAt key (a :: xs) i = a :: allAt key xs i :=
  filter_cons_of_pos (decide_eq_true h)

theorem allAt_cons_ne (h : key a ≠ i) (xs : List α) : allAt key (a :: xs) i = allAt key xs i :=
  filter_cons_of_neg (by simpa using h)

theorem allAt_sort (xs : List α) (i : ι) : allAt key (sort key xs) i = allAt key xs i := by
  unfold allAt
  have hinsert : ∀ (a : α) (ys : List α), ((ys.orderedInsert (fun a b => key a ≤ key b) a).filter fun b => decide (key b = i)) =
      (a :: ys).filter fun b => decide (key b = i) := by
    intro a ys
    induction ys with
    | nil => rfl
    | cons b ys ih =>
      rw [orderedInsert_cons]
      split
      · rfl
      · rename_i hle
        by_cases hb : key b = i
        · have ha : key a ≠ i := fun ha => hle (ha.trans hb.symm).le
          rw [filter_cons, ih]
          simp [ha, hb]
        · rw [filter_cons, ih]
          simp [filter_cons, hb]
  induction xs with
  | nil => rfl
  | cons a xs ih =>
    show ((orderedInsert (fun a b => key a ≤ key b) a (sort key xs)).filter fun b => decide (key b = i)) = _
    rw [hinsert, filter_cons, filter_cons, ih]

/-! ## Batches -/

def StepAt (key : α → ι) (target : γ → ι) (act : Option α → γ → Option α) (step : List α → γ → List α) : Prop :=
  ∀ xs c i, (xs.map key).Nodup →
    ((step xs c).map key).Nodup ∧ lookup key (step xs c) i = if target c = i then act (lookup key xs i) c else lookup key xs i

theorem StepAt.foldl {target : γ → ι} {act : Option α → γ → Option α} {step : List α → γ → List α}
    (h : StepAt key target act step) (batch : List γ) (hxs : (xs.map key).Nodup) (i : ι) :
    ((batch.foldl step xs).map key).Nodup ∧
      lookup key (batch.foldl step xs) i = (allAt target batch i).foldl act (lookup key xs i) := by
  induction batch generalizing xs with
  | nil => exact ⟨hxs, rfl⟩
  | cons c batch ih =>
    obtain ⟨hnodup, hlookup⟩ := h xs c i hxs
    obtain ⟨hnodup', hlookup'⟩ := ih hnodup
    refine ⟨hnodup', ?_⟩
    rw [foldl_cons, hlookup', hlookup]
    by_cases hc : target c = i
    · rw [if_pos hc, allAt_cons_eq hc, foldl_cons]
    · rw [if_neg hc, allAt_cons_ne hc]

structure SortedStep (key : α → ι) (target : γ → ι) (act : Option α → γ → Option α) (step : List α → γ → List α) : Prop where
  stepAt : StepAt key target act step
  sorted : ∀ xs c, Sorted key xs → Sorted key (step xs c)

section SortedStep
variable {target : γ → ι} {act : Option α → γ → Option α} {step : List α → γ → List α} {batch batch' : List γ} {β : Type*}

section
variable (h : SortedStep key target act step)
include h

theorem SortedStep.foldl_sorted (batch : List γ) (hxs : Sorted key xs) : Sorted key (batch.foldl step xs) := by
  induction batch generalizing xs with
  | nil => exact hxs
  | cons c batch ih => exact ih (h.sorted xs c hxs)

theorem SortedStep.lookup_foldl (batch : List γ) (hxs : Sorted key xs) (i : ι) :
    lookup key (batch.foldl step xs) i = (allAt target batch i).foldl act (lookup key xs i) :=
  (h.stepAt.foldl batch hxs.nodup i).2

theorem SortedStep.foldl_congr (hxs : Sorted key xs) (hbatch : ∀ i, allAt target batch i = allAt target batch' i) :
    batch.foldl step xs = batch'.foldl step xs := by
  refine (h.foldl_sorted batch hxs).ext (h.foldl_sorted batch' hxs) fun i => ?_
  rw [h.lookup_foldl batch hxs, h.lookup_foldl batch' hxs, hbatch i]

theorem SortedStep.mem_foldl (hxs : Sorted key xs) (ha : a ∈ batch.foldl step xs) : a ∈ xs ∨ ∃ c ∈ batch, target c = key a := by
  by_cases hbatch : ∃ c ∈ batch, target c = key a
  · exact .inr hbatch
  · have hfilter : allAt target batch (key a) = [] :=
      filter_eq_nil_iff.mpr fun c hc htarget => hbatch ⟨c, hc, of_decide_eq_true htarget⟩
    have hfound : lookup key (batch.foldl step xs) (key a) = some a :=
      (lookup_eq_some_iff (h.foldl_sorted batch hxs).nodup).mpr ⟨ha, rfl⟩
    rw [h.lookup_foldl batch hxs, hfilter, foldl_nil] at hfound
    exact .inl (lookup_some hfound).1

theorem SortedStep.foldl_append (low : ι → Prop) [DecidablePred low]
    (hlow : ∀ i j, i < j → low j → low i) (hsorted : Sorted key (xs ++ ys)) (hxs : ∀ a ∈ xs, low (key a)) (hys : ∀ a ∈ ys, ¬ low (key a)) :
    batch.foldl step (xs ++ ys) =
      (batch.filter fun c => decide (low (target c))).foldl step xs ++ (batch.filter fun c => decide (¬ low (target c))).foldl step ys := by
  obtain ⟨hfirst, hsecond, -⟩ := sorted_append.mp hsorted
  have hlowpart : ∀ a ∈ (batch.filter fun c => decide (low (target c))).foldl step xs, low (key a) := by
    intro a ha
    rcases h.mem_foldl hfirst ha with hmem | ⟨c, hc, htarget⟩
    · exact hxs a hmem
    · rw [← htarget]
      exact of_decide_eq_true (mem_filter.mp hc).2
  have hhighpart : ∀ a ∈ (batch.filter fun c => decide (¬ low (target c))).foldl step ys, ¬ low (key a) := by
    intro a ha
    rcases h.mem_foldl hsecond ha with hmem | ⟨c, hc, htarget⟩
    · exact hys a hmem
    · rw [← htarget]
      exact of_decide_eq_true (mem_filter.mp hc).2
  have hparts : Sorted key ((batch.filter fun c => decide (low (target c))).foldl step xs ++
      (batch.filter fun c => decide (¬ low (target c))).foldl step ys) := by
    refine sorted_append.mpr ⟨h.foldl_sorted _ hfirst, h.foldl_sorted _ hsecond, fun a ha b hb => ?_⟩
    rcases lt_trichotomy (key a) (key b) with hlt | heq | hgt
    · exact hlt
    · exact absurd (heq ▸ hlowpart a ha) (hhighpart b hb)
    · exact absurd (hlow _ _ hgt (hlowpart a ha)) (hhighpart b hb)
  refine (h.foldl_sorted batch hsorted).ext hparts fun i => ?_
  rw [h.lookup_foldl batch hsorted, lookup_append, lookup_append]
  -- Each key is in one of the two parts only, and so are its changes.
  by_cases hi : low i
  · have hother : lookup key ys i = none := lookup_none_iff.mpr fun a ha heq => hys a ha (heq ▸ hi)
    have hother' : lookup key ((batch.filter fun c => decide (¬ low (target c))).foldl step ys) i = none :=
      lookup_none_iff.mpr fun a ha heq => hhighpart a ha (heq ▸ hi)
    rw [hother, hother', Option.or_none, Option.or_none, h.lookup_foldl _ hfirst, allAt, allAt, filter_filter]
    congr 1
    refine filter_congr fun c _ => ?_
    by_cases hc : target c = i
    · simp [hc, hi]
    · simp [hc]
  · have hother : lookup key xs i = none := lookup_none_iff.mpr fun a ha heq => hi (heq ▸ hxs a ha)
    have hother' : lookup key ((batch.filter fun c => decide (low (target c))).foldl step xs) i = none :=
      lookup_none_iff.mpr fun a ha heq => hi (heq ▸ hlowpart a ha)
    rw [hother, hother', Option.none_or, Option.none_or, h.lookup_foldl _ hsecond, allAt, allAt, filter_filter]
    congr 1
    refine filter_congr fun c _ => ?_
    by_cases hc : target c = i
    · simp [hc, hi]
    · simp [hc]

theorem SortedStep.foldl_flatMap {cls : ι → ℕ} (hcls : ∀ i j, i < j → cls i ≤ cls j)
    (f : β → List α) (pieces : List β) (k : ℕ) (hsorted : Sorted key (pieces.flatMap f))
    (hpieces : ∀ x ∈ pieces.zipIdx k, ∀ a ∈ f x.1, cls (key a) = x.2)
    (hbatch : ∀ c ∈ batch, k ≤ cls (target c) ∧ cls (target c) < k + pieces.length) :
    batch.foldl step (pieces.flatMap f) =
      (pieces.zipIdx k).flatMap fun x => (batch.filter fun c => cls (target c) == x.2).foldl step (f x.1) := by
  induction pieces generalizing k batch with
  | nil =>
    have hnone : batch = [] := eq_nil_iff_forall_not_mem.mpr fun c hc => by
      have hc := hbatch c hc
      simp only [length_nil] at hc
      omega
    rw [hnone]
    rfl
  | cons piece pieces ih =>
    rw [flatMap_cons] at hsorted ⊢
    rw [zipIdx_cons] at hpieces ⊢
    obtain ⟨hfirst, hrest⟩ := forall_mem_cons.mp hpieces
    have hlater : ∀ a ∈ pieces.flatMap f, ¬ cls (key a) ≤ k := by
      intro a ha
      obtain ⟨piece', hpiece', ha⟩ := mem_flatMap.mp ha
      obtain ⟨j, hj⟩ : ∃ j, (piece', j) ∈ pieces.zipIdx (k + 1) := by
        obtain ⟨n, hn, rfl⟩ := mem_iff_getElem.mp hpiece'
        exact ⟨k + 1 + n, mk_add_mem_zipIdx_iff_getElem?.mpr (getElem?_eq_getElem hn)⟩
      rw [hrest _ hj a ha]
      have hle := le_snd_of_mem_zipIdx hj
      simp only at hle ⊢
      omega
    rw [h.foldl_append (fun i => cls i ≤ k) (fun i j hij hj => (hcls i j hij).trans hj) hsorted
      (fun a ha => (hfirst a ha).le) hlater, flatMap_cons]
    congr 1
    · congr 1
      refine filter_congr fun c hc => ?_
      have hge := (hbatch c hc).1
      rw [Bool.eq_iff_iff, decide_eq_true_iff, beq_iff_eq]
      omega
    · rw [ih (k + 1) (sorted_append.mp hsorted).2.1 hrest]
      · refine flatMap_congr fun x hx => ?_
        have hle := le_snd_of_mem_zipIdx hx
        rw [filter_filter]
        congr 1
        refine filter_congr fun c _ => ?_
        rw [Bool.eq_iff_iff, Bool.and_eq_true, decide_eq_true_iff, beq_iff_eq]
        omega
      · intro c hc
        obtain ⟨hmem, hnot⟩ := mem_filter.mp hc
        have hrange := hbatch c hmem
        have hnot := of_decide_eq_true hnot
        rw [length_cons] at hrange
        omega

end

theorem sum_length_classes (cls : γ → ℕ) (pieces : List β) (k : ℕ) (batch : List γ) (hbatch : ∀ c ∈ batch, k ≤ cls c ∧ cls c < k + pieces.length) :
    ((pieces.zipIdx k).map fun x => (batch.filter fun c => cls c == x.2).length).sum = batch.length := by
  induction pieces generalizing k batch with
  | nil =>
    cases batch with
    | nil => rfl
    | cons c batch =>
      have hc := hbatch c mem_cons_self
      simp only [length_nil] at hc
      omega
  | cons piece pieces ih =>
    rw [zipIdx_cons, map_cons, sum_cons]
    have hrest := ih (k + 1) (batch.filter fun c => !(cls c == k)) (fun c hc => by
      obtain ⟨hmem, hnot⟩ := mem_filter.mp hc
      have hrange := hbatch c hmem
      simp only [Bool.not_eq_true', beq_eq_false_iff_ne, ne_eq] at hnot
      rw [length_cons] at hrange
      omega)
    have hsame : ((pieces.zipIdx (k + 1)).map fun x => (batch.filter fun c => cls c == x.2).length) =
        (pieces.zipIdx (k + 1)).map fun x => ((batch.filter fun c => !(cls c == k)).filter fun c => cls c == x.2).length := by
      refine map_congr_left fun x hx => ?_
      have hle := le_snd_of_mem_zipIdx hx
      rw [filter_filter]
      congr 1
      refine filter_congr fun c _ => ?_
      rw [Bool.eq_iff_iff, Bool.and_eq_true, Bool.not_eq_true', beq_iff_eq, beq_eq_false_iff_ne]
      omega
    have hsplit := length_eq_length_filter_add (fun c => cls c == k) (l := batch)
    rw [hsame, hrest]
    exact hsplit.symm

end SortedStep

end Keyed
