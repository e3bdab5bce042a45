import OktoGrafx.Lib.MaxTree
import OktoGrafx.Lib.Transition

/-! The directory of pages with room that a build of an index keeps: the greatest capacity below each node
of a tree over the pages. -/

namespace Grafx.Index

open List MaxTree

structure FirstFitPages where
  pages : List ℕ
  capacities : List ℤ
  /-- `_leaf_count` starts at one and is only ever doubled: it is `2 ^ depth`. -/
  depth : ℕ
  tree : ℕ → ℤ

/-- The leaves are doubled until the pages fit. -/
def leafDepth (count : ℕ) : ℕ → ℕ → ℕ
  | 0, depth => depth
  | fuel + 1, depth => if 2 ^ depth < count then leafDepth count fuel (depth + 1) else depth

def rebuildTree (depth : ℕ) (capacities : List ℤ) : ℕ → ℤ :=
  raiseAll (2 ^ depth - 1) fun node => if 2 ^ depth ≤ node then capacities[node - 2 ^ depth]?.getD (-1) else -1

namespace FirstFitPages

def make (pages : List ℕ) (capacities : List ℤ) : FirstFitPages :=
  let depth := leafDepth pages.length pages.length 0
  ⟨pages, capacities, depth, rebuildTree depth capacities⟩

def firstFit (s : FirstFitPages) (payloadSize : ℤ) : Option ℕ :=
  if s.pages = [] ∨ s.tree 1 < payloadSize then none
  else
    let position := descend s.tree (2 ^ s.depth) payloadSize s.depth 1 - 2 ^ s.depth
    if position < s.pages.length then some position else none

def update (s : FirstFitPages) (position : ℕ) (capacity : ℤ) : FirstFitPages :=
  let node := 2 ^ s.depth + position
  { s with
    capacities := s.capacities.set position capacity
    tree := climb (node / 2) (Function.update s.tree node capacity) }

def append (s : FirstFitPages) (page : ℕ) (capacity : ℤ) : FirstFitPages :=
  let pages := s.pages ++ [page]
  let capacities := s.capacities ++ [capacity]
  if 2 ^ s.depth < pages.length then ⟨pages, capacities, s.depth + 1, rebuildTree (s.depth + 1) capacities⟩
  else update { s with pages := pages, capacities := capacities } (pages.length - 1) capacity

inductive Edit where
  | append (page : ℕ) (capacity : ℤ)
  | update (position : ℕ) (capacity : ℤ)

def edit (s : FirstFitPages) : Edit → FirstFitPages
  | .append page capacity => s.append page capacity
  | .update position capacity => s.update position capacity

/-- The same edit of a plain list of the pages, each with its capacity. -/
def editList (entries : List (ℕ × ℤ)) : Edit → List (ℕ × ℤ)
  | .append page capacity => entries ++ [(page, capacity)]
  | .update position capacity => entries.modify position fun entry => (entry.1, capacity)

def Inside (entries : List (ℕ × ℤ)) : Edit → Prop
  | .append .. => True
  | .update position _ => position < entries.length

structure Wf (s : FirstFitPages) : Prop where
  length : s.pages.length = s.capacities.length
  fits : s.pages.length ≤ 2 ^ s.depth
  leaves : ∀ i, s.tree (2 ^ s.depth + i) = s.capacities[i]?.getD (-1)
  inner : Raised (2 ^ s.depth) (fun _ => False) s.tree

variable {s : FirstFitPages}

theorem wf_rebuild {pages : List ℕ} {capacities : List ℤ} {depth : ℕ} (hlength : pages.length = capacities.length)
    (hfits : pages.length ≤ 2 ^ depth) : Wf ⟨pages, capacities, depth, rebuildTree depth capacities⟩ := by
  let leaves : ℕ → ℤ := fun node => if 2 ^ depth ≤ node then capacities[node - 2 ^ depth]?.getD (-1) else -1
  have hopen : Raised (2 ^ depth) (fun m => m ≤ 2 ^ depth - 1) leaves :=
    fun m _ htop hopen => absurd (Nat.le_sub_one_of_lt htop) hopen
  obtain ⟨hinner, hkept⟩ := raiseAll_spec (Nat.sub_one_lt (Nat.two_pow_pos depth).ne') hopen
  refine ⟨hlength, hfits, fun i => ?_, hinner⟩
  exact (hkept _ (Nat.le_add_right _ i)).trans (by simp [leaves])

theorem Wf.set (h : s.Wf) {pages : List ℕ} {capacities : List ℤ} {position : ℕ} {capacity : ℤ}
    (hlength : pages.length = capacities.length) (hfits : pages.length ≤ 2 ^ s.depth) (hposition : position < pages.length)
    (hchanged : ∀ i, capacities[i]?.getD (-1) = if i = position then capacity else s.capacities[i]?.getD (-1)) :
    Wf ⟨pages, capacities, s.depth,
      climb ((2 ^ s.depth + position) / 2) (Function.update s.tree (2 ^ s.depth + position) capacity)⟩ := by
  have hopen : Raised (2 ^ s.depth) (fun m => m = (2 ^ s.depth + position) / 2)
      (Function.update s.tree (2 ^ s.depth + position) capacity) := by
    intro m hm htop hopen
    rw [Function.update_of_ne (by omega), Function.update_of_ne (by omega), Function.update_of_ne (by omega)]
    exact h.inner m hm htop id
  obtain ⟨hinner, hkept⟩ := climb_spec (by omega) hopen
  refine ⟨hlength, hfits, fun i => ?_, hinner⟩
  show climb _ _ _ = _
  rw [hkept _ (Nat.le_add_right _ i), Function.update_apply, h.leaves, hchanged]
  simp only [Nat.add_left_cancel_iff]

theorem Wf.firstFit (h : s.Wf) (payloadSize : ℕ) :
    s.firstFit payloadSize = s.capacities.findIdx? fun capacity => decide ((payloadSize : ℤ) ≤ capacity) := by
  have hspan : (1 + 1) * 2 ^ s.depth ≤ 2 * 2 ^ s.depth := le_rfl
  have hfits := h.length ▸ h.fits
  have hleaf : ∀ i (hi : i < s.capacities.length), s.tree (2 ^ s.depth + i) = s.capacities[i] :=
    fun i hi => by rw [h.leaves, getElem?_eq_getElem hi, Option.getD_some]
  unfold FirstFitPages.firstFit
  by_cases hnone : s.pages = [] ∨ s.tree 1 < payloadSize
  · rw [if_pos hnone, eq_comm, findIdx?_eq_none_iff]
    intro capacity hmem
    obtain ⟨i, hi, rfl⟩ := mem_iff_getElem.mp hmem
    have hlow : s.tree 1 < payloadSize := hnone.resolve_left fun hnil => by
      rw [← h.length, hnil] at hi
      exact absurd hi (Nat.not_lt_zero i)
    have hle := h.inner.below s.depth hspan one_pos (m := 2 ^ s.depth + i) (by omega) (by omega)
    rw [hleaf i hi] at hle
    exact decide_eq_false (not_le.mpr (lt_of_le_of_lt hle hlow))
  · rw [if_neg hnone]
    rw [not_or, not_lt] at hnone
    obtain ⟨hge, hlt, hreach, hfirst⟩ := h.inner.descend s.depth hspan one_pos hnone.2
    obtain ⟨i, hi⟩ := Nat.exists_eq_add_of_le ((one_mul _).symm.trans_le hge)
    rw [hi] at hreach hfirst
    have hin : i < s.capacities.length := by
      by_contra hout
      rw [h.leaves, getElem?_eq_none (not_lt.mp hout), Option.getD_none] at hreach
      omega
    simp only [hi, Nat.add_sub_cancel_left]
    rw [if_pos (h.length ▸ hin), eq_comm, findIdx?_eq_some_iff_getElem]
    refine ⟨hin, decide_eq_true (hleaf i hin ▸ hreach), fun j hj => ?_⟩
    have hsmall := hfirst (2 ^ s.depth + j) (by omega) (by omega)
    rw [hleaf j (by omega)] at hsmall
    simpa using hsmall

theorem le_leafDepth {count fuel depth : ℕ} (h : count ≤ 2 ^ (depth + fuel)) : count ≤ 2 ^ leafDepth count fuel depth := by
  induction fuel generalizing depth with
  | zero => exact h
  | succ fuel ih =>
    unfold leafDepth
    split
    next => exact ih (by rwa [add_right_comm])
    next hge => exact not_lt.mp hge

theorem Wf.append (h : s.Wf) (page : ℕ) (capacity : ℤ) : (s.append page capacity).Wf := by
  have hfits := h.fits
  have hpages : (s.pages ++ [page]).length = s.pages.length + 1 := length_append
  have hcapacities : (s.capacities ++ [capacity]).length = s.capacities.length + 1 := length_append
  have hset : (s.capacities ++ [capacity]).set s.capacities.length capacity = s.capacities ++ [capacity] := by simp
  have hlength := h.length
  simp only [FirstFitPages.append]
  split
  · have hroom : (s.pages ++ [page]).length ≤ 2 ^ (s.depth + 1) := by
      have := Nat.two_pow_pos s.depth
      omega
    exact wf_rebuild (by omega) hroom
  · simp only [FirstFitPages.update, hpages, Nat.add_sub_cancel, hlength, hset]
    refine h.set (by omega) (by omega) (by omega) fun i => ?_
    rcases lt_trichotomy i s.capacities.length with hlt | rfl | hgt
    · rw [getElem?_append_left hlt, if_neg hlt.ne]
    · simp
    · rw [if_neg hgt.ne', getElem?_eq_none hgt.le, getElem?_eq_none (hcapacities ▸ hgt)]

theorem Wf.update (h : s.Wf) {position : ℕ} (hposition : position < s.capacities.length) (capacity : ℤ) : (s.update position capacity).Wf := by
  refine h.set (by rw [length_set]; exact h.length) h.fits (h.length ▸ hposition) fun i => ?_
  rw [getElem?_set, if_pos hposition]
  split
  next heq => rw [if_pos heq.symm, Option.getD_some]
  next hne => rw [if_neg (Ne.symm hne)]

structure Represents (s : FirstFitPages) (entries : List (ℕ × ℤ)) : Prop where
  wf : s.Wf
  pages : s.pages = entries.map Prod.fst
  capacities : s.capacities = entries.map Prod.snd

variable {entries : List (ℕ × ℤ)}

theorem represents_make (entries : List (ℕ × ℤ)) : Represents (make (entries.map Prod.fst) (entries.map Prod.snd)) entries := by
  refine ⟨wf_rebuild (by rw [length_map, length_map]) (le_leafDepth ?_), rfl, rfl⟩
  rw [zero_add]
  exact Nat.lt_two_pow_self.le

theorem Represents.edit (h : Represents s entries) {e : Edit} (hin : Inside entries e) : Represents (s.edit e) (editList entries e) := by
  cases e with
  | append page capacity =>
    refine ⟨h.wf.append page capacity, ?_, ?_⟩
    · rw [editList, map_append, ← h.pages]
      simp only [FirstFitPages.edit, FirstFitPages.append, FirstFitPages.update]
      split <;> rfl
    · have hlast : (s.capacities ++ [capacity]).set ((s.pages ++ [page]).length - 1) capacity = s.capacities ++ [capacity] := by
        rw [length_append, length_singleton, Nat.add_sub_cancel, h.wf.length]
        simp
      rw [editList, map_append, ← h.capacities]
      simp only [FirstFitPages.edit, FirstFitPages.append, FirstFitPages.update, hlast]
      split <;> rfl
  | update position capacity =>
    have hposition : position < s.capacities.length := by rwa [h.capacities, length_map]
    refine ⟨h.wf.update hposition capacity, ?_, ?_⟩
    · refine h.pages.trans (ext_getElem? fun i => ?_)
      simp only [editList, getElem?_map, getElem?_modify]
      split <;> cases entries[i]? <;> rfl
    · refine ext_getElem? fun i => ?_
      show (s.capacities.set position capacity)[i]? = _
      simp only [h.capacities, editList, getElem?_set, getElem?_map, getElem?_modify, length_map]
      split
      · rename_i heq
        rw [if_pos (show position < entries.length from hin), getElem?_eq_getElem (heq ▸ hin)]
        rfl
      · cases entries[i]? <;> rfl

theorem Represents.run (h : Represents s entries) {edits : List Edit} (hin : Transition.Along editList Inside entries edits) :
    Represents (edits.foldl FirstFitPages.edit s) (edits.foldl editList entries) := by
  induction edits generalizing s entries with
  | nil => exact h
  | cons e edits ih => exact ih (h.edit hin.1) hin.2

/-- After any appends and updates a query is answered as by a scan of the plain list they give: with the first page that
has the room, and with none if there is no such page. -/
theorem firstFit_run (start : List (ℕ × ℤ)) (edits : List Edit) (hin : Transition.Along editList Inside start edits) (payloadSize : ℕ) :
    (edits.foldl FirstFitPages.edit (make (start.map Prod.fst) (start.map Prod.snd))).pages = (edits.foldl editList start).map Prod.fst ∧
      (edits.foldl FirstFitPages.edit (make (start.map Prod.fst) (start.map Prod.snd))).firstFit payloadSize =
        (edits.foldl editList start).findIdx? fun entry => decide ((payloadSize : ℤ) ≤ entry.2) := by
  have h := (represents_make start).run hin
  refine ⟨h.pages, ?_⟩
  rw [h.wf.firstFit, h.capacities, findIdx?_map]
  rfl

theorem firstFit_run_filled :
    Transition.Along editList Inside [(4, 10), (9, 30)] [.append 12 80, .update 1 5, .append 7 60] ∧
      ([.append 12 80, .update 1 5, .append 7 60].foldl FirstFitPages.edit (make [4, 9] [10, 30])).firstFit 20 = some 2 := by
  have hin : Transition.Along editList Inside [(4, 10), (9, 30)] [.append 12 80, .update 1 5, .append 7 60] :=
    ⟨trivial, (by decide : 1 < 3), trivial, trivial⟩
  exact ⟨hin, (firstFit_run [(4, 10), (9, 30)] _ hin 20).2⟩

end FirstFitPages

end Grafx.Index
