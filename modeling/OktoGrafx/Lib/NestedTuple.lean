import Mathlib

/-! Nested tuples under a comparison that need not be defined, as in a language whose `<` is an error
for two things of different kinds. A tuple goes by the first place where it differs. -/

namespace NestedTuple

open List
open Option (isSome_iff_exists)

variable {α β : Type*} {o p : Ordering}

/-- `some .eq` for equal things, `none` for unequal ones without an order. -/
abbrev Comparison (α : Type*) := α → α → Option Ordering

variable {cmp : Comparison α} {xs ys : List α}

def Through (o p q : Ordering) : Prop :=
  (o = .eq → q = p) ∧ (p = .eq → q = o) ∧ (o = p → q = o)

theorem Through.of_total [Ord α] [Std.TransOrd α] (a b c : α) : Through (compare a b) (compare b c) (compare a c) := by
  refine ⟨?_, ?_, ?_⟩
  · intro hab
    exact Std.TransCmp.congr_left hab
  · intro hbc
    exact (Std.TransCmp.congr_right hbc).symm
  · intro heq
    cases hab : compare a b with
    | lt => exact Std.TransCmp.lt_trans hab (heq ▸ hab)
    | eq => exact Std.TransCmp.eq_trans hab (heq ▸ hab)
    | gt => exact Std.TransCmp.gt_trans hab (heq ▸ hab)

structure Coherent (cmp : Comparison α) (a : α) : Prop where
  refl : cmp a a = some .eq
  swap : ∀ b, cmp b a = (cmp a b).map Ordering.swap
  through : ∀ {b c o p q}, cmp a b = some o → cmp b c = some p → cmp a c = some q → Through o p q

def TotalOn (cmp : Comparison α) (s : Set α) : Prop := ∀ a ∈ s, ∀ b ∈ s, (cmp a b).isSome

theorem TotalOn.exists {cmp : Comparison α} {s : Set α} (h : TotalOn cmp s) {a b : α} (ha : a ∈ s) (hb : b ∈ s) :
    ∃ o, cmp a b = some o := isSome_iff_exists.mp (h a ha b hb)

section Laws
variable {a b c : α}

theorem Coherent.on (f : β → α) {x : β} (h : Coherent cmp (f x)) : Coherent (fun x y => cmp (f x) (f y)) x where
  refl := h.refl
  swap y := h.swap (f y)
  through hab hbc hac := h.through hab hbc hac

variable (h : Coherent cmp a)
include h

theorem Coherent.symm (heq : cmp a b = some .eq) : cmp b a = some .eq := by
  rw [h.swap, heq]
  rfl

theorem Coherent.lt_iff_gt : cmp b a = some .lt ↔ cmp a b = some .gt := by
  rw [h.swap]
  cases hab : cmp a b with
  | none => simp
  | some o => cases o <;> simp

section
variable (hac : (cmp a c).isSome)
include hac

theorem Coherent.eq_left (hab : cmp a b = some .eq) (hbc : cmp b c = some p) : cmp a c = some p := by
  obtain ⟨q, hq⟩ := isSome_iff_exists.mp hac
  rw [hq, (h.through hab hbc hq).1 rfl]

theorem Coherent.eq_right (hab : cmp a b = some o) (hbc : cmp b c = some .eq) : cmp a c = some o := by
  obtain ⟨q, hq⟩ := isSome_iff_exists.mp hac
  rw [hq, (h.through hab hbc hq).2.1 rfl]

theorem Coherent.trans (hab : cmp a b = some o) (hbc : cmp b c = some o) : cmp a c = some o := by
  obtain ⟨q, hq⟩ := isSome_iff_exists.mp hac
  rw [hq, (h.through hab hbc hq).2.2 rfl]

end

theorem Coherent.le_trans (hab : (cmp a b).isSome) (hbc : (cmp b c).isSome) (hac : (cmp a c).isSome)
    (hle : cmp a b ≠ some .gt) (hle' : cmp b c ≠ some .gt) : cmp a c ≠ some .gt := by
  obtain ⟨o, ho⟩ := isSome_iff_exists.mp hab
  obtain ⟨p, hp⟩ := isSome_iff_exists.mp hbc
  obtain ⟨q, hq⟩ := isSome_iff_exists.mp hac
  have hthrough := h.through ho hp hq
  unfold Through at hthrough
  cases o <;> cases p <;> simp_all

theorem Coherent.le_total (b : α) : cmp a b ≠ some .gt ∨ cmp b a ≠ some .gt := by
  rw [h.swap]
  cases cmp a b with
  | none => exact .inl nofun
  | some o => cases o <;> simp

end Laws

/-! ## Lists -/

def lexicographic (cmp : Comparison α) : List α → List α → Option Ordering
  | [], [] => some .eq
  | [], _ :: _ => some .lt
  | _ :: _, [] => some .gt
  | x :: xs, y :: ys => do
    let o ← cmp x y
    if o = .eq then lexicographic cmp xs ys else some o

section Lists

theorem lexicographic_cons {x y : α} : lexicographic cmp (x :: xs) (y :: ys) = some o ↔
      (cmp x y = some .eq ∧ lexicographic cmp xs ys = some o) ∨ (cmp x y = some o ∧ o ≠ .eq) := by
  rw [lexicographic]
  cases hxy : cmp x y with
  | none => simp
  | some p => cases p <;> simp +contextual [eq_comm]

theorem lexicographic_eq_iff : lexicographic cmp xs ys = some .eq ↔ List.Forall₂ (fun x y => cmp x y = some .eq) xs ys := by
  induction xs generalizing ys with
  | nil => cases ys <;> simp [lexicographic]
  | cons x xs ih => cases ys with
    | nil => simp [lexicographic]
    | cons y ys => simp [lexicographic_cons, ih]

theorem lexicographic_isSome_cons {x y : α} (hxy : (cmp x y).isSome) (hrest : (lexicographic cmp xs ys).isSome) :
    (lexicographic cmp (x :: xs) (y :: ys)).isSome := by
  obtain ⟨o, ho⟩ := isSome_iff_exists.mp hxy
  rw [lexicographic, ho]
  show (if o = .eq then lexicographic cmp xs ys else some o).isSome
  split
  · exact hrest
  · rfl

theorem lexicographic_isSome (h : ∀ x ∈ xs, ∀ y ∈ ys, (cmp x y).isSome) : (lexicographic cmp xs ys).isSome := by
  induction xs generalizing ys with
  | nil => cases ys <;> rfl
  | cons x xs ih => cases ys with
    | nil => rfl
    | cons y ys =>
      apply lexicographic_isSome_cons (h x mem_cons_self y mem_cons_self)
      apply ih
      intro x hx y hy
      exact h x (mem_cons_of_mem _ hx) y (mem_cons_of_mem _ hy)

variable (h : ∀ x ∈ xs, Coherent cmp x)
include h

theorem lexicographic_swap : lexicographic cmp ys xs = (lexicographic cmp xs ys).map Ordering.swap := by
  induction xs generalizing ys with
  | nil => cases ys <;> rfl
  | cons x xs ih => cases ys with
    | nil => rfl
    | cons y ys =>
      have htail : lexicographic cmp ys xs = (lexicographic cmp xs ys).map Ordering.swap :=
        ih (forall_mem_cons.mp h).2
      rw [lexicographic, lexicographic, (h x mem_cons_self).swap y]
      cases hxy : cmp x y with
      | none => rfl
      | some o => cases o with
        | eq => exact htail
        | lt => rfl
        | gt => rfl

theorem lexicographic_through {zs : List α} {q : Ordering}
    (hxy : lexicographic cmp xs ys = some o) (hyz : lexicographic cmp ys zs = some p) (hxz : lexicographic cmp xs zs = some q) :
    Through o p q := by
  induction xs generalizing ys zs o p q with
  | nil =>
    -- nothing comes before the empty list
    cases ys <;> cases zs <;> grind [lexicographic, Through]
  | cons x xs ih => cases ys with
    | nil => cases zs <;> grind [lexicographic, Through]
    | cons y ys => cases zs with
      | nil => grind [lexicographic, Through]
      | cons z zs =>
        have hx := h x mem_cons_self
        have htail : ∀ x ∈ xs, Coherent cmp x := (forall_mem_cons.mp h).2
        rw [lexicographic_cons] at hxy hyz hxz
        obtain ⟨hxy, hxys⟩ | ⟨hxy, ho⟩ := hxy <;> obtain ⟨hyz, hyzs⟩ | ⟨hyz, hp⟩ := hyz <;>
          obtain ⟨hxz, hxzs⟩ | ⟨hxz, hq⟩ := hxz <;> have hhead := hx.through hxy hyz hxz
        · exact ih htail hxys hyzs hxzs
        all_goals unfold Through at hhead ⊢; grind

theorem lexicographic_coherent : Coherent (lexicographic cmp) xs where
  refl := by
    rw [lexicographic_eq_iff, forall₂_same]
    intro x hx
    exact (h x hx).refl
  swap _ := lexicographic_swap h
  through := lexicographic_through h

end Lists

/-! ## Tuples of tuples -/

inductive Nested (α : Type*)
  | atom (a : α)
  | tuple (items : List (Nested α))

mutual

def Nested.compare (cmp : Comparison α) : Nested α → Nested α → Option Ordering
  | .atom a, .atom b => cmp a b
  | .tuple xs, .tuple ys => Nested.compareItems cmp xs ys
  | .atom _, .tuple _ => none
  | .tuple _, .atom _ => none

def Nested.compareItems (cmp : Comparison α) : List (Nested α) → List (Nested α) → Option Ordering
  | [], [] => some .eq
  | [], _ :: _ => some .lt
  | _ :: _, [] => some .gt
  | x :: xs, y :: ys => do
    let o ← Nested.compare cmp x y
    if o = .eq then Nested.compareItems cmp xs ys else some o

end

theorem Nested.induction {P : Nested α → Prop} (atom : ∀ a, P (.atom a))
    (tuple : ∀ items, (∀ x ∈ items, P x) → P (.tuple items)) (x : Nested α) : P x := by
  refine @Nested.rec α P (fun items => ∀ x ∈ items, P x) atom tuple ?_ ?_ x
  · intro x hx
    cases hx
  · intro x xs hx hxs y hy
    obtain rfl | hy := mem_cons.mp hy
    · exact hx
    · exact hxs y hy

mutual

def Nested.map (f : α → β) : Nested α → Nested β
  | .atom a => .atom (f a)
  | .tuple items => .tuple (Nested.mapItems f items)

def Nested.mapItems (f : α → β) : List (Nested α) → List (Nested β)
  | [] => []
  | x :: xs => Nested.map f x :: Nested.mapItems f xs

end

theorem Nested.compareItems_eq (xs ys : List (Nested α)) :
    Nested.compareItems cmp xs ys = lexicographic (Nested.compare cmp) xs ys := by
  induction xs generalizing ys with
  | nil => cases ys <;> rfl
  | cons x xs ih => cases ys with
    | nil => rfl
    | cons y ys => simp only [Nested.compareItems, lexicographic, ih]

@[simp] theorem Nested.compare_atom (a b : α) : Nested.compare cmp (.atom a) (.atom b) = cmp a b := by
  rw [Nested.compare]

@[simp] theorem Nested.compare_tuple (xs ys : List (Nested α)) :
    Nested.compare cmp (.tuple xs) (.tuple ys) = lexicographic (Nested.compare cmp) xs ys := by
  rw [Nested.compare, Nested.compareItems_eq]

@[simp] theorem Nested.compare_atom_tuple (a : α) (ys : List (Nested α)) : Nested.compare cmp (.atom a) (.tuple ys) = none := by
  rw [Nested.compare]

@[simp] theorem Nested.compare_tuple_atom (xs : List (Nested α)) (b : α) : Nested.compare cmp (.tuple xs) (.atom b) = none := by
  rw [Nested.compare]

theorem Nested.coherent (h : ∀ a, Coherent cmp a) (x : Nested α) : Coherent (Nested.compare cmp) x := by
  induction x using Nested.induction with
  | atom a =>
    refine ⟨by simpa using (h a).refl, ?_, ?_⟩
    · intro y
      cases y with
      | atom b => simpa using (h a).swap b
      | tuple ys => simp
    · intro y z o p q hxy hyz hxz
      cases y with
      | tuple ys => simp at hxy
      | atom b => cases z with
        | tuple zs => simp at hxz
        | atom c =>
          exact (h a).through hxy hyz hxz
  | tuple items ih =>
    have hitems := lexicographic_coherent ih
    refine ⟨by simpa using hitems.refl, ?_, ?_⟩
    · intro y
      cases y with
      | atom b => simp
      | tuple ys => simpa using hitems.swap ys
    · intro y z o p q hxy hyz hxz
      cases y with
      | atom b => simp at hxy
      | tuple ys => cases z with
        | atom c => simp at hxz
        | tuple zs =>
          simp only [Nested.compare_tuple] at hxy hyz hxz
          exact hitems.through hxy hyz hxz

inductive Nested.Each (P : α → Prop) : Nested α → Prop
  | atom {a : α} (h : P a) : Each P (.atom a)
  | tuple {items : List (Nested α)} (h : ∀ x ∈ items, Each P x) : Each P (.tuple items)

theorem Nested.eq_trans {P : α → Prop}
    (h : ∀ {a b c}, P a → P b → P c → cmp a b = some .eq → cmp b c = some .eq → cmp a c = some .eq) {x y z : Nested α}
    (hx : Each P x) (hy : Each P y) (hz : Each P z) (hxy : Nested.compare cmp x y = some .eq)
    (hyz : Nested.compare cmp y z = some .eq) : Nested.compare cmp x z = some .eq := by
  induction hx generalizing y z with
  | atom ha => cases hy with
    | tuple => simp at hxy
    | atom hb => cases hz with
      | tuple => simp at hyz
      | atom hc =>
        exact h ha hb hc hxy hyz
  | tuple hxs ih => cases hy with
    | atom => simp at hxy
    | tuple hys => cases hz with
      | atom => simp at hyz
      | tuple hzs =>
        simp only [Nested.compare_tuple, lexicographic_eq_iff, forall₂_iff_get] at hxy hyz ⊢
        refine ⟨hxy.1.trans hyz.1, fun i hi hk => ?_⟩
        have hj := hxy.1 ▸ hi
        exact ih _ (get_mem _ _) (hys _ (get_mem _ _)) (hzs _ (get_mem _ _)) (hxy.2 i hi hj) (hyz.2 i hj hk)

theorem Nested.compare_map {cmp' : Comparison β} {f : α → β} (h : ∀ a b, cmp' (f a) (f b) = cmp a b) (x y : Nested α) :
    Nested.compare cmp' (Nested.map f x) (Nested.map f y) = Nested.compare cmp x y := by
  induction x using Nested.induction generalizing y with
  | atom a => cases y <;> simp [Nested.map, h]
  | tuple xs ih => cases y with
    | atom b => simp [Nested.map]
    | tuple ys =>
      rw [Nested.map, Nested.map, Nested.compare_tuple, Nested.compare_tuple]
      induction xs generalizing ys with
      | nil => cases ys <;> rfl
      | cons x xs ihs => cases ys with
        | nil => rfl
        | cons y ys =>
          obtain ⟨hx, hxs⟩ := forall_mem_cons.mp ih
          simp only [Nested.mapItems, lexicographic, hx y, ihs hxs ys]

theorem Nested.compare_pair (a b c d : Nested α) :
    Nested.compare cmp (.tuple [a, b]) (.tuple [c, d]) =
      (Nested.compare cmp a c).bind fun o => if o = .eq then Nested.compare cmp b d else some o := by
  simp only [Nested.compare_tuple, lexicographic, bind]
  congr 1
  funext o
  split
  · cases hbd : Nested.compare cmp b d with
    | none => rfl
    | some p => cases p <;> rfl
  · rfl

/-! ## Sorting -/

def insertSorted (cmp : Comparison α) (x : α) : List α → Option (List α)
  | [] => some [x]
  | y :: ys => (cmp y x).bind fun o =>
    if o = .lt then (insertSorted cmp x ys).map (y :: ·) else some (x :: y :: ys)

def sorted (cmp : Comparison α) : List α → Option (List α)
  | [] => some []
  | x :: xs => (sorted cmp xs).bind (insertSorted cmp x)

section Sorting
variable {s : Set α}

abbrev Ascends (cmp : Comparison α) (xs : List α) : Prop := xs.Pairwise fun x y => cmp x y = some .lt

variable (hs : TotalOn cmp s)
include hs

variable (hcoh : ∀ a, Coherent cmp a)
include hcoh

theorem insertSorted_spec {x : α} (hx : x ∈ s) (hys : ∀ y ∈ ys, y ∈ s) (hne : ∀ y ∈ ys, cmp x y ≠ some .eq) (hasc : Ascends cmp ys) :
    ∃ zs, insertSorted cmp x ys = some zs ∧ zs.Perm (x :: ys) ∧ Ascends cmp zs := by
  induction ys with
  | nil => exact ⟨[x], rfl, .refl _, pairwise_singleton _ _⟩
  | cons y ys ih =>
    obtain ⟨hy, htail⟩ := forall_mem_cons.mp hys
    obtain ⟨hnex, hnes⟩ := forall_mem_cons.mp hne
    obtain ⟨hsmall, hrest⟩ := pairwise_cons.mp hasc
    obtain ⟨o, ho⟩ := hs.exists hy hx
    cases o with
    | lt =>
      obtain ⟨zs, hzs, hperm, hascz⟩ := ih htail hnes hrest
      refine ⟨y :: zs, by simp [insertSorted, ho, hzs], (hperm.cons y).trans (.swap x y ys), ?_⟩
      apply pairwise_cons.mpr ⟨?_, hascz⟩
      intro z hz
      obtain rfl | hz := mem_cons.mp (hperm.mem_iff.mp hz)
      · exact ho
      · exact hsmall z hz
    | eq => exact absurd ((hcoh y).symm ho) hnex
    | gt =>
      refine ⟨x :: y :: ys, by simp [insertSorted, ho], .refl _, pairwise_cons.mpr ⟨?_, hasc⟩⟩
      have hxy := (hcoh y).lt_iff_gt.mpr ho
      intro z hz
      obtain rfl | hz := mem_cons.mp hz
      · exact hxy
      · exact (hcoh x).trans (hs x hx z (htail z hz)) hxy (hsmall z hz)

variable (hxs : ∀ x ∈ xs, x ∈ s)
include hxs

variable (hne : xs.Pairwise fun x y => cmp x y ≠ some .eq)
include hne

theorem sorted_spec : ∃ ys, sorted cmp xs = some ys ∧ ys.Perm xs ∧ Ascends cmp ys := by
  induction xs with
  | nil => exact ⟨[], rfl, .refl _, .nil⟩
  | cons x xs ih =>
    obtain ⟨hx, htail⟩ := forall_mem_cons.mp hxs
    obtain ⟨hnex, hnes⟩ := pairwise_cons.mp hne
    obtain ⟨ys, hys, hperm, hasc⟩ := ih htail hnes
    obtain ⟨zs, hzs, hpermz, hascz⟩ := insertSorted_spec hs hcoh hx
      (fun y hy => htail y (hperm.mem_iff.mp hy)) (fun y hy => hnex y (hperm.mem_iff.mp hy)) hasc
    exact ⟨zs, by simp [sorted, hys, hzs], hpermz.trans (hperm.cons x), hascz⟩

omit hne in
theorem Ascends.forall₂ (hys : ∀ y ∈ ys, y ∈ s) (hascx : Ascends cmp xs) (hascy : Ascends cmp ys)
    (hleft : ∀ x ∈ xs, ∃ y ∈ ys, cmp x y = some .eq) (hright : ∀ y ∈ ys, ∃ x ∈ xs, cmp x y = some .eq) :
    List.Forall₂ (fun x y => cmp x y = some .eq) xs ys := by
  induction xs generalizing ys with
  | nil => cases ys with
    | nil => exact .nil
    | cons y ys =>
      obtain ⟨x, hx, -⟩ := hright y mem_cons_self
      cases hx
  | cons x xs ih => cases ys with
    | nil =>
      obtain ⟨y, hy, -⟩ := hleft x mem_cons_self
      cases hy
    | cons y ys =>
      obtain ⟨hx, hxs⟩ := forall_mem_cons.mp hxs
      obtain ⟨hy, hys⟩ := forall_mem_cons.mp hys
      obtain ⟨hxlt, hascx⟩ := pairwise_cons.mp hascx
      obtain ⟨hylt, hascy⟩ := pairwise_cons.mp hascy
      -- the least element of each list is below whatever the other has
      have hnot : cmp x y ≠ some .lt := by
        intro hlt
        obtain ⟨x', hx', heq⟩ := hright y mem_cons_self
        obtain rfl | hx' := mem_cons.mp hx'
        · rw [hlt] at heq
          cases heq
        · obtain ⟨y', hy', hxy'⟩ := hleft x mem_cons_self
          obtain rfl | hy' := mem_cons.mp hy'
          · rw [hlt] at hxy'
            cases hxy'
          · have := (hcoh x).trans (hs x hx y' (hys y' hy')) hlt (hylt y' hy')
            rw [hxy'] at this
            cases this
      have hnot' : cmp x y ≠ some .gt := by
        intro hgt
        have hlt := (hcoh x).lt_iff_gt.mpr hgt
        obtain ⟨x', hx', heq⟩ := hright y mem_cons_self
        obtain rfl | hx' := mem_cons.mp hx'
        · rw [hgt] at heq
          cases heq
        · have := (hcoh y).trans (hs y hy x' (hxs x' hx')) hlt (hxlt x' hx')
          rw [(hcoh x').symm heq] at this
          cases this
      have heq : cmp x y = some .eq := by
        obtain ⟨o, ho⟩ := hs.exists hx hy
        cases o with
        | lt => exact absurd ho hnot
        | eq => exact ho
        | gt => exact absurd ho hnot'
      refine .cons heq (ih hxs hys hascx hascy ?_ ?_)
      · intro x' hx'
        obtain ⟨y', hy', hxy'⟩ := hleft x' (mem_cons_of_mem _ hx')
        obtain rfl | hy' := mem_cons.mp hy'
        · have := (hcoh x).eq_right (hs x hx x' (hxs x' hx')) heq ((hcoh x').symm hxy')
          rw [hxlt x' hx'] at this
          cases this
        · exact ⟨y', hy', hxy'⟩
      · intro y' hy'
        obtain ⟨x', hx', hxy'⟩ := hright y' (mem_cons_of_mem _ hy')
        obtain rfl | hx' := mem_cons.mp hx'
        · have := (hcoh y).eq_left (hs y hy y' (hys y' hy')) ((hcoh x').symm heq) hxy'
          rw [hylt y' hy'] at this
          cases this
        · exact ⟨x', hx', hxy'⟩

theorem exists_of_length_eq (hlength : xs.length = ys.length)
    (hleft : ∀ x ∈ xs, ∃ y ∈ ys, cmp x y = some .eq) : ∀ y ∈ ys, ∃ x ∈ xs, cmp x y = some .eq := by
  induction xs generalizing ys with
  | nil =>
    rw [eq_nil_of_length_eq_zero hlength.symm]
    intro y hy
    cases hy
  | cons x xs ih =>
    obtain ⟨hx, hxs⟩ := forall_mem_cons.mp hxs
    obtain ⟨hnex, hne⟩ := pairwise_cons.mp hne
    obtain ⟨⟨y, hy, hxy⟩, hleft⟩ := forall_mem_cons.mp hleft
    obtain ⟨before, behind, rfl⟩ := append_of_mem hy
    -- the partner of the first element is of no use to the others
    have hothers : ∀ x' ∈ xs, ∃ y' ∈ before ++ behind, cmp x' y' = some .eq := by
      intro x' hx'
      obtain ⟨y', hy', hxy'⟩ := hleft x' hx'
      by_cases hsame : y' = y
      · subst hsame
        exact absurd ((hcoh x).eq_right (hs x hx x' (hxs x' hx')) hxy ((hcoh x').symm hxy')) (hnex x' hx')
      · refine ⟨y', ?_, hxy'⟩
        simp only [mem_append, mem_cons, hsame, false_or] at hy'
        exact mem_append.mpr hy'
    have hrest := ih hxs hne (by simp at hlength ⊢; omega) hothers
    intro z hz
    obtain hz | rfl | hz : z ∈ before ∨ z = y ∨ z ∈ behind := by simpa using hz
    · obtain ⟨x', hx', h⟩ := hrest z (mem_append_left _ hz)
      exact ⟨x', mem_cons_of_mem _ hx', h⟩
    · exact ⟨x, mem_cons_self, hxy⟩
    · obtain ⟨x', hx', h⟩ := hrest z (mem_append_right _ hz)
      exact ⟨x', mem_cons_of_mem _ hx', h⟩

end Sorting

end NestedTuple
