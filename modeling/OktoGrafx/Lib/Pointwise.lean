import Mathlib

/-! Lists related element by element; a partial map over a list is one case. -/

namespace Pointwise

open List
variable {α β γ : Type*} {f : α → Option β} {xs : List α} {ys : List γ} {x : α} {P : α → γ → Prop}

theorem mapM_eq_some_iff {ys : List β} : xs.mapM f = some ys ↔ List.Forall₂ (fun x y => f x = some y) xs ys := by
  constructor
  · intro h
    induction xs generalizing ys with
    | nil =>
      simp only [mapM_nil, Option.pure_def, Option.some.injEq] at h
      exact h ▸ .nil
    | cons x xs ih =>
      simp only [mapM_cons, Option.bind_eq_bind, Option.pure_def, Option.bind_eq_some_iff,
        Option.some.injEq] at h
      obtain ⟨y, hy, ys', hys, rfl⟩ := h
      exact .cons hy (ih hys)
  · intro h
    induction h with
    | nil => rfl
    | cons hx _ ih => simp [mapM_cons, hx, ih]

theorem exists_forall₂ (h : ∀ x ∈ xs, ∃ y, P x y) : ∃ ys, List.Forall₂ P xs ys := by
  induction xs with
  | nil => exact ⟨[], .nil⟩
  | cons x xs ih =>
    obtain ⟨y, hy⟩ := h x mem_cons_self
    obtain ⟨ys, hys⟩ := ih (forall_mem_cons.mp h).2
    exact ⟨y :: ys, .cons hy hys⟩

variable (h : List.Forall₂ P xs ys)
include h

theorem exists_mem_of_mem (hx : x ∈ xs) : ∃ y ∈ ys, P x y := by
  induction h with
  | nil => cases hx
  | cons hxy _ ih =>
    rcases mem_cons.mp hx with rfl | hx
    · exact ⟨_, mem_cons_self, hxy⟩
    · obtain ⟨y, hy, hxy⟩ := ih hx
      exact ⟨y, mem_cons_of_mem _ hy, hxy⟩

theorem exists_of_mem (hx : x ∈ xs) : ∃ y, P x y := (exists_mem_of_mem h hx).imp fun _ => And.right

theorem exists_of_mem' {y : γ} (hy : y ∈ ys) : ∃ x ∈ xs, P x y := exists_mem_of_mem h.flip hy

theorem exists_getElem? {i : ℕ} (hx : xs[i]? = some x) : ∃ y, ys[i]? = some y ∧ P x y := by
  induction h generalizing i with
  | nil => simp at hx
  | cons hxy _ ih =>
    cases i with
    | zero =>
      cases hx
      exact ⟨_, rfl, hxy⟩
    | succ i => exact ih hx

omit h in
theorem forall₂_of_common {δ : Type*} {zs : List δ} {Q : α → δ → Prop} {R : γ → δ → Prop} (hy : List.Forall₂ P xs ys) (hz : List.Forall₂ Q xs zs)
    (h : ∀ x ∈ xs, ∀ y z, P x y → Q x z → R y z) : List.Forall₂ R ys zs := by
  induction hy generalizing zs with
  | nil => cases hz; exact .nil
  | cons hxy _ ih =>
    cases hz with
    | cons hxz hrest =>
      exact .cons (h _ mem_cons_self _ _ hxy hxz) (ih hrest (forall_mem_cons.mp h).2)

variable {Q : α → γ → Prop}

theorem forall₂_imp (himp : ∀ x ∈ xs, ∀ y ∈ ys, P x y → Q x y) : List.Forall₂ Q xs ys := by
  induction h with
  | nil => exact .nil
  | cons hxy _ ih =>
    exact .cons (himp _ mem_cons_self _ mem_cons_self hxy)
      (ih fun x hx y hy => himp x (mem_cons_of_mem _ hx) y (mem_cons_of_mem _ hy))

omit h in
theorem forall₂_congr (hiff : ∀ x ∈ xs, ∀ y ∈ ys, P x y ↔ Q x y) : List.Forall₂ P xs ys ↔ List.Forall₂ Q xs ys :=
  ⟨fun h => forall₂_imp h fun x hx y hy => (hiff x hx y hy).mp, fun h => forall₂_imp h fun x hx y hy => (hiff x hx y hy).mpr⟩

end Pointwise
