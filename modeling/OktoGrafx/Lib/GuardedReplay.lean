import Mathlib

/-! Replaying stamped values into one cell. A value is installed unless the cell is in use and
already at least as new; the results below say when only the last value of a replay matters. -/

namespace GuardedReplay

open List
variable {α : Type*}

structure Guard (α : Type*) where
  free : α → Bool
  stamp : α → ℕ

namespace Guard
variable (g : Guard α) {xs : List α} {c x : α}

def install (c x : α) : α := if !g.free c && decide (g.stamp x ≤ g.stamp c) then c else x

def replay (c : α) (xs : List α) : α := xs.foldl g.install c

def Open (c : α) (n : ℕ) : Prop := g.free c = true ∨ g.stamp c < n

def Ascending (xs : List α) : Prop := xs.Pairwise fun x y => g.stamp x < g.stamp y

variable {g}

theorem install_of_open (h : g.Open c (g.stamp x)) : g.install c x = x := by
  rcases h with h | h
  · simp [install, h]
  · simp [install, not_le.mpr h]

theorem install_of_not_open (h : ¬ g.Open c (g.stamp x)) : g.install c x = c := by
  have hx : g.stamp x ≤ g.stamp c := not_lt.mp fun hlt => h (.inr hlt)
  have hf : g.free c = false := Bool.eq_false_iff.mpr fun hf => h (.inl hf)
  simp [install, hf, hx]

@[simp] theorem replay_nil (c : α) : g.replay c [] = c := rfl

@[simp] theorem replay_cons (c x : α) (xs : List α) : g.replay c (x :: xs) = g.replay (g.install c x) xs := rfl

theorem install_eq_or (c x : α) : g.install c x = c ∨ g.install c x = x := by
  rw [install]
  split_ifs
  · exact .inl rfl
  · exact .inr rfl

variable (hxs : (x :: xs).IsChain fun a b => g.stamp a < g.stamp b ∨ a = b)
include hxs

theorem stamp_lt_getLast_or_eq : g.stamp x < g.stamp ((x :: xs).getLast (cons_ne_nil x xs)) ∨ x = (x :: xs).getLast (cons_ne_nil x xs) := by
  induction xs generalizing x with
  | nil => exact .inr rfl
  | cons y ys ih =>
    obtain ⟨hxy, hys⟩ := isChain_cons_cons.mp hxs
    rcases hxy with hxy | rfl
    · exact .inl ((ih hys).elim hxy.trans fun h => h ▸ hxy)
    · exact ih hys

/-- If stamps never regress and equal stamps carry equal values, only the last value matters. -/
theorem replay_eq_install_last : g.replay c (x :: xs) = g.install c ((x :: xs).getLast (cons_ne_nil x xs)) := by
  induction xs generalizing c x with
  | nil => rfl
  | cons y ys ih =>
    have hx := stamp_lt_getLast_or_eq hxs
    rw [replay_cons, ih (isChain_cons_cons.mp hxs).2]
    rw [getLast_cons (cons_ne_nil y ys)] at hx ⊢
    generalize (y :: ys).getLast (cons_ne_nil y ys) = l at hx
    by_cases hc : g.Open c (g.stamp x)
    · rw [install_of_open hc]
      rcases hx with hx | rfl
      · rw [install_of_open (.inr hx), install_of_open (hc.imp_right fun h => h.trans hx)]
      · rw [install_of_open hc]
        exact (install_eq_or x x).elim id id
    · rw [install_of_not_open hc]

end Guard
end GuardedReplay
