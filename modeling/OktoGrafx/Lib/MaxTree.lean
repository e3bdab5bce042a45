import Mathlib.Order.Lattice
import Mathlib.Logic.Function.Basic
import Mathlib.Tactic.Linarith
import Mathlib.Tactic.Ring

/-! Max trees: the root is node 1, the children of node `n` are nodes `2 * n` and `2 * n + 1`, and every
node below `top` holds the greater of its children. The nodes from `top` on are the leaves. -/

namespace MaxTree

variable {α : Type*} [LinearOrder α] {t : ℕ → α} {bound : α} {top n : ℕ}

def raise (t : ℕ → α) (n : ℕ) : ℕ → α := Function.update t n (max (t (2 * n)) (t (2 * n + 1)))

def raiseAll : ℕ → (ℕ → α) → ℕ → α
  | 0, t => t
  | n + 1, t => raiseAll n (raise t (n + 1))

def climb (n : ℕ) (t : ℕ → α) : ℕ → α := if n = 0 then t else climb (n / 2) (raise t n)

def descend (t : ℕ → α) (top : ℕ) (bound : α) : ℕ → ℕ → ℕ
  | 0, n => n
  | level + 1, n =>
    if n < top then descend t top bound level (if bound ≤ t (2 * n) then 2 * n else 2 * n + 1) else n

def Raised (top : ℕ) (open_ : ℕ → Prop) (t : ℕ → α) : Prop :=
  ∀ m, 0 < m → m < top → ¬ open_ m → t m = max (t (2 * m)) (t (2 * m + 1))

theorem Raised.raise {open_ : ℕ → Prop} (h : Raised top (fun m => open_ m ∨ m = n) t) :
    Raised top (fun m => open_ m ∨ m = n / 2) (raise t n) := by
  intro m hm htop hopen
  rw [not_or] at hopen
  have hleft : 2 * m ≠ n := by omega
  have hright : 2 * m + 1 ≠ n := by omega
  simp only [MaxTree.raise, Function.update_apply, if_neg hleft, if_neg hright]
  split
  next heq => rw [heq]
  next hne => exact h m hm htop (not_or.mpr ⟨hopen.1, hne⟩)

theorem raiseAll_spec (hn : n < top) (h : Raised top (fun m => m ≤ n) t) :
    Raised top (fun _ => False) (raiseAll n t) ∧ ∀ m, top ≤ m → raiseAll n t m = t m := by
  -- The nodes up to `n` are open; the last of them is raised first.
  induction n generalizing t with
  | zero => exact ⟨fun m hm htop _ => h m hm htop (not_le.mpr hm), fun _ _ => rfl⟩
  | succ n ih =>
    have hraised : Raised top (fun m => m ≤ n ∨ m = n + 1) t := fun m hm htop hopen => h m hm htop (by omega)
    obtain ⟨hall, hkept⟩ := ih (by omega) fun m hm htop hopen => hraised.raise m hm htop (by omega)
    refine ⟨hall, fun m hm => ?_⟩
    rw [raiseAll, hkept m hm, raise, Function.update_of_ne (by omega)]

theorem climb_spec (hn : n < top) (h : Raised top (fun m => m = n) t) :
    Raised top (fun _ => False) (climb n t) ∧ ∀ m, top ≤ m → climb n t m = t m := by
  -- One node is open at a time, and closing it opens its parent.
  fun_induction climb n t with
  | case1 t => exact ⟨fun m hm htop _ => h m hm htop hm.ne', fun _ _ => rfl⟩
  | case2 n t hpos ih =>
    have hraised : Raised top (fun m => False ∨ m = n) t := fun m hm htop hopen => h m hm htop (by simpa using hopen)
    obtain ⟨hall, hkept⟩ := ih (by omega) fun m hm htop hopen => hraised.raise m hm htop (by simpa using hopen)
    refine ⟨hall, fun m hm => ?_⟩
    rw [hkept m hm, raise, Function.update_of_ne (by omega)]

/-! ## Searching

`level` levels above the leaves, the leaves below node `n` are those from `n * 2 ^ level` to `(n + 1) * 2 ^ level`. -/

section
variable (h : Raised top (fun _ => False) t)
include h

theorem Raised.below (level : ℕ) (hn : (n + 1) * 2 ^ level ≤ 2 * top) (hpos : 0 < n) {m : ℕ} (hm : n * 2 ^ level ≤ m)
    (hlt : m < (n + 1) * 2 ^ level) : t m ≤ t n := by
  induction level generalizing n with
  | zero =>
    obtain rfl : m = n := by omega
    exact le_rfl
  | succ level ih =>
    rw [pow_succ] at hn hm hlt
    have hlevel := Nat.two_pow_pos level
    rw [h n hpos (by nlinarith) id]
    rcases lt_or_ge m ((2 * n + 1) * 2 ^ level) with hleft | hright
    · exact le_max_of_le_left (ih (n := 2 * n) (by nlinarith) (by omega) (by linarith) hleft)
    · exact le_max_of_le_right (ih (n := 2 * n + 1) (by linarith) (by omega) hright (by linarith))

theorem Raised.descend (level : ℕ) (hn : (n + 1) * 2 ^ level ≤ 2 * top) (hpos : 0 < n) (hle : bound ≤ t n) :
    n * 2 ^ level ≤ descend t top bound level n ∧ descend t top bound level n < (n + 1) * 2 ^ level ∧
      bound ≤ t (descend t top bound level n) ∧ ∀ m, n * 2 ^ level ≤ m → m < descend t top bound level n → t m < bound := by
  induction level generalizing n with
  | zero =>
    rw [pow_zero, mul_one, mul_one, MaxTree.descend]
    exact ⟨le_rfl, Nat.lt_succ_self n, hle, fun m hm hlt => absurd hlt (not_lt.mpr hm)⟩
  | succ level ih =>
    rw [pow_succ] at hn ⊢
    have hlevel := Nat.two_pow_pos level
    have hinner : n < top := by nlinarith
    rw [h n hpos hinner id, le_max_iff] at hle
    rw [MaxTree.descend, if_pos hinner]
    by_cases hleft : bound ≤ t (2 * n)
    · rw [if_pos hleft]
      obtain ⟨hge, hlt, hreach, hfirst⟩ := ih (n := 2 * n) (by nlinarith) (by omega) hleft
      exact ⟨by linarith, by nlinarith, hreach, fun m hm => hfirst m (by linarith)⟩
    · rw [if_neg hleft]
      obtain ⟨hge, hlt, hreach, hfirst⟩ := ih (n := 2 * n + 1) (by linarith) (by omega) (hle.resolve_left hleft)
      refine ⟨by linarith, by linarith, hreach, fun m hm hbefore => ?_⟩
      rcases lt_or_ge m ((2 * n + 1) * 2 ^ level) with hsmall | hlarge
      · exact lt_of_le_of_lt (h.below level (by nlinarith) (by omega) (by linarith) hsmall) (not_le.mp hleft)
      · exact hfirst m hlarge hbefore

end

end MaxTree
