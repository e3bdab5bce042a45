import Mathlib

/-! A list cut into pages of one size. -/

namespace Paged

open List
variable {α : Type*} {size : ℕ} {xs p : List α} {j k : ℕ}

def page (size : ℕ) (xs : List α) (k : ℕ) : List α := (xs.drop (k * size)).take size

def setPage (size : ℕ) (xs : List α) (k : ℕ) (p : List α) : List α := xs.take (k * size) ++ (p ++ xs.drop ((k + 1) * size))

variable (hk : (k + 1) * size ≤ xs.length)
include hk

variable (hp : p.length = size)
include hp

theorem length_setPage : (setPage size xs k p).length = xs.length := by
  have hstart : k * size + size = (k + 1) * size := (Nat.succ_mul k size).symm
  rw [setPage, length_append, length_append, length_take, length_drop, hp]
  omega

omit hp in
theorem length_before : (xs.take (k * size)).length = k * size := by
  rw [length_take]
  exact min_eq_left ((Nat.mul_le_mul_right size (Nat.le_succ k)).trans hk)

theorem page_setPage_self : page size (setPage size xs k p) k = p := by
  rw [page, setPage, drop_left' (length_before hk), take_left' hp]

theorem page_setPage_ne (h : j ≠ k) : page size (setPage size xs k p) j = page size xs j := by
  have hnext : k * size + size = (k + 1) * size := (Nat.succ_mul k size).symm
  have hafter : j * size + size = (j + 1) * size := (Nat.succ_mul j size).symm
  apply ext_getElem?
  intro i
  rw [page, page, getElem?_take, getElem?_take]
  by_cases hi : i < size
  · rw [if_pos hi, if_pos hi, getElem?_drop, getElem?_drop, setPage, getElem?_append, length_before hk]
    rcases Nat.lt_or_gt_of_ne h with hlt | hgt
    · have hle : (j + 1) * size ≤ k * size := Nat.mul_le_mul_right size hlt
      rw [if_pos (by omega), getElem?_take, if_pos (by omega)]
    · have hle : (k + 1) * size ≤ j * size := Nat.mul_le_mul_right size hgt
      rw [if_neg (by omega), getElem?_append, if_neg (by omega), getElem?_drop, hp]
      congr 1
      omega
  · rw [if_neg hi, if_neg hi]

theorem setPage_setPage (q : List α) : setPage size (setPage size xs k p) k q = setPage size xs k q := by
  have hbefore := length_before hk
  have htake : (setPage size xs k p).take (k * size) = xs.take (k * size) := take_left' hbefore
  have hdrop : (setPage size xs k p).drop ((k + 1) * size) = xs.drop ((k + 1) * size) := by
    rw [setPage, ← append_assoc]
    apply drop_left'
    rw [length_append, hbefore, hp, Nat.succ_mul]
  rw [setPage, htake, hdrop, setPage]

end Paged
