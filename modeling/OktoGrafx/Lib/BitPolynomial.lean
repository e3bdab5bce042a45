import Mathlib.Algebra.CharP.Two
import Mathlib.Algebra.Field.ZMod
import Mathlib.Algebra.Polynomial.Div
import Mathlib.Algebra.Polynomial.FieldDivision
import Mathlib.Data.Nat.Bitwise
import Mathlib.RingTheory.PrincipalIdealDomain

/-! Bits as coefficients of a polynomial over the field of two elements, the highest power first. -/

namespace Grafx.BitPolynomial

open List Polynomial

variable {xs ys : List Bool} {m n v w : ℕ}

def bitsOf (n v : ℕ) : List Bool := (range n).map v.testBit

@[simp] theorem bitsOf_length : (bitsOf n v).length = n := by rw [bitsOf, length_map, length_range]

theorem bitsOf_succ : bitsOf (n + 1) v = bitsOf n v ++ [v.testBit n] := by
  rw [bitsOf, range_succ, map_append]
  rfl

theorem bitsOf_add : bitsOf (m + n) v = bitsOf m v ++ bitsOf n (v >>> m) := by
  rw [bitsOf, range_add, map_append, map_map, bitsOf, bitsOf]
  congr 1
  apply map_congr_left
  intro i _
  rw [Function.comp_apply, Nat.testBit_shiftRight]

noncomputable section

def ofBits (bits : List Bool) : (ZMod 2)[X] := bits.foldl (fun p b => p * X + if b then 1 else 0) 0

theorem ofBits_concat (b : Bool) : ofBits (xs ++ [b]) = ofBits xs * X + if b then 1 else 0 := by
  rw [ofBits, foldl_append, foldl_cons, foldl_nil, ofBits]

theorem ofBits_append : ofBits (xs ++ ys) = ofBits xs * X ^ ys.length + ofBits ys := by
  induction ys using reverseRecOn with
  | nil => simp [ofBits]
  | append_singleton ys b ih =>
    rw [← append_assoc, ofBits_concat, ofBits_concat, ih, length_append, length_singleton]
    ring

theorem ofBits_degree : (ofBits xs).degree < xs.length := by
  induction xs using reverseRecOn with
  | nil => exact degree_zero.trans_lt (WithBot.bot_lt_coe 0)
  | append_singleton xs b ih =>
    have hlast : (if b then 1 else 0 : (ZMod 2)[X]).degree ≤ 0 := by
      split
      · exact degree_one_le
      · exact degree_zero.le.trans bot_le
    rw [ofBits_concat, length_append, length_singleton]
    refine (degree_add_le _ _).trans_lt (max_lt ?_ (hlast.trans_lt (by exact_mod_cast Nat.succ_pos _)))
    by_cases hzero : ofBits xs = 0
    · rw [hzero, zero_mul, degree_zero]
      exact WithBot.bot_lt_coe _
    · rw [degree_mul, degree_X, degree_eq_natDegree hzero] at *
      exact_mod_cast Nat.succ_lt_succ (by exact_mod_cast ih)

theorem ofBits_injective (hlength : xs.length = ys.length) (h : ofBits xs = ofBits ys) : xs = ys := by
  induction xs using reverseRecOn generalizing ys with
  | nil => exact (length_eq_zero_iff.mp hlength.symm).symm
  | append_singleton xs b ih =>
    obtain ⟨ys, c, rfl⟩ : ∃ ys' c, ys = ys' ++ [c] := by
      rcases eq_nil_or_concat ys with rfl | ⟨ys', c, rfl⟩
      · simp at hlength
      · exact ⟨ys', c, concat_eq_append⟩
    rw [ofBits_concat, ofBits_concat] at h
    have hlast : b = c := by
      have hcoeff := congrArg (·.coeff 0) h
      cases b <;> cases c <;> simp at hcoeff ⊢
    rw [hlast] at h ⊢
    rw [ih (by simpa using hlength) (mul_right_cancel₀ X_ne_zero (add_right_cancel h))]

theorem ofBits_zero : ofBits (bitsOf n 0) = 0 := by
  induction n with
  | zero => rfl
  | succ n ih => simp [bitsOf_succ, ofBits_concat, ih]

theorem ofBits_xor : ofBits (bitsOf n (v ^^^ w)) = ofBits (bitsOf n v) + ofBits (bitsOf n w) := by
  induction n with
  | zero => exact (add_zero 0).symm
  | succ n ih =>
    have hbit : (if (v ^^^ w).testBit n then 1 else 0 : (ZMod 2)[X]) = (if v.testBit n then 1 else 0) + if w.testBit n then 1 else 0 := by
      rw [Nat.testBit_xor]
      cases v.testBit n <;> cases w.testBit n <;> simp [CharTwo.add_self_eq_zero]
    rw [bitsOf_succ, bitsOf_succ, bitsOf_succ, ofBits_concat, ofBits_concat, ofBits_concat, ih, hbit]
    ring

theorem ofBits_shift (h : v < 2 ^ (m + n)) :
    X ^ m * ofBits (bitsOf (m + n) v) = X ^ (m + n) * ofBits (bitsOf m v) + ofBits (bitsOf (m + n) (v >>> m)) := by
  have hzero : v >>> m >>> n = 0 := by rw [← Nat.shiftRight_add, Nat.shiftRight_eq_div_pow, Nat.div_eq_of_lt h]
  have hmoved : ofBits (bitsOf (m + n) (v >>> m)) = ofBits (bitsOf n (v >>> m)) * X ^ m := by
    rw [add_comm m n, bitsOf_add, ofBits_append, hzero, ofBits_zero, add_zero, bitsOf_length]
  rw [bitsOf_add, ofBits_append, hmoved, bitsOf_length]
  ring

theorem burst_not_dvd {g : (ZMod 2)[X]} (hg : ¬ X ∣ g) {before burst burst' after : List Bool} (hlength : burst.length = burst'.length)
    (hdegree : burst.length ≤ g.degree) (hne : burst ≠ burst') (k : ℕ) :
    ¬ g ∣ X ^ k * (ofBits (before ++ (burst ++ after)) - ofBits (before ++ (burst' ++ after))) := by
  intro hdvd
  have hsplit : X ^ k * (ofBits (before ++ (burst ++ after)) - ofBits (before ++ (burst' ++ after))) =
      X ^ (k + after.length) * (ofBits burst - ofBits burst') := by
    simp only [ofBits_append, length_append, hlength]
    ring
  rw [hsplit] at hdvd
  have hirreducible : Irreducible (X : (ZMod 2)[X]) := irreducible_X
  have hcoprime := hirreducible.coprime_iff_not_dvd.mpr hg
  have hsmall : (ofBits burst - ofBits burst').degree < g.degree := by
    refine (degree_sub_le _ _).trans_lt (max_lt ?_ ?_)
    · exact ofBits_degree.trans_le hdegree
    · exact ofBits_degree.trans_le (hlength ▸ hdegree)
  have hzero := eq_zero_of_dvd_of_degree_lt (hcoprime.symm.pow_right.dvd_of_dvd_mul_left hdvd) hsmall
  exact hne (ofBits_injective hlength (sub_eq_zero.mp hzero))

end

end Grafx.BitPolynomial
