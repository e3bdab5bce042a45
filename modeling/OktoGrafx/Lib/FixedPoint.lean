import Mathlib

/-! Fixed-point numbers, an integer over a power of a base, and rounding to an integer half to even. -/

namespace FixedPoint

/-! ## One number at several scales -/

variable {b : ℕ} {q : ℚ} {c c' : ℤ}

theorem eq_mul_pow (hb : 0 < b) {s s' : ℕ} (hs : s ≤ s') (heq : (c : ℚ) / b ^ s = c' / b ^ s') : c' = c * b ^ (s' - s) := by
  have hsplit : (b : ℚ) ^ s' = b ^ (s' - s) * b ^ s := by rw [← pow_add, Nat.sub_add_cancel hs]
  have hscaled : (c' : ℚ) = c * b ^ (s' - s) := by
    rw [hsplit] at heq
    field_simp at heq
    exact heq.symm
  exact_mod_cast hscaled

theorem shortest (hb : 0 < b) {s s' : ℕ} (hc : s = 0 ∨ ¬ (b : ℤ) ∣ c) (heq : (c : ℚ) / b ^ s = c' / b ^ s') : s ≤ s' ∧ c.natAbs ≤ c'.natAbs := by
  have hs : s ≤ s' := by
    rcases hc with rfl | hc
    · exact Nat.zero_le s'
    · by_contra hlt
      apply hc
      rw [eq_mul_pow hb (not_le.mp hlt).le heq.symm]
      exact (dvd_pow_self _ (Nat.sub_ne_zero_of_lt (not_le.mp hlt))).mul_left _
  refine ⟨hs, ?_⟩
  rw [eq_mul_pow hb hs heq, Int.natAbs_mul, Int.natAbs_pow, Int.natAbs_natCast]
  exact Nat.le_mul_of_pos_right _ (pow_pos hb _)

theorem div_shortened (hb : 0 < b) (hc : (b : ℤ) ∣ c) (s : ℕ) : ((c / b : ℤ) : ℚ) / b ^ s = c / b ^ (s + 1) := by
  have hb' : (b : ℚ) ≠ 0 := by exact_mod_cast hb.ne'
  rw [Int.cast_div hc (by exact_mod_cast hb'), Int.cast_natCast, pow_succ']
  field_simp

/-! ## Half to even -/

def halfEven (q : ℚ) : ℤ :=
  if 2 * Int.fract q < 1 then ⌊q⌋
  else if 1 < 2 * Int.fract q then ⌊q⌋ + 1
  else if Even ⌊q⌋ then ⌊q⌋ else ⌊q⌋ + 1

def Nearest (q : ℚ) (c : ℤ) : Prop := 2 * |q - c| ≤ 1 ∧ (2 * |q - c| = 1 → Even c)

theorem nearest_halfEven (q : ℚ) : Nearest q (halfEven q) := by
  have hnonneg := Int.fract_nonneg q
  have hlt := Int.fract_lt_one q
  have hlow : |q - ⌊q⌋| = Int.fract q := by rw [Int.self_sub_floor, abs_of_nonneg hnonneg]
  have hhigh : |q - (⌊q⌋ + 1 : ℤ)| = 1 - Int.fract q := by
    push_cast
    rw [← sub_sub, Int.self_sub_floor, abs_sub_comm, abs_of_nonneg (by linarith)]
  unfold Nearest halfEven
  split
  next hbelow => rw [hlow]; exact ⟨hbelow.le, fun h => absurd h hbelow.ne⟩
  next hbelow =>
    split
    next habove => rw [hhigh]; constructor <;> intros <;> linarith
    next habove =>
      have hhalf : 2 * Int.fract q = 1 := le_antisymm (not_lt.mp habove) (not_lt.mp hbelow)
      split
      next heven => rw [hlow]; exact ⟨hhalf.le, fun _ => heven⟩
      next hodd =>
        exact ⟨by linarith, fun _ => (Int.not_even_iff_odd.mp hodd).add_one⟩

theorem Nearest.unique (h : Nearest q c) (h' : Nearest q c') : c = c' := by
  wlog hlt : c < c' generalizing c c'
  · rcases eq_or_lt_of_le (not_lt.mp hlt) with heq | hgt
    · exact heq.symm
    · exact (this h' h hgt).symm
  have hstep : (c : ℚ) + 1 ≤ c' := by exact_mod_cast hlt
  have hleft : 2 * (q - c) ≤ 1 := (mul_le_mul_of_nonneg_left (le_abs_self _) two_pos.le).trans h.1
  have hright : 2 * (c' - q) ≤ 1 := by
    have := (mul_le_mul_of_nonneg_left (neg_le_abs (q - c')) two_pos.le).trans h'.1
    linarith
  -- both are half away, so they are neighbours, and neighbours are not both even
  have hnext : (c' : ℚ) = c + 1 := by linarith
  have heven : Even c := h.2 (by rw [abs_of_nonneg] <;> linarith)
  have heven' : Even c' := h'.2 (by rw [abs_of_nonpos] <;> linarith)
  rw [show c' = c + 1 by exact_mod_cast hnext, Int.even_add_one] at heven'
  exact absurd heven heven'

theorem Nearest.halfEven_eq (h : Nearest q c) : halfEven q = c :=
  (nearest_halfEven q).unique h

theorem Nearest.neg (h : Nearest q c) : Nearest (-q) (-c) := by
  unfold Nearest
  rw [Int.cast_neg, neg_sub_neg, abs_sub_comm, even_neg]
  exact h

theorem nearest_div {n d k r : ℕ} (hd : 0 < d) (hn : n = d * k + r) (hr : r < d) :
    Nearest (n / d) ((k + if d < 2 * r ∨ 2 * r = d ∧ k % 2 = 1 then 1 else 0 : ℕ) : ℤ) := by
  have hd' : (0 : ℚ) < d := by exact_mod_cast hd
  have hfloor : (n : ℚ) / d - k = r / d := by
    rw [hn]
    push_cast
    field_simp
    ring
  have hlow : 2 * |(n : ℚ) / d - (k : ℤ)| = 2 * r / d := by
    rw [Int.cast_natCast, hfloor, abs_of_nonneg (by positivity), mul_div_assoc]
  have hhigh : 2 * |(n : ℚ) / d - ((k + 1 : ℕ) : ℤ)| = 2 * (d - r) / d := by
    have hrd : (r : ℚ) / d ≤ 1 := by
      rw [div_le_one hd']
      exact_mod_cast hr.le
    push_cast
    rw [← sub_sub, hfloor, abs_sub_comm, abs_of_nonneg (by linarith), mul_div_assoc, sub_div, div_self hd'.ne']
  unfold Nearest
  split
  next hup =>
    rw [hhigh, div_le_one hd', div_eq_one_iff_eq hd'.ne']
    constructor
    · have : (d : ℚ) ≤ 2 * r := by exact_mod_cast (by omega : d ≤ 2 * r)
      linarith
    · intro htie
      have : (d : ℚ) = (2 * r : ℕ) := by push_cast; linarith
      have : d = 2 * r := by exact_mod_cast this
      exact_mod_cast Nat.even_iff.mpr (by omega : (k + 1) % 2 = 0)
  next hdown =>
    rw [add_zero, hlow, div_le_one hd', div_eq_one_iff_eq hd'.ne']
    constructor
    · exact_mod_cast (by omega : 2 * r ≤ d)
    · intro htie
      have : 2 * r = d := by exact_mod_cast htie
      exact_mod_cast Nat.even_iff.mpr (by omega : k % 2 = 0)

theorem le_natAbs_halfEven {k : ℕ} (h : (k : ℚ) ≤ |q|) : k ≤ (halfEven q).natAbs := by
  have hnear := (nearest_halfEven q).1
  by_contra hlt
  have hbelow : (|halfEven q| : ℚ) + 1 ≤ k := by
    have : (halfEven q).natAbs + 1 ≤ k := not_le.mp hlt
    rw [← Int.cast_abs, Int.abs_eq_natAbs]
    exact_mod_cast this
  have htriangle := abs_sub_abs_le_abs_sub q (halfEven q)
  linarith

end FixedPoint
