import OktoGrafx.Query.Decimal

/-! Decimal quotients: one rounding, half to even, at the largest scale that fits. -/

namespace Grafx.Query

open FixedPoint
open DecimalValue (ratio)

variable {denominator : ℤ}

theorem rounded_eq (numerator : ℤ) (hd : denominator ≠ 0) : rounded numerator denominator .halfEven =
      let quotient := numerator.natAbs / denominator.natAbs
      let remainder := numerator.natAbs % denominator.natAbs
      .ok ((if decide (numerator < 0) ≠ decide (denominator < 0) then -1 else 1) *
        (quotient + if denominator.natAbs < 2 * remainder ∨ 2 * remainder = denominator.natAbs ∧ quotient % 2 = 1
          then 1 else 0 : ℕ)) := by
  unfold rounded
  rw [if_neg hd]
  by_cases hr : numerator.natAbs % denominator.natAbs = 0
  · simp [hr, Int.natAbs_eq_zero, hd, eq_comm]
  · simp [hr, RoundingMode.increments]

theorem rounded_halfEven (numerator : ℤ) (hd : denominator ≠ 0) :
    rounded numerator denominator .halfEven = .ok (halfEven (numerator / denominator)) := by
  have hpos : 0 < denominator.natAbs := Int.natAbs_pos.mpr hd
  have hnear := nearest_div hpos (Nat.div_add_mod numerator.natAbs denominator.natAbs).symm (Nat.mod_lt _ hpos)
  have hmagnitude : (numerator.natAbs : ℚ) / denominator.natAbs = |(numerator : ℚ) / denominator| := by
    rw [abs_div, Nat.cast_natAbs, Nat.cast_natAbs, Int.cast_abs, Int.cast_abs]
  rw [hmagnitude] at hnear
  rw [rounded_eq numerator hd]
  dsimp only
  congr 1
  apply (Nearest.halfEven_eq _).symm
  split
  next hsigns =>
    have hnonpos : (numerator : ℚ) / denominator ≤ 0 := by
      by_cases hn : numerator < 0
      · have : 0 ≤ denominator := by simpa [hn] using hsigns
        exact div_nonpos_of_nonpos_of_nonneg (by exact_mod_cast hn.le) (by exact_mod_cast this)
      · have : denominator < 0 := by simpa [hn] using hsigns
        exact div_nonpos_of_nonneg_of_nonpos (by exact_mod_cast not_lt.mp hn) (by exact_mod_cast this.le)
    rw [abs_of_nonpos hnonpos] at hnear
    rw [neg_one_mul, ← neg_neg ((numerator : ℚ) / denominator)]
    exact hnear.neg
  next hsigns =>
    have hnonneg : 0 ≤ (numerator : ℚ) / denominator := by
      by_cases hn : numerator < 0
      · have : denominator < 0 := by simpa [hn] using hsigns
        exact div_nonneg_of_nonpos (by exact_mod_cast hn.le) (by exact_mod_cast this.le)
      · have : 0 ≤ denominator := by simpa [hn] using hsigns
        exact div_nonneg (by exact_mod_cast not_lt.mp hn) (by exact_mod_cast this)
    rw [abs_of_nonneg hnonneg] at hnear
    rw [one_mul]
    exact hnear

/-! ## The largest scale -/

def FittingScales (q : ℚ) : Set ℕ :=
  {scale | scale ≤ maxPrecision ∧ (halfEven (q * 10 ^ scale)).natAbs < 10 ^ maxPrecision}

/-- A rational is answered by its rounding at the largest fitting scale, and refused when no scale fits. -/
def RoundedOnce (answer : Decimals DecimalValue) (q : ℚ) : Prop :=
  (∀ v, answer = .ok v → IsGreatest (FittingScales q) v.scale ∧ v.coefficient = halfEven (q * 10 ^ v.scale)) ∧
  ((∃ reason, answer = .error reason) ↔ FittingScales q = ∅)

theorem RoundedOnce.of_error {q : ℚ} (hnone : FittingScales q = ∅) (reason : DecimalReason) :
    RoundedOnce (.error reason) q :=
  ⟨nofun, fun _ => hnone, fun _ => ⟨reason, rfl⟩⟩

theorem quotientBelow_roundedOnce (numerator : ℤ) (hd : denominator ≠ 0) {bound : ℕ}
    (hbound : bound ≤ maxPrecision + 1) (habove : ∀ scale ∈ FittingScales (numerator / denominator), scale < bound) :
    RoundedOnce (quotientBelow numerator denominator bound) (numerator / denominator) := by
  induction bound with
  | zero =>
    apply RoundedOnce.of_error
    apply Set.eq_empty_of_forall_notMem
    intro scale hscale
    exact absurd (habove scale hscale) (Nat.not_lt_zero scale)
  | succ scale ih =>
    have hcoefficient : ((numerator * 10 ^ scale : ℤ) : ℚ) / denominator = numerator / denominator * 10 ^ scale := by
      push_cast
      exact mul_div_right_comm _ _ _
    rw [quotientBelow, rounded_halfEven _ hd, hcoefficient]
    show RoundedOnce (if _ then _ else _) _
    have hscale : scale ≤ maxPrecision := Nat.le_of_succ_le_succ hbound
    split
    next hfits =>
      obtain ⟨v, hmake, hc, -, hs⟩ := DecimalValue.make_ok hscale hfits
      rw [hmake]
      constructor
      · intro w hw
        cases hw
        rw [hc, hs]
        exact ⟨⟨⟨hscale, hfits⟩, fun other hother => Nat.lt_succ_iff.mp (habove other hother)⟩, rfl⟩
      · constructor
        · intro h
          exact (nomatch h.choose_spec)
        · intro hempty
          have : scale ∈ FittingScales (numerator / denominator) := ⟨hscale, hfits⟩
          rw [hempty] at this
          exact this.elim
    next hfits =>
      apply ih (Nat.le_of_succ_le hbound)
      intro other hother
      have hne : other ≠ scale := fun h => hfits (h ▸ hother.2)
      have := habove other hother
      omega

theorem fitting_add_digits_le {numerator : ℤ} {scale : ℕ} (h : scale ∈ FittingScales (numerator / denominator)) :
    scale + (Nat.digits 10 (numerator.natAbs / denominator.natAbs)).length ≤ maxPrecision := by
  obtain hzero | hintegral := Nat.eq_zero_or_pos (numerator.natAbs / denominator.natAbs)
  · rw [hzero, Nat.digits_zero]
    exact h.1
  have hdigits := Nat.base_pow_length_digits_le 10 _ (by decide) hintegral.ne'
  set integral := numerator.natAbs / denominator.natAbs with hdef
  by_contra hlarge
  have hquotient : (integral : ℚ) ≤ |(numerator : ℚ) / denominator| := by
    have : (integral : ℚ) ≤ (numerator.natAbs : ℚ) / denominator.natAbs := Nat.cast_div_le
    rwa [Nat.cast_natAbs, Nat.cast_natAbs, Int.cast_abs, Int.cast_abs, ← abs_div] at this
  have hscaled : ((integral * 10 ^ scale : ℕ) : ℚ) ≤ |(numerator : ℚ) / denominator * 10 ^ scale| := by
    rw [abs_mul, abs_of_pos (by positivity : (0 : ℚ) < 10 ^ scale)]
    push_cast
    exact mul_le_mul_of_nonneg_right hquotient (by positivity)
  have hlong : 10 ^ (maxPrecision + 1) ≤ 10 * (integral * 10 ^ scale) := by
    calc 10 ^ (maxPrecision + 1) ≤ 10 ^ ((Nat.digits 10 integral).length + scale) :=
          Nat.pow_le_pow_right (by decide) (by omega)
      _ = 10 ^ (Nat.digits 10 integral).length * 10 ^ scale := pow_add _ _ _
      _ ≤ 10 * integral * 10 ^ scale := Nat.mul_le_mul_right _ hdigits
      _ = 10 * (integral * 10 ^ scale) := mul_assoc ..
  have hfits := h.2
  have hrounded := le_natAbs_halfEven hscaled
  omega

theorem quotient_roundedOnce (numerator : ℤ) (hd : denominator ≠ 0) : RoundedOnce (quotient numerator denominator) (numerator / denominator) := by
  unfold quotient
  dsimp only
  split
  next hdigits =>
    apply RoundedOnce.of_error
    apply Set.eq_empty_of_forall_notMem
    intro scale hscale
    have := fitting_add_digits_le hscale
    omega
  next hdigits =>
    apply quotientBelow_roundedOnce numerator hd (by omega)
    intro scale hscale
    have := fitting_add_digits_le hscale
    omega

theorem decimalDivide_roundedOnce (a : DecimalValue) {b : DecimalValue} (hb : b.coefficient ≠ 0) :
    RoundedOnce (decimalDivide a b) (a.ratio / b.ratio) := by
  rw [decimalDivide, if_neg hb]
  have hscaled : b.coefficient * 10 ^ a.scale ≠ 0 := mul_ne_zero hb (by positivity)
  have hquotient := quotient_roundedOnce (a.coefficient * 10 ^ b.scale) hscaled
  have hratio : ((a.coefficient * 10 ^ b.scale : ℤ) : ℚ) / (b.coefficient * 10 ^ a.scale : ℤ) = a.ratio / b.ratio := by
    rw [ratio, ratio]
    push_cast
    field_simp
  rwa [hratio] at hquotient

theorem DecimalTotal.average_roundedOnce (t : DecimalTotal) {count : ℤ} (hcount : 0 < count) :
    RoundedOnce (t.result (some count)) (t.ratio / count) := by
  rw [result, if_neg hcount.not_ge]
  have hscaled : count * 10 ^ t.scale ≠ 0 := mul_ne_zero hcount.ne' (by positivity)
  have hquotient := quotient_roundedOnce t.coefficient hscaled
  have hratio : (t.coefficient : ℚ) / (count * 10 ^ t.scale : ℤ) = t.ratio / count := by
    rw [DecimalTotal.ratio]
    push_cast
    field_simp
  rwa [hratio] at hquotient

/-- Quotients of decimals, and averages of a list and of a running total, are rounded once at the largest scale. -/
theorem decimal_quotients_rounded_once :
    (∀ a b : DecimalValue, b.ratio ≠ 0 → RoundedOnce (decimalDivide a b) (a.ratio / b.ratio)) ∧
    (∀ values : List (Option DecimalValue), values.reduceOption ≠ [] →
      ∃ answer, decimalAverage values = some <$> answer ∧
        RoundedOnce answer ((values.reduceOption.map ratio).sum / values.reduceOption.length)) ∧
    (∀ (n : ℤ) (items : List (ℤ ⊕ DecimalValue)) (count : ℤ), 0 < count →
      RoundedOnce ((items.foldl DecimalTotal.add (DecimalTotal.init n)).result (some count))
        ((n + (items.map DecimalTotal.itemRatio).sum) / count)) := by
  refine ⟨?_, ?_, ?_⟩
  · intro a b hb
    apply decimalDivide_roundedOnce
    intro hzero
    exact hb (by rw [ratio, hzero, Int.cast_zero, zero_div])
  · intro values hvalues
    have hlength : 0 < values.reduceOption.length := List.length_pos_iff.mpr hvalues
    have hcount : (totals values).2 = values.reduceOption.length := by rw [totals_eq]
    have hnonzero : (totals values).2 ≠ 0 := by omega
    have hpositive : 0 < ((totals values).2 : ℤ) := by omega
    have h := (totals values).1.average_roundedOnce hpositive
    rw [totals_ratio, Int.cast_natCast, hcount, DecimalTotal.result, if_neg (by omega)] at h
    refine ⟨_, if_neg hnonzero, ?_⟩
    show RoundedOnce (quotient _ ((totals values).2 * _)) _
    rwa [hcount]
  · intro n items count hcount
    have h := (items.foldl DecimalTotal.add (DecimalTotal.init n)).average_roundedOnce hcount
    rwa [DecimalTotal.foldl_add_ratio, DecimalTotal.init_ratio] at h

end Grafx.Query
