import OktoGrafx.Lib.FixedPoint
import OktoGrafx.Query.Value

/-! Exact decimal arithmetic: sums, differences and products, and the running total of an aggregate. -/

namespace Grafx.Query

open List

variable {items : List (ℤ ⊕ DecimalValue)} {scale : ℕ} {coefficient : ℤ}

inductive DecimalReason
  | typeBounds | overflow | divisionByZero | inexact | operandType
  deriving DecidableEq

abbrev Decimals := Except DecimalReason

def maxPrecision : ℕ := 38

def DecimalValue.make (coefficient : ℤ) (precision scale : ℕ) : Decimals DecimalValue :=
  if hshape : (1 ≤ precision ∧ precision ≤ maxPrecision) ∧ scale ≤ precision then
    if hfits : coefficient.natAbs < 10 ^ precision then
      .ok ⟨coefficient, precision, scale, hshape.1.1, hshape.1.2, hshape.2, hfits⟩
    else .error .overflow
  else .error .typeBounds

theorem DecimalValue.make_ok (hscale : scale ≤ maxPrecision) (hfits : coefficient.natAbs < 10 ^ maxPrecision) :
    ∃ v, make coefficient maxPrecision scale = .ok v ∧ v.coefficient = coefficient ∧
      v.precision = maxPrecision ∧ v.scale = scale := by
  unfold make
  rw [dif_pos ⟨by decide, hscale⟩, dif_pos hfits]
  exact ⟨_, rfl, rfl, rfl, rfl⟩

theorem DecimalValue.make_overflow (hscale : scale ≤ maxPrecision) (hfits : ¬ coefficient.natAbs < 10 ^ maxPrecision) :
    make coefficient maxPrecision scale = .error .overflow := by
  unfold make
  rw [dif_pos ⟨by decide, hscale⟩, dif_neg hfits]

theorem DecimalValue.scale_le_max (v : DecimalValue) : v.scale ≤ maxPrecision :=
  v.scale_le.trans v.precision_le

theorem DecimalValue.fits_max (v : DecimalValue) : v.coefficient.natAbs < 10 ^ maxPrecision :=
  v.fits.trans_le (Nat.pow_le_pow_right (by decide) v.precision_le)

def exactResult (coefficient : ℤ) : ℕ → Decimals DecimalValue
  | 0 => DecimalValue.make coefficient maxPrecision 0
  | scale + 1 =>
    if maxPrecision < scale + 1 ∨ 10 ^ maxPrecision ≤ coefficient.natAbs then
      if coefficient % 10 ≠ 0 then .error .overflow else exactResult (coefficient / 10) scale
    else DecimalValue.make coefficient maxPrecision (scale + 1)

def decimalAdd (left right : DecimalValue) (subtract : Bool) : Decimals DecimalValue :=
  let scale := max left.scale right.scale
  let a := left.coefficient * 10 ^ (scale - left.scale)
  let b := right.coefficient * 10 ^ (scale - right.scale)
  exactResult (if subtract then a - b else a + b) scale

def decimalMultiply (left right : DecimalValue) : Decimals DecimalValue :=
  exactResult (left.coefficient * right.coefficient) (left.scale + right.scale)

inductive RoundingMode
  | exact | halfEven | halfUp | down | floor | ceiling
  deriving DecidableEq

def RoundingMode.increments (mode : RoundingMode) (sign : ℤ) (quotient remainder denominator : ℕ) : Bool :=
  decide (mode = .floor ∧ sign < 0) || decide (mode = .ceiling ∧ 0 < sign) ||
    decide ((mode = .halfEven ∨ mode = .halfUp) ∧
      (denominator < 2 * remainder ∨ 2 * remainder = denominator ∧ (mode = .halfUp ∨ quotient % 2 = 1)))

def rounded (numerator denominator : ℤ) (mode : RoundingMode) : Decimals ℤ :=
  if denominator = 0 then .error .divisionByZero
  else
    let sign : ℤ := if decide (numerator < 0) ≠ decide (denominator < 0) then -1 else 1
    let quotient := numerator.natAbs / denominator.natAbs
    let remainder := numerator.natAbs % denominator.natAbs
    if remainder = 0 then .ok (sign * quotient)
    else if mode = .exact then .error .inexact
    else .ok (sign * (quotient + if mode.increments sign quotient remainder denominator.natAbs then 1 else 0 : ℕ))

def quotientBelow (numerator denominator : ℤ) : ℕ → Decimals DecimalValue
  | 0 => .error .overflow
  | scale + 1 => do
    let coefficient ← rounded (numerator * 10 ^ scale) denominator .halfEven
    if coefficient.natAbs < 10 ^ maxPrecision then DecimalValue.make coefficient maxPrecision scale
    else quotientBelow numerator denominator scale

def quotient (numerator denominator : ℤ) : Decimals DecimalValue :=
  let integral := numerator.natAbs / denominator.natAbs
  -- no digit is counted for zero
  let integerDigits := (Nat.digits 10 integral).length
  if maxPrecision < integerDigits then .error .overflow
  else quotientBelow numerator denominator (maxPrecision - integerDigits + 1)

def decimalDivide (left right : DecimalValue) : Decimals DecimalValue :=
  if right.coefficient = 0 then .error .divisionByZero
  else quotient (left.coefficient * 10 ^ right.scale) (right.coefficient * 10 ^ left.scale)

/-! ## What an exact result is -/

def ExactAnswer (answer : Decimals DecimalValue) (q : ℚ) : Prop :=
  (∀ v, answer = .ok v → v.ratio = q) ∧ ((∃ reason, answer = .error reason) ↔ ¬ ∃ v : DecimalValue, v.ratio = q)

theorem ExactAnswer.of_ok {v : DecimalValue} {q : ℚ} (hv : v.ratio = q) : ExactAnswer (.ok v) q := by
  constructor
  · intro w hw
    cases hw
    exact hv
  · constructor
    · intro h
      exact (nomatch h.choose_spec)
    · intro hnone
      exact absurd ⟨v, hv⟩ hnone

theorem ExactAnswer.of_error {q : ℚ} (hnone : ¬ ∃ v : DecimalValue, v.ratio = q) (reason : DecimalReason) :
    ExactAnswer (.error reason) q :=
  ⟨nofun, fun _ => hnone, fun _ => ⟨reason, rfl⟩⟩

theorem not_held {c : ℤ} (hshort : scale = 0 ∨ c % 10 ≠ 0) (hlarge : maxPrecision < scale ∨ 10 ^ maxPrecision ≤ c.natAbs) :
    ¬ ∃ v : DecimalValue, v.ratio = c / 10 ^ scale := by
  intro ⟨v, hv⟩
  have hshort' : scale = 0 ∨ ¬ ((10 : ℕ) : ℤ) ∣ c := hshort.imp_right fun h hdvd => h (Int.emod_eq_zero_of_dvd hdvd)
  have hsame : (c : ℚ) / ((10 : ℕ) : ℚ) ^ scale = v.coefficient / ((10 : ℕ) : ℚ) ^ v.scale := hv.symm
  have hleast := FixedPoint.shortest (by decide) hshort' hsame
  have hscale := v.scale_le_max
  have hfits := v.fits_max
  omega

theorem exactResult_exact (coefficient : ℤ) (scale : ℕ) :
    ExactAnswer (exactResult coefficient scale) (coefficient / 10 ^ scale) := by
  induction scale generalizing coefficient with
  | zero =>
    rw [exactResult]
    by_cases hfits : coefficient.natAbs < 10 ^ maxPrecision
    · obtain ⟨v, hmake, hc, -, hs⟩ := DecimalValue.make_ok (Nat.zero_le maxPrecision) hfits
      rw [hmake]
      exact .of_ok (by rw [DecimalValue.ratio, hc, hs])
    · rw [DecimalValue.make_overflow (Nat.zero_le maxPrecision) hfits]
      exact .of_error (not_held (.inl rfl) (.inr (not_lt.mp hfits))) _
  | succ scale ih =>
    rw [exactResult]
    split
    next hlarge =>
      split
      next hdigit => exact .of_error (not_held (.inr hdigit) hlarge) _
      next hzero =>
        have hdvd : (10 : ℤ) ∣ coefficient := Int.dvd_of_emod_eq_zero (not_not.mp hzero)
        have hsame := FixedPoint.div_shortened (b := 10) (by decide) hdvd scale
        rw [Nat.cast_ofNat, Nat.cast_ofNat] at hsame
        rw [← hsame]
        exact ih (coefficient / 10)
    next hfits =>
      rw [not_or, not_lt, not_le] at hfits
      obtain ⟨v, hmake, hc, -, hs⟩ := DecimalValue.make_ok hfits.1 hfits.2
      rw [hmake]
      exact .of_ok (by rw [DecimalValue.ratio, hc, hs])

/-! ## The running total -/

structure DecimalTotal where
  coefficient : ℤ
  scale : ℕ

namespace DecimalTotal

def init (integerTotal : ℤ) : DecimalTotal := ⟨integerTotal, 0⟩

def align (t : DecimalTotal) (coefficient : ℤ) (scale : ℕ) : DecimalTotal :=
  let target := max t.scale scale
  ⟨t.coefficient * 10 ^ (target - t.scale) + coefficient * 10 ^ (target - scale), target⟩

def add (t : DecimalTotal) : ℤ ⊕ DecimalValue → DecimalTotal
  | .inl value => { t with coefficient := t.coefficient + value * 10 ^ t.scale }
  | .inr value => t.align value.coefficient value.scale

def observeScale (t : DecimalTotal) (scale : ℕ) : Decimals DecimalTotal :=
  if maxPrecision < scale then .error .typeBounds
  else .ok (if t.scale < scale then ⟨t.coefficient * 10 ^ (scale - t.scale), scale⟩ else t)

def result (t : DecimalTotal) : Option ℤ → Decimals DecimalValue
  | none => exactResult t.coefficient t.scale
  | some count => if count ≤ 0 then .error .operandType else quotient t.coefficient (count * 10 ^ t.scale)

def ratio (t : DecimalTotal) : ℚ := t.coefficient / 10 ^ t.scale

theorem ext_ratio {t u : DecimalTotal} (hscale : t.scale = u.scale) (hratio : t.ratio = u.ratio) : t = u := by
  obtain ⟨c, s⟩ := t
  obtain ⟨c', s'⟩ := u
  obtain rfl : s = s' := hscale
  have hpow : (10 : ℚ) ^ s ≠ 0 := by positivity
  have hc : (c : ℚ) = c' := (div_left_inj' hpow).mp hratio
  rw [Int.cast_inj.mp hc]

theorem init_ratio (n : ℤ) : (init n).ratio = n := by
  simp [init, ratio]

theorem scaled (c : ℤ) {s target : ℕ} (h : s ≤ target) :
    ((c * 10 ^ (target - s) : ℤ) : ℚ) / 10 ^ target = c / 10 ^ s := by
  have hsplit : (10 : ℚ) ^ target = 10 ^ (target - s) * 10 ^ s := by rw [← pow_add, Nat.sub_add_cancel h]
  rw [hsplit]
  push_cast
  field_simp

section
variable (t : DecimalTotal)
include t

theorem align_ratio (c : ℤ) (s : ℕ) : (t.align c s).ratio = t.ratio + c / 10 ^ s := by
  show ((_ + _ : ℤ) : ℚ) / 10 ^ max t.scale s = _
  rw [Int.cast_add, add_div, scaled _ (le_max_left ..), scaled _ (le_max_right ..)]
  rfl

theorem add_inl (n : ℤ) : t.add (.inl n) = t.align n 0 := by
  simp [add, align]

def itemRatio : ℤ ⊕ DecimalValue → ℚ
  | .inl n => n
  | .inr d => d.ratio

def itemScale : ℤ ⊕ DecimalValue → ℕ
  | .inl _ => 0
  | .inr d => d.scale

theorem add_ratio (item : ℤ ⊕ DecimalValue) : (t.add item).ratio = t.ratio + itemRatio item := by
  cases item with
  | inl n => rw [add_inl, align_ratio, pow_zero, div_one]; rfl
  | inr d => exact t.align_ratio d.coefficient d.scale

theorem add_scale (item : ℤ ⊕ DecimalValue) : (t.add item).scale = max t.scale (itemScale item) := by
  cases item with
  | inl n => exact (max_eq_left (Nat.zero_le t.scale)).symm
  | inr d => rfl

theorem add_swap (a b : ℤ ⊕ DecimalValue) : (t.add a).add b = (t.add b).add a := by
  apply ext_ratio
  · simp only [add_scale, max_right_comm]
  · simp only [add_ratio, add_right_comm]

/-- A value is observed before it is added, or dropped as a duplicate. -/
theorem observeScale_ok (d : DecimalValue) : ∃ u, t.observeScale d.scale = .ok u ∧ u.ratio = t.ratio ∧ u.add (.inr d) = t.add (.inr d) := by
  have hok : t.observeScale d.scale = .ok (t.align 0 d.scale) := by
    rw [observeScale, if_neg d.scale_le_max.not_gt, align]
    split_ifs with h
    · simp [max_eq_right h.le]
    · simp [max_eq_left (not_lt.mp h)]
  have hratio : (t.align 0 d.scale).ratio = t.ratio := by simp [align_ratio]
  exact ⟨_, hok, hratio, ext_ratio (by simp [add_scale, itemScale, align]) (by rw [add_ratio, add_ratio, hratio])⟩

theorem foldl_add_ratio (items : List (ℤ ⊕ DecimalValue)) : (items.foldl add t).ratio = t.ratio + (items.map itemRatio).sum := by
  induction items generalizing t with
  | nil => simp
  | cons item items ih => rw [foldl_cons, ih, add_ratio, map_cons, sum_cons, add_assoc]

end

def streamed (integerTotal : ℤ) (items : List (ℤ ⊕ DecimalValue)) : Decimals DecimalValue :=
  (items.foldl add (init integerTotal)).result none

theorem streamed_exact (n : ℤ) (items : List (ℤ ⊕ DecimalValue)) :
    ExactAnswer (streamed n items) (n + (items.map itemRatio).sum) := by
  have hratio := foldl_add_ratio (init n) items
  rw [init_ratio] at hratio
  rw [← hratio]
  exact exactResult_exact _ _

theorem streamed_perm (n : ℤ) {items' : List (ℤ ⊕ DecimalValue)} (h : items.Perm items') : streamed n items' = streamed n items := by
  have : RightCommutative add := ⟨add_swap⟩
  unfold streamed
  rw [h.foldl_eq]

end DecimalTotal

/-! ## Sums of a list -/

def totalStep (total : DecimalTotal × ℕ) : Option DecimalValue → DecimalTotal × ℕ
  | none => total
  | some value => (total.1.align value.coefficient value.scale, total.2 + 1)

def totals (values : List (Option DecimalValue)) : DecimalTotal × ℕ :=
  values.foldl totalStep (⟨0, 0⟩, 0)

def decimalSum (values : List (Option DecimalValue)) : Decimals DecimalValue :=
  exactResult (totals values).1.coefficient (totals values).1.scale

def decimalAverage (values : List (Option DecimalValue)) : Decimals (Option DecimalValue) :=
  let (total, count) := totals values
  if count = 0 then .ok none else some <$> quotient total.coefficient (count * 10 ^ total.scale)

section
variable (values : List (Option DecimalValue))
include values

theorem foldl_totalStep (total : DecimalTotal × ℕ) : values.foldl totalStep total =
      ((values.reduceOption.map Sum.inr).foldl DecimalTotal.add total.1, total.2 + values.reduceOption.length) := by
  induction values generalizing total with
  | nil => rfl
  | cons value values ih =>
    rw [foldl_cons, ih]
    cases value with
    | none => rfl
    | some d =>
      simp [totalStep, DecimalTotal.add, add_assoc, add_comm 1]

theorem totals_eq : totals values = ((values.reduceOption.map Sum.inr).foldl DecimalTotal.add ⟨0, 0⟩, values.reduceOption.length) := by
  rw [totals, foldl_totalStep, zero_add]

theorem decimalSum_eq : decimalSum values = DecimalTotal.streamed 0 (values.reduceOption.map Sum.inr) := by
  rw [decimalSum, totals_eq]
  rfl

theorem totals_ratio : (totals values).1.ratio = (values.reduceOption.map DecimalValue.ratio).sum := by
  rw [totals_eq]
  rw [DecimalTotal.foldl_add_ratio, map_map, show DecimalTotal.itemRatio ∘ Sum.inr = DecimalValue.ratio from rfl]
  simp [DecimalTotal.ratio]

end

def WrittenFor (value : DecimalValue) : ℤ ⊕ DecimalValue → Prop
  | .inl n => value.coefficient = n ∧ value.scale = 0
  | .inr d => value = d

theorem WrittenFor.add_eq {value : DecimalValue} {item : ℤ ⊕ DecimalValue} (h : WrittenFor value item) (t : DecimalTotal) :
    t.add (.inr value) = t.add item := by
  cases item with
  | inl n =>
    rw [DecimalTotal.add_inl, DecimalTotal.add, h.1, h.2]
  | inr d => rw [show value = d from h]

theorem foldl_writtenFor {values : List DecimalValue} (h : List.Forall₂ WrittenFor values items) (t : DecimalTotal) :
    (values.map Sum.inr).foldl DecimalTotal.add t = items.foldl DecimalTotal.add t := by
  induction h generalizing t with
  | nil => rfl
  | cons hitem _ ih => rw [map_cons, foldl_cons, foldl_cons, hitem.add_eq, ih]

/-- Sums, differences, products and totals are exact or refused, and the order of the items is of no consequence. -/
theorem decimal_arithmetic_exact (a b : DecimalValue) (values : List (Option DecimalValue)) (n : ℤ)
    (items : List (ℤ ⊕ DecimalValue)) :
    ExactAnswer (decimalAdd a b false) (a.ratio + b.ratio) ∧ ExactAnswer (decimalAdd a b true) (a.ratio - b.ratio) ∧
    ExactAnswer (decimalMultiply a b) (a.ratio * b.ratio) ∧
    ExactAnswer (decimalSum values) (values.reduceOption.map DecimalValue.ratio).sum ∧
    ExactAnswer (DecimalTotal.streamed n items) (n + (items.map DecimalTotal.itemRatio).sum) ∧
    (∀ items' : List (ℤ ⊕ DecimalValue), items.Perm items' →
      DecimalTotal.streamed n items' = DecimalTotal.streamed n items ∧
      (List.Forall₂ WrittenFor values.reduceOption items → DecimalTotal.streamed 0 items' = decimalSum values)) := by
  have hadd : ∀ c c' : ℤ, ((c * 10 ^ (max a.scale b.scale - a.scale) + c' * 10 ^ (max a.scale b.scale - b.scale) : ℤ) : ℚ)
      / 10 ^ max a.scale b.scale = c / 10 ^ a.scale + c' / 10 ^ b.scale := by
    intro c c'
    rw [Int.cast_add, add_div, DecimalTotal.scaled _ (le_max_left ..), DecimalTotal.scaled _ (le_max_right ..)]
  refine ⟨?_, ?_, ?_, ?_, DecimalTotal.streamed_exact n items, ?_⟩
  · have h := exactResult_exact (a.coefficient * 10 ^ (max a.scale b.scale - a.scale) +
      b.coefficient * 10 ^ (max a.scale b.scale - b.scale)) (max a.scale b.scale)
    rwa [hadd] at h
  · have h := exactResult_exact (a.coefficient * 10 ^ (max a.scale b.scale - a.scale) +
      -b.coefficient * 10 ^ (max a.scale b.scale - b.scale)) (max a.scale b.scale)
    rw [hadd, Int.cast_neg, neg_div, neg_mul, ← sub_eq_add_neg, ← sub_eq_add_neg] at h
    exact h
  · have h := exactResult_exact (a.coefficient * b.coefficient) (a.scale + b.scale)
    rw [Int.cast_mul, pow_add, mul_div_mul_comm] at h
    exact h
  · rw [← totals_ratio]
    exact exactResult_exact _ _
  · intro items' hperm
    refine ⟨DecimalTotal.streamed_perm n hperm, fun hwritten => ?_⟩
    rw [DecimalTotal.streamed_perm 0 hperm, decimalSum_eq, DecimalTotal.streamed, DecimalTotal.streamed,
      foldl_writtenFor hwritten]

end Grafx.Query
