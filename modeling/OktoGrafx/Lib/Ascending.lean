import Mathlib

/-! Searching an ascending list. Where a list ascends in its keys, the part before a bound and the part
at it are found by going along it once. -/

namespace Ascending

open List
variable {α κ : Type*} [LinearOrder κ] (key : α → κ)

def Ascends (xs : List α) : Prop := xs.Pairwise fun a b => key a ≤ key b

variable {key} {xs : List α} {bound : κ} {before at_ : α → Bool}

theorem Ascends.takeWhile_before (h : Ascends key xs) (hbefore : ∀ a, before a = true ↔ key a < bound) :
    xs.takeWhile before = xs.filter before := by
  induction xs with
  | nil => rfl
  | cons a xs ih =>
    obtain ⟨hfirst, hrest⟩ := pairwise_cons.mp h
    by_cases ha : before a
    · rw [takeWhile_cons_of_pos ha, filter_cons_of_pos ha, ih hrest]
    · rw [takeWhile_cons_of_neg ha, filter_cons_of_neg ha]
      -- Once the bound is reached nothing further is below it.
      refine (filter_eq_nil_iff.mpr fun b hb => ?_).symm
      rw [hbefore, not_lt] at ha ⊢
      exact le_trans ha (hfirst b hb)

theorem Ascends.takeWhile_at (h : Ascends key xs) (hbefore : ∀ a, before a = true ↔ key a < bound)
    (hat : ∀ a, at_ a = true ↔ key a = bound) : (xs.dropWhile before).takeWhile at_ = xs.filter at_ := by
  induction xs with
  | nil => rfl
  | cons a xs ih =>
    obtain ⟨hfirst, hrest⟩ := pairwise_cons.mp h
    rcases lt_trichotomy (key a) bound with ha | ha | ha
    · have hnot : ¬ at_ a := fun hat' => ha.ne ((hat a).mp hat')
      rw [dropWhile_cons_of_pos ((hbefore a).mpr ha), filter_cons_of_neg hnot, ih hrest]
    · have hnot : ∀ b, bound ≤ key b → ¬ before b := fun b hb hbefore' => not_lt.mpr hb ((hbefore b).mp hbefore')
      have hnone : xs.dropWhile before = xs := by
        cases xs with
        | nil => rfl
        | cons b xs => exact dropWhile_cons_of_neg (hnot b (ha ▸ hfirst b mem_cons_self))
      rw [dropWhile_cons_of_neg (hnot a ha.ge), takeWhile_cons_of_pos ((hat a).mpr ha),
        filter_cons_of_pos ((hat a).mpr ha), ← ih hrest, hnone]
    · have hpast : ∀ b, bound < key b → ¬ at_ b := fun b hb hat' => hb.ne' ((hat b).mp hat')
      have hnot : ¬ before a := fun hbefore' => lt_asymm ha ((hbefore a).mp hbefore')
      rw [dropWhile_cons_of_neg hnot, takeWhile_cons_of_neg (hpast a ha)]
      refine (filter_eq_nil_iff.mpr fun b hb => ?_).symm
      rcases mem_cons.mp hb with rfl | hb
      · exact hpast b ha
      · exact hpast b (lt_of_lt_of_le ha (hfirst b hb))

end Ascending
