import Mathlib

/-! Invariants of transition systems, given by their step relation. -/

namespace Transition
variable {σ : Type*} {Step : σ → σ → Prop} {Inv : σ → Prop} {s : σ}

theorem invariant (hstep : ∀ {s t}, Inv s → Step s t → Inv t) {t : σ} (hrun : Relation.ReflTransGen Step s t) (hs : Inv s) : Inv t := by
  induction hrun with
  | refl => exact hs
  | tail _ hlast ih => exact hstep ih hlast

section Along
variable {α : Type*} {acts : List α} {P : σ → α → Prop} {step : σ → α → σ}

def Along (step : σ → α → σ) (P : σ → α → Prop) : σ → List α → Prop
  | _, [] => True
  | s, a :: acts => P s a ∧ Along step P (step s a) acts

theorem Along.append {later : List α} (h : Along step P s acts)
    (hlater : Along step P (acts.foldl step s) later) : Along step P s (acts ++ later) := by
  induction acts generalizing s with
  | nil => exact hlater
  | cons a acts ih => exact ⟨h.1, ih h.2 hlater⟩

theorem Along.invariant (hstep : ∀ s a, Inv s → P s a → Inv (step s a)) (h : Along step P s acts) (hs : Inv s) : Inv (acts.foldl step s) := by
  induction acts generalizing s with
  | nil => exact hs
  | cons a acts ih => exact ih h.2 (hstep s a hs h.1)

end Along

end Transition
