import Mathlib

/-! A sequence of operations that may stop anywhere: between two of them, or inside one that can be
done in part. -/

namespace Interrupt
variable {σ α : Type*} (apply : α → σ → σ) (partly : α → σ → σ → Prop)

def run (ops : List α) (s : σ) : σ := ops.foldl (fun s op => apply op s) s

inductive Reaches : List α → σ → σ → Prop
  | now {ops s} : Reaches ops s s
  | torn {op ops s s'} : partly op s s' → Reaches (op :: ops) s s'
  | later {op ops s s'} : Reaches ops (apply op s) s' → Reaches (op :: ops) s s'

variable {apply partly} {ops ops' : List α} {s s' : σ}

theorem run_append : run apply (ops ++ ops') s = run apply ops' (run apply ops s) := List.foldl_append

theorem reaches_run : Reaches apply partly ops s (run apply ops s) := by
  induction ops generalizing s with
  | nil => exact .now
  | cons op ops ih => exact .later ih

theorem Reaches.of_append (h : Reaches apply partly (ops ++ ops') s s') :
    Reaches apply partly ops s s' ∨ Reaches apply partly ops' (run apply ops s) s' := by
  induction ops generalizing s with
  | nil => exact .inr h
  | cons op ops ih =>
    cases h with
    | now => exact .inl .now
    | torn hpart => exact .inl (.torn hpart)
    | later h => exact (ih h).imp .later id

theorem Reaches.of_whole (h : Reaches apply partly ops s s') (hwhole : ∀ op ∈ ops, ∀ s s', ¬ partly op s s') :
    ∃ n, s' = run apply (ops.take n) s := by
  induction h with
  | now => exact ⟨0, rfl⟩
  | torn hpart => exact absurd hpart (hwhole _ (List.mem_cons_self) _ _)
  | later _ ih =>
    obtain ⟨n, rfl⟩ := ih (List.forall_mem_cons.mp hwhole).2
    exact ⟨n + 1, rfl⟩

theorem Reaches.nil (h : Reaches apply partly [] s s') : s' = s := by
  cases h
  rfl

end Interrupt
