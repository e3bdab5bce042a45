import Mathlib

/-! Checks one after another: a computation that ends at its first refusal succeeds exactly when
each of its steps does. -/

namespace Checked
universe u v
variable {ε : Type u} {α β : Type v} {x : Except ε α} {γ : Type*} {a : α}

def ensure (c : Prop) [Decidable c] (e : ε) : Except ε PUnit := if c then .ok ⟨⟩ else .error e

theorem ensure_pos {c : Prop} [Decidable c] {e : ε} (h : c) : ensure c e = .ok ⟨⟩ := if_pos h

theorem ensure_ok_iff {c : Prop} [Decidable c] {e : ε} {x : PUnit} : ensure c e = .ok x ↔ c := by
  by_cases h : c <;> simp [ensure, h]

theorem bind_ok_iff {f : α → Except ε β} {b : β} : (x >>= f) = .ok b ↔ ∃ a, x = .ok a ∧ f a = .ok b := by
  cases x with
  | error e => simp [bind, Except.bind]
  | ok a => simp [bind, Except.bind]

theorem pure_ok_iff {b : α} : (pure a : Except ε α) = .ok b ↔ a = b := by simp [pure, Except.pure]

theorem ok_bind (a : α) (f : α → Except ε β) : ((.ok a : Except ε α) >>= f) = f a := rfl

theorem toOption_some_iff : x.toOption = some a ↔ x = .ok a := by
  cases x with
  | error e => exact ⟨nofun, nofun⟩
  | ok b => exact ⟨fun h => congrArg Except.ok (Option.some.inj h), fun h => congrArg some (Except.ok.inj h)⟩

theorem exists_of_toOption_map {f : α → γ} {c : γ} (h : x.toOption.map f = some c) : ∃ a, x = .ok a ∧ f a = c := by
  obtain ⟨a, ha, hc⟩ := Option.map_eq_some_iff.mp h
  exact ⟨a, toOption_some_iff.mp ha, hc⟩

theorem mapError_ok_iff {ε' : Type*} {f : ε → ε'} : x.mapError f = .ok a ↔ x = .ok a := by
  cases x <;> simp [Except.mapError]

theorem forM_ok_iff {f : γ → Except ε PUnit} {xs : List γ} : xs.forM f = .ok ⟨⟩ ↔ ∀ x ∈ xs, f x = .ok ⟨⟩ := by
  induction xs with
  | nil => exact ⟨nofun, fun _ => rfl⟩
  | cons x xs ih =>
    show (f x >>= fun _ => xs.forM f) = _ ↔ _
    rw [bind_ok_iff, List.forall_mem_cons, ← ih]
    constructor
    · rintro ⟨_, hx, hxs⟩
      exact ⟨hx, hxs⟩
    · rintro ⟨hx, hxs⟩
      exact ⟨_, hx, hxs⟩

theorem mapM_ok {f : γ → Except ε α} {g : γ → α} {xs : List γ} (h : ∀ x ∈ xs, f x = .ok (g x)) : xs.mapM f = .ok (xs.map g) := by
  induction xs with
  | nil => rfl
  | cons x xs ih =>
    rw [List.mapM_cons, h x List.mem_cons_self, ok_bind, ih (List.forall_mem_cons.mp h).2, ok_bind]
    rfl

/-- A fold that may refuse, against a condition on what it has read: if the invariant tells when the next
step is granted, the fold is granted exactly when all it reads meets the condition. -/
theorem foldlM_ok_iff {σ : Type*} {step : σ → γ → Except ε σ} {Good : List γ → Prop} {Inv : List γ → σ → Prop}
    (hclosed : ∀ xs ys, Good (xs ++ ys) → Good xs) (hkeeps : ∀ done s x s', Inv done s → step s x = .ok s' → Inv (done ++ [x]) s')
    (hgrants : ∀ done s x, Inv done s → Good done → ((∃ s', step s x = .ok s') ↔ Good (done ++ [x]))) {done : List γ} {s : σ}
    (hinv : Inv done s) (hgood : Good done) (xs : List γ) :
    ((∃ s', xs.foldlM step s = .ok s') ↔ Good (done ++ xs)) ∧ ∀ s', xs.foldlM step s = .ok s' → Inv (done ++ xs) s' := by
  induction xs generalizing done s with
  | nil =>
    rw [List.append_nil]
    refine ⟨⟨fun _ => hgood, fun _ => ⟨s, rfl⟩⟩, ?_⟩
    intro s' h
    obtain rfl := pure_ok_iff.mp h
    exact hinv
  | cons x xs ih =>
    rw [show done ++ x :: xs = done ++ [x] ++ xs by simp, List.foldlM_cons]
    cases hx : step s x with
    | error e =>
      refine ⟨⟨fun ⟨s', h⟩ => (nomatch h), fun h => ?_⟩, nofun⟩
      obtain ⟨s', hs'⟩ := (hgrants done s x hinv hgood).mpr (hclosed _ _ h)
      rw [hx] at hs'
      cases hs'
    | ok s₁ => exact ih (hkeeps done s x s₁ hinv hx) ((hgrants done s x hinv hgood).mp ⟨s₁, hx⟩)

end Checked
