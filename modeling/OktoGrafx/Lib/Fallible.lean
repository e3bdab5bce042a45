import Mathlib

/-! Computations over a state, against a device that may refuse any operation. A computation
consumes a script of answers, `true` for a refusal; an exhausted script grants everything. What a
refused computation had already done to the state stays done, so its postcondition comes in two
parts: one for its result, one for the state a refusal leaves behind. -/

def Fallible (σ ε α : Type*) := List Bool → σ → Except ε α × σ × List Bool

namespace Fallible
universe u
variable {σ ε : Type*} {α β : Type u} {rest script : List Bool} {e : ε}

instance : Monad (Fallible σ ε) where
  pure a := fun script s => (.ok a, s, script)
  bind x f := fun script s =>
    match x script s with
    | (.ok a, s', rest) => f a rest s'
    | (.error e, s', rest) => (.error e, s', rest)

def refuse (e : ε) : Fallible σ ε α := fun script s => (.error e, s, script)

def read : Fallible σ ε σ := fun script s => (.ok s, s, script)

def update (f : σ → σ) : Fallible σ ε Unit := fun script s => (.ok (), f s, script)

def ask (e : ε) : Fallible σ ε Unit := fun script s =>
  match script with
  | true :: rest => (.error e, s, rest)
  | _ :: rest => (.ok (), s, rest)
  | [] => (.ok (), s, [])

def lift : Except ε α → Fallible σ ε α
  | .ok a => pure a
  | .error e => refuse e

/-- Whatever the device answers, the result satisfies `Q` and the state left by a refusal `E`. -/
def Ensures (x : Fallible σ ε α) (s : σ) (Q : α → σ → Prop) (E : σ → Prop) : Prop :=
  ∀ script, match x script s with
    | (.ok a, s', _) => Q a s'
    | (.error _, s', _) => E s'

variable {x : Fallible σ ε α} {f : α → Fallible σ ε β} {s : σ} {Q Q' : α → σ → Prop} {R : β → σ → Prop} {E E' : σ → Prop}

theorem ensures_pure {a : α} (h : Q a s) : (pure a : Fallible σ ε α).Ensures s Q E := fun _ => h

theorem ensures_refuse (h : E s) : (refuse e : Fallible σ ε α).Ensures s Q E := fun _ => h

theorem ensures_read {Q : σ → σ → Prop} (h : Q s s) : (read : Fallible σ ε σ).Ensures s Q E := fun _ => h

theorem ensures_update {g : σ → σ} {Q : Unit → σ → Prop} (h : Q () (g s)) :
    (update g : Fallible σ ε Unit).Ensures s Q E := fun _ => h

theorem ensures_ask {Q : Unit → σ → Prop} (h : Q () s) (herr : E s) : (ask e : Fallible σ ε Unit).Ensures s Q E := by
  intro script
  match script with
  | [] => exact h
  | true :: rest => exact herr
  | false :: rest => exact h

theorem ensures_lift {r : Except ε α} (h : ∀ a, r = .ok a → Q a s) (herr : E s) :
    (lift r : Fallible σ ε α).Ensures s Q E := by
  intro script
  cases r with
  | ok a => exact h a rfl
  | error e => exact herr

theorem ensures_bind (hx : x.Ensures s (fun a s' => (f a).Ensures s' R E) E) : (x >>= f).Ensures s R E := by
  intro script
  have h := hx script
  simp only [bind]
  match hrun : x script s with
  | (.ok a, s', rest) =>
    rw [hrun] at h
    exact h rest
  | (.error e, s', rest) =>
    rw [hrun] at h
    exact h

theorem Ensures.mono (h : x.Ensures s Q E) (hQ : ∀ a s', Q a s' → Q' a s') (hE : ∀ s', E s' → E' s') :
    x.Ensures s Q' E' := by
  intro script
  have h := h script
  match hrun : x script s with
  | (.ok a, s', rest) =>
    rw [hrun] at h
    exact hQ a s' h
  | (.error e, s', rest) =>
    rw [hrun] at h
    exact hE s' h

theorem Ensures.of_ok {a : α} {s' : σ} (h : x.Ensures s Q E) (hrun : x script s = (.ok a, s', rest)) : Q a s' := by
  have h := h script
  rwa [hrun] at h

theorem Ensures.of_error {s' : σ} (h : x.Ensures s Q E) (hrun : x script s = (.error e, s', rest)) : E s' := by
  have h := h script
  rwa [hrun] at h

theorem Ensures.bind (hx : x.Ensures s Q E) (hf : ∀ a s', Q a s' → (f a).Ensures s' R E) : (x >>= f).Ensures s R E :=
  ensures_bind (hx.mono hf fun _ h => h)

section
variable {σ ε α β : Type} {s : σ} {e : ε} {R : β → σ → Prop} {E : σ → Prop} {next : Unit → Fallible σ ε β}

theorem bind_read {f : σ → Fallible σ ε β} (h : (f s).Ensures s R E) : (read >>= f).Ensures s R E := ensures_bind (ensures_read h)

theorem bind_update {g : σ → σ} (h : (next ()).Ensures (g s) R E) : (update g >>= next).Ensures s R E := ensures_bind (ensures_update h)

theorem bind_ask (h : (next ()).Ensures s R E) (herr : E s) : (ask e >>= next).Ensures s R E := ensures_bind (ensures_ask h herr)

theorem bind_lift {r : Except ε α} {f : α → Fallible σ ε β} (h : ∀ a, r = .ok a → (f a).Ensures s R E) (herr : E s) :
    (lift r >>= f).Ensures s R E := ensures_bind (ensures_lift h herr)

end

end Fallible
