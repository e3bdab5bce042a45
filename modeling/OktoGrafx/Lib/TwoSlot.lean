import Mathlib

/-! Two slots written in turn. The slot that holds the current record is never the one being written,
so a write that is cut short leaves it, and one that comes through is the next current record. -/

namespace TwoSlot

inductive Slot where
  | a | b
  deriving DecidableEq, Repr

def Slot.other : Slot → Slot
  | .a => .b
  | .b => .a

@[simp] theorem Slot.other_other (k : Slot) : k.other.other = k := by cases k <;> rfl

@[simp] theorem Slot.other_ne (k : Slot) : k.other ≠ k := by cases k <;> decide

variable {α : Type*}

abbrev Slots (α : Type*) := Slot → Option α

def Slots.set (s : Slots α) (k : Slot) (x : Option α) : Slots α := fun j => if j = k then x else s j

@[simp] theorem Slots.set_self (s : Slots α) (k : Slot) (x : Option α) : s.set k x k = x := if_pos rfl

theorem Slots.set_ne (s : Slots α) {j k : Slot} (h : j ≠ k) (x : Option α) : s.set k x j = s j := if_neg h

@[simp] theorem Slots.set_get (s : Slots α) (k : Slot) : s.set k (s k) = s := by
  funext j
  by_cases h : j = k
  · rw [h, set_self]
  · rw [set_ne s h]

theorem Slots.set_set (s : Slots α) (k : Slot) (x y : Option α) : (s.set k x).set k y = s.set k y := by
  funext j
  by_cases h : j = k
  · rw [h, set_self, set_self]
  · rw [set_ne _ h, set_ne _ h, set_ne _ h]

structure Current (behind : Slot → α → α → Prop) (s : Slots α) (k : Slot) (x : α) : Prop where
  here : s k = some x
  behind : ∀ y, s k.other = some y → behind k y x

section Current
variable {behind : Slot → α → α → Prop} {s : Slots α} {k : Slot} {x x' : α}

theorem Current.torn (h : Current behind s k x) : Current behind (s.set k.other none) k x where
  here := by rw [Slots.set_ne s (Slot.other_ne k).symm, h.here]
  behind := by
    intro y hy
    rw [Slots.set_self] at hy
    exact nomatch hy

theorem Current.landed (h : Current behind s k x) (hnext : behind k.other x x') : Current behind (s.set k.other (some x')) k.other x' where
  here := Slots.set_self s k.other (some x')
  behind := by
    intro y hy
    rw [Slot.other_other, Slots.set_ne s (Slot.other_ne k).symm, h.here] at hy
    cases hy
    exact hnext

end Current

end TwoSlot
