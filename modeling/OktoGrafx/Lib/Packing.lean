import Mathlib

/-! Packing a sequence into bins of one capacity, first fit without going back. The bins are the
sequence cut into runs; a bin is only left when the next item does not go into it. -/

namespace Packing

open List
variable {α β : Type*} (size : α → ℕ) (room : ℕ)

def total (bin : List α) : ℕ := (bin.map size).sum

def fill : List α → List α → List (List α)
  | bin, [] => [bin]
  | bin, a :: rest => if total size bin + size a ≤ room then fill (bin ++ [a]) rest else bin :: fill [a] rest

def greedy : List α → List (List α)
  | [] => []
  | a :: rest => fill size room [a] rest

variable {size room}

@[simp] theorem total_singleton (a : α) : total size [a] = size a := by simp [total]

theorem fill_flatten (bin xs : List α) : (fill size room bin xs).flatten = bin ++ xs := by
  induction xs generalizing bin with
  | nil => simp [fill]
  | cons a xs ih =>
    unfold fill
    split
    · rw [ih, append_assoc, singleton_append]
    · rw [flatten_cons, ih, singleton_append]

theorem greedy_flatten (xs : List α) : (greedy size room xs).flatten = xs := by
  cases xs with
  | nil => rfl
  | cons a xs => exact fill_flatten [a] xs

theorem fill_length_pos (bin xs : List α) : 0 < (fill size room bin xs).length := by
  induction xs generalizing bin with
  | nil => exact one_pos
  | cons a xs ih =>
    unfold fill
    split
    · exact ih _
    · exact Nat.succ_pos _

theorem fill_ne_nil {bin : List α} (hbin : bin ≠ []) (xs : List α) : ∀ b ∈ fill size room bin xs, b ≠ [] := by
  induction xs generalizing bin with
  | nil =>
    intro b hb
    rw [mem_singleton.mp hb]
    exact hbin
  | cons a xs ih =>
    unfold fill
    split
    · exact ih (append_ne_nil_of_right_ne_nil _ (cons_ne_nil a []))
    · intro b hb
      rcases mem_cons.mp hb with rfl | hb
      · exact hbin
      · exact ih (cons_ne_nil a []) b hb

theorem greedy_ne_nil (xs : List α) : ∀ b ∈ greedy size room xs, b ≠ [] := by
  cases xs with
  | nil => exact nofun
  | cons a xs => exact fill_ne_nil (cons_ne_nil a []) xs

theorem fill_map (f : β → α) (bin xs : List β) :
    fill size room (bin.map f) (xs.map f) = (fill (fun b => size (f b)) room bin xs).map (map f) := by
  have htotal : ∀ bin : List β, total size (bin.map f) = total (fun b => size (f b)) bin := by
    intro bin
    rw [total, total, map_map]
    rfl
  induction xs generalizing bin with
  | nil => rfl
  | cons b xs ih =>
    simp only [map_cons, fill, htotal]
    split
    · rw [← ih, map_append]
      rfl
    · rw [map_cons, ← ih]
      rfl

theorem greedy_map (f : β → α) (xs : List β) : greedy size room (xs.map f) = (greedy (fun b => size (f b)) room xs).map (map f) := by
  cases xs with
  | nil => rfl
  | cons b xs => exact fill_map f [b] xs

/-! ## Progress -/

def NeighboursFit (size : α → ℕ) (room : ℕ) (xs : List α) : Prop := ¬ xs.IsChain fun a b => room < size a + size b

theorem neighboursFit_map (f : β → α) (xs : List β) : NeighboursFit size room (xs.map f) ↔ NeighboursFit (fun b => size (f b)) room xs := by
  rw [NeighboursFit, NeighboursFit, isChain_map]

theorem fill_length (bin xs : List α) : (fill size room bin xs).length ≤ xs.length + 1 := by
  induction xs generalizing bin with
  | nil => simp [fill]
  | cons a xs ih =>
    unfold fill
    split
    · exact Nat.le_succ_of_le (ih _)
    · exact Nat.succ_le_succ (ih _)

theorem greedy_length (xs : List α) : (greedy size room xs).length ≤ xs.length := by
  cases xs with
  | nil => exact le_rfl
  | cons a xs => exact fill_length [a] xs

theorem greedy_length_lt_iff (xs : List α) : (greedy size room xs).length < xs.length ↔ NeighboursFit size room xs := by
  have hfill : ∀ (a : α) (xs : List α), (fill size room [a] xs).length = xs.length + 1 ↔
      (a :: xs).IsChain fun a b => room < size a + size b := by
    intro a xs
    induction xs generalizing a with
    | nil => simp [fill]
    | cons b xs ih =>
      unfold fill
      rw [total_singleton, isChain_cons_cons]
      split
      · rename_i hfits
        have hshort : (fill size room ([a] ++ [b]) xs).length ≤ xs.length + 1 := fill_length _ xs
        constructor
        · intro hlength
          rw [length_cons] at hlength
          omega
        · rintro ⟨hapart, -⟩
          omega
      · rename_i hapart
        rw [length_cons, length_cons, Nat.add_right_cancel_iff, ih b]
        exact ⟨fun h => ⟨Nat.lt_of_not_le hapart, h⟩, And.right⟩
  cases xs with
  | nil => simp [greedy, NeighboursFit]
  | cons a xs =>
    have hle : (greedy size room (a :: xs)).length ≤ (a :: xs).length := greedy_length _
    rw [NeighboursFit, ← hfill a xs, Nat.lt_iff_le_and_ne, greedy, length_cons]
    exact ⟨And.right, fun hne => ⟨hle, hne⟩⟩

theorem greedy_of_not_fit {xs : List α} (h : ¬ NeighboursFit size room xs) : greedy size room xs = xs.map fun a => [a] := by
  have hchain : xs.IsChain fun a b => room < size a + size b := not_not.mp h
  have hfill : ∀ (a : α) (xs : List α), (a :: xs).IsChain (fun a b => room < size a + size b) →
      fill size room [a] xs = (a :: xs).map fun a => [a] := by
    intro a xs
    induction xs generalizing a with
    | nil => exact fun _ => rfl
    | cons b xs ih =>
      intro hchain
      obtain ⟨hapart, hrest⟩ := isChain_cons_cons.mp hchain
      unfold fill
      rw [total_singleton, if_neg (not_le.mpr hapart), ih b hrest]
      rfl
  cases xs with
  | nil => rfl
  | cons a xs => exact hfill a xs hchain

end Packing
