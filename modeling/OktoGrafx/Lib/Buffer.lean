import Mathlib

/-! Buffers of a fixed size, and the stretches of them that are in use. -/

namespace Buffer

open List
variable {α : Type*} {data data' xs ys : List α} {z : α} {start len i : ℕ}

def slice (data : List α) (start len : ℕ) : List α := (data.drop start).take len

def splice (data : List α) (start stop : ℕ) (xs : List α) : List α := data.take start ++ (xs ++ data.drop stop)

def write (data : List α) (start : ℕ) (xs : List α) : List α := splice data start (start + xs.length) xs

/-! ## Reading and writing -/

theorem length_slice (h : start + len ≤ data.length) : (slice data start len).length = len := by
  rw [slice, length_take, length_drop]
  omega

theorem length_write (h : start + xs.length ≤ data.length) : (write data start xs).length = data.length := by
  rw [write, splice, length_append, length_append, length_take, length_drop]
  omega

theorem getD_slice (hi : i < len) : (slice data start len).getD i z = data.getD (start + i) z := by
  rw [slice, getD_eq_getElem?_getD, getElem?_take_of_lt hi, getElem?_drop, ← getD_eq_getElem?_getD]

section
variable (h : start ≤ data.length)
include h

theorem getD_write_before (hi : i < start) : (write data start xs).getD i z = data.getD i z := by
  have hlt : i < (data.take start).length := by
    rw [length_take]
    omega
  rw [write, splice, getD_append _ _ _ _ hlt, getD_eq_getElem?_getD, getElem?_take_of_lt hi, ← getD_eq_getElem?_getD]

theorem getD_write_inside (hi : start ≤ i) (hlt : i < start + xs.length) : (write data start xs).getD i z = xs.getD (i - start) z := by
  have hlength : (data.take start).length = start := length_take_of_le h
  rw [write, splice, getD_append_right _ _ _ _ (hlength.le.trans hi), hlength, getD_append _ _ _ _ (by omega)]

theorem getD_write_after (hi : start + xs.length ≤ i) : (write data start xs).getD i z = data.getD i z := by
  have hlength : (data.take start).length = start := length_take_of_le h
  rw [write, splice, getD_append_right _ _ _ _ (by omega), hlength, getD_append_right _ _ _ _ (by omega), getD_eq_getElem?_getD,
    getElem?_drop, ← getD_eq_getElem?_getD]
  congr 1
  omega

theorem getD_write_outside (hi : ¬ (start ≤ i ∧ i < start + xs.length)) : (write data start xs).getD i z = data.getD i z := by
  by_cases hlt : i < start
  · exact getD_write_before h hlt
  · exact getD_write_after h (by omega)

end

section
variable (h : start + xs.length ≤ data.length)
include h

theorem write_append : write (write data start xs) (start + xs.length) ys = write data start (xs ++ ys) := by
  have hlength : (data.take start ++ xs).length = start + xs.length := by
    rw [length_append, length_take_of_le (by omega)]
  have hfirst : write data start xs = (data.take start ++ xs) ++ data.drop (start + xs.length) := by
    rw [write, splice, append_assoc]
  have htake : (write data start xs).take (start + xs.length) = data.take start ++ xs := by
    rw [hfirst, take_left' hlength]
  have hdrop : (write data start xs).drop (start + xs.length + ys.length) = data.drop (start + xs.length + ys.length) := by
    rw [← drop_drop, hfirst, drop_left' hlength, drop_drop]
  rw [write, splice, htake, hdrop, write, splice, length_append, append_assoc, append_assoc, add_assoc]

omit h in
theorem slice_congr {start' : ℕ} (z : α) (h : start + len ≤ data.length) (h' : start' + len ≤ data'.length)
    (heq : ∀ i < len, data.getD (start + i) z = data'.getD (start' + i) z) : slice data start len = slice data' start' len := by
  apply ext_getElem
  · rw [length_slice h, length_slice h']
  · intro i hi hi'
    have hlt : i < len := length_slice h ▸ hi
    rw [← getD_eq_getElem _ z hi, ← getD_eq_getElem _ z hi', getD_slice hlt, getD_slice hlt, heq i hlt]

omit h in
theorem eq_of_getD (z : α) (hlength : data.length = data'.length) (heq : ∀ i < data.length, data.getD i z = data'.getD i z) :
    data = data' := by
  apply ext_getElem hlength
  intro i hi hi'
  rw [← getD_eq_getElem _ z hi, ← getD_eq_getElem _ z hi', heq i hi]

theorem slice_write_self : slice (write data start xs) start xs.length = xs := by
  have hlength : (data.take start).length = start := length_take_of_le (by omega)
  rw [slice, write, splice, drop_left' hlength, take_left' rfl]

theorem slice_write_append : slice (write data start (xs ++ ys)) start xs.length = xs := by
  have hlength : (data.take start).length = start := length_take_of_le (by omega)
  rw [slice, write, splice, drop_left' hlength, append_assoc, take_left' rfl]

theorem slice_write_apart {s l : ℕ} (hs : s + l ≤ data.length)
    (hapart : s + l ≤ start ∨ start + xs.length ≤ s) : slice (write data start xs) s l = slice data s l := by
  cases data with
  | nil =>
    -- nothing to read, so the stretch is empty
    have hl : l = 0 := by
      rw [length_nil] at hs
      omega
    rw [hl, slice, slice, take_zero, take_zero]
  | cons z rest =>
    apply slice_congr z
    · rw [length_write h]
      exact hs
    · exact hs
    · intro i hi
      rcases hapart with hbefore | hafter
      · exact getD_write_before (by omega) (by omega)
      · exact getD_write_after (by omega) (by omega)

end

theorem write_middle {as ys bs : List α} (hstart : as.length = start) (h : xs.length = ys.length) :
    write (as ++ (ys ++ bs)) start xs = as ++ (xs ++ bs) := by
  have hdrop : (as ++ (ys ++ bs)).drop (start + xs.length) = bs := by
    rw [← drop_drop, drop_left' hstart, drop_left' h.symm]
  rw [write, splice, take_left' hstart, hdrop]

theorem write_front {bs : List α} (h : xs.length = ys.length) : write (ys ++ bs) 0 xs = xs ++ bs := @write_middle _ _ 0 [] _ _ rfl h

theorem drop_flatMap {β : Type*} {f : β → List α} {width : ℕ} (hwidth : ∀ b, (f b).length = width) (bs : List β) (k : ℕ) :
    (bs.flatMap f).drop (k * width) = (bs.drop k).flatMap f := by
  induction k generalizing bs with
  | zero => rw [zero_mul, drop_zero, drop_zero]
  | succ k ih =>
    cases bs with
    | nil => rw [drop_nil, flatMap_nil, drop_nil]
    | cons b bs =>
      rw [Nat.succ_mul, add_comm, ← drop_drop, flatMap_cons, drop_left' (hwidth b), ih, drop_succ_cons]

/-! ## Stretches -/

abbrev Extent := ℕ × ℕ

def Apart (a b : Extent) : Prop := a.1 + a.2 ≤ b.1 ∨ b.1 + b.2 ≤ a.1

def Covers (a : Extent) (i : ℕ) : Prop := a.1 ≤ i ∧ i < a.1 + a.2

variable {a b : Extent}

theorem Apart.symm (h : Apart a b) : Apart b a := Or.symm h

theorem apart_empty (b : Extent) : Apart (0, 0) b := .inl (Nat.zero_le _)

theorem Apart.mono_left {a' : Extent} (h : Apart a b) (hstart : a.1 ≤ a'.1) (hend : a'.1 + a'.2 ≤ a.1 + a.2) : Apart a' b := by
  unfold Apart at *
  omega

def covered (es : List Extent) : Finset ℕ := es.foldr (fun e s => Finset.Ico e.1 (e.1 + e.2) ∪ s) ∅

variable {es : List Extent}

theorem mem_covered : i ∈ covered es ↔ ∃ e ∈ es, Covers e i := by
  induction es with
  | nil => simp [covered]
  | cons e es ih =>
    show i ∈ Finset.Ico e.1 (e.1 + e.2) ∪ covered es ↔ _
    rw [Finset.mem_union, Finset.mem_Ico, ih, exists_mem_cons_iff]
    rfl

theorem card_covered (h : es.Pairwise Apart) : (covered es).card = (es.map Prod.snd).sum := by
  induction es with
  | nil => rfl
  | cons e es ih =>
    obtain ⟨hhead, htail⟩ := pairwise_cons.mp h
    have hdisjoint : Disjoint (Finset.Ico e.1 (e.1 + e.2)) (covered es) := by
      rw [Finset.disjoint_left]
      intro i hi hmem
      obtain ⟨b, hb, hcovers⟩ := mem_covered.mp hmem
      have hi := Finset.mem_Ico.mp hi
      have := hhead b hb
      unfold Apart at this
      unfold Covers at hcovers
      omega
    show (Finset.Ico e.1 (e.1 + e.2) ∪ covered es).card = _
    rw [Finset.card_union_of_disjoint hdisjoint, ih htail, Nat.card_Ico, map_cons, sum_cons, Nat.add_sub_cancel_left]

theorem sum_lengths_le {lo hi : ℕ} (h : es.Pairwise Apart)
    (hinside : ∀ e ∈ es, 0 < e.2 → lo ≤ e.1 ∧ e.1 + e.2 ≤ hi) : (es.map Prod.snd).sum ≤ hi - lo := by
  rw [← card_covered h, ← Nat.card_Ico]
  apply Finset.card_le_card
  intro i hi
  obtain ⟨e, he, hcovers⟩ := mem_covered.mp hi
  have hcovers : e.1 ≤ i ∧ i < e.1 + e.2 := hcovers
  have := hinside e he (by omega)
  rw [Finset.mem_Ico]
  omega

/-! ## Ranges in order -/

def rangeLe (a b : ℕ × ℕ) : Prop := a.1 < b.1 ∨ a.1 = b.1 ∧ a.2 ≤ b.2

instance : DecidableRel rangeLe := fun _ _ => inferInstanceAs (Decidable (_ ∨ _))

instance : IsTrans (ℕ × ℕ) rangeLe := ⟨fun a b c hab hbc => by unfold rangeLe at *; omega⟩

instance : Std.Total rangeLe := ⟨fun a b => by unfold rangeLe; omega⟩

theorem neighbours_apart {rs : List (ℕ × ℕ)} (hsorted : rs.Pairwise rangeLe) (hrange : ∀ r ∈ rs, r.1 ≤ r.2) :
    rs.IsChain (fun a b => a.2 ≤ b.1) ↔ rs.Pairwise fun a b => a.2 ≤ b.1 ∨ b.2 ≤ a.1 := by
  induction rs with
  | nil => exact ⟨fun _ => .nil, fun _ => .nil⟩
  | cons a rs ih =>
    obtain ⟨ha, hrs⟩ := pairwise_cons.mp hsorted
    have ih := ih hrs (forall_mem_cons.mp hrange).2
    cases rs with
    | nil => exact ⟨fun _ => pairwise_singleton _ _, fun _ => .singleton a⟩
    | cons b rs =>
      have hab := ha b mem_cons_self
      rw [isChain_cons_cons, pairwise_cons, ih]
      constructor
      · rintro ⟨hfirst, hrest⟩
        refine ⟨?_, hrest⟩
        intro r hr
        rcases mem_cons.mp hr with rfl | hr
        · exact .inl hfirst
        · -- later ranges start no earlier than the neighbour
          have hbr := (pairwise_cons.mp hrs).1 r hr
          unfold rangeLe at hbr
          exact .inl (by omega)
      · rintro ⟨hfirst, hrest⟩
        refine ⟨?_, hrest⟩
        have hb := hrange b (mem_cons_of_mem a mem_cons_self)
        have hapart := hfirst b mem_cons_self
        unfold rangeLe at hab
        omega

end Buffer
