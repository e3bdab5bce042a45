import OktoGrafx.Lib.Buffer

/-! Arenas: a buffer that is filled from a base upwards, and a list of the stretches that hold
something. A stretch that was given up keeps its place in the list. -/

namespace Buffer

open List

structure Arena (α : Type*) where
  slots : List Extent
  data : List α
  freeStart : ℕ
  deriving DecidableEq

namespace Arena
variable {α β : Type*}

def freeSlot : Extent := (0, 0)

def content (data : List α) (e : Extent) : Option (List α) := if e = freeSlot then none else some (slice data e.1 e.2)

def contents (a : Arena α) : List (Option (List α)) := a.slots.map (content a.data)

def push (a : Arena α) (xs : List α) : Arena α :=
  { slots := a.slots ++ [(a.freeStart, xs.length)], data := write a.data a.freeStart xs, freeStart := a.freeStart + xs.length }

def pushFree (a : Arena α) : Arena α := { a with slots := a.slots ++ [freeSlot] }

def place (a : Arena α) (i : ℕ) (xs : List α) : Arena α :=
  { slots := a.slots.set i (a.freeStart, xs.length), data := write a.data a.freeStart xs, freeStart := a.freeStart + xs.length }

section Blank
variable (z : α)

def erase (a : Arena α) (i : ℕ) (e : Extent) : Arena α :=
  { a with slots := a.slots.set i freeSlot, data := write a.data e.1 (replicate e.2 z) }

/-- In the place of the old content, the rest blanked. -/
def shrink (a : Arena α) (i : ℕ) (e : Extent) (xs : List α) : Arena α :=
  { a with
    slots := a.slots.set i (e.1, xs.length)
    data := write (write a.data e.1 xs) (e.1 + xs.length) (replicate (e.2 - xs.length) z) }

def empty (size base : ℕ) : Arena α := ⟨[], replicate size z, base⟩

def repackStep (data : List α) (a : Arena α) (e : Extent) : Arena α :=
  if e = freeSlot then a.pushFree
  else ⟨a.slots ++ [(a.freeStart, e.2)], splice a.data a.freeStart (a.freeStart + e.2) (slice data e.1 e.2), a.freeStart + e.2⟩

def repack (size base : ℕ) (a : Arena α) : Arena α := a.slots.foldl (repackStep a.data) (empty z size base)

structure Sound (base : ℕ) (a : Arena α) : Prop where
  start : base ≤ a.freeStart
  fits : a.freeStart ≤ a.data.length
  inside : ∀ e ∈ a.slots, e ≠ freeSlot → base ≤ e.1 ∧ e.1 + e.2 ≤ a.freeStart
  apart : a.slots.Pairwise Apart
  blank : ∀ i, i < base ∨ a.freeStart ≤ i → a.data.getD i z = z

def Clean (a : Arena α) : Prop := ∀ i, (∀ e ∈ a.slots, ¬ Covers e i) → a.data.getD i z = z

end Blank

variable {z : α} {base size i : ℕ} {a : Arena α} {xs data data' : List α} {e : Extent}

theorem content_freeSlot : content data freeSlot = none := if_pos rfl

theorem content_live (he : e ≠ freeSlot) : content data e = some (slice data e.1 e.2) := if_neg he

theorem ne_freeSlot (hbase : 0 < base) (h : base ≤ e.1) : e ≠ freeSlot := by
  rintro rfl
  exact absurd (hbase.trans_le h) (lt_irrefl 0)

theorem not_covers_freeSlot : ¬ Covers freeSlot i := by
  intro h
  exact absurd h.2 (Nat.not_lt_zero i)

@[simp] theorem length_contents (a : Arena α) : a.contents.length = a.slots.length := length_map _

theorem getElem?_contents (h : a.slots[i]? = some e) : a.contents[i]? = some (content a.data e) := by
  rw [contents, getElem?_map, h]
  rfl

theorem freeSlot_of_contents (h : a.contents[i]? = some none) : a.slots[i]? = some freeSlot := by
  rw [contents, getElem?_map, Option.map_eq_some_iff] at h
  obtain ⟨e, he, hnone⟩ := h
  rw [he]
  by_contra hne
  rw [content_live fun heq => hne (congrArg some heq)] at hnone
  cases hnone

namespace Sound
variable (h : Sound z base a) {b : Extent}
include h

theorem in_data (he : e ∈ a.slots) (hlive : e ≠ freeSlot) : e.1 + e.2 ≤ a.data.length :=
  (h.inside e he hlive).2.trans h.fits

theorem content_write (hfits : e.1 + xs.length ≤ a.data.length) (hb : b ∈ a.slots) (hapart : Apart (e.1, xs.length) b) :
    content (write a.data e.1 xs) b = content a.data b := by
  by_cases hlive : b = freeSlot
  · rw [hlive, content_freeSlot, content_freeSlot]
  · rw [content_live hlive, content_live hlive, slice_write_apart hfits (h.in_data hb hlive) hapart.symm]

theorem apart_top (e : Extent) (he : a.freeStart ≤ e.1) (hb : b ∈ a.slots) : Apart e b := by
  by_cases hlive : b = freeSlot
  · rw [hlive]
    exact (apart_empty e).symm
  · exact .inr ((h.inside b hb hlive).2.trans he)

theorem apart_get {j : ℕ} (he : a.slots[i]? = some e) (hb : a.slots[j]? = some b) (hne : j ≠ i) : Apart e b := by
  obtain ⟨hi, rfl⟩ := List.getElem?_eq_some_iff.mp he
  obtain ⟨hj, rfl⟩ := List.getElem?_eq_some_iff.mp hb
  have hpair := pairwise_iff_getElem.mp h.apart
  rcases Nat.lt_or_gt_of_ne hne with hlt | hlt
  · exact (hpair j i hj hi hlt).symm
  · exact hpair i j hi hj hlt

theorem used_le : base + (a.slots.map Prod.snd).sum ≤ a.freeStart := by
  have hle : (a.slots.map Prod.snd).sum ≤ a.freeStart - base := by
    apply sum_lengths_le h.apart
    intro e he hpos
    apply h.inside e he
    rintro rfl
    exact absurd hpos (lt_irrefl 0)
  have := h.start
  omega

end Sound

/-! ## Growing -/

theorem Sound.pushFree (h : Sound z base a) : Sound z base a.pushFree where
  start := h.start
  fits := h.fits
  inside := by
    intro e he hlive
    rcases mem_append.mp he with he | he
    · exact h.inside e he hlive
    · exact absurd (mem_singleton.mp he) hlive
  apart := by
    refine pairwise_append.mpr ⟨h.apart, pairwise_singleton _ _, ?_⟩
    intro b _ e he
    rw [mem_singleton.mp he]
    exact (apart_empty b).symm
  blank := h.blank

theorem contents_pushFree (a : Arena α) : a.pushFree.contents = a.contents ++ [none] := by
  show (a.slots ++ [freeSlot]).map (content a.data) = _
  rw [map_append]
  rfl

theorem Clean.pushFree (h : a.Clean z) : a.pushFree.Clean z :=
  fun i hi => h i fun e he => hi e (mem_append_left _ he)

theorem Sound.blank_write (h : Sound z base a) (i : ℕ) (hi : i < base ∨ a.freeStart + xs.length ≤ i) :
    (write a.data a.freeStart xs).getD i z = z := by
  have hstart := h.start
  rw [getD_write_outside h.fits (by omega)]
  exact h.blank i (by omega)

section Write
variable (h : Sound z base a) (hfits : a.freeStart + xs.length ≤ a.data.length)
include h hfits

theorem Sound.content_top (hbase : 0 < base) : content (write a.data a.freeStart xs) (a.freeStart, xs.length) = some xs := by
  rw [content_live (ne_freeSlot hbase h.start), slice_write_self hfits]

theorem Sound.push : Sound z base (a.push xs) where
  start := h.start.trans (Nat.le_add_right _ _)
  fits := by
    show _ ≤ (write a.data a.freeStart xs).length
    rw [length_write hfits]
    exact hfits
  inside := by
    intro e he hlive
    rcases mem_append.mp he with he | he
    · have := h.inside e he hlive
      exact ⟨this.1, this.2.trans (Nat.le_add_right _ _)⟩
    · rw [mem_singleton.mp he]
      exact ⟨h.start, le_rfl⟩
  apart := by
    refine pairwise_append.mpr ⟨h.apart, pairwise_singleton _ _, ?_⟩
    intro b hb e he
    rw [mem_singleton.mp he]
    exact (h.apart_top _ le_rfl hb).symm
  blank := h.blank_write

theorem Sound.contents_push (hbase : 0 < base) : (a.push xs).contents = a.contents ++ [some xs] := by
  show (a.slots ++ [(a.freeStart, xs.length)]).map (content (write a.data a.freeStart xs)) = _
  rw [map_append, map_singleton, h.content_top hfits hbase]
  congr 1
  apply map_congr_left
  intro b hb
  exact h.content_write (e := (a.freeStart, xs.length)) hfits hb (h.apart_top _ le_rfl hb)

omit hfits in
theorem Clean.push (hclean : a.Clean z) : (a.push xs).Clean z := by
  intro i hi
  show (write a.data a.freeStart xs).getD i z = z
  rw [getD_write_outside h.fits (hi _ mem_concat_self)]
  exact hclean i fun e he => hi e (mem_append_left _ he)

end Write

/-! ## Changing one place of the list -/

theorem map_set_congr {γ : Type*} {f f' : β → γ} {l : List β} {b : β} (h : ∀ j c, l[j]? = some c → j ≠ i → f' c = f c) :
    (l.set i b).map f' = (l.map f).set i (f' b) := by
  apply ext_getElem?
  intro j
  rw [getElem?_map, getElem?_set, getElem?_set, getElem?_map, length_map]
  by_cases hj : i = j
  · rw [if_pos hj, if_pos hj]
    split <;> rfl
  · rw [if_neg hj, if_neg hj]
    cases hc : l[j]? with
    | none => rfl
    | some c => exact congrArg some (h j c hc (Ne.symm hj))

theorem pairwise_set {R : β → β → Prop} (hsymm : ∀ {x y}, R x y → R y x) {l : List β} {b : β} (h : l.Pairwise R)
    (hnew : ∀ j c, l[j]? = some c → j ≠ i → R b c) : (l.set i b).Pairwise R := by
  rw [pairwise_iff_getElem] at h ⊢
  intro j k hj hk hlt
  rw [length_set] at hj hk
  rw [getElem_set, getElem_set]
  split
  · rename_i hij
    rw [if_neg (by omega)]
    exact hnew k _ (getElem?_eq_getElem hk) (by omega)
  · rename_i hij
    split
    · exact hsymm (hnew j _ (getElem?_eq_getElem hj) (Ne.symm hij))
    · exact h j k hj hk hlt

theorem mem_set_cases {l : List β} {b c : β} (h : c ∈ l.set i b) : c = b ∨ ∃ j, j ≠ i ∧ l[j]? = some c := by
  obtain ⟨j, hj⟩ := mem_iff_getElem?.mp h
  rw [getElem?_set] at hj
  split at hj
  · split at hj
    · exact .inl (Option.some.inj hj).symm
    · cases hj
  · rename_i hij
    exact .inr ⟨j, Ne.symm hij, hj⟩

theorem mem_set_of_ne {l : List β} {b c : β} {j : ℕ} (h : l[j]? = some c) (hne : i ≠ j) : c ∈ l.set i b :=
  mem_of_getElem? ((getElem?_set_ne hne).trans h)

section Set
variable (h : Sound z base a) (he : a.slots[i]? = some e)
include h he

section Over
variable {ys : List α} {e' : Extent} (hlive : e ≠ freeSlot) (hlength : ys.length = e.2)
include hlive hlength

theorem Sound.over (hwithin : e' = freeSlot ∨ e'.1 = e.1 ∧ e'.2 ≤ e.2) :
    Sound z base { a with slots := a.slots.set i e', data := write a.data e.1 ys } := by
  have hmem := mem_of_getElem? he
  have hin := h.inside e hmem hlive
  have hfits : e.1 + ys.length ≤ a.data.length := hlength ▸ h.in_data hmem hlive
  refine ⟨h.start, ?_, ?_, ?_, ?_⟩
  · rw [length_write hfits]
    exact h.fits
  · intro b hb hb'
    rcases mem_set_cases hb with rfl | ⟨j, -, hj⟩
    · have := hwithin.resolve_left hb'
      show base ≤ b.1 ∧ b.1 + b.2 ≤ a.freeStart
      omega
    · exact h.inside b (mem_of_getElem? hj) hb'
  · apply pairwise_set Apart.symm h.apart
    intro j b hb hne
    rcases hwithin with rfl | hcut
    · exact apart_empty b
    · exact (h.apart_get he hb hne).mono_left hcut.1.ge (by omega)
  · intro k hk
    have hk : k < base ∨ a.freeStart ≤ k := hk
    rw [getD_write_outside (by omega) (by omega)]
    exact h.blank k hk

theorem Sound.contents_over :
    contents { a with slots := a.slots.set i e', data := write a.data e.1 ys } =
      a.contents.set i (content (write a.data e.1 ys) e') := by
  apply map_set_congr
  intro j b hb hne
  apply h.content_write (hlength ▸ h.in_data (mem_of_getElem? he) hlive) (mem_of_getElem? hb)
  rw [hlength]
  exact h.apart_get he hb hne

theorem Clean.over (hclean : a.Clean z) (hrest : ∀ k, ¬ Covers e' (e.1 + k) → ys.getD k z = z) :
    Clean z { a with slots := a.slots.set i e', data := write a.data e.1 ys } := by
  have hlt : i < a.slots.length := (List.getElem?_eq_some_iff.mp he).1
  have hin := h.in_data (mem_of_getElem? he) hlive
  intro k hk
  by_cases hcover : e.1 ≤ k ∧ k < e.1 + ys.length
  · rw [getD_write_inside (by omega) hcover.1 hcover.2]
    apply hrest
    rw [Nat.add_sub_of_le hcover.1]
    exact hk e' (mem_set hlt e')
  · rw [getD_write_outside (by omega) hcover]
    apply hclean
    intro b hb
    obtain ⟨j, hj⟩ := mem_iff_getElem?.mp hb
    by_cases hne : i = j
    · subst hne
      rw [he] at hj
      cases hj
      show ¬ (e.1 ≤ k ∧ k < e.1 + e.2)
      rw [← hlength]
      exact hcover
    · exact hk b (mem_set_of_ne hj hne)

end Over

theorem Sound.erase (hlive : e ≠ freeSlot) : Sound z base (a.erase z i e) := h.over he hlive length_replicate (.inl rfl)

theorem Sound.contents_erase (hlive : e ≠ freeSlot) : (a.erase z i e).contents = a.contents.set i none := by
  have hlength : (replicate e.2 z).length = e.2 := length_replicate
  rw [Arena.erase, h.contents_over he hlive hlength, content_freeSlot]

theorem Clean.erase (hlive : e ≠ freeSlot) (hclean : a.Clean z) : (a.erase z i e).Clean z := by
  apply Clean.over h he hlive length_replicate hclean
  intro k _
  exact getElem?_getD_replicate_default_eq ..

section Shrink
variable (hlive : e ≠ freeSlot) (hle : xs.length ≤ e.2)
include hlive hle

theorem Sound.shrink_eq : a.shrink z i e xs =
    { a with slots := a.slots.set i (e.1, xs.length), data := write a.data e.1 (xs ++ replicate (e.2 - xs.length) z) } := by
  have hin := h.in_data (mem_of_getElem? he) hlive
  rw [shrink, write_append (by omega)]

theorem Sound.shrink : Sound z base (a.shrink z i e xs) := by
  rw [h.shrink_eq he hlive hle]
  apply h.over he hlive
  · rw [length_append, length_replicate]
    omega
  · exact .inr ⟨rfl, hle⟩

theorem Sound.contents_shrink (hbase : 0 < base) : (a.shrink z i e xs).contents = a.contents.set i (some xs) := by
  have hmem := mem_of_getElem? he
  have hin := h.in_data hmem hlive
  have hne : (e.1, xs.length) ≠ freeSlot := ne_freeSlot hbase (h.inside e hmem hlive).1
  rw [h.shrink_eq he hlive hle, h.contents_over he hlive, content_live hne, slice_write_append (by omega)]
  rw [length_append, length_replicate]
  omega

theorem Clean.shrink (hclean : a.Clean z) : (a.shrink z i e xs).Clean z := by
  rw [h.shrink_eq he hlive hle]
  apply Clean.over h he hlive _ hclean
  · intro k hk
    have hk : ¬ (e.1 ≤ e.1 + k ∧ e.1 + k < e.1 + xs.length) := hk
    rw [getD_append_right _ _ _ _ (by omega)]
    exact getElem?_getD_replicate_default_eq ..
  · rw [length_append, length_replicate]
    omega

end Shrink

end Set

/-! ## Filling a place that was given up -/

section Place
variable (h : Sound z base a) (hfits : a.freeStart + xs.length ≤ a.data.length)
include h hfits

theorem Sound.place : Sound z base (a.place i xs) where
  start := h.start.trans (Nat.le_add_right _ _)
  fits := by
    show _ ≤ (write a.data a.freeStart xs).length
    rw [length_write hfits]
    exact hfits
  inside := by
    intro e he hlive
    rcases mem_set_cases he with rfl | ⟨j, -, hj⟩
    · exact ⟨h.start, le_rfl⟩
    · have := h.inside e (mem_of_getElem? hj) hlive
      exact ⟨this.1, this.2.trans (Nat.le_add_right _ _)⟩
  apart := by
    apply pairwise_set Apart.symm h.apart
    intro j b hb _
    exact h.apart_top _ le_rfl (mem_of_getElem? hb)
  blank := h.blank_write

theorem Sound.contents_place (hbase : 0 < base) : (a.place i xs).contents = a.contents.set i (some xs) := by
  rw [← h.content_top hfits hbase]
  apply map_set_congr
  intro j b hb _
  have hb := mem_of_getElem? hb
  exact h.content_write (e := (a.freeStart, xs.length)) hfits hb (h.apart_top _ le_rfl hb)

omit hfits in
theorem Clean.place (hfree : a.slots[i]? = some freeSlot) (hclean : a.Clean z) : (a.place i xs).Clean z := by
  have hlt : i < a.slots.length := (List.getElem?_eq_some_iff.mp hfree).1
  intro k hk
  show (write a.data a.freeStart xs).getD k z = z
  rw [getD_write_outside h.fits (hk _ (mem_set hlt _))]
  apply hclean
  intro b hb
  obtain ⟨j, hj⟩ := mem_iff_getElem?.mp hb
  by_cases hne : i = j
  · subst hne
    rw [hfree] at hj
    cases hj
    exact not_covers_freeSlot
  · exact hk b (mem_set_of_ne hj hne)

end Place

/-! ## Moving everything together -/

theorem sound_empty (h : base ≤ size) : Sound z base (empty z size base) where
  start := le_rfl
  fits := by
    show base ≤ (replicate size z).length
    rw [length_replicate]
    exact h
  inside := nofun
  apart := List.Pairwise.nil
  blank := fun _ _ => getElem?_getD_replicate_default_eq ..

theorem clean_empty : Clean z (empty z size base) := fun _ _ => getElem?_getD_replicate_default_eq ..

theorem repackStep_live (hlive : e ≠ freeSlot) (hin : e.1 + e.2 ≤ data.length) :
    repackStep data a e = a.push (slice data e.1 e.2) := by
  rw [repackStep, if_neg hlive, push, write, length_slice hin]

structure Moved (z : α) (base : ℕ) (data : List α) (a : Arena α) (es : List Extent) (b : Arena α) : Prop where
  sound : Sound z base b
  clean : b.Clean z
  contents : b.contents = a.contents ++ es.map (content data)
  freeStart : b.freeStart = a.freeStart + (es.map Prod.snd).sum
  length : b.data.length = a.data.length

theorem moved_step (hbase : 0 < base) (hsound : Sound z base a) (hclean : a.Clean z)
    (hin : e ≠ freeSlot → e.1 + e.2 ≤ data.length) (hfits : a.freeStart + e.2 ≤ a.data.length) :
    Moved z base data a [e] (repackStep data a e) := by
  by_cases hlive : e = freeSlot
  · subst hlive
    exact ⟨hsound.pushFree, hclean.pushFree, contents_pushFree a, rfl, rfl⟩
  · have hlength : (slice data e.1 e.2).length = e.2 := length_slice (hin hlive)
    rw [repackStep_live hlive (hin hlive)]
    have hfits : a.freeStart + (slice data e.1 e.2).length ≤ a.data.length := hlength.symm ▸ hfits
    refine ⟨hsound.push hfits, Clean.push hsound hclean, ?_, ?_, length_write hfits⟩
    · rw [hsound.contents_push hfits hbase, map_singleton, content_live hlive]
    · show a.freeStart + (slice data e.1 e.2).length = _
      rw [hlength, map_singleton, sum_singleton]

theorem moved_foldl (hbase : 0 < base) (es : List Extent) (hin : ∀ e ∈ es, e ≠ freeSlot → e.1 + e.2 ≤ data.length)
    (hsound : Sound z base a) (hclean : a.Clean z) (hfits : a.freeStart + (es.map Prod.snd).sum ≤ a.data.length) :
    Moved z base data a es (es.foldl (repackStep data) a) := by
  induction es generalizing a with
  | nil => exact ⟨hsound, hclean, (append_nil _).symm, rfl, rfl⟩
  | cons e es ih =>
    rw [map_cons, sum_cons] at hfits
    have hstep := moved_step hbase hsound hclean (hin e mem_cons_self) (by omega)
    have hfirst : (repackStep data a e).freeStart = a.freeStart + e.2 := by
      rw [hstep.freeStart, map_singleton, sum_singleton]
    have hrest := ih (forall_mem_cons.mp hin).2 hstep.sound hstep.clean (by rw [hfirst, hstep.length]; omega)
    refine ⟨hrest.sound, hrest.clean, ?_, ?_, hrest.length.trans hstep.length⟩
    · rw [foldl_cons, hrest.contents, hstep.contents, append_assoc]
      rfl
    · rw [foldl_cons, hrest.freeStart, hfirst, map_cons, sum_cons, add_assoc]

section Repack
variable (hbase : 0 < base) (h : Sound z base a) (hsize : a.data.length = size)
include hbase h hsize

theorem Sound.moved_repack : Moved z base a.data (empty z size base) a.slots (repack z size base a) := by
  have hfits := h.fits
  have hused := h.used_le
  apply moved_foldl hbase _ (fun e he hlive => h.in_data he hlive) (sound_empty (by omega)) clean_empty
  show base + _ ≤ (replicate size z).length
  rw [length_replicate]
  omega

end Repack

end Arena

end Buffer
