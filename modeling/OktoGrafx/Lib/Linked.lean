import Mathlib

/-! Chains in a store whose cells name their successor. A chain that ends is determined by its
start, visits no cell twice, and only depends on the successors of the cells it visits. -/

variable {ι : Type*}

def Linked (next : ι → Option ι) : Option ι → List ι → Prop
  | none, [] => True
  | some i, j :: rest => i = j ∧ Linked next (next i) rest
  | none, _ :: _ => False
  | some _, [] => False

namespace Linked

open List
variable {next next' : ι → Option ι} {start : Option ι} {xs ys : List ι} {i j : ι}

theorem some_iff : Linked next (some i) xs ↔ ∃ rest, xs = i :: rest ∧ Linked next (next i) rest := by
  cases xs with
  | nil => exact ⟨False.elim, fun ⟨_, h, _⟩ => nomatch h⟩
  | cons x rest =>
    constructor
    · rintro ⟨rfl, h⟩
      exact ⟨rest, rfl, h⟩
    · rintro ⟨rest', h, hrest⟩
      cases h
      exact ⟨rfl, hrest⟩

theorem none_iff : Linked next none xs ↔ xs = [] := by
  cases xs with
  | nil => exact ⟨fun _ => rfl, fun _ => trivial⟩
  | cons x rest => exact ⟨False.elim, nofun⟩

theorem cons_iff : Linked next start (i :: xs) ↔ start = some i ∧ Linked next (next i) xs := by
  cases start with
  | none => exact ⟨False.elim, fun h => nomatch h.1⟩
  | some k =>
    constructor
    · rintro ⟨rfl, h⟩
      exact ⟨rfl, h⟩
    · rintro ⟨h, hrest⟩
      cases h
      exact ⟨rfl, hrest⟩

theorem unique (hx : Linked next start xs) (hy : Linked next start ys) : xs = ys := by
  induction xs generalizing start ys with
  | nil =>
    cases start with
    | none => exact (none_iff.mp hy).symm
    | some i => exact hx.elim
  | cons x xs ih =>
    obtain ⟨rfl, hxs⟩ := cons_iff.mp hx
    obtain ⟨rest, rfl, hrest⟩ := some_iff.mp hy
    rw [ih hxs hrest]

theorem congr (hx : Linked next start xs) (h : ∀ k ∈ xs, next' k = next k) : Linked next' start xs := by
  induction xs generalizing start with
  | nil =>
    cases start with
    | none => trivial
    | some i => exact hx.elim
  | cons x xs ih =>
    obtain ⟨rfl, hxs⟩ := cons_iff.mp hx
    have htail := ih hxs (forall_mem_cons.mp h).2
    rw [← h x mem_cons_self] at htail
    exact ⟨rfl, htail⟩

theorem suffix {pre post : List ι} (h : Linked next start (pre ++ i :: post)) : Linked next (some i) (i :: post) := by
  induction pre generalizing start with
  | nil => exact ⟨rfl, (cons_iff.mp h).2⟩
  | cons x pre ih => exact ih (cons_iff.mp h).2

theorem nodup (h : Linked next start xs) : xs.Nodup := by
  induction xs generalizing start with
  | nil => exact nodup_nil
  | cons x xs ih =>
    obtain ⟨rfl, hrest⟩ := cons_iff.mp h
    refine nodup_cons.mpr ⟨?_, ih hrest⟩
    -- A second visit would be the start of a shorter chain from the same cell.
    intro hmem
    obtain ⟨pre, post, rfl⟩ := append_of_mem hmem
    have hsame := unique (suffix hrest) h
    have hlength := congrArg length hsame
    simp at hlength
    omega

theorem unseen {seen : List ι} (h : Linked next start (i :: xs)) (hseen : ∀ k ∈ i :: xs, k ∉ seen) : ∀ k ∈ xs, k ∉ i :: seen := by
  intro k hk hmem
  rcases mem_cons.mp hmem with rfl | hmem
  · exact (nodup_cons.mp h.nodup).1 hk
  · exact hseen k (mem_cons_of_mem i hk) hmem

theorem relink {keep : ι → Bool} (h : Linked next start xs)
    (hnext : ∀ pre k post, xs = pre ++ k :: post → keep k = true → next' k = post.find? keep) :
    Linked next' (xs.find? keep) (xs.filter keep) := by
  induction xs generalizing start with
  | nil => trivial
  | cons x xs ih =>
    obtain ⟨rfl, hxs⟩ := cons_iff.mp h
    have htail := ih hxs fun pre k post heq => hnext (x :: pre) k post (by rw [heq, cons_append])
    cases hx : keep x with
    | false => rwa [find?_cons_of_neg (by simp [hx]), filter_cons_of_neg (by simp [hx])]
    | true =>
      rw [find?_cons_of_pos hx, filter_cons_of_pos hx]
      refine ⟨rfl, ?_⟩
      rw [hnext [] x xs rfl hx]
      exact htail

theorem ne_nil (h : Linked next (some i) xs) : xs ≠ [] := by
  rintro rfl
  exact h.elim

theorem concat (h : Linked next start xs) (hlast : xs.getLast? = some i) (hj : j ∉ xs)
    (hlink : next' i = some j) (hend : next' j = none) (hsame : ∀ k, k ∈ xs → k ≠ i → next' k = next k) :
    Linked next' start (xs ++ [j]) := by
  induction xs generalizing start with
  | nil => simp at hlast
  | cons x xs ih =>
    obtain ⟨rfl, hrest⟩ := cons_iff.mp h
    refine ⟨rfl, ?_⟩
    cases xs with
    | nil =>
      obtain rfl : x = i := by simpa using hlast
      rw [hlink]
      refine ⟨rfl, ?_⟩
      rw [hend]
      trivial
    | cons y ys =>
      have hne : x ≠ i := by
        rintro rfl
        have hmem : x ∈ y :: ys := mem_of_getLast? (by simpa using hlast)
        exact (nodup_cons.mp h.nodup).1 hmem
      rw [hsame x mem_cons_self hne]
      refine ih hrest (by simpa using hlast) (fun hmem => hj (mem_cons_of_mem x hmem)) fun k hk hki =>
        hsame k (mem_cons_of_mem x hk) hki

end Linked
