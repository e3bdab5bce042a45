import Mathlib

/-! Multi-version stores. A store keeps every version of every key, each with the numbers of the
commits that gave birth to it and ended it, and answers for the state after any commit by the
versions alive at its number. -/

namespace MultiVersion

open List

structure Version (κ ν : Type*) where
  key : κ
  value : ν
  born : Option ℕ
  died : Option ℕ

variable {κ ν : Type*}

def AliveAt (n : ℕ) (v : Version κ ν) : Prop := (∃ b, v.born = some b ∧ b ≤ n) ∧ ∀ d, v.died = some d → n < d

structure Represents (vs : List (Version κ ν)) (last : ℕ) (state : ℕ → κ → Option ν) : Prop where
  sound : ∀ v ∈ vs, ∀ n, AliveAt n v → state n v.key = some v.value
  complete : ∀ n k x, state n k = some x → ∃ v ∈ vs, AliveAt n v ∧ v.key = k
  disjoint : vs.Pairwise fun v w => v.key = w.key → ∀ n, AliveAt n v → ¬ AliveAt n w
  bounded : ∀ v ∈ vs, (∀ b, v.born = some b → b ≤ last) ∧ ∀ d, v.died = some d → d ≤ last
  settled : ∀ n, last ≤ n → state n = state last

/-- A commit ends the items it replaces, keeps all else about them, and adds its own versions. -/
structure Commits {ι : Type*} (csn last : ℕ) (items : List ι) (view view' : ι → Version κ ν) (new : List (Version κ ν))
    (effects : κ → Option (Option ν)) : Prop where
  later : last < csn
  kept : ∀ i ∈ items, (view' i).key = (view i).key ∧ (view' i).value = (view i).value ∧ (view' i).born = (view i).born
  ended : ∀ i ∈ items, AliveAt last (view i) → (effects (view i).key).isSome → (view' i).died = some csn
  untouched : ∀ i ∈ items, ¬ (AliveAt last (view i) ∧ (effects (view i).key).isSome) → (view' i).died = (view i).died
  birth : ∀ w ∈ new, w.born = some csn ∧ w.died = none ∧ effects w.key = some (some w.value)
  all : ∀ k x, effects k = some (some x) → ∃ w ∈ new, w.key = k
  distinct : new.Pairwise fun v w => v.key ≠ w.key

def overrides (effects : κ → Option (Option ν)) (state : κ → Option ν) (k : κ) : Option ν := (effects k).getD (state k)

section
variable {vs : List (Version κ ν)} {last csn n : ℕ} {state : ℕ → κ → Option ν} {effects : κ → Option (Option ν)}

theorem Represents.alive_iff (h : Represents vs last state) {v : Version κ ν} (hv : v ∈ vs) (hn : last ≤ n) :
    AliveAt n v ↔ v.born.isSome ∧ v.died = none := by
  obtain ⟨hborn, hdied⟩ := h.bounded v hv
  constructor
  · rintro ⟨⟨b, hb, -⟩, hopen⟩
    refine ⟨by simp [hb], Option.eq_none_iff_forall_ne_some.mpr fun d hd => ?_⟩
    exact absurd (hopen d hd) (not_lt.mpr ((hdied d hd).trans hn))
  · rintro ⟨hb, hd⟩
    obtain ⟨b, hb⟩ := Option.isSome_iff_exists.mp hb
    exact ⟨⟨b, hb, (hborn b hb).trans hn⟩, fun d hd' => by rw [hd] at hd'; cases hd'⟩

section Commit
variable {ι : Type*} {items : List ι} {view view' : ι → Version κ ν} {new : List (Version κ ν)} {i : ι}
  (h : Represents (items.map view) last state) (hc : Commits csn last items view view' new effects)
include h hc

theorem Represents.alive_below (hi : i ∈ items) (hn : n < csn) : AliveAt n (view' i) ↔ AliveAt n (view i) := by
  obtain ⟨-, -, hborn⟩ := hc.kept i hi
  by_cases htouched : AliveAt last (view i) ∧ (effects (view i).key).isSome
  · have hdied := hc.ended i hi htouched.1 htouched.2
    have hnone := ((h.alive_iff (mem_map_of_mem hi) le_rfl).mp htouched.1).2
    simp [AliveAt, hborn, hdied, hnone, hn]
  · simp only [AliveAt, hborn, hc.untouched i hi htouched]

theorem Represents.alive_above (hi : i ∈ items) (hn : csn ≤ n) :
    AliveAt n (view' i) ↔ AliveAt last (view i) ∧ effects (view i).key = none := by
  obtain ⟨-, -, hborn⟩ := hc.kept i hi
  by_cases htouched : AliveAt last (view i) ∧ (effects (view i).key).isSome
  · have hdied := hc.ended i hi htouched.1 htouched.2
    have hsome : effects (view i).key ≠ none := Option.isSome_iff_ne_none.mp htouched.2
    have hdead : ¬ AliveAt n (view' i) := fun halive => absurd (halive.2 csn hdied) (not_lt.mpr hn)
    simp [hdead, hsome]
  · have hsame : AliveAt n (view' i) ↔ AliveAt n (view i) := by
      simp only [AliveAt, hborn, hc.untouched i hi htouched]
    have hmem : view i ∈ items.map view := mem_map_of_mem hi
    rw [hsame, h.alive_iff hmem ((Nat.le_of_lt hc.later).trans hn), ← h.alive_iff hmem le_rfl]
    constructor
    · intro halive
      exact ⟨halive, Option.not_isSome_iff_eq_none.mp fun hsome => htouched ⟨halive, hsome⟩⟩
    · exact And.left

omit h in
theorem Commits.alive_new {w : Version κ ν} (hw : w ∈ new) : AliveAt n w ↔ csn ≤ n := by
  obtain ⟨hborn, hdied, -⟩ := hc.birth w hw
  simp [AliveAt, hborn, hdied]

theorem Represents.commit_sound : ∀ v ∈ items.map view' ++ new, ∀ n, AliveAt n v →
    (if n < csn then state n else overrides effects (state last)) v.key = some v.value := by
  intro v hv n hn
  rcases mem_append.mp hv with hv | hv
  · obtain ⟨i, hi, rfl⟩ := mem_map.mp hv
    have hmem : view i ∈ items.map view := mem_map_of_mem hi
    obtain ⟨hkey, hvalue, -⟩ := hc.kept i hi
    rw [hkey, hvalue]
    split_ifs with hlt
    · exact h.sound _ hmem n ((h.alive_below hc hi hlt).mp hn)
    · obtain ⟨hlive, huntouched⟩ := (h.alive_above hc hi (not_lt.mp hlt)).mp hn
      rw [overrides, huntouched]
      exact h.sound _ hmem last hlive
  · have hle := (hc.alive_new hv).mp hn
    rw [if_neg (not_lt.mpr hle), overrides, (hc.birth v hv).2.2, Option.getD_some]

theorem Represents.commit_complete (n : ℕ) (k : κ) (x : ν)
    (hx : (if n < csn then state n else overrides effects (state last)) k = some x) :
    ∃ v ∈ items.map view' ++ new, AliveAt n v ∧ v.key = k := by
  by_cases hlt : n < csn
  · rw [if_pos hlt] at hx
    obtain ⟨v, hv, hlive, rfl⟩ := h.complete n k x hx
    obtain ⟨i, hi, rfl⟩ := mem_map.mp hv
    exact ⟨view' i, mem_append_left _ (mem_map_of_mem hi), (h.alive_below hc hi hlt).mpr hlive,
      (hc.kept i hi).1⟩
  · have hle := not_lt.mp hlt
    rw [if_neg hlt] at hx
    cases heffect : effects k with
    | none =>
      rw [overrides, heffect, Option.getD_none] at hx
      obtain ⟨v, hv, hlive, rfl⟩ := h.complete last k x hx
      obtain ⟨i, hi, rfl⟩ := mem_map.mp hv
      exact ⟨view' i, mem_append_left _ (mem_map_of_mem hi), (h.alive_above hc hi hle).mpr ⟨hlive, heffect⟩,
        (hc.kept i hi).1⟩
    | some effect =>
      rw [overrides, heffect, Option.getD_some] at hx
      obtain ⟨w, hw, rfl⟩ := hc.all k x (hx ▸ heffect)
      exact ⟨w, mem_append_right _ hw, (hc.alive_new hw).mpr hle, rfl⟩

theorem Represents.commit_disjoint :
    (items.map view' ++ new).Pairwise fun v w => v.key = w.key → ∀ n, AliveAt n v → ¬ AliveAt n w := by
  have hdisjoint := pairwise_map.mp h.disjoint
  refine pairwise_append.mpr ⟨pairwise_map.mpr (hdisjoint.imp_of_mem ?_), hc.distinct.imp ?_, ?_⟩
  · intro i j hi hj hij hkey n hn hn'
    rw [(hc.kept i hi).1, (hc.kept j hj).1] at hkey
    by_cases hlt : n < csn
    · exact hij hkey n ((h.alive_below hc hi hlt).mp hn) ((h.alive_below hc hj hlt).mp hn')
    · have hle := not_lt.mp hlt
      exact hij hkey last ((h.alive_above hc hi hle).mp hn).1 ((h.alive_above hc hj hle).mp hn').1
  · intro v w hne hkey
    exact absurd hkey hne
  · intro v hv w hw hkey n hn hn'
    obtain ⟨i, hi, rfl⟩ := mem_map.mp hv
    rw [(hc.kept i hi).1] at hkey
    have huntouched := ((h.alive_above hc hi ((hc.alive_new hw).mp hn')).mp hn).2
    rw [hkey, (hc.birth w hw).2.2] at huntouched
    cases huntouched

theorem Represents.commit_bounded :
    ∀ v ∈ items.map view' ++ new, (∀ b, v.born = some b → b ≤ csn) ∧ ∀ d, v.died = some d → d ≤ csn := by
  have hlast := hc.later.le
  intro v hv
  rcases mem_append.mp hv with hv | hv
  · obtain ⟨i, hi, rfl⟩ := mem_map.mp hv
    obtain ⟨hb, hd⟩ := h.bounded _ (mem_map_of_mem hi)
    rw [(hc.kept i hi).2.2]
    refine ⟨fun b hb' => (hb b hb').trans hlast, fun d hd' => ?_⟩
    by_cases htouched : AliveAt last (view i) ∧ (effects (view i).key).isSome
    · rw [hc.ended i hi htouched.1 htouched.2] at hd'
      exact (Option.some.inj hd').symm.le
    · rw [hc.untouched i hi htouched] at hd'
      exact (hd d hd').trans hlast
  · obtain ⟨hborn, hdied, -⟩ := hc.birth v hv
    rw [hborn, hdied]
    exact ⟨fun b hb => (Option.some.inj hb).symm.le, nofun⟩

theorem Represents.commit :
    Represents (items.map view' ++ new) csn fun n => if n < csn then state n else overrides effects (state last) where
  sound := h.commit_sound hc
  complete := h.commit_complete hc
  disjoint := h.commit_disjoint hc
  bounded := h.commit_bounded hc
  settled n hn := by simp only [if_neg (not_lt.mpr hn), lt_irrefl, if_false]

end Commit

theorem Represents.append_unborn (h : Represents vs last state) {new : List (Version κ ν)}
    (hnew : ∀ w ∈ new, w.born = none ∧ w.died = none) : Represents (vs ++ new) last state := by
  have hdead : ∀ w ∈ new, ∀ n, ¬ AliveAt n w := by
    rintro w hw n ⟨⟨b, hb, -⟩, -⟩
    rw [(hnew w hw).1] at hb
    cases hb
  refine ⟨?_, ?_, ?_, ?_, h.settled⟩
  · intro v hv n hn
    rcases mem_append.mp hv with hv | hv
    · exact h.sound v hv n hn
    · exact absurd hn (hdead v hv n)
  · intro n k x hx
    obtain ⟨v, hv, hrest⟩ := h.complete n k x hx
    exact ⟨v, mem_append_left _ hv, hrest⟩
  · refine pairwise_append.mpr ⟨h.disjoint, ?_, ?_⟩
    · exact pairwise_of_forall_mem_list fun v hv w _ _ n hn => absurd hn (hdead v hv n)
    · intro v _ w hw _ n _ hn
      exact hdead w hw n hn
  · intro v hv
    rcases mem_append.mp hv with hv | hv
    · exact h.bounded v hv
    · obtain ⟨hb, hd⟩ := hnew v hv
      rw [hb, hd]
      exact ⟨nofun, nofun⟩

theorem represents_nil : Represents ([] : List (Version κ ν)) 0 fun _ _ => none :=
  ⟨nofun, nofun, List.Pairwise.nil, nofun, fun _ _ => rfl⟩

/-! ## Reading -/

theorem Represents.value_eq (h : Represents vs last state) {k : κ} {x : ν} :
    state n k = some x ↔ ∃ v ∈ vs, AliveAt n v ∧ v.key = k ∧ v.value = x := by
  constructor
  · intro hx
    obtain ⟨v, hv, hn, rfl⟩ := h.complete n k x hx
    have hvalue := h.sound v hv n hn
    rw [hx] at hvalue
    exact ⟨v, hv, hn, rfl, (Option.some.inj hvalue).symm⟩
  · rintro ⟨v, hv, hn, rfl, rfl⟩
    exact h.sound v hv n hn

theorem Represents.item_unique {ι : Type*} {items : List ι} {view : ι → Version κ ν}
    (h : Represents (items.map view) last state) {i j : ι} (hi : i ∈ items) (hj : j ∈ items)
    (hkey : (view i).key = (view j).key) (hni : AliveAt n (view i)) (hnj : AliveAt n (view j)) : i = j := by
  have hpairs := pairwise_map.mp h.disjoint
  have : Std.Symm fun i j => (view i).key = (view j).key → ∀ n, AliveAt n (view i) → ¬ AliveAt n (view j) :=
    ⟨fun i j hij hkey n hn hn' => hij hkey.symm n hn' hn⟩
  by_contra hne
  exact hpairs.forall hi hj hne hkey n hni hnj

end
end MultiVersion
