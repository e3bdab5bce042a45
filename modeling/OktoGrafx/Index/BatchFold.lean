import OktoGrafx.Index.OrderedTree

/-! A batch read change by change. An insert adds an identity that is absent, a tombstone stamps a live
entry, a remove takes the entry out; the dictionary of a leaf comes to the same. -/

namespace Grafx.Index

open List
open Keyed (lookup erase lookup_put)
open IndexEntry (identity bare)

def TreeChange.act (existing : Option IndexEntry) (c : TreeChange) : Option IndexEntry :=
  match c.operation with
  | .insert => some (existing.getD c.entry)
  | .tombstone => existing.map fun e => if e.live then e.endedAt c.csn c.csn_lt else e
  | .remove | .reset => none

def TreeChange.stamp (c : TreeChange) (e : IndexEntry) : IndexEntry :=
  if e.identity = c.identity ∧ e.live then e.endedAt c.csn c.csn_lt else e

def foldChange (es : List IndexEntry) (c : TreeChange) : List IndexEntry :=
  match c.operation with
  | .insert => if ∀ e ∈ es, e.identity ≠ c.identity then Keyed.insert identity es c.entry else es
  | .tombstone => es.map c.stamp
  | .remove | .reset => erase identity es c.identity

@[simp] theorem TreeChange.identity_stamp (c : TreeChange) (e : IndexEntry) : (c.stamp e).identity = e.identity := by
  unfold TreeChange.stamp
  split <;> rfl

theorem lookup_stamp (es : List IndexEntry) (c : TreeChange) (i : Identity) :
    lookup identity (es.map c.stamp) i = (lookup identity es i).map c.stamp := by
  induction es with
  | nil => rfl
  | cons e es ih =>
    rw [map_cons, Keyed.lookup_cons, Keyed.lookup_cons, TreeChange.identity_stamp, ih]
    split <;> rfl

theorem map_stamp_identity (es : List IndexEntry) (c : TreeChange) :
    (es.map c.stamp).map identity = es.map identity := by
  rw [map_map]
  exact map_congr_left fun e _ => c.identity_stamp e

section Cases
variable {c : TreeChange} {es : List IndexEntry}

theorem foldChange_insert_new (hop : c.operation = .insert) (h : ∀ e ∈ es, e.identity ≠ c.identity) :
    foldChange es c = Keyed.insert identity es c.entry := by
  rw [foldChange, hop]
  exact if_pos h

theorem foldChange_insert_old (hop : c.operation = .insert) (h : ¬ ∀ e ∈ es, e.identity ≠ c.identity) : foldChange es c = es := by
  rw [foldChange, hop]
  exact if_neg h

end Cases

theorem foldChange_step : Keyed.SortedStep identity TreeChange.identity TreeChange.act foldChange := by
  constructor
  · intro es c i hes
    cases hop : c.operation with
    | insert =>
      have hact : ∀ x, TreeChange.act x c = some (x.getD c.entry) := by simp [TreeChange.act, hop]
      by_cases hnew : ∀ e ∈ es, e.identity ≠ c.identity
      · rw [foldChange_insert_new hop hnew, hact]
        refine ⟨Keyed.nodup_insert hes hnew, ?_⟩
        have hentry : ∀ e ∈ es, e.identity ≠ c.entry.identity := hnew
        rw [Keyed.lookup_insert hes hentry, TreeChange.identity_entry]
        split
        · rename_i heq
          rw [Keyed.lookup_none_iff.mpr (heq ▸ hnew)]
          rfl
        · rfl
      · rw [foldChange_insert_old hop hnew, hact]
        refine ⟨hes, ?_⟩
        split
        · rename_i heq
          cases hfound : lookup identity es i with
          | none => exact absurd (heq ▸ Keyed.lookup_none_iff.mp hfound) hnew
          | some e => rfl
        · rfl
    | tombstone =>
      have hact : ∀ x, TreeChange.act x c = x.map fun e => if e.live then e.endedAt c.csn c.csn_lt else e := by
        simp [TreeChange.act, hop]
      have hfold : foldChange es c = es.map c.stamp := by rw [foldChange, hop]
      rw [hfold, hact, map_stamp_identity]
      refine ⟨hes, ?_⟩
      rw [lookup_stamp]
      cases hfound : lookup identity es i with
      | none => simp
      | some e =>
        obtain ⟨-, hkey⟩ := Keyed.lookup_some hfound
        rw [Option.map_some, Option.map_some, TreeChange.stamp, hkey]
        by_cases hi : c.identity = i
        · simp [hi]
        · simp [hi, Ne.symm hi]
    | remove | reset =>
      have hact : ∀ x, TreeChange.act x c = none := by simp [TreeChange.act, hop]
      have hfold : foldChange es c = erase identity es c.identity := by rw [foldChange, hop]
      rw [hfold, hact, Keyed.lookup_erase]
      exact ⟨Keyed.nodup_erase hes _, rfl⟩
  · intro es c hes
    unfold foldChange
    split
    · split
      · rename_i hnew
        exact Keyed.sorted_insert hes hnew
      · exact hes
    · unfold Keyed.Sorted
      rw [pairwise_map]
      refine hes.imp fun {a b} hab => ?_
      rwa [c.identity_stamp, c.identity_stamp]
    · exact hes.sublist filter_sublist
    · exact hes.sublist filter_sublist

/-! ## Entries wherever they are stored -/

theorem map_bare_foldChange (es : List IndexEntry) (c : TreeChange) :
    (foldChange es c).map bare = foldChange (es.map bare) c := by
  have hbare : (c.entry).bare = c.entry := rfl
  have hmem : (∀ e ∈ es.map bare, e.identity ≠ c.identity) ↔ ∀ e ∈ es, e.identity ≠ c.identity := forall_mem_map
  unfold foldChange
  cases c.operation with
  | insert =>
    simp only [hmem]
    split
    · exact map_orderedInsert _ _ bare es c.entry (fun _ _ => Iff.rfl) (fun _ _ => Iff.rfl)
    · rfl
  | tombstone =>
    simp only [map_map]
    refine map_congr_left fun e _ => ?_
    show (c.stamp e).bare = c.stamp e.bare
    unfold TreeChange.stamp
    show _ = if e.identity = c.identity ∧ e.live = true then _ else _
    split <;> rfl
  | remove =>
    simp only [erase, filter_map]
    rfl
  | reset =>
    simp only [erase, filter_map]
    rfl

theorem map_bare_foldl (batch : List TreeChange) (es : List IndexEntry) :
    (batch.foldl foldChange es).map bare = batch.foldl foldChange (es.map bare) := by
  induction batch generalizing es with
  | nil => rfl
  | cons c batch ih => rw [foldl_cons, foldl_cons, ih, map_bare_foldChange]

/-! ## The dictionary of a leaf -/

inductive Applied (s : LeafState) (c : TreeChange) : LeafState → Prop where
  | kept (e : IndexEntry) (hfound : lookup identity s.byIdentity c.identity = some e) (hact : c.act (some e) = some e) :
      Applied s c s
  | missed (hfound : lookup identity s.byIdentity c.identity = none) (hact : c.act none = none) :
      Applied s c { s with missing := s.missing + 1 }
  | added (hfound : lookup identity s.byIdentity c.identity = none) (hact : c.act none = some c.entry) :
      Applied s c { s with byIdentity := Keyed.put identity s.byIdentity c.entry, changed := true, delta := s.delta + 1 }
  | stamped (e e' : IndexEntry) (hfound : lookup identity s.byIdentity c.identity = some e)
      (hact : c.act (some e) = some e') (hidentity : e'.identity = c.identity) :
      Applied s c { s with byIdentity := Keyed.put identity s.byIdentity e', changed := true }
  | removed (e : IndexEntry) (hfound : lookup identity s.byIdentity c.identity = some e) (hact : c.act (some e) = none) :
      Applied s c { s with byIdentity := erase identity s.byIdentity c.identity, changed := true, delta := s.delta - 1 }

theorem applyChange_applied (s : LeafState) (c : TreeChange) : Applied s c (applyChange s c) := by
  unfold applyChange
  split
  · rename_i hfound hop
    exact .added hfound (by rw [TreeChange.act, hop]; rfl)
  · rename_i e hfound hop
    exact .kept e hfound (by rw [TreeChange.act, hop]; rfl)
  · rename_i hfound hop
    refine .missed hfound ?_
    unfold TreeChange.act
    cases h : c.operation with
    | insert => exact absurd h hop
    | tombstone => rfl
    | remove => rfl
    | reset => rfl
  · rename_i e hfound hop
    have hidentity : e.identity = c.identity := (Keyed.lookup_some hfound).2
    split
    · rename_i hlive
      exact .stamped e _ hfound (by simp [TreeChange.act, hop, hlive]) hidentity
    · rename_i hlive
      exact .kept e hfound (by simp [TreeChange.act, hop, hlive])
  · rename_i e hfound hinsert htombstone
    refine .removed e hfound ?_
    unfold TreeChange.act
    cases h : c.operation with
    | insert => exact absurd h hinsert
    | tombstone => exact absurd h htombstone
    | remove => rfl
    | reset => rfl

section Applied
variable {s s' : LeafState} {c : TreeChange}

variable (h : Applied s c s')
include h

theorem Applied.lookup (i : Identity) : lookup identity s'.byIdentity i =
    if c.identity = i then TreeChange.act (lookup identity s.byIdentity i) c
    else lookup identity s.byIdentity i := by
  by_cases hi : c.identity = i
  · subst hi
    rw [if_pos rfl]
    cases h with
    | kept e hfound hact => rw [hfound, hact]
    | missed hfound hact => rw [hfound, hact]
    | added hfound hact =>
      rw [hfound, hact, lookup_put]
      exact if_pos rfl
    | stamped e e' hfound hact hidentity => rw [hfound, hact, lookup_put, if_pos hidentity]
    | removed e hfound hact => rw [hfound, hact, Keyed.lookup_erase, if_pos rfl]
  · rw [if_neg hi]
    cases h with
    | kept e hfound hact => rfl
    | missed hfound hact => rfl
    | added hfound hact =>
      rw [lookup_put]
      exact if_neg hi
    | stamped e e' hfound hact hidentity => rw [lookup_put, hidentity, if_neg hi]
    | removed e hfound hact => rw [Keyed.lookup_erase, if_neg hi]

theorem Applied.nodup (hs : (s.byIdentity.map identity).Nodup) : (s'.byIdentity.map identity).Nodup := by
  cases h with
  | kept e hfound hact => exact hs
  | missed hfound hact => exact hs
  | added hfound hact => exact Keyed.nodup_put hs _
  | stamped e e' hfound hact hidentity => exact Keyed.nodup_put hs _
  | removed e hfound hact => exact Keyed.nodup_erase hs _

theorem Applied.length (hs : (s.byIdentity.map identity).Nodup) :
    (s'.byIdentity.length : ℤ) - s'.delta = s.byIdentity.length - s.delta := by
  cases h with
  | kept e hfound hact => rfl
  | missed hfound hact => rfl
  | added hfound hact =>
    have hlength : (Keyed.put identity s.byIdentity c.entry).length = s.byIdentity.length + 1 := Keyed.length_put_none hfound
    simp only [hlength]
    omega
  | stamped e e' hfound hact hidentity =>
    rw [← hidentity] at hfound
    simp only [Keyed.length_put_some hfound]
  | removed e hfound hact =>
    have hlength := Keyed.length_erase_some hs hfound
    simp only
    omega

theorem Applied.unchanged (hsame : s'.changed = false) : s.changed = false ∧ s'.byIdentity = s.byIdentity ∧ s'.delta = s.delta := by
  cases h with
  | kept e hfound hact => exact ⟨hsame, rfl, rfl⟩
  | missed hfound hact => exact ⟨hsame, rfl, rfl⟩
  | added hfound hact => exact nomatch hsame
  | stamped e e' hfound hact hidentity => exact nomatch hsame
  | removed e hfound hact => exact nomatch hsame

end Applied

theorem foldl_applyChange (batch : List TreeChange) (s : LeafState) (hs : (s.byIdentity.map identity).Nodup) :
    ((batch.foldl applyChange s).byIdentity.map identity).Nodup ∧
    (∀ i, lookup identity (batch.foldl applyChange s).byIdentity i =
      (Keyed.allAt TreeChange.identity batch i).foldl TreeChange.act (lookup identity s.byIdentity i)) ∧
    ((batch.foldl applyChange s).byIdentity.length : ℤ) - (batch.foldl applyChange s).delta = s.byIdentity.length - s.delta ∧
    ((batch.foldl applyChange s).changed = false → s.changed = false ∧ (batch.foldl applyChange s).byIdentity = s.byIdentity ∧
      (batch.foldl applyChange s).delta = s.delta) := by
  induction batch generalizing s with
  | nil => exact ⟨hs, fun _ => rfl, rfl, fun h => ⟨h, rfl, rfl⟩⟩
  | cons c batch ih =>
    have hstep := applyChange_applied s c
    obtain ⟨hnodup, hlookup, hlength, hsame⟩ := ih (applyChange s c) (hstep.nodup hs)
    rw [foldl_cons]
    refine ⟨hnodup, fun i => ?_, hlength.trans (hstep.length hs), fun h => ?_⟩
    · rw [hlookup, hstep.lookup]
      by_cases hi : c.identity = i
      · rw [if_pos hi, Keyed.allAt_cons_eq hi, foldl_cons]
      · rw [if_neg hi, Keyed.allAt_cons_ne hi]
    · obtain ⟨hbefore, hentries, hdelta⟩ := hsame h
      obtain ⟨hclean, hentries', hdelta'⟩ := hstep.unchanged hbefore
      exact ⟨hclean, hentries.trans hentries', hdelta.trans hdelta'⟩

variable {es : List IndexEntry} (hes : Keyed.Sorted identity es)
include hes

theorem sort_applied (batch : List TreeChange) :
    Keyed.sort identity (batch.foldl applyChange ⟨es, false, 0, 0⟩).byIdentity = batch.foldl foldChange es := by
  obtain ⟨hnodup, hlookup, -, -⟩ := foldl_applyChange batch ⟨es, false, 0, 0⟩ hes.nodup
  refine (Keyed.sorted_sort hnodup).ext (foldChange_step.foldl_sorted batch hes) fun i => ?_
  rw [Keyed.lookup_sort hnodup, hlookup, foldChange_step.lookup_foldl batch hes]

theorem delta_applied (batch : List TreeChange) :
    ((batch.foldl foldChange es).length : ℤ) = es.length + (batch.foldl applyChange ⟨es, false, 0, 0⟩).delta := by
  obtain ⟨-, -, hlength, -⟩ := foldl_applyChange batch ⟨es, false, 0, 0⟩ hes.nodup
  rw [← sort_applied hes batch, (Keyed.sort_perm _).length_eq]
  simp only at hlength
  omega

theorem unchanged_applied {batch : List TreeChange}
    (h : (batch.foldl applyChange ⟨es, false, 0, 0⟩).changed = false) : batch.foldl foldChange es = es := by
  obtain ⟨-, hlookup, -, hsame⟩ := foldl_applyChange batch ⟨es, false, 0, 0⟩ hes.nodup
  refine (foldChange_step.foldl_sorted batch hes).ext hes fun i => ?_
  rw [foldChange_step.lookup_foldl batch hes, ← hlookup, (hsame h).2.1]

end Grafx.Index
