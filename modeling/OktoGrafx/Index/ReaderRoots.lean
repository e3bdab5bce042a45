import OktoGrafx.Index.PublishRuns

/-! Readers beside a publisher. The pages a root reaches remain safe to walk while others publish: all that is
written meanwhile, or is left by a call that was cut short, lies behind the end of the file. -/

namespace Grafx.Index

open List Checked

variable {ix : OrderedIndex} {log : List Batch} {es : List IndexEntry} {s t : PublishState} {b : Batch} {pages pages' : ℕ → Option TreePage}
  {rootPage height start : ℕ}

section
variable (h : Tree pages rootPage height) (hagree : Agree pages pages' start) (hbelow : rootPage ≠ noPage → rootPage < start)
include h hagree hbelow

theorem Tree.seek_transfer (key : Bytes) : seekOrderedExact pages' rootPage height key = seekOrderedExact pages rootPage height key := by
  obtain ⟨htree, hentries⟩ := h.transfer hagree hbelow
  rw [htree.seek, h.seek, hentries]

theorem Tree.walk_transfer (upper : Option Bytes) (limit : Option ℕ) :
    walkOrderedDesc pages' rootPage height upper limit = walkOrderedDesc pages rootPage height upper limit := by
  obtain ⟨htree, hentries⟩ := h.transfer hagree hbelow
  cases hupper : checkUpper upper with
  | error e =>
    rw [walkOrderedDesc, walkOrderedDesc, hupper]
    rfl
  | ok _ => rw [htree.walk upper limit hupper, h.walk upper limit hupper, hentries]

end

structure Extends (f f' : OrderedFile) : Prop where
  agree : Agree f.loader f'.loader f.pageCount
  count : f.pageCount ≤ f'.pageCount

theorem Holds.extends_call (h : Holds ix log es s) (hcall : Call ix log s b t) : Extends s.file t.file := by
  rcases hcall.cases with rfl | ⟨p, hplan, hcase⟩
  · exact ⟨fun _ _ => rfl, le_rfl⟩
  obtain ⟨slot, hsound⟩ := h.sound
  obtain ⟨-, -, hoverlay⟩ := hsound.appended (hsound.plans hplan)
  have hmore : s.file.pageCount ≤ s.file.pageCount + p.pages.length := Nat.le_add_right _ _
  rcases hcase with ⟨f, hcut, rfl⟩ | rfl
  · cases hcut with
    | data hagree hcount => exact ⟨loader_agree hagree hcount _, hcount⟩
    | lost => exact ⟨loader_agree hoverlay hmore _, hmore⟩
    | torn _ => exact ⟨loader_agree hoverlay hmore _, hmore⟩
  · exact ⟨loader_agree hoverlay hmore _, hmore⟩

theorem Holds.extends_runs (h : Holds ix log es s) (hlog : Keyed.Sorted Batch.appliedThroughLsn log) (hrun : Runs ix log s t) :
    Extends s.file t.file := by
  induction hrun with
  | refl => exact ⟨fun _ _ => rfl, le_rfl⟩
  | tail hrun hcall ih =>
    obtain ⟨b, -, hcall⟩ := hcall
    have hlast := (h.runs hlog hrun).extends_call hcall
    exact ⟨fun u hu => (hlast.agree u (hu.trans_le ih.count)).trans (ih.agree u hu), ih.count.trans hlast.count⟩

/-- Whatever calls follow, returned, refused or cut short at any write, a root that was current once answers
every seek and every walk as it did then. -/
theorem reader_keeps_root (ix : OrderedIndex) (entries : List IndexEntry) (applied reconciled : ℕ) (x : OrderedRootDescriptor) (f : OrderedFile)
    (hcreated : createBulk ix entries applied reconciled = .ok (x, f)) (log : List Batch) (hlog : Keyed.Sorted Batch.appliedThroughLsn log)
    (s t : PublishState) (hrun : Runs ix log (.created f x) s) (hlater : Runs ix log s t) :
    (∀ key, seekOrderedExact t.file.loader s.published.rootPage s.published.height key =
      seekOrderedExact s.file.loader s.published.rootPage s.published.height key) ∧
    ∀ upper limit, walkOrderedDesc t.file.loader s.published.rootPage s.published.height upper limit =
      walkOrderedDesc s.file.loader s.published.rootPage s.published.height upper limit := by
  have h := (Holds.created hcreated log).runs hlog hrun
  obtain ⟨slot, hsound⟩ := h.sound
  have hagree := (h.extends_runs hlog hlater).agree
  exact ⟨hsound.tree.seek_transfer hagree hsound.within, hsound.tree.walk_transfer hagree hsound.within⟩

/-- The entry is found from the first root, in its one leaf, after a call that was cut short and another that published a
second entry under a new root. -/
theorem reader_keeps_leaf_root : ∃ x f t, createBulk ordersByName [longEntry 0] 4 4 = .ok (x, f) ∧
    Runs ordersByName [insertOne 1 5] (.created f x) t ∧ t.published ≠ x ∧
    (seekOrderedExact t.file.loader x.rootPage x.height (longEntry 0).key).map (List.map IndexEntry.key) = .ok [(longEntry 0).key] := by
  have hrun : ((createBulk ordersByName [longEntry 0] 4 4).toOption.bind fun c =>
      (lostThen ordersByName (insertOne 1 5) (insertOne 1 5) c.2).map fun r => (r.2.1.replaySkipped, decide (r.2.1.descriptor = c.1),
        (seekOrderedExact c.2.loader c.1.rootPage c.1.height (longEntry 0).key).toOption.map (List.map IndexEntry.key))) =
      some (false, false, some [(longEntry 0).key]) := by decide +kernel
  obtain ⟨⟨x, f⟩, hcreated, hrun⟩ := Option.bind_eq_some_iff.mp hrun
  obtain ⟨⟨p, r, f'⟩, hlost, hvalues⟩ := Option.map_eq_some_iff.mp hrun
  obtain ⟨hnew, hvalues⟩ := Prod.mk.inj hvalues
  obtain ⟨hmoved, hfound⟩ := Prod.mk.inj hvalues
  obtain ⟨found, hseek, hkeys⟩ := Option.map_eq_some_iff.mp hfound
  have hcreated := toOption_some_iff.mp hcreated
  have hruns := lostThen_some (x := x) hlost (mem_singleton_self _) (mem_singleton_self _) hnew
  have hkeeps := reader_keeps_root ordersByName [longEntry 0] 4 4 x f hcreated [insertOne 1 5] (pairwise_singleton _ _) _ _ .refl hruns
  refine ⟨x, f, _, hcreated, hruns, of_decide_eq_false hmoved, (congrArg _ (hkeeps.1 (longEntry 0).key)).trans ?_⟩
  have hsame : seekOrderedExact (PublishState.created f x).file.loader x.rootPage x.height (longEntry 0).key = .ok found :=
    toOption_some_iff.mp hseek
  exact (congrArg _ hsame).trans (congrArg Except.ok hkeys)

end Grafx.Index
