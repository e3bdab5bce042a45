import OktoGrafx.Redo.Plan

/-! Convergence of redo: from every admitted device a range of commits ends in its last images,
a second pass changes nothing, and a pass that was cut off can be started over. -/

namespace Grafx.Redo
open List GuardedReplay
open Pool (ofDevice)
variable {κ : Type*} {c c' : FileName → ℕ} {plan : List (PageEffect κ)} {d : Device κ} {l : Location} {f : FileName} {image : Page κ}

/-! ## Page counts -/

theorem countAfter_mono (h : ∀ f, c f ≤ c' f) (plan : List (PageEffect κ)) (f : FileName) : countAfter c plan f ≤ countAfter c' plan f := by
  induction plan generalizing c c' with
  | nil => exact h f
  | cons e rest ih =>
    refine ih fun g => ?_
    have he := h e.file
    by_cases hg : g = e.file
    · subst hg; simp only [Function.update_self]; omega
    · simpa [hg] using h g

theorem lt_countAfter_of_mem (c : FileName → ℕ) {e : PageEffect κ} (h : e ∈ plan) : e.pageIndex < countAfter c plan e.file := by
  induction plan generalizing c with
  | nil => exact absurd h not_mem_nil
  | cons a rest ih =>
    rcases mem_cons.mp h with rfl | h
    · refine Nat.lt_of_lt_of_le ?_ (le_countAfter _ rest e.file)
      simp only [Function.update_self]; omega
    · exact ih _ h

theorem countAfter_eq_self (h : ∀ e ∈ plan, e.pageIndex < c e.file) : countAfter c plan = c := by
  induction plan with
  | nil => rfl
  | cons e rest ih =>
    have he := h e mem_cons_self
    have hsame : Function.update c e.file (max (c e.file) (e.pageIndex + 1)) = c := by
      rw [max_eq_left he, Function.update_eq_self]
    change countAfter (Function.update c e.file _) rest = c
    rw [hsame]
    exact ih (forall_mem_cons.mp h).2

theorem countAfter_eq_of_between (hge : ∀ f, c f ≤ c' f) (hle : ∀ f, c' f ≤ countAfter c plan f) : countAfter c' plan = countAfter c plan := by
  funext f
  have h1 := countAfter_mono hge plan f
  have h2 := countAfter_mono hle plan f
  rw [countAfter_eq_self fun e he => lt_countAfter_of_mem c he] at h2
  omega

theorem preflight_mono (hc : ∀ f, c f ≤ c' f) (h : preflight c plan = none) : preflight c' plan = none := by
  induction plan generalizing c c' with
  | nil => rfl
  | cons e rest ih =>
    have he := hc e.file
    simp only [preflight] at h ⊢
    split_ifs at h with hgap
    rw [if_neg (by omega)]
    refine ih (fun g => ?_) h
    by_cases hg : g = e.file
    · subst hg; simp only [Function.update_self]; omega
    · simpa [hg] using hc g

/-! ## The device a pass leaves -/

section Redo
variable (fenced : FileName → Bool)

theorem flushPages_page? (p : Pool κ) (l : Location) : Device.page? (flushPages fenced p) l =
    (p.device.page? l).map fun page => (writeBackCell fenced l page (p.dirty l)).1 := by
  simp [flushPages, Device.page?, getElem?_mapIdx]

theorem writeBackCell_content {device : Page κ} {frame : Option (Page κ)}
    (h : (writeBackCell fenced l device frame).2 = none) :
    (writeBackCell fenced l device frame).1.content = (frame.getD device).content := by
  cases frame with
  | none => rfl
  | some page =>
    simp only [writeBackCell, publishPage] at h ⊢
    split_ifs at h ⊢ <;> rfl

theorem writeBackCell_or (l : Location) (device : Page κ) (frame : Option (Page κ)) :
    (writeBackCell fenced l device frame).1 = device ∨
      (writeBackCell fenced l device frame).1.content = (frame.getD device).content := by
  cases h : (writeBackCell fenced l device frame).2 with
  | none => exact .inr (writeBackCell_content fenced h)
  | some refusal =>
    cases frame with
    | none => exact .inl rfl
    | some page =>
      simp only [writeBackCell, publishPage] at h ⊢
      split_ifs at h ⊢
      exact .inl rfl

theorem flush_or (p : Pool κ) (files : List FileName) (f : FileName) :
    (flush fenced p files).1 f = flushPages fenced p f ∨ (flush fenced p files).1 f = p.device f := by
  unfold flush
  dsimp only
  split_ifs
  · exact .inl rfl
  · exact .inr rfl

theorem flush_of_granted {p : Pool κ} {files : List FileName} (h : ∀ f ∈ files, headerRefusal fenced p f = none) :
    flush fenced p files = (fun f => if f ∈ files then flushPages fenced p f else p.device f, none) := by
  have hall : files.takeWhile (fun f => (headerRefusal fenced p f).isNone) = files :=
    takeWhile_eq_self_iff.mpr fun f hf => by rw [h f hf]; rfl
  have hnone : (files.find? fun f => (headerRefusal fenced p f).isSome) = none :=
    find?_eq_none.mpr fun f hf => by rw [h f hf]; exact Bool.false_ne_true
  rw [flush, hall, hnone, findSome?_eq_none_iff.mpr h]
  simp

def counts (d : Device κ) (f : FileName) : ℕ := (d f).length

def passed (d : Device κ) (plan : List (PageEffect κ)) : Pool κ :=
  ((ofDevice d).grownTo (countAfter (counts d) plan)).replayed plan

def redone (d : Device κ) (plan : List (PageEffect κ)) : Device κ := flushPages fenced (passed d plan)

def startFrame (d : Device κ) (l : Location) : Option (Page κ) :=
  if (d.page? l).isNone then some (Page.empty .free) else none

def startPage (d : Device κ) (l : Location) : Page κ := (d.page? l).getD (Page.empty .free)

def frameAfter (d : Device κ) (plan : List (PageEffect κ)) (l : Location) : Option (Page κ) :=
  (guardAt (startPage d l)).replay (startFrame d l) (offers plan l)

theorem startFrame_getD (d : Device κ) (l : Location) : (startFrame d l).getD (startPage d l) = startPage d l := by
  unfold startFrame startPage
  cases d.page? l <;> rfl

theorem passed_page? (d : Device κ) (plan : List (PageEffect κ)) (l : Location) :
    (passed d plan).device.page? l =
      if l.pageIndex < countAfter (counts d) plan l.file then some (startPage d l) else none := by
  have hn : counts d l.file ≤ countAfter (counts d) plan l.file := le_countAfter (counts d) plan l.file
  have hpage := (ofDevice d).devicePage_grownTo (countAfter (counts d) plan) l
  have hcount := (ofDevice d).pageCount_grownTo (countAfter (counts d) plan) l.file
  have hmax : max ((ofDevice d).pageCount l.file) (countAfter (counts d) plan l.file) =
      countAfter (counts d) plan l.file := max_eq_right hn
  rw [hmax] at hcount
  change ((ofDevice d).grownTo _).device.page? l = _
  unfold Pool.devicePage at hpage
  split_ifs with hl
  · obtain ⟨page, h⟩ : ∃ page, ((ofDevice d).grownTo (countAfter (counts d) plan)).device.page? l = some page :=
      ⟨_, getElem?_eq_getElem (by rw [← Pool.pageCount, hcount]; exact hl)⟩
    rw [h, Option.getD_some] at hpage
    rw [h, hpage]
    rfl
  · exact getElem?_eq_none (by rw [← Pool.pageCount, hcount]; omega)

theorem passed_dirty
    (hl : l.pageIndex < countAfter (counts d) plan l.file) : (passed d plan).dirty l = frameAfter d plan l := by
  have hframe : ((ofDevice d).grownTo (countAfter (counts d) plan)).dirty l = startFrame d l := by
    have habsent : (d.page? l).isNone = true ↔ (ofDevice d).pageCount l.file ≤ l.pageIndex := by
      rw [Option.isNone_iff_eq_none, Device.page?, getElem?_eq_none_iff]; rfl
    simp only [Pool.grownTo, startFrame, habsent, hl, and_true]
    rfl
  simp only [passed, Pool.replayed, hframe, Pool.devicePage_grownTo]
  rfl

theorem redone_page? (d : Device κ) (plan : List (PageEffect κ)) (l : Location) :
    (redone fenced d plan).page? l =
      if l.pageIndex < countAfter (counts d) plan l.file then
        some (writeBackCell fenced l (startPage d l) (frameAfter d plan l)).1
      else none := by
  rw [redone, flushPages_page?, passed_page?]
  split_ifs with hl
  · rw [Option.map_some, passed_dirty hl]
  · rfl

theorem headerRefusal_passed :
    headerRefusal fenced (passed d plan) f =
      if 0 < countAfter (counts d) plan f then
        (writeBackCell fenced ⟨f, 0⟩ (startPage d ⟨f, 0⟩) (frameAfter d plan ⟨f, 0⟩)).2
      else none := by
  rw [headerRefusal, passed_page?]
  split_ifs with hl
  · rw [Option.bind_some, passed_dirty hl]
  · rfl

variable [DecidableEq κ] {effects : List (PageEffect κ)}

omit fenced in
theorem mem_touchedFiles {e : PageEffect κ} (he : e ∈ effects) (mayCoalesce : Bool) :
    e.file ∈ touchedFiles (planOf mayCoalesce effects) := by
  have hloc : ∃ e' ∈ planOf mayCoalesce effects, e'.loc = e.loc := by
    cases mayCoalesce with
    | false => exact ⟨e, he, rfl⟩
    | true =>
      have hocc : e ∈ occurrences effects e.loc := mem_filter.mpr ⟨he, by simp⟩
      have hne : occurrences (coalescePagePlan effects) e.loc ≠ [] := by
        rw [coalescePagePlan, occurrences_coalesceFrom]
        split_ifs with hsafe hmem
        · exact absurd hmem not_mem_nil
        · obtain ⟨x, xs, hx⟩ := exists_cons_of_ne_nil (ne_nil_of_mem hocc)
          simp [hx]
        · exact ne_nil_of_mem hocc
      obtain ⟨e', he'⟩ := exists_mem_of_ne_nil _ hne
      exact ⟨e', (mem_filter.mp he').1, loc_of_mem_occurrences he'⟩
  obtain ⟨e', he', hloc⟩ := hloc
  have hfile : e'.file = e.file := congrArg Location.file hloc
  exact mem_eraseDups.mpr (hfile ▸ mem_map_of_mem he')

omit fenced [DecidableEq κ] in
/-- A file the plan does not name has no frame to flush. -/
theorem frameAfter_untouched (hf : ∀ e ∈ effects, e.file ≠ l.file)
    (hl : l.pageIndex < countAfter (counts d) effects l.file) : frameAfter d effects l = none := by
  have hcount : countAfter (counts d) effects l.file = counts d l.file := by
    refine foldlRecOn (motive := fun n : FileName → ℕ => n l.file = counts d l.file) effects _ rfl fun n hn e he => ?_
    rw [Function.update_of_ne (hf e he).symm, hn]
  have hoffers : offers effects l = [] := by
    refine map_eq_nil_iff.mpr (filter_eq_nil_iff.mpr fun e he h => hf e he ?_)
    exact congrArg Location.file (of_decide_eq_true h)
  have hsome : (d.page? l).isNone = false := by
    rw [hcount] at hl
    simp [Device.page?, getElem?_eq_getElem (show l.pageIndex < (d l.file).length from hl)]
  rw [frameAfter, hoffers, startFrame, hsome]
  rfl

omit [DecidableEq κ] in
theorem flushPages_untouched (hf : ∀ e ∈ effects, e.file ≠ f) :
    flushPages fenced (passed d effects) f = (passed d effects).device f := by
  refine ext_getElem? fun i => ?_
  change Device.page? (flushPages fenced (passed d effects)) ⟨f, i⟩ = (passed d effects).device.page? ⟨f, i⟩
  rw [flushPages_page?, passed_page?]
  split_ifs with hl
  · rw [Option.map_some, passed_dirty hl, frameAfter_untouched (l := ⟨f, i⟩) hf hl]
    rfl
  · rfl

theorem apply_eq (h : preflight (counts d) effects = none) (mayCoalesce : Bool) :
    apply mayCoalesce (ofDevice d) effects = (passed d effects, none) := by
  have h' : preflight (ofDevice d).pageCount effects = none := h
  have hplan : applyPlan (ofDevice d) (planOf mayCoalesce effects) = applyPlan (ofDevice d) effects := by
    cases mayCoalesce
    · rfl
    · exact applyPlan_coalesce h'
  simp only [apply, h', hplan, applyPlan_eq (p := ofDevice d) h]
  rfl

theorem redo_eq (h : preflight (counts d) effects = none)
    (hclock : ∀ f, headerRefusal fenced (passed d effects) f = none) (mayCoalesce : Bool) :
    redo fenced mayCoalesce d effects = (redone fenced d effects, none) := by
  simp only [redo, apply_eq h, flush_of_granted fenced fun f _ => hclock f]
  refine Prod.ext (funext fun f => ?_) rfl
  change (if _ then _ else _) = flushPages fenced (passed d effects) f
  split_ifs with hf
  · rfl
  · refine (flushPages_untouched fenced fun e he hfile => hf ?_).symm
    exact hfile ▸ mem_touchedFiles he mayCoalesce

/-- A refused page 0 ends the flush; every page on the device is as it was or as a full flush leaves it. -/
theorem redo_exhausted (h : preflight (counts d) effects = none)
    (hf : headerRefusal fenced (passed d effects) f ≠ none) (mayCoalesce : Bool) :
    (∃ g refusal, headerRefusal fenced (passed d effects) g = some refusal ∧
      (redo fenced mayCoalesce d effects).2 = some (.exhausted refusal)) ∧
    ∀ l, (redo fenced mayCoalesce d effects).1.page? l = (redone fenced d effects).page? l ∨
      (redo fenced mayCoalesce d effects).1.page? l = (passed d effects).device.page? l := by
  have hredo : redo fenced mayCoalesce d effects =
      (flush fenced (passed d effects) (touchedFiles (planOf mayCoalesce effects))).map id (Option.map .exhausted) := by
    simp only [redo, apply_eq h]
  rw [hredo]
  constructor
  · cases hend : (flush fenced (passed d effects) (touchedFiles (planOf mayCoalesce effects))).2 with
    | some refusal =>
      obtain ⟨g, -, hg⟩ := exists_of_findSome?_eq_some hend
      exact ⟨g, refusal, hg, by simp [hend]⟩
    | none =>
      by_cases htouched : ∃ e ∈ effects, e.file = f
      · obtain ⟨e, he, rfl⟩ := htouched
        exact absurd (findSome?_eq_none_iff.mp hend _ (mem_touchedFiles he mayCoalesce)) hf
      · -- A file outside the plan has nothing to write back, its page 0 included.
        push Not at htouched
        refine absurd ?_ hf
        rw [headerRefusal_passed]
        split_ifs with hcount
        · rw [frameAfter_untouched (l := ⟨f, 0⟩) htouched hcount]
          rfl
        · rfl
  · intro l
    exact (flush_or fenced _ _ l.file).imp (congrArg (·[l.pageIndex]?)) (congrArg (·[l.pageIndex]?))

theorem redo_refused {refusal : CorruptionDetected} (h : preflight (counts d) effects = some refusal) (mayCoalesce : Bool) :
    redo fenced mayCoalesce d effects = (d, some (.gap refusal)) := by
  have h' : preflight (ofDevice d).pageCount effects = some refusal := h
  simp only [redo, apply, h']
  rfl

end Redo

/-! ## Ranges of commits -/

section
variable (r : CommittedRange κ)
include r

theorem CommittedRange.images_eq (l : Location) : r.images l = r.commits.flatMap fun c => (occurrences c.writes l).map (·.image) := by
  simp only [CommittedRange.images, occurrences, CommittedRange.effects, filter_flatMap, map_flatMap]

theorem CommittedRange.images_ascending (l : Location) : (r.images l).Pairwise fun a b => a.pageLsn < b.pageLsn := by
  rw [r.images_eq, pairwise_flatMap]
  constructor
  · intro c hc
    -- One commit holds at most one image of a page.
    rw [pairwise_map, occurrences, pairwise_filter]
    refine (pairwise_map.mp c.one_image).imp fun hab ha hb => ?_
    simp only [decide_eq_true_eq] at ha hb
    exact absurd (ha.trans hb.symm) hab
  · refine r.ascending.imp fun {a b} hab x hx y hy => ?_
    obtain ⟨ex, hex, rfl⟩ := mem_map.mp hx
    obtain ⟨ey, hey, rfl⟩ := mem_map.mp hy
    rw [a.stamped ex (mem_filter.mp hex).1, b.stamped ey (mem_filter.mp hey).1]
    exact hab

theorem CommittedRange.offers_eq (l : Location) : offers r.effects l = (r.images l).map fun image => some (settled image) := by
  simp [offers, CommittedRange.images, Function.comp_def]

theorem CommittedRange.offers_ascending (device : Page κ) (l : Location) : (guardAt device).Ascending (offers r.effects l) := by
  rw [r.offers_eq, Guard.Ascending, pairwise_map]
  simpa [guardAt] using r.images_ascending l

end

/-- Page 0 of the fenced file gets its last image, and the counter it would publish past is the last one or beyond. -/
def Exhausts (fenced : FileName → Bool) (r : CommittedRange κ) (d : Device κ) (f : FileName) (seq : ℕ) : Prop :=
  fenced f = true ∧ ∃ image, (r.images ⟨f, 0⟩).getLast? = some image ∧
    ((startPage d ⟨f, 0⟩).pageType = .free ∨ (startPage d ⟨f, 0⟩).pageLsn < image.pageLsn) ∧
    seq = max (settled image).seq (startPage d ⟨f, 0⟩).seq ∧ maxSeq - 1 ≤ seq

theorem frameAfter_of_nil {r : CommittedRange κ} (d : Device κ) (h : (r.images l).getLast? = none) :
    frameAfter d r.effects l = startFrame d l := by
  rw [frameAfter, r.offers_eq, getLast?_eq_none_iff.mp h]
  rfl

theorem frameAfter_eq (r : CommittedRange κ) (d : Device κ)
    (h : (r.images l).getLast? = some image) :
    frameAfter d r.effects l = if (startPage d l).pageType = .free ∨ (startPage d l).pageLsn < image.pageLsn then
      some (settled image) else startFrame d l := by
  have hlast : (offers r.effects l).getLast? = some (some (settled image)) := by
    rw [r.offers_eq, getLast?_map, h, Option.map_some]
  have hasc := r.offers_ascending (startPage d l) l
  rw [frameAfter]
  cases hoffers : offers r.effects l with
  | nil => simp [hoffers] at hlast
  | cons x xs =>
    rw [hoffers] at hlast hasc
    rw [Guard.replay_eq_install_last (hasc.isChain.imp fun _ _ => .inl), getLast_of_mem_getLast? hlast]
    simp only [Guard.install, guardAt, startFrame_getD, Option.getD_some, settled_pageLsn]
    by_cases hopen : (startPage d l).pageType = .free ∨ (startPage d l).pageLsn < image.pageLsn
    · rw [if_pos hopen, if_neg (by simpa [imp_iff_not_or] using hopen)]
    · rw [if_neg hopen, if_pos (by simpa [not_or] using hopen)]

/-- A page that the range leaves alone already holds its last image. -/
theorem CommittedRange.Admits.holds_last {r : CommittedRange κ} (h : r.Admits d)
    (hlast : (r.images l).getLast? = some image)
    (hopen : ¬((startPage d l).pageType = .free ∨ (startPage d l).pageLsn < image.pageLsn)) :
    d.page? l = some (startPage d l) ∧ (startPage d l).content = image.content := by
  push Not at hopen
  cases hpage : d.page? l with
  | none => exact absurd (by rw [startPage, hpage]; rfl) hopen.1
  | some page =>
    rw [startPage, hpage, Option.getD_some] at hopen ⊢
    refine ⟨rfl, ?_⟩
    rcases h l page hpage with h | h | ⟨other, hother, h⟩
    · exact absurd h hopen.1
    · exact absurd (h image (mem_of_getLast? hlast)) (not_lt.mpr hopen.2)
    · -- Numbers ascend along the range, so no other image is as new as the last one.
      obtain ⟨older, holder⟩ := getLast?_eq_some_iff.mp hlast
      have hasc := r.images_ascending l
      rw [holder] at hother hasc
      rcases mem_append.mp hother with hmem | hmem
      · have hlt := (pairwise_append.mp hasc).2.2 other hmem image (mem_singleton_self image)
        have hlsn : page.pageLsn = other.pageLsn := Page.pageLsn_of_content h
        omega
      · rw [h, mem_singleton.mp hmem]

def finalContent (r : CommittedRange κ) (d : Device κ) (l : Location) : Option (Page κ) :=
  if l.pageIndex < countAfter (counts d) r.effects l.file then
    some (((r.images l).getLast?.getD (startPage d l)).content)
  else none

section
variable (fenced : FileName → Bool) {r : CommittedRange κ}

/-- The write-back of a page is refused exactly at an exhausted page 0. -/
theorem cell_refusal {refusal : SequenceExhausted} :
    (writeBackCell fenced l (startPage d l) (frameAfter d r.effects l)).2 = some refusal ↔
      l.pageIndex = 0 ∧ ∃ seq, Exhausts fenced r d l.file seq ∧ refusal = sequenceExhausted l.file seq := by
  obtain ⟨f, i⟩ := l
  have hstart : ∀ l, startFrame d l = none ∨ startFrame d l = some (Page.empty .free) ∧ startPage d l = Page.empty .free := by
    intro l
    unfold startFrame startPage
    cases d.page? l <;> simp
  by_cases hfence : fenced f = true ∧ i = 0
  · obtain ⟨hfenced, rfl⟩ := hfence
    have hframe : ∀ page, (writeBackCell fenced ⟨f, 0⟩ (startPage d ⟨f, 0⟩) (some page)).2 = some refusal ↔
        maxSeq - 1 ≤ max page.seq (startPage d ⟨f, 0⟩).seq ∧
          refusal = sequenceExhausted f (max page.seq (startPage d ⟨f, 0⟩).seq) := by
      intro page
      simp only [writeBackCell, publishPage, hfenced, beq_self_eq_true, Bool.and_true, if_true]
      split_ifs with hseq
      · simp [hseq, eq_comm]
      · simp [hseq]
    have hkept : (writeBackCell fenced ⟨f, 0⟩ (startPage d ⟨f, 0⟩) (startFrame d ⟨f, 0⟩)).2 ≠ some refusal := by
      rcases hstart ⟨f, 0⟩ with h | ⟨h, hpage⟩
      · simp [h, writeBackCell]
      · rw [h, Ne, hframe, hpage]
        simp [Page.empty, maxSeq]
    cases hlast : (r.images ⟨f, 0⟩).getLast? with
    | none =>
      rw [frameAfter_of_nil d hlast]
      simp [Exhausts, hlast, hkept]
    | some image =>
      rw [frameAfter_eq r d hlast]
      split_ifs with hopen
      · rw [hframe]
        constructor
        · rintro ⟨hseq, rfl⟩
          exact ⟨rfl, _, ⟨hfenced, image, hlast, hopen, rfl, hseq⟩, rfl⟩
        · rintro ⟨-, seq, ⟨-, other, hother, -, rfl, hseq⟩, rfl⟩
          obtain rfl : image = other := Option.some.inj (hlast.symm.trans hother)
          exact ⟨hseq, rfl⟩
      · simp [Exhausts, hlast, hopen, hkept]
  · have hnone : ∀ frame, (writeBackCell fenced ⟨f, i⟩ (startPage d ⟨f, i⟩) frame).2 = none := by
      intro frame
      cases frame with
      | none => rfl
      | some page =>
        simp only [writeBackCell, publishPage]
        rw [if_neg (by simpa using hfence)]
    simp only [hnone, reduceCtorEq, false_iff, not_and, not_exists]
    intro hi seq hseq
    exact absurd ⟨hseq.1, hi⟩ hfence

theorem headerRefusal_iff {refusal : SequenceExhausted} :
    headerRefusal fenced (passed d r.effects) f = some refusal ↔
      ∃ seq, Exhausts fenced r d f seq ∧ refusal = sequenceExhausted f seq := by
  rw [headerRefusal_passed]
  split_ifs with hcount
  · exact (cell_refusal fenced).trans (and_iff_right rfl)
  · -- An image of page 0 would have made the file at least one page long.
    simp only [false_iff, not_exists, not_and]
    rintro seq ⟨-, image, hlast, -⟩ -
    obtain ⟨e, he, -⟩ := mem_map.mp (mem_of_getLast? hlast)
    have hlt := lt_countAfter_of_mem (counts d) (mem_filter.mp he).1
    have hfile : e.file = f := congrArg Location.file (loc_of_mem_occurrences he)
    rw [hfile] at hlt
    omega

theorem redone_content (h : r.Admits d) (hclock : ∀ f seq, ¬ Exhausts fenced r d f seq) (l : Location) :
    ((redone fenced d r.effects).page? l).map Page.content = finalContent r d l := by
  have hcell : (writeBackCell fenced l (startPage d l) (frameAfter d r.effects l)).2 = none := by
    refine Option.eq_none_iff_forall_ne_some.mpr fun refusal hr => ?_
    obtain ⟨-, seq, hseq, -⟩ := (cell_refusal fenced).mp hr
    exact hclock _ seq hseq
  rw [redone_page?, finalContent]
  split_ifs
  · rw [Option.map_some, writeBackCell_content fenced hcell]
    congr 1
    cases hlast : (r.images l).getLast? with
    | none =>
      rw [frameAfter_of_nil d hlast, startFrame_getD]
      rfl
    | some image =>
      rw [frameAfter_eq r d hlast]
      split_ifs with hopen
      · rw [Option.getD_some, Option.getD_some, settled_content]
      · obtain ⟨hpage, hcontent⟩ := h.holds_last hlast hopen
        rw [startFrame, hpage]
        exact hcontent
  · rfl

theorem redone_untouched (hl : r.images l = []) {page : Page κ} (hpage : d.page? l = some page) :
    (redone fenced d r.effects).page? l = some page := by
  have hlt : l.pageIndex < countAfter (counts d) r.effects l.file :=
    (List.getElem?_eq_some_iff.mp hpage).1.trans_le (le_countAfter (counts d) r.effects l.file)
  rw [redone_page?, if_pos hlt, frameAfter, r.offers_eq, hl]
  simp [startPage, startFrame, hpage, writeBackCell]

theorem counts_redone : counts (redone fenced d r.effects) = countAfter (counts d) r.effects := by
  funext f
  have hcount := (ofDevice d).pageCount_grownTo (countAfter (counts d) r.effects) f
  have hle : (ofDevice d).pageCount f ≤ countAfter (counts d) r.effects f := le_countAfter (counts d) r.effects f
  rw [max_eq_right hle] at hcount
  rw [← hcount]
  simp [counts, redone, flushPages, passed, Pool.pageCount, Pool.replayed]

theorem CommittedRange.header_images_used (r : CommittedRange κ) (hl : l.pageIndex = 0) : ∀ image ∈ r.images l, image.pageType ≠ .free := by
  intro image himage
  obtain ⟨e, he, rfl⟩ := mem_map.mp himage
  obtain ⟨hmem, hloc⟩ := mem_filter.mp he
  obtain ⟨c, -, hec⟩ := mem_flatMap.mp hmem
  refine c.header_used e hec ?_
  have : e.loc = l := by simpa using hloc
  rw [← hl, ← this]
  rfl

theorem Device.ext_page? {d d' : Device κ} (h : ∀ l, d.page? l = d'.page? l) : d = d' := by
  funext f
  exact ext_getElem? fun i => h ⟨f, i⟩

variable (h : r.Admits d) (hclock : ∀ f seq, ¬ Exhausts fenced r d f seq)
include h hclock

theorem startPage_redone (hlast : (r.images l).getLast? = some image) :
    (redone fenced d r.effects).page? l = some (startPage (redone fenced d r.effects) l) ∧
      (startPage (redone fenced d r.effects) l).content = image.content := by
  have hlt : l.pageIndex < countAfter (counts d) r.effects l.file := by
    obtain ⟨e, he, -⟩ := mem_map.mp (mem_of_getLast? hlast)
    rw [← loc_of_mem_occurrences he]
    exact lt_countAfter_of_mem (counts d) (mem_filter.mp he).1
  have hcontent := redone_content fenced h hclock l
  rw [finalContent, if_pos hlt, hlast, Option.getD_some] at hcontent
  obtain ⟨page, hpage, hsame⟩ := Option.map_eq_some_iff.mp hcontent
  rw [startPage, hpage]
  exact ⟨rfl, hsame⟩

theorem not_exhausts_redone (f : FileName) (seq : ℕ) : ¬ Exhausts fenced r (redone fenced d r.effects) f seq := by
  rintro ⟨-, image, hlast, hopen, -, -⟩
  obtain ⟨-, hsame⟩ := startPage_redone fenced h hclock hlast
  have htype := Page.pageType_of_content hsame
  have hlsn := Page.pageLsn_of_content hsame
  rcases hopen with hfree | hlt
  · exact r.header_images_used rfl image (mem_of_getLast? hlast) (htype ▸ hfree)
  · omega

theorem redone_redone : redone fenced (redone fenced d r.effects) r.effects = redone fenced d r.effects := by
  refine Device.ext_page? fun l => ?_
  have hcounts : countAfter (counts (redone fenced d r.effects)) r.effects = countAfter (counts d) r.effects := by
    rw [counts_redone]
    exact countAfter_eq_self fun e he => lt_countAfter_of_mem _ he
  cases hlast : (r.images l).getLast? with
  | none =>
    have himages : r.images l = [] := getLast?_eq_none_iff.mp hlast
    cases hpage : (redone fenced d r.effects).page? l with
    | some page => exact redone_untouched fenced himages hpage
    | none =>
      have hfirst := redone_page? fenced d r.effects l
      rw [redone_page? fenced (redone fenced d r.effects), hcounts]
      rw [hpage] at hfirst
      split_ifs at hfirst ⊢
      rfl
  | some image =>
    obtain ⟨hpage, hsame⟩ := startPage_redone fenced h hclock hlast
    have hlt : l.pageIndex < countAfter (counts (redone fenced d r.effects)) r.effects l.file :=
      (List.getElem?_eq_some_iff.mp hpage).1.trans_le (le_countAfter (counts (redone fenced d r.effects)) r.effects l.file)
    have htype := Page.pageType_of_content hsame
    have hlsn := Page.pageLsn_of_content hsame
    rw [redone_page? fenced (redone fenced d r.effects), if_pos hlt, frameAfter_eq r _ hlast]
    split_ifs with hopen
    · -- Only a free image is installed again, and it was installed the first time.
      have hfree : image.pageType = .free := htype ▸ hopen.resolve_right (by omega)
      have hzero : l.pageIndex ≠ 0 := fun h0 => r.header_images_used h0 image (mem_of_getLast? hlast) hfree
      have hfirst := redone_page? fenced d r.effects l
      rw [hcounts] at hlt
      rw [if_pos hlt, frameAfter_eq r d hlast, if_pos] at hfirst
      · rw [hfirst]
        simp [writeBackCell, publishPage, hzero]
      · by_contra hd
        obtain ⟨-, hsame⟩ := h.holds_last hlast hd
        exact hd (.inl ((Page.pageType_of_content hsame).trans hfree))
    · rw [startFrame, hpage]
      rfl

end
end Grafx.Redo
