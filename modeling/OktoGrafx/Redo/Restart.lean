import OktoGrafx.Redo.Convergence
import OktoGrafx.Lib.Transition

/-! A redo pass that is cut off leaves a device from which the pass can be started over: each page
still holds what it held, or an image of the range, or is free. -/

namespace Grafx.Redo
open List GuardedReplay
variable {κ : Type*} {r : CommittedRange κ} {d : Device κ} {plan : List (PageEffect κ)} {p : Pool κ}

def Origin (r : CommittedRange κ) (d : Device κ) (l : Location) (page : Page κ) : Prop :=
  page.content = (startPage d l).content ∨ ∃ image ∈ r.images l, page.content = image.content

structure Stage (r : CommittedRange κ) (d : Device κ) (s : Pool κ × List (PageEffect κ)) : Prop where
  pending : ∀ e ∈ s.2, e ∈ r.effects
  counts_ge : ∀ f, counts d f ≤ s.1.pageCount f
  counts_le : ∀ f, s.1.pageCount f ≤ countAfter (counts d) r.effects f
  device_from : ∀ l page, s.1.device.page? l = some page → Origin r d l page
  dirty_from : ∀ l page, s.1.dirty l = some page → Origin r d l page
  untouched : ∀ l, r.images l = [] → ∀ page, d.page? l = some page →
    s.1.device.page? l = some page ∧ s.1.dirty l = none

theorem lt_counts_of_page? {l : Location} {page : Page κ} (h : d.page? l = some page) :
    l.pageIndex < counts d l.file :=
  (List.getElem?_eq_some_iff.mp h).1

theorem Stage.start (hplan : ∀ e ∈ plan, e ∈ r.effects) : Stage r d (Pool.ofDevice d, plan) where
  pending := hplan
  counts_ge _ := le_rfl
  counts_le f := le_countAfter (counts d) r.effects f
  device_from l page h := .inl (by
    change d.page? l = some page at h
    rw [startPage, h, Option.getD_some])
  dirty_from l page h := by simp [Pool.ofDevice] at h
  untouched l _ page h := ⟨h, rfl⟩

theorem Stage.grownTo (h : Stage r d (p, plan)) {n : FileName → ℕ}
    (hn : ∀ f, n f ≤ countAfter (counts d) r.effects f) : Stage r d (p.grownTo n, plan) where
  pending := h.pending
  counts_ge f := by
    have := h.counts_ge f
    simp only [Pool.pageCount_grownTo] at this ⊢
    omega
  counts_le f := by
    have hf := h.counts_le f
    have hn := hn f
    simp only [Pool.pageCount_grownTo] at hf ⊢
    omega
  device_from l page hpage := by
    by_cases hl : l.pageIndex < p.pageCount l.file
    · refine h.device_from l page ?_
      rw [← hpage]
      exact (getElem?_append_left hl).symm
    · -- A page the pass allocated was absent from the device it started on.
      have hdevice := p.devicePage_grownTo n l
      rw [Pool.devicePage, hpage, Option.getD_some, Pool.devicePage,
        show p.device.page? l = none from getElem?_eq_none (not_lt.mp hl)] at hdevice
      have habsent : d.page? l = none := getElem?_eq_none ((h.counts_ge l.file).trans (not_lt.mp hl))
      exact .inl (by rw [hdevice, startPage, habsent])
  dirty_from l page hpage := by
    simp only [Pool.grownTo] at hpage
    split_ifs at hpage with hnew
    · have habsent : d.page? l = none := getElem?_eq_none ((h.counts_ge l.file).trans hnew.1)
      exact .inl (by rw [← Option.some.inj hpage, startPage, habsent, Option.getD_none])
    · exact h.dirty_from l page hpage
  untouched l hl page hpage := by
    obtain ⟨hdevice, hdirty⟩ := h.untouched l hl page hpage
    have hlt : l.pageIndex < p.pageCount l.file := (lt_counts_of_page? hpage).trans_le (h.counts_ge l.file)
    refine ⟨(getElem?_append_left hlt).trans hdevice, ?_⟩
    exact (if_neg (by omega)).trans hdirty

theorem Stage.offer {p : Pool κ} {e : PageEffect κ} {rest : List (PageEffect κ)} (h : Stage r d (p, rest))
    (he : e ∈ r.effects) : Stage r d (p.offer e, rest) where
  pending := h.pending
  counts_ge := h.counts_ge
  counts_le := h.counts_le
  device_from := h.device_from
  dirty_from l page hpage := by
    by_cases hl : l = e.loc
    · subst hl
      simp only [Pool.offer, Function.update_self] at hpage
      rcases (guardAt (p.devicePage e.loc)).install_eq_or (p.dirty e.loc) (some (settled e.image)) with hi | hi
      · exact h.dirty_from _ page (hi ▸ hpage)
      · rw [hi, Option.some.injEq] at hpage
        refine .inr ⟨e.image, mem_map_of_mem (mem_filter.mpr ⟨he, by simp⟩), ?_⟩
        rw [← hpage, settled_content]
    · simp only [Pool.offer, Function.update_of_ne hl] at hpage
      exact h.dirty_from l page hpage
  untouched l hl page hpage := by
    have hne : l ≠ e.loc := by
      rintro rfl
      have : e.image ∈ r.images e.loc := mem_map_of_mem (mem_filter.mpr ⟨he, by simp⟩)
      simp [hl] at this
    simpa [Pool.offer, Function.update_of_ne hne] using h.untouched l hl page hpage

section
variable (fenced : FileName → Bool) {s : Pool κ × List (PageEffect κ)}

theorem evict_page? (p : Pool κ) (l m : Location) :
    (evict fenced p l).device.page? m = (p.device.page? m).map fun page =>
      if m = l then (writeBackCell fenced l page (p.dirty l)).1 else page := by
  simp only [evict, Device.page?, getElem?_mapIdx]

theorem Stage.evict (h : Stage r d (p, plan)) (l : Location) : Stage r d (evict fenced p l, plan) where
  pending := h.pending
  counts_ge f := by simpa [Redo.evict, Pool.pageCount] using h.counts_ge f
  counts_le f := by simpa [Redo.evict, Pool.pageCount] using h.counts_le f
  device_from m page hpage := by
    simp only [evict_page?] at hpage
    obtain ⟨old, hold, rfl⟩ := Option.map_eq_some_iff.mp hpage
    split_ifs with hm
    · subst hm
      rcases writeBackCell_or fenced m old (p.dirty m) with hcell | hcell
      · rw [hcell]
        exact h.device_from m old hold
      · unfold Origin
        rw [hcell]
        cases hframe : p.dirty m with
        | none => exact h.device_from m old hold
        | some page => exact h.dirty_from m page hframe
    · exact h.device_from m old hold
  dirty_from m page hpage := by
    by_cases hm : m = l
    · simp [Redo.evict, hm] at hpage
    · simp only [Redo.evict, Function.update_of_ne hm] at hpage
      exact h.dirty_from m page hpage
  untouched m hm page hpage := by
    obtain ⟨hdevice, hdirty⟩ := h.untouched m hm page hpage
    constructor
    · simp only [evict_page?, hdevice, Option.map_some]
      split_ifs with hml
      · subst hml
        rw [hdirty, writeBackCell]
      · rfl
    · by_cases hml : m = l
      · simp [Redo.evict, hml]
      · simpa [Redo.evict, Function.update_of_ne hml] using hdirty

theorem Stage.step {t : Pool κ × List (PageEffect κ)} (h : Stage r d s) (hstep : RedoStep fenced s t) : Stage r d t := by
  cases hstep with
  | @offer p p' e rest applied happly =>
    have he : e ∈ r.effects := h.pending e mem_cons_self
    by_cases hgap : p.pageCount e.file + maxRedoGapPages ≤ e.pageIndex
    · simp [applyPageImage, growTo, hgap, bind, Except.bind] at happly
    obtain ⟨applied', happly'⟩ := applyPageImage_eq (not_le.mp hgap)
    rw [happly', p.grown_eq_grownTo e, Except.ok.injEq, Prod.mk.injEq] at happly
    rw [← happly.1]
    have hrest : Stage r d (p, rest) :=
      { h with pending := (forall_mem_cons.mp h.pending).2 }
    refine (hrest.grownTo fun f => ?_).offer he
    have hcount := h.counts_le f
    have hlt := lt_countAfter_of_mem (counts d) he
    by_cases hf : f = e.file
    · subst hf; simp only [Function.update_self] at hcount ⊢; omega
    · simpa [hf] using hcount
  | evict p plan l => exact h.evict fenced l

theorem Stage.admits (h : Stage r d s) (hd : r.Admits d) : r.Admits s.1.device := by
  intro l page hpage
  rcases h.device_from l page hpage with hc | hc
  · have htype := Page.pageType_of_content hc
    have hlsn := Page.pageLsn_of_content hc
    cases hstart : d.page? l with
    | none => exact .inl (by rw [htype, startPage, hstart]; rfl)
    | some old =>
      rw [startPage, hstart, Option.getD_some] at hc htype hlsn
      rw [htype, hlsn, hc]
      exact hd l old hstart
  · exact .inr (.inr hc)

theorem Stage.finalContent_eq (h : Stage r d s) (l : Location) : finalContent r s.1.device l = finalContent r d l := by
  have hcounts : countAfter (counts s.1.device) r.effects = countAfter (counts d) r.effects :=
    countAfter_eq_of_between h.counts_ge h.counts_le
  unfold finalContent
  rw [hcounts]
  split_ifs
  · cases hlast : (r.images l).getLast? with
    | some image => rfl
    | none =>
      -- Untouched: a page that was there is unchanged, and one the pass allocated is free.
      have himages : r.images l = [] := getLast?_eq_none_iff.mp hlast
      cases hstart : d.page? l with
      | some page => rw [startPage, startPage, hstart, (h.untouched l himages page hstart).1]
      | none =>
        cases hpage : s.1.device.page? l with
        | none => rw [startPage, startPage, hstart, hpage]
        | some page =>
          rw [startPage, hpage, Option.getD_some]
          simpa [Origin, himages] using h.device_from l page hpage
  · rfl

theorem passed_origin {l : Location} {page : Page κ} (hpage : (passed d r.effects).device.page? l = some page) :
    Origin r d l page := by
  rw [passed_page?] at hpage
  split_ifs at hpage
  rw [← Option.some.inj hpage]
  exact .inl rfl

theorem redone_origin {l : Location} {page : Page κ} (hpage : (redone fenced d r.effects).page? l = some page) :
    Origin r d l page := by
  rw [redone_page?] at hpage
  split_ifs at hpage
  rw [← Option.some.inj hpage]
  rcases writeBackCell_or fenced l (startPage d l) (frameAfter d r.effects l) with hcell | hcell
  · exact .inl (by rw [hcell])
  unfold Origin
  rw [hcell]
  cases hlast : (r.images l).getLast? with
  | none =>
    rw [frameAfter_of_nil d hlast, startFrame_getD]
    exact .inl rfl
  | some image =>
    rw [frameAfter_eq r d hlast]
    split_ifs
    · exact .inr ⟨image, mem_of_getLast? hlast, settled_content image⟩
    · exact .inl (by rw [startFrame_getD])

variable [DecidableEq κ] {e : PageEffect κ}

omit [DecidableEq κ] in
theorem mem_getLastD_occurrences (he : e ∈ plan) : (occurrences plan e.loc).getLastD e ∈ plan := by
  rw [getLastD_eq_getLast?]
  cases h : (occurrences plan e.loc).getLast? with
  | none => exact he
  | some last => exact (mem_filter.mp (mem_of_getLast? h)).1

theorem mem_of_mem_coalesceFrom {all : List (PageEffect κ)} {seen : List Location} (hplan : ∀ e ∈ plan, e ∈ all)
    (he : e ∈ coalesceFrom all seen plan) : e ∈ all := by
  induction plan generalizing seen with
  | nil => exact absurd he not_mem_nil
  | cons a rest ih =>
    have ha := hplan a mem_cons_self
    have hrest : ∀ e ∈ rest, e ∈ all := (forall_mem_cons.mp hplan).2
    simp only [coalesceFrom] at he
    split_ifs at he
    · exact ih hrest he
    · rcases mem_cons.mp he with rfl | he
      · exact mem_getLastD_occurrences ha
      · exact ih hrest he
    · rcases mem_cons.mp he with rfl | he
      · exact ha
      · exact ih hrest he

theorem Cut.stage {mayCoalesce : Bool} {cut : Device κ} (h : Cut fenced d (planOf mayCoalesce r.effects) cut) :
    ∃ s, Stage r d s ∧ s.1.device = cut := by
  obtain ⟨p, rest, hrun, rfl⟩ := h
  have hplan : ∀ e ∈ planOf mayCoalesce r.effects, e ∈ r.effects := by
    intro e he
    cases mayCoalesce with
    | true => exact mem_of_mem_coalesceFrom (fun _ h => h) he
    | false => exact he
  exact ⟨_, Transition.invariant (Stage.step fenced) hrun (Stage.start hplan), rfl⟩

/-- A range that names a page too far past the end of its file is refused before anything changes. One that would
move the page 0 of a fenced file past its last counter is refused there. Any other range ends with its last images;
repeating it changes no byte, and a pass cut off anywhere can be started over. -/
theorem redo_converges (r : CommittedRange κ) (d : Device κ) (hd : r.Admits d) :
    (∀ refusal, preflight (counts d) r.effects = some refusal →
      ∀ b, redo fenced b d r.effects = (d, some (.gap refusal))) ∧
    (preflight (counts d) r.effects = none →
      (∀ f seq, Exhausts fenced r d f seq → ∀ b,
        (∃ g seq, Exhausts fenced r d g seq ∧
          (redo fenced b d r.effects).2 = some (.exhausted (sequenceExhausted g seq))) ∧
        ∀ l page, (redo fenced b d r.effects).1.page? l = some page → Origin r d l page) ∧
      ((∀ f seq, ¬ Exhausts fenced r d f seq) → ∃ d' : Device κ,
        (∀ b, redo fenced b d r.effects = (d', none)) ∧
        (∀ l image, (r.images l).getLast? = some image → (d'.page? l).map Page.content = some image.content) ∧
        (∀ l page, r.images l = [] → d.page? l = some page → d'.page? l = some page) ∧
        (∀ l page, r.images l = [] → d.page? l = none → d'.page? l = some page → page.content = Page.empty .free) ∧
        (∀ b, redo fenced b d' r.effects = (d', none)) ∧
        ∀ b b' cut, Cut fenced d (planOf b r.effects) cut → (∀ f seq, ¬ Exhausts fenced r cut f seq) →
          ∃ d'', redo fenced b' cut r.effects = (d'', none) ∧
            ∀ l, (d''.page? l).map Page.content = (d'.page? l).map Page.content)) := by
  refine ⟨fun refusal h b => redo_refused fenced h b, fun hgap => ⟨?_, fun hclock => ?_⟩⟩
  · intro f seq hseq b
    have hf : headerRefusal fenced (passed d r.effects) f ≠ none := by
      rw [(headerRefusal_iff fenced).mpr ⟨seq, hseq, rfl⟩]
      exact Option.some_ne_none _
    obtain ⟨⟨g, refusal, hg, hend⟩, hpages⟩ := redo_exhausted fenced hgap hf b
    obtain ⟨seq, hseq, rfl⟩ := (headerRefusal_iff fenced).mp hg
    refine ⟨⟨g, seq, hseq, hend⟩, fun l page hpage => ?_⟩
    rcases hpages l with h | h
    · exact redone_origin fenced (h ▸ hpage)
    · exact passed_origin (h ▸ hpage)
  have hheaders : ∀ {d : Device κ}, (∀ f seq, ¬ Exhausts fenced r d f seq) →
      ∀ f, headerRefusal fenced (passed d r.effects) f = none := by
    intro d hclock f
    refine Option.eq_none_iff_forall_ne_some.mpr fun refusal h => ?_
    obtain ⟨seq, hseq, -⟩ := (headerRefusal_iff fenced).mp h
    exact hclock f seq hseq
  have hcontent := redone_content fenced hd hclock
  refine ⟨redone fenced d r.effects, fun b => redo_eq fenced hgap (hheaders hclock) b, ?_, ?_, ?_, ?_, ?_⟩
  · intro l image himage
    obtain ⟨hpage, hsame⟩ := startPage_redone fenced hd hclock himage
    rw [hpage, Option.map_some, hsame]
  · intro l page hl hpage
    exact redone_untouched fenced hl hpage
  · intro l page hl habsent hpage
    have hl' := hcontent l
    rw [hpage, finalContent, hl, startPage, habsent] at hl'
    split_ifs at hl' with hlt
    · exact Option.some.inj hl'
    · cases hl'
  · intro b
    have hcounts : ∀ f, counts d f ≤ counts (redone fenced d r.effects) f := fun f => by
      rw [counts_redone]; exact le_countAfter (counts d) r.effects f
    have hagain := hheaders (not_exhausts_redone fenced hd hclock)
    rw [redo_eq fenced (preflight_mono hcounts hgap) hagain, redone_redone fenced hd hclock]
  · intro b b' cut hcut hleft
    obtain ⟨s, hs, rfl⟩ := hcut.stage fenced
    refine ⟨_, redo_eq fenced (preflight_mono hs.counts_ge hgap) (hheaders hleft) b', fun l => ?_⟩
    rw [redone_content fenced (hs.admits hd) hleft, hs.finalContent_eq, hcontent]

end

def heapImage : Page Unit := { (Page.empty .heap : Page Unit) with pageLsn := 7, freeStart := 33, slots := [some ()] }

/-- One commit writes a leaf with some pages before it, and the page 0 of its file. -/
def leafAndHeader (before : ℕ) : CommittedRange Unit where
  commits := [{
    csn := 7
    writes := [⟨"person.idx", before + 1, heapImage⟩, ⟨"person.idx", 0, heapImage⟩]
    one_image := by simp [PageEffect.loc]
    stamped := by simp [heapImage]
    header_used := by simp [heapImage, Page.empty] }]
  ascending := by simp

theorem leafAndHeader_header (before : ℕ) : (leafAndHeader before).images ⟨"person.idx", 0⟩ = [heapImage] := by
  simp [leafAndHeader, CommittedRange.images, CommittedRange.effects, occurrences, PageEffect.loc]

def headed (seq : ℕ) : Device Unit := fun f =>
  if f = "person.idx" then [{ (Page.empty .heap : Page Unit) with pageLsn := 5, seq }, Page.empty .free] else []

theorem leafAndHeader_admits (before seq : ℕ) : (leafAndHeader before).Admits (headed seq) := by
  rintro ⟨f, i⟩ page hpage
  simp only [Device.page?, headed] at hpage
  split_ifs at hpage with hf
  · subst hf
    rcases i with _ | _ | i
    · rw [leafAndHeader_header]
      refine .inr (.inl ?_)
      simp [← Option.some.inj hpage, heapImage]
    · exact .inl (by rw [← Option.some.inj hpage]; rfl)
    · simp at hpage
  · simp at hpage

/-- A fenced index file is redone over its old header page, and refused when that page is at its last counter. -/
theorem redo_converges_fenced :
    ((leafAndHeader 2).Admits (headed 4) ∧ ∃ d' : Device Unit,
      (∀ b, redo (fun _ => true) b (headed 4) (leafAndHeader 2).effects = (d', none)) ∧
      (d'.page? ⟨"person.idx", 0⟩).map Page.content = some heapImage.content ∧
      ∀ b, redo (fun _ => true) b d' (leafAndHeader 2).effects = (d', none)) ∧
    ∀ b, ∃ g seq, (redo (fun _ => true) b (headed (maxSeq - 1)) (leafAndHeader 2).effects).2 =
      some (.exhausted (sequenceExhausted g seq)) := by
  have hgap : ∀ seq, preflight (counts (headed seq)) (leafAndHeader 2).effects = none := by
    intro seq
    simp [leafAndHeader, CommittedRange.effects, preflight, counts, headed, maxRedoGapPages]
  have hconverges seq := (redo_converges (fun _ => true) _ _ (leafAndHeader_admits 2 seq)).2 (hgap seq)
  refine ⟨⟨leafAndHeader_admits 2 4, ?_⟩, fun b => ?_⟩
  · have hclock : ∀ f seq, ¬ Exhausts (fun _ => true) (leafAndHeader 2) (headed 4) f seq := by
      rintro f seq ⟨-, image, hlast, -, rfl, hseq⟩
      have himage : image = heapImage := by
        obtain ⟨e, he, rfl⟩ := mem_map.mp (mem_of_getLast? hlast)
        have hmem := (mem_filter.mp he).1
        simp [leafAndHeader, CommittedRange.effects] at hmem
        rcases hmem with rfl | rfl <;> rfl
      have hstart : (startPage (headed 4) ⟨f, 0⟩).seq ≤ 4 := by
        by_cases hf : f = "person.idx" <;> simp [startPage, headed, Device.page?, hf, Page.empty]
      have hsettled : (settled heapImage).seq = 0 := by decide
      have hmax : maxSeq - 1 = 4294967294 := rfl
      rw [himage, hsettled] at hseq
      omega
    obtain ⟨d', hd', hlast, -, -, hagain, -⟩ := (hconverges 4).2 hclock
    exact ⟨d', hd', hlast _ _ (by rw [leafAndHeader_header]; rfl), hagain⟩
  · have hexhausts : Exhausts (fun _ => true) (leafAndHeader 2) (headed (maxSeq - 1)) "person.idx" (maxSeq - 1) :=
      ⟨rfl, heapImage, by rw [leafAndHeader_header]; rfl, .inr (by decide), by decide, le_rfl⟩
    obtain ⟨⟨g, seq, -, hend⟩, -⟩ := (hconverges (maxSeq - 1)).1 _ _ hexhausts b
    exact ⟨g, seq, hend⟩

/-- The file is missing and the range names its page 4096: the page does not get its last image. -/
theorem redo_gap_leaves_page_absent :
    ∃ (r : CommittedRange Unit) (d : Device Unit) (l : Location) (image : Page Unit), r.Admits d ∧
      (r.images l).getLast? = some image ∧
      ∀ b, ((redo (fun _ => false) b d r.effects).1.page? l).map Page.content ≠ some image.content := by
  refine ⟨leafAndHeader 4095, fun _ => [], ⟨"person.idx", 4096⟩, heapImage, ?_, ?_, fun b => ?_⟩
  · intro l page hpage
    simp [Device.page?] at hpage
  · simp [leafAndHeader, CommittedRange.images, CommittedRange.effects, occurrences, PageEffect.loc]
  · have hgap : preflight (counts (κ := Unit) fun _ => []) (leafAndHeader 4095).effects =
        some (gapRefusal "person.idx" 4096 0) := by
      simp [leafAndHeader, CommittedRange.effects, preflight, counts, maxRedoGapPages]
    rw [redo_refused (fun _ => false) hgap]
    simp [Device.page?]

end Grafx.Redo
