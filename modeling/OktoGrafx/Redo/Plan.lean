import OktoGrafx.Redo.PageRedo

/-! What a redo pass computes. Growing a file and installing an image touch different things, so
a pass is the same as growing every file first and then replaying, page by page, the images its
plan holds for that page. From this the coalesced plan is the plan itself. -/

namespace Grafx.Redo
open List GuardedReplay
open Function (update_self)
variable {κ : Type*} {plan : List (PageEffect κ)} {l : Location} {e : PageEffect κ} {p : Pool κ}

def guardAt (device : Page κ) : Guard (Option (Page κ)) where
  free frame := decide ((frame.getD device).pageType = .free)
  stamp frame := (frame.getD device).pageLsn

def Pool.devicePage (p : Pool κ) (l : Location) : Page κ := (p.device.page? l).getD (Page.empty .free)

def Pool.offer (p : Pool κ) (e : PageEffect κ) : Pool κ :=
  { p with
    dirty := Function.update p.dirty e.loc ((guardAt (p.devicePage e.loc)).install (p.dirty e.loc)
      (some (settled e.image))) }

def countAfter (counts : FileName → ℕ) (plan : List (PageEffect κ)) : FileName → ℕ :=
  plan.foldl (fun n e => Function.update n e.file (max (n e.file) (e.pageIndex + 1))) counts

def Pool.grownTo (p : Pool κ) (n : FileName → ℕ) : Pool κ :=
  { device := fun f => p.device f ++ replicate (n f - p.pageCount f) (Page.empty .free)
    dirty := fun l =>
      if p.pageCount l.file ≤ l.pageIndex ∧ l.pageIndex < n l.file then some (Page.empty .free) else p.dirty l }

def offers (plan : List (PageEffect κ)) (l : Location) : List (Option (Page κ)) :=
  (occurrences plan l).map fun e => some (settled e.image)

def Pool.replayed (p : Pool κ) (plan : List (PageEffect κ)) : Pool κ :=
  { p with dirty := fun l => (guardAt (p.devicePage l)).replay (p.dirty l) (offers plan l) }

@[simp] theorem settled_pageType (image : Page κ) : (settled image).pageType = image.pageType := by
  unfold settled; split_ifs <;> rfl

@[simp] theorem settled_pageLsn (image : Page κ) : (settled image).pageLsn = image.pageLsn := by
  unfold settled; split_ifs <;> rfl

@[simp] theorem settled_content (image : Page κ) : (settled image).content = image.content := by
  unfold settled; split_ifs <;> rfl

theorem offers_cons_self (e : PageEffect κ) (rest : List (PageEffect κ)) :
    offers (e :: rest) e.loc = some (settled e.image) :: offers rest e.loc := by
  simp [offers, occurrences]

theorem offers_cons_of_ne (rest : List (PageEffect κ)) (h : e.loc ≠ l) : offers (e :: rest) l = offers rest l := by
  simp [offers, occurrences, h]

theorem le_countAfter (counts : FileName → ℕ) (plan : List (PageEffect κ)) (f : FileName) :
    counts f ≤ countAfter counts plan f := by
  induction plan generalizing counts with
  | nil => exact le_rfl
  | cons e rest ih =>
    refine Nat.le_trans ?_ (ih _)
    by_cases h : f = e.file
    · subst h; simp only [update_self]; omega
    · simp [Function.update_of_ne h]

theorem Pool.grown_eq_grownTo (p : Pool κ) (e : PageEffect κ) :
    p.grown e.file (e.pageIndex + 1) =
      p.grownTo (Function.update p.pageCount e.file (max (p.pageCount e.file) (e.pageIndex + 1))) := by
  unfold Pool.grown Pool.grownTo
  congr 1
  · funext f
    by_cases h : f = e.file
    · subst h
      have : max (p.pageCount e.file) (e.pageIndex + 1) - p.pageCount e.file =
          e.pageIndex + 1 - p.pageCount e.file := by omega
      simp [this]
    · simp [h]
  · funext l
    by_cases h : l.file = e.file
    · simp only [h, true_and, update_self]
      split_ifs <;> first | rfl | omega
    · have : ¬ (p.pageCount l.file ≤ l.pageIndex ∧ l.pageIndex < p.pageCount l.file) := by omega
      simp [h, this]

@[simp] theorem Pool.pageCount_grownTo (p : Pool κ) (n : FileName → ℕ) (f : FileName) :
    (p.grownTo n).pageCount f = max (p.pageCount f) (n f) := by
  simp only [Pool.grownTo, Pool.pageCount, length_append, length_replicate]
  omega

@[simp] theorem Pool.pageCount_offer (p : Pool κ) (e : PageEffect κ) : (p.offer e).pageCount = p.pageCount := rfl

theorem Pool.devicePage_grownTo (p : Pool κ) (n : FileName → ℕ) (l : Location) :
    (p.grownTo n).devicePage l = p.devicePage l := by
  unfold Pool.devicePage Pool.grownTo Device.page?
  by_cases h : l.pageIndex < (p.device l.file).length
  · rw [getElem?_append_left h]
  · rw [getElem?_append_right (by omega), getElem?_eq_none (l := p.device l.file) (by omega),
      getElem?_replicate]
    split_ifs <;> rfl

theorem applyPageImage_eq (h : e.pageIndex < p.pageCount e.file + maxRedoGapPages) :
    ∃ applied, applyPageImage p e = .ok ((p.grown e.file (e.pageIndex + 1)).offer e, applied) := by
  have hgrow : growTo p e.file e.pageIndex = .ok (p.grown e.file (e.pageIndex + 1)) := by
    simp [growTo, not_le.mpr h]
  simp only [applyPageImage, hgrow]
  generalize p.grown e.file (e.pageIndex + 1) = q
  -- The pinned page is the frame over the device image, which is what the guard reads.
  have hpage : (q.page? e.loc).getD (Page.empty .free) = (q.dirty e.loc).getD (q.devicePage e.loc) := by
    unfold Pool.page? Pool.devicePage
    cases q.dirty e.loc <;> rfl
  by_cases hskip : ((q.dirty e.loc).getD (q.devicePage e.loc)).pageType ≠ .free ∧
      e.image.pageLsn ≤ ((q.dirty e.loc).getD (q.devicePage e.loc)).pageLsn
  · have hoffer : q.offer e = q := by
      unfold Pool.offer Guard.install guardAt
      simp [hskip.1, hskip.2]
    exact ⟨false, by simp only [bind, Except.bind, hpage, settled_pageLsn, if_pos hskip, hoffer]; rfl⟩
  · have hoffer : q.offer e = { q with dirty := Function.update q.dirty e.loc (some (settled e.image)) } := by
      unfold Pool.offer Guard.install guardAt
      rw [if_neg (by simpa using hskip)]
    exact ⟨true, by simp only [bind, Except.bind, hpage, settled_pageLsn, if_neg hskip, hoffer]; rfl⟩

theorem Pool.grownTo_grownTo (p : Pool κ) {m n : FileName → ℕ} (h : ∀ f, m f ≤ n f) :
    (p.grownTo m).grownTo n = p.grownTo n := by
  have hcount := p.pageCount_grownTo m
  unfold Pool.grownTo at *
  congr 1
  · funext f
    have hf := h f
    simp only [hcount, append_assoc, replicate_append_replicate]
    congr 2
    omega
  · funext l
    have hl := h l.file
    simp only [hcount]
    split_ifs <;> first | rfl | omega

theorem Pool.grownTo_offer (p : Pool κ) (n : FileName → ℕ) (he : e.pageIndex < p.pageCount e.file) :
    (p.offer e).grownTo n = (p.grownTo n).offer e := by
  have hpage := p.devicePage_grownTo n e.loc
  have hdirty : (p.grownTo n).dirty e.loc = p.dirty e.loc := if_neg (by simp only [PageEffect.loc]; omega)
  unfold Pool.offer
  rw [hpage, hdirty]
  unfold Pool.grownTo
  congr 1
  funext l
  by_cases hl : l = e.loc
  · subst hl
    have hnew : ¬ (p.pageCount e.loc.file ≤ e.loc.pageIndex ∧ e.loc.pageIndex < n e.loc.file) :=
      fun h => absurd he (not_lt.mpr h.1)
    rw [update_self]
    exact (if_neg hnew).trans (update_self ..)
  · simp only [Function.update_of_ne hl]
    rfl

theorem Pool.offer_replayed (p : Pool κ) (e : PageEffect κ) (rest : List (PageEffect κ)) :
    (p.offer e).replayed rest = p.replayed (e :: rest) := by
  unfold Pool.replayed
  congr 1
  funext l
  change (guardAt (p.devicePage l)).replay _ _ = _
  by_cases hl : l = e.loc
  · subst hl
    rw [offers_cons_self, Guard.replay_cons]
    simp [Pool.offer]
  · rw [offers_cons_of_ne rest (Ne.symm hl)]
    simp [Pool.offer, hl]

theorem applyPlan_eq (h : preflight p.pageCount plan = none) :
    applyPlan p plan = ((p.grownTo (countAfter p.pageCount plan)).replayed plan, none) := by
  induction plan generalizing p with
  | nil =>
    have hgrown : p.grownTo p.pageCount = p := by
      unfold Pool.grownTo
      congr 1
      · simp
      · funext l
        exact if_neg (by omega)
    simp [applyPlan, countAfter, hgrown, Pool.replayed, offers, occurrences]
  | cons e rest ih =>
    simp only [preflight] at h
    split_ifs at h with hgap
    obtain ⟨applied, happly⟩ := applyPageImage_eq (not_le.mp hgap)
    rw [p.grown_eq_grownTo e] at happly
    let m := Function.update p.pageCount e.file (max (p.pageCount e.file) (e.pageIndex + 1))
    have hm : (p.grownTo m).pageCount = m := by
      funext f
      rw [Pool.pageCount_grownTo]
      by_cases hf : f = e.file
      · subst hf; simp only [m, update_self]; omega
      · simp [m, hf]
    have he : e.pageIndex < (p.grownTo m).pageCount e.file := by
      rw [hm]; simp only [m, update_self]; omega
    -- The files grow to the same final size whether or not the first image is offered first.
    calc applyPlan p (e :: rest)
        = applyPlan ((p.grownTo m).offer e) rest := by simp only [applyPlan, happly, m]
      _ = ((((p.grownTo m).offer e).grownTo (countAfter m rest)).replayed rest, none) := by
          rw [ih (by rwa [Pool.pageCount_offer, hm]), Pool.pageCount_offer, hm]
      _ = ((p.grownTo (countAfter m rest)).replayed (e :: rest), none) := by
          rw [Pool.grownTo_offer _ _ he, Pool.offer_replayed, Pool.grownTo_grownTo _ (le_countAfter m rest)]

/-! ## The coalesced plan -/

theorem loc_of_mem_occurrences (h : e ∈ occurrences plan l) : e.loc = l := by
  simpa using (mem_filter.mp h).2

theorem loc_getLastD_occurrences (plan : List (PageEffect κ)) (e : PageEffect κ) :
    ((occurrences plan e.loc).getLastD e).loc = e.loc := by
  rw [getLastD_eq_getLast?]
  cases h : (occurrences plan e.loc).getLast? with
  | none => rfl
  | some last => exact loc_of_mem_occurrences (mem_of_getLast? h)

section Coalesce
variable [DecidableEq κ]

theorem preflight_countAfter_coalesceFrom (all : List (PageEffect κ)) {seen : List Location}
    {counts : FileName → ℕ} (hseen : ∀ l ∈ seen, l.pageIndex < counts l.file) :
    preflight counts (coalesceFrom all seen plan) = preflight counts plan ∧
      countAfter counts (coalesceFrom all seen plan) = countAfter counts plan := by
  induction plan generalizing seen counts with
  | nil => exact ⟨rfl, rfl⟩
  | cons e rest ih =>
    let counts' := Function.update counts e.file (max (counts e.file) (e.pageIndex + 1))
    have hcounts : ∀ l : Location, l.pageIndex < counts l.file → l.pageIndex < counts' l.file := by
      intro l hl
      by_cases hf : l.file = e.file
      · simp only [counts', hf, update_self]; rw [hf] at hl; omega
      · simpa [counts', hf] using hl
    have hself : e.loc.pageIndex < counts' e.loc.file := by
      simp only [counts', PageEffect.loc, update_self]; omega
    -- Either walk continues with the counts this location leaves.
    have hcons : ∀ (e' : PageEffect κ) (tail : List (PageEffect κ)), e'.loc = e.loc →
        preflight counts' tail = preflight counts' rest → countAfter counts' tail = countAfter counts' rest →
        preflight counts (e' :: tail) = preflight counts (e :: rest) ∧
          countAfter counts (e' :: tail) = countAfter counts (e :: rest) := by
      intro e' tail he' hp hc
      obtain ⟨hfile, hindex⟩ : e'.file = e.file ∧ e'.pageIndex = e.pageIndex := by
        simpa [PageEffect.loc] using he'
      simp only [preflight, countAfter, foldl_cons, hfile, hindex]
      exact ⟨by rw [hp], hc⟩
    simp only [coalesceFrom]
    split_ifs with hsafe hmem
    · have hsame : counts' = counts := by
        have := hseen _ hmem
        simp only [PageEffect.loc] at this
        simp only [counts', Nat.max_eq_left this, Function.update_eq_self]
      obtain ⟨hp, hc⟩ := ih hseen
      have hgap : ¬ counts e.file + maxRedoGapPages ≤ e.pageIndex := by
        have := hseen _ hmem
        simp only [PageEffect.loc] at this
        omega
      have hcount : countAfter counts (e :: rest) = countAfter counts' rest := rfl
      refine ⟨?_, by rw [hc, hcount, hsame]⟩
      simp only [preflight, if_neg hgap]
      exact hp.trans (congrArg (preflight · rest) hsame.symm)
    · have hseen' : ∀ l ∈ e.loc :: seen, l.pageIndex + 1 ≤ counts' l.file := by
        intro l hl
        rcases mem_cons.mp hl with rfl | hl
        · exact hself
        · exact hcounts l (hseen l hl)
      obtain ⟨hp, hc⟩ := ih hseen'
      exact hcons _ _ (loc_getLastD_occurrences all e) hp hc
    · have hseen' : ∀ l ∈ seen, l.pageIndex + 1 ≤ counts' l.file := fun l hl => hcounts l (hseen l hl)
      obtain ⟨hp, hc⟩ := ih hseen'
      exact hcons _ _ rfl hp hc

theorem occurrences_coalesceFrom (all seen plan) (l : Location) :
    occurrences (coalesceFrom all seen plan) l =
      if safeOccurrences ((occurrences all l).map (·.image)) then
        if l ∈ seen then [] else (occurrences plan l).head?.toList.map fun e => (occurrences all l).getLastD e
      else occurrences (κ := κ) plan l := by
  induction plan generalizing seen with
  | nil => simp [coalesceFrom, occurrences]
  | cons e rest ih =>
    by_cases hl : e.loc = l
    · subst hl
      have hself : ∀ tail : List (PageEffect κ), occurrences (e :: tail) e.loc = e :: occurrences tail e.loc := by
        intro tail; simp [occurrences]
      have hlast : ∀ tail : List (PageEffect κ), occurrences ((occurrences all e.loc).getLastD e :: tail) e.loc =
          (occurrences all e.loc).getLastD e :: occurrences tail e.loc := by
        intro tail
        rw [occurrences, filter_cons_of_pos (by simpa using loc_getLastD_occurrences all e)]
        rfl
      simp only [coalesceFrom]
      split_ifs with hsafe hmem
      · rw [ih, if_pos hsafe, if_pos hmem]
      · rw [hlast, ih, if_pos hsafe, if_pos mem_cons_self, hself]
        rfl
      · rw [hself, ih, if_neg hsafe, hself]
    · have hother : ∀ e' : PageEffect κ, e'.loc = e.loc → ∀ tail, occurrences (e' :: tail) l = occurrences tail l := by
        intro e' he' tail
        simp [occurrences, he', hl]
      simp only [coalesceFrom]
      split_ifs with h1 h2 h3 <;>
        simp only [hother _ rfl, hother _ (loc_getLastD_occurrences all e), ih, mem_cons, Ne.symm hl, false_or] <;>
        simp [*]

theorem isChain_of_safeOccurrences {images : List (Page κ)} (h : safeOccurrences images = true) :
    images.IsChain fun a b => a.pageLsn < b.pageLsn ∨ a = b := by
  induction images with
  | nil => exact .nil
  | cons a rest ih =>
    cases rest with
    | nil => exact .singleton a
    | cons b rest =>
      simp only [safeOccurrences, Bool.and_eq_true, Bool.not_eq_true', Bool.or_eq_false_iff,
        decide_eq_false_iff_not, Bool.and_eq_false_iff, beq_eq_false_iff_ne] at h
      obtain ⟨⟨hlt, hne⟩, hrest⟩ := h
      refine isChain_cons_cons.mpr ⟨?_, ih hrest⟩
      by_cases hab : b = a
      · exact .inr hab.symm
      · have : b.pageLsn ≠ a.pageLsn := hne.resolve_right (by simpa using hab)
        exact .inl (by omega)

theorem replay_offers_coalesce (device : Page κ) (frame : Option (Page κ)) (plan : List (PageEffect κ)) (l : Location) :
    (guardAt device).replay frame (offers (coalescePagePlan plan) l) = (guardAt device).replay frame (offers plan l) := by
  unfold offers coalescePagePlan
  rw [occurrences_coalesceFrom]
  split_ifs with hsafe hmem
  · exact absurd hmem not_mem_nil
  · cases hocc : occurrences plan l with
    | nil => rfl
    | cons e rest =>
      have hchain : ((e :: rest).map fun e => some (settled e.image)).IsChain
          fun a b => (guardAt device).stamp a < (guardAt device).stamp b ∨ a = b := by
        have := isChain_of_safeOccurrences hsafe
        rw [hocc, isChain_map] at this
        rw [isChain_map]
        refine this.imp fun a b hab => ?_
        simp only [guardAt, Option.getD_some, settled_pageLsn, Option.some.injEq]
        exact hab.imp_right fun h => by rw [h]
      have hreplay := Guard.replay_eq_install_last hchain (c := frame)
      have hlast : (e :: rest).getLastD e = (e :: rest).getLast (cons_ne_nil e rest) := by
        rfl
      have hmap := getLast_map (f := fun e => some (settled e.image)) (l := e :: rest) (by simp)
      rw [map_cons, hreplay]
      simp only [map_cons] at hmap
      rw [hmap, ← hlast]
      rfl
  · rfl

theorem applyPlan_coalesce (h : preflight p.pageCount plan = none) : applyPlan p (coalescePagePlan plan) = applyPlan p plan := by
  have hseen : ∀ l ∈ ([] : List Location), l.pageIndex + 1 ≤ p.pageCount l.file := fun _ h => absurd h not_mem_nil
  obtain ⟨hp, hc⟩ := preflight_countAfter_coalesceFrom plan hseen
  have hplan : preflight p.pageCount (coalescePagePlan plan) = none := hp.trans h
  rw [applyPlan_eq h, applyPlan_eq hplan]
  rw [show countAfter p.pageCount (coalescePagePlan plan) = countAfter p.pageCount plan from hc]
  unfold Pool.replayed
  simp only [replay_offers_coalesce]

end Coalesce
end Grafx.Redo
