import OktoGrafx.Heap.Directory

/-! Finding the tail of a table. While its epoch is current the remembered page is on the chain, and it is used
only if no page follows it; otherwise the chain is walked. -/

namespace Grafx.Heap
open Fallible

variable {s : HeapStore} {tableId : ℕ} {e : TableExtent}

theorem tailFrom_ensures {fuel : ℕ} {seen xs : List ℕ} {index : ℕ} (hchain : DataChain s.pages tableId index xs) :
    (tailFrom tableId fuel seen index).Ensures s
      (fun found s' => s' = s ∧ xs.getLast? = some found.1 ∧ found.2 = seen.length + xs.length) (fun s' => s' = s) := by
  induction fuel generalizing seen xs index with
  | zero => exact ensures_refuse rfl
  | succ fuel ih =>
    rw [tailFrom]
    split_ifs with hcycle
    · exact ensures_refuse rfl
    refine ensures_bind (pin_ensures (fun p hp => ?_) rfl)
    refine bind_lift (fun _ _ => ?_) rfl
    obtain ⟨p', rest, rfl, hp', -, hend⟩ := hchain.step
    cases hp.symm.trans hp'
    rcases hend with ⟨hnext, rfl⟩ | ⟨following, hnext, hfollowing⟩
    · rw [hnext]
      exact ensures_pure ⟨rfl, rfl, rfl⟩
    · rw [hnext]
      refine (ih hfollowing).mono ?_ fun _ h => h
      rintro found s' ⟨hs', hlast, hlength⟩
      refine ⟨hs', ?_, ?_⟩
      · rw [List.getLast?_cons, hlast]
        rfl
      · rw [hlength, List.length_cons, List.length_cons]
        omega

theorem quiet_of_cache (hs : Wf s) {tailCache : ℕ → Option TailHint}
    (hcache : CacheOk { s with tailCache := tailCache }) : Quiet s { s with tailCache := tailCache } :=
  ⟨(Quiet.refl hs).pages, rfl, rfl, fun _ => hcache⟩

theorem cacheOk_update (hcache : CacheOk s) {hint : Option TailHint}
    (hhint : ∀ h, hint = some h → h.epoch = s.derivedEpoch ∧ OnChain s.pages tableId h.tail h.length) :
    CacheOk { s with tailCache := Function.update s.tailCache tableId hint } := by
  intro t h hfound
  by_cases ht : t = tableId
  · subst ht
    simp only [Function.update_self] at hfound
    exact ⟨(hhint h hfound).1.le, fun _ => (hhint h hfound).2⟩
  · simp only [Function.update_of_ne ht] at hfound
    exact hcache t h hfound

def TailResolved (s : HeapStore) (tableId : ℕ) (found : ℕ × ℕ) (s' : HeapStore) : Prop :=
  s'.pages = s.pages ∧ Quiet s s' ∧ TailOf s.pages tableId found.1 found.2

theorem walkTail_ensures (hs : Wf s) (hentry : EntryFor s tableId e) : (walkTail tableId e).Ensures s (TailResolved s tableId) (Quiet s) := by
  obtain ⟨-, e₀, he₀, rfl, hfirst, -⟩ := hentry
  obtain ⟨xs, hchain⟩ := hs.chains e₀ he₀
  refine bind_read ?_
  refine ensures_bind ((tailFrom_ensures (hfirst ▸ hchain)).mono ?_ ?_)
  · rintro ⟨tail, length⟩ t ⟨rfl, hlast, hlength⟩
    have htail : TailOf t.pages e₀.tableId tail length := ⟨e₀, he₀, rfl, xs, hchain, hlast, by simpa using hlength.symm⟩
    refine bind_update (ensures_pure ⟨rfl, quiet_of_cache hs (cacheOk_update hs.cache ?_), htail⟩)
    rintro _ hh
    cases hh
    exact ⟨rfl, htail.onChain⟩
  · rintro _ rfl
    exact Quiet.refl hs

theorem cacheIsUsable_ensures {hint : TailHint} : (cacheIsUsable tableId e hint).Ensures s
      (fun usable s' => s' = s ∧ (usable = true → hint.epoch = s.derivedEpoch ∧
        ∃ p, s.pages[hint.tail]? = some p ∧ p.nextPage = none)) (fun s' => s' = s) := by
  have hunusable : s = s ∧ (false = true → hint.epoch = s.derivedEpoch ∧
      ∃ p, s.pages[hint.tail]? = some p ∧ p.nextPage = none) := ⟨rfl, nofun⟩
  refine bind_read ?_
  split_ifs with hepoch
  · exact ensures_pure hunusable
  have hcurrent := not_not.mp hepoch
  refine ensures_bind (pin_ensures (fun first _ => ?_) rfl)
  cases requireTablePage tableId e.firstPage first with
  | error _ => exact ensures_pure hunusable
  | ok _ =>
    refine ensures_bind (pin_ensures (fun last hlast => ?_) rfl)
    cases requireTablePage tableId hint.tail last with
    | error _ => exact ensures_pure hunusable
    | ok _ => exact ensures_pure ⟨rfl, fun hend => ⟨hcurrent, last, hlast, Option.isNone_iff_eq_none.mp hend⟩⟩

theorem resolveTail_ensures (hs : Wf s) (hentry : EntryFor s tableId e) : (resolveTail tableId e).Ensures s (TailResolved s tableId) (Quiet s) := by
  refine bind_read ?_
  cases hhint : s.tailCache tableId with
  | none => exact walkTail_ensures hs hentry
  | some hint =>
    refine ensures_bind (cacheIsUsable_ensures.mono ?_ ?_)
    · rintro usable t ⟨rfl, husable⟩
      cases usable with
      | true =>
        obtain ⟨hcurrent, p, hp, hend⟩ := husable rfl
        exact ensures_pure ⟨rfl, Quiet.refl hs, ((hs.cache tableId hint hhint).2 hcurrent).tailOf hp hend⟩
      | false =>
        refine bind_update ?_
        have hquiet : Quiet t { t with tailCache := Function.update t.tailCache tableId none } :=
          quiet_of_cache hs (cacheOk_update hs.cache nofun)
        refine (walkTail_ensures (hquiet.wf hs) (hentry.of_quiet hquiet)).mono ?_ fun _ h => hquiet.trans h
        rintro found s' ⟨hpages, hquiet', htail⟩
        exact ⟨hpages, hquiet.trans hquiet', htail⟩
    · rintro _ rfl
      exact Quiet.refl hs

end Grafx.Heap
