import OktoGrafx.Control.Runs

/-! Several instances of a store over one control record. One of them at a time publishes, write after
write; the others read whenever they want. A record that cannot be read is built anew, and its numbers
start again at one. -/

namespace Grafx.Control

open List Checked TwoSlot Function
open Option (mem_def)

variable {file : Option Bytes} {c : Option SlotRecord}

def unreadable (b : ControlBinding) (image : Bytes) : Bool :=
  decide (image.length = expectedSize b) &&
    match decodeCompleteImage b image with
    | .ok (_, some _, _) => false
    | _ => true

structure Call (ι : Type*) where
  owner : ι
  payload : Bytes
  rest : Outcome

/-- The file, what each instance has seen of it, and the payload that reached it last. -/
structure StoreState (ι : Type*) where
  file : Option Bytes
  seen : ι → ℕ
  call : Option (Call ι)
  newest : Option Bytes

inductive StoreAct (ι : Type*) where
  | opened (i : ι)
  | read (i : ι)
  | publish (i : ι) (h : ControlHeader) (p : Publish)
  | land
  | tear (raw : Bytes)
  | returns
  | damage (image : Bytes)

section Machine
variable {ι : Type*} (b : ControlBinding)

def StoreState.start (ι : Type*) (file : Option Bytes) : StoreState ι := ⟨file, fun _ => 0, none, file⟩

namespace StoreState
variable (s : StoreState ι)

def opened [DecidableEq ι] (i : ι) : StoreState ι :=
  { s with seen := update s.seen i 0, call := s.call.filter fun c => decide (c.owner ≠ i) }

def read [DecidableEq ι] (i : ι) : StoreState ι :=
  match Control.read b s.file (s.seen i) with
  | .ok r => { s with seen := update s.seen i (seenAfter (s.seen i) r) }
  | .error _ => s

def publish (i : ι) (h : ControlHeader) (p : Publish) : StoreState ι :=
  match s.call with
  | none => { s with call := some ⟨i, p.payload, publishChecked b h p s.file (s.seen i)⟩ }
  | some _ => s

def land : StoreState ι :=
  match s.call with
  | some ⟨owner, payload, ⟨w :: ws, seen, result⟩⟩ =>
    { s with file := w.apply b s.file, call := some ⟨owner, payload, ⟨ws, seen, result⟩⟩, newest := some payload }
  | _ => s

def tear (raw : Bytes) : StoreState ι :=
  match s.call, s.file with
  | some ⟨_, _, ⟨.page k _ :: _, _, _⟩⟩, some image =>
    if raw.length = b.pageSize ∧ ¬ Sealed raw then { s with file := some (Paged.setPage b.pageSize image (controlSlotPage k) raw) } else s
  | _, _ => s

def returns [DecidableEq ι] : StoreState ι :=
  match s.call with
  | some ⟨owner, _, ⟨[], seen, _⟩⟩ => { s with seen := update s.seen owner seen, call := none }
  | _ => s

def damage (image : Bytes) : StoreState ι := if s.call.isNone && unreadable b image then { s with file := some image } else s

end StoreState

def StoreState.step [DecidableEq ι] (s : StoreState ι) : StoreAct ι → StoreState ι
  | .opened i => s.opened i
  | .read i => s.read b i
  | .publish i h p => s.publish b i h p
  | .land => s.land b
  | .tear raw => s.tear b raw
  | .returns => s.returns
  | .damage image => s.damage b image

/-- A record is built anew only while no other instance has seen a higher number. -/
def StoreAct.Unseen (s : StoreState ι) : StoreAct ι → Prop
  | .land => ∀ image ∈ s.file, unreadable b image = true → ∀ c ∈ s.call, ∀ j, j ≠ c.owner → s.seen j ≤ 1
  | _ => True

/-! ## What a state holds -/

structure Served (s : StoreState ι) (v : View) : Prop where
  shows : Shows b s.file v
  call : ∀ c ∈ s.call, c.rest.Lands b c.payload s.file v
  seen : ∀ i, (∀ c ∈ s.call, c.owner ≠ i) → s.seen i ≤ v.generation
  newest : v.current.map (·.payload) = s.newest

structure Lost (s : StoreState ι) : Prop where
  unreadable : ∃ image, s.file = some image ∧ unreadable b image = true
  call : ∀ c ∈ s.call, c.rest.writes = [] ∨
    ∃ image o, c.rest = .after (.replace image) o ∧ o.Lands b c.payload (some image) (View.first c.payload)

def Kept (s : StoreState ι) : Prop := (∃ v, Served b s v) ∨ Lost b s

variable {b} {s : StoreState ι} {v : View} {image : Bytes}

theorem publishChecked_unreadable (h : ControlHeader) (p : Publish) (lastSeen : ℕ) (himage : unreadable b image = true) :
    (publishChecked b h p (some image) lastSeen).writes = [] ∨ ∃ image' o,
      publishChecked b h p (some image) lastSeen = .after (.replace image') o ∧ o.Lands b p.payload (some image') (View.first p.payload) := by
  obtain ⟨hlength, hnone⟩ := Bool.and_eq_true_iff.mp himage
  unfold publishChecked
  by_cases hn : p.publications = 0
  · rw [if_pos hn]
    exact .inl rfl
  rw [if_neg hn]
  split
  · exact .inl rfl
  dsimp only
  rw [if_pos (of_decide_eq_true hlength), publishOver]
  have hrebuild : ∀ o, o = bootstrapThen b h p.payload p.publications lastSeen (publishExpected b p) → o.writes = [] ∨ ∃ image' o',
      o = .after (.replace image') o' ∧ o'.Lands b p.payload (some image') (View.first p.payload) := by
    intro o ho
    rcases bootstrapThen_cases h lastSeen (publishExpected b p) hn
      (fun image s hcurrent hs hn' => publishExpected_lands hcurrent hs le_rfl hn') with ⟨e, heq⟩ | ⟨image', o', heq, hl⟩
    · rw [ho, heq]
      exact .inl rfl
    · exact .inr ⟨image', o', ho.trans heq, hl⟩
  split
  · split
    · exact hrebuild _ rfl
    · exact .inl rfl
  · rename_i header chosen target hdecode
    split
    · exact hrebuild _ rfl
    · -- a record that was chosen contradicts the damage
      rename_i hkeep
      rw [hdecode] at hnone
      cases chosen with
      | some x => cases hnone
      | none =>
        rw [publishExpected]
        split
        · exact .inl rfl
        · exact .inl rfl

/-! ## Steps -/

theorem Served.opened [DecidableEq ι] (hs : Served b s v) (i : ι) : Served b (s.opened i) v where
  shows := hs.shows
  call := fun c hc => hs.call c (Option.mem_filter_iff.mp hc).1
  seen := by
    intro j hj
    show update s.seen i 0 j ≤ v.generation
    by_cases hji : j = i
    · rw [hji, update_self]
      exact Nat.zero_le _
    · rw [update_of_ne hji]
      apply hs.seen j
      intro c hc howner
      exact hj c (Option.mem_filter_iff.mpr ⟨hc, decide_eq_true fun hi => hji (howner.symm.trans hi)⟩) howner
  newest := hs.newest

theorem Served.read [DecidableEq ι] (hs : Served b s v) (i : ι) : Served b (s.read b i) v := by
  unfold StoreState.read
  split
  · rename_i r hread
    refine ⟨hs.shows, hs.call, ?_, hs.newest⟩
    intro j hj
    show update s.seen i _ j ≤ v.generation
    by_cases hji : j = i
    · subst hji
      rw [update_self]
      exact hs.shows.reads.seenAfter_le (hs.seen j hj) hread
    · rw [update_of_ne hji]
      exact hs.seen j hj
  · exact hs

theorem Served.publish (hs : Served b s v) (i : ι) (h : ControlHeader) (p : Publish) : Served b (s.publish b i h p) v := by
  unfold StoreState.publish
  split
  · rename_i hidle
    have hseen : ∀ j, s.seen j ≤ v.generation := fun j => hs.seen j fun c hc => by
      rw [hidle] at hc
      exact nomatch hc
    refine ⟨hs.shows, ?_, fun j _ => hseen j, hs.newest⟩
    intro c hc
    cases hc
    exact publishChecked_lands hs.shows (hseen i)
  · exact hs

theorem Served.land (hs : Served b s v) : ∃ v', Served b (s.land b) v' := by
  unfold StoreState.land
  split
  · rename_i owner payload w ws seen result hcall
    have hlands : Lands b payload seen result (w :: ws) s.file v := hs.call _ (mem_def.mpr hcall)
    cases hlands with
    | write hv hpage htorn hrest =>
      refine ⟨v.next payload, hrest.shows, ?_, ?_, by rw [View.next_current]; rfl⟩
      · intro c hc
        cases hc
        exact hrest
      · intro i hi
        have hle := hs.seen i fun c hc => by
          rw [hcall] at hc
          cases hc
          exact hi ⟨owner, payload, ⟨ws, seen, result⟩⟩ rfl
        rw [View.next_generation]
        exact Nat.le_succ_of_le hle
  · exact ⟨v, hs⟩

theorem Served.tear (hs : Served b s v) (raw : Bytes) : ∃ v', Served b (s.tear b raw) v' := by
  unfold StoreState.tear
  split
  · rename_i owner payload k raw₀ ws seen result image hcall hfile
    split
    · rename_i htorn
      have hlands : Lands b payload seen result (.page k raw₀ :: ws) s.file v := hs.call _ (mem_def.mpr hcall)
      rw [hfile] at hlands
      have htorn := hlands.torn htorn.1 htorn.2
      refine ⟨v.tear, htorn.shows, ?_, ?_, by rw [View.tear_current]; exact hs.newest⟩
      · intro c hc
        cases hcall.symm.trans hc
        exact htorn
      · intro i hi
        rw [View.tear_generation]
        exact hs.seen i hi
    · exact ⟨v, hs⟩
  · exact ⟨v, hs⟩

theorem Served.returns [DecidableEq ι] (hs : Served b s v) : Served b s.returns v := by
  unfold StoreState.returns
  split
  · rename_i owner payload seen result hcall
    have hlands : Lands b payload seen result [] s.file v := hs.call _ (mem_def.mpr hcall)
    cases hlands with
    | done hv hseen hresult =>
      refine ⟨hs.shows, fun c hc => (nomatch hc), ?_, hs.newest⟩
      intro i _
      show update s.seen owner seen i ≤ v.generation
      by_cases hi : i = owner
      · rw [hi, update_self]
        exact hseen
      · rw [update_of_ne hi]
        apply hs.seen i
        intro c hc howner
        rw [hcall] at hc
        cases hc
        exact hi howner.symm
  · exact hs

theorem Kept.damage (hs : Kept b s) (image : Bytes) : Kept b (s.damage b image) := by
  unfold StoreState.damage
  split
  · rename_i hdamage
    obtain ⟨hidle, himage⟩ := Bool.and_eq_true_iff.mp hdamage
    refine .inr ⟨⟨image, rfl, himage⟩, ?_⟩
    intro c hc
    rw [Option.isNone_iff_eq_none.mp hidle] at hc
    exact nomatch hc
  · exact hs

theorem Lost.opened [DecidableEq ι] (hs : Lost b s) (i : ι) : Lost b (s.opened i) :=
  ⟨hs.unreadable, fun c hc => hs.call c (Option.mem_filter_iff.mp hc).1⟩

theorem Lost.read [DecidableEq ι] (hs : Lost b s) (i : ι) : Lost b (s.read b i) := by
  unfold StoreState.read
  split
  · exact ⟨hs.unreadable, hs.call⟩
  · exact hs

theorem Lost.publish (hs : Lost b s) (i : ι) (h : ControlHeader) (p : Publish) : Lost b (s.publish b i h p) := by
  unfold StoreState.publish
  split
  · refine ⟨hs.unreadable, ?_⟩
    intro c hc
    cases hc
    obtain ⟨image, hfile, himage⟩ := hs.unreadable
    rw [hfile]
    exact publishChecked_unreadable h p (s.seen i) himage
  · exact hs

theorem Lost.land (hs : Lost b s) (hunseen : StoreAct.Unseen b s .land) : Kept b (s.land b) := by
  unfold StoreState.land
  split
  · rename_i owner payload w ws seen result hcall
    rcases hs.call _ (mem_def.mpr hcall) with hnil | ⟨image', o, hrest, hlands⟩
    · cases hnil
    · obtain ⟨hwrites, rfl, rfl⟩ := Outcome.mk.inj hrest
      cases hwrites
      refine .inl ⟨View.first payload, Control.Lands.shows hlands, ?_, ?_, rfl⟩
      · intro c hc
        cases hc
        exact hlands
      · intro i hi
        obtain ⟨image, hfile, himage⟩ := hs.unreadable
        apply hunseen image hfile himage _ (mem_def.mpr hcall) i
        exact fun howner => hi _ rfl howner.symm
  · exact .inr hs

theorem Lost.tear (hs : Lost b s) (raw : Bytes) : Lost b (s.tear b raw) := by
  unfold StoreState.tear
  split
  · rename_i owner payload k raw₀ ws seen result image hcall hfile
    -- the first write to a record that cannot be read is no page
    rcases hs.call _ (mem_def.mpr hcall) with hnil | ⟨image', o, hrest, -⟩
    · cases hnil
    · cases hrest
  · exact hs

theorem Lost.returns [DecidableEq ι] (hs : Lost b s) : Lost b s.returns := by
  unfold StoreState.returns
  split
  · exact ⟨hs.unreadable, fun _ hc => nomatch hc⟩
  · exact hs

theorem Kept.step [DecidableEq ι] (hs : Kept b s) (a : StoreAct ι) (ha : a.Unseen b s) : Kept b (s.step b a) := by
  rcases hs with ⟨v, hs⟩ | hs
  · cases a with
    | opened i => exact .inl ⟨v, hs.opened i⟩
    | read i => exact .inl ⟨v, hs.read i⟩
    | publish i h p => exact .inl ⟨v, hs.publish i h p⟩
    | land => exact .inl hs.land
    | tear raw => exact .inl (hs.tear raw)
    | returns => exact .inl ⟨v, hs.returns⟩
    | damage image => exact Kept.damage (.inl ⟨v, hs⟩) image
  · cases a with
    | opened i => exact .inr (hs.opened i)
    | read i => exact .inr (hs.read i)
    | publish i h p => exact .inr (hs.publish i h p)
    | land => exact hs.land ha
    | tear raw => exact .inr (hs.tear raw)
    | returns => exact .inr hs.returns
    | damage image => exact Kept.damage (.inr hs) image

theorem Kept.start (hfile : ∀ image ∈ file, image.length ≠ expectedSize b) : Kept b (.start ι file) := by
  cases file with
  | none => exact .inl ⟨.absent, .absent, fun _ hc => (nomatch hc), fun _ _ => le_rfl, rfl⟩
  | some image => exact .inl ⟨.legacy image, .legacy (hfile image rfl), fun _ hc => (nomatch hc), fun _ _ => le_rfl, rfl⟩

theorem Served.reads (hs : Served b s v) {i : ι} (hi : ∀ c ∈ s.call, c.owner ≠ i) :
    ∃ r, Control.read b s.file (s.seen i) = .ok r ∧ r.map (·.payload) = s.newest := by
  obtain ⟨r, hr, heq⟩ := hs.shows.reads.read (hs.seen i hi)
  refine ⟨r, hr, ?_⟩
  rw [← hs.newest, ← heq, Option.map_map]
  rfl

theorem unreadable_of_shows (hv : Shows b (some image) v) : unreadable b image = false := by
  cases hv with
  | legacy hlength => rw [unreadable, decide_eq_false hlength, Bool.false_and]
  | slots hcurrent hs => rw [unreadable, (hs.whole hcurrent).decodeComplete, Bool.and_false]

theorem Kept.lost (hs : Kept b s) (hfile : s.file = some image) (himage : unreadable b image = true) : Lost b s := by
  rcases hs with ⟨v, hserved⟩ | hlost
  · rw [unreadable_of_shows (hfile ▸ hserved.shows)] at himage
    cases himage
  · exact hlost

theorem Kept.served (hs : Kept b s) (hhealthy : ∀ image ∈ s.file, unreadable b image = false) : ∃ v, Served b s v := by
  rcases hs with hserved | hlost
  · exact hserved
  · obtain ⟨image, himage, hunreadable⟩ := hlost.unreadable
    rw [hhealthy image himage] at hunreadable
    cases hunreadable

theorem Lost.land_read_iff (hs : Lost b s) {c : Call ι} (hc : s.call = some c) (hwrites : c.rest.writes ≠ []) (j : ι) :
    (∃ r, Control.read b (s.land b).file ((s.land b).seen j) = .ok r) ↔ s.seen j ≤ 1 := by
  obtain ⟨owner, payload, rest⟩ := c
  rcases hs.call _ (mem_def.mpr hc) with hnil | ⟨image, o, hrest, hlands⟩
  · exact absurd hnil hwrites
  · obtain rfl : rest = .after (.replace image) o := hrest
    have hland : s.land b = { s with file := some image, call := some ⟨owner, payload, o⟩, newest := some payload } := by
      rw [StoreState.land, hc]
      rfl
    rw [hland]
    cases Control.Lands.shows hlands with
    | slots hcurrent hslotted =>
      constructor
      · rintro ⟨r, hr⟩
        by_contra hgt
        rw [(hslotted.whole hcurrent).read_regressed (Nat.lt_of_not_le hgt)] at hr
        cases hr
      · intro hle
        obtain ⟨payloads, hr⟩ := (hslotted.whole hcurrent).read hle
        exact ⟨_, hr⟩

/-- If a record that cannot be read is built anew only when no other instance has seen a number above one, every
instance that is not publishing reads what reached the file last. And an instance reads a record built anew
exactly when it has seen no number above one. -/
theorem rebuilt_record_read [DecidableEq ι] (b : ControlBinding) (file : Option Bytes) (hfile : ∀ image ∈ file, image.length ≠ expectedSize b)
    (acts : List (StoreAct ι)) (hacts : Transition.Along (StoreState.step b) (fun s a => a.Unseen b s) (.start ι file) acts) (s : StoreState ι)
    (hs : acts.foldl (StoreState.step b) (.start ι file) = s) :
    ((∀ image ∈ s.file, unreadable b image = false) → ∀ i, (∀ c ∈ s.call, c.owner ≠ i) →
      ∃ r, Control.read b s.file (s.seen i) = .ok r ∧ r.map (·.payload) = s.newest) ∧
    ∀ image c, s.file = some image → unreadable b image = true → s.call = some c → c.rest.writes ≠ [] → ∀ j,
      (∃ r, Control.read b (s.step b .land).file ((s.step b .land).seen j) = .ok r) ↔ s.seen j ≤ 1 := by
  subst hs
  have hkept : Kept b _ := hacts.invariant (fun s a hs ha => hs.step a ha) (Kept.start hfile)
  constructor
  · intro hhealthy i hi
    obtain ⟨v, hserved⟩ := hkept.served hhealthy
    exact hserved.reads hi
  · intro image c himage hunreadable hc hwrites j
    exact (hkept.lost himage hunreadable).land_read_iff hc hwrites j

end Machine

/-! ## A record built anew behind its readers -/

section Calls
variable {ι : Type*} [DecidableEq ι] {b : ControlBinding} {s : StoreState ι} {i : ι} {h : ControlHeader} {p : Publish} {image : Bytes} {g : ℕ}

def callActs (b : ControlBinding) (s : StoreState ι) (i : ι) (h : ControlHeader) (p : Publish) : List (StoreAct ι) :=
  .publish i h p :: (List.replicate (publishChecked b h p s.file (s.seen i)).writes.length .land ++ [.returns])

theorem foldl_land {owner : ι} {payload : Bytes} {ws : List Write} {seen : ℕ} {result : Except ControlRefusal ℕ}
    (hcall : s.call = some ⟨owner, payload, ⟨ws, seen, result⟩⟩) :
    (List.replicate ws.length .land).foldl (StoreState.step b) s =
      ⟨ws.foldl (fun f w => w.apply b f) s.file, s.seen, some ⟨owner, payload, ⟨[], seen, result⟩⟩, if ws.isEmpty then s.newest else some payload⟩ := by
  induction ws generalizing s with
  | nil =>
    rw [length_nil, replicate_zero, foldl_nil, ← hcall]
    rfl
  | cons w ws ih =>
    have hland : s.step b .land = { s with file := w.apply b s.file, call := some ⟨owner, payload, ⟨ws, seen, result⟩⟩, newest := some payload } := by
      show s.land b = _
      rw [StoreState.land, hcall]
    rw [length_cons, replicate_succ, foldl_cons, hland, ih rfl]
    simp

theorem run_call (hidle : s.call = none) :
    (callActs b s i h p).foldl (StoreState.step b) s =
      ⟨(publishChecked b h p s.file (s.seen i)).written b s.file, update s.seen i (publishChecked b h p s.file (s.seen i)).lastSeen, none,
        if (publishChecked b h p s.file (s.seen i)).writes.isEmpty then s.newest else some p.payload⟩ := by
  have hpublish : s.step b (.publish i h p) = { s with call := some ⟨i, p.payload, publishChecked b h p s.file (s.seen i)⟩ } := by
    show s.publish b i h p = _
    rw [StoreState.publish, hidle]
  rw [callActs, foldl_cons, hpublish, foldl_append, foldl_land rfl]
  rfl

theorem run_call_returned (hidle : s.call = none) (hc : Reads b s.file c) (hseen : s.seen i ≤ generationOf c)
    (hresult : (publishChecked b h p s.file (s.seen i)).result = .ok g) :
    ∃ s', (callActs b s i h p).foldl (StoreState.step b) s = s' ∧ s'.call = none ∧ Reads b s'.file (some ⟨g, p.payload⟩) ∧
      s'.seen i ≤ g ∧ ∀ j, j ≠ i → s'.seen j = s.seen j := by
  obtain ⟨c', hreads, -, hseen', hfinal⟩ := (publishChecked_sound (h := h) (p := p) hc hseen).final
  obtain rfl := hfinal g hresult
  refine ⟨_, run_call hidle, rfl, hreads, ?_, fun j hj => update_of_ne hj _ _⟩
  show update s.seen i _ i ≤ g
  rw [update_self]
  exact hseen'

def replaceable (b : ControlBinding) (image : Bytes) : Bool :=
  decide (image.length = expectedSize b) &&
    match decodeCompleteImage b image with
    | .error e => damageIsReplaceable e
    | .ok (_, chosen, _) => chosen.isNone

theorem unreadable_of_replaceable (himage : replaceable b image = true) : unreadable b image = true := by
  obtain ⟨hlength, hkind⟩ := Bool.and_eq_true_iff.mp himage
  rw [unreadable, hlength, Bool.true_and]
  split
  · rename_i hdecode
    rw [hdecode] at hkind
    cases hkind
  · rfl

section
variable (h : ControlHeader) (himage : replaceable b image = true) (hreplace : p.replaceDamaged = true) (hn : p.publications ≠ 0)
  (hexpected : p.expectedCurrent = none)
include himage hreplace hn hexpected

theorem publishChecked_replaces (lastSeen : ℕ) :
    publishChecked b h p (some image) lastSeen = bootstrapThen b h p.payload p.publications lastSeen (publishExpected b p) := by
  obtain ⟨hlength, hkind⟩ := Bool.and_eq_true_iff.mp himage
  rw [publishChecked, if_neg hn, if_neg (by simp [hexpected]), if_pos (of_decide_eq_true hlength), publishOver]
  split
  · rename_i e hdecode
    rw [hdecode] at hkind
    rw [hreplace, Bool.true_and, if_pos hkind]
  · rename_i header chosen target hdecode
    rw [hdecode] at hkind
    rw [hreplace, Bool.and_true, if_pos hkind]

theorem run_call_rebuilt (hidle : s.call = none) (hfile : s.file = some image) (hfits : p.payload.length ≤ maxPayload b) (hroom : p.publications ≤ maxU64) :
    ∃ s', (callActs b s i h p).foldl (StoreState.step b) s = s' ∧ s'.call = none ∧ Reads b s'.file (some ⟨p.publications, p.payload⟩) ∧
      s'.newest = some p.payload ∧ ∀ j, j ≠ i → s'.seen j = s.seen j := by
  have heq : publishChecked b h p s.file (s.seen i) = bootstrapThen b h p.payload p.publications (s.seen i) (publishExpected b p) := by
    rw [hfile]
    exact publishChecked_replaces h himage hreplace hn hexpected (s.seen i)
  have hresult := bootstrapThen_returns hn hexpected hfits h (s.seen i) hroom
  have hrun := run_call (b := b) (i := i) (h := h) (p := p) hidle
  rw [heq] at hrun
  rcases bootstrapThen_cases h (s.seen i) (publishExpected b p) hn
    (fun image s hcurrent hs hn' => publishExpected_lands hcurrent hs le_rfl hn') with ⟨e, hrefuse⟩ | ⟨image', o, hafter, hlands⟩
  · rw [hrefuse] at hresult
    cases hresult
  · rw [hafter] at hresult hrun
    obtain ⟨c', hreads, -, -, hfinal⟩ := Control.Lands.final hlands
    obtain rfl := hfinal _ hresult
    exact ⟨_, hrun, rfl, hreads, rfl, fun j hj => update_of_ne hj _ _⟩

end

theorem along_call (hidle : s.call = none) (hseen : ∀ j, j ≠ i → s.seen j ≤ 1) :
    Transition.Along (StoreState.step b) (fun s a => a.Unseen b s) s (callActs b s i h p) := by
  have hlands : ∀ (n : ℕ) (s : StoreState ι), (∀ c ∈ s.call, c.owner = i) → (∀ j, j ≠ i → s.seen j ≤ 1) →
      Transition.Along (StoreState.step b) (fun s a => a.Unseen b s) s (List.replicate n .land) := by
    intro n
    induction n with
    | zero => exact fun _ _ _ => trivial
    | succ n ih =>
      intro s howner hseen
      refine ⟨fun _ _ _ c hc j hj => hseen j (howner c hc ▸ hj), ih (s.land b) ?_ ?_⟩
      · intro c hc
        unfold StoreState.land at hc
        split at hc
        · rename_i hcall
          cases hc
          have howned := howner _ (mem_def.mpr hcall)
          exact howned
        · exact howner c hc
      · intro j hj
        unfold StoreState.land
        split <;> exact hseen j hj
  refine ⟨trivial, Transition.Along.append (hlands _ _ ?_ ?_) ⟨trivial, trivial⟩⟩
  · intro c hc
    have hpublish : (s.step b (.publish i h p)).call = some ⟨i, p.payload, publishChecked b h p s.file (s.seen i)⟩ := by
      show (s.publish b i h p).call = _
      rw [StoreState.publish, hidle]
    rw [hpublish] at hc
    cases hc
    rfl
  · show ∀ j, j ≠ i → (s.publish b i h p).seen j ≤ 1
    rw [StoreState.publish, hidle]
    exact hseen

end Calls

def commitStateBinding : ControlBinding := smallBinding .commitState

def publishTwice (payload : Bytes) (replaceDamaged : Bool) : Publish := ⟨payload, none, 2, replaceDamaged⟩

def zeroed : Bytes := List.replicate 1536 0

theorem zeroed_replaceable : replaceable commitStateBinding zeroed = true := by decide +kernel

theorem Reads.whole_of_pos {b : ControlBinding} {x : SlotRecord} (hc : Reads b file (some x)) (hpos : 0 < x.generation) :
    ∃ image h k, file = some image ∧ Whole b image h k x := by
  cases hc with
  | legacy hlength => exact absurd hpos (Nat.lt_irrefl 0)
  | whole hw => exact ⟨_, _, _, rfl, hw⟩

theorem damage_idle {s : StoreState Bool} (hidle : s.call = none) :
    s.step commitStateBinding (.damage zeroed) = { s with file := some zeroed } := by
  show StoreState.damage commitStateBinding s zeroed = _
  rw [StoreState.damage, unreadable_of_replaceable zeroed_replaceable, hidle]
  rfl

theorem Reads.healthy {b : ControlBinding} (hc : Reads b file c) : ∀ image ∈ file, unreadable b image = false := by
  intro image himage
  obtain ⟨v, hv, -⟩ := hc.shows
  rw [mem_def.mp himage] at hv
  exact unreadable_of_shows hv

theorem run_first : ∃ s, (callActs commitStateBinding (.start Bool none) false leaseHeader (publishOnce [1])).foldl
      (StoreState.step commitStateBinding) (.start Bool none) = s ∧ s.call = none ∧ Reads commitStateBinding s.file (some ⟨1, [1]⟩) ∧
    s.seen false ≤ 1 ∧ ∀ j, j ≠ false → s.seen j = 0 :=
  run_call_returned rfl .absent le_rfl (toOption_some_iff.mp (by decide +kernel))

/-- The file is lost, and the record built anew. -/
def rebuiltActs (s : StoreState Bool) : List (StoreAct Bool) :=
  .damage zeroed :: callActs commitStateBinding { s with file := some zeroed } false leaseHeader (publishTwice [3] true)

theorem run_rebuilt {s : StoreState Bool} (hidle : s.call = none) :
    ∃ s', (rebuiltActs s).foldl (StoreState.step commitStateBinding) s = s' ∧ s'.call = none ∧
      Reads commitStateBinding s'.file (some ⟨2, [3]⟩) ∧ s'.newest = some [3] ∧ ∀ j, j ≠ false → s'.seen j = s.seen j := by
  rw [rebuiltActs, foldl_cons, damage_idle hidle]
  exact run_call_rebuilt leaseHeader zeroed_replaceable rfl (by decide) rfl hidle rfl (by decide) (by decide)

/-- A record published once, lost, and built anew while the other instance has seen nothing of it. -/
theorem rebuilt_record_read_once : ∃ (acts : List (StoreAct Bool)) (s : StoreState Bool),
    Transition.Along (StoreState.step commitStateBinding) (fun s a => a.Unseen commitStateBinding s) (.start Bool none) acts ∧
    acts.foldl (StoreState.step commitStateBinding) (.start Bool none) = s ∧ s.newest = some [3] ∧
    ∃ r, Control.read commitStateBinding s.file (s.seen true) = .ok r ∧ r.map (·.payload) = s.newest := by
  obtain ⟨s₁, hrun₁, hidle₁, -, -, hunseen₁⟩ := run_first
  obtain ⟨s₂, hrun₂, hidle₂, hreads₂, hnewest₂, -⟩ := run_rebuilt hidle₁
  obtain ⟨acts, hacts⟩ : ∃ acts, acts =
    callActs commitStateBinding (.start Bool none) false leaseHeader (publishOnce [1]) ++ rebuiltActs s₁ := ⟨_, rfl⟩
  have hrun : acts.foldl (StoreState.step commitStateBinding) (.start Bool none) = s₂ := by
    rw [hacts, foldl_append, hrun₁, hrun₂]
  have halong : Transition.Along (StoreState.step commitStateBinding) (fun s a => a.Unseen commitStateBinding s) (.start Bool none) acts := by
    rw [hacts]
    apply (along_call rfl fun _ _ => Nat.zero_le 1).append
    rw [hrun₁]
    refine ⟨trivial, ?_⟩
    rw [damage_idle hidle₁]
    exact along_call hidle₁ fun j hj => (hunseen₁ j hj).le.trans (Nat.zero_le 1)
  refine ⟨acts, s₂, halong, hrun, hnewest₂, ?_⟩
  apply (rebuilt_record_read commitStateBinding none (fun _ himage => nomatch himage) acts halong s₂ hrun).1 hreads₂.healthy true
  intro c hc
  rw [hidle₂] at hc
  exact nomatch hc

/-- An instance that has seen the third number refuses a record that was built anew and stands at the
second. -/
theorem rebuilt_record_refused : ∃ (acts : List (StoreAct Bool)) (s : StoreState Bool),
    acts.foldl (StoreState.step commitStateBinding) (.start Bool none) = s ∧ s.call = none ∧
    (∀ image ∈ s.file, unreadable commitStateBinding image = false) ∧ s.newest = some [3] ∧ s.seen true = 3 ∧
    Control.read commitStateBinding s.file (s.seen true) = .error (.corrupt .generation 2) := by
  -- a new record, raised to the next version
  obtain ⟨s₁, hrun₁, hidle₁, hreads₁, hseen₁, hunseen₁⟩ := run_first
  obtain ⟨image₁, h₁, k₁, hfile₁, hw₁⟩ := hreads₁.whole_of_pos Nat.one_pos
  obtain ⟨s₂, hrun₂, hidle₂, hreads₂, -, hothers₂⟩ := run_call_returned (i := false) (h := leaseHeader) (p := publishTwice [2] false)
    hidle₁ hreads₁ hseen₁ (g := 3) (by rw [hfile₁]; exact publishChecked_returns (by decide) rfl (by decide) hw₁ (by decide))
  -- the other instance reads the third number
  obtain ⟨image₂, h₂, k₂, hfile₂, hw₂⟩ := hreads₂.whole_of_pos (by decide)
  obtain ⟨payloads, hread₂⟩ := hw₂.read (Nat.zero_le 3)
  obtain ⟨s₃, hrun₃⟩ : ∃ s₃, s₂.step commitStateBinding (.read true) = s₃ := ⟨_, rfl⟩
  have hs₃ : s₃ = { s₂ with seen := update s₂.seen true 3 } := by
    rw [← hrun₃]
    show StoreState.read commitStateBinding s₂ true = _
    rw [StoreState.read, hothers₂ true (by decide), hunseen₁ true (by decide), hfile₂, hread₂]
    rfl
  -- the record is damaged, and built anew
  obtain ⟨s₄, hrun₄, hidle₄, hreads₄, hnewest₄, hothers₄⟩ := run_rebuilt (s := s₃) (by rw [hs₃, hidle₂])
  have hthree : s₄.seen true = 3 := by
    rw [hothers₄ true (by decide), hs₃]
    rfl
  obtain ⟨image₄, h₄, k₄, hfile₄, hw₄⟩ := hreads₄.whole_of_pos (by decide)
  refine ⟨callActs commitStateBinding (.start Bool none) false leaseHeader (publishOnce [1]) ++
    (callActs commitStateBinding s₁ false leaseHeader (publishTwice [2] false) ++ .read true :: rebuiltActs s₃), s₄, ?_, hidle₄,
    hreads₄.healthy, hnewest₄, hthree, ?_⟩
  · rw [foldl_append, hrun₁, foldl_append, hrun₂, foldl_cons, hrun₃, hrun₄]
  · rw [hthree, hfile₄]
    exact hw₄.read_regressed (by decide)

end Grafx.Control
