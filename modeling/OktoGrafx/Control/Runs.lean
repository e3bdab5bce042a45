import OktoGrafx.Control.Store
import OktoGrafx.Lib.Transition

/-! Runs of publications to a control record, each of which may be cut short at any of its writes. -/

namespace Grafx.Control

open List Checked TwoSlot

variable {b : ControlBinding} {image raw : Bytes} {h : ControlHeader} {k : Slot} {x : SlotRecord} {file file' : Option Bytes}
  {y : Option SlotRecord} {p : Publish} {lastSeen n : ℕ}

/-! ## A file with a current record -/

def Older (_ : Slot) (y x : SlotRecord) : Prop := y.generation < x.generation

structure Whole (b : ControlBinding) (image : Bytes) (h : ControlHeader) (k : Slot) (x : SlotRecord) : Prop where
  length : image.length = expectedSize b
  header : decodeHeader b (Paged.page b.pageSize image controlHeaderPage) = .ok h
  slots : ∃ slots, (∀ j, decodeSlot b h (Paged.page b.pageSize image (controlSlotPage j)) = .ok (slots j)) ∧ Current Older (populated slots) k x

theorem selectSlot_current {slots : Slots SlotRecord} (hcurrent : Current Older (populated slots) k x) : selectSlot slots = .ok (some x, k.other) := by
  cases k with
  | a =>
    rw [selectSlot, hcurrent.here]
    cases hother : populated slots .b with
    | none => rfl
    | some y =>
      have hlt : y.generation < x.generation := hcurrent.behind y hother
      simp only [if_neg hlt.ne', if_pos hlt]
      rfl
  | b =>
    rw [selectSlot, hcurrent.here]
    cases hother : populated slots .a with
    | none => rfl
    | some y =>
      have hlt : y.generation < x.generation := hcurrent.behind y hother
      simp only [if_neg hlt.ne, if_neg (not_lt.mpr hlt.le)]
      rfl

section
variable (hw : Whole b image h k x)
include hw

theorem Whole.decode : ∃ slots, decodeSlots b image = .ok (h, slots) ∧ Current Older (populated slots) k x := by
  obtain ⟨slots, hslots, hcurrent⟩ := hw.slots
  refine ⟨slots, ?_, hcurrent⟩
  rw [decodeSlots, ensure_pos hw.length, ok_bind, hw.header, ok_bind, hslots .a, ok_bind, hslots .b, ok_bind]
  refine congrArg (fun s => Except.ok (h, s)) (funext fun j => ?_)
  cases j <;> rfl

theorem Whole.decodeComplete : decodeCompleteImage b image = .ok (h, some x, k.other) := by
  obtain ⟨slots, hslots, hcurrent⟩ := hw.decode
  rw [decodeCompleteImage, hslots, ok_bind]
  show (selectSlot slots >>= _) = _
  rw [selectSlot_current hcurrent]
  rfl

theorem Whole.readOnce (lastSeen : ℕ) :
    ∃ payloads, readOnce b lastSeen image = ensure (lastSeen ≤ x.generation) (.corrupt .generation x.generation) >>= fun _ =>
      .ok ⟨x.payload, 2, x.generation, payloads⟩ := by
  obtain ⟨slots, hslots, hcurrent⟩ := hw.decode
  refine ⟨validPayloads slots, ?_⟩
  rw [Control.readOnce, hslots, ok_bind]
  show (selectSlot slots >>= _) = _
  rw [selectSlot_current hcurrent, ok_bind]
  rfl

theorem Whole.read (hseen : lastSeen ≤ x.generation) :
    ∃ payloads, read b (some image) lastSeen = .ok (some ⟨x.payload, 2, x.generation, payloads⟩) := by
  obtain ⟨payloads, honce⟩ := hw.readOnce lastSeen
  rw [ensure_pos hseen, ok_bind] at honce
  refine ⟨payloads, ?_⟩
  simp only [Control.read, if_pos hw.length, controlReadAttempts, readAttempts, honce]
  rfl

theorem Whole.read_regressed (hseen : x.generation < lastSeen) :
    Control.read b (some image) lastSeen = .error (.corrupt .generation x.generation) := by
  obtain ⟨payloads, honce⟩ := hw.readOnce lastSeen
  have honce : Control.readOnce b lastSeen image = .error (.corrupt .generation x.generation) := by
    rw [honce, ensure, if_neg (not_le.mpr hseen)]
    rfl
  simp only [Control.read, if_pos hw.length, controlReadAttempts, readAttempts, honce]
  rfl

end

theorem controlSlotPage_injective {j k : Slot} (hjk : j ≠ k) : controlSlotPage j ≠ controlSlotPage k := by
  cases j <;> cases k <;> first | exact absurd rfl hjk | decide

theorem slotPage_le (hlength : image.length = expectedSize b) (k : Slot) : (controlSlotPage k + 1) * b.pageSize ≤ image.length := by
  rw [hlength]
  apply Nat.mul_le_mul_right
  cases k <;> decide

theorem slots_set {slots : Slots SlotRecord} (hlength : image.length = expectedSize b) (hraw : raw.length = b.pageSize)
    (hslots : ∀ j, decodeSlot b h (Paged.page b.pageSize image (controlSlotPage j)) = .ok (slots j)) (hy : decodeSlot b h raw = .ok y) (j : Slot) :
    decodeSlot b h (Paged.page b.pageSize (Paged.setPage b.pageSize image (controlSlotPage k) raw) (controlSlotPage j)) = .ok (slots.set k y j) := by
  by_cases hj : j = k
  · subst hj
    rw [Paged.page_setPage_self (slotPage_le hlength j) hraw, Slots.set_self, hy]
  · rw [Paged.page_setPage_ne (slotPage_le hlength k) hraw (controlSlotPage_injective hj), Slots.set_ne _ hj, hslots j]

theorem populated_set (slots : Slots SlotRecord) (k : Slot) (y : Option SlotRecord) :
    populated (slots.set k y) = (populated slots).set k (y.filter fun x => decide (0 < x.generation)) := by
  funext j
  by_cases hj : j = k
  · subst hj
    rw [populated, Slots.set_self, Slots.set_self]
  · rw [populated, Slots.set_ne _ hj, Slots.set_ne _ hj, populated]

structure Slotted (b : ControlBinding) (image : Bytes) (h : ControlHeader) (s : Slots SlotRecord) : Prop where
  length : image.length = expectedSize b
  header : decodeHeader b (Paged.page b.pageSize image controlHeaderPage) = .ok h
  slots : ∃ slots, (∀ j, decodeSlot b h (Paged.page b.pageSize image (controlSlotPage j)) = .ok (slots j)) ∧ populated slots = s

variable {s : Slots SlotRecord}

theorem Slotted.whole (hs : Slotted b image h s) (hcurrent : Current Older s k x) : Whole b image h k x := by
  obtain ⟨slots, hslots, rfl⟩ := hs.slots
  exact ⟨hs.length, hs.header, slots, hslots, hcurrent⟩

section
variable (hs : Slotted b image h s)
include hs

theorem Slotted.set (hraw : raw.length = b.pageSize) (j : Slot) (hy : decodeSlot b h raw = .ok y) :
    Slotted b (Paged.setPage b.pageSize image (controlSlotPage j) raw) h (s.set j (y.filter fun x => decide (0 < x.generation))) := by
  obtain ⟨slots, hslots, rfl⟩ := hs.slots
  refine ⟨?_, ?_, slots.set j y, slots_set hs.length hraw hslots hy, populated_set slots j y⟩
  · rw [Paged.length_setPage (slotPage_le hs.length j) hraw, hs.length]
  · rw [Paged.page_setPage_ne (slotPage_le hs.length j) hraw (by cases j <;> decide), hs.header]

theorem Slotted.torn (hraw : raw.length = b.pageSize) (htorn : ¬ Sealed raw) (j : Slot) :
    Slotted b (Paged.setPage b.pageSize image (controlSlotPage j) raw) h (s.set j none) :=
  hs.set hraw j (decodeSlot_torn h htorn)

theorem Slotted.landed (hpos : x.generation ≠ 0) (hraw : encodeSlot b h x = .ok raw) (j : Slot) :
    Slotted b (Paged.setPage b.pageSize image (controlSlotPage j) raw) h (s.set j (some x)) := by
  obtain ⟨hlength, hdecode⟩ := decodeSlot_encodeSlot (fun hzero => absurd hzero hpos) hraw
  have hfilter : (some x).filter (fun x => decide (0 < x.generation)) = some x := by
    rw [Option.filter_some, decide_eq_true (Nat.pos_of_ne_zero hpos), if_pos rfl]
  rw [← hfilter]
  exact hs.set hlength j hdecode

end

theorem bootstrapImage_slotted {payload : Bytes} (himage : bootstrapImage b h payload = .ok image) :
    Slotted b image h (Slots.set (fun _ => none) .a (some ⟨1, payload⟩)) := by
  obtain ⟨header, hheader, himage⟩ := bind_ok_iff.mp himage
  obtain ⟨first, hfirst, himage⟩ := bind_ok_iff.mp himage
  obtain ⟨second, hsecond, himage⟩ := bind_ok_iff.mp himage
  obtain rfl := pure_ok_iff.mp himage
  obtain ⟨hheaderLength, hheaderDecode⟩ := decodeHeader_headerPage hheader
  obtain ⟨hfirstLength, hfirstDecode⟩ := decodeSlot_encodeSlot (fun hzero => absurd hzero Nat.one_ne_zero) hfirst
  obtain ⟨hsecondLength, hsecondDecode⟩ := decodeSlot_encodeSlot (fun _ => rfl) hsecond
  have hlength : (header ++ (first ++ second)).length = expectedSize b := by
    rw [length_append, length_append, hheaderLength, hfirstLength, hsecondLength, expectedSize, controlFilePages]
    omega
  have hpage₀ : Paged.page b.pageSize (header ++ (first ++ second)) controlHeaderPage = header := by
    rw [Paged.page, controlHeaderPage, zero_mul, drop_zero, take_left' hheaderLength]
  have hpage₁ : Paged.page b.pageSize (header ++ (first ++ second)) (controlSlotPage .a) = first := by
    rw [Paged.page, controlSlotPage, one_mul, drop_left' hheaderLength, take_left' hfirstLength]
  have hpage₂ : Paged.page b.pageSize (header ++ (first ++ second)) (controlSlotPage .b) = second := by
    rw [Paged.page, controlSlotPage, ← append_assoc, drop_left', take_of_length_le hsecondLength.le]
    rw [length_append, hheaderLength, hfirstLength, Nat.two_mul]
  refine ⟨hlength, by rw [hpage₀, hheaderDecode], ?_⟩
  refine ⟨fun j => if j = .a then some ⟨1, payload⟩ else some ⟨0, []⟩, fun j => ?_, ?_⟩
  · cases j with
    | a =>
      rw [hpage₁, hfirstDecode]
      rfl
    | b =>
      rw [hpage₂, hsecondDecode]
      rfl
  · funext j
    cases j <;> rfl

/-! ## What a file reads as -/

def generationOf (c : Option SlotRecord) : ℕ := (c.map (·.generation)).getD 0

inductive Reads (b : ControlBinding) : Option Bytes → Option SlotRecord → Prop where
  | absent : Reads b none none
  | legacy {image : Bytes} (hlength : image.length ≠ expectedSize b) : Reads b (some image) (some ⟨0, image⟩)
  | whole {image : Bytes} {h : ControlHeader} {k : Slot} {x : SlotRecord} (hw : Whole b image h k x) : Reads b (some image) (some x)

def ControlRecordRead.record (r : ControlRecordRead) : SlotRecord := ⟨r.generation, r.payload⟩

theorem Reads.read {c : Option SlotRecord} (hc : Reads b file c) (hseen : lastSeen ≤ generationOf c) :
    ∃ r, read b file lastSeen = .ok r ∧ r.map (·.record) = c := by
  cases hc with
  | absent => exact ⟨none, rfl, rfl⟩
  | legacy hlength => exact ⟨_, if_neg hlength, rfl⟩
  | whole hw =>
    obtain ⟨payloads, hread⟩ := hw.read hseen
    exact ⟨_, hread, rfl⟩

def Moves (payload : Bytes) (c c' : Option SlotRecord) : Prop :=
  c' = c ∨ ∃ x, c' = some x ∧ x.payload = payload ∧ generationOf c < x.generation

variable {payload : Bytes} {c c' c'' : Option SlotRecord}

theorem Moves.le (hm : Moves payload c c') : generationOf c ≤ generationOf c' := by
  rcases hm with rfl | ⟨x, rfl, -, hlt⟩
  · exact le_rfl
  · exact hlt.le

theorem Moves.trans (hm : Moves payload c c') (hm' : Moves payload c' c'') : Moves payload c c'' := by
  rcases hm' with rfl | ⟨x, rfl, hpayload, hlt⟩
  · exact hm
  · exact .inr ⟨x, rfl, hpayload, hm.le.trans_lt hlt⟩

/-! ## Calls -/

/-- What a write cut short leaves: the old page, bytes that fail their checksum, or all of it. -/
inductive Cut (b : ControlBinding) : List Write → Option Bytes → Option Bytes → Prop where
  | now (ws : List Write) (file : Option Bytes) : Cut b ws file file
  | torn {k : Slot} {raw raw' image : Bytes} {ws : List Write} (hlength : raw'.length = b.pageSize) (htorn : ¬ Sealed raw') :
      Cut b (.page k raw :: ws) (some image) (some (Paged.setPage b.pageSize image (controlSlotPage k) raw'))
  | later {w : Write} {ws : List Write} {file file' : Option Bytes} (hcut : Cut b ws (w.apply b file) file') : Cut b (w :: ws) file file'

def Outcome.written (b : ControlBinding) (o : Outcome) (before : Option Bytes) : Option Bytes := o.writes.foldl (fun f w => w.apply b f) before

structure Outcome.Sound (b : ControlBinding) (payload : Bytes) (file : Option Bytes) (c : Option SlotRecord) (o : Outcome) : Prop where
  cut : ∀ file', Cut b o.writes file file' → ∃ c', Reads b file' c' ∧ Moves payload c c'
  final : ∃ c', Reads b (o.written b file) c' ∧ Moves payload c c' ∧ o.lastSeen ≤ generationOf c' ∧ ∀ g, o.result = .ok g → c' = some ⟨g, payload⟩

/-! ## Views -/

/-- What readers see: no file, a payload of the old format, or two slots, one of them current. -/
inductive View where
  | absent
  | legacy (image : Bytes)
  | slots (s : Slots SlotRecord) (k : Slot) (x : SlotRecord)

def View.current : View → Option SlotRecord
  | absent => none
  | legacy image => some ⟨0, image⟩
  | slots _ _ x => some x

def View.generation (v : View) : ℕ := generationOf v.current

def View.publish (x : SlotRecord) : View → View
  | slots s k _ => slots (s.set k.other (some x)) k.other x
  | _ => slots (Slots.set (fun _ => none) .a (some x)) .a x

def View.next (payload : Bytes) (v : View) : View := v.publish ⟨v.generation + 1, payload⟩

def View.tear : View → View
  | slots s k x => slots (s.set k.other none) k x
  | v => v

inductive Shows (b : ControlBinding) : Option Bytes → View → Prop where
  | absent : Shows b none .absent
  | legacy {image : Bytes} (hlength : image.length ≠ expectedSize b) : Shows b (some image) (.legacy image)
  | slots {image : Bytes} {h : ControlHeader} {s : Slots SlotRecord} {k : Slot} {x : SlotRecord} (hcurrent : Current Older s k x)
      (hs : Slotted b image h s) : Shows b (some image) (.slots s k x)

variable {v : View}

@[simp] theorem View.publish_current (x : SlotRecord) (v : View) : (v.publish x).current = some x := by cases v <;> rfl

@[simp] theorem View.tear_current (v : View) : v.tear.current = v.current := by cases v <;> rfl

theorem View.tear_generation (v : View) : v.tear.generation = v.generation := by rw [generation, tear_current, generation]

@[simp] theorem View.next_current (payload : Bytes) (v : View) : (v.next payload).current = some ⟨v.generation + 1, payload⟩ := publish_current _ v

@[simp] theorem View.next_generation (payload : Bytes) (v : View) : (v.next payload).generation = v.generation + 1 := by
  rw [generation, next_current]
  rfl

theorem View.tear_publish (x : SlotRecord) (v : View) : v.tear.publish x = v.publish x := by
  cases v with
  | slots s k y => rw [tear, publish, publish, Slots.set_set]
  | _ => rfl

theorem View.tear_next (payload : Bytes) (v : View) : v.tear.next payload = v.next payload := by
  rw [next, next, tear_publish, tear_generation]

@[simp] theorem View.tear_tear (v : View) : v.tear.tear = v.tear := by
  cases v with
  | slots s k y => rw [tear, tear, Slots.set_set]
  | _ => rfl

theorem Shows.reads (hv : Shows b file v) : Reads b file v.current := by
  cases hv with
  | absent => exact .absent
  | legacy hlength => exact .legacy hlength
  | slots hcurrent hs => exact .whole (hs.whole hcurrent)

/-- Each write lands the payload under the next number, or costs at most its own slot. -/
inductive Lands (b : ControlBinding) (payload : Bytes) (seen : ℕ) (result : Except ControlRefusal ℕ) : List Write → Option Bytes → View → Prop where
  | done {file : Option Bytes} {v : View} (hv : Shows b file v) (hseen : seen ≤ v.generation)
      (hresult : ∀ g, result = .ok g → v.current = some ⟨g, payload⟩) : Lands b payload seen result [] file v
  | write {w : Write} {ws : List Write} {file : Option Bytes} {v : View} (hv : Shows b file v)
      (hpage : ∀ k raw image, w = .page k raw → file = some image → image.length = expectedSize b)
      (htorn : ∀ k raw raw' image, w = .page k raw → file = some image → raw'.length = b.pageSize → ¬ Sealed raw' →
        Shows b (some (Paged.setPage b.pageSize image (controlSlotPage k) raw')) v.tear)
      (hrest : Lands b payload seen result ws (w.apply b file) (v.next payload)) : Lands b payload seen result (w :: ws) file v

def Outcome.Lands (b : ControlBinding) (payload : Bytes) (o : Outcome) (file : Option Bytes) (v : View) : Prop :=
  Control.Lands b payload o.lastSeen o.result o.writes file v

theorem Outcome.Lands.refuse (hv : Shows b file v) (hseen : lastSeen ≤ v.generation) (e : ControlRefusal) :
    (Outcome.refuse lastSeen e).Lands b payload file v :=
  .done hv hseen fun _ hresult => nomatch hresult

theorem View.next_moves (payload : Bytes) (v : View) : Moves payload v.current (v.next payload).current :=
  .inr ⟨⟨v.generation + 1, payload⟩, next_current payload v, rfl, Nat.lt_succ_self v.generation⟩

section Lands
variable {seen : ℕ} {result : Except ControlRefusal ℕ} {ws : List Write}

variable (hl : Lands b payload seen result ws file v)
include hl

theorem Lands.shows : Shows b file v := by
  cases hl with
  | done hv => exact hv
  | write hv => exact hv

omit hl in
theorem Lands.torn {raw' : Bytes} (hl : Lands b payload seen result (.page k raw :: ws) (some image) v) (hlength : raw'.length = b.pageSize)
    (hraw : ¬ Sealed raw') :
    Lands b payload seen result (.page k raw :: ws) (some (Paged.setPage b.pageSize image (controlSlotPage k) raw')) v.tear := by
  cases hl with
  | write hv hpage htorn hrest =>
    have hfull := hpage _ _ _ rfl rfl
    have hover : ∀ q, Paged.setPage b.pageSize (Paged.setPage b.pageSize image (controlSlotPage k) raw') (controlSlotPage k) q =
        Paged.setPage b.pageSize image (controlSlotPage k) q := Paged.setPage_setPage (slotPage_le hfull k) hlength
    refine .write (htorn _ _ _ _ rfl rfl hlength hraw) ?_ ?_ ?_
    · intro _ _ _ _ himage
      rw [← Option.some.inj himage, Paged.length_setPage (slotPage_le hfull k) hlength, hfull]
    · intro _ _ _ _ hw himage hlength' hraw'
      obtain ⟨rfl, -⟩ := Write.page.inj hw
      rw [← Option.some.inj himage, hover, View.tear_tear]
      exact htorn _ _ _ _ rfl rfl hlength' hraw'
    · show Lands b payload seen result ws (some (Paged.setPage _ _ _ _)) _
      rw [hover, View.tear_next]
      exact hrest

theorem Lands.cut (hcut : Cut b ws file file') : ∃ c', Reads b file' c' ∧ Moves payload v.current c' := by
  induction hl with
  | done hv =>
    cases hcut
    exact ⟨_, hv.reads, .inl rfl⟩
  | @write w ws file v hv _ htorn hrest ih =>
    cases hcut with
    | now => exact ⟨_, hv.reads, .inl rfl⟩
    | torn hlength hraw =>
      have hreads := (htorn _ _ _ _ rfl rfl hlength hraw).reads
      rw [View.tear_current] at hreads
      exact ⟨_, hreads, .inl rfl⟩
    | later hcut =>
      obtain ⟨c', hreads, hmoves⟩ := ih hcut
      have hfirst := v.next_moves payload
      exact ⟨c', hreads, hfirst.trans hmoves⟩

theorem Lands.final : ∃ c', Reads b (ws.foldl (fun f w => w.apply b f) file) c' ∧ Moves payload v.current c' ∧ seen ≤ generationOf c' ∧
      ∀ g, result = .ok g → c' = some ⟨g, payload⟩ := by
  induction hl with
  | done hv hseen hresult => exact ⟨_, hv.reads, .inl rfl, hseen, hresult⟩
  | @write w ws file v hv _ htorn hrest ih =>
    obtain ⟨c', hreads, hmoves, hseen, hresult⟩ := ih
    have hfirst := v.next_moves payload
    exact ⟨c', hreads, hfirst.trans hmoves, hseen, hresult⟩

end Lands

theorem Outcome.Lands.sound {o : Outcome} (hl : o.Lands b payload file v) : o.Sound b payload file v.current :=
  ⟨fun _ hcut => Control.Lands.cut hl hcut, Control.Lands.final hl⟩

/-! ## Every call lands -/

section
variable (hcurrent : Current Older s k x)
include hcurrent

variable (hs : Slotted b image h s)
include hs

variable (hseen : lastSeen ≤ x.generation)
include hseen

theorem advance_lands (hlast : n = 0 → x.payload = payload) :
    (advance b h payload n x.generation k.other lastSeen).Lands b payload (some image) (.slots s k x) := by
  induction n generalizing image s k x lastSeen with
  | zero =>
    refine .done (.slots hcurrent hs) hseen fun g hg => ?_
    show some x = _
    rw [← Except.ok.inj hg, ← hlast rfl]
  | succ n ih =>
    have hshows : Shows b (some image) (.slots s k x) := .slots hcurrent hs
    rw [advance]
    cases hraw : encodeSlot b h ⟨x.generation + 1, payload⟩ with
    | error e => exact .refuse hshows hseen e
    | ok raw =>
      have hlt : Older k.other x ⟨x.generation + 1, payload⟩ := Nat.lt_succ_self x.generation
      have hpage : ∀ k' raw' image', Write.page k.other raw = .page k' raw' → some image = some image' → image'.length = expectedSize b :=
        fun _ _ _ _ himage => Option.some.inj himage ▸ hs.length
      refine .write hshows hpage ?_ (ih (hcurrent.landed hlt) (hs.landed (Nat.succ_ne_zero _) hraw k.other) le_rfl fun _ => rfl)
      intro k' _ raw' image' heq himage hlength htorn
      obtain ⟨rfl, -⟩ := Write.page.inj heq
      cases himage
      exact .slots hcurrent.torn (hs.torn hlength htorn k.other)

theorem publishSlots_lands (hn : n ≠ 0) : (publishSlots b payload n lastSeen h (some x) k.other).Lands b payload (some image) (.slots s k x) := by
  rw [publishSlots]
  split
  · exact .refuse (.slots hcurrent hs) hseen _
  · exact advance_lands hcurrent hs hseen fun hzero => absurd hzero hn

theorem publishExpected_lands (hn : n ≠ 0) : (publishExpected b p n lastSeen h (some x) k.other).Lands b p.payload (some image) (.slots s k x) := by
  rw [publishExpected]
  split
  · exact publishSlots_lands hcurrent hs hseen hn
  · exact .refuse (.slots hcurrent hs) hseen _

end

def View.first (payload : Bytes) : View := View.publish ⟨1, payload⟩ .absent

theorem current_first (payload : Bytes) : Current Older (Slots.set (fun _ => none) .a (some ⟨1, payload⟩)) .a ⟨1, payload⟩ :=
  ⟨rfl, nofun⟩

theorem bootstrapThen_cases (h : ControlHeader) (lastSeen : ℕ) (next : ℕ → ℕ → ControlHeader → Option SlotRecord → Slot → Outcome) (hn : n ≠ 0)
    (hnext : ∀ image s, Current Older s .a ⟨1, payload⟩ → Slotted b image h s → n - 1 ≠ 0 →
      (next (n - 1) 1 h (some ⟨1, payload⟩) .b).Lands b payload (some image) (.slots s .a ⟨1, payload⟩)) :
    (∃ e, bootstrapThen b h payload n lastSeen next = .refuse lastSeen e) ∨
      ∃ image o, bootstrapThen b h payload n lastSeen next = .after (.replace image) o ∧ o.Lands b payload (some image) (View.first payload) := by
  unfold bootstrapThen
  cases himage : bootstrapImage b h payload with
  | error e => exact .inl ⟨e, rfl⟩
  | ok image =>
    have hs := bootstrapImage_slotted himage
    have hcurrent := current_first payload
    refine .inr ⟨image, _, rfl, ?_⟩
    by_cases hone : n = 1
    · rw [if_pos hone]
      refine .done (.slots hcurrent hs) le_rfl fun g hg => ?_
      rw [← Except.ok.inj hg]
      rfl
    · rw [if_neg hone, (hs.whole hcurrent).decodeComplete]
      exact hnext image _ hcurrent hs (by omega)

theorem publishNew_lands (hv : Shows b file v) (hseen : lastSeen ≤ v.generation) (hzero : v.generation = 0)
    (hfirst : ∀ x, v.publish x = View.publish x .absent) (hn : p.publications ≠ 0) (observed : Option Bytes) :
    (publishNew b h p lastSeen observed).Lands b p.payload file v := by
  rw [publishNew]
  split
  · rcases bootstrapThen_cases h lastSeen (publishSlots b p.payload) hn
      (fun image s hcurrent hs hn' => publishSlots_lands hcurrent hs le_rfl hn') with ⟨e, heq⟩ | ⟨image, o, heq, hl⟩
    · rw [heq]
      exact .refuse hv hseen e
    · rw [heq]
      refine .write hv (fun _ _ _ hw => nomatch hw) nofun ?_
      rw [View.next, hfirst, hzero]
      exact hl
  · exact .refuse hv hseen _

theorem publishChecked_lands (hv : Shows b file v) (hseen : lastSeen ≤ v.generation) :
    (publishChecked b h p file lastSeen).Lands b p.payload file v := by
  unfold publishChecked
  by_cases hn : p.publications = 0
  · rw [if_pos hn]
    exact .refuse hv hseen _
  rw [if_neg hn]
  split
  · exact .refuse hv hseen _
  cases hv with
  | absent => exact publishNew_lands .absent hseen rfl (fun _ => rfl) hn none
  | legacy hlength =>
    dsimp only
    rw [if_neg hlength]
    exact publishNew_lands (.legacy hlength) hseen rfl (fun _ => rfl) hn _
  | slots hcurrent hs =>
    dsimp only
    rw [if_pos hs.length, publishOver, (hs.whole hcurrent).decodeComplete]
    exact publishExpected_lands hcurrent hs hseen hn

theorem Reads.shows (hc : Reads b file c) : ∃ v, Shows b file v ∧ v.current = c := by
  cases hc with
  | absent => exact ⟨.absent, .absent, rfl⟩
  | legacy hlength => exact ⟨.legacy _, .legacy hlength, rfl⟩
  | @whole image h k x hw =>
    obtain ⟨slots, hslots, hcurrent⟩ := hw.slots
    exact ⟨.slots (populated slots) k x, .slots hcurrent ⟨hw.length, hw.header, slots, hslots, rfl⟩, rfl⟩

theorem publishChecked_sound (hc : Reads b file c) (hseen : lastSeen ≤ generationOf c) :
    (publishChecked b h p file lastSeen).Sound b p.payload file c := by
  obtain ⟨v, hv, rfl⟩ := hc.shows
  exact (publishChecked_lands hv hseen).sound

theorem advance_ok {generation : ℕ} (hfits : payload.length ≤ maxPayload b) (hroom : generation + n ≤ maxU64) (target : Slot) :
    (advance b h payload n generation target lastSeen).result = .ok (generation + n) := by
  induction n generalizing generation target lastSeen with
  | zero => rfl
  | succ n ih =>
    obtain ⟨raw, hraw⟩ := encodeSlot_ok (b := b) (h := h) (x := ⟨generation + 1, payload⟩) hfits (show generation + 1 ≤ maxU64 by omega)
    rw [advance, hraw]
    show (advance b h payload n (generation + 1) target.other (generation + 1)).result = _
    rw [ih (by omega), add_assoc, add_comm 1 n]

theorem bootstrapImage_ok (h : ControlHeader) (hfits : payload.length ≤ maxPayload b) : ∃ image, bootstrapImage b h payload = .ok image := by
  obtain ⟨header, hheader⟩ := headerPage_ok (b := b) h
  obtain ⟨first, hfirst⟩ := encodeSlot_ok (b := b) (h := h) (x := ⟨1, payload⟩) hfits (by show 1 ≤ maxU64; decide)
  obtain ⟨second, hsecond⟩ := encodeSlot_ok (b := b) (h := h) (x := ⟨0, []⟩) (Nat.zero_le _) (Nat.zero_le _)
  refine ⟨header ++ (first ++ second), ?_⟩
  rw [bootstrapImage, hheader, ok_bind, hfirst, ok_bind, hsecond, ok_bind, pure_ok_iff]

section
variable (hn : p.publications ≠ 0) (hexpected : p.expectedCurrent = none) (hfits : p.payload.length ≤ maxPayload b)
include hn hexpected hfits

theorem publishChecked_returns {h' : ControlHeader} (hw : Whole b image h k x) (hroom : x.generation + p.publications ≤ maxU64) :
    (publishChecked b h' p (some image) lastSeen).result = .ok (x.generation + p.publications) := by
  have haccepts : p.accepts (some x.payload) = true := by rw [Publish.accepts, hexpected]
  rw [publishChecked, if_neg hn, if_neg (by rw [hexpected]; exact nofun), if_pos hw.length, publishOver, hw.decodeComplete]
  show (publishExpected b p p.publications lastSeen h (some x) k.other).result = _
  rw [publishExpected, Option.map_some, if_pos haccepts, publishSlots, if_neg (not_lt.mpr hroom)]
  exact advance_ok hfits hroom k.other

theorem bootstrapThen_returns (h : ControlHeader) (lastSeen : ℕ) (hroom : p.publications ≤ maxU64) :
    (bootstrapThen b h p.payload p.publications lastSeen (publishExpected b p)).result = .ok p.publications := by
  obtain ⟨image, himage⟩ := bootstrapImage_ok h hfits
  have hw := (bootstrapImage_slotted himage).whole (current_first p.payload)
  have haccepts : p.accepts (some p.payload) = true := by rw [Publish.accepts, hexpected]
  unfold bootstrapThen
  rw [himage]
  by_cases hone : p.publications = 1
  · rw [hone]
    rfl
  · have hlast : 1 + (p.publications - 1) = p.publications := by omega
    have hroom' : 1 + (p.publications - 1) ≤ maxU64 := by rwa [hlast]
    simp only [if_neg hone, hw.decodeComplete, Outcome.after]
    rw [publishExpected, Option.map_some, if_pos haccepts, publishSlots]
    rw [if_neg (not_lt.mpr hroom'), advance_ok hfits hroom', hlast]

end

/-! ## Runs -/

/-- The file, what the process has seen, the last call that returned, and payloads cut short since. -/
structure ControlState where
  file : Option Bytes
  lastSeen : ℕ
  acked : Option SlotRecord
  pending : List Bytes

def ControlState.start (file : Option Bytes) : ControlState := ⟨file, 0, file.map fun image => ⟨0, image⟩, []⟩

def ControlState.read (b : ControlBinding) (s : ControlState) : Except ControlRefusal (Option ControlRecordRead) := Control.read b s.file s.lastSeen

def seenAfter (lastSeen : ℕ) : Option ControlRecordRead → ℕ
  | some r => if r.formatVersion = 2 then r.generation else lastSeen
  | none => lastSeen

theorem Reads.seenAfter_le (hc : Reads b file c) (hseen : lastSeen ≤ generationOf c) {r : Option ControlRecordRead}
    (hread : Control.read b file lastSeen = .ok r) : seenAfter lastSeen r ≤ generationOf c := by
  obtain ⟨r', hr, rfl⟩ := hc.read hseen
  obtain rfl := Except.ok.inj (hr.symm.trans hread)
  cases r' with
  | none => exact hseen
  | some r =>
    show (if r.formatVersion = 2 then r.generation else lastSeen) ≤ _
    split
    · exact le_rfl
    · exact hseen

inductive Step (b : ControlBinding) (s : ControlState) : ControlState → Prop where
  | opened : Step b s { s with lastSeen := 0 }
  | read {r : Option ControlRecordRead} (hread : s.read b = .ok r) : Step b s { s with lastSeen := seenAfter s.lastSeen r }
  | returned (h : ControlHeader) (p : Publish) {o : Outcome} {g : ℕ} (ho : publishChecked b h p s.file s.lastSeen = o) (hresult : o.result = .ok g) :
      Step b s ⟨o.written b s.file, o.lastSeen, some ⟨g, p.payload⟩, []⟩
  | refused (h : ControlHeader) (p : Publish) {o : Outcome} {e : ControlRefusal} (ho : publishChecked b h p s.file s.lastSeen = o)
      (hresult : o.result = .error e) :
      Step b s ⟨o.written b s.file, o.lastSeen, s.acked, if o.writes.isEmpty then s.pending else p.payload :: s.pending⟩
  | crashed (h : ControlHeader) (p : Publish) {file' : Option Bytes} (hcut : Cut b (publishChecked b h p s.file s.lastSeen).writes s.file file') :
      Step b s ⟨file', 0, s.acked, p.payload :: s.pending⟩

def Runs (b : ControlBinding) : ControlState → ControlState → Prop := Relation.ReflTransGen (Step b)

structure Holds (b : ControlBinding) (s : ControlState) (c : Option SlotRecord) : Prop where
  reads : Reads b s.file c
  seen : s.lastSeen ≤ generationOf c
  latest : c = s.acked ∨ ∃ x, c = some x ∧ x.payload ∈ s.pending ∧ generationOf s.acked < x.generation

theorem Reads.unique (hc : Reads b file c) (hc' : Reads b file c') : c = c' := by
  obtain ⟨r, hr, rfl⟩ := hc.read (Nat.zero_le _)
  obtain ⟨r', hr', rfl⟩ := hc'.read (Nat.zero_le _)
  rw [Except.ok.inj (hr.symm.trans hr')]

variable {s t : ControlState}

theorem Holds.acked_le (hs : Holds b s c) : generationOf s.acked ≤ generationOf c := by
  rcases hs.latest with rfl | ⟨x, rfl, -, hlt⟩
  · exact le_rfl
  · exact hlt.le

theorem Holds.moved (hs : Holds b s c) {file' : Option Bytes} {seen : ℕ} (hreads : Reads b file' c') (hmoves : Moves payload c c')
    (hseen : seen ≤ generationOf c') : Holds b ⟨file', seen, s.acked, payload :: s.pending⟩ c' := by
  refine ⟨hreads, hseen, ?_⟩
  rcases hmoves with rfl | ⟨x, rfl, hpayload, hlt⟩
  · rcases hs.latest with heq | ⟨x, heq, hmem, hlt⟩
    · exact .inl heq
    · exact .inr ⟨x, heq, mem_cons_of_mem _ hmem, hlt⟩
  · exact .inr ⟨x, rfl, hpayload ▸ mem_cons_self, hs.acked_le.trans_lt hlt⟩

theorem Holds.step (hs : Holds b s c) (hstep : Step b s t) : ∃ c', Holds b t c' ∧ generationOf c ≤ generationOf c' := by
  cases hstep with
  | opened => exact ⟨c, ⟨hs.reads, Nat.zero_le _, hs.latest⟩, le_rfl⟩
  | read hread => exact ⟨c, ⟨hs.reads, hs.reads.seenAfter_le hs.seen hread, hs.latest⟩, le_rfl⟩
  | returned h p ho hresult =>
    subst ho
    obtain ⟨c', hreads, hmoves, hseen, hok⟩ := (publishChecked_sound (h := h) (p := p) hs.reads hs.seen).final
    obtain rfl := hok _ hresult
    exact ⟨_, ⟨hreads, hseen, .inl rfl⟩, hmoves.le⟩
  | refused h p ho hresult =>
    rename_i o e
    obtain ⟨c', hreads, hmoves, hseen, -⟩ := ho ▸ (publishChecked_sound (h := h) (p := p) hs.reads hs.seen).final
    cases hwrites : o.writes with
    | nil =>
      have hfile : o.written b s.file = s.file := by rw [Outcome.written, hwrites, foldl_nil]
      rw [hfile] at hreads ⊢
      obtain rfl := hs.reads.unique hreads
      exact ⟨c, ⟨hreads, hseen, hs.latest⟩, le_rfl⟩
    | cons w ws => exact ⟨c', hs.moved hreads hmoves hseen, hmoves.le⟩
  | crashed h p hcut =>
    obtain ⟨c', hreads, hmoves⟩ := (publishChecked_sound (h := h) (p := p) hs.reads hs.seen).cut _ hcut
    exact ⟨c', hs.moved hreads hmoves (Nat.zero_le _), hmoves.le⟩

theorem Holds.runs (hs : Holds b s c) (hrun : Runs b s t) : ∃ c', Holds b t c' ∧ generationOf c ≤ generationOf c' := by
  induction hrun with
  | refl => exact ⟨c, hs, le_rfl⟩
  | tail _ hlast ih =>
    obtain ⟨c', hmid, hle⟩ := ih
    obtain ⟨c'', hlast, hle'⟩ := hmid.step hlast
    exact ⟨c'', hlast, hle.trans hle'⟩

theorem Holds.start (hfile : ∀ image ∈ file, image.length ≠ expectedSize b) : Holds b (.start file) (file.map fun image => ⟨0, image⟩) := by
  cases file with
  | none => exact ⟨.absent, le_rfl, .inl rfl⟩
  | some image => exact ⟨.legacy (hfile image rfl), le_rfl, .inl rfl⟩

/-- In every run a read gives the record of the last call that returned, or under a later number the payload of a
call cut short since; numbers read later are never lower. -/
theorem control_record_runs (b : ControlBinding) (file : Option Bytes) (hfile : ∀ image ∈ file, image.length ≠ expectedSize b) (s : ControlState)
    (hrun : Runs b (.start file) s) :
    ∃ r, s.read b = .ok r ∧
      (r.map (·.record) = s.acked ∨ ∃ x, r.map (·.record) = some x ∧ x.payload ∈ s.pending ∧ generationOf s.acked < x.generation) ∧
      ∀ t, Runs b s t → ∃ r', t.read b = .ok r' ∧ generationOf (r.map (·.record)) ≤ generationOf (r'.map (·.record)) := by
  obtain ⟨c, hs, -⟩ := (Holds.start hfile).runs hrun
  obtain ⟨r, hr, rfl⟩ := hs.reads.read hs.seen
  refine ⟨r, hr, hs.latest, fun t ht => ?_⟩
  obtain ⟨c', ht, hle⟩ := hs.runs ht
  obtain ⟨r', hr', rfl⟩ := ht.reads.read ht.seen
  exact ⟨r', hr', hle⟩

def smallBinding (kind : ControlRecordKind) : ControlBinding := ⟨512, replicate 16 7, kind, by decide, by decide, by decide⟩

def leaseBinding : ControlBinding := smallBinding .lease

def leaseHeader : ControlHeader := ⟨5, by decide⟩

def publishOnce (payload : Bytes) : Publish := ⟨payload, none, 1, false⟩

def firstPublished : ControlState :=
  ⟨(publishChecked leaseBinding leaseHeader (publishOnce [1]) none 0).written leaseBinding none, 1, some ⟨1, [1]⟩, []⟩

theorem firstPublished_result : (publishChecked leaseBinding leaseHeader (publishOnce [1]) none 0).result = .ok 1 :=
  toOption_some_iff.mp (by decide +kernel)

theorem runs_firstPublished : Runs leaseBinding (.start none) firstPublished := by
  have hstep : Step leaseBinding (.start none) ⟨_, (publishChecked leaseBinding leaseHeader (publishOnce [1]) none 0).lastSeen, _, _⟩ :=
    .returned leaseHeader (publishOnce [1]) rfl firstPublished_result
  have hseen : (publishChecked leaseBinding leaseHeader (publishOnce [1]) none 0).lastSeen = 1 := by decide +kernel
  exact .single hstep

theorem reads_firstPublished : Reads leaseBinding firstPublished.file (some ⟨1, [1]⟩) := by
  have hsound := publishChecked_sound (h := leaseHeader) (p := publishOnce [1]) (.absent : Reads leaseBinding none none) (Nat.zero_le 0)
  obtain ⟨c, hreads, -, -, hresult⟩ := hsound.final
  rwa [hresult 1 firstPublished_result] at hreads

/-- A second publication is cut off before its first write. -/
def cutOff : ControlState := { firstPublished with lastSeen := 0, pending := [[2]] }

theorem control_record_cut_off : ∃ r, cutOff.read leaseBinding = .ok r ∧
    (r.map (·.record) = some ⟨1, [1]⟩ ∨ ∃ x, r.map (·.record) = some x ∧ x.payload = [2] ∧ 1 < x.generation) := by
  have hrun : Runs leaseBinding (.start none) cutOff := runs_firstPublished.tail (.crashed leaseHeader (publishOnce [2]) (.now _ _))
  obtain ⟨r, hr, hlatest, -⟩ := control_record_runs leaseBinding none nofun cutOff hrun
  refine ⟨r, hr, hlatest.imp_right ?_⟩
  rintro ⟨x, hx, hmem, hlt⟩
  exact ⟨x, hx, mem_singleton.mp hmem, hlt⟩

theorem Cut.all (ws : List Write) (file : Option Bytes) : Cut b ws file (ws.foldl (fun f w => w.apply b f) file) := by
  induction ws generalizing file with
  | nil => exact .now [] file
  | cons w ws ih => exact .later (ih _)

/-- A payload that came through at one crash is still read after a second one, at which another was in
flight. -/
theorem read_between_crashes : ∃ s r, Runs leaseBinding (.start none) s ∧ s.acked = some ⟨1, [1]⟩ ∧ s.pending = [[3], [2]] ∧
    s.read leaseBinding = .ok (some r) ∧ r.payload = [2] := by
  obtain ⟨o, ho⟩ : ∃ o, publishChecked leaseBinding leaseHeader (publishOnce [2]) firstPublished.file firstPublished.lastSeen = o := ⟨_, rfl⟩
  have hresult : o.result = .ok 2 := by
    have hreads := reads_firstPublished
    rw [← ho]
    generalize firstPublished.file = file at hreads ⊢
    cases hreads with
    | whole hw => exact publishChecked_returns (by decide) rfl (by decide) hw (by decide)
  have hsound := publishChecked_sound (h := leaseHeader) (p := publishOnce [2]) reads_firstPublished le_rfl
  obtain ⟨c, hreads, -, -, hfinal⟩ := (ho ▸ hsound).final
  obtain rfl := hfinal 2 hresult
  obtain ⟨r, hr, hrecord⟩ := hreads.read (Nat.zero_le _)
  obtain ⟨r, rfl, hsame⟩ := Option.map_eq_some_iff.mp hrecord
  have hpayload : r.record.payload = [2] := congrArg SlotRecord.payload hsame
  refine ⟨⟨o.written leaseBinding firstPublished.file, 0, some ⟨1, [1]⟩, [[3], [2]]⟩, r, ?_, rfl, rfl, hr, hpayload⟩
  refine (runs_firstPublished.tail (.crashed leaseHeader (publishOnce [2]) ?_)).tail (.crashed leaseHeader (publishOnce [3]) (.now _ _))
  rw [ho]
  exact .all o.writes firstPublished.file

end Grafx.Control
