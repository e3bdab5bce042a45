import OktoGrafx.Lib.Transition
import OktoGrafx.Slotted.Codec

/-! Sequences of operations on a slotted page: what holds on every page they reach, and what becomes
of the records. -/

namespace Grafx.Slotted

open List Buffer
open Function (update_of_ne)

/-! ## Slots -/

inductive SlotOp where
  | insert (payload : Bytes)
  | update (slot : ℕ) (payload : Bytes)
  | free (slot : ℕ)
  | compact
  deriving DecidableEq

namespace SlotOp

def slot : SlotOp → Option ℕ
  | .update slot _ | .free slot => some slot
  | .insert _ | .compact => none

def exec : SlotOp → PageM (Option ℕ)
  | .insert payload => do
    let id ← insertSlot payload
    return some id
  | .update slot payload => do
    updateSlot slot payload
    return none
  | .free slot => do
    let _ ← freeSlot slot
    return none
  | .compact => do
    let _ ← Slotted.compact
    return none

def effect (op : SlotOp) (id : Option ℕ) (records : ℕ → Option Bytes) : ℕ → Option Bytes :=
  match op with
  | .insert payload => id.elim records fun id => Function.update records id (some payload)
  | .update slot payload => Function.update records slot (some payload)
  | .free slot => Function.update records slot none
  | .compact => records

end SlotOp

def run : List SlotOp → Page → List (Except PageRefusal (Option ℕ)) × Page
  | [], p => ([], p)
  | op :: ops, p =>
    match op.exec p with
    | .ok id q => ((.ok id) :: (run ops q).1, (run ops q).2)
    | .error refusal q => ((.error refusal) :: (run ops q).1, (run ops q).2)

def identifiers (outcomes : List (Except PageRefusal (Option ℕ))) : List ℕ :=
  outcomes.filterMap fun outcome => outcome.toOption.join

/-- Operations that were refused count for nothing. -/
def replay : List SlotOp → List (Except PageRefusal (Option ℕ)) → (ℕ → Option Bytes) → ℕ → Option Bytes
  | op :: ops, .ok id :: outcomes, records => replay ops outcomes (op.effect id records)
  | _ :: ops, .error _ :: outcomes, records => replay ops outcomes records
  | _, _, records => records

variable {p q : Page} {op : SlotOp} {ops : List SlotOp} {outcomes : List (Except PageRefusal (Option ℕ))} {id : Option ℕ}
  {cs : List (Option Bytes)} {slot : ℕ}

def recordAt (cs : List (Option Bytes)) (slot : ℕ) : Option Bytes := cs[slot]?.join

theorem records_eq (p : Page) : p.records = recordAt p.contents := rfl

theorem recordAt_append (cs : List (Option Bytes)) (payload : Bytes) :
    recordAt (cs ++ [some payload]) = Function.update (recordAt cs) cs.length (some payload) := by
  funext slot
  unfold recordAt
  rcases lt_trichotomy slot cs.length with hlt | rfl | hgt
  · rw [update_of_ne hlt.ne, getElem?_append_left hlt]
  · rw [Function.update_self, getElem?_concat_length]
    rfl
  · rw [update_of_ne hgt.ne', getElem?_eq_none (by rw [length_append]; exact hgt),
      getElem?_eq_none hgt.le]

theorem recordAt_set (cs : List (Option Bytes)) {slot : ℕ} (h : slot < cs.length) (record : Option Bytes) :
    recordAt (cs.set slot record) = Function.update (recordAt cs) slot record := by
  funext i
  unfold recordAt
  by_cases hi : i = slot
  · subst hi
    rw [Function.update_self, getElem?_set_self h]
    rfl
  · rw [update_of_ne hi, getElem?_set_ne (Ne.symm hi)]

theorem slot_lt_of_record (h : p.records slot ≠ none) : slot < p.contents.length := by
  by_contra hge
  apply h
  rw [records_eq, recordAt, getElem?_eq_none (not_lt.mp hge)]
  rfl

/-- The page stays valid, the records change as a map does, and an insert gets the next identifier. -/
structure Granted (p : Page) (op : SlotOp) (id : Option ℕ) (q : Page) : Prop where
  valid : q.Valid
  clean : p.Clean 0 → q.Clean 0
  records : q.records = op.effect id p.records
  live : ∀ slot, op.slot = some slot → p.records slot ≠ none
  given : id = none ∧ q.slots.length = p.slots.length ∨ id = some p.slots.length ∧ q.slots.length = p.slots.length + 1
  pageSize : q.pageSize = p.pageSize

theorem Granted.one_slot {record : Option Bytes} (hq : p.Leaves (p.contents.set slot record) q) (hlive : p.records slot ≠ none)
    (heffect : op.effect none p.records = Function.update p.records slot record) (hslot : op.slot = some slot) : Granted p op none q := by
  refine ⟨hq.valid, hq.clean, ?_, ?_, .inl ⟨rfl, ?_⟩, hq.pageSize⟩
  · rw [heffect, records_eq, hq.contents, recordAt_set _ (slot_lt_of_record hlive)]
    rfl
  · intro s hs
    exact Option.some.inj (hslot.symm.trans hs) ▸ hlive
  · rw [hq.slots_length, length_set, Arena.length_contents]

section
variable (h : p.Valid)
include h

theorem exec_cases (op : SlotOp) : (∃ id q, op.exec p = .ok id q ∧ Granted p op id q) ∨ ∃ refusal, op.exec p = .error refusal p := by
  cases op with
  | insert payload =>
    rcases insertSlot_cases h payload with ⟨⟨q, hinsert, hq⟩, -⟩ | ⟨hinsert, -⟩
    · refine .inl ⟨some p.slots.length, q, ?_, hq.valid, hq.clean, ?_, nofun, .inr ⟨rfl, ?_⟩, hq.pageSize⟩
      · simp only [SlotOp.exec, bind, EStateM.bind, hinsert]
        rfl
      · rw [records_eq, hq.contents, recordAt_append, Arena.length_contents]
        rfl
      · rw [hq.slots_length, length_append, Arena.length_contents, length_singleton]
    · refine .inr ⟨.pageFull (payload.length + slotEntrySize) p.freeSpace p.pageIndex none, ?_⟩
      simp only [SlotOp.exec, bind, EStateM.bind, hinsert]
  | update slot payload =>
    rcases updateSlot_cases h slot payload with ⟨⟨q, hupdate, hq⟩, hlive⟩ | ⟨refusal, hupdate⟩
    · refine .inl ⟨none, q, ?_, .one_slot hq hlive rfl rfl⟩
      simp only [SlotOp.exec, bind, EStateM.bind, hupdate]
      rfl
    · refine .inr ⟨refusal, ?_⟩
      simp only [SlotOp.exec, bind, EStateM.bind, hupdate]
  | free slot =>
    rcases freeSlot_cases h slot with ⟨⟨length, q, hfree, hq⟩, hlive⟩ | ⟨refusal, hfree⟩
    · refine .inl ⟨none, q, ?_, .one_slot hq hlive rfl rfl⟩
      simp only [SlotOp.exec, bind, EStateM.bind, hfree]
      rfl
    · refine .inr ⟨refusal, ?_⟩
      simp only [SlotOp.exec, bind, EStateM.bind, hfree]
  | compact =>
    have hq := h.compacted
    refine .inl ⟨none, p.compacted, rfl, hq.valid, hq.clean, ?_, nofun, .inl ⟨rfl, ?_⟩, hq.pageSize⟩
    · rw [records_eq, hq.contents]
      rfl
    · rw [hq.slots_length, Arena.length_contents]

theorem exec_refused {refusal : PageRefusal} (hexec : op.exec p = .error refusal q) : q = p := by
  rcases exec_cases h op with ⟨id, r, hok, -⟩ | ⟨refusal', herr⟩
  · rw [hexec] at hok
    cases hok
  · rw [hexec] at herr
    exact (EStateM.Result.error.inj herr).2

structure Ran (p : Page) (ops : List SlotOp) (outcomes : List (Except PageRefusal (Option ℕ))) (q : Page) : Prop where
  valid : q.Valid
  clean : p.Clean 0 → q.Clean 0
  records : q.records = replay ops outcomes p.records
  given : identifiers outcomes = range' p.slots.length (identifiers outcomes).length
  slots_length : q.slots.length = p.slots.length + (identifiers outcomes).length

theorem run_ran (ops : List SlotOp) : Ran p ops (run ops p).1 (run ops p).2 := by
  induction ops generalizing p with
  | nil => exact ⟨h, id, rfl, rfl, rfl⟩
  | cons op ops ih =>
    rcases exec_cases h op with ⟨id, q, hexec, hq⟩ | ⟨refusal, hexec⟩
    · have hrest := ih hq.valid
      simp only [run, hexec]
      refine ⟨hrest.valid, fun hclean => hrest.clean (hq.clean hclean), ?_, ?_, ?_⟩
      · rw [hrest.records, hq.records]
        rfl
      · rcases hq.given with ⟨rfl, hlength⟩ | ⟨rfl, hlength⟩
        · exact hlength ▸ hrest.given
        · show p.slots.length :: identifiers (run ops q).1 = range' p.slots.length ((identifiers (run ops q).1).length + 1)
          rw [range'_succ, ← hlength, ← hrest.given]
      · rw [hrest.slots_length]
        rcases hq.given with ⟨rfl, hlength⟩ | ⟨rfl, hlength⟩
        · rw [hlength]
          rfl
        · rw [hlength]
          show p.slots.length + 1 + (identifiers (run ops q).1).length = p.slots.length + ((identifiers (run ops q).1).length + 1)
          omega
    · have hrest := ih h
      simp only [run, hexec]
      exact ⟨hrest.valid, hrest.clean, hrest.records, hrest.given, hrest.slots_length⟩

omit h in
theorem effect_other {records : ℕ → Option Bytes} (hid : id ≠ some slot) (hslot : op.slot ≠ some slot) :
    op.effect id records slot = records slot := by
  cases op with
  | insert payload =>
    cases id with
    | none => rfl
    | some id => exact update_of_ne (fun heq => hid (congrArg some heq.symm)) _ _
  | update s payload => exact update_of_ne (fun heq => hslot (congrArg some heq.symm)) _ _
  | free s => exact update_of_ne (fun heq => hslot (congrArg some heq.symm)) _ _
  | compact => rfl

theorem run_other (ops : List SlotOp) (hslot : slot < p.slots.length)
    (hops : ∀ op ∈ ops, op.slot = some slot → p.records slot = none) : (run ops p).2.records slot = p.records slot := by
  induction ops generalizing p with
  | nil => rfl
  | cons op ops ih =>
    have hrest : ∀ op ∈ ops, op.slot = some slot → p.records slot = none := (forall_mem_cons.mp hops).2
    rcases exec_cases h op with ⟨id, q, hexec, hq⟩ | ⟨refusal, hexec⟩
    · have hid : id ≠ some slot := by
        rcases hq.given with ⟨rfl, -⟩ | ⟨rfl, -⟩
        · exact (Option.some_ne_none slot).symm
        · intro heq
          exact absurd (Option.some.inj heq) hslot.ne'
      have hlive : op.slot ≠ some slot := fun heq => hq.live slot heq (hops op mem_cons_self heq)
      have hsame : q.records slot = p.records slot := by rw [hq.records, effect_other hid hlive]
      simp only [run, hexec]
      rw [← hsame]
      apply ih hq.valid
      · rcases hq.given with ⟨-, hlength⟩ | ⟨-, hlength⟩ <;> omega
      · rw [hsame]
        exact hrest
    · simp only [run, hexec]
      exact ih h hslot hrest

theorem insertSlot_iff (payload : Bytes) :
    (∃ id q, insertSlot payload p = .ok id q) ↔ (payload.length + slotEntrySize : ℤ) ≤ p.compacted.freeSpace := by
  rcases insertSlot_cases h payload with ⟨⟨q, hinsert, -⟩, hspace⟩ | ⟨hinsert, hspace⟩
  · exact ⟨fun _ => hspace, fun _ => ⟨_, q, hinsert⟩⟩
  · refine ⟨?_, fun hle => absurd hle (not_le.mpr hspace)⟩
    rintro ⟨id, q, hok⟩
    rw [hinsert] at hok
    cases hok

omit h in
theorem make_valid {pageType pageSize pageIndex pageLsn seq flags nextPage : ℕ}
    (h : Page.make pageType pageSize pageIndex pageLsn seq flags nextPage = .ok p) :
    p.Valid ∧ p.Clean 0 ∧ p.slots.length = 0 ∧ p.records = fun _ => none := by
  obtain ⟨hsize, hfields, rfl⟩ := make_ok_iff.mp h
  have hbounds := (validatePageSize_bounds hsize).1
  have hheader : pageHeaderSize ≤ pageSize := le_trans (by decide) hbounds
  refine ⟨⟨hsize, Arena.sound_empty hheader, length_replicate, ?_, hfields, Nat.zero_le _⟩, Arena.clean_empty, rfl, rfl⟩
  show pageHeaderSize + 0 * slotEntrySize ≤ pageSize
  omega

theorem Page.Valid.image_getD {i : ℕ} (hi : pageHeaderSize ≤ i) (hlt : (i : ℤ) < p.freeEnd) : p.image.getD i 0 = p.data.getD i 0 := by
  have hpayload := h.payloadBytes_length
  have hend := h.freeEnd_eq
  rw [p.image_pieces, getD_append_right _ _ _ _ (by rw [p.head_length]; exact hi), p.head_length, Page.body]
  by_cases hfill : i < p.freeStart
  · rw [getD_append _ _ _ _ (by omega), Page.payloadBytes, getD_slice (by omega), Nat.add_sub_of_le hi]
  · rw [getD_append_right _ _ _ _ (by omega), getD_append _ _ _ _ (by rw [length_replicate]; omega),
      h.sound.blank i (.inr (not_lt.mp hfill))]
    exact getElem?_getD_replicate_default_eq ..

end

/-- Whatever is done to the slots of a fresh page: payloads lie apart, identifiers stand for their records, a refusal
changes nothing, and an insert is granted exactly when it fits after compacting. -/
theorem slots_run {pageType pageSize pageIndex pageLsn seq flags nextPage : ℕ} {p₀ : Page}
    (hmake : Page.make pageType pageSize pageIndex pageLsn seq flags nextPage = .ok p₀) (hrun : run ops p₀ = (outcomes, p)) :
    (p.slots.Pairwise Apart ∧ ∀ e ∈ p.slots, e ≠ Arena.freeSlot → pageHeaderSize ≤ e.1 ∧ (e.1 + e.2 : ℤ) ≤ p.freeEnd) ∧
      (∃ image, p.toBytes = .ok image ∧ ∀ i, pageHeaderSize ≤ i → (i : ℤ) < p.freeEnd → (∀ e ∈ p.slots, ¬ Covers e i) →
        image.getD i 0 = 0 ∧ p.data.getD i 0 = 0) ∧
      identifiers outcomes = range (identifiers outcomes).length ∧
      p.records = replay ops outcomes (fun _ => none) ∧
      (∀ later slot, slot < p.slotCount → (∀ op ∈ later, op.slot = some slot → p.records slot = none) →
        (run later p).2.records slot = p.records slot) ∧
      (∀ op refusal q, SlotOp.exec op p = .error refusal q → q = p) ∧
      ∀ payload, (∃ id q, insertSlot payload p = .ok id q) ↔ (payload.length + slotEntrySize : ℤ) ≤ p.compacted.freeSpace := by
  obtain ⟨hvalid, hclean, hslots, hrecords⟩ := make_valid hmake
  have hran : Ran p₀ ops outcomes p := by
    have := run_ran hvalid ops
    rwa [hrun] at this
  have h := hran.valid
  refine ⟨⟨h.sound.apart, ?_⟩, ⟨p.image, h.toBytes_eq, ?_⟩, ?_, ?_, ?_, ?_, insertSlot_iff h⟩
  · intro e he hlive
    have hin := h.sound.inside e he hlive
    have hroom := h.room
    unfold Page.freeEnd
    omega
  · intro i hi hlt huncovered
    have hblank := hran.clean hclean i huncovered
    exact ⟨(h.image_getD hi hlt).trans hblank, hblank⟩
  · rw [range_eq_range', ← hslots]
    exact hran.given
  · rw [← hrecords]
    exact hran.records
  · intro later slot hslot hlater
    exact run_other h later hslot hlater
  · intro op refusal q hexec
    exact exec_refused h hexec

def freshPage : Page :=
  { toArena := .empty 0 512 pageHeaderSize, pageSize := 512, pageIndex := 0, pageType := 2, flags := 0, pageLsn := 0, seq := 0,
    nextPage := maxU32, reserved := 0, dirty := false }

theorem make_freshPage : Page.make 2 512 0 0 0 0 maxU32 = .ok freshPage := by
  rw [make_ok_iff]
  refine ⟨by decide, ?_, rfl⟩
  intro f
  cases f <;> decide

/-- An identifier that was freed is not given out again. -/
theorem slots_run_freed :
    identifiers (run [.insert [1], .free 0, .insert [2]] freshPage).1 = [0, 1] ∧
      identifiers (run [.insert [1], .free 0, .insert [2]] freshPage).1 =
        List.range (identifiers (run [.insert [1], .free 0, .insert [2]] freshPage).1).length :=
  ⟨by decide +kernel, (slots_run make_freshPage rfl).2.2.1⟩

/-! ## Pages -/

inductive PageOp where
  | slots (op : SlotOp)
  | setField (field : HeaderField) (value : ℕ)
  | setDirty (value : Bool)
  | clear
  | replaceWith (other : Page)

namespace PageOp

def exec : PageOp → PageM Unit
  | .slots op => do
    let _ ← op.exec
    return ()
  | .setField field value => Slotted.setField field value
  | .setDirty value => Slotted.setDirty value
  | .clear => Slotted.clear
  | .replaceWith other => Slotted.replaceWith other

def after (op : PageOp) (p : Page) : Page :=
  match op.exec p with
  | .ok _ q => q
  | .error _ q => q

end PageOp

inductive Reachable : Page → Prop where
  | fresh {pageType pageSize pageIndex pageLsn seq flags nextPage : ℕ} {p : Page} :
    Page.make pageType pageSize pageIndex pageLsn seq flags nextPage = .ok p → Reachable p
  | decoded {raw : Bytes} {pageSize pageIndex : Option ℕ} {verify : Bool} {p : Page} :
    fromBytes raw pageSize pageIndex verify = .ok p → Reachable p
  | step {p : Page} (op : PageOp) : Reachable p → (∀ other, op = .replaceWith other → Reachable other) → Reachable (op.after p)

def Later : Page → Page → Prop :=
  Relation.ReflTransGen fun p q => ∃ op : PageOp, (∀ other, op = .replaceWith other → Reachable other) ∧ q = op.after p

theorem setField_after (h : p.Valid) (field : HeaderField) (value : ℕ) :
    ((PageOp.setField field value).after p).Valid ∧ ((PageOp.setField field value).after p).pageSize = p.pageSize := by
  by_cases hvalue : value ≤ field.maximum
  · have hafter : (PageOp.setField field value).after p = p.withField field value := by
      simp only [PageOp.after, PageOp.exec, setField, if_pos hvalue]
      rfl
    rw [hafter]
    cases field with
    | _ =>
      refine ⟨⟨h.size, h.sound, h.length, h.room, ?_, h.reserved⟩, rfl⟩
      intro f
      have := h.fields f
      cases f <;> first | exact this | exact hvalue
  · have hafter : (PageOp.setField field value).after p = p := by
      simp only [PageOp.after, PageOp.exec, setField, if_neg hvalue]
      rfl
    rw [hafter]
    exact ⟨h, rfl⟩

theorem after_valid (h : p.Valid) (op : PageOp) (hother : ∀ other, op = .replaceWith other → other.Valid) :
    (op.after p).Valid ∧ (op.after p).pageSize = p.pageSize := by
  cases op with
  | slots op =>
    rcases exec_cases h op with ⟨id, q, hexec, hq⟩ | ⟨refusal, hexec⟩
    · have hafter : (PageOp.slots op).after p = q := by simp only [PageOp.after, PageOp.exec, bind, EStateM.bind, hexec]; rfl
      rw [hafter]
      exact ⟨hq.valid, hq.pageSize⟩
    · have hafter : (PageOp.slots op).after p = p := by simp only [PageOp.after, PageOp.exec, bind, EStateM.bind, hexec]
      rw [hafter]
      exact ⟨h, rfl⟩
  | setField field value => exact setField_after h field value
  | setDirty value => exact ⟨h.put h.sound rfl h.room, rfl⟩
  | clear => exact ⟨h.cleared.valid, rfl⟩
  | replaceWith other =>
    have ho := hother other rfl
    have hexec : replaceWith other p = (if other.pageSize ≠ p.pageSize then throw (.replaceSize other.pageSize p.pageIndex)
        else set { other with pageSize := p.pageSize, pageIndex := p.pageIndex, dirty := true } : PageM Unit) p := rfl
    by_cases hsize : other.pageSize = p.pageSize
    · have hafter : (PageOp.replaceWith other).after p = { other with pageSize := p.pageSize, pageIndex := p.pageIndex, dirty := true } := by
        simp only [PageOp.after, PageOp.exec, hexec, hsize, ne_eq, not_true_eq_false, if_false]
        rfl
      rw [hafter]
      refine ⟨⟨h.size, ho.sound, ho.length.trans hsize, hsize ▸ ho.room, ?_, ho.reserved⟩, rfl⟩
      intro f
      have hthis := h.fields f
      have hthat := ho.fields f
      cases f <;> first | exact hthat | exact hthis
    · have hafter : (PageOp.replaceWith other).after p = p := by
        simp only [PageOp.after, PageOp.exec, hexec, ne_eq, hsize, not_false_eq_true, if_true]
        rfl
      rw [hafter]
      exact ⟨h, rfl⟩

theorem Reachable.valid (h : Reachable p) : p.Valid := by
  induction h with
  | fresh hmake => exact (make_valid hmake).1
  | decoded hdecoded =>
    obtain ⟨-, header, haccepted⟩ := fromBytes_ok_iff.mp hdecoded
    exact haccepted.valid
  | step op _ _ ih ihother => exact (after_valid ih op ihother).1

theorem Later.valid (hlater : Later p q) (h : p.Valid) : q.Valid ∧ q.pageSize = p.pageSize := by
  apply Transition.invariant _ hlater ⟨h, rfl⟩
  rintro r r' ⟨hr, hsize⟩ ⟨op, hother, rfl⟩
  have hafter := after_valid hr op fun other heq => (hother other heq).valid
  exact ⟨hafter.1, hafter.2.trans hsize⟩

theorem Page.equal_self (p : Page) (index : ℕ) : ({ p with pageIndex := index, dirty := false } : Page).equal p = true :=
  decide_eq_true ⟨rfl, rfl, rfl, rfl, rfl, rfl, rfl, rfl⟩

/-- The image of every page decodes to an equal page; and whatever image is accepted, its page and all that
operations make of it keep payloads apart and readable in full. -/
theorem page_image :
    (∀ p, Reachable p → ∃ image, p.toBytes = .ok image ∧ isUnwrittenImage image p.pageSize = false ∧
        ∀ declared index verify, (∀ n ∈ declared, p.pageSize = n) → index.getD 0 ≤ maxU32 →
          ∃ q, fromBytes image declared index verify = .ok q ∧ q.equal p = true) ∧
      ∀ raw declared index verify p, fromBytes raw declared index verify = .ok p → ∀ q, Later p q →
        q.Valid ∧ q.pageSize = p.pageSize ∧
          ∀ (slot : ℕ) (e : Extent), q.slots[slot]? = some e → e ≠ Arena.freeSlot → (slice q.data e.1 e.2).length = e.2 := by
  constructor
  · intro p hp
    have h := hp.valid
    refine ⟨p.image, h.toBytes_eq, h.image_written, ?_⟩
    intro declared index verify hdeclared hindex
    exact ⟨_, h.fromBytes_image verify hdeclared hindex, p.equal_self _⟩
  · intro raw declared index verify p hp q hlater
    have h := hlater.valid (Reachable.decoded hp).valid
    refine ⟨h.1, h.2, ?_⟩
    intro slot e he hlive
    exact (records_live h.1 he hlive).2

def onePayload : Page := (PageOp.slots (.insert [1, 2, 3])).after freshPage

theorem page_image_payload : onePayload.slots = [(32, 3)] ∧ ∃ image q, onePayload.toBytes = .ok image ∧
    isUnwrittenImage image 512 = false ∧ fromBytes image none none true = .ok q ∧ q.equal onePayload = true := by
  obtain ⟨image, himage, hwritten, hdecodes⟩ := page_image.1 onePayload (.step _ (.fresh make_freshPage) nofun)
  obtain ⟨q, hq, hequal⟩ := hdecodes none none true nofun (by decide)
  exact ⟨by decide +kernel, image, q, himage, hwritten, hq, hequal⟩

end Grafx.Slotted
