import OktoGrafx.Slotted.Page

/-! What every operation of a slotted page keeps, and what it does to the records on the page. -/

namespace Grafx.Slotted

open Buffer Checked

namespace Page

def field (p : Page) : HeaderField → ℕ
  | .pageIndex => p.pageIndex
  | .pageType => p.pageType
  | .flags => p.flags
  | .pageLsn => p.pageLsn
  | .seq => p.seq
  | .nextPage => p.nextPage

/-- Payloads lie apart between the header and the directory, and every field has its width. -/
structure Valid (p : Page) : Prop where
  size : validatePageSize p.pageSize = .ok ()
  sound : p.toArena.Sound 0 pageHeaderSize
  length : p.data.length = p.pageSize
  room : p.freeStart + p.slots.length * slotEntrySize ≤ p.pageSize
  fields : ∀ f, p.field f ≤ f.maximum
  reserved : p.reserved ≤ maxU16

def records (p : Page) (slot : ℕ) : Option Bytes := p.contents[slot]?.join

end Page

theorem pageHeaderSize_pos : 0 < pageHeaderSize := by decide

theorem validatePageSize_bounds {size : ℕ} (h : validatePageSize size = .ok ()) : minPageSize ≤ size ∧ size ≤ maxPageSize := by
  obtain ⟨_, hbounds, -⟩ := bind_ok_iff.mp h
  exact ensure_ok_iff.mp hbounds

theorem checkUnsigned_ok_iff {f : HeaderField} {value : ℕ} {x : Unit} : checkUnsigned f value = .ok x ↔ value ≤ f.maximum :=
  ensure_ok_iff

theorem make_ok_iff {pageType pageSize pageIndex pageLsn seq flags nextPage : ℕ} {p : Page} :
    Page.make pageType pageSize pageIndex pageLsn seq flags nextPage = .ok p ↔
      validatePageSize pageSize = .ok () ∧ (∀ f, p.field f ≤ f.maximum) ∧
        p = { toArena := .empty 0 pageSize pageHeaderSize, pageSize, pageIndex, pageType, flags, pageLsn, seq, nextPage, reserved := 0,
              dirty := false } := by
  simp only [Page.make, bind_ok_iff, checkUnsigned_ok_iff, pure_ok_iff]
  constructor
  · rintro ⟨_, hsize, _, hindex, _, htype, _, hflags, _, hlsn, _, hseq, _, hnext, rfl⟩
    refine ⟨hsize, ?_, rfl⟩
    intro f
    cases f <;> assumption
  · rintro ⟨hsize, hfields, rfl⟩
    exact ⟨⟨⟩, hsize, ⟨⟩, hfields .pageIndex, ⟨⟩, hfields .pageType, ⟨⟩, hfields .flags, ⟨⟩, hfields .pageLsn, ⟨⟩, hfields .seq, ⟨⟩,
      hfields .nextPage, rfl⟩

variable {p q : Page} {slot size : ℕ} {payload : Bytes} {e : Extent} {a : Arena Byte} {cs cs' : List (Option Bytes)}

/-! ## Space -/

theorem liveBytes_eq (p : Page) : p.liveBytes = (p.slots.map Prod.snd).sum := by
  unfold Page.liveBytes
  induction p.slots with
  | nil => rfl
  | cons e es ih =>
    by_cases hlive : e = Arena.freeSlot
    · rw [List.filter_cons_of_neg (by simpa using hlive), ih, List.map_cons, List.sum_cons, hlive]
      exact (zero_add _).symm
    · rw [List.filter_cons_of_pos (by simpa using hlive), List.map_cons, List.sum_cons, ih, List.map_cons, List.sum_cons]

theorem Page.canFit_iff : p.canFit size = true ↔ (size + slotEntrySize : ℤ) ≤ p.freeSpace := decide_eq_true_iff

structure Page.Leaves (p : Page) (cs : List (Option Bytes)) (q : Page) : Prop where
  valid : q.Valid
  contents : q.contents = cs
  clean : p.Clean 0 → q.Clean 0
  pageSize : q.pageSize = p.pageSize

theorem Page.Leaves.trans (h : p.Leaves cs q) {r : Page} (h' : q.Leaves cs' r) : p.Leaves cs' r :=
  ⟨h'.valid, h'.contents, fun hclean => h'.clean (h.clean hclean), h'.pageSize.trans h.pageSize⟩

theorem Page.Leaves.slots_length (h : p.Leaves cs q) : q.slots.length = cs.length := by
  rw [← h.contents, Arena.length_contents]

namespace Page.Valid
variable (h : p.Valid)
include h

theorem put {dirty : Bool} (hsound : a.Sound 0 pageHeaderSize) (hlength : a.data.length = p.data.length)
    (hroom : a.freeStart + a.slots.length * slotEntrySize ≤ p.pageSize) : (p.put a dirty).Valid := by
  refine ⟨h.size, hsound, hlength.trans h.length, hroom, ?_, h.reserved⟩
  intro f
  have := h.fields f
  cases f <;> exact this

theorem freeEnd_eq : p.freeEnd = ((p.pageSize - p.slots.length * slotEntrySize : ℕ) : ℤ) := by
  have := h.room
  unfold freeEnd
  omega

theorem moved : Arena.Moved 0 pageHeaderSize p.data (.empty 0 p.pageSize pageHeaderSize) p.slots p.compacted.toArena :=
  h.sound.moved_repack pageHeaderSize_pos h.length

theorem slots_compacted : p.compacted.slots.length = p.slots.length := by
  have hcontents := congrArg List.length h.moved.contents
  rw [Arena.length_contents, List.length_append, List.length_map] at hcontents
  exact hcontents.trans (zero_add _)

theorem freeStart_compacted : p.compacted.freeStart = pageHeaderSize + p.liveBytes := by
  rw [liveBytes_eq]
  exact h.moved.freeStart

theorem freeSpace_compacted : p.compacted.freeSpace = p.compactableSpace := by
  unfold freeSpace compactableSpace freeEnd
  rw [h.slots_compacted, h.freeStart_compacted]
  show (p.pageSize : ℤ) - _ - _ = _
  omega

theorem freeSpace_le : p.freeSpace ≤ p.compactableSpace := by
  have hused := h.sound.used_le
  rw [← liveBytes_eq] at hused
  unfold freeSpace compactableSpace
  omega

theorem compacted : p.Leaves p.contents p.compacted := by
  have hused := h.sound.used_le
  have hroom := h.room
  rw [← liveBytes_eq] at hused
  refine ⟨h.put h.moved.sound ?_ ?_, h.moved.contents, fun _ => h.moved.clean, rfl⟩
  · show p.compacted.data.length = p.data.length
    rw [h.moved.length, h.length]
    exact List.length_replicate
  · show p.compacted.freeStart + p.compacted.slots.length * slotEntrySize ≤ p.pageSize
    rw [h.slots_compacted, h.freeStart_compacted]
    omega

theorem cleared : p.Leaves [] (p.put (.empty 0 p.pageSize pageHeaderSize) true) := by
  have hheader : pageHeaderSize ≤ p.pageSize := le_trans (by decide) (validatePageSize_bounds h.size).1
  refine ⟨h.put (Arena.sound_empty hheader) ?_ ?_, rfl, fun _ => Arena.clean_empty, rfl⟩
  · rw [h.length]
    exact List.length_replicate
  · show pageHeaderSize + 0 * slotEntrySize ≤ p.pageSize
    omega

theorem pushed (hfits : (payload.length + slotEntrySize : ℤ) ≤ p.freeSpace) :
    p.Leaves (p.contents ++ [some payload]) (p.put (p.toArena.push payload) true) := by
  have hlength := h.length
  have hfits' : p.freeStart + payload.length + (p.slots.length + 1) * slotEntrySize ≤ p.pageSize := by
    unfold freeSpace freeEnd slotEntrySize at hfits
    unfold slotEntrySize
    omega
  have hdata : p.freeStart + payload.length ≤ p.data.length := by omega
  refine ⟨h.put (h.sound.push hdata) (length_write hdata) ?_, h.sound.contents_push hdata pageHeaderSize_pos, ?_, rfl⟩
  · show p.freeStart + payload.length + (p.slots ++ [_]).length * slotEntrySize ≤ p.pageSize
    rw [List.length_append]
    exact hfits'
  · exact fun hclean => Arena.Clean.push h.sound hclean

theorem shrunk (he : p.slots[slot]? = some e) (hlive : e ≠ Arena.freeSlot) (hle : payload.length ≤ e.2) :
    p.Leaves (p.contents.set slot (some payload)) (p.put (p.toArena.shrink 0 slot e payload) true) := by
  refine ⟨h.put (h.sound.shrink he hlive hle) ?_ ?_, h.sound.contents_shrink he hlive hle pageHeaderSize_pos,
    fun hclean => Arena.Clean.shrink h.sound he hlive hle hclean, rfl⟩
  · have hin := h.sound.in_data (List.mem_of_getElem? he) hlive
    rw [h.sound.shrink_eq he hlive hle]
    apply length_write
    rw [List.length_append, List.length_replicate]
    omega
  · show p.freeStart + (p.slots.set slot _).length * slotEntrySize ≤ p.pageSize
    rw [List.length_set]
    exact h.room

theorem erased (dirty : Bool) (he : p.slots[slot]? = some e) (hlive : e ≠ Arena.freeSlot) :
    p.Leaves (p.contents.set slot none) (p.put (p.toArena.erase 0 slot e) dirty) := by
  refine ⟨h.put (h.sound.erase he hlive) ?_ ?_, h.sound.contents_erase he hlive,
    fun hclean => Arena.Clean.erase h.sound he hlive hclean, rfl⟩
  · apply length_write
    rw [List.length_replicate]
    exact h.sound.in_data (List.mem_of_getElem? he) hlive
  · show p.freeStart + (p.slots.set slot _).length * slotEntrySize ≤ p.pageSize
    rw [List.length_set]
    exact h.room

theorem placed (hfree : p.slots[slot]? = some Arena.freeSlot) (hfits : (payload.length : ℤ) ≤ p.freeSpace) :
    p.Leaves (p.contents.set slot (some payload)) (p.put (p.toArena.place slot payload) true) := by
  have hlength := h.length
  have hfits' : p.freeStart + payload.length + p.slots.length * slotEntrySize ≤ p.pageSize := by
    unfold freeSpace freeEnd at hfits
    omega
  have hdata : p.freeStart + payload.length ≤ p.data.length := by omega
  refine ⟨h.put (h.sound.place hdata) (length_write hdata) ?_, h.sound.contents_place hdata pageHeaderSize_pos,
    fun hclean => Arena.Clean.place h.sound hfree hclean, rfl⟩
  show p.freeStart + payload.length + (p.slots.set slot _).length * slotEntrySize ≤ p.pageSize
  rw [List.length_set]
  exact hfits'

end Page.Valid

/-! ## Operations -/

theorem checkSlotRange_in (h : slot < p.slots.length) : checkSlotRange slot p = .ok () p := by
  show (if slot < p.slots.length then _ else _ : PageM Unit) p = _
  rw [if_pos h]
  rfl

theorem checkSlotRange_out (h : ¬ slot < p.slots.length) :
    checkSlotRange slot p = .error (.slot p.pageIndex slot p.slotCount) p := by
  show (if slot < p.slots.length then _ else _ : PageM Unit) p = _
  rw [if_neg h]
  rfl

theorem entry_in (h : p.slots[slot]? = some e) :
    entry slot p = if e = Arena.freeSlot then .error (.freedSlot p.pageIndex slot) p else .ok e p := by
  obtain ⟨hlt, hget⟩ := getElem?_eq_some_iff.mp h
  simp only [entry, bind, EStateM.bind, checkSlotRange_in hlt]
  show (if p.slots.getD slot Arena.freeSlot = Arena.freeSlot then _ else _ : PageM Extent) p = _
  rw [List.getD_eq_getElem _ _ hlt, hget]
  split <;> rfl

theorem entry_cases (p : Page) (slot : ℕ) :
    (∃ e, p.slots[slot]? = some e ∧ e ≠ Arena.freeSlot ∧ entry slot p = .ok e p) ∨
      p.records slot = none ∧ ∃ refusal, entry slot p = .error refusal p := by
  by_cases hlt : slot < p.slots.length
  · have hget := List.getElem?_eq_getElem hlt
    by_cases hlive : p.slots[slot] = Arena.freeSlot
    · refine .inr ⟨?_, .freedSlot p.pageIndex slot, ?_⟩
      · rw [Page.records, Arena.getElem?_contents hget, hlive, Arena.content_freeSlot]
        rfl
      · rw [entry_in hget, if_pos hlive]
    · exact .inl ⟨_, hget, hlive, by rw [entry_in hget, if_neg hlive]⟩
  · refine .inr ⟨?_, .slot p.pageIndex slot p.slotCount, ?_⟩
    · rw [Page.records, List.getElem?_eq_none (by rw [Arena.length_contents]; exact not_lt.mp hlt)]
      rfl
    · simp only [entry, bind, EStateM.bind, checkSlotRange_out hlt]

theorem roomForSlot_eq (p : Page) (size : ℕ) : roomForSlot size p =
    if p.canFit size then .ok () p
    else if p.compactableSpace - slotEntrySize < size then
      .error (.pageFull (size + slotEntrySize) p.freeSpace p.pageIndex none) p
    else .ok () p.compacted := by
  show (if p.canFit size then _ else if p.compactableSpace - slotEntrySize < size then _ else _ : PageM Unit) p = _
  split
  · rfl
  · split <;> rfl

section
variable (h : p.Valid)
include h

theorem records_live (he : p.slots[slot]? = some e) (hlive : e ≠ Arena.freeSlot) :
    p.records slot = some (slice p.data e.1 e.2) ∧ (slice p.data e.1 e.2).length = e.2 := by
  refine ⟨?_, length_slice (h.sound.in_data (List.mem_of_getElem? he) hlive)⟩
  rw [Page.records, Arena.getElem?_contents he, Arena.content_live hlive]
  rfl

theorem roomForSlot_cases (size : ℕ) :
    (∃ q, roomForSlot size p = .ok () q ∧ p.Leaves p.contents q ∧ (size + slotEntrySize : ℤ) ≤ q.freeSpace) ∧
        (size + slotEntrySize : ℤ) ≤ p.compacted.freeSpace ∨
      roomForSlot size p = .error (.pageFull (size + slotEntrySize) p.freeSpace p.pageIndex none) p ∧
        p.compacted.freeSpace < size + slotEntrySize := by
  have hle := h.freeSpace_le
  rw [roomForSlot_eq, h.freeSpace_compacted]
  by_cases hfits : p.canFit size
  · rw [if_pos hfits]
    have hfits := Page.canFit_iff.mp hfits
    exact .inl ⟨⟨p, rfl, ⟨h, rfl, id, rfl⟩, hfits⟩, hfits.trans hle⟩
  · rw [if_neg hfits]
    by_cases hfull : p.compactableSpace - slotEntrySize < size
    · rw [if_pos hfull]
      exact .inr ⟨rfl, by omega⟩
    · rw [if_neg hfull]
      have hroom : (size + slotEntrySize : ℤ) ≤ p.compactableSpace := by omega
      exact .inl ⟨⟨p.compacted, rfl, h.compacted, h.freeSpace_compacted.symm ▸ hroom⟩, hroom⟩

theorem insertSlot_cases (payload : Bytes) :
    (∃ q, insertSlot payload p = .ok p.slots.length q ∧ p.Leaves (p.contents ++ [some payload]) q) ∧
        (payload.length + slotEntrySize : ℤ) ≤ p.compacted.freeSpace ∨
      insertSlot payload p = .error (.pageFull (payload.length + slotEntrySize) p.freeSpace p.pageIndex none) p ∧
        p.compacted.freeSpace < payload.length + slotEntrySize := by
  rcases roomForSlot_cases h payload.length with ⟨⟨q, hroom, hq, hfits⟩, hspace⟩ | ⟨hroom, hspace⟩
  · refine .inl ⟨⟨q.put (q.toArena.push payload) true, ?_, ?_⟩, hspace⟩
    · have hlength : q.slots.length = p.slots.length := by rw [hq.slots_length, Arena.length_contents]
      simp only [insertSlot, bind, EStateM.bind, hroom]
      show EStateM.Result.ok ((q.slots ++ [_]).length - 1) _ = _
      rw [List.length_append, ← hlength]
      rfl
    · rw [← hq.contents]
      exact hq.trans (hq.valid.pushed hfits)
  · refine .inr ⟨?_, hspace⟩
    simp only [insertSlot, bind, EStateM.bind, hroom]

theorem roomForPayload_leaves (hroom : (size : ℤ) ≤ p.compactableSpace) :
    ∃ q, roomForPayload size p = .ok () q ∧ p.Leaves p.contents q ∧ (size : ℤ) ≤ q.freeSpace := by
  by_cases hfull : p.freeSpace < size
  · refine ⟨p.compacted, ?_, h.compacted, h.freeSpace_compacted.symm ▸ hroom⟩
    show (if p.freeSpace < size then _ else _ : PageM Unit) p = _
    rw [if_pos hfull]
    rfl
  · refine ⟨p, ?_, ⟨h, rfl, id, rfl⟩, not_lt.mp hfull⟩
    show (if p.freeSpace < size then _ else _ : PageM Unit) p = _
    rw [if_neg hfull]
    rfl

end

theorem compactableSpace_erased (dirty : Bool) (he : p.slots[slot]? = some e) :
    (p.put (p.toArena.erase 0 slot e) dirty).compactableSpace = p.compactableSpace + e.2 := by
  obtain ⟨hlt, rfl⟩ := getElem?_eq_some_iff.mp he
  have hset : ∀ b : Extent, ((p.slots.set slot b).map Prod.snd).sum =
      ((p.slots.map Prod.snd).take slot).sum + b.2 + ((p.slots.map Prod.snd).drop (slot + 1)).sum := by
    intro b
    rw [List.map_set, List.sum_set, if_pos (by rwa [List.length_map])]
  have hfree := hset Arena.freeSlot
  have hold := hset p.slots[slot]
  rw [List.set_getElem_self] at hold
  simp only [Page.compactableSpace, Page.freeEnd, liveBytes_eq]
  show _ - ((p.slots.set slot Arena.freeSlot).length * slotEntrySize : ℤ) - _ - ((p.slots.set slot Arena.freeSlot).map Prod.snd).sum = _
  rw [List.length_set, hfree, hold]
  show _ - (((_ + 0 + _ : ℕ)) : ℤ) = _
  show (p.pageSize : ℤ) - _ - _ - _ = (p.pageSize : ℤ) - _ - _ - _ + _
  omega

section
variable (h : p.Valid)
include h

theorem relocate_leaves (he : p.slots[slot]? = some e) (hlive : e ≠ Arena.freeSlot)
    (hroom : (payload.length : ℤ) ≤ p.compactableSpace + e.2) :
    ∃ q, relocate slot e payload p = .ok () q ∧ p.Leaves (p.contents.set slot (some payload)) q := by
  have hlt : slot < p.slots.length := (getElem?_eq_some_iff.mp he).1
  have herased := h.erased p.dirty he hlive
  rw [← compactableSpace_erased p.dirty he] at hroom
  obtain ⟨q, hq, hleaves, hspace⟩ := roomForPayload_leaves herased.valid hroom
  have hcontents : q.contents = p.contents.set slot none := hleaves.contents.trans herased.contents
  have hfree : q.slots[slot]? = some Arena.freeSlot := by
    apply Arena.freeSlot_of_contents
    rw [hcontents, List.getElem?_set_self (by rwa [Arena.length_contents])]
  have hplaced := hleaves.valid.placed hfree hspace
  rw [hcontents, List.set_set] at hplaced
  refine ⟨q.put (q.toArena.place slot payload) true, ?_, (herased.trans hleaves).trans hplaced⟩
  simp only [relocate, bind, EStateM.bind, modify, modifyGet, MonadStateOf.modifyGet, EStateM.modifyGet, hq]

theorem updateSlot_cases (slot : ℕ) (payload : Bytes) :
    (∃ q, updateSlot slot payload p = .ok () q ∧ p.Leaves (p.contents.set slot (some payload)) q) ∧ p.records slot ≠ none ∨
      ∃ refusal, updateSlot slot payload p = .error refusal p := by
  rcases entry_cases p slot with ⟨e, he, hlive, hentry⟩ | ⟨-, refusal, hentry⟩
  · have hupdate : updateSlot slot payload p = (if payload.length ≤ e.2 then
        modify fun p => p.put (p.toArena.shrink 0 slot e payload) true
      else if p.compactableSpace + e.2 < payload.length then
        throw (.pageFull payload.length (max (p.compactableSpace + e.2) 0) p.pageIndex (some slot))
      else relocate slot e payload : PageM Unit) p := by
      simp only [updateSlot, bind, EStateM.bind, hentry]
      rfl
    have hrecord : p.records slot ≠ none := by
      rw [(records_live h he hlive).1]
      exact Option.some_ne_none _
    rw [hupdate]
    by_cases hle : payload.length ≤ e.2
    · rw [if_pos hle]
      exact .inl ⟨⟨_, rfl, h.shrunk he hlive hle⟩, hrecord⟩
    · rw [if_neg hle]
      by_cases hfull : p.compactableSpace + e.2 < payload.length
      · rw [if_pos hfull]
        exact .inr ⟨_, rfl⟩
      · rw [if_neg hfull]
        exact .inl ⟨relocate_leaves h he hlive (not_lt.mp hfull), hrecord⟩
  · refine .inr ⟨refusal, ?_⟩
    simp only [updateSlot, bind, EStateM.bind, hentry]

theorem freeSlot_cases (slot : ℕ) :
    (∃ length q, freeSlot slot p = .ok length q ∧ p.Leaves (p.contents.set slot none) q) ∧ p.records slot ≠ none ∨
      ∃ refusal, freeSlot slot p = .error refusal p := by
  rcases entry_cases p slot with ⟨e, he, hlive, hentry⟩ | ⟨-, refusal, hentry⟩
  · refine .inl ⟨⟨e.2, p.put (p.toArena.erase 0 slot e) true, ?_, h.erased true he hlive⟩, ?_⟩
    · simp only [freeSlot, bind, EStateM.bind, hentry]
      rfl
    · rw [(records_live h he hlive).1]
      exact Option.some_ne_none _
  · refine .inr ⟨refusal, ?_⟩
    simp only [freeSlot, bind, EStateM.bind, hentry]

end

end Grafx.Slotted
