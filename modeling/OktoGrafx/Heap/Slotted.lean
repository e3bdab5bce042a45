import OktoGrafx.Domain.Record

/-! The slot operations of a heap page: insertion, replacement, freeing and compaction, with the
space accounting that decides which of them fit. -/

namespace Grafx

def fileHeaderSize : ℕ := 28

def RecordBody.size : RecordBody → ℕ
  | inline payload => payload.length
  | overflow _ => overflowPointerSize

def Cell.size : Cell → ℕ
  | heapHeader _ => fileHeaderSize
  | extent _ => directoryEntrySize
  | descriptor _ => tableDescriptorSize
  | record _ body => recordHeaderSize + body.size
  | chunk bytes => bytes.length

namespace Page
variable (pageSize : ℕ) (p : Page Cell) {c : Cell} {q : Page Cell} {slot : ℕ}

def freeEnd : ℕ := pageSize - p.slots.length * slotEntrySize

def freeSpace : ℕ := p.freeEnd pageSize - p.freeStart

def canFit (payloadSize : ℕ) : Bool := decide (payloadSize + slotEntrySize ≤ p.freeSpace pageSize)

def liveBytes : ℕ := ((p.slots.filterMap id).map Cell.size).sum

def compactableSpace : ℕ := p.freeEnd pageSize - pageHeaderSize - p.liveBytes

def compact : Page Cell := { p with freeStart := pageHeaderSize + p.liveBytes }

def clear : Page Cell := { p with slots := [], freeStart := pageHeaderSize }

def appendSlot (c : Cell) : Page Cell := { p with freeStart := p.freeStart + c.size, slots := p.slots ++ [some c] }

def insertSlot (c : Cell) : Option (Page Cell × ℕ) :=
  if p.canFit pageSize c.size then some (p.appendSlot c, p.slots.length)
  -- The directory grows by one entry, so the payload area loses those bytes too.
  else if p.compactableSpace pageSize < c.size + slotEntrySize then none
  else some (p.compact.appendSlot c, p.slots.length)

def freeSlot (slot : ℕ) : Page Cell := { p with slots := p.slots.set slot none }

def makeRoom (size : ℕ) : Page Cell := if p.freeSpace pageSize < size then p.compact else p

/-- In place when it is not larger, else moved inside the page. -/
def updateSlot (slot : ℕ) (c : Cell) : Option (Page Cell) :=
  match p.slots[slot]? with
  | some (some old) =>
    if c.size ≤ old.size then some { p with slots := p.slots.set slot (some c) }
    else if p.compactableSpace pageSize + old.size < c.size then none
    else
      let roomy := (p.freeSlot slot).makeRoom pageSize c.size
      some { roomy with freeStart := roomy.freeStart + c.size, slots := roomy.slots.set slot (some c) }
  | _ => none

variable {pageSize p}

theorem insertSlot_eq_some (h : p.insertSlot pageSize c = some (q, slot)) :
    slot = p.slots.length ∧ q = { p with freeStart := q.freeStart, slots := p.slots ++ [some c] } := by
  unfold insertSlot at h
  split_ifs at h
  · cases h
    exact ⟨rfl, rfl⟩
  · cases h
    exact ⟨rfl, rfl⟩

theorem makeRoom_eq (size : ℕ) : ∃ mark, p.makeRoom pageSize size = { p with freeStart := mark } := by
  unfold makeRoom
  split_ifs
  · exact ⟨_, rfl⟩
  · exact ⟨_, rfl⟩

theorem updateSlot_eq_some (h : p.updateSlot pageSize slot c = some q) :
    q = { p with freeStart := q.freeStart, slots := p.slots.set slot (some c) } := by
  unfold updateSlot at h
  match hslot : p.slots[slot]? with
  | none | some none => simp [hslot] at h
  | some (some old) =>
    simp only [hslot] at h
    by_cases hin : c.size ≤ old.size
    · rw [if_pos hin] at h
      rw [← Option.some.inj h]
    · rw [if_neg hin] at h
      by_cases hroom : p.compactableSpace pageSize + old.size < c.size
      · simp [hroom] at h
      · rw [if_neg hroom] at h
        obtain ⟨mark, hmark⟩ : ∃ mark, (p.freeSlot slot).makeRoom pageSize c.size = _ := makeRoom_eq c.size
        rw [← Option.some.inj h, hmark]
        simp only [freeSlot, List.set_set]

theorem updateSlot_of_size_le {old : Cell} (hslot : p.slots[slot]? = some (some old))
    (hsize : c.size ≤ old.size) : p.updateSlot pageSize slot c = some { p with slots := p.slots.set slot (some c) } := by
  simp [updateSlot, hslot, hsize]

end Page
end Grafx
