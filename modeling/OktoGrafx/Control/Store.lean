import OktoGrafx.Control.Record
import OktoGrafx.Lib.Paged
import OktoGrafx.Lib.TwoSlot

/-! The store of a two-slot control record. A call is given by the writes it makes, each behind a
barrier, and by what it returns. -/

namespace Grafx.Control

open Checked TwoSlot

def controlFilePages : ℕ := 3

def controlHeaderPage : ℕ := 0

def controlSlotPage : Slot → ℕ
  | .a => 1
  | .b => 2

def controlReadAttempts : ℕ := 4

structure ControlRecordRead where
  payload : Bytes
  formatVersion : ℕ
  generation : ℕ
  validPayloads : List Bytes
  deriving DecidableEq

inductive Write where
  | replace (image : Bytes)
  | page (slot : Slot) (raw : Bytes)

structure Outcome where
  writes : List Write
  lastSeen : ℕ
  result : Except ControlRefusal ℕ

def Outcome.refuse (lastSeen : ℕ) (e : ControlRefusal) : Outcome := ⟨[], lastSeen, .error e⟩

def Outcome.after (w : Write) (o : Outcome) : Outcome := { o with writes := w :: o.writes }

structure Publish where
  payload : Bytes
  expectedCurrent : Option (List (Option Bytes))
  publications : ℕ
  replaceDamaged : Bool

def Publish.accepts (c : Publish) (observed : Option Bytes) : Bool :=
  match c.expectedCurrent with
  | none => true
  | some expected => expected.contains observed

section Store
variable (b : ControlBinding)

def expectedSize : ℕ := controlFilePages * b.pageSize

def Write.apply (w : Write) (file : Option Bytes) : Option Bytes :=
  match w with
  | .replace image => some image
  | .page slot raw => file.map fun image => Paged.setPage b.pageSize image (controlSlotPage slot) raw

/-! ## Reading -/

def decodeSlots (image : Bytes) : Except ControlRefusal (ControlHeader × Slots SlotRecord) := do
  ensure (image.length = expectedSize b) (.corrupt .length image.length)
  let header ← decodeHeader b (Paged.page b.pageSize image controlHeaderPage)
  let first ← decodeSlot b header (Paged.page b.pageSize image (controlSlotPage .a))
  let second ← decodeSlot b header (Paged.page b.pageSize image (controlSlotPage .b))
  return (header, fun
    | .a => first
    | .b => second)

def populated (slots : Slots SlotRecord) : Slots SlotRecord := fun k => (slots k).filter fun x => decide (0 < x.generation)

def selectSlot (slots : Slots SlotRecord) : Except ControlRefusal (Option SlotRecord × Slot) :=
  match populated slots .a, populated slots .b with
  | some x, some y =>
    if x.generation = y.generation then .error (.corrupt .generation x.generation)
    else if y.generation < x.generation then .ok (some x, .b) else .ok (some y, .a)
  | some x, none => .ok (some x, .b)
  | none, some y => .ok (some y, .a)
  | none, none => .ok (none, if (slots .a).isSome then .a else if (slots .b).isSome then .b else .a)

def validPayloads (slots : Slots SlotRecord) : List Bytes :=
  ([populated slots .a, populated slots .b].reduceOption.insertionSort fun x y => y.generation ≤ x.generation).map (·.payload)

def readOnce (lastSeen : ℕ) (image : Bytes) : Except ControlRefusal ControlRecordRead := do
  let (_, slots) ← decodeSlots b image
  match ← selectSlot slots with
  | (none, _) => .error (.corrupt .slots 0)
  | (some x, _) => do
    ensure (lastSeen ≤ x.generation) (.corrupt .generation x.generation)
    return ⟨x.payload, 2, x.generation, validPayloads slots⟩

def readAttempts (lastSeen : ℕ) (image : Bytes) : ℕ → Except ControlRefusal ControlRecordRead
  | 0 => readOnce b lastSeen image
  | n + 1 =>
    match readOnce b lastSeen image with
    | .ok r => .ok r
    | .error (.corrupt _ _) => readAttempts lastSeen image n
    | .error e => .error e

def read (file : Option Bytes) (lastSeen : ℕ) : Except ControlRefusal (Option ControlRecordRead) :=
  match file with
  | none => .ok none
  | some image =>
    if image.length = expectedSize b then (readAttempts b lastSeen image (controlReadAttempts - 1)).map some
    else .ok (some ⟨image, 1, 0, [image]⟩)

/-! ## Publishing -/

def bootstrapImage (h : ControlHeader) (payload : Bytes) : Except ControlRefusal Bytes := do
  let header ← headerPage b h
  let first ← encodeSlot b h ⟨1, payload⟩
  let second ← encodeSlot b h ⟨0, []⟩
  return header ++ (first ++ second)

def decodeCompleteImage (image : Bytes) : Except ControlRefusal (ControlHeader × Option SlotRecord × Slot) := do
  let (header, slots) ← decodeSlots b image
  let (chosen, target) ← selectSlot slots
  return (header, chosen, target)

def advance (h : ControlHeader) (payload : Bytes) : ℕ → ℕ → Slot → ℕ → Outcome
  | 0, generation, _, lastSeen => ⟨[], lastSeen, .ok generation⟩
  | n + 1, generation, target, lastSeen =>
    match encodeSlot b h ⟨generation + 1, payload⟩ with
    | .error e => .refuse lastSeen e
    | .ok raw => .after (.page target raw) (advance h payload n (generation + 1) target.other (generation + 1))

def publishSlots (payload : Bytes) (publications lastSeen : ℕ) (header : ControlHeader) (chosen : Option SlotRecord) (target : Slot) : Outcome :=
  match chosen with
  | none => .refuse lastSeen (.corrupt .slots 0)
  | some x =>
    if maxU64 < x.generation + publications then .refuse lastSeen (.corrupt .generation x.generation)
    else advance b header payload publications x.generation target lastSeen

def bootstrapThen (h : ControlHeader) (payload : Bytes) (publications lastSeen : ℕ)
    (next : ℕ → ℕ → ControlHeader → Option SlotRecord → Slot → Outcome) : Outcome :=
  match bootstrapImage b h payload with
  | .error e => .refuse lastSeen e
  | .ok image =>
    .after (.replace image) <|
      if publications = 1 then ⟨[], 1, .ok 1⟩
      else
        match decodeCompleteImage b image with
        | .error e => .refuse 1 e
        | .ok (header, chosen, target) => next (publications - 1) 1 header chosen target

def damageIsReplaceable : ControlRefusal → Bool
  | .corrupt .checksum _ => true
  | .corrupt .headerCrc32c _ => true
  | .corrupt .slots _ => true
  | _ => false

def publishExpected (c : Publish) (publications lastSeen : ℕ) (header : ControlHeader) (chosen : Option SlotRecord) (target : Slot) : Outcome :=
  if c.accepts (chosen.map (·.payload)) then publishSlots b c.payload publications lastSeen header chosen target
  else .refuse lastSeen (.corrupt .currentPayload 0)

def publishNew (h : ControlHeader) (c : Publish) (lastSeen : ℕ) (observed : Option Bytes) : Outcome :=
  if c.accepts observed then bootstrapThen b h c.payload c.publications lastSeen (publishSlots b c.payload)
  else .refuse lastSeen (.corrupt .currentPayload 0)

def publishOver (h : ControlHeader) (c : Publish) (lastSeen : ℕ) (image : Bytes) : Outcome :=
  match decodeCompleteImage b image with
  | .error e =>
    if c.replaceDamaged && damageIsReplaceable e then bootstrapThen b h c.payload c.publications lastSeen (publishExpected b c)
    else .refuse lastSeen e
  | .ok (header, chosen, target) =>
    if chosen.isNone && c.replaceDamaged then bootstrapThen b h c.payload c.publications lastSeen (publishExpected b c)
    else publishExpected b c c.publications lastSeen header chosen target

def publishChecked (h : ControlHeader) (c : Publish) (file : Option Bytes) (lastSeen : ℕ) : Outcome :=
  if c.publications = 0 then .refuse lastSeen (.configuration .publications 0)
  else if c.expectedCurrent = some [] then .refuse lastSeen (.configuration .expectedCurrent 0)
  else
    match file with
    | none => publishNew b h c lastSeen none
    | some image =>
      -- Of a longer file only so much is read as shows its format.
      if image.length = expectedSize b then publishOver b h c lastSeen image
      else publishNew b h c lastSeen (some (image.take (expectedSize b + 1)))

end Store

end Grafx.Control
