import OktoGrafx.Index.TreePages
import OktoGrafx.Lib.TwoSlot

/-! The descriptors of an ordered index: one complete publication point on each of two pages. -/

namespace Grafx.Index

open Checked ByteCodec TwoSlot

inductive RootField where
  | formatVersion | flags | artifactNonce | generation | rootPage | height | entryCount | appliedThroughLsn | reconciledThroughLsn
  | definitionDigest | orderedRoot | checksum | magic | reserved | pageIndex | pageType | pageHeader | seq | slotCount | pageLsn
  deriving DecidableEq, Repr

inductive RootRefusal where
  | index (field : RootField) (value : ℕ)
  | schema (version : ℕ)
  | corrupt (field : RootField) (value : ℕ)
  deriving DecidableEq, Repr

/-! ## Descriptors -/

def orderedRootDescriptorFormatVersion : ℕ := 1

def orderedRootDescriptorMagic : Bytes := [0x47, 0x52, 0x46, 0x58, 0x4F, 0x52, 0x44, 0x52]

def definitionDigestSize : ℕ := 16

def rootBodySize : ℕ := 76

def checksumSize : ℕ := 4

def orderedRootDescriptorSize : ℕ := rootBodySize + checksumSize

def maxU16 : ℕ := 0xFFFF

structure RootFields where
  formatVersion : ℕ
  flags : ℕ
  artifactNonce : ℕ
  generation : ℕ
  rootPage : ℕ
  height : ℕ
  entryCount : ℕ
  appliedThroughLsn : ℕ
  reconciledThroughLsn : ℕ
  definitionDigest : Bytes
  deriving DecidableEq

def unsigned (field : RootField) (value maximum : ℕ) : Except RootRefusal Unit := ensure (value ≤ maximum) (.index field value)

def RootFields.check (f : RootFields) : Except RootRefusal Unit := do
  unsigned .formatVersion f.formatVersion maxU16
  unsigned .flags f.flags maxU16
  unsigned .artifactNonce f.artifactNonce maxU64
  unsigned .generation f.generation maxU64
  unsigned .rootPage f.rootPage noPage
  unsigned .height f.height maxU16
  unsigned .entryCount f.entryCount maxU64
  unsigned .appliedThroughLsn f.appliedThroughLsn maxU64
  unsigned .reconciledThroughLsn f.reconciledThroughLsn maxU64
  ensure (f.formatVersion ≤ orderedRootDescriptorFormatVersion) (.schema f.formatVersion)
  ensure (f.formatVersion ≠ 0) (.index .formatVersion 0)
  ensure (f.artifactNonce ≠ 0) (.index .artifactNonce 0)
  ensure (f.generation ≠ 0) (.index .generation 0)
  ensure (f.flags = 0) (.index .flags f.flags)
  ensure (f.appliedThroughLsn ≠ provisionalCsn) (.index .appliedThroughLsn provisionalCsn)
  ensure (f.reconciledThroughLsn ≠ provisionalCsn) (.index .reconciledThroughLsn provisionalCsn)
  ensure (f.reconciledThroughLsn ≤ f.appliedThroughLsn) (.index .reconciledThroughLsn f.reconciledThroughLsn)
  ensure (f.definitionDigest.length = definitionDigestSize) (.index .definitionDigest f.definitionDigest.length)
  ensure ((f.rootPage = noPage ↔ f.height = 0) ∧ (f.rootPage = noPage ↔ f.entryCount = 0)) (.index .rootPage f.rootPage)
  ensure (f.rootPage = noPage ∨ firstOrderedTreePage ≤ f.rootPage) (.index .rootPage f.rootPage)

structure OrderedRootDescriptor extends RootFields where
  valid : toRootFields.check = .ok ()
  deriving DecidableEq

theorem OrderedRootDescriptor.ext_fields {x y : OrderedRootDescriptor} (h : x.toRootFields = y.toRootFields) : x = y := by
  cases y
  cases h
  rfl

def RootFields.descriptor (f : RootFields) : Except RootRefusal OrderedRootDescriptor :=
  match h : f.check with
  | .ok () => .ok ⟨f, h⟩
  | .error e => .error e

theorem RootFields.descriptor_ok_iff {f : RootFields} {x : OrderedRootDescriptor} : f.descriptor = .ok x ↔ x.toRootFields = f := by
  unfold descriptor
  split
  · rename_i h
    constructor
    · intro heq
      rw [← Except.ok.inj heq]
    · intro heq
      exact congrArg Except.ok (OrderedRootDescriptor.ext_fields heq.symm)
  · rename_i e h
    constructor
    · exact nofun
    · intro heq
      have hvalid := x.valid
      rw [heq, h] at hvalid
      exact nomatch hvalid

section
variable (x : OrderedRootDescriptor)
include x

theorem RootFields.descriptor_eq : x.toRootFields.descriptor = .ok x := RootFields.descriptor_ok_iff.mpr rfl

theorem OrderedRootDescriptor.bounds :
    x.formatVersion = orderedRootDescriptorFormatVersion ∧ x.flags = 0 ∧ x.artifactNonce ≤ maxU64 ∧ x.generation ≤ maxU64 ∧
    x.rootPage ≤ noPage ∧ x.height ≤ maxU16 ∧ x.entryCount ≤ maxU64 ∧ x.appliedThroughLsn ≤ maxU64 ∧ x.reconciledThroughLsn ≤ maxU64 ∧
    x.definitionDigest.length = definitionDigestSize ∧ x.reconciledThroughLsn ≤ x.appliedThroughLsn := by
  have h := x.valid
  simp only [RootFields.check, unsigned, bind_ok_iff, ensure_ok_iff] at h
  obtain ⟨_, -, _, -, _, hnonce, _, hgeneration, _, hroot, _, hheight, _, hcount, _, happlied, _, hreconciled, _, hversion, _, hzero, _, -, _,
    -, _, hflags, _, -, _, -, _, hle, _, hdigest, _⟩ := h
  have hone : x.formatVersion = 1 := le_antisymm hversion (Nat.pos_of_ne_zero hzero)
  exact ⟨hone, hflags, hnonce, hgeneration, hroot, hheight, hcount, happlied, hreconciled, hdigest, hle⟩

/-! ## Bytes -/

def RootFields.body (f : RootFields) : Bytes :=
  orderedRootDescriptorMagic ++ (littleEndian 2 f.formatVersion ++ (littleEndian 2 f.flags ++ (littleEndian 8 f.artifactNonce ++
    (littleEndian 8 f.generation ++ (littleEndian 4 f.rootPage ++ (littleEndian 2 f.height ++ (littleEndian 2 0 ++
      (littleEndian 8 f.entryCount ++ (littleEndian 8 f.appliedThroughLsn ++ (littleEndian 8 f.reconciledThroughLsn ++
        f.definitionDigest))))))))))

def OrderedRootDescriptor.encode (x : OrderedRootDescriptor) : Bytes := x.body ++ littleEndian checksumSize (crc32c x.body).toNat

def unpackRootBody (body : Bytes) : RootFields × ℕ :=
  let (formatVersion, raw₁) := read 2 (body.drop 8)
  let (flags, raw₂) := read 2 raw₁
  let (artifactNonce, raw₃) := read 8 raw₂
  let (generation, raw₄) := read 8 raw₃
  let (rootPage, raw₅) := read 4 raw₄
  let (height, raw₆) := read 2 raw₅
  let (reserved, raw₇) := read 2 raw₆
  let (entryCount, raw₈) := read 8 raw₇
  let (appliedThroughLsn, raw₉) := read 8 raw₈
  let (reconciledThroughLsn, definitionDigest) := read 8 raw₉
  ({ formatVersion, flags, artifactNonce, generation, rootPage, height, entryCount, appliedThroughLsn, reconciledThroughLsn, definitionDigest },
    reserved)

def storedRoot (f : RootFields) : Except RootRefusal OrderedRootDescriptor :=
  match f.descriptor with
  | .ok x => .ok x
  | .error (.index field value) => .error (.corrupt field value)
  | .error (.schema version) => .error (.corrupt .formatVersion version)
  | .error (.corrupt field value) => .error (.corrupt field value)

def OrderedRootDescriptor.decode (raw : Bytes) : Except RootRefusal OrderedRootDescriptor := do
  ensure (raw.length = orderedRootDescriptorSize) (.corrupt .orderedRoot raw.length)
  let body := raw.take rootBodySize
  ensure (ofLittleEndian (raw.drop rootBodySize) = (crc32c body).toNat) (.corrupt .checksum (ofLittleEndian (raw.drop rootBodySize)))
  ensure (body.take 8 = orderedRootDescriptorMagic) (.corrupt .magic (ofLittleEndian (body.take 8)))
  let (fields, reserved) := unpackRootBody body
  ensure (fields.formatVersion ≤ orderedRootDescriptorFormatVersion) (.schema fields.formatVersion)
  ensure (fields.formatVersion ≠ 0) (.corrupt .formatVersion 0)
  ensure (reserved = 0) (.corrupt .reserved reserved)
  storedRoot fields

theorem OrderedRootDescriptor.body_length : x.body.length = rootBodySize := by
  have hdigest := x.bounds.2.2.2.2.2.2.2.2.2.1
  simp only [RootFields.body, List.length_append, littleEndian_length, hdigest]
  rfl

theorem OrderedRootDescriptor.unpack_body : unpackRootBody x.body = (x.toRootFields, 0) := by
  obtain ⟨hversion, hflags, hnonce, hgeneration, hroot, hheight, hcount, happlied, hreconciled, -⟩ := x.bounds
  have h64 : maxU64 < 256 ^ 8 := by decide
  have hversion' : x.formatVersion < 256 ^ 2 := by rw [hversion]; decide
  have hflags' : x.flags < 256 ^ 2 := by rw [hflags]; decide
  have hroot' : x.rootPage < 256 ^ 4 := hroot.trans_lt (by decide)
  have hheight' : x.height < 256 ^ 2 := hheight.trans_lt (by decide)
  have hmagic : x.body.drop 8 = littleEndian 2 x.formatVersion ++ (littleEndian 2 x.flags ++ (littleEndian 8 x.artifactNonce ++
      (littleEndian 8 x.generation ++ (littleEndian 4 x.rootPage ++ (littleEndian 2 x.height ++ (littleEndian 2 0 ++
        (littleEndian 8 x.entryCount ++ (littleEndian 8 x.appliedThroughLsn ++ (littleEndian 8 x.reconciledThroughLsn ++
          x.definitionDigest))))))))) := List.drop_left' rfl
  simp only [unpackRootBody, hmagic, read_append hversion', read_append hflags', read_append (hnonce.trans_lt h64),
    read_append (hgeneration.trans_lt h64), read_append hroot', read_append hheight', read_append (show 0 < 256 ^ 2 by decide),
    read_append (hcount.trans_lt h64), read_append (happlied.trans_lt h64),
    read_append (hreconciled.trans_lt h64)]

theorem OrderedRootDescriptor.decode_encode : decode x.encode = .ok x := by
  have hlength : x.encode.length = orderedRootDescriptorSize := by
    rw [encode, List.length_append, x.body_length, littleEndian_length]
    rfl
  have htake : x.encode.take rootBodySize = x.body := List.take_left' x.body_length
  have hdrop : x.encode.drop rootBodySize = littleEndian checksumSize (crc32c x.body).toNat := List.drop_left' x.body_length
  have hcrc : ofLittleEndian (littleEndian checksumSize (crc32c x.body).toNat) = (crc32c x.body).toNat :=
    ofLittleEndian_littleEndian (crc32c x.body).toNat_lt
  have hmagic : x.body.take 8 = orderedRootDescriptorMagic := List.take_left' rfl
  have hversion := x.bounds.1
  have hstored : storedRoot x.toRootFields = .ok x := by rw [storedRoot, RootFields.descriptor_eq]
  rw [decode]
  simp only [hlength, htake, hdrop, hcrc, hmagic, x.unpack_body, hversion, bind_ok_iff, ensure_ok_iff]
  exact ⟨⟨⟩, trivial, ⟨⟩, trivial, ⟨⟩, trivial, ⟨⟩, le_rfl, ⟨⟩, by decide, ⟨⟩, trivial, hstored⟩

/-! ## Pages -/

def rootPageOf : Slot → ℕ
  | .a => 1
  | .b => 2

def makeOrderedRootPage (x : OrderedRootDescriptor) (slot : Slot) (pageSize : ℕ) : TreePage :=
  (TreePage.new .indexOrderedRoot pageSize (rootPageOf slot) x.appliedThroughLsn).insertSlot x.encode

def readRootSlot (p : TreePage) : Except RootRefusal OrderedRootDescriptor :=
  match p.slots with
  | [some raw] => OrderedRootDescriptor.decode raw
  | [none] => .error (.corrupt .orderedRoot 0)
  | slots => .error (.corrupt .slotCount slots.length)

def decodeOrderedRootPage (p : TreePage) : Except RootRefusal OrderedRootDescriptor := do
  ensure (p.pageIndex = rootPageOf .a ∨ p.pageIndex = rootPageOf .b) (.corrupt .pageIndex p.pageIndex)
  ensure (p.pageType = .indexOrderedRoot) (.corrupt .pageType p.pageIndex)
  ensure (p.flags = 0 ∧ p.nextPage = none ∧ p.reserved = 0) (.corrupt .pageHeader p.pageIndex)
  ensure (p.seq % 2 = 0) (.corrupt .seq p.seq)
  let x ← readRootSlot p
  ensure (p.pageLsn = x.appliedThroughLsn) (.corrupt .pageLsn p.pageLsn)
  return x

theorem decode_makeOrderedRootPage (slot : Slot) (pageSize : ℕ) : decodeOrderedRootPage (makeOrderedRootPage x slot pageSize) = .ok x := by
  have hindex : rootPageOf slot = rootPageOf .a ∨ rootPageOf slot = rootPageOf .b := by cases slot <;> decide
  have hslot : readRootSlot (makeOrderedRootPage x slot pageSize) = .ok x := x.decode_encode
  simp only [decodeOrderedRootPage, bind_ok_iff, ensure_ok_iff, pure_ok_iff]
  exact ⟨⟨⟩, hindex, ⟨⟩, rfl, ⟨⟩, ⟨rfl, rfl, rfl⟩, ⟨⟩, rfl, x, hslot, ⟨⟩, rfl, rfl⟩

/-! ## Selection -/

structure OrderedRootSelection where
  descriptor : OrderedRootDescriptor
  page : Slot
  publicationPage : Slot
  damagedPages : List Slot
  deriving DecidableEq

/-- Damage reads as nothing; a page of another slot and a later format are refused. -/
def readRoot (slot : Slot) (page : Option TreePage) : Except RootRefusal (Option OrderedRootDescriptor) :=
  match page with
  | none => .ok none
  | some p => do
    ensure (p.pageIndex = rootPageOf slot) (.corrupt .pageIndex p.pageIndex)
    match decodeOrderedRootPage p with
    | .ok x => return some x
    | .error (.schema version) => .error (.schema version)
    | .error _ => return none

def chooseRoot (first second : Option OrderedRootDescriptor) : Except RootRefusal OrderedRootSelection :=
  match first, second with
  | none, none => .error (.corrupt .orderedRoot 0)
  | some x, none => .ok ⟨x, .a, .b, [.b]⟩
  | none, some y => .ok ⟨y, .b, .a, [.a]⟩
  | some x, some y => do
    ensure (x.artifactNonce = y.artifactNonce) (.corrupt .artifactNonce x.artifactNonce)
    ensure (x.definitionDigest = y.definitionDigest) (.corrupt .definitionDigest 0)
    if x.generation = y.generation then do
      ensure (x = y) (.corrupt .generation x.generation)
      return ⟨x, .a, .b, []⟩
    else do
      ensure (x.generation = y.generation + 1 ∨ y.generation = x.generation + 1) (.corrupt .generation x.generation)
      return if y.generation < x.generation then ⟨x, .a, .b, []⟩ else ⟨y, .b, .a, []⟩

def selectOrderedRoot (pageA pageB : Option TreePage) : Except RootRefusal OrderedRootSelection := do
  let first ← readRoot .a pageA
  let second ← readRoot .b pageB
  chooseRoot first second

theorem readRoot_make (slot : Slot) (pageSize : ℕ) : readRoot slot (some (makeOrderedRootPage x slot pageSize)) = .ok (some x) := by
  rw [readRoot, decode_makeOrderedRootPage, ensure_pos (show (makeOrderedRootPage x slot pageSize).pageIndex = rootPageOf slot from rfl)]
  rfl

end

/-- An older root of the same index: the very same one, or the one before. -/
def RootBehind (slot : Slot) (y x : OrderedRootDescriptor) : Prop :=
  y.artifactNonce = x.artifactNonce ∧ y.definitionDigest = x.definitionDigest ∧ (y = x ∧ slot = .a ∨ y.generation + 1 = x.generation)

theorem chooseRoot_current {roots : Slots OrderedRootDescriptor} {slot : Slot} {x : OrderedRootDescriptor} (h : Current RootBehind roots slot x) :
    ∃ damaged, chooseRoot (roots .a) (roots .b) = .ok ⟨x, slot, slot.other, damaged⟩ := by
  cases slot with
  | a =>
    rw [h.here]
    cases hother : roots .b with
    | none => exact ⟨_, rfl⟩
    | some y =>
      obtain ⟨hnonce, hdigest, hold⟩ := h.behind y hother
      refine ⟨[], ?_⟩
      simp only [chooseRoot, ensure_pos hnonce.symm, ensure_pos hdigest.symm, ok_bind]
      rcases hold with ⟨rfl, -⟩ | hold
      · rw [if_pos rfl, ensure_pos rfl]
        rfl
      · rw [if_neg (by omega), ensure_pos (.inl hold.symm), ok_bind, if_pos (by omega)]
        rfl
  | b =>
    rw [h.here]
    cases hother : roots .a with
    | none => exact ⟨_, rfl⟩
    | some y =>
      obtain ⟨hnonce, hdigest, hold⟩ := h.behind y hother
      refine ⟨[], ?_⟩
      simp only [chooseRoot, ensure_pos hnonce, ensure_pos hdigest, ok_bind]
      rcases hold with ⟨-, hslot⟩ | hold
      · cases hslot
      · rw [if_neg (by omega), ensure_pos (.inr hold.symm), ok_bind, if_neg (by omega)]
        rfl

end Grafx.Index
