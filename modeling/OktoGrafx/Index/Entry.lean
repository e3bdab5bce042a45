import OktoGrafx.Index.OrderedKeys
import OktoGrafx.Wal.Record

/-! Entries and child pointers of an ordered tree, and the bytes they take in a slot. -/

namespace Grafx.Index

open ByteCodec

def maxIndexKeyBytes : ℕ := 0xFFFF

def noPage : ℕ := 0xFFFFFFFF

def firstOrderedTreePage : ℕ := 3

/-- Refusals of the ordered tree. `stored` tells damage from a bad argument. -/
inductive TreeRefusal where
  | entryLength (length : ℕ)
  | entryKeyLength (keyLength length : ℕ)
  | entryFlags (flags : ℕ)
  | bornProvisional
  | deadProvisional
  | unversionedBirth (bornCsn : ℕ)
  | versionedBirth
  | recordRef (raw : ℕ)
  | internalEntryLength (length : ℕ)
  | internalKeyLength (keyLength length : ℕ)
  | keyLength (length : ℕ) (stored : Bool)
  | childPage (page : ℕ)
  | pageType (page : ℕ) (observed expected : PageType)
  | pageHeader (page flags : ℕ) (nextPage : Option ℕ) (reserved : ℕ)
  | oddSeq (page seq : ℕ)
  | emptyPage (page : ℕ)
  | noLiveSlot (page : ℕ)
  | versionedEntry (page slot : ℕ)
  | entryOrder (page slot : ℕ)
  | childFollows (child page slot : ℕ)
  | childTwice (child page slot : ℕ)
  | pageSize (value : ℕ)
  | pageLsn (value : ℕ)
  | startPage (value : ℕ)
  | versionedInput
  | versionedChange (index : String)
  | resetChange (index : String)
  | duplicateIdentity (key : Bytes) (ref : ℕ)
  | recordSize (pageSize recordSize : ℕ)
  | pageIndexSpace (pageIndex : ℕ)
  | cannotReduce (pageSize : ℕ)
  | absentPage (page : ℕ)
  | wrongPage (observed expected : ℕ)
  | unresolvedPage (page : ℕ)
  | childCycle (page : ℕ)
  | separator (page child : ℕ)
  | childRange (page child : ℕ)
  | entryCount (expected actual : ℤ)
  | emptyRoot (height : ℕ) (entryCount : Option ℕ)
  | height (height : ℕ) (rootPage : ℕ)
  deriving DecidableEq, Repr

/-! ## Entries -/

def entryFlagVersioned : ℕ := 0x01

def indexEntryHeaderSize : ℕ := 27

/-- One key of one heap version. `page` and `slot` say where it was read, and are not stored. -/
@[ext] structure IndexEntry where
  key : Bytes
  ref : StoredRef
  versioned : Bool
  bornCsn : ℕ
  deadCsn : ℕ
  page : ℕ
  slot : ℕ
  key_le : key.length ≤ maxIndexKeyBytes
  born_lt : bornCsn < provisionalCsn
  dead_lt : deadCsn < provisionalCsn
  stamped : versioned = true ↔ bornCsn ≠ noCsn

namespace IndexEntry

def live (e : IndexEntry) : Bool := e.deadCsn == noCsn

def identity (e : IndexEntry) : Identity := orderedEntryIdentity e.key e.ref

def locatedAt (e : IndexEntry) (page slot : ℕ) : IndexEntry := { e with page, slot }

def endedAt (e : IndexEntry) (csn : ℕ) (h : csn < provisionalCsn) : IndexEntry := { e with deadCsn := csn, dead_lt := h }

def bare (e : IndexEntry) : IndexEntry := e.locatedAt noPage 0

variable (e : IndexEntry)
include e

def encode (e : IndexEntry) : Bytes :=
  littleEndian 1 (if e.versioned then entryFlagVersioned else 0) ++ (littleEndian 2 e.key.length ++
    (littleEndian 8 e.ref.encode ++ (littleEndian 8 e.bornCsn ++ (littleEndian 8 e.deadCsn ++ e.key))))

@[simp] theorem encode_length : e.encode.length = indexEntryHeaderSize + e.key.length := by
  simp only [encode, List.length_append, littleEndian_length, indexEntryHeaderSize]
  omega

structure Fields where
  flags : ℕ
  keyLength : ℕ
  ref : ℕ
  bornCsn : ℕ
  deadCsn : ℕ
  key : Bytes

def unpack (raw : Bytes) : Fields :=
  let (flags, raw₁) := read 1 raw
  let (keyLength, raw₂) := read 2 raw₁
  let (ref, raw₃) := read 8 raw₂
  let (bornCsn, raw₄) := read 8 raw₃
  let (deadCsn, key) := read 8 raw₄
  { flags, keyLength, ref, bornCsn, deadCsn, key }

theorem unpack_encode : unpack e.encode =
    ⟨if e.versioned then entryFlagVersioned else 0, e.key.length, e.ref.encode, e.bornCsn, e.deadCsn, e.key⟩ := by
  have hkey : e.key.length < 256 ^ 2 := Nat.lt_succ_of_le e.key_le
  have href : e.ref.encode < 256 ^ 8 := e.ref.encode_le.trans_lt (by decide)
  have hborn : e.bornCsn < 256 ^ 8 := e.born_lt.trans (by decide)
  have hdead : e.deadCsn < 256 ^ 8 := e.dead_lt.trans (by decide)
  have hflags : (if e.versioned then entryFlagVersioned else 0) < 256 ^ 1 := by split <;> decide
  simp only [unpack, encode, read_append hflags, read_append hkey, read_append href, read_append hborn, read_append hdead]

def check (f : Fields) : Except TreeRefusal IndexEntry :=
  let versioned := f.flags == entryFlagVersioned
  if 1 < f.flags then .error (.entryFlags f.flags)
  else if hborn : f.bornCsn < provisionalCsn then
    if hdead : f.deadCsn < provisionalCsn then
      if hstamped : versioned = true ↔ f.bornCsn ≠ noCsn then
        if hkey : f.key.length ≤ maxIndexKeyBytes then
          match StoredRef.decode f.ref with
          | some ref => .ok ⟨f.key, ref, versioned, f.bornCsn, f.deadCsn, noPage, 0, hkey, hborn, hdead, hstamped⟩
          | none => .error (.recordRef f.ref)
        else .error (.keyLength f.key.length true)
      else if versioned then .error .versionedBirth else .error (.unversionedBirth f.bornCsn)
    else .error .deadProvisional
  else .error .bornProvisional

def decode (raw : Bytes) : Except TreeRefusal IndexEntry :=
  if raw.length < indexEntryHeaderSize then .error (.entryLength raw.length)
  else if raw.length ≠ indexEntryHeaderSize + (unpack raw).keyLength then
    .error (.entryKeyLength (unpack raw).keyLength raw.length)
  else check (unpack raw)

theorem decode_encode : decode e.encode = .ok e.bare := by
  have hversioned : ((if e.versioned then entryFlagVersioned else 0) == entryFlagVersioned) = e.versioned := by
    cases e.versioned <;> rfl
  have hbit : ¬ 1 < (if e.versioned then entryFlagVersioned else 0) := by cases e.versioned <;> decide
  have hlong : ¬ indexEntryHeaderSize + e.key.length < indexEntryHeaderSize := not_lt.mpr (Nat.le_add_right _ _)
  rw [decode, e.encode_length, e.unpack_encode, if_neg hlong, if_neg (not_not.mpr rfl), check]
  simp only [hversioned, hbit, if_false]
  rw [dif_pos e.born_lt, dif_pos e.dead_lt, dif_pos e.stamped, dif_pos e.key_le, StoredRef.decode_encode]
  rfl

end IndexEntry

/-! ## Child pointers -/

def orderedInternalEntrySize : ℕ := 14

def keyBytes (key : Bytes) (stored : Bool) : Except TreeRefusal Unit :=
  if key ≠ [] ∧ key.length ≤ maxIndexKeyBytes then .ok () else .error (.keyLength key.length stored)

structure High where
  key : Bytes
  ref : StoredRef
  deriving DecidableEq

def High.identity (h : High) : Identity := orderedEntryIdentity h.key h.ref

def IndexEntry.high (e : IndexEntry) : High := ⟨e.key, e.ref⟩

theorem High.identity_injective : Function.Injective High.identity := by
  intro a b h
  obtain ⟨hkey, href⟩ := Prod.mk.inj (toLex_inj.mp h)
  exact High.mk.injEq .. ▸ ⟨hkey, StoredRef.encode_injective href⟩

structure ChildPointer where
  high : High
  childPage : ℕ
  key_ne : high.key ≠ []
  key_le : high.key.length ≤ maxIndexKeyBytes
  first_le : firstOrderedTreePage ≤ childPage
  child_lt : childPage < noPage
  deriving DecidableEq

namespace ChildPointer

def make (high : High) (childPage : ℕ) : Except TreeRefusal ChildPointer :=
  if hkey : high.key ≠ [] ∧ high.key.length ≤ maxIndexKeyBytes then
    if hpage : firstOrderedTreePage ≤ childPage ∧ childPage < noPage then
      .ok ⟨high, childPage, hkey.1, hkey.2, hpage.1, hpage.2⟩
    else .error (.childPage childPage)
  else .error (.keyLength high.key.length false)

def encode (p : ChildPointer) : Bytes :=
  littleEndian 2 p.high.key.length ++ (littleEndian 4 p.childPage ++ (littleEndian 8 p.high.ref.encode ++ p.high.key))

variable (p : ChildPointer)
include p

@[simp] theorem encode_length : p.encode.length = orderedInternalEntrySize + p.high.key.length := by
  simp only [encode, List.length_append, littleEndian_length, orderedInternalEntrySize]
  omega

def unpack (raw : Bytes) : ℕ × ℕ × ℕ × Bytes :=
  let (keyLength, raw₁) := read 2 raw
  let (childPage, raw₂) := read 4 raw₁
  let (ref, key) := read 8 raw₂
  (keyLength, childPage, ref, key)

theorem unpack_encode : unpack p.encode = (p.high.key.length, p.childPage, p.high.ref.encode, p.high.key) := by
  have hkey : p.high.key.length < 256 ^ 2 := Nat.lt_succ_of_le p.key_le
  have hchild : p.childPage < 256 ^ 4 := p.child_lt.trans (by decide)
  have href : p.high.ref.encode < 256 ^ 8 := p.high.ref.encode_le.trans_lt (by decide)
  simp only [unpack, encode, read_append hkey, read_append hchild, read_append href]

def decode (raw : Bytes) : Except TreeRefusal ChildPointer :=
  match unpack raw with
  | (keyLength, childPage, ref, key) =>
    if raw.length < orderedInternalEntrySize then .error (.internalEntryLength raw.length)
    else if raw.length ≠ orderedInternalEntrySize + keyLength then .error (.internalKeyLength keyLength raw.length)
    else match keyBytes key true with
      | .error e => .error e
      | .ok _ =>
        match StoredRef.decode ref with
        | some ref => make ⟨key, ref⟩ childPage
        | none => .error (.recordRef ref)

theorem make_eq : make p.high p.childPage = .ok p := by
  rw [make, dif_pos ⟨p.key_ne, p.key_le⟩, dif_pos ⟨p.first_le, p.child_lt⟩]

theorem decode_encode : decode p.encode = .ok p := by
  have hlong : ¬ orderedInternalEntrySize + p.high.key.length < orderedInternalEntrySize :=
    not_lt.mpr (Nat.le_add_right _ _)
  have hkey : keyBytes p.high.key true = .ok () := if_pos ⟨p.key_ne, p.key_le⟩
  rw [decode, p.unpack_encode, p.encode_length]
  simp only [hlong, hkey, StoredRef.decode_encode, ne_eq, not_true_eq_false, if_false]
  exact p.make_eq

end ChildPointer

/-! ## Changes -/

@[ext] structure TreeChange where
  index : String
  operation : Wal.IndexOperation
  key : Bytes
  ref : StoredRef
  csn : ℕ
  versioned : Bool
  key_le : key.length ≤ maxIndexKeyBytes
  csn_lt : csn < provisionalCsn
  insert_csn : operation = .insert → (versioned = true ↔ csn ≠ noCsn)
  tombstone_csn : operation = .tombstone → csn ≠ noCsn
  reset_key : operation = .reset → key = []

instance : DecidableEq TreeChange := fun _ _ => decidable_of_iff' _ TreeChange.ext_iff

def TreeChange.identity (c : TreeChange) : Identity := orderedEntryIdentity c.key c.ref

theorem noCsn_lt : noCsn < provisionalCsn := by decide

theorem unstamped : false = true ↔ noCsn ≠ noCsn := by decide

theorem one_le_maxPageIndex : 1 ≤ maxPageIndex := by decide

def TreeChange.entry (c : TreeChange) : IndexEntry :=
  ⟨c.key, c.ref, false, noCsn, noCsn, noPage, 0, c.key_le, noCsn_lt, noCsn_lt, unstamped⟩

def IndexEntry.insertion (index : String) (e : IndexEntry) : TreeChange :=
  ⟨index, .insert, e.key, e.ref, noCsn, false, e.key_le, by decide, by decide, nofun, nofun⟩

@[simp] theorem TreeChange.identity_entry (c : TreeChange) : c.entry.identity = c.identity := rfl

end Grafx.Index
