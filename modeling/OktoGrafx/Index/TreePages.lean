import OktoGrafx.Index.Entry
import OktoGrafx.Lib.Checked
import OktoGrafx.Lib.Keyed

/-! Pages of an ordered tree. A leaf holds entries, an internal page the highest identity and the page
of each child, both in ascending order. -/

namespace Grafx.Index

open Checked

variable {slots : List (ℕ × Bytes)} {ps : List ChildPointer} {es : List IndexEntry} {previous : Option Identity} {page : ℕ}

structure TreePage extends Page Bytes where
  pageIndex : ℕ
  pageSize : ℕ
  reserved : ℕ
  deriving DecidableEq

namespace TreePage

def new (pageType : PageType) (pageSize pageIndex pageLsn : ℕ) : TreePage :=
  { Page.empty pageType with pageLsn, pageIndex, pageSize, reserved := 0 }

def canFit (p : TreePage) (payloadSize : ℕ) : Bool :=
  decide (payloadSize + slotEntrySize + p.freeStart + p.slots.length * slotEntrySize ≤ p.pageSize)

def insertSlot (p : TreePage) (payload : Bytes) : TreePage :=
  { p with slots := p.slots ++ [some payload], freeStart := p.freeStart + payload.length }

def liveSlots (p : TreePage) : List (ℕ × Bytes) := p.slots.zipIdx.filterMap fun x => x.1.map fun raw => (x.2, raw)

def validateShape (p : TreePage) (expected : PageType) : Except TreeRefusal Unit := do
  ensure (p.pageType = expected) (.pageType p.pageIndex p.pageType expected)
  ensure (p.flags = 0 ∧ p.nextPage = none ∧ p.reserved = 0) (.pageHeader p.pageIndex p.flags p.nextPage p.reserved)
  ensure (p.seq % 2 = 0) (.oddSeq p.pageIndex p.seq)
  ensure (p.slots ≠ []) (.emptyPage p.pageIndex)

end TreePage

/-! ## Decoding -/

def decodeEntries (page : ℕ) : Option Identity → List (ℕ × Bytes) → Except TreeRefusal (List IndexEntry)
  | _, [] => .ok []
  | previous, (slot, raw) :: rest => do
    let decoded ← IndexEntry.decode raw
    let entry := decoded.locatedAt page slot
    ensure (entry.versioned = false) (.versionedEntry page slot)
    keyBytes entry.key true
    ensure (∀ i ∈ previous, i < entry.identity) (.entryOrder page slot)
    let others ← decodeEntries page (some entry.identity) rest
    return entry :: others

def decodeOrderedLeaf (p : TreePage) : Except TreeRefusal (List IndexEntry) := do
  p.validateShape .indexOrderedLeaf
  decodeEntries p.pageIndex none p.liveSlots

def decodePointers (page : ℕ) : Option Identity → List ℕ → List (ℕ × Bytes) → Except TreeRefusal (List ChildPointer)
  | _, _, [] => .ok []
  | previous, children, (slot, raw) :: rest => do
    let pointer ← ChildPointer.decode raw
    ensure (pointer.childPage < page) (.childFollows pointer.childPage page slot)
    ensure (∀ i ∈ previous, i < pointer.high.identity) (.entryOrder page slot)
    ensure (pointer.childPage ∉ children) (.childTwice pointer.childPage page slot)
    let others ← decodePointers page (some pointer.high.identity) (pointer.childPage :: children) rest
    return pointer :: others

def decodeOrderedInternal (p : TreePage) : Except TreeRefusal (List ChildPointer) := do
  p.validateShape .indexOrderedInternal
  decodePointers p.pageIndex none [] p.liveSlots

/-! ## What was accepted -/

theorem keyBytes_ok_iff {key : Bytes} {stored : Bool} {x : Unit} :
    keyBytes key stored = .ok x ↔ key ≠ [] ∧ key.length ≤ maxIndexKeyBytes := by
  unfold keyBytes
  split
  · rename_i h
    exact ⟨fun _ => h, fun _ => rfl⟩
  · rename_i h
    exact ⟨nofun, fun hkey => absurd hkey h⟩

def IndexEntry.Plain (e : IndexEntry) : Prop := e.versioned = false ∧ e.key ≠ []

theorem decodeEntries_spec (h : decodeEntries page previous slots = .ok es) :
    Keyed.Sorted IndexEntry.identity es ∧ (∀ i ∈ previous, ∀ e ∈ es, i < e.identity) ∧ ∀ e ∈ es, e.Plain := by
  induction slots generalizing previous es with
  | nil =>
    cases h
    exact ⟨.nil, nofun, nofun⟩
  | cons x rest ih =>
    obtain ⟨slot, raw⟩ := x
    simp only [decodeEntries, bind_ok_iff, ensure_ok_iff, keyBytes_ok_iff, pure_ok_iff] at h
    obtain ⟨decoded, -, -, hversioned, -, ⟨hkey, -⟩, -, hprevious, others, hothers, rfl⟩ := h
    obtain ⟨hsorted, habove, hplain⟩ := ih hothers
    have habove : ∀ e ∈ others, (decoded.locatedAt page slot).identity < e.identity := habove _ rfl
    refine ⟨List.pairwise_cons.mpr ⟨habove, hsorted⟩, fun i hi e he => ?_, fun e he => ?_⟩
    · rcases List.mem_cons.mp he with rfl | he
      · exact hprevious i hi
      · exact lt_trans (hprevious i hi) (habove e he)
    · rcases List.mem_cons.mp he with rfl | he
      · exact ⟨hversioned, hkey⟩
      · exact hplain e he

variable {p : TreePage}

theorem decodeOrderedLeaf_spec (h : decodeOrderedLeaf p = .ok es) : Keyed.Sorted IndexEntry.identity es ∧ ∀ e ∈ es, e.Plain := by
  obtain ⟨-, -, hentries⟩ := bind_ok_iff.mp h
  obtain ⟨hsorted, -, hplain⟩ := decodeEntries_spec hentries
  exact ⟨hsorted, hplain⟩

theorem decodePointers_spec {children : List ℕ} (h : decodePointers page previous children slots = .ok ps) :
    Keyed.Sorted (·.high.identity) ps ∧ (∀ i ∈ previous, ∀ p ∈ ps, i < p.high.identity) ∧
      (∀ p ∈ ps, p.childPage < page) := by
  induction slots generalizing previous children ps with
  | nil =>
    cases h
    exact ⟨.nil, nofun, nofun⟩
  | cons x rest ih =>
    obtain ⟨slot, raw⟩ := x
    simp only [decodePointers, bind_ok_iff, ensure_ok_iff, pure_ok_iff] at h
    obtain ⟨pointer, -, -, hchild, -, hprevious, -, -, others, hothers, rfl⟩ := h
    obtain ⟨hsorted, habove, hbelow⟩ := ih hothers
    have habove : ∀ p ∈ others, pointer.high.identity < p.high.identity := habove _ rfl
    refine ⟨List.pairwise_cons.mpr ⟨habove, hsorted⟩, fun i hi p hp => ?_, fun p hp => ?_⟩
    · rcases List.mem_cons.mp hp with rfl | hp
      · exact hprevious i hi
      · exact lt_trans (hprevious i hi) (habove p hp)
    · rcases List.mem_cons.mp hp with rfl | hp
      · exact hchild
      · exact hbelow p hp

theorem decodeOrderedInternal_spec (h : decodeOrderedInternal p = .ok ps) :
    Keyed.Sorted (·.high.identity) ps ∧ ∀ q ∈ ps, q.childPage < p.pageIndex := by
  obtain ⟨-, -, hpointers⟩ := bind_ok_iff.mp h
  obtain ⟨hsorted, -, hbelow⟩ := decodePointers_spec hpointers
  exact ⟨hsorted, hbelow⟩

end Grafx.Index
