import OktoGrafx.Domain.Ids

/-! Slotted pages. The cell type is left open: a heap stores record cells, and redo never
looks inside a slot. Offsets are not modelled, only the fill mark `freeStart` that decides
whether a payload fits. A freed slot is `none` and keeps its position for good, and a page
without a successor (`NO_PAGE`) has `none` for it. -/

namespace Grafx

abbrev FileName := String

structure Location where
  file : FileName
  pageIndex : ℕ
  deriving DecidableEq, Repr

inductive PageType where
  | free | metaPage | heap | catalog | indexHash | indexHnsw | overflow | controlSlot | controlHeader
  | indexOrderedRoot | indexOrderedInternal | indexOrderedLeaf
  deriving DecidableEq, Repr

def pageHeaderSize : ℕ := 32

def slotEntrySize : ℕ := 4

structure Page (κ : Type*) where
  pageType : PageType
  flags : ℕ
  pageLsn : ℕ
  seq : ℕ
  nextPage : Option ℕ
  freeStart : ℕ
  slots : List (Option κ)
  deriving DecidableEq, Repr

def maxSeq : ℕ := 0xFFFFFFFF

def nextSeq (seq : ℕ) : ℕ := ((seq ||| 1) + 1) &&& maxSeq

namespace Page
variable {κ : Type*}

def empty (pageType : PageType) : Page κ :=
  { pageType, flags := 0, pageLsn := 0, seq := 0, nextPage := none, freeStart := pageHeaderSize, slots := [] }

def content (p : Page κ) : Page κ := { p with seq := 0 }

variable {p q : Page κ}

theorem pageType_of_content (h : p.content = q.content) : p.pageType = q.pageType := by
  have hread : p.content.pageType = q.content.pageType := by rw [h]
  exact hread

theorem pageLsn_of_content (h : p.content = q.content) : p.pageLsn = q.pageLsn := by
  have hread : p.content.pageLsn = q.content.pageLsn := by rw [h]
  exact hread

end Page
end Grafx
