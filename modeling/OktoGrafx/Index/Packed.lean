import OktoGrafx.Index.Subtree
import OktoGrafx.Lib.Packing

/-! What packing leaves on the new pages: the records cut into runs, one page to a run, each readable
as the leaf or the internal page it was packed as. -/

namespace Grafx.Index

open List Checked Packing

def Item.size (x : Item) : ℕ := x.payload.length + slotEntrySize

def Growth.room (g : Growth) : ℕ := g.pageSize - pageHeaderSize

def noHigh : High := ⟨[], ⟨0, 0, Nat.zero_le _, Nat.zero_le _⟩⟩

def firstHigh (bin : List Item) : High := (bin.head?.map (·.high)).getD noHigh

def lastHigh (bin : List Item) : High := (bin.getLast?.map (·.high)).getD noHigh

section Pages
variable (g : Growth) (pageType : PageType)

def pageOf (i : ℕ) (bin : List Item) : TreePage :=
  { TreePage.new pageType g.pageSize i g.pageLsn with
    slots := bin.map fun x => some x.payload
    freeStart := pageHeaderSize + (bin.map fun x => x.payload.length).sum }

def pagesOf (i : ℕ) (bins : List (List Item)) : List TreePage := (bins.zipIdx i).map fun x => pageOf g pageType x.2 x.1

end Pages

def packedOf (i : ℕ) (bin : List Item) : Packed := ⟨i, firstHigh bin, lastHigh bin, bin.length⟩

def packedsOf (i : ℕ) (bins : List (List Item)) : List Packed := (bins.zipIdx i).map fun x => packedOf x.2 x.1

variable {g : Growth} {pageType : PageType} {i : ℕ} {bin items : List Item} {item : Item} {pages : List TreePage} {r : List Packed × List TreePage}

/-! ## Packing is greedy -/

def openOf (g : Growth) (pageType : PageType) (i : ℕ) (bin : List Item) : OpenPage :=
  ⟨pageOf g pageType i bin, firstHigh bin, lastHigh bin, bin.length⟩

theorem openOf_insert (hbin : bin ≠ []) : (openOf g pageType i bin).insert item = openOf g pageType i (bin ++ [item]) := by
  simp [openOf, OpenPage.insert, pageOf, TreePage.insertSlot, firstHigh, lastHigh, head?_append_of_ne_nil _ hbin, add_assoc]

theorem canFit_pageOf : (pageOf g pageType i bin).canFit item.payload.length = true ↔ total Item.size bin + item.size ≤ g.room := by
  have htotal : total Item.size bin = (bin.map fun x => x.payload.length).sum + bin.length * slotEntrySize := by
    induction bin with
    | nil => rfl
    | cons x bin ih =>
      simp only [total, map_cons, sum_cons, length_cons] at ih ⊢
      rw [ih, Item.size, add_mul, one_mul]
      omega
  have hsize : (pageOf g pageType i bin).pageSize = g.pageSize := rfl
  have hslots : (pageOf g pageType i bin).slots.length = bin.length := length_map _
  rw [htotal, TreePage.canFit, decide_eq_true_iff, hsize, hslots, Item.size, Growth.room]
  show item.payload.length + slotEntrySize + (pageHeaderSize + (bin.map fun x => x.payload.length).sum) + bin.length * slotEntrySize ≤
    g.pageSize ↔ _
  have hslot : 0 < slotEntrySize := by decide
  omega

theorem openPage_ok_iff {o : OpenPage} : openPage g pageType item pages = .ok o ↔
    g.startPage + pages.length < noPage ∧ item.size ≤ g.room ∧ o = openOf g pageType (g.startPage + pages.length) [item] := by
  have hempty : ∀ i, TreePage.new pageType g.pageSize i g.pageLsn = pageOf g pageType i [] := fun _ => rfl
  have hzero : total Item.size ([] : List Item) = 0 := rfl
  simp only [openPage, newPage]
  split
  · rename_i hroom
    rw [ok_bind, hempty]
    simp only [bind_ok_iff, ensure_ok_iff, pure_ok_iff, canFit_pageOf, hzero, zero_add]
    constructor
    · rintro ⟨-, hfits, rfl⟩
      exact ⟨hroom, hfits, by simp [openOf, pageOf, TreePage.insertSlot, TreePage.new, Page.empty, firstHigh, lastHigh]⟩
    · rintro ⟨-, hfits, rfl⟩
      exact ⟨⟨⟩, hfits, by simp [openOf, pageOf, TreePage.insertSlot, TreePage.new, Page.empty, firstHigh, lastHigh]⟩
  · rename_i hroom
    exact iff_of_false (by simp [bind, Except.bind]) fun h => hroom h.1

theorem packInto_ok_iff (hbin : bin ≠ []) (hi : g.startPage + pages.length = i) (hlt : i < noPage) :
    packInto g pageType (openOf g pageType i bin) items pages = .ok r ↔
      (∀ x ∈ items, x.size ≤ g.room) ∧ i + (fill Item.size g.room bin items).length ≤ noPage ∧
        r = (packedsOf i (fill Item.size g.room bin items), pages ++ pagesOf g pageType i (fill Item.size g.room bin items)) := by
  induction items generalizing bin i pages r with
  | nil =>
    simp only [packInto, fill, length_singleton, not_mem_nil, false_imp_iff, implies_true, true_and]
    constructor
    · intro h
      exact ⟨hlt, (Except.ok.inj h).symm⟩
    · rintro ⟨-, rfl⟩
      rfl
  | cons item items ih =>
    have hpage : (openOf g pageType i bin).page.canFit item.payload.length = true ↔ total Item.size bin + item.size ≤ g.room :=
      canFit_pageOf
    rw [packInto, fill]
    by_cases hfits : total Item.size bin + item.size ≤ g.room
    · have hitem : item.size ≤ g.room := (Nat.le_add_left _ _).trans hfits
      rw [if_pos (hpage.mpr hfits), if_pos hfits, openOf_insert hbin, ih (append_ne_nil_of_left_ne_nil hbin _) hi hlt,
        forall_mem_cons, and_iff_right hitem]
    · have hlength : g.startPage + (pages ++ [(openOf g pageType i bin).page]).length = i + 1 := by
        rw [length_append, length_singleton, ← hi, add_assoc]
      have hsome : 0 < (fill Item.size g.room [item] items).length := fill_length_pos _ _
      rw [if_neg (mt hpage.mp hfits), if_neg hfits]
      simp only [bind_ok_iff, openPage_ok_iff, pure_ok_iff, forall_mem_cons, length_cons, hlength]
      constructor
      · rintro ⟨o, ⟨hnext, hitem, rfl⟩, rest, hrest, rfl⟩
        obtain ⟨hall, hend, rfl⟩ := (ih (cons_ne_nil item []) hlength hnext).mp hrest
        exact ⟨⟨hitem, hall⟩, by omega, by rw [append_assoc]; rfl⟩
      · rintro ⟨⟨hitem, hall⟩, hend, rfl⟩
        have hnext : i + 1 < noPage := by omega
        refine ⟨_, ⟨hnext, hitem, rfl⟩, _, (ih (cons_ne_nil item []) hlength hnext).mpr ⟨hall, by omega, rfl⟩, ?_⟩
        rw [append_assoc]
        rfl

theorem appendPackedPages_ok_iff (hpages : g.startPage + pages.length ≤ noPage) : appendPackedPages g pageType items pages = .ok r ↔
      (∀ x ∈ items, x.size ≤ g.room) ∧ g.startPage + pages.length + (greedy Item.size g.room items).length ≤ noPage ∧
        r = (packedsOf (g.startPage + pages.length) (greedy Item.size g.room items),
          pages ++ pagesOf g pageType (g.startPage + pages.length) (greedy Item.size g.room items)) := by
  cases items with
  | nil =>
    simp only [appendPackedPages, greedy, not_mem_nil, false_imp_iff, implies_true, true_and]
    constructor
    · intro h
      exact ⟨hpages, by rw [← Except.ok.inj h, pagesOf, zipIdx_nil, map_nil, append_nil]; rfl⟩
    · rintro ⟨-, rfl⟩
      rw [pagesOf, zipIdx_nil, map_nil, append_nil]
      rfl
  | cons item items =>
    have hsome : 0 < (fill Item.size g.room [item] items).length := fill_length_pos _ _
    simp only [appendPackedPages, greedy, bind_ok_iff, openPage_ok_iff, forall_mem_cons]
    constructor
    · rintro ⟨o, ⟨hnext, hitem, rfl⟩, hrest⟩
      obtain ⟨hall, hend, rfl⟩ := (packInto_ok_iff (cons_ne_nil item []) rfl hnext).mp hrest
      exact ⟨⟨hitem, hall⟩, hend, rfl⟩
    · rintro ⟨⟨hitem, hall⟩, hend, rfl⟩
      have hnext : g.startPage + pages.length < noPage := by omega
      exact ⟨_, ⟨hnext, hitem, rfl⟩, (packInto_ok_iff (cons_ne_nil item []) rfl hnext).mpr ⟨hall, hend, rfl⟩⟩

/-! ## Running out of page numbers -/

theorem packInto_exhausted (hbin : bin ≠ []) (hi : g.startPage + pages.length = i) (hlt : i < noPage)
    (hfits : ∀ x ∈ items, x.size ≤ g.room) (hover : noPage < i + (fill Item.size g.room bin items).length) :
    packInto g pageType (openOf g pageType i bin) items pages = .error (.pageIndexSpace noPage) := by
  induction items generalizing bin i pages with
  | nil =>
    simp only [fill, length_singleton] at hover
    omega
  | cons item items ih =>
    have hpage : (openOf g pageType i bin).page.canFit item.payload.length = true ↔ total Item.size bin + item.size ≤ g.room :=
      canFit_pageOf
    obtain ⟨hitem, hrest⟩ := forall_mem_cons.mp hfits
    rw [fill] at hover
    rw [packInto]
    by_cases hgoes : total Item.size bin + item.size ≤ g.room
    · rw [if_pos hgoes] at hover
      rw [if_pos (hpage.mpr hgoes), openOf_insert hbin]
      exact ih (append_ne_nil_of_left_ne_nil hbin _) hi hlt hrest hover
    · rw [if_neg hgoes, length_cons] at hover
      rw [if_neg (mt hpage.mp hgoes)]
      have hlength : g.startPage + (pages ++ [(openOf g pageType i bin).page]).length = i + 1 := by
        rw [length_append, length_singleton, ← hi, add_assoc]
      by_cases hnext : i + 1 < noPage
      · have hopen : openPage g pageType item (pages ++ [(openOf g pageType i bin).page]) = .ok (openOf g pageType (i + 1) [item]) := by
          apply openPage_ok_iff.mpr
          rw [hlength]
          exact ⟨hnext, hitem, rfl⟩
        rw [hopen, ok_bind, ih (cons_ne_nil item []) hlength hnext hrest (by omega)]
        rfl
      · have hend : i + 1 = noPage := by omega
        rw [openPage, newPage, hlength, hend, if_neg (lt_irrefl noPage)]
        rfl

theorem appendPackedPages_exhausted (hpages : g.startPage + pages.length ≤ noPage) (hfits : ∀ x ∈ items, x.size ≤ g.room)
    (hover : noPage < g.startPage + pages.length + (greedy Item.size g.room items).length) :
    appendPackedPages g pageType items pages = .error (.pageIndexSpace noPage) := by
  cases items with
  | nil =>
    simp only [greedy, length_nil] at hover
    omega
  | cons item items =>
    obtain ⟨hitem, hrest⟩ := forall_mem_cons.mp hfits
    rw [appendPackedPages]
    by_cases hnext : g.startPage + pages.length < noPage
    · rw [openPage_ok_iff.mpr ⟨hnext, hitem, rfl⟩, ok_bind]
      exact packInto_exhausted (cons_ne_nil item []) rfl hnext hrest hover
    · have hend : g.startPage + pages.length = noPage := by omega
      rw [openPage, newPage, hend, if_neg (lt_irrefl noPage)]
      rfl

end Grafx.Index
