import OktoGrafx.Log.Moved
import OktoGrafx.Log.Participants

/-! Names of segments. A new file is numbered above all files then in the directory, so a name comes back
only if the directory forgot how far the numbering got. -/

namespace Grafx.Log

open List Interrupt Wal
open TailIndex (numbers)

variable {ops front back : List FileOp} {d d' doomed : Directory} {n next target horizon : ℕ} {refuses : ℕ → Bool} {ix : TailIndex} {seg : Segment}
  {stop : Option (ℕ × ℕ)} {more : Truncation}

def NoReuse (history : List FileOp) : Prop := history.Pairwise fun earlier later => ∀ n, earlier = .recycle n → later ≠ .create n

/-! ## Operations and numbers -/

structure Plain (d : Directory) (ops : List FileOp) : Prop where
  makes : ∀ n, .create n ∉ ops
  known : ∀ n, .recycle n ∈ ops → n ∈ d.map Segment.number

/-- Operations after which the directory has its highest number still, or a higher one. -/
inductive Burns (d : Directory) (ops : List FileOp) : Prop
  | spared : Plain d ops → (∀ n, .recycle n ∈ ops → ∃ m ∈ d.map Segment.number, n ≤ m ∧ .recycle m ∉ ops) → Burns d ops
  | made {n : ℕ} {front back : List FileOp} : ops = front ++ .create n :: back → Fresh n d → Plain d front → Plain d back → Burns d ops

theorem Plain.nil : Plain d [] := ⟨nofun, nofun⟩

theorem Plain.append (h : Plain d front) (h' : Plain d back) : Plain d (front ++ back) := by
  constructor
  · intro n hn
    exact (mem_append.mp hn).elim (h.makes n) (h'.makes n)
  · intro n hn
    exact (mem_append.mp hn).elim (h.known n) (h'.known n)

theorem Plain.write (number : ℕ) (data : Bytes) : Plain d [.append number data] := by
  refine ⟨?_, ?_⟩ <;> intro n hn <;> cases mem_singleton.mp hn

theorem Plain.cut (number size : ℕ) : Plain d [.cut number size] := by
  refine ⟨?_, ?_⟩ <;> intro n hn <;> cases mem_singleton.mp hn

theorem Burns.none : Burns d [] := .spared .nil nofun

theorem mem_numbers_run (hnone : ∀ n, .create n ∉ ops) :
    n ∈ (runOps ops d).map Segment.number ↔ n ∈ d.map Segment.number ∧ .recycle n ∉ ops := by
  induction ops generalizing d with
  | nil => exact ⟨fun h => ⟨h, nofun⟩, And.left⟩
  | cons op ops ih =>
    have hrest := ih (d := op.apply d) fun m hm => hnone m (mem_cons_of_mem _ hm)
    show n ∈ (runOps ops (op.apply d)).map Segment.number ↔ _
    rw [hrest, mem_cons, not_or]
    cases op with
    | create m => exact absurd mem_cons_self (hnone m)
    | append m data => simp [append_numbers]
    | cut m size => simp [cut_numbers]
    | recycle m =>
      have hmem := mem_numbers_recycled (n := n) [⟨m, []⟩] d
      have hone : runOps ([(⟨m, []⟩ : Segment)].map fun seg => .recycle seg.number) d = (FileOp.recycle m).apply d := rfl
      rw [hone] at hmem
      rw [hmem]
      simp [and_assoc]

theorem numbers_run_sublist (hnone : ∀ n, .create n ∉ ops) : ((runOps ops d).map Segment.number).Sublist (d.map Segment.number) := by
  induction ops generalizing d with
  | nil => exact List.Sublist.refl _
  | cons op ops ih =>
    have hrest := ih (d := op.apply d) fun m hm => hnone m (mem_cons_of_mem _ hm)
    refine hrest.trans ?_
    cases op with
    | create m => exact absurd mem_cons_self (hnone m)
    | append m data => exact (append_numbers m data d).symm ▸ List.Sublist.refl _
    | cut m size => exact (cut_numbers m size d).symm ▸ List.Sublist.refl _
    | recycle m => exact filter_sublist.map _

theorem fresh_iff : Fresh n d ↔ ∀ m ∈ d.map Segment.number, m < n := by
  rw [forall_mem_map]
  exact Iff.rfl

theorem mem_numbers_made {m : ℕ} (hfront : Plain d front) (hback : Plain d back) :
    m ∈ (runOps (front ++ .create n :: back) d).map Segment.number ↔
      (m ∈ d.map Segment.number ∧ .recycle m ∉ front ∨ m = n) ∧ .recycle m ∉ back := by
  rw [runOps, run_append]
  show m ∈ (runOps back ((FileOp.create n).apply (runOps front d))).map Segment.number ↔ _
  rw [mem_numbers_run hback.makes, mem_numbers_created, mem_numbers_run hfront.makes]

theorem Burns.ordered (h : Burns d ops) (hd : Ordered d) : Ordered (runOps ops d) := by
  cases h with
  | spared hplain _ =>
    have hnumbers : (d.map Segment.number).Pairwise (· < ·) := pairwise_map.mpr hd
    exact pairwise_map.mp (hnumbers.sublist (numbers_run_sublist hplain.makes))
  | @made n front back heq hfresh hfront hback =>
    apply ordered_of_sublist hd hfresh
    rw [heq, runOps, run_append]
    refine (numbers_run_sublist hback.makes).trans ?_
    show ((runOps front d ++ [(⟨n, []⟩ : Segment)]).map Segment.number).Sublist _
    rw [map_append]
    exact (numbers_run_sublist hfront.makes).append_right [n]

theorem Fresh.not_recycled (hfresh : Fresh n d) (h : Plain d ops) : .recycle n ∉ ops :=
  fun hmem => lt_irrefl n (fresh_iff.mp hfresh n (h.known n hmem))

theorem Burns.topped (h : Burns d ops) : ∀ m ∈ d.map Segment.number, ∃ m' ∈ (runOps ops d).map Segment.number, m ≤ m' := by
  intro m hm
  cases h with
  | spared hplain htop =>
    by_cases hgone : .recycle m ∈ ops
    · obtain ⟨m', hm', hle, hstays⟩ := htop m hgone
      exact ⟨m', (mem_numbers_run hplain.makes).mpr ⟨hm', hstays⟩, hle⟩
    · exact ⟨m, (mem_numbers_run hplain.makes).mpr ⟨hm, hgone⟩, le_rfl⟩
  | @made n front back heq hfresh hfront hback =>
    subst heq
    exact ⟨n, (mem_numbers_made hfront hback).mpr ⟨.inr rfl, hfresh.not_recycled hback⟩, (fresh_iff.mp hfresh m hm).le⟩

theorem Burns.known (h : Burns d ops) (hn : .recycle n ∈ ops) : n ∈ d.map Segment.number := by
  cases h with
  | spared hplain _ => exact hplain.known n hn
  | made heq _ hfront hback =>
    rw [heq] at hn
    rcases mem_append.mp hn with hn | hn
    · exact hfront.known n hn
    · exact hback.known n ((mem_cons.mp hn).resolve_left nofun)

theorem Plain.noReuse (h : Plain d ops) : NoReuse ops := by
  apply pairwise_of_forall_mem_list
  rintro x - y hy n - rfl
  exact h.makes n hy

theorem Burns.noReuse {history : List FileOp} (h : Burns d ops) (hburned : ∀ n, .recycle n ∈ history → ∃ m ∈ d.map Segment.number, n ≤ m)
    (hhistory : NoReuse history) : NoReuse (history ++ ops) := by
  cases h with
  | spared hplain _ =>
    refine pairwise_append.mpr ⟨hhistory, hplain.noReuse, ?_⟩
    rintro x - y hy n - rfl
    exact hplain.makes n hy
  | @made m front back heq hfresh hfront hback =>
    have hback' : NoReuse (.create m :: back) := by
      refine pairwise_cons.mpr ⟨?_, hback.noReuse⟩
      intro y _ n hcreate
      cases hcreate
    -- only the one file is made, and its number is above all that went
    have hmade : ∀ n, .create n ∈ (.create m :: back : List FileOp) → n = m := by
      intro n hn
      rcases mem_cons.mp hn with heq | hn
      · exact FileOp.create.inj heq
      · exact absurd hn (hback.makes n)
    have hops : NoReuse ops := by
      rw [heq]
      refine pairwise_append.mpr ⟨hfront.noReuse, hback', ?_⟩
      rintro x hx y hy n rfl rfl
      obtain rfl := hmade n hy
      exact hfresh.not_recycled hfront hx
    refine pairwise_append.mpr ⟨hhistory, hops, ?_⟩
    rintro x hx y hy n rfl rfl
    rw [heq] at hy
    rcases mem_append.mp hy with hy | hy
    · exact hfront.makes n hy
    · obtain rfl := hmade n hy
      obtain ⟨k, hk, hle⟩ := hburned n hx
      exact not_lt.mpr hle (fresh_iff.mp hfresh k hk)

/-! ## What an index knows of the numbering -/

structure Numbered (ix : TailIndex) : Prop where
  ascending : ix.numbers.Pairwise (· < ·)
  next : ∀ n ∈ ix.numbers, n < ix.nextNumber

structure Listed (ix : TailIndex) (d : Directory) : Prop where
  numbered : Numbered ix
  fresh : Fresh ix.nextNumber d
  listed : ∀ n ∈ ix.numbers, n ∈ d.map Segment.number
  tail : ∀ t, ix.segments.getLast? = some t → ∃ seg ∈ d, seg.number = t.number ∧ seg.data.length = t.sizeBytes

theorem TailIndex.known_number (ix : TailIndex) (number : ℕ) : (ix.known number).number = number := by
  unfold known
  cases h : ix.segments.find? fun info => decide (info.number = number) with
  | none => rfl
  | some info =>
    have hfound := find?_some h
    exact of_decide_eq_true hfound

section
variable {known : ℕ → SegmentInfo} (hknown : ∀ number, (known number).number = number)
include hknown

theorem infoOf_number (good : List ScanItem) (seg : Segment) :
    (infoOf known good seg).number = seg.number := (foldl_noteRecord _ _).1.trans (hknown seg.number)

theorem last_infoOf {good : List ScanItem} {t : SegmentInfo} (ht : ((live d).map (infoOf known good)).getLast? = some t) :
    ∃ seg ∈ d, seg.number = t.number ∧ seg.data.length = t.sizeBytes := by
  obtain ⟨seg, hseg, rfl⟩ := mem_map.mp (mem_of_getLast? ht)
  exact ⟨seg, live_mem hseg, (infoOf_number hknown good seg).symm, (infoOf_size known good seg).symm⟩

theorem numbers_infoOf (good : List ScanItem) (segs : Directory) :
    (segs.map (infoOf known good)).map SegmentInfo.number = segs.map Segment.number := by
  rw [map_map]
  apply map_congr_left
  exact fun seg _ => infoOf_number hknown good seg

theorem listed_of_live {good : List ScanItem} (hd : Ordered d) (hsegments : ix.segments = (live d).map (infoOf known good))
    (hnext : ix.nextNumber = nextNumberOf d) : Listed ix d := by
  have hnumbers : ix.numbers = (live d).map Segment.number := by
    rw [TailIndex.numbers, hsegments, numbers_infoOf hknown]
  have hfresh := nextNumberOf_fresh hd
  have hlisted : ∀ n ∈ ix.numbers, n ∈ d.map Segment.number := by
    intro n hn
    rw [hnumbers] at hn
    obtain ⟨seg, hseg, rfl⟩ := mem_map.mp hn
    exact mem_numbers hseg
  refine ⟨⟨?_, ?_⟩, hnext ▸ hfresh, hlisted, fun t ht => last_infoOf hknown (hsegments ▸ ht)⟩
  · rw [hnumbers]
    exact pairwise_map.mpr hd.live
  · intro n hn
    rw [hnext]
    exact fresh_iff.mp hfresh n (hlisted n hn)

end

theorem rescan_listed (hd : Ordered d) : Listed (rescan d) d := listed_of_live (fun _ => rfl) hd rfl rfl

theorem refresh_listed (hd : Ordered d) (h : Numbered ix) : Listed (ix.refresh d) d := by
  rcases ix.refresh_cases d with ⟨hunmoved, heq⟩ | heq | ⟨-, -, heq⟩
  · -- nothing moved: the directory is what the index lists
    obtain ⟨hnumbers, hsame⟩ := TailIndex.unmoved_iff.mp hunmoved
    rw [heq]
    refine ⟨h, ?_, fun n hn => hnumbers ▸ hn, fun t ht => ?_⟩
    · apply fresh_iff.mpr
      rw [hnumbers]
      exact h.next
    · obtain ⟨seg, hseg, hnumber⟩ := mem_map.mp (hnumbers ▸ last_mem_numbers ht)
      exact ⟨seg, hseg, hnumber, (sizeOf_mem hd hseg).symm.trans (hnumber ▸ hsame t ht)⟩
  · rw [heq]
    exact rescan_listed hd
  · rw [heq]
    exact listed_of_live ix.known_number hd rfl rfl

def View.Numbered (v : View) : Prop := ∀ ix, v.index = some ix → Log.Numbered ix

theorem View.current_listed {v : View} (h : v.Numbered) (hd : Ordered d) : Listed (v.current d) d := by
  unfold View.current
  cases hindex : v.index with
  | none => exact rescan_listed hd
  | some ix => exact refresh_listed hd (h ix hindex)

/-! ## Appending -/

theorem Prepared.rolled {a : Append} (h : Prepared ix a) (hrolling : a.rolling = true) : a.number = ix.nextNumber := by
  rcases h.place with ⟨-, hnumber, -⟩ | ⟨hfalse, -⟩
  · exact hnumber
  · cases hfalse.symm.trans hrolling

theorem Prepared.missing {a : Append} (h : Prepared ix a) (hfresh : Fresh ix.nextNumber d) (hrolling : a.rolling = true) :
    a.number ∉ d.map Segment.number := by
  rw [h.rolled hrolling]
  exact fun hmem => lt_irrefl _ (fresh_iff.mp hfresh _ hmem)

theorem Append.burns {a : Append} (hlisted : Listed ix d) (h : Prepared ix a) (c : Answers) : Burns d (a.writeOps c d).2 := by
  have hmade : ∀ back, Plain d back → (∀ n, .recycle n ∉ back) → Burns d (a.creates ++ back) := by
    intro back hback hnone
    unfold Append.creates
    split
    · rename_i hrolling
      exact .made (nil_append _).symm (h.rolled hrolling ▸ hlisted.fresh) .nil hback
    · exact .spared hback fun n hn => absurd hn (hnone n)
  have hwrite : ∀ data n, .recycle n ∉ [FileOp.append a.number data] := fun data n hn => nomatch mem_singleton.mp hn
  rcases a.writeOps_cases c (h.missing hlisted.fresh) with heq | ⟨part, -, heq⟩ | heq | ⟨-, -, heq⟩ <;> rw [heq]
  · exact hmade _ (.write _ _) (hwrite _)
  · exact hmade _ (.write _ _) (hwrite _)
  · exact append_nil a.creates ▸ hmade [] .nil nofun
  · exact .none

theorem undo_burns {c : Answers} (h : c.keepsName = true) (number size : ℕ) (created : Bool) : Burns d (undoOps c number size created d).2 := by
  rcases undoOps_kept h number size created d with heq | heq <;> rw [heq]
  · exact .none
  · exact .spared (.cut _ _) fun n hn => nomatch mem_singleton.mp hn

theorem registerAppend_numbered {a : Append} (h : Numbered ix) (hprepared : Prepared ix a) : Numbered (registerAppend ix a) := by
  rcases hprepared.place with ⟨hrolling, hnumber, -, -⟩ | ⟨hrolling, -, t, ht, -, -⟩
  · have hnumbers : (registerAppend ix a).numbers = ix.numbers ++ [ix.nextNumber] := by
      rw [numbers, registerAppend]
      rw [if_pos hrolling, map_append, ← hnumber]
      rfl
    have hnext : (registerAppend ix a).nextNumber = ix.nextNumber + 1 := by
      rw [registerAppend]
      dsimp only
      rw [if_pos hrolling, hnumber]
    constructor
    · rw [hnumbers]
      refine pairwise_append.mpr ⟨h.ascending, pairwise_singleton .., ?_⟩
      intro n hn m hm
      rw [mem_singleton.mp hm]
      exact h.next n hn
    · intro n hn
      rw [hnumbers] at hn
      rw [hnext]
      rcases mem_append.mp hn with hn | hn
      · exact Nat.lt_succ_of_lt (h.next n hn)
      · rw [mem_singleton.mp hn]
        exact Nat.lt_succ_self _
  · have hnumbers : (registerAppend ix a).numbers = ix.numbers := by
      obtain ⟨front, hfront⟩ := getLast?_eq_some_iff.mp ht
      rw [numbers, registerAppend]
      rw [if_neg (by rw [hrolling]; exact Bool.false_ne_true), ht, numbers, hfront, dropLast_concat]
      simp [growInfo]
    have hnext : (registerAppend ix a).nextNumber = ix.nextNumber := by
      rw [registerAppend]
      exact if_neg (by rw [hrolling]; exact Bool.false_ne_true)
    exact ⟨hnumbers.symm ▸ h.ascending, fun n hn => hnext.symm ▸ h.next n (hnumbers ▸ hn)⟩

theorem Numbered.raise (h : Numbered ix) {ix' : TailIndex} (hnumbers : ix'.numbers = ix.numbers) (hnext : ix.nextNumber ≤ ix'.nextNumber) :
    Numbered ix' := ⟨hnumbers.symm ▸ h.ascending, fun n hn => (h.next n (hnumbers ▸ hn)).trans_le hnext⟩

theorem Numbered.undone (h : Numbered ix) (a : Append) (size : ℕ) (repaired : Bool) : Numbered (undoneIndex a size repaired ix) := by
  unfold undoneIndex
  split
  · refine h.raise (show numbers _ = _ from rfl) ?_
    dsimp only
    split <;> omega
  · exact h.raise (show numbers _ = _ from rfl) le_rfl

/-! ## Truncating -/

theorem TailIndex.files_sublist (ix : TailIndex) (d : Directory) : (ix.files d).Sublist d := filter_sublist

theorem plain_recycles (hdoomed : ∀ seg ∈ doomed, seg ∈ d) (hops : ∀ op ∈ ops, ∃ seg ∈ doomed, op = .recycle seg.number) : Plain d ops := by
  constructor
  · intro n hn
    obtain ⟨seg, -, heq⟩ := hops _ hn
    cases heq
  · intro n hn
    obtain ⟨seg, hseg, heq⟩ := hops _ hn
    rw [FileOp.recycle.inj heq]
    exact mem_map_of_mem (hdoomed seg hseg)

theorem release_recycles : ∀ op ∈ (release refuses doomed).ops, ∃ seg ∈ doomed, op = .recycle seg.number := by
  intro op hop
  obtain ⟨seg, hseg, rfl⟩ := mem_map.mp hop
  exact ⟨seg, (takeWhile_sublist _).mem hseg, rfl⟩

/-- The platform keeps the newest of the segments, the first that would go. -/
def Refused (refuses : ℕ → Bool) (behind : Directory) : Prop := ∃ newest, behind.getLast? = some newest ∧ refuses newest.number = true

theorem Refused.release {behind : Directory} (h : Refused refuses behind) :
    (release refuses behind.reverse).ops = [] ∧ (release refuses behind.reverse).completed ≠ true := by
  obtain ⟨newest, hlast, hrefused⟩ := h
  obtain ⟨front, rfl⟩ := getLast?_eq_some_iff.mp hlast
  rw [Log.release, reverse_concat, takeWhile_cons_of_neg (by simp [hrefused])]
  exact ⟨rfl, by simp [hrefused]⟩

structure Truncates (d : Directory) (next : ℕ) (behind : Directory) (ops : List FileOp) (front back : List FileOp) : Prop where
  ops : ops = front ++ back
  front : ∀ op ∈ front, ∃ seg ∈ behind, op = .recycle seg.number
  back : back = [] ∨ ∃ rest, back = .create next :: rest ∧ Plain d rest

theorem newSegment_form (next : ℕ) (hmore : Plain d more.ops) :
    (newSegment next more).ops = [] ∨ ∃ rest, (newSegment next more).ops = .create next :: rest ∧ Plain d rest := by
  unfold newSegment
  split
  · exact .inr ⟨_, rfl, hmore⟩
  · exact .inl rfl

theorem thenDo_form (refuses : ℕ → Bool) (behind : Directory) (hmore : more.ops = [] ∨ ∃ rest, more.ops = .create next :: rest ∧ Plain d rest) :
    ∃ front back, Truncates d next behind ((release refuses behind.reverse).thenDo more).ops front back ∧
      ((∀ n, refuses n = false) → back = more.ops) ∧ (Refused refuses behind → front = [] ∧ back = []) := by
  have hfront : ∀ op ∈ (release refuses behind.reverse).ops, ∃ seg ∈ behind, op = .recycle seg.number := by
    intro op hop
    obtain ⟨seg, hseg, heq⟩ := release_recycles op hop
    exact ⟨seg, mem_reverse.mp hseg, heq⟩
  unfold Truncation.thenDo
  split
  · rename_i hcompleted
    exact ⟨_, more.ops, ⟨rfl, hfront, hmore⟩, fun _ => rfl, fun hrefused => absurd hcompleted hrefused.release.2⟩
  · rename_i hfailed
    exact ⟨_, [], ⟨(append_nil _).symm, hfront, .inl rfl⟩, fun hgranted => absurd (release_granted hgranted _) hfailed,
      fun hrefused => ⟨hrefused.release.1, rfl⟩⟩

theorem dropWhile_number {files later : Directory} {cut : Segment} {number : ℕ}
    (h : files.dropWhile (fun seg => decide (seg.number ≠ number)) = cut :: later) : cut.number = number ∧ (cut :: later).Sublist files := by
  refine ⟨?_, h ▸ dropWhile_sublist _⟩
  have hhead := head_dropWhile_not (fun seg : Segment => decide (seg.number ≠ number)) (h ▸ cons_ne_nil cut later)
  simp only [h, head_cons, decide_eq_false_iff_not, not_not] at hhead
  exact hhead

theorem TailIndex.truncateAfter_form (hd : Ordered d) (ix : TailIndex) (refuses : ℕ → Bool) (target : ℕ) :
    ∃ front back, Truncates d ix.nextNumber (ix.behindCut target d) (ix.truncateAfter refuses target d).ops front back ∧
      ((∀ n, refuses n = false) → ix.nextNumber ≤ maxSegmentNumber → ix.cutsInside target d = true → back = [] → front = []) ∧
      (Refused refuses (ix.behindCut target d) → front = [] ∧ back = []) := by
  have hfiles : ∀ {seg}, seg ∈ ix.files d → seg ∈ d := (ix.files_sublist d).mem
  unfold truncateAfter behindCut cutsInside
  cases hcut : ix.findCut target d with
  | none =>
    cases hlisted : ix.files d with
    | nil => exact ⟨[], [], ⟨rfl, nofun, .inl rfl⟩, fun _ _ _ _ => rfl, fun _ => ⟨rfl, rfl⟩⟩
    | cons seg segs =>
      have hplain : Plain d (release refuses [seg]).ops := plain_recycles (fun x hx => hfiles (hlisted ▸ (mem_singleton.mp hx) ▸ mem_cons_self)) release_recycles
      obtain ⟨front, back, hform, hback, hrefused⟩ := thenDo_form refuses segs (newSegment_form ix.nextNumber hplain)
      rw [releaseAll_cons]
      refine ⟨front, back, hform, ?_, hrefused⟩
      intro hgranted hnext _ hnil
      have hmade := hback hgranted
      rw [newSegment, if_pos hnext, hnil] at hmade
      cases hmade
  | some place =>
    obtain ⟨number, offset⟩ := place
    dsimp only
    cases hdrop : (ix.files d).dropWhile fun seg => decide (seg.number ≠ number) with
    | nil => exact ⟨[], [], ⟨rfl, nofun, .inl rfl⟩, fun _ _ _ _ => rfl, fun _ => ⟨rfl, rfl⟩⟩
    | cons cut later =>
      obtain ⟨rfl, hsub⟩ := dropWhile_number hdrop
      have hmem : cut ∈ d := hfiles (hsub.mem mem_cons_self)
      have hmore : ∀ roll : Truncation, roll = rollCutSegment refuses ix.nextNumber cut offset ∨ roll = ⟨[], true⟩ →
          roll.ops = [] ∨ ∃ rest, roll.ops = .create ix.nextNumber :: rest ∧ Plain d rest := by
        rintro roll (rfl | rfl)
        · have hplain : Plain d (release refuses [cut]).ops := plain_recycles (fun x hx => (mem_singleton.mp hx) ▸ hmem) release_recycles
          exact newSegment_form ix.nextNumber ((Plain.write ix.nextNumber (cut.data.take offset)).append hplain)
        · exact .inl rfl
      obtain ⟨front, back, hform, hback, hrefused⟩ := thenDo_form refuses later
        (hmore (if offset < cut.data.length then rollCutSegment refuses ix.nextNumber cut offset else ⟨[], true⟩)
          (by split; exacts [.inl rfl, .inr rfl]))
      refine ⟨front, back, hform, ?_, hrefused⟩
      intro hgranted hnext hinside hnil
      have hmade := hback hgranted
      rw [sizeOf_mem hd hmem, decide_eq_true_iff] at hinside
      rw [if_pos hinside, rollCutSegment, newSegment, if_pos hnext, hnil] at hmade
      cases hmade

theorem mem_stopped {op : FileOp} (h : op ∈ stopped stop ops) : op ∈ ops ∨ ∃ number data, op = .append number data := by
  match stop with
  | none => exact .inl h
  | some (n, kept) =>
    rcases mem_append.mp h with h | h
    · exact .inl (mem_of_mem_take h)
    · split at h
      · exact .inr ⟨_, _, mem_singleton.mp h⟩
      · cases h

theorem Plain.stopped (h : Plain d ops) (stop : Option (ℕ × ℕ)) : Plain d (stopped stop ops) := by
  constructor
  · intro n hn
    rcases mem_stopped hn with hn | ⟨_, _, heq⟩
    · exact h.makes n hn
    · cases heq
  · intro n hn
    rcases mem_stopped hn with hn | ⟨_, _, heq⟩
    · exact h.known n hn
    · cases heq

theorem burns_stopped (hnext : Fresh next d) (hback : back = [] ∨ ∃ rest, back = .create next :: rest ∧ Plain d rest) (stop : Option (ℕ × ℕ)) :
    Burns d (stopped stop back) := by
  rcases hback with rfl | ⟨rest, rfl, hrest⟩
  · match stop with
    | none => exact .none
    | some (n, kept) =>
      rw [stopped, take_nil, drop_nil]
      exact .none
  · match stop with
    | none => exact .made (nil_append _).symm hnext .nil hrest
    | some (0, kept) => exact .none
    | some (n + 1, kept) => exact .made (nil_append _).symm hnext .nil (hrest.stopped (some (n, kept)))

/-- A truncation with something behind its cut removes nothing, or ends and with a new file; an append that failed keeps
its name. -/
def Act.KeepsNames {ι : Type*} (a : Act ι) (v : View) (d : Directory) : Prop :=
  match a with
  | undo _ c => c.keepsName = true
  | truncate _ target refuses stop => (v.current d).behindCut target d = [] ∨ Refused refuses ((v.current d).behindCut target d) ∨
      stop = none ∧ (∀ n, refuses n = false) ∧ (v.current d).nextNumber ≤ maxSegmentNumber ∧ (v.current d).cutsInside target d = true
  | _ => True

theorem TailIndex.truncate_burns (hd : Ordered d) (hlisted : Listed ix d) (hkeeps : ix.behindCut target d = [] ∨
      Refused refuses (ix.behindCut target d) ∨ stop = none ∧ (∀ n, refuses n = false) ∧ ix.nextNumber ≤ maxSegmentNumber ∧ ix.cutsInside target d = true) :
    Burns d (stopped stop (ix.truncateAfter refuses target d).ops) := by
  obtain ⟨front, back, hform, hmade, hkept⟩ := ix.truncateAfter_form hd refuses target
  rw [hform.ops]
  rcases hkeeps with hnone | hrefused | ⟨rfl, hgranted, hnext, hinside⟩
  · have hfront : front = [] := by
      apply eq_nil_iff_forall_not_mem.mpr
      intro op hop
      obtain ⟨seg, hseg, -⟩ := hform.front op hop
      rw [hnone] at hseg
      cases hseg
    rw [hfront, nil_append]
    exact burns_stopped hlisted.fresh hform.back stop
  · obtain ⟨hfront, hback⟩ := hkept hrefused
    rw [hfront, nil_append, hback]
    exact burns_stopped hlisted.fresh (.inl rfl) stop
  · rcases hform.back with hnil | ⟨rest, hrest, hplain⟩
    · rw [hmade hgranted hnext hinside hnil, hnil]
      exact .none
    · have hbehind : ∀ seg ∈ ix.behindCut target d, seg ∈ d := by
        intro seg hseg
        apply (ix.files_sublist d).mem
        unfold behindCut at hseg
        split at hseg
        · exact mem_of_mem_tail hseg
        · exact (dropWhile_sublist _).mem (mem_of_mem_tail hseg)
      rw [hrest]
      exact .made rfl hlisted.fresh (plain_recycles hbehind hform.front) hplain

theorem truncatedView_numbered (h : Numbered ix) {t : Truncation} (uncertain : Bool)
    (hd : Ordered (runOps (stopped stop t.ops) d)) : (truncatedView ix uncertain t stop d).Numbered := by
  have hburn : ∀ burned, Numbered (ix.burn burned) := by
    intro burned
    have hnext : ix.nextNumber ≤ if burned then ix.nextNumber + 1 else ix.nextNumber := by split <;> omega
    exact h.raise (show (ix.burn burned).numbers = ix.numbers from rfl) hnext
  intro ix' heq
  cases stop with
  | none =>
    cases heq
    unfold truncatedIndex
    split
    · exact hburn _
    · exact (rescan_listed hd).numbered
  | some _ =>
    cases heq
    exact hburn _

/-! ## Recycling -/

theorem recycle_cases (refuses : ℕ → Bool) (horizon : ℕ) (ix : TailIndex) (d : Directory) :
    recycleOps refuses horizon ix d = [] ∧ recycledIndex refuses horizon ix d = ix ∨
      recycleOps refuses horizon ix d = ((dropped refuses horizon ix.segments).map fun info => .recycle info.number) ∧
        recycledIndex refuses horizon ix d = { ix with segments := ix.segments.drop (dropped refuses horizon ix.segments).length } := by
  unfold recycleOps recycledIndex recycle
  cases ix.damage.filter fun f => f.reason = .unsupportedVersion || f.reason = .unsupportedRequiredRecord with
  | none => exact .inr ⟨rfl, rfl⟩
  | some f => exact .inl ⟨rfl, rfl⟩

theorem recycle_burns (hlisted : Listed ix d) (hops : ops <+: (dropped refuses horizon ix.segments).map fun info => .recycle info.number) :
    Burns d ops := by
  have hmem : ∀ op ∈ ops, ∃ info ∈ dropped refuses horizon ix.segments, op = .recycle info.number := by
    intro op hop
    obtain ⟨info, hinfo, rfl⟩ := mem_map.mp (hops.mem hop)
    exact ⟨info, hinfo, rfl⟩
  have hnumbers : ∀ info ∈ dropped refuses horizon ix.segments, info.number ∈ ix.numbers :=
    fun info hinfo => mem_map_of_mem ((dropped_prefix_infos _ _ _).mem hinfo)
  refine .spared ⟨?_, ?_⟩ ?_
  · intro n hn
    obtain ⟨_, _, heq⟩ := hmem _ hn
    cases heq
  · intro n hn
    obtain ⟨info, hinfo, heq⟩ := hmem _ hn
    rw [FileOp.recycle.inj heq]
    exact hlisted.listed _ (hnumbers info hinfo)
  · intro n hn
    obtain ⟨info, hinfo, heq⟩ := hmem _ hn
    have hne : ix.segments ≠ [] := ne_nil_of_mem ((dropped_prefix_infos _ _ _).mem hinfo)
    obtain ⟨rest, hrest⟩ := dropped_prefix_infos refuses horizon ix.segments
    have hlt := dropped_lt refuses horizon hne
    have hrestne : rest ≠ [] := by
      rintro rfl
      rw [append_nil] at hrest
      exact lt_irrefl _ (hrest ▸ hlt)
    obtain ⟨newest, rest', rfl⟩ := exists_cons_of_ne_nil hrestne
    have hascending : (ix.segments.map SegmentInfo.number).Pairwise (· < ·) := hlisted.numbered.ascending
    rw [← hrest, map_append] at hascending
    have habove : ∀ x ∈ dropped refuses horizon ix.segments, x.number < newest.number := fun x hx =>
      (pairwise_append.mp hascending).2.2 _ (mem_map_of_mem hx) _ (mem_map_of_mem mem_cons_self)
    refine ⟨newest.number, hlisted.listed _ ?_, ?_, ?_⟩
    · rw [numbers, ← hrest]
      exact mem_map_of_mem (mem_append_right _ mem_cons_self)
    · rw [FileOp.recycle.inj heq]
      exact (habove info hinfo).le
    · intro hgone
      obtain ⟨x, hx, heq'⟩ := hmem _ hgone
      exact (habove x hx).ne' (FileOp.recycle.inj heq')

theorem recycledIndex_numbered (h : Numbered ix) : Numbered (recycledIndex refuses horizon ix d) := by
  rcases recycle_cases refuses horizon ix d with ⟨-, heq⟩ | ⟨-, heq⟩
  · rw [heq]
    exact h
  · rw [heq]
    have hsub : ((ix.segments.drop (dropped refuses horizon ix.segments).length).map SegmentInfo.number).Sublist ix.numbers :=
      (drop_sublist _ _).map _
    exact ⟨h.ascending.sublist hsub, fun n hn => h.next n (hsub.mem hn)⟩

/-! ## Runs -/

section Runs
variable {ι : Type*} {cfg : ι → LogConfig} {a : Act ι} {v : View} {pending : Option (Pending ι)}

theorem Act.burns (hd : Ordered d) (hv : v.Numbered) (h : a.KeepsNames v d) : Burns d (a.ops cfg pending v d) := by
  have hlisted := View.current_listed hv hd
  cases a with
  | restart i => exact .none
  | refresh i => exact .none
  | append i wall records c =>
    simp only [Act.ops]
    cases hprepare : prepareAppend (cfg i) (v.current d) v.uncertain wall records with
    | error _ => exact .none
    | ok a => exact a.burns hlisted (prepareAppend_ok hprepare).2 c
  | undo i c =>
    cases pending with
    | none => exact .none
    | some p => exact undo_burns h _ _ _
  | truncate i target refuses stop => exact TailIndex.truncate_burns hd hlisted h
  | recycle i horizon refuses stop =>
    have hpass : ∀ ops, ops <+: recycleOps refuses horizon (v.current d) d → Burns d ops := by
      intro ops hops
      rcases recycle_cases refuses horizon (v.current d) d with ⟨heq, -⟩ | ⟨heq, -⟩
      · rw [heq] at hops
        rw [prefix_nil.mp hops]
        exact .none
      · rw [heq] at hops
        exact recycle_burns hlisted hops
    cases stop with
    | none => exact hpass _ (prefix_refl _)
    | some n => exact hpass _ <| take_prefix _ _

theorem Act.view_numbered (hd : Ordered d) (hv : v.Numbered) (hd' : Ordered (runOps (a.ops cfg pending v d) d)) :
    (a.view cfg pending v d).Numbered := by
  have hnumbered := (View.current_listed hv hd).numbered
  have hsame : ∀ uncertain, View.Numbered ⟨some (v.current d), uncertain⟩ := fun _ _ heq => Option.some.inj heq ▸ hnumbered
  cases a with
  | restart i =>
    intro ix heq
    cases heq
  | refresh i => exact hsame _
  | append i wall records c =>
    simp only [Act.view]
    cases hprepare : prepareAppend (cfg i) (v.current d) v.uncertain wall records with
    | error _ => exact hsame _
    | ok a =>
      dsimp only
      split
      · exact fun _ heq => Option.some.inj heq ▸ registerAppend_numbered hnumbered (prepareAppend_ok hprepare).2
      · exact hsame _
  | undo i c =>
    cases pending with
    | none => exact hv
    | some p =>
      intro ix' heq
      obtain ⟨ix, hix, rfl⟩ := Option.map_eq_some_iff.mp heq
      exact (hv ix hix).undone _ _ _
  | truncate i target refuses stop => exact truncatedView_numbered hnumbered _ hd'
  | recycle i horizon refuses stop =>
    cases stop with
    | none => exact fun _ heq => Option.some.inj heq ▸ recycledIndex_numbered hnumbered
    | some n => exact hsame _

/-- The directory is in order, and it and every index know how far the numbering got. -/
structure Numbering (s : LogState ι) : Prop where
  ordered : Ordered s.files
  views : ∀ i, (s.views i).Numbered
  noReuse : NoReuse s.history
  burned : ∀ n, .recycle n ∈ s.history → ∃ m ∈ s.files.map Segment.number, n ≤ m

theorem numbering_start (hd : Ordered d) : Numbering (LogState.start ι d) :=
  ⟨hd, nofun, List.Pairwise.nil, nofun⟩

variable [DecidableEq ι]

theorem Numbering.step {s : LogState ι} (h : Numbering s) (hkeeps : a.KeepsNames (s.views a.actor) s.files) : Numbering (s.step cfg a) := by
  unfold LogState.step
  dsimp only
  split
  · exact h
  have hburns : Burns s.files (a.ops cfg s.pending (s.views a.actor) s.files) := Act.burns h.ordered (h.views a.actor) hkeeps
  have hordered := hburns.ordered h.ordered
  refine ⟨hordered, ?_, hburns.noReuse h.burned h.noReuse, ?_⟩
  · intro i
    show (Function.update s.views a.actor _ i).Numbered
    by_cases hi : i = a.actor
    · rw [hi, Function.update_self]
      exact Act.view_numbered h.ordered (h.views a.actor) hordered
    · rw [Function.update_of_ne hi]
      exact h.views i
  · intro n hn
    have hbefore : ∃ m ∈ s.files.map Segment.number, n ≤ m := by
      rcases mem_append.mp hn with hn | hn
      · exact h.burned n hn
      · exact ⟨n, hburns.known hn, le_rfl⟩
    obtain ⟨m, hm, hle⟩ := hbefore
    obtain ⟨m', hm', hle'⟩ := hburns.topped m hm
    exact ⟨m', hm', hle.trans hle'⟩

end Runs

/-- In a run whose steps all keep the names, no name of a segment that was let go is used for a new one. -/
theorem released_names_stay_unused {ι : Type*} [DecidableEq ι] (cfg : ι → LogConfig) (d : Directory) (hd : Ordered d) (acts : List (Act ι))
    (hkeeps : Transition.Along (LogState.step cfg) (fun s a => a.KeepsNames (s.views a.actor) s.files) (.start ι d) acts) :
    NoReuse ((LogState.start ι d).run cfg acts).history :=
  (hkeeps.invariant (fun _ _ h hstep => h.step hstep) (numbering_start hd)).noReuse

def smallSegments : LogConfig where
  segmentBytes := 256
  descriptor := [104]
  segmentBytes_ge := by decide
  segmentBytes_le := by decide
  descriptor_ne := by decide
  descriptor_valid := by decide
  descriptor_le := by decide

def unnumbered : WalRecord := begun 0

/-- Every call goes through. -/
def Answers.granted : Answers := ⟨none, none, none, false, none, false, false, false⟩

def cutBehind (target : ℕ) : List (Act Unit) :=
  [.append () 0 [unnumbered] .granted, .append () 0 (replicate 3 unnumbered) .granted, .truncate () target (fun _ => false) none,
    .append () 0 (replicate 3 unnumbered) .granted]

theorem released_names_stay_unused_cut : NoReuse ((LogState.start Unit []).run (fun _ => smallSegments) (cutBehind 4)).history := by
  apply released_names_stay_unused (fun _ => smallSegments) [] List.Pairwise.nil (cutBehind 4)
  refine ⟨trivial, trivial, .inl ?_, trivial, trivial⟩
  decide +kernel

/-- A cut at the end of a segment with one behind it: the second name is let go, and the next batch that
does not fit makes it again. -/
theorem released_name_reused : ¬ NoReuse ((LogState.start Unit []).run (fun _ => smallSegments) (cutBehind 2)).history := by
  have hhistory : (((LogState.start Unit []).run (fun _ => smallSegments) (cutBehind 2)).history.drop 4).take 2 = [.recycle 2, .create 2] := by
    decide +kernel
  intro h
  have htwo : NoReuse [.recycle 2, .create 2] := hhistory ▸ (h.sublist (drop_sublist _ _)).sublist (take_sublist _ _)
  exact (pairwise_cons.mp htwo).1 _ mem_cons_self 2 rfl rfl

end Grafx.Log
