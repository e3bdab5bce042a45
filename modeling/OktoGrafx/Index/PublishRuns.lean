import OktoGrafx.Index.OrderedPublish
import OktoGrafx.Lib.Transition

/-! Runs of publications on an ordered index, each of which may be cut short at any write. -/

namespace Grafx.Index

open List Checked TwoSlot RootFields
open IndexEntry (bare identity)

variable {ix : OrderedIndex} {f f' : OrderedFile} {b : Batch} {p : Publication} {x : OrderedRootDescriptor} {slot : Slot}
  {page : Option TreePage} {r : OrderedBatchPublication} {applied pageCount reconciled : ℕ} {pages : ℕ → Option TreePage}

/-! ## A file whose root is whole -/

def OrderedFile.entries (f : OrderedFile) (x : OrderedRootDescriptor) : List IndexEntry :=
  (treeEntries f.loader x.rootPage x.height).map bare

structure Sound (ix : OrderedIndex) (f : OrderedFile) (slot : Slot) (x : OrderedRootDescriptor) : Prop where
  roots : ∃ roots : Slots OrderedRootDescriptor, (∀ k, readRoot k (f.roots k) = .ok (roots k)) ∧ Current RootBehind roots slot x
  nonce : x.artifactNonce = ix.artifactNonce
  digest : x.definitionDigest = ix.definitionDigest
  horizon : f.builtThroughLsn ≤ x.appliedThroughLsn ∧ f.reconciledThroughLsn ≤ x.reconciledThroughLsn
  tree : Tree f.loader x.rootPage x.height
  count : (treeEntries f.loader x.rootPage x.height).length = x.entryCount
  within : x.rootPage ≠ noPage → x.rootPage < f.pageCount

section
variable (h : Sound ix f slot x)
include h

theorem Sound.certificate : ∃ damaged, readCertificate ix f = .ok ⟨x, slot, slot.other, damaged⟩ := by
  obtain ⟨roots, hread, hcurrent⟩ := h.roots
  obtain ⟨damaged, hchoose⟩ := chooseRoot_current hcurrent
  refine ⟨damaged, ?_⟩
  have hselect : selectOrderedRoot (f.roots .a) (f.roots .b) = .ok ⟨x, slot, slot.other, damaged⟩ := by
    rw [selectOrderedRoot, hread .a, ok_bind, hread .b, ok_bind, hchoose]
  rw [readCertificate, mapError_ok_iff.mpr hselect, ok_bind]
  simp only [ensure_pos h.nonce, ensure_pos h.digest, ensure_pos h.horizon, ok_bind]
  rfl

theorem Sound.adjacent {y z : OrderedRootDescriptor} (hy : readRoot .a (f.roots .a) = .ok (some y))
    (hz : readRoot .b (f.roots .b) = .ok (some z)) : y.generation = z.generation ∨ y.generation = z.generation + 1 ∨ z.generation = y.generation + 1 := by
  obtain ⟨roots, hread, hcurrent⟩ := h.roots
  have hy' : roots .a = some y := Except.ok.inj ((hread .a).symm.trans hy)
  have hz' : roots .b = some z := Except.ok.inj ((hread .b).symm.trans hz)
  cases slot with
  | a =>
    cases hcurrent.here.symm.trans hy'
    rcases (hcurrent.behind z hz').2.2 with ⟨rfl, -⟩ | hgeneration
    · exact .inl rfl
    · exact .inr (.inl hgeneration.symm)
  | b =>
    cases hcurrent.here.symm.trans hz'
    rcases (hcurrent.behind y hy').2.2 with ⟨rfl, -⟩ | hgeneration
    · exact .inl rfl
    · exact .inr (.inr hgeneration.symm)

theorem Sound.agree (hagree : Agree f.loader f'.loader f.pageCount) :
    Tree f'.loader x.rootPage x.height ∧ treeEntries f'.loader x.rootPage x.height = treeEntries f.loader x.rootPage x.height :=
  h.tree.transfer hagree h.within

omit h in
theorem loader_agree (hagree : Agree f.pages pages f.pageCount) (hcount : f.pageCount ≤ pageCount)
    (roots : Slots TreePage) : Agree f.loader (OrderedFile.loader ⟨f.builtThroughLsn, f.reconciledThroughLsn, roots, pages, pageCount⟩) f.pageCount := by
  intro u hu
  simp only [OrderedFile.loader, hu, hu.trans_le hcount, and_true, hagree u hu]

omit h in
theorem readRoots_set {pages : Slots TreePage} {roots : Slots OrderedRootDescriptor} (hread : ∀ k, readRoot k (pages k) = .ok (roots k))
    {y : Option OrderedRootDescriptor} (hpage : readRoot slot page = .ok y) (k : Slot) :
    readRoot k (pages.set slot page k) = .ok (roots.set slot y k) := by
  by_cases hk : k = slot
  · subst hk
    rw [Slots.set_self, Slots.set_self]
    exact hpage
  · rw [Slots.set_ne _ hk, Slots.set_ne _ hk]
    exact hread k

theorem Sound.kept (hagree : Agree f.pages pages f.pageCount) (hcount : f.pageCount ≤ pageCount)
    (hpage : page = f.roots slot.other ∨ readRoot slot.other page = .ok none) :
    Sound ix ⟨f.builtThroughLsn, f.reconciledThroughLsn, f.roots.set slot.other page, pages, pageCount⟩ slot x ∧
      OrderedFile.entries ⟨f.builtThroughLsn, f.reconciledThroughLsn, f.roots.set slot.other page, pages, pageCount⟩ x = f.entries x := by
  obtain ⟨htree, hentries⟩ := h.agree (loader_agree hagree hcount (f.roots.set slot.other page))
  refine ⟨⟨?_, h.nonce, h.digest, h.horizon, htree, by rw [hentries, h.count], fun hroot => (h.within hroot).trans_le hcount⟩,
    congrArg (map bare) hentries⟩
  obtain ⟨roots, hread, hcurrent⟩ := h.roots
  rcases hpage with rfl | hdamaged
  · exact ⟨roots, by rwa [Slots.set_get], hcurrent⟩
  · exact ⟨roots.set slot.other none, readRoots_set hread hdamaged, hcurrent.torn⟩

/-! ## One call -/

omit h in
theorem planBatch_ok_iff {r : Planned} : planBatch ix f b = .ok r ↔
    b.changes.forM (checkIndex ix) = .ok ⟨⟩ ∧ checkPositions ix b = .ok () ∧ ∃ before, readCertificate ix f = .ok before ∧
      planPublication ix f b before = .ok r := by
  simp only [planBatch, bind_ok_iff, mapError_ok_iff]
  constructor
  · rintro ⟨_, hindex, _, hpositions, before, hbefore, hplan⟩
    exact ⟨hindex, hpositions, before, hbefore, hplan⟩
  · rintro ⟨hindex, hpositions, before, hbefore, hplan⟩
    exact ⟨_, hindex, _, hpositions, before, hbefore, hplan⟩

theorem Sound.skips (happlied : b.appliedThroughLsn ≤ x.appliedThroughLsn)
    (hreconciled : ∀ r ∈ b.reconciledThroughLsn, r ≤ x.reconciledThroughLsn) : planBatch ix f b ≠ .ok (.publish p) := by
  intro hplan
  obtain ⟨-, -, before, hbefore, hplan⟩ := planBatch_ok_iff.mp hplan
  obtain ⟨damaged, hcertificate⟩ := h.certificate
  cases hcertificate.symm.trans hbefore
  have hrequested : b.reconciledThroughLsn.getD x.reconciledThroughLsn ≤ x.reconciledThroughLsn := by
    cases hr : b.reconciledThroughLsn with
    | none => exact le_rfl
    | some r => exact hreconciled r hr
  rw [planPublication, if_pos ⟨happlied, hrequested⟩] at hplan
  exact nomatch hplan

structure Plans (ix : OrderedIndex) (f : OrderedFile) (slot : Slot) (x : OrderedRootDescriptor) (b : Batch) (p : Publication) : Prop where
  page : p.publicationPage = slot.other
  generation : p.descriptor.generation = x.generation + 1
  nonce : p.descriptor.artifactNonce = ix.artifactNonce
  digest : p.descriptor.definitionDigest = ix.definitionDigest
  applied : p.descriptor.appliedThroughLsn = max x.appliedThroughLsn b.appliedThroughLsn
  reconciled : x.reconciledThroughLsn ≤ p.descriptor.reconciledThroughLsn ∧
    ∀ r ∈ b.reconciledThroughLsn, r ≤ p.descriptor.reconciledThroughLsn
  mutation : ∃ m, mutateOrderedTree ⟨ix.pageSize, f.pageCount, b.appliedThroughLsn⟩ f.loader x.rootPage x.height x.entryCount b.changes = .ok m ∧
    p.pages = m.pages ∧ p.descriptor.rootPage = m.rootPage ∧ p.descriptor.height = m.height ∧ p.descriptor.entryCount = m.entryCount

omit h in
theorem le_reconciledThrough (changes : List TreeChange) (reconciled : ℕ) : reconciled ≤ reconciledThrough changes reconciled := by
  unfold reconciledThrough
  induction changes generalizing reconciled with
  | nil => exact le_rfl
  | cons c changes ih =>
    rw [foldl_cons]
    apply Nat.le_trans _ (ih _)
    split
    · exact le_max_left _ _
    · exact le_rfl

theorem Sound.plans (hplan : planBatch ix f b = .ok (.publish p)) : Plans ix f slot x b p := by
  obtain ⟨-, -, before, hbefore, hplan⟩ := planBatch_ok_iff.mp hplan
  obtain ⟨damaged, hcertificate⟩ := h.certificate
  cases hcertificate.symm.trans hbefore
  rw [planPublication] at hplan
  split at hplan
  · exact nomatch hplan
  · obtain ⟨m, hm, hplan⟩ := bind_ok_iff.mp hplan
    obtain ⟨y, hy, hplan⟩ := bind_ok_iff.mp hplan
    have hp : Publication.mk y slot.other m.pages m.missingTargets = p := by
      have heq := pure_ok_iff.mp hplan
      exact Planned.publish.inj heq
    subst hp
    have hfields := descriptor_ok_iff.mp (mapError_ok_iff.mp hy)
    have hle := le_reconciledThrough b.changes (max x.reconciledThroughLsn (b.reconciledThroughLsn.getD x.reconciledThroughLsn))
    have hreconciled : y.reconciledThroughLsn = _ := congrArg reconciledThroughLsn hfields
    refine ⟨rfl, congrArg RootFields.generation hfields, congrArg artifactNonce hfields,
      congrArg definitionDigest hfields, congrArg appliedThroughLsn hfields, ⟨?_, ?_⟩, m, mapError_ok_iff.mp hm, rfl,
      congrArg rootPage hfields, congrArg height hfields, congrArg entryCount hfields⟩
    · rw [hreconciled]
      exact (le_max_left _ _).trans hle
    · intro r hr
      rw [hreconciled]
      rw [Option.mem_def.mp hr] at hle ⊢
      exact (le_max_right _ _).trans hle

theorem Sound.appended (hplans : Plans ix f slot x b p) :
    firstOrderedTreePage ≤ f.pageCount ∧ p.pages.map (·.pageIndex) = range' f.pageCount p.pages.length ∧
      Agree f.pages (overlay f.pages p.pages) f.pageCount := by
  obtain ⟨m, hm, hpages, -⟩ := hplans.mutation
  rw [← h.count] at hm
  obtain ⟨hfirst, hindex, -⟩ := mutateOrderedTree_sound h.tree h.within hm
  rw [hpages]
  exact ⟨hfirst, hindex, (overlay_of_index hindex le_rfl).1⟩

theorem Sound.landed (hplans : Plans ix f slot x b p) : Sound ix (landRoot ix (landPages f p) p) slot.other p.descriptor ∧
      (landRoot ix (landPages f p) p).entries p.descriptor = b.changes.foldl foldChange (f.entries x) := by
  obtain ⟨hfirst, hindex, hoverlay⟩ := h.appended hplans
  obtain ⟨m, hm, hpages, hroot, hheight, hcount⟩ := hplans.mutation
  rw [← h.count] at hm
  obtain ⟨-, -, hbelow, hsound⟩ := mutateOrderedTree_sound h.tree h.within hm
  rw [← hpages] at hbelow hsound
  have hagree : Agree f.loader (landRoot ix (landPages f p) p).loader f.pageCount := loader_agree hoverlay (Nat.le_add_right _ _) _
  have hstores : Stores (landRoot ix (landPages f p) p).loader p.pages := by
    intro q hq
    have hstored : overlay f.pages p.pages q.pageIndex = some q := (overlay_of_index hindex le_rfl).2 q hq
    have hmem : q.pageIndex ∈ range' f.pageCount p.pages.length := hindex ▸ mem_map_of_mem hq
    obtain ⟨hge, hlt⟩ := mem_range'_1.mp hmem
    show (if firstOrderedTreePage ≤ q.pageIndex ∧ q.pageIndex < f.pageCount + p.pages.length then overlay f.pages p.pages q.pageIndex else none) = _
    rw [if_pos ⟨hfirst.trans hge, hlt⟩, hstored]
  obtain ⟨htree, hsize, hentries⟩ := hsound _ hagree hstores
  rw [← hroot, ← hheight] at htree hsize hentries
  refine ⟨⟨?_, hplans.nonce, hplans.digest, ?_, htree, hsize.symm.trans hcount.symm, ?_⟩, hentries⟩
  · obtain ⟨roots, hread, hcurrent⟩ := h.roots
    have hpage : readRoot p.publicationPage (some (makeOrderedRootPage p.descriptor p.publicationPage ix.pageSize)) = .ok (some p.descriptor) :=
      readRoot_make p.descriptor p.publicationPage ix.pageSize
    refine ⟨roots.set p.publicationPage (some p.descriptor), readRoots_set hread hpage, ?_⟩
    rw [hplans.page]
    apply hcurrent.landed
    exact ⟨h.nonce.trans hplans.nonce.symm, h.digest.trans hplans.digest.symm, .inr hplans.generation.symm⟩
  · obtain ⟨hbuilt, hreconciled⟩ := h.horizon
    refine ⟨?_, hreconciled.trans hplans.reconciled.1⟩
    rw [hplans.applied]
    exact hbuilt.trans (le_max_left _ _)
  · intro hne
    rw [hroot] at hne ⊢
    exact hbelow hne

/-! ## Runs -/

/-- The file, the root last written whole and the batches whose roots were, `inOrder` if none was missing. -/
structure PublishState where
  file : OrderedFile
  published : OrderedRootDescriptor
  taken : List Batch
  inOrder : Bool

def PublishState.land (log : List Batch) (s : PublishState) (b : Batch) (f : OrderedFile) (x : OrderedRootDescriptor) : PublishState :=
  ⟨f, x, s.taken ++ [b], s.inOrder && decide (s.published.appliedThroughLsn < b.appliedThroughLsn ∧
    ∀ c ∈ log, s.file.builtThroughLsn < c.appliedThroughLsn → c.appliedThroughLsn < b.appliedThroughLsn → c ∈ s.taken)⟩

/-- What a publication cut short leaves, and whether its root page came through. Until the first barrier
anything may lie behind the old end. -/
inductive Cut (ix : OrderedIndex) (f : OrderedFile) (p : Publication) : OrderedFile → Bool → Prop where
  | data {pages : ℕ → Option TreePage} {pageCount : ℕ} (hagree : Agree f.pages pages f.pageCount) (hcount : f.pageCount ≤ pageCount) :
      Cut ix f p { f with pages, pageCount } false
  | lost : Cut ix f p (landPages f p) false
  | torn {page : Option TreePage} (hpage : readRoot p.publicationPage page = .ok none) :
      Cut ix f p { landPages f p with roots := f.roots.set p.publicationPage page } false
  | whole : Cut ix f p (landRoot ix (landPages f p) p) true

/-- A call returns, is refused, or is cut short. -/
inductive Call (ix : OrderedIndex) (log : List Batch) (s : PublishState) (b : Batch) : PublishState → Prop where
  | skipped {r : OrderedBatchPublication} {f : OrderedFile} (hok : publishCommittedBatch ix s.file b = .ok (r, f))
      (hskip : r.replaySkipped = true) : Call ix log s b { s with file := f }
  | returned {r : OrderedBatchPublication} {f : OrderedFile} (hok : publishCommittedBatch ix s.file b = .ok (r, f))
      (hnew : r.replaySkipped = false) : Call ix log s b (s.land log b f r.descriptor)
  | refused {e : PublishRefusal} (hplan : planBatch ix s.file b = .error e) : Call ix log s b s
  | lost {p : Publication} {f : OrderedFile} (hplan : planBatch ix s.file b = .ok (.publish p)) (hcut : Cut ix s.file p f false) :
      Call ix log s b { s with file := f }
  | whole {p : Publication} {f : OrderedFile} (hplan : planBatch ix s.file b = .ok (.publish p)) (hcut : Cut ix s.file p f true) :
      Call ix log s b (s.land log b f p.descriptor)

def Runs (ix : OrderedIndex) (log : List Batch) : PublishState → PublishState → Prop :=
  Relation.ReflTransGen fun s t => ∃ b ∈ log, Call ix log s b t

omit h in
theorem publish_cases (h : publishCommittedBatch ix f b = .ok (r, f')) :
    (r.replaySkipped = true ∧ f' = f ∧ ∃ current, planBatch ix f b = .ok (.skip current)) ∨
      (r.replaySkipped = false ∧ ∃ p, planBatch ix f b = .ok (.publish p) ∧ r.descriptor = p.descriptor ∧ f' = landRoot ix (landPages f p) p) := by
  obtain ⟨planned, hplan, h⟩ := bind_ok_iff.mp h
  cases planned with
  | skip current =>
    cases pure_ok_iff.mp h
    exact .inl ⟨rfl, rfl, current, hplan⟩
  | publish p =>
    obtain ⟨after, -, h⟩ := bind_ok_iff.mp h
    obtain ⟨_, -, h⟩ := bind_ok_iff.mp h
    cases pure_ok_iff.mp h
    exact .inr ⟨rfl, p, hplan, rfl, rfl⟩

omit h in
theorem Call.cases {log : List Batch} {s t : PublishState} (h : Call ix log s b t) :
    t = s ∨ ∃ p, planBatch ix s.file b = .ok (.publish p) ∧ ((∃ f, Cut ix s.file p f false ∧ t = { s with file := f }) ∨
      t = s.land log b (landRoot ix (landPages s.file p) p) p.descriptor) := by
  cases h with
  | skipped hok hskip =>
    rcases publish_cases hok with ⟨-, rfl, -⟩ | ⟨hnew, -⟩
    · exact .inl rfl
    · exact absurd (hskip.symm.trans hnew) (by simp)
  | returned hok hnew =>
    rcases publish_cases hok with ⟨hskip, -⟩ | ⟨-, p, hplan, hdescriptor, rfl⟩
    · exact absurd (hskip.symm.trans hnew) (by simp)
    · rw [hdescriptor]
      exact .inr ⟨p, hplan, .inr rfl⟩
  | refused hplan => exact .inl rfl
  | lost hplan hcut => exact .inr ⟨_, hplan, .inl ⟨_, hcut, rfl⟩⟩
  | whole hplan hcut =>
    cases hcut
    exact .inr ⟨_, hplan, .inr rfl⟩

theorem Sound.cut (hplans : Plans ix f slot x b p) (hcut : Cut ix f p f' false) :
    Sound ix f' slot x ∧ f'.entries x = f.entries x ∧ f'.builtThroughLsn = f.builtThroughLsn := by
  obtain ⟨-, -, hagree⟩ := h.appended hplans
  have hsame : f.roots.set slot.other (f.roots slot.other) = f.roots := Slots.set_get f.roots slot.other
  cases hcut with
  | data hagree hcount =>
    have hkept := h.kept hagree hcount (.inl rfl)
    rw [hsame] at hkept
    exact ⟨hkept.1, hkept.2, rfl⟩
  | lost =>
    have hkept := h.kept hagree (Nat.le_add_right _ p.pages.length) (.inl rfl)
    rw [hsame] at hkept
    exact ⟨hkept.1, hkept.2, rfl⟩
  | torn hpage =>
    rw [hplans.page] at hpage ⊢
    have hkept := h.kept hagree (Nat.le_add_right _ p.pages.length) (.inr hpage)
    exact ⟨hkept.1, hkept.2, rfl⟩

end

structure Holds (ix : OrderedIndex) (log : List Batch) (es : List IndexEntry) (s : PublishState) : Prop where
  sound : ∃ slot, Sound ix s.file slot s.published
  entries : s.file.entries s.published = (s.taken.flatMap (·.changes)).foldl foldChange es
  covered : ∀ b ∈ s.taken, b.appliedThroughLsn ≤ s.published.appliedThroughLsn ∧
    ∀ r ∈ b.reconciledThroughLsn, r ≤ s.published.reconciledThroughLsn
  nodup : s.taken.Nodup
  logged : ∀ b ∈ s.taken, b ∈ log
  ordered : s.inOrder = true → Keyed.Sorted Batch.appliedThroughLsn s.taken ∧
    ∀ c ∈ log, c ∈ s.taken ↔ s.file.builtThroughLsn < c.appliedThroughLsn ∧ c.appliedThroughLsn ≤ s.published.appliedThroughLsn

section Holds
variable {log : List Batch} {es : List IndexEntry} {s t : PublishState}

variable (h : Holds ix log es s)
include h

variable (hlog : Keyed.Sorted Batch.appliedThroughLsn log)
include hlog

theorem Holds.land_ordered (hb : b ∈ log) (hplans : Plans ix s.file slot s.published b p) (hbuilt : f.builtThroughLsn = s.file.builtThroughLsn)
    (hin : (s.land log b f p.descriptor).inOrder = true) :
    Keyed.Sorted Batch.appliedThroughLsn (s.taken ++ [b]) ∧
    ∀ c ∈ log, c ∈ s.taken ++ [b] ↔ f.builtThroughLsn < c.appliedThroughLsn ∧ c.appliedThroughLsn ≤ p.descriptor.appliedThroughLsn := by
  obtain ⟨hbefore, hnext⟩ := Bool.and_eq_true_iff.mp hin
  obtain ⟨hafter, hearlier⟩ := of_decide_eq_true hnext
  obtain ⟨hpairwise, hmem⟩ := h.ordered hbefore
  obtain ⟨slot', hsound⟩ := h.sound
  have hlast : p.descriptor.appliedThroughLsn = b.appliedThroughLsn := by
    rw [hplans.applied]
    exact max_eq_right hafter.le
  have hsame : ∀ c ∈ log, c.appliedThroughLsn = b.appliedThroughLsn → c = b := fun c hc heq =>
    inj_on_of_nodup_map hlog.nodup hc hb heq
  constructor
  · refine pairwise_append.mpr ⟨hpairwise, pairwise_singleton _ b, fun c hc c' hc' => ?_⟩
    rw [mem_singleton.mp hc']
    exact (h.covered c hc).1.trans_lt hafter
  · intro c hc
    rw [mem_append, mem_singleton, hlast, hbuilt]
    constructor
    · rintro (hold | rfl)
      · obtain ⟨hcreated, happlied⟩ := (hmem c hc).mp hold
        exact ⟨hcreated, (Nat.lt_of_le_of_lt happlied hafter).le⟩
      · exact ⟨hsound.horizon.1.trans_lt hafter, le_rfl⟩
    · rintro ⟨hcreated, hle⟩
      rcases Nat.lt_or_eq_of_le hle with hlt | heq
      · exact .inl (hearlier c hc hcreated hlt)
      · exact .inr (hsame c hc heq)

theorem Holds.call (hb : b ∈ log) (hcall : Call ix log s b t) : Holds ix log es t := by
  obtain ⟨slot, hsound⟩ := h.sound
  rcases hcall.cases with rfl | ⟨p, hplan, hcase⟩
  · exact h
  have hplans := hsound.plans hplan
  rcases hcase with ⟨f, hcut, rfl⟩ | rfl
  · obtain ⟨hsound', hentries, hbuilt⟩ := hsound.cut hplans hcut
    refine ⟨⟨slot, hsound'⟩, hentries.trans h.entries, h.covered, h.nodup, h.logged, fun hin => ?_⟩
    rw [hbuilt]
    exact h.ordered hin
  · obtain ⟨hsound', hentries⟩ := hsound.landed hplans
    have hfresh : b ∉ s.taken := fun hmem => hsound.skips (h.covered b hmem).1 (h.covered b hmem).2 hplan
    refine ⟨⟨slot.other, hsound'⟩, ?_, ?_, ?_, ?_, ?_⟩
    · show _ = ((s.taken ++ [b]).flatMap _).foldl foldChange es
      rw [flatMap_append, foldl_append, flatMap_singleton, ← h.entries]
      exact hentries
    · intro c hc
      show c.appliedThroughLsn ≤ p.descriptor.appliedThroughLsn ∧ _
      rw [hplans.applied]
      rcases mem_append.mp hc with hc | hc
      · obtain ⟨happlied, hreconciled⟩ := h.covered c hc
        exact ⟨happlied.trans (le_max_left _ _), fun r hr => (hreconciled r hr).trans hplans.reconciled.1⟩
      · rw [mem_singleton.mp hc]
        exact ⟨le_max_right _ _, hplans.reconciled.2⟩
    · exact nodup_append.mpr ⟨h.nodup, nodup_singleton b, fun c hc c' hc' heq => hfresh (mem_singleton.mp hc' ▸ heq ▸ hc)⟩
    · intro c hc
      rcases mem_append.mp hc with hc | hc
      · exact h.logged c hc
      · rwa [mem_singleton.mp hc]
    · exact h.land_ordered hlog hb hplans rfl

theorem Holds.runs (hrun : Runs ix log s t) : Holds ix log es t :=
  Transition.invariant (fun hs ⟨_, hb, hcall⟩ => hs.call hlog hb hcall) hrun h

end Holds

/-! ## New files -/

theorem pageMap_loader {pages : List TreePage} (hindex : pages.map (·.pageIndex) = range' firstOrderedTreePage pages.length)
    (applied reconciled : ℕ) (roots : Slots TreePage) :
    OrderedFile.loader ⟨applied, reconciled, roots, pageMap pages, firstOrderedTreePage + pages.length⟩ = pageMap pages := by
  funext i
  unfold OrderedFile.loader
  split
  · rfl
  · rename_i hout
    symm
    apply find?_eq_none.mpr
    intro p hp heq
    have hi : p.pageIndex = i := by simpa using heq
    have hmem : p.pageIndex ∈ range' firstOrderedTreePage pages.length := hindex ▸ mem_map_of_mem hp
    exact hout (hi ▸ mem_range'_1.mp hmem)

section
variable {entries : List IndexEntry} (h : createBulk ix entries applied reconciled = .ok (x, f))
include h

theorem createBulk_sound :
    Sound ix f .a x ∧ f.entries x = (Keyed.sort identity entries).map bare ∧ f.builtThroughLsn = applied ∧
      x.appliedThroughLsn = applied := by
  obtain ⟨_, -, h⟩ := bind_ok_iff.mp h
  obtain ⟨build, hbuild, h⟩ := bind_ok_iff.mp h
  obtain ⟨y, hy, h⟩ := bind_ok_iff.mp h
  obtain ⟨selected, -, h⟩ := bind_ok_iff.mp h
  obtain ⟨_, -, h⟩ := bind_ok_iff.mp h
  obtain ⟨rfl, rfl⟩ := Prod.mk.inj (pure_ok_iff.mp h)
  have hfields := descriptor_ok_iff.mp (mapError_ok_iff.mp hy)
  have hroot : y.rootPage = build.rootPage := congrArg rootPage hfields
  have hheight : y.height = build.height := congrArg height hfields
  have hcount : y.entryCount = build.entryCount := congrArg entryCount hfields
  have happlied : y.appliedThroughLsn = applied := congrArg appliedThroughLsn hfields
  have hreconciled : y.reconciledThroughLsn = reconciled := congrArg reconciledThroughLsn hfields
  have hbuilt := buildOrderedTree_built (mapError_ok_iff.mp hbuild)
  obtain ⟨htree, hentries, hlength, hwithin⟩ := hbuilt.whole
  have hloader := pageMap_loader hbuilt.pages_index applied reconciled fun slot => some (makeOrderedRootPage y slot ix.pageSize)
  rw [← hloader, ← hroot, ← hheight] at htree hentries hlength
  refine ⟨⟨⟨fun _ => some y, fun k => readRoot_make y k ix.pageSize, rfl, ?_⟩, congrArg artifactNonce hfields,
    congrArg definitionDigest hfields, ⟨happlied.symm.le, hreconciled.symm.le⟩, htree, hlength.trans hcount.symm,
    hroot ▸ hwithin⟩, hentries, rfl, happlied⟩
  intro z hz
  cases hz
  exact ⟨rfl, rfl, .inl ⟨rfl, rfl⟩⟩

def PublishState.created (f : OrderedFile) (x : OrderedRootDescriptor) : PublishState := ⟨f, x, [], true⟩

theorem Holds.created (log : List Batch) : Holds ix log ((Keyed.sort identity entries).map bare) (.created f x) where
  sound := ⟨.a, (createBulk_sound h).1⟩
  entries := (createBulk_sound h).2.1
  covered := nofun
  nodup := nodup_nil
  logged := nofun
  ordered := by
    obtain ⟨-, -, hbuilt, happlied⟩ := createBulk_sound h
    refine fun _ => ⟨.nil, fun c _ => ?_⟩
    show c ∈ [] ↔ f.builtThroughLsn < c.appliedThroughLsn ∧ c.appliedThroughLsn ≤ x.appliedThroughLsn
    rw [hbuilt, happlied]
    exact iff_of_false not_mem_nil fun hbetween => absurd hbetween.1 (not_lt.mpr hbetween.2)

end

theorem Holds.taken_eq {log : List Batch} {es : List IndexEntry} {s : PublishState} (h : Holds ix log es s)
    (hlog : Keyed.Sorted Batch.appliedThroughLsn log) (hin : s.inOrder = true) :
    s.taken = log.filter fun c => decide (s.file.builtThroughLsn < c.appliedThroughLsn ∧ c.appliedThroughLsn ≤ s.published.appliedThroughLsn) := by
  obtain ⟨hsorted, hmem⟩ := h.ordered hin
  apply hsorted.ext_mem (List.Pairwise.filter _ hlog)
  intro c
  rw [mem_filter, decide_eq_true_iff]
  constructor
  · intro hc
    exact ⟨h.logged c hc, (hmem c (h.logged c hc)).mp hc⟩
  · rintro ⟨hc, hbetween⟩
    exact (hmem c hc).mpr hbetween

/-- In every run from a new file the selected root is the one last written whole and its tree verifies. A call moves
the selection to the root it had in flight or not at all, and a call with a batch that is covered does nothing.
The entries are those of the published batches, each applied once. -/
theorem publication_runs (ix : OrderedIndex) (entries : List IndexEntry) (applied reconciled : ℕ) (x : OrderedRootDescriptor) (f : OrderedFile)
    (hcreated : createBulk ix entries applied reconciled = .ok (x, f)) (log : List Batch) (hlog : Keyed.Sorted Batch.appliedThroughLsn log)
    (s : PublishState) (hrun : Runs ix log (.created f x) s) :
    (∃ selection, readCertificate ix s.file = .ok selection ∧ selection.descriptor = s.published) ∧
    (∃ v, verifyOrderedTree s.file.loader s.published.rootPage s.published.height (some s.published.entryCount) = .ok v) ∧
    (∀ y z, readRoot .a (s.file.roots .a) = .ok (some y) → readRoot .b (s.file.roots .b) = .ok (some z) →
      y.generation = z.generation ∨ y.generation = z.generation + 1 ∨ z.generation = y.generation + 1) ∧
    (∀ b t, Call ix log s b t → t.published = s.published ∨ ∃ p, planBatch ix s.file b = .ok (.publish p) ∧ t.published = p.descriptor) ∧
    (∀ b t, b.appliedThroughLsn ≤ s.published.appliedThroughLsn → (∀ r ∈ b.reconciledThroughLsn, r ≤ s.published.reconciledThroughLsn) →
      Call ix log s b t → t = s) ∧
    (∀ b ∈ s.taken, ∀ t, Call ix log s b t → t = s) ∧
    s.file.entries s.published =
      (s.taken.flatMap (·.changes)).foldl foldChange ((Keyed.sort identity entries).map bare) ∧
    s.taken.Nodup ∧
    (s.inOrder = true → s.taken = log.filter fun b =>
      decide (s.file.builtThroughLsn < b.appliedThroughLsn ∧ b.appliedThroughLsn ≤ s.published.appliedThroughLsn)) := by
  have h := (Holds.created hcreated log).runs hlog hrun
  obtain ⟨slot, hsound⟩ := h.sound
  obtain ⟨damaged, hcertificate⟩ := hsound.certificate
  have hskip : ∀ b t, b.appliedThroughLsn ≤ s.published.appliedThroughLsn →
      (∀ r ∈ b.reconciledThroughLsn, r ≤ s.published.reconciledThroughLsn) → Call ix log s b t → t = s := by
    intro b t happlied hreconciled hcall
    rcases hcall.cases with heq | ⟨p, hplan, -⟩
    · exact heq
    · exact absurd hplan (hsound.skips happlied hreconciled)
  refine ⟨⟨_, hcertificate, rfl⟩, ?_, fun y z => hsound.adjacent, ?_, hskip, ?_, h.entries, h.nodup, h.taken_eq hlog⟩
  · apply verifyOrderedTree_ok_iff.mpr
    exact ⟨hsound.tree, fun n hn => hsound.count.trans (Option.some.inj hn)⟩
  · intro b t hcall
    rcases hcall.cases with rfl | ⟨p, hplan, ⟨f, -, rfl⟩ | rfl⟩
    · exact .inl rfl
    · exact .inl rfl
    · exact .inr ⟨p, hplan, rfl⟩
  · intro b hb t
    exact hskip b t (h.covered b hb).1 (h.covered b hb).2

def ordersByName : OrderedIndex := ⟨"by_name", id, 7, replicate 16 1, 512⟩

def insertOne (i : Byte) (lsn : ℕ) : Batch := ⟨[(longEntry i).insertion "by_name"], lsn, none⟩

def lostThen (ix : OrderedIndex) (first second : Batch) (f : OrderedFile) : Option (Publication × OrderedBatchPublication × OrderedFile) :=
  match planBatch ix f first with
  | .ok (.publish p) => (publishCommittedBatch ix (landPages f p) second).toOption.map fun r => (p, r)
  | _ => none

theorem lostThen_some {log : List Batch} {first second : Batch}
    (h : lostThen ix first second f = some (p, r, f')) (hfirst : first ∈ log) (hsecond : second ∈ log) (hnew : r.replaySkipped = false) :
    Runs ix log (.created f x) (PublishState.land log ⟨landPages f p, x, [], true⟩ second f' r.descriptor) := by
  unfold lostThen at h
  split at h
  · rename_i p' hplan
    obtain ⟨r', hr', heq⟩ := Option.map_eq_some_iff.mp h
    cases heq
    exact .tail (.single ⟨first, hfirst, .lost hplan .lost⟩) ⟨second, hsecond, .returned (toOption_some_iff.mp hr') hnew⟩
  · exact nomatch h

theorem publication_runs_again : ∃ x f s, createBulk ordersByName [] 4 4 = .ok (x, f) ∧ Runs ordersByName [insertOne 0 5] (.created f x) s ∧
    s.taken = [insertOne 0 5] ∧ ∀ t, Call ordersByName [insertOne 0 5] s (insertOne 0 5) t → t = s := by
  have hrun : ((createBulk ordersByName [] 4 4).toOption.bind fun c => (lostThen ordersByName (insertOne 0 5) (insertOne 0 5) c.2).map fun r =>
      r.2.1.replaySkipped) = some false := by decide +kernel
  obtain ⟨⟨x, f⟩, hcreated, hrun⟩ := Option.bind_eq_some_iff.mp hrun
  obtain ⟨⟨p, r, f'⟩, hlost, hnew⟩ := Option.map_eq_some_iff.mp hrun
  have hcreated := toOption_some_iff.mp hcreated
  have hruns := lostThen_some (x := x) hlost (mem_singleton_self _) (mem_singleton_self _) hnew
  obtain ⟨-, -, -, -, -, hreplay, -⟩ := publication_runs ordersByName [] 4 4 x f hcreated [insertOne 0 5] (pairwise_singleton _ _) _ hruns
  exact ⟨x, f, _, hcreated, hruns, rfl, hreplay _ (mem_singleton_self _)⟩

/-- A batch published past one whose root was lost keeps that one out: its replay is skipped. -/
theorem lost_batch_stays_out : ∃ x f s, createBulk ordersByName [] 4 4 = .ok (x, f) ∧
    Runs ordersByName [insertOne 0 5, insertOne 1 6] (.created f x) s ∧
    (∀ b ∈ [insertOne 0 5, insertOne 1 6], b.appliedThroughLsn ≤ s.published.appliedThroughLsn) ∧
    ((publishCommittedBatch ordersByName s.file (insertOne 0 5)).toOption.map fun r => r.1.replaySkipped) = some true ∧
    s.file.entries s.published ≠ ([insertOne 0 5, insertOne 1 6].flatMap (·.changes)).foldl foldChange [] := by
  have hrun : ((createBulk ordersByName [] 4 4).toOption.bind fun c => (lostThen ordersByName (insertOne 0 5) (insertOne 1 6) c.2).map fun r =>
      (r.2.1.replaySkipped, r.2.1.descriptor.appliedThroughLsn, (publishCommittedBatch ordersByName r.2.2 (insertOne 0 5)).toOption.map
        fun r => r.1.replaySkipped, (r.2.2.entries r.2.1.descriptor).length)) = some (false, 6, some true, 1) := by decide +kernel
  obtain ⟨⟨x, f⟩, hcreated, hrun⟩ := Option.bind_eq_some_iff.mp hrun
  obtain ⟨⟨p, r, f'⟩, hlost, hvalues⟩ := Option.map_eq_some_iff.mp hrun
  obtain ⟨hnew, happlied, hskipped, hlength⟩ : r.replaySkipped = false ∧ r.descriptor.appliedThroughLsn = 6 ∧
      ((publishCommittedBatch ordersByName f' (insertOne 0 5)).toOption.map fun r => r.1.replaySkipped) = some true ∧
      (f'.entries r.descriptor).length = 1 := by simpa using hvalues
  refine ⟨x, f, _, toOption_some_iff.mp hcreated, lostThen_some hlost mem_cons_self (mem_cons_of_mem _ (mem_singleton_self _)) hnew,
    ?_, hskipped, ?_⟩
  · intro b hb
    show b.appliedThroughLsn ≤ r.descriptor.appliedThroughLsn
    rw [happlied]
    revert b
    decide
  · intro heq
    have hboth := (congrArg length heq).symm.trans hlength
    exact absurd hboth (by decide +kernel)

end Grafx.Index
