import OktoGrafx.Index.TreeBuild
import OktoGrafx.Index.OrderedRoot

/-! Publication of committed batches on an ordered index. Tree pages are appended and made durable
first; then the page that does not hold the current root is overwritten with the next one. -/

namespace Grafx.Index

open Checked TwoSlot

def noLsn : ℕ := 0

structure OrderedIndex where
  name : String
  casefold : String → String
  artifactNonce : ℕ
  definitionDigest : Bytes
  pageSize : ℕ

/-- The horizon of the static header, the two root pages and the tree pages. -/
structure OrderedFile where
  builtThroughLsn : ℕ
  reconciledThroughLsn : ℕ
  roots : Slots TreePage
  pages : ℕ → Option TreePage
  pageCount : ℕ

def OrderedFile.loader (f : OrderedFile) (i : ℕ) : Option TreePage :=
  if firstOrderedTreePage ≤ i ∧ i < f.pageCount then f.pages i else none

inductive PublishRefusal where
  | index (index : String)
  | root (e : RootRefusal)
  | tree (e : TreeRefusal)
  | artifactNonce (observed : ℕ)
  | definitionDigest
  | regressed (applied reconciled : ℕ)
  | notSelected (expected observed : ℕ)
  deriving DecidableEq

section Publish
variable (ix : OrderedIndex)

def rootDescriptor (generation rootPage height entryCount appliedThroughLsn reconciledThroughLsn : ℕ) :
    Except RootRefusal OrderedRootDescriptor :=
  RootFields.descriptor ⟨orderedRootDescriptorFormatVersion, 0, ix.artifactNonce, generation, rootPage, height, entryCount, appliedThroughLsn,
    reconciledThroughLsn, ix.definitionDigest⟩

def readCertificate (f : OrderedFile) : Except PublishRefusal OrderedRootSelection := do
  let selection ← (selectOrderedRoot (f.roots .a) (f.roots .b)).mapError .root
  let x := selection.descriptor
  ensure (x.artifactNonce = ix.artifactNonce) (.artifactNonce x.artifactNonce)
  ensure (x.definitionDigest = ix.definitionDigest) .definitionDigest
  ensure (f.builtThroughLsn ≤ x.appliedThroughLsn ∧ f.reconciledThroughLsn ≤ x.reconciledThroughLsn)
    (.regressed x.appliedThroughLsn x.reconciledThroughLsn)
  return selection

structure Batch where
  changes : List TreeChange
  appliedThroughLsn : ℕ
  reconciledThroughLsn : Option ℕ
  deriving DecidableEq

def checkIndex (c : TreeChange) : Except PublishRefusal Unit :=
  ensure (ix.casefold c.index = ix.casefold ix.name) (.index c.index)

def checkPositions (b : Batch) : Except RootRefusal Unit := do
  let _ ← rootDescriptor ix 1 noPage 0 0 b.appliedThroughLsn noLsn
  match b.reconciledThroughLsn with
  | none => return ()
  | some reconciled => do
    let _ ← rootDescriptor ix 1 noPage 0 0 b.appliedThroughLsn reconciled
    return ()

def reconciledThrough (changes : List TreeChange) (reconciled : ℕ) : ℕ :=
  changes.foldl (fun reconciled c => if c.operation = .remove then max reconciled c.csn else reconciled) reconciled

structure Publication where
  descriptor : OrderedRootDescriptor
  publicationPage : Slot
  pages : List TreePage
  missingTargets : ℕ

inductive Planned where
  | skip (current : OrderedRootDescriptor)
  | publish (p : Publication)

def planPublication (f : OrderedFile) (b : Batch) (before : OrderedRootSelection) : Except PublishRefusal Planned :=
  let current := before.descriptor
  let requested := b.reconciledThroughLsn.getD current.reconciledThroughLsn
  if b.appliedThroughLsn ≤ current.appliedThroughLsn ∧ requested ≤ current.reconciledThroughLsn then .ok (.skip current)
  else do
    let m ← (mutateOrderedTree ⟨ix.pageSize, f.pageCount, b.appliedThroughLsn⟩ f.loader current.rootPage current.height current.entryCount
      b.changes).mapError .tree
    let descriptor ← (rootDescriptor ix (current.generation + 1) m.rootPage m.height m.entryCount
      (max current.appliedThroughLsn b.appliedThroughLsn)
      (reconciledThrough b.changes (max current.reconciledThroughLsn requested))).mapError .root
    return .publish ⟨descriptor, before.publicationPage, m.pages, m.missingTargets⟩

def planBatch (f : OrderedFile) (b : Batch) : Except PublishRefusal Planned := do
  b.changes.forM (checkIndex ix)
  (checkPositions ix b).mapError .root
  let before ← readCertificate ix f
  planPublication ix f b before

def landPages (f : OrderedFile) (p : Publication) : OrderedFile :=
  { f with pages := overlay f.pages p.pages, pageCount := f.pageCount + p.pages.length }

def landRoot (f : OrderedFile) (p : Publication) : OrderedFile :=
  { f with roots := f.roots.set p.publicationPage (some (makeOrderedRootPage p.descriptor p.publicationPage ix.pageSize)) }

structure OrderedBatchPublication where
  descriptor : OrderedRootDescriptor
  changes : ℕ
  pagesWritten : ℕ
  missingTargets : ℕ
  replaySkipped : Bool

def writePublication (f : OrderedFile) (b : Batch) (p : Publication) : Except PublishRefusal (OrderedBatchPublication × OrderedFile) := do
  let f' := landRoot ix (landPages f p) p
  let after ← readCertificate ix f'
  ensure (after.descriptor = p.descriptor ∧ after.page = p.publicationPage)
    (.notSelected p.descriptor.generation after.descriptor.generation)
  return (⟨p.descriptor, b.changes.length, p.pages.length, p.missingTargets, false⟩, f')

def publishCommittedBatch (f : OrderedFile) (b : Batch) : Except PublishRefusal (OrderedBatchPublication × OrderedFile) := do
  match ← planBatch ix f b with
  | .skip current => return (⟨current, b.changes.length, 0, 0, true⟩, f)
  | .publish p => writePublication ix f b p

def openRoot (f : OrderedFile) : Except PublishRefusal OrderedRootDescriptor := do
  let certificate ← readCertificate ix f
  let x := certificate.descriptor
  let _ ← (verifyOrderedTree f.loader x.rootPage x.height (some x.entryCount)).mapError .tree
  return x

def createBulk (entries : List IndexEntry) (appliedThroughLsn reconciledThroughLsn : ℕ) :
    Except PublishRefusal (OrderedRootDescriptor × OrderedFile) := do
  let _ ← (rootDescriptor ix 1 noPage 0 0 appliedThroughLsn reconciledThroughLsn).mapError .root
  let build ← (buildOrderedTree entries ⟨ix.pageSize, firstOrderedTreePage, appliedThroughLsn⟩).mapError .tree
  let x ← (rootDescriptor ix 1 build.rootPage build.height build.entryCount appliedThroughLsn reconciledThroughLsn).mapError .root
  let f : OrderedFile := ⟨appliedThroughLsn, reconciledThroughLsn, fun slot => some (makeOrderedRootPage x slot ix.pageSize),
    pageMap build.pages, firstOrderedTreePage + build.pages.length⟩
  let selected ← openRoot ix f
  ensure (selected = x) (.notSelected x.generation selected.generation)
  return (x, f)

end Publish

end Grafx.Index
