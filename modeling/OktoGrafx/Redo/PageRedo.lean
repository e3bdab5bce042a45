import OktoGrafx.Domain.Page
import OktoGrafx.Lib.GuardedReplay

/-! Committed redo of page images: growing a file, installing one image, the shape check made
before the first mutation, the coalesced plan, and the write-back of the frames it dirtied.

A device is a list of page images for each file; a missing file and an empty one are the same
here. A page the device allocated and nobody wrote reads as an empty page of type `free`.
A pool is a device with the frames that hold a change it does not have yet. -/

namespace Grafx.Redo

variable {κ : Type*}

structure PageEffect (κ : Type*) where
  file : FileName
  pageIndex : ℕ
  image : Page κ
  deriving DecidableEq, Repr

def PageEffect.loc (e : PageEffect κ) : Location := ⟨e.file, e.pageIndex⟩

abbrev Device (κ : Type*) := FileName → List (Page κ)

def Device.page? (d : Device κ) (l : Location) : Option (Page κ) := (d l.file)[l.pageIndex]?

def maxRedoGapPages : ℕ := 4096

-- The refusal of the redo gap check, with the details the source attaches to it.
structure CorruptionDetected where
  message : String
  file : FileName
  page : ℕ
  field : String
  pageCount : ℕ
  limit : ℕ
  deriving DecidableEq, Repr

def gapRefusal (file : FileName) (pageIndex present : ℕ) : CorruptionDetected :=
  { message := "A page image names page " ++ toString pageIndex ++ " of '" ++ file ++ "', which holds " ++
      toString present ++ " pages; a single redo may bridge at most " ++ toString maxRedoGapPages ++ "."
    file := file
    page := pageIndex
    field := "page_index"
    pageCount := present
    limit := maxRedoGapPages }

structure Pool (κ : Type*) where
  device : Device κ
  dirty : Location → Option (Page κ)

namespace Pool

def ofDevice (d : Device κ) : Pool κ := ⟨d, fun _ => none⟩

def pageCount (p : Pool κ) (file : FileName) : ℕ := (p.device file).length

def page? (p : Pool κ) (l : Location) : Option (Page κ) := (p.dirty l).or (p.device.page? l)

end Pool

def Pool.grown (p : Pool κ) (file : FileName) (count : ℕ) : Pool κ :=
  { device := fun f =>
      if f = file then p.device f ++ List.replicate (count - p.pageCount file) (Page.empty .free) else p.device f
    dirty := fun l =>
      if l.file = file ∧ p.pageCount file ≤ l.pageIndex ∧ l.pageIndex < count then some (Page.empty .free)
      else p.dirty l }

def growTo (p : Pool κ) (file : FileName) (pageIndex : ℕ) : Except CorruptionDetected (Pool κ) :=
  let present := p.pageCount file
  if present + maxRedoGapPages ≤ pageIndex then .error (gapRefusal file pageIndex present)
  else .ok (p.grown file (pageIndex + 1))

-- An odd write counter would make the installed page unreadable for good.
def settled (image : Page κ) : Page κ :=
  if image.seq % 2 = 1 then { image with seq := nextSeq image.seq } else image

def applyPageImage (p : Pool κ) (e : PageEffect κ) : Except CorruptionDetected (Pool κ × Bool) := do
  let decoded := settled e.image
  let p ← growTo p e.file e.pageIndex
  let page := (p.page? e.loc).getD (Page.empty .free)
  if page.pageType ≠ .free ∧ decoded.pageLsn ≤ page.pageLsn then return (p, false)
  else return ({ p with dirty := Function.update p.dirty e.loc (some decoded) }, true)

def preflight (counts : FileName → ℕ) : List (PageEffect κ) → Option CorruptionDetected
  | [] => none
  | e :: rest =>
    let present := counts e.file
    if present + maxRedoGapPages ≤ e.pageIndex then some (gapRefusal e.file e.pageIndex present)
    else preflight (Function.update counts e.file (max present (e.pageIndex + 1))) rest

def safeOccurrences [DecidableEq κ] : List (Page κ) → Bool
  | previous :: current :: rest =>
    !(decide (current.pageLsn < previous.pageLsn) ||
      (current.pageLsn == previous.pageLsn && decide (current ≠ previous))) &&
      safeOccurrences (current :: rest)
  | _ => true

def occurrences (plan : List (PageEffect κ)) (l : Location) : List (PageEffect κ) :=
  plan.filter fun e => decide (e.loc = l)

/-- A safe location keeps its last image, at its first position. -/
def coalesceFrom [DecidableEq κ] (plan : List (PageEffect κ)) (seen : List Location) :
    List (PageEffect κ) → List (PageEffect κ)
  | [] => []
  | e :: rest =>
    if safeOccurrences ((occurrences plan e.loc).map (·.image)) then
      if e.loc ∈ seen then coalesceFrom plan seen rest
      else (occurrences plan e.loc).getLastD e :: coalesceFrom plan (e.loc :: seen) rest
    else e :: coalesceFrom plan seen rest

def coalescePagePlan [DecidableEq κ] (plan : List (PageEffect κ)) : List (PageEffect κ) :=
  coalesceFrom plan [] plan

def applyPlan (p : Pool κ) : List (PageEffect κ) → Pool κ × Option CorruptionDetected
  | [] => (p, none)
  | e :: rest =>
    match applyPageImage p e with
    | .ok (p', _) => applyPlan p' rest
    | .error refusal => (p, some refusal)

def planOf [DecidableEq κ] (mayCoalesce : Bool) (effects : List (PageEffect κ)) : List (PageEffect κ) :=
  if mayCoalesce then coalescePagePlan effects else effects

def apply [DecidableEq κ] (mayCoalesce : Bool) (p : Pool κ) (effects : List (PageEffect κ)) :
    Pool κ × Option CorruptionDetected :=
  match preflight p.pageCount effects with
  | some refusal => (p, some refusal)
  | none => applyPlan p (planOf mayCoalesce effects)

/-- The refusal of page 0 of a fenced file whose sequence clock has no further value. -/
structure SequenceExhausted where
  message : String
  field : String
  file : FileName
  page : ℕ
  seq : ℕ
  retryable : Bool
  deriving DecidableEq, Repr

def sequenceExhausted (file : FileName) (seq : ℕ) : SequenceExhausted :=
  { message := "Page 0 of '" ++ file ++ "' exhausted its non-wrapping sequence clock at " ++ toString seq ++ "."
    field := "page_sequence_exhausted"
    file := file
    page := 0
    seq := seq
    retryable := false }

inductive RedoRefusal
  | gap (refusal : CorruptionDetected)
  | exhausted (refusal : SequenceExhausted)
  deriving DecidableEq, Repr

section WriteBack
variable (fenced : FileName → Bool)

/-- Page 0 of a fenced file is a freshness clock: it moves past the counter the device shows, and never wraps. -/
def publishPage (l : Location) (device page : Page κ) : Except SequenceExhausted (Page κ) :=
  if fenced l.file && l.pageIndex == 0 then
    let publishBase := max page.seq device.seq
    if maxSeq - 1 ≤ publishBase then .error (sequenceExhausted l.file publishBase)
    else .ok { page with seq := nextSeq publishBase }
  else .ok { page with seq := nextSeq page.seq }

/-- What one write-back leaves on the device. A refused page is not written. -/
def writeBackCell (l : Location) (device : Page κ) : Option (Page κ) → Page κ × Option SequenceExhausted
  | none => (device, none)
  | some page =>
    match publishPage fenced l device page with
    | .ok written => (written, none)
    | .error refusal => (device, some refusal)

def flushPages (p : Pool κ) (file : FileName) : List (Page κ) :=
  (p.device file).mapIdx fun i page => (writeBackCell fenced ⟨file, i⟩ page (p.dirty ⟨file, i⟩)).1

def headerRefusal (p : Pool κ) (file : FileName) : Option SequenceExhausted :=
  (p.device.page? ⟨file, 0⟩).bind fun page => (writeBackCell fenced ⟨file, 0⟩ page (p.dirty ⟨file, 0⟩)).2

/-- File by file, up to one whose page 0 is refused. That page comes after all others of its file. -/
def flush (p : Pool κ) (files : List FileName) : Device κ × Option SequenceExhausted :=
  let reached := files.takeWhile (fun f => (headerRefusal fenced p f).isNone) ++
    (files.find? fun f => (headerRefusal fenced p f).isSome).toList
  (fun f => if f ∈ reached then flushPages fenced p f else p.device f, files.findSome? (headerRefusal fenced p))

def evict (p : Pool κ) (l : Location) : Pool κ :=
  { device := fun f => (p.device f).mapIdx fun i page =>
      if (⟨f, i⟩ : Location) = l then (writeBackCell fenced l page (p.dirty l)).1 else page
    dirty := Function.update p.dirty l none }

def touchedFiles (plan : List (PageEffect κ)) : List FileName := (plan.map (·.file)).eraseDups

/-- Apply through a cold pool and flush the files of the plan. A refused apply is not flushed. -/
def redo [DecidableEq κ] (mayCoalesce : Bool) (d : Device κ) (effects : List (PageEffect κ)) :
    Device κ × Option RedoRefusal :=
  match apply mayCoalesce (Pool.ofDevice d) effects with
  | (p, some refusal) => (p.device, some (.gap refusal))
  | (p, none) => (flush fenced p (touchedFiles (planOf mayCoalesce effects))).map id (Option.map .exhausted)

-- An eviction whose page is refused ends the pass, with the device as it was.
inductive RedoStep : Pool κ × List (PageEffect κ) → Pool κ × List (PageEffect κ) → Prop
  | offer {p p' e rest applied} (h : applyPageImage p e = .ok (p', applied)) : RedoStep (p, e :: rest) (p', rest)
  | evict (p plan l) (h : ∀ page, p.device.page? l = some page → (writeBackCell fenced l page (p.dirty l)).2 = none) :
    RedoStep (p, plan) (evict fenced p l, plan)

def Cut (d : Device κ) (plan : List (PageEffect κ)) (d' : Device κ) : Prop :=
  ∃ p rest, Relation.ReflTransGen (RedoStep fenced) (Pool.ofDevice d, plan) (p, rest) ∧ p.device = d'

end WriteBack

/-! ## Log ranges -/

/-- One image for each page, all stamped with its number. -/
structure CommitEffects (κ : Type*) where
  csn : ℕ
  writes : List (PageEffect κ)
  one_image : (writes.map (·.loc)).Nodup
  stamped : ∀ e ∈ writes, e.image.pageLsn = csn
  header_used : ∀ e ∈ writes, e.pageIndex = 0 → e.image.pageType ≠ .free

structure CommittedRange (κ : Type*) where
  commits : List (CommitEffects κ)
  ascending : commits.Pairwise fun a b => a.csn < b.csn

namespace CommittedRange
variable (r : CommittedRange κ)

def effects : List (PageEffect κ) := r.commits.flatMap (·.writes)

def images (l : Location) : List (Page κ) := (occurrences r.effects l).map (·.image)

/-- Each touched page is absent, free, older than the range, or one of its images in the range. -/
def Admits (d : Device κ) : Prop :=
  ∀ l, ∀ page, d.page? l = some page →
    page.pageType = .free ∨ (∀ image ∈ r.images l, page.pageLsn < image.pageLsn) ∨
      ∃ image ∈ r.images l, page.content = image.content

end CommittedRange
end Grafx.Redo
