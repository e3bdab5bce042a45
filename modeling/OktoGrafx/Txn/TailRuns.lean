import OktoGrafx.Txn.VacuumReads

/-! The tail of a table, as each participant on a file remembers it. A participant sees its frames over the device.
A commit has the others read the pages it changed again, in a new epoch; an attempt that is taken back in place changes
the device and tells nobody. As long as a participant appends only while its frames show what the device holds, it
appends behind the last page of the chain. -/

namespace Grafx.Txn
open List Heap Fallible

def Aimed (s : HeapStore) (intents : List RowIntent) : Prop :=
  ∃ todo : Done, Forall₂ (fun intent x => Targets s x.1 x.2 intent) intents todo ∧ (Done.refs todo).Nodup

/-- What a participant does to the file, and whether it publishes a commit. -/
inductive Acts (s : HeapStore) : Bool → HeapStore → Prop
  | undone {intents : List RowIntent} (haimed : Aimed s intents) (script script' : List Bool) (escaped : Bool) :
      Acts s false (undoPages s escaped
        (abandonRows (writeIntents intents [] script s).written script' (writeIntents intents [] script s).store).1)
  | committed {intents : List RowIntent} (haimed : Aimed s intents) (script : List Bool) {csn : ℕ} {s' : HeapStore}
      (happly : applyImages csn (writeIntents intents [] script s).written s (writeIntents intents [] script s).store = some s') :
      Acts s true s'
  | vacuumed {catalog : CatalogTables} {request : VacuumRequest} {plan : VacuumPlan}
      (hcatalog : ∀ t ∈ request.tables, t ∈ catalog.ids) (hplan : planVacuum s catalog request = .ok plan) :
      Acts s true (applyPlan plan s)

/-- The pages that were changed, over the others. -/
def changedOver (old new pages : List (Page Cell)) : List (Page Cell) :=
  new.mapIdx fun i p => if old[i]? = some p then pages[i]?.getD p else p

structure Sharing (ι : Type) where
  device : List (Page Cell)
  store : ι → HeapStore

section Sharing
variable {ι : Type} [DecidableEq ι]

abbrev Sharing.Fresh (x : Sharing ι) (i : ι) : Prop := (x.store i).pages = x.device

-- Without a commit the others keep their frames; the file has grown for all of them.
def Sharing.other (x : Sharing ι) (i : ι) (publishes : Bool) (pages : List (Page Cell)) (j : ι) : HeapStore :=
  if publishes then
    { x.store j with
      pages := changedOver (x.store i).pages pages (x.store j).pages
      derivedEpoch := (x.store j).derivedEpoch + 1 }
  else { x.store j with pages := (x.store j).pages ++ pages.drop (x.store j).pages.length }

def Sharing.after (x : Sharing ι) (i : ι) (publishes : Bool) (s' : HeapStore) : Sharing ι :=
  { device := changedOver (x.store i).pages s'.pages x.device
    store := Function.update (x.other i publishes s'.pages) i s' }

def Sharing.put (x : Sharing ι) (j : ι) (s : HeapStore) : Sharing ι := { x with store := Function.update x.store j s }

/-- The pool gave up a clean frame and reads the page again. -/
def Sharing.reread (x : Sharing ι) (j : ι) (index : ℕ) (page : Page Cell) : Sharing ι :=
  x.put j { x.store j with pages := (x.store j).pages.set index page }

def Sharing.dropped (x : Sharing ι) (j : ι) (cache : ℕ → Option TailHint) (n : ℕ) : Sharing ι :=
  x.put j { x.store j with pages := x.device, tailCache := cache, derivedEpoch := (x.store j).derivedEpoch + n }

/-- What runs on a file reach. In a careful run nobody acts on frames the device has moved away from. -/
inductive Shared (careful : Bool) : Sharing ι → Prop
  | opened {pageSize : ℕ} (hsize : 512 ≤ pageSize) (labelLength : Payload → Option ℕ) (capable : Bool) :
      Shared careful ⟨(bootstrap pageSize labelLength).pages,
        fun _ => { bootstrap pageSize labelLength with reclaimCapable := capable }⟩
  | acted {x : Sharing ι} (h : Shared careful x) (i : ι) (hfresh : careful = true → x.Fresh i) {publishes : Bool} {s' : HeapStore}
      (hacts : Acts (x.store i) publishes s') : Shared careful (x.after i publishes s')
  | reread {x : Sharing ι} (h : Shared careful x) (j : ι) {index : ℕ} {page : Page Cell} (hpage : x.device[index]? = some page) :
      Shared careful (x.reread j index page)
  | dropped {x : Sharing ι} (h : Shared careful x) (j : ι) {cache : ℕ → Option TailHint}
      (hcache : ∀ id hint, cache id = some hint → (x.store j).tailCache id = some hint) (n : ℕ) :
      Shared careful (x.dropped j cache n)

end Sharing

structure Sound (s : HeapStore) : Prop where
  wf : Wf s
  chained : ∀ t, Chained (rowsOf s.pages t)

section Step
variable {s s' : HeapStore} {intents : List RowIntent} (h : Sound s)
include h

theorem Sound.of_idle (hidle : Idle s s') : Sound s' := ⟨hidle.wf, fun t => chained_of_fates (h.chained t) (hidle.rows t)⟩

theorem Aimed.written (haimed : Aimed s intents) (script : List Bool) :
    Sound (writeIntents intents [] script s).store ∧ ∃ done f added,
      Written s (writeIntents intents [] script s).store done (writeIntents intents [] script s).written f added ∧
        ∀ x ∈ done, ∀ o, x.2 = some o → ∃ t, o ∈ rowsOf s.pages t := by
  obtain ⟨todo, htargets, hdistinct⟩ := haimed
  obtain ⟨n, f, added, hw, -⟩ := writeIntents_written (Written.nil h.wf) htargets hdistinct script
  refine ⟨⟨hw.wf, hw.chained h.chained⟩, _, f, added, hw, fun x hx o ho => ?_⟩
  obtain ⟨intent, -, htarget⟩ := Pointwise.exists_of_mem' htargets (mem_of_mem_take hx)
  exact ⟨_, (htarget.old_mem ho).1⟩

theorem Acts.sound {publishes : Bool} (hacts : Acts s publishes s') :
    Sound s' ∧ s'.pageSize = s.pageSize ∧ (publishes = false → Grows s.pages s'.pages) := by
  cases hacts with
  | undone haimed script script' escaped =>
    obtain ⟨hsound, done, f, added, hw, hold⟩ := haimed.written h script
    rcases hw.undone hold h.wf script' escaped with hkeep | hundone
    · exact ⟨hsound.of_idle hkeep, hkeep.pageSize.trans hw.pageSize, fun _ => hw.grows.trans hkeep.grows⟩
    · exact ⟨h.of_idle hundone, hundone.pageSize, fun _ => hundone.grows⟩
  | committed haimed script happly =>
    obtain ⟨hsound, done, f, added, hw, hold⟩ := haimed.written h script
    obtain ⟨hwf, -, hsize, hrows⟩ := hw.applied hold happly
    refine ⟨⟨hwf, fun t => ?_⟩, hsize, nofun⟩
    rw [hrows]
    exact chained_stamped (hsound.chained t) _
  | vacuumed hcatalog hplan =>
    obtain ⟨sel, hplans⟩ := exists_plans h.wf h.chained hcatalog hplan
    exact ⟨⟨hplans.wf h.wf h.chained, hplans.chained h.wf h.chained⟩, rfl, nofun⟩

/-- The pages of one participant and the memory of another. -/
theorem Sound.over {t : HeapStore} (hsize : t.pageSize = s.pageSize) (hcache : CacheOk { t with pages := s.pages }) :
    Sound { t with pages := s.pages } :=
  ⟨{ h.wf with
    room := hsize ▸ h.wf.room
    bodies := hsize ▸ h.wf.bodies
    exclusive := hsize ▸ h.wf.exclusive
    cache := hcache }, h.chained⟩

end Step

section Runs
variable {ι : Type} {x : Sharing ι} {i : ι}

theorem changedOver_self (old new : List (Page Cell)) : changedOver old new old = new := by
  refine ext_getElem? fun i => ?_
  rw [changedOver, getElem?_mapIdx]
  cases new[i]? with
  | none => rfl
  | some p =>
    rw [Option.map_some]
    split_ifs with hsame
    · rw [hsame, Option.getD_some]
    · rfl

def Sharing.viewed (x : Sharing ι) (i : ι) : HeapStore := { x.store i with pages := x.device }

theorem Sharing.Fresh.viewed_eq (h : x.Fresh i) : x.viewed i = x.store i := by
  rw [viewed, ← h]

/-- What each participant remembers, over what the device holds. -/
structure Held (x : Sharing ι) : Prop where
  sound : ∀ i, Sound (x.viewed i)
  size : ∀ i j, (x.store j).pageSize = (x.store i).pageSize

variable [DecidableEq ι]

theorem Held.after (h : Held x) (hfresh : x.Fresh i) {publishes : Bool} {s' : HeapStore} (hacts : Acts (x.store i) publishes s') :
    Held (x.after i publishes s') := by
  have hdevice : (x.after i publishes s').device = s'.pages := by
    rw [Sharing.after, hfresh]
    exact changedOver_self x.device s'.pages
  obtain ⟨hsound, hsize, hgrows⟩ := hacts.sound (hfresh.viewed_eq ▸ h.sound i)
  have hself : (x.after i publishes s').store i = s' := Function.update_self ..
  have hother : ∀ {j}, j ≠ i → (x.after i publishes s').store j = x.other i publishes s'.pages j := fun hji => Function.update_of_ne hji ..
  have hsizes : ∀ j, ((x.after i publishes s').store j).pageSize = s'.pageSize := by
    intro j
    by_cases hji : j = i
    · rw [hji, hself]
    · rw [hother hji, hsize, ← h.size i j, Sharing.other]
      split_ifs <;> rfl
  refine ⟨fun j => ?_, fun j k => (hsizes k).trans (hsizes j).symm⟩
  rw [Sharing.viewed, hdevice]
  by_cases hji : j = i
  · rw [hji, hself]
    exact hsound
  refine hsound.over (hsizes j) ?_
  rw [hother hji]
  intro id hint
  cases publishes with
  | true =>
    -- Every remembered tail is older than the epoch of the new pages.
    intro hhint
    have hold := ((h.sound j).wf.cache id hint hhint).1
    exact ⟨Nat.le_succ_of_le hold, fun heq => absurd hold (not_le.mpr (Nat.lt_of_succ_le heq.symm.le))⟩
  | false =>
    -- The epoch stays; the page remembered is still on the chain.
    intro hhint
    obtain ⟨hle, hon⟩ := (h.sound j).wf.cache id hint hhint
    exact ⟨hle, fun hcurrent => (hfresh ▸ hgrows rfl).onChain (hon hcurrent)⟩

theorem Held.put (h : Held x) {s : HeapStore} (hsize : s.pageSize = (x.store i).pageSize) (hsound : Sound { s with pages := x.device }) :
    Held (x.put i s) := by
  have hself : (x.put i s).store i = s := Function.update_self ..
  have hother : ∀ {j}, j ≠ i → (x.put i s).store j = x.store j := fun hji => Function.update_of_ne hji ..
  have hsizes : ∀ j, ((x.put i s).store j).pageSize = (x.store j).pageSize := by
    intro j
    by_cases hji : j = i
    · rw [hji, hself, hsize]
    · rw [hother hji]
  refine ⟨fun j => ?_, fun j k => ((hsizes k).trans (h.size j k)).trans (hsizes j).symm⟩
  by_cases hji : j = i
  · rw [hji, Sharing.viewed, hself]
    exact hsound
  · rw [Sharing.viewed, hother hji]
    exact h.sound j

theorem Shared.held (h : Shared true x) : Held x := by
  induction h with
  | opened hsize labelLength capable =>
    have hopened : Holds labelLength [] _ := bootstrap_holds hsize
    exact ⟨fun _ => ⟨{ hopened.wf with }, hopened.chained⟩, fun _ _ => rfl⟩
  | acted _ i hfresh hacts ih => exact ih.after (hfresh rfl) hacts
  | reread _ j _ ih => exact ih.put rfl (ih.sound j)
  | @dropped x _ j cache hcache n ih =>
    refine ih.put rfl ((ih.sound j).over rfl fun id hint hhint => ?_)
    obtain ⟨hle, hon⟩ := (ih.sound j).wf.cache id hint (hcache id hint hhint)
    exact ⟨Nat.le_add_right_of_le hle, fun heq => hon (le_antisymm hle (heq ▸ Nat.le_add_right _ n))⟩

/-- A participant between attempts, or at any point of writing one. -/
def AtWork (s s' : HeapStore) : Prop :=
  ∃ intents script, Aimed s intents ∧ s' = (writeIntents intents [] script s).store

/-- The tail is the last page of the chain, however it is found, and a version stored behind it comes after all others. -/
theorem resolveTail_shared (h : Shared true x) (hfresh : x.Fresh i) {s : HeapStore} (hwork : AtWork (x.store i) s)
    {e : TableExtent} (he : e ∈ entriesOf s.pages) :
    ∃ xs, DataChain s.pages e.tableId e.firstPage xs ∧
      (resolveTail e.tableId e).Ensures s
        (fun found s' => s'.pages = s.pages ∧ xs.getLast? = some found.1 ∧ xs.length = found.2) (Quiet s) ∧
      ∀ (table : TableDef) (header : RecordHeader) (payload : Payload), table.tableId = e.tableId →
        header.flags.hasOverflow = false → payload.length = header.payloadLen →
          (storeVersion table header payload none).Ensures s (fun ref s' => Added s s' e.tableId
            ⟨ref, placedHeader s.pageSize header payload, payload⟩) (Quiet s) := by
  obtain ⟨intents, script, haimed, rfl⟩ := hwork
  have hs := (haimed.written (hfresh.viewed_eq ▸ h.held.sound i) script).1.wf
  obtain ⟨xs, hchain⟩ := hs.chains e he
  refine ⟨xs, hchain, (resolveTail_ensures hs (.of_mem he)).mono ?_ fun _ hq => hq, ?_⟩
  · rintro found s' ⟨hpages, -, e₀, he₀, hid, ys, hys, hlast, hlength⟩
    obtain rfl := inj_on_of_nodup_map hs.distinct he₀ he hid
    obtain rfl := hys.linked.unique hchain.linked
    exact ⟨hpages, hlast, hlength⟩
  · rintro table header payload hid hflag hlength
    exact hid ▸ storeVersion_ensures hs hflag hlength nofun

end Runs

def wideRow : RowIntent := .insert ⟨1, 0⟩ 1 ⟨none, replicate 300 5⟩

theorem wideRow_aimed (s : HeapStore) : Aimed s [wideRow] :=
  ⟨[(⟨1, 1, .insert ⟨none, replicate 300 5⟩⟩, none)], .cons ⟨rfl, rfl⟩ .nil, by decide⟩

/-- One wide row is written, a page reaches the device, and the attempt is taken back in place. -/
def tried (s : HeapStore) : HeapStore :=
  undoPages s true (abandonRows (writeIntents [wideRow] [] [] s).written [] (writeIntents [wideRow] [] [] s).store).1

def Sharing.tries (x : Sharing Bool) (i : Bool) : Sharing Bool := x.after i false (tried (x.store i))

def Sharing.rereads (x : Sharing Bool) (i : Bool) (index : ℕ) : Sharing Bool := x.reread i index (x.device.getD index (Page.empty .free))

def emptyHeap : Sharing Bool := ⟨(bootstrap 512 fun _ => none).pages, fun _ => bootstrap 512 fun _ => none⟩

theorem Shared.tries {careful : Bool} {x : Sharing Bool} (h : Shared careful x) (i : Bool) (hfresh : careful = true → x.Fresh i) :
    Shared careful (x.tries i) :=
  h.acted i hfresh (.undone (wideRow_aimed _) [] [] true)

theorem Shared.rereads {careful : Bool} {x : Sharing Bool} (h : Shared careful x) (i : Bool) (index : ℕ)
    (hindex : index < x.device.length) : Shared careful (x.rereads i index) :=
  h.reread i (by rw [getElem?_eq_getElem hindex, getD_eq_getElem _ _ hindex])

def takenBack : Sharing Bool := ((((emptyHeap.tries false).rereads true 0).tries true).rereads false 0).rereads false 1

/-- A page that another participant linked behind the remembered one, in an attempt taken back, is found in the same epoch. -/
theorem resolveTail_taken_back : (takenBack.store false).tailCache 1 = some ⟨1, 1, (takenBack.store false).derivedEpoch⟩ ∧
    (resolveTail 1 ⟨1, 1, 2, 2, 2⟩ [] (takenBack.store false)).1 = .ok (2, 2) ∧
    ∃ xs, DataChain (takenBack.store false).pages 1 1 xs ∧ xs.getLast? = some 2 := by
  have hopened : Shared true emptyHeap := .opened le_rfl (fun _ => none) false
  have hfirst := (hopened.tries false fun _ => rfl).rereads true 0 (by decide +kernel)
  have hsecond := hfirst.tries true fun _ => by decide +kernel
  have hshared : Shared true takenBack := (hsecond.rereads false 0 (by decide +kernel)).rereads false 1 (by decide +kernel)
  have hfresh : takenBack.Fresh false := by decide +kernel
  obtain ⟨xs, hchain, hresolves, -⟩ := resolveTail_shared hshared hfresh (s := takenBack.store false)
    ⟨[], [], ⟨[], .nil, nodup_nil⟩, rfl⟩ (e := ⟨1, 1, 2, 2, 2⟩) (by decide +kernel)
  have hrun : (resolveTail 1 ⟨1, 1, 2, 2, 2⟩ [] (takenBack.store false)).1 = .ok (2, 2) := by decide +kernel
  refine ⟨by decide +kernel, hrun, xs, hchain, ?_⟩
  generalize takenBack.store false = s at hresolves hrun
  exact (hresolves.of_ok (Prod.ext hrun rfl)).2.1

def overStale : Sharing Bool := ((((emptyHeap.tries true).rereads false 0).tries true).tries false).rereads true 1

/-- Two attempts are taken back in place, the second over a frame from before the first: the page remembered from the
first is off the chain and is taken for its last. -/
theorem tail_off_chain : Shared false overStale ∧ ⟨1, 1, 2, 2, 2⟩ ∈ entriesOf (overStale.store true).pages ∧
    (resolveTail 1 ⟨1, 1, 2, 2, 2⟩ [] (overStale.store true)).1 = .ok (2, 2) ∧
    (walkTail 1 ⟨1, 1, 2, 2, 2⟩ [] (overStale.store true)).1 = .ok (3, 2) := by
  have hopened : Shared false emptyHeap := .opened le_rfl (fun _ => none) false
  have hfirst := (hopened.tries true nofun).rereads false 0 (by decide +kernel)
  have hsecond := (hfirst.tries true nofun).tries false nofun
  refine ⟨hsecond.rereads true 1 (by decide +kernel), ?_, ?_, ?_⟩ <;> decide +kernel

end Grafx.Txn
