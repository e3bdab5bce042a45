import OktoGrafx.Heap.Versions
import OktoGrafx.Txn.Abandon

/-! Histories on the pages: from an empty file, through commits, abandoned attempts and attempts
that never finished, the rows of every table stand for all the states the table has had. -/

namespace Grafx.Txn
open List Heap Fallible MultiVersion

variable {labelLength : Payload → Option ℕ} {history : History} {s s' : HeapStore}
  {version : HeapVersion} {rows rows' : List Row} {ref : RecordRef} {r : Row} {snapshot : Snapshot} {id t : ℕ}

/-! ## Runs -/

/-- The id of a new row is free, any other row was found by its record id. -/
def Resolves (s : HeapStore) (last : ℕ) (intent : RowIntent) (op : RowOp) : Prop :=
  match intent with
  | .insert table recordId row | .insertReserved table recordId row | .insertInitialReserved table recordId row _ =>
    op = ⟨table.tableId, recordId, .insert row⟩ ∧
      ∃ snapshot : Snapshot, last ≤ snapshot.readLsn ∧ lookupWithRef s.pages table.tableId recordId snapshot = .ok none
  | .update table reference row =>
    ∃ (recordId : ℕ) (snapshot : Snapshot) (version : HeapVersion), last ≤ snapshot.readLsn ∧
      lookupWithRef s.pages table.tableId recordId snapshot = .ok (some (reference, version)) ∧
      op = ⟨table.tableId, recordId, .update row⟩
  | .delete table reference =>
    ∃ (recordId : ℕ) (snapshot : Snapshot) (version : HeapVersion), last ≤ snapshot.readLsn ∧
      lookupWithRef s.pages table.tableId recordId snapshot = .ok (some (reference, version)) ∧
      op = ⟨table.tableId, recordId, .delete⟩

structure Settled (s : HeapStore) (last : ℕ) (intents : List RowIntent) (ops : List RowOp) : Prop where
  resolves : List.Forall₂ (Resolves s last) intents ops
  distinct : (ops.map RowOp.target).Nodup

inductive Reached (labelLength : Payload → Option ℕ) : History → HeapStore → Prop
  | bootstrap {pageSize : ℕ} (hsize : 512 ≤ pageSize) : Reached labelLength [] (bootstrap pageSize labelLength)
  | reopen {history : History} {s t : HeapStore} (h : Reached labelLength history s) (hpages : t.pages = s.pages)
      (hsize : t.pageSize = s.pageSize) (hlabels : t.labelLength = s.labelLength) (hcache : ∀ id, t.tailCache id = none) :
      Reached labelLength history t
  | unfinished {history : History} {s : HeapStore} {intents : List RowIntent} {ops : List RowOp}
      (h : Reached labelLength history s) (hsettled : Settled s history.last intents ops) (script : List Bool) :
      Reached labelLength history (writeIntents intents [] script s).store
  | abandoned {history : History} {s : HeapStore} {intents : List RowIntent} {ops : List RowOp}
      (h : Reached labelLength history s) (hsettled : Settled s history.last intents ops) (script script' : List Bool)
      (escaped : Bool) :
      Reached labelLength history (undoPages s escaped
        (abandonRows (writeIntents intents [] script s).written script' (writeIntents intents [] script s).store).1)
  | committed {history : History} {s s' : HeapStore} {intents : List RowIntent} {ops : List RowOp}
      (h : Reached labelLength history s) (hsettled : Settled s history.last intents ops) (script : List Bool) {csn : ℕ}
      (hlater : history.last < csn) (hcsn : csn < provisionalCsn)
      (hwritten : (writeIntents intents [] script s).failure = none)
      (happly : applyImages csn (writeIntents intents [] script s).written s (writeIntents intents [] script s).store = some s') :
      Reached labelLength ((csn, ops) :: history) s'

/-! ## What every run keeps -/

structure Holds (labelLength : Payload → Option ℕ) (history : History) (s : HeapStore) : Prop where
  wf : Wf s
  labels : s.labelLength = labelLength
  last : history.last < provisionalCsn
  rows : ∀ t, Represents ((rowsOf s.pages t).map lifetime) history.last fun n => stateAt labelLength history n t
  chained : ∀ t, Chained (rowsOf s.pages t)

theorem SameFate.link {r' : Row} (h : SameFate r r') : SameLink r r' :=
  ⟨h.ref, h.previous, congrArg Version.key h.lifetime⟩

theorem chained_of_fates (h : Chained rows) (hsame : List.Forall₂ SameFate rows rows') :
    Chained rows' := h.of_links (hsame.imp fun _ _ => SameFate.link)

theorem map_lifetime (h : List.Forall₂ SameFate rows rows') : rows'.map lifetime = rows.map lifetime := by
  induction h with
  | nil => rfl
  | cons hr _ ih => rw [map_cons, map_cons, hr.lifetime, ih]

section
variable (h : Holds labelLength history s)
include h

theorem Holds.of_idle (hidle : Idle s s') : Holds labelLength history s' := by
  refine ⟨hidle.wf, hidle.labelLength.trans h.labels, h.last, fun t => ?_, fun t => chained_of_fates (h.chained t) (hidle.rows t)⟩
  rw [map_lifetime (hidle.rows t)]
  exact h.rows t

omit h in
theorem bootstrap_holds {pageSize : ℕ} (hsize : 512 ≤ pageSize) : Holds labelLength [] (bootstrap pageSize labelLength) := by
  have hrows : ∀ t, rowsOf (bootstrap pageSize labelLength).pages t = [] := by
    intro t
    rfl
  refine ⟨bootstrap_wf hsize labelLength, rfl, by decide, fun t => ?_, fun t => ?_⟩
  · exact represents_nil
  · rw [hrows]
    intro pre r post heq
    simp at heq

omit h in
theorem reopen_idle {t : HeapStore} (hs : Wf s) (hpages : t.pages = s.pages) (hsize : t.pageSize = s.pageSize)
    (hlabels : t.labelLength = s.labelLength) (hcache : ∀ id, t.tailCache id = none) : Idle s t := by
  refine Idle.of_quiet hs ⟨?_, hsize, hlabels, fun _ id hint hhint => ?_⟩
  · rw [hpages]
    exact (Quiet.refl hs).pages
  · rw [hcache] at hhint
    cases hhint

/-! ## The rows a transaction works on -/

structure Grounded (labelLength : Payload → Option ℕ) (history : History) (s : HeapStore) (x : RowOp × Option Row) : Prop where
  alive : ∀ o, x.2 = some o → AliveAt history.last (lifetime o)
  value : stateAt labelLength history history.last x.1.tableId x.1.recordId = x.2.map rowValue

theorem Holds.state_eq {n : ℕ} (hn : history.last ≤ n) (t : ℕ) :
    stateAt labelLength history n t = stateAt labelLength history history.last t := (h.rows t).settled n hn

theorem Holds.lookup_none (hlookup : lookupWithRef s.pages t id snapshot = .ok none) : stateAt labelLength history snapshot.readLsn t id = none := by
  rw [lookupWithRef_eq h.wf, Except.ok.injEq, Option.map_eq_none_iff, find?_eq_none] at hlookup
  refine Option.eq_none_iff_forall_ne_some.mpr fun x hx => ?_
  obtain ⟨v, hv, halive, hkey⟩ := (h.rows t).complete _ _ _ hx
  obtain ⟨r, hr, rfl⟩ := mem_map.mp hv
  have hid : r.header.recordId = id := hkey
  exact hlookup r hr (by simp [hid, (visibleTo_iff snapshot r).mpr halive])

theorem Holds.lookup_some (hlookup : lookupWithRef s.pages t id snapshot = .ok (some (ref, version))) :
    ∃ r ∈ rowsOf s.pages t, r.ref = ref ∧ r.version = version ∧ r.header.recordId = id ∧
      AliveAt snapshot.readLsn (lifetime r) ∧ stateAt labelLength history snapshot.readLsn t id = some (rowValue r) := by
  rw [lookupWithRef_eq h.wf, Except.ok.injEq, Option.map_eq_some_iff] at hlookup
  obtain ⟨r, hfind, heq⟩ := hlookup
  obtain ⟨href, hversion⟩ := Prod.mk.inj heq
  have hr := mem_of_find?_eq_some hfind
  have hwanted := find?_some hfind
  rw [Bool.and_eq_true, beq_iff_eq] at hwanted
  have halive := (visibleTo_iff snapshot r).mp hwanted.2
  refine ⟨r, hr, href, hversion, hwanted.1, halive, ?_⟩
  rw [← hwanted.1]
  exact (h.rows t).sound _ (mem_map_of_mem hr) _ halive

theorem Holds.grounded_row (hn : history.last ≤ snapshot.readLsn)
    (hlookup : lookupWithRef s.pages t id snapshot = .ok (some (ref, version))) (change : RowChange) :
    ∃ r ∈ rowsOf s.pages t, r.ref = ref ∧ r.header.recordId = id ∧
      Grounded labelLength history s (⟨t, id, change⟩, some r) := by
  obtain ⟨r, hr, href, -, hid, halive, hvalue⟩ := h.lookup_some hlookup
  refine ⟨r, hr, href, hid, fun o ho => ?_, ?_⟩
  · rw [← Option.some.inj ho]
    have hmem := mem_map_of_mem (f := lifetime) hr
    exact ((h.rows t).alive_iff hmem le_rfl).mpr (((h.rows t).alive_iff hmem hn).mp halive)
  · rw [← h.state_eq hn]
    exact hvalue

theorem Resolves.grounded {intent : RowIntent} {op : RowOp} (hresolves : Resolves s history.last intent op) :
    ∃ old, Targets s op old intent ∧ Grounded labelLength history s (op, old) := by
  cases intent with
  | insert | insertReserved | insertInitialReserved =>
    obtain ⟨rfl, snapshot, hn, hlookup⟩ := hresolves
    refine ⟨none, ⟨rfl, rfl⟩, ⟨nofun, ?_⟩⟩
    rw [← h.state_eq hn]
    exact h.lookup_none hlookup
  | update table reference row =>
    obtain ⟨id, snapshot, version, hn, hlookup, rfl⟩ := hresolves
    obtain ⟨r, hr, href, rfl, hgrounded⟩ := h.grounded_row hn hlookup (.update row)
    exact ⟨some r, ⟨r, hr, href, rfl, rfl⟩, hgrounded⟩
  | delete table reference =>
    obtain ⟨id, snapshot, version, hn, hlookup, rfl⟩ := hresolves
    obtain ⟨r, hr, href, rfl, hgrounded⟩ := h.grounded_row hn hlookup .delete
    exact ⟨some r, ⟨r, hr, href, rfl, rfl⟩, hgrounded⟩

structure Ready (labelLength : Payload → Option ℕ) (history : History) (s : HeapStore) (intents : List RowIntent)
    (ops : List RowOp) (todo : Done) : Prop where
  todoOps : todo.map (·.1) = ops
  targets : List.Forall₂ (fun intent x => Targets s x.1 x.2 intent) intents todo
  grounded : ∀ x ∈ todo, Grounded labelLength history s x
  distinct : (ops.map RowOp.target).Nodup

theorem Settled.ready {intents : List RowIntent} {ops : List RowOp}
    (hsettled : Settled s history.last intents ops) : ∃ todo, Ready labelLength history s intents ops todo := by
  suffices hall : ∃ todo : Done, todo.map (·.1) = ops ∧ List.Forall₂ (fun intent x => Targets s x.1 x.2 intent) intents todo ∧
      ∀ x ∈ todo, Grounded labelLength history s x by
    obtain ⟨todo, hops, htargets, hgrounded⟩ := hall
    exact ⟨todo, hops, htargets, hgrounded, hsettled.distinct⟩
  have hresolves := hsettled.resolves
  clear hsettled
  induction hresolves with
  | nil => exact ⟨[], rfl, .nil, nofun⟩
  | @cons intent op _ _ hop _ ih =>
    obtain ⟨old, htargets, hgrounded⟩ := Resolves.grounded h hop
    obtain ⟨todo, rfl, hrest, hall⟩ := ih
    exact ⟨(op, old) :: todo, rfl, .cons htargets hrest, forall_mem_cons.mpr ⟨hgrounded, hall⟩⟩

end

section Ready
variable {intents : List RowIntent} {ops : List RowOp} {todo : Done} (hready : Ready labelLength history s intents ops todo)
include hready

theorem Ready.old_mem {x : RowOp × Option Row} (hx : x ∈ todo) {o : Row} (ho : x.2 = some o) :
    o ∈ rowsOf s.pages x.1.tableId ∧ o.header.recordId = x.1.recordId := by
  obtain ⟨intent, -, htargets⟩ := Pointwise.exists_of_mem' hready.targets hx
  exact htargets.old_mem ho

theorem Ready.refs_nodup (hs : Wf s) : (Done.refs todo).Nodup := by
  have hdistinct := hready.distinct
  rw [← hready.todoOps, map_map, List.Nodup, pairwise_map] at hdistinct
  refine List.Pairwise.filterMap _ ?_ (hdistinct.imp_of_mem (S := fun x y => ∀ o o', x.2 = some o → y.2 = some o' → o.ref ≠ o'.ref) ?_)
  · intro x y hxy ref href ref' href'
    obtain ⟨o, ho, rfl⟩ := Option.map_eq_some_iff.mp href
    obtain ⟨o', ho', rfl⟩ := Option.map_eq_some_iff.mp href'
    exact hxy o o' ho ho'
  · intro x y hx hy hne o o' ho ho' href
    obtain ⟨hmem, hid⟩ := hready.old_mem hx ho
    obtain ⟨hmem', hid'⟩ := hready.old_mem hy ho'
    obtain ⟨htable, rfl⟩ := row_unique hs hmem hmem' href
    exact hne (Prod.ext htable (hid.symm.trans hid'))

theorem Ready.written (hs : Wf s) (script : List Bool) :
    ∃ n f added, Written s (writeIntents intents [] script s).store (todo.take n)
        (writeIntents intents [] script s).written f added ∧
      ((writeIntents intents [] script s).failure = none → todo.take n = todo) :=
  writeIntents_written (Written.nil hs) hready.targets (hready.refs_nodup hs) script

end Ready

/-! ## Attempts -/

section Attempts
variable {done : Done} {written : List RowWrite} {f : Row → Row} {added : List (ℕ × Row)}

variable (h : Holds labelLength history s)
include h

theorem open_of_alive (hr : r ∈ rowsOf s.pages t) (halive : AliveAt history.last (lifetime r)) : isOpenEndCsn r.header.xmax = true := by
  have hdied := (((h.rows t).alive_iff (mem_map_of_mem hr) le_rfl).mp halive).2
  by_contra hended
  simp [lifetime, hended] at hdied

omit h in
theorem SameVersion.fate {r' : Row} (h : SameVersion r r')
    (hxmax : r'.header.xmax = r.header.xmax ∨ isOpenEndCsn r.header.xmax = true ∧ isOpenEndCsn r'.header.xmax = true) :
    SameFate r r' := by
  refine ⟨h.ref, h.previous, ?_⟩
  have hvalue : rowValue r' = rowValue r := by rw [rowValue, rowValue, h.payload, h.nodeLabels]
  simp only [lifetime, h.recordId, hvalue, h.xmin]
  rcases hxmax with hxmax | ⟨hopen, hopen'⟩
  · rw [hxmax]
  · rw [if_pos hopen, if_pos hopen']

omit h in
theorem Written.chained (hw : Written s s' done written f added) (hchained : ∀ t, Chained (rowsOf s.pages t)) (t : ℕ) :
    Chained (rowsOf s'.pages t) := by
  have hlinks : List.Forall₂ SameLink (rowsOf s.pages t) ((rowsOf s.pages t).map f) :=
    forall₂_map fun r _ => ⟨(hw.same r).ref, (hw.same r).previous, (hw.same r).recordId⟩
  rw [hw.rows t]
  refine ((hchained t).of_links hlinks).append fun r hr ref href => ?_
  obtain ⟨o, ho, horef, hid⟩ := (hw.unborn _ (mem_addedTo.mp hr)).2.2 ref href
  exact ⟨f o, mem_map_of_mem ho, (hw.same o).ref.trans horef, (hw.same o).recordId.trans hid⟩

theorem Holds.of_written (hw : Written s s' done written f added)
    (hdone : ∀ x ∈ done, ∀ o, x.2 = some o → ∃ t, o ∈ rowsOf s.pages t ∧ isOpenEndCsn o.header.xmax = true) :
    Holds labelLength history s' := by
  have hfate : ∀ t, ∀ r ∈ rowsOf s.pages t, SameFate r (f r) := by
    intro t r hr
    refine (hw.same r).fate ?_
    cases hended : isEnded written r.ref with
    | false => exact .inl (by rw [hw.kept r hended])
    | true =>
      obtain ⟨x, hx, o, ho, href⟩ := (hw.endedRefs r.ref).mp hended
      obtain ⟨t', hmem, hopen⟩ := hdone x hx o ho
      obtain ⟨-, rfl⟩ := row_unique h.wf hmem hr href
      exact .inr ⟨hopen, by rw [hw.ended o hended]; decide⟩
  have hold : ∀ t, List.Forall₂ SameFate (rowsOf s.pages t) ((rowsOf s.pages t).map f) :=
    fun t => forall₂_map (hfate t)
  refine ⟨hw.wf, hw.labelLength.trans h.labels, h.last, fun t => ?_, hw.chained h.chained⟩
  rw [hw.rows t, map_append, map_lifetime (hold t)]
  refine (h.rows t).append_unborn fun v hv => ?_
  obtain ⟨r, hr, rfl⟩ := mem_map.mp hv
  obtain ⟨hxmin, hxmax, -⟩ := hw.unborn _ (mem_addedTo.mp hr)
  have hborn : isCommittedCsn provisionalCsn = false := by decide
  have hopen : isOpenEndCsn noCsn = true := by decide
  simp only at hxmin hxmax
  simp [lifetime, hxmin, hxmax, hborn, hopen]

variable (hw : Written s s' done written f added) (hdone : ∀ x ∈ done, ∀ o, x.2 = some o → ∃ t, o ∈ rowsOf s.pages t)

omit h in
include hw hdone in
theorem Written.revocable : ∀ item ∈ written, Revocable s' item := by
  intro item hitem
  refine ⟨fun ref href => ?_, fun ref href => ?_⟩
  · have hborn : isBorn written ref = true := any_eq_true.mpr ⟨item, hitem, by rw [href]; exact beq_self_eq_true _⟩
    obtain ⟨x, hx, rfl⟩ := (hw.bornRefs ref).mp hborn
    refine ⟨x.1, x.2, ?_, rfl, ?_⟩
    · rw [hw.rows]
      exact mem_append_right _ (mem_addedTo.mpr hx)
    · rw [(hw.unborn x hx).1]
      decide
  · have hended : isEnded written ref = true := any_eq_true.mpr ⟨item, hitem, by rw [href]; exact beq_self_eq_true _⟩
    obtain ⟨x, hx, o, ho, rfl⟩ := (hw.endedRefs ref).mp hended
    obtain ⟨t, hmem⟩ := hdone x hx o ho
    refine ⟨t, f o, ?_, (hw.same o).ref, ?_⟩
    · rw [hw.rows]
      exact mem_append_left _ (mem_map_of_mem hmem)
    · rw [hw.ended o hended]
      decide

omit h in
include hw hdone in
theorem Written.undone (hs : Wf s) (script : List Bool) (escaped : Bool) :
    Idle s' (undoPages s escaped (abandonRows written script s').1) ∨ Idle s (undoPages s escaped (abandonRows written script s').1) := by
  have hidle := abandonRows_idle hw.wf (hw.revocable hdone) script
  rcases undoPages_cases hs hidle.wf (hidle.pageSize.trans hw.pageSize) (hidle.labelLength.trans hw.labelLength) escaped
    with hkeep | hundone
  · exact .inl (hkeep.symm ▸ hidle)
  · exact .inr hundone

theorem Ready.open_rows {intents : List RowIntent} {ops : List RowOp} {todo : Done} (hready : Ready labelLength history s intents ops todo) (n : ℕ) :
    ∀ x ∈ todo.take n, ∀ o, x.2 = some o → ∃ t, o ∈ rowsOf s.pages t ∧ isOpenEndCsn o.header.xmax = true := by
  intro x hx o ho
  have hx := mem_of_mem_take hx
  obtain ⟨hmem, -⟩ := hready.old_mem hx ho
  exact ⟨_, hmem, open_of_alive h hmem ((hready.grounded x hx).alive o ho)⟩

variable {intents : List RowIntent} {ops : List RowOp} (hsettled : Settled s history.last intents ops)
include hsettled

theorem Holds.unfinished (script : List Bool) : Holds labelLength history (writeIntents intents [] script s).store := by
  obtain ⟨todo, hready⟩ := hsettled.ready h
  obtain ⟨n, f, added, hw, -⟩ := hready.written h.wf script
  exact h.of_written hw (hready.open_rows h n)

theorem Holds.abandoned (script script' : List Bool) (escaped : Bool) : Holds labelLength history (undoPages s escaped
      (abandonRows (writeIntents intents [] script s).written script' (writeIntents intents [] script s).store).1) := by
  obtain ⟨todo, hready⟩ := hsettled.ready h
  obtain ⟨n, f, added, hw, -⟩ := hready.written h.wf script
  have hopen := hready.open_rows h n
  rcases hw.undone (fun x hx o ho => (hopen x hx o ho).imp fun _ => And.left) h.wf script' escaped with hkeep | hundone
  · exact (h.of_written hw hopen).of_idle hkeep
  · exact h.of_idle hundone

end Attempts

end Grafx.Txn
