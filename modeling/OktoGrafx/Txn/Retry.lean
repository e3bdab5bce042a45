import OktoGrafx.Txn.Settle

/-! Refused writes. Whatever operation of the device refuses an insert or an update, every reader
still finds the rows it found before, and the write can be repeated as if it had never been tried. -/

namespace Grafx.Heap
open List Fallible

def Row.live (r : Row) : Bool := isCommittedCsn r.header.xmin && isOpenEndCsn r.header.xmax

def Row.liveOf (recordId : ℕ) (r : Row) : Bool := r.header.recordId == recordId && r.live

def liveRows (pages : List (Page Cell)) (tableId recordId : ℕ) : List Row :=
  (rowsOf pages tableId).filter (Row.liveOf recordId)

inductive HeapWrite where
  | insert (recordId : ℕ)
  | insertReserved (recordId : ℕ)
  | insertInitialReserved (recordId nextRecordId : ℕ)
  | update (reference : RecordRef)
  deriving DecidableEq, Repr

namespace HeapWrite

def run (w : HeapWrite) (table : TableDef) (row : RowImage) (xmin : ℕ) : HeapM RecordRef :=
  match w with
  | insert recordId => Heap.insert table recordId row xmin
  | insertReserved recordId => Heap.insertReserved table recordId row xmin
  | insertInitialReserved recordId nextRecordId => Heap.insertInitialReserved table recordId row xmin nextRecordId
  | update reference => Heap.update table reference row xmin

def Targets : HeapWrite → ℕ → Option Row → Prop
  | insert recordId, record, old => record = recordId ∧ old = none
  | insertReserved recordId, record, old => record = recordId ∧ old = none
  | insertInitialReserved recordId _, record, old => record = recordId ∧ old = none
  | update reference, record, old => ∃ r, old = some r ∧ r.ref = reference ∧ r.header.recordId = record

end HeapWrite

def imageOver (labelLength : Payload → Option ℕ) (old : Option Row) (row : RowImage) : Option RowImage :=
  old.elim (some row) fun r => inherited labelLength r row

def endOld (old : Option Row) (xmax : ℕ) (r : Row) : Row := old.elim r fun o => r.ended o.ref xmax false

structure Wrote (s s' : HeapStore) (table : TableDef) (recordId : ℕ) (old : Option Row) (row : RowImage) (xmin : ℕ)
    (ref : RecordRef) : Prop where
  unused : ∀ t, ∀ r ∈ rowsOf s.pages t, r.ref ≠ ref
  changed : ∃ written, imageOver s.labelLength old row = some written ∧
    Changed s s' (rowsWith s table.tableId ((rowsOf s.pages table.tableId).map (endOld old xmin) ++
      [written.stored table recordId xmin (old.map (·.ref)) s.pageSize ref]))

variable {s s' : HeapStore} {table : TableDef} {recordId : ℕ} {old : Option Row} {row : RowImage} {xmin : ℕ}

section Run

theorem Inserted.wrote {ref : RecordRef} (h : Inserted s s' table recordId xmin row ref) :
    Wrote s s' table recordId none row xmin ref := by
  refine ⟨h.added.unused, row, rfl, ?_⟩
  have hid : endOld none xmin = (id : Row → Row) := rfl
  rw [hid, map_id]
  exact h.added.changed

theorem HeapWrite.run_ensures (hs : Wf s) {w : HeapWrite} (htargets : w.Targets recordId old)
    (hold : ∀ r, old = some r → r ∈ rowsOf s.pages table.tableId) :
    (w.run table row xmin).Ensures s (fun ref s' => Wrote s s' table recordId old row xmin ref) (Quiet s) := by
  cases w with
  | insert =>
    obtain ⟨rfl, rfl⟩ := htargets
    exact (insert_ensures hs _ xmin row).mono (fun _ _ h => h.wrote) fun _ h => h
  | insertReserved =>
    obtain ⟨rfl, rfl⟩ := htargets
    exact (insertReserved_ensures hs _ xmin row).mono (fun _ _ h => h.wrote) fun _ h => h
  | insertInitialReserved _ nextRecordId =>
    obtain ⟨rfl, rfl⟩ := htargets
    exact (insertInitialReserved_ensures hs _ xmin nextRecordId row).mono (fun _ _ h => h.wrote) fun _ h => h
  | update =>
    obtain ⟨r, rfl, rfl, rfl⟩ := htargets
    exact (update_ensures hs (hold r rfl) xmin row).mono (fun _ _ h => ⟨h.unused, h.changed⟩) fun _ h => h

end Run

/-! ## One live version -/

section Live
variable {xmax : ℕ} {f : Row → Row}

theorem filter_liveOf {rows : List Row} {new : Row} (hdead : ∀ r ∈ rows, (f r).liveOf recordId = false)
    (hnew : new.liveOf recordId = true) : (rows.map f ++ [new]).filter (Row.liveOf recordId) = [new] := by
  rw [filter_append, filter_eq_nil_iff.mpr, filter_singleton, hnew]
  · rfl
  · intro r hr
    obtain ⟨r₀, hr₀, rfl⟩ := mem_map.mp hr
    simp [hdead r₀ hr₀]

theorem liveOf_ended (hs : Wf s) (hlive : liveRows s.pages table.tableId recordId = old.toList) (hid : ∀ r, (f r).header.recordId = r.header.recordId)
    (hended : ∀ o, old = some o → isOpenEndCsn (f o).header.xmax = false)
    (hkept : ∀ r ∈ rowsOf s.pages table.tableId, (∀ o, old = some o → r.ref ≠ o.ref) → (f r).live = r.live) :
    ∀ r ∈ rowsOf s.pages table.tableId, (f r).liveOf recordId = false := by
  intro r hr
  by_cases htarget : ∃ o, old = some o ∧ r.ref = o.ref
  · obtain ⟨o, rfl, href⟩ := htarget
    have ho : o ∈ liveRows s.pages table.tableId recordId := by simp [hlive]
    obtain ⟨-, rfl⟩ := row_unique hs hr (mem_filter.mp ho).1 href
    simp [Row.liveOf, Row.live, hended r rfl]
  · have hkept := hkept r hr fun o ho href => htarget ⟨o, ho, href⟩
    by_contra hlive'
    rw [Bool.not_eq_false, Row.liveOf, hid, hkept] at hlive'
    have hmem : r ∈ liveRows s.pages table.tableId recordId := mem_filter.mpr ⟨hr, hlive'⟩
    rw [hlive, Option.mem_toList] at hmem
    exact htarget ⟨r, hmem, rfl⟩

theorem RowImage.stored_header (row : RowImage) (table : TableDef) (recordId xmin : ℕ) (previous : Option RecordRef)
    (pageSize : ℕ) (ref : RecordRef) :
    (row.stored table recordId xmin previous pageSize ref).header.recordId = recordId ∧
      (row.stored table recordId xmin previous pageSize ref).header.xmin = xmin ∧
      (row.stored table recordId xmin previous pageSize ref).header.xmax = noCsn := by
  simp only [RowImage.stored, placedHeader]
  split_ifs <;> exact ⟨rfl, rfl, rfl⟩

theorem endOld_header (old : Option Row) (xmax : ℕ) (r : Row) :
    (endOld old xmax r).header.recordId = r.header.recordId ∧ (endOld old xmax r).ref = r.ref := by
  cases old with
  | none => exact ⟨rfl, rfl⟩
  | some o =>
    refine ⟨?_, rfl⟩
    simp only [endOld, Option.elim_some, Row.ended, Row.mapHeader, endAt, headAt]
    split_ifs <;> rfl

theorem endOld_of_ne {r : Row} (h : ∀ o, old = some o → r.ref ≠ o.ref) : endOld old xmax r = r := by
  cases old with
  | none => rfl
  | some o => exact Row.ended_of_ne (h o rfl)

theorem endOld_of_eq {o : Row} : (endOld (some o) xmax o).header.xmax = xmax := by
  simp only [endOld, Option.elim_some, Row.ended_of_eq]
  rfl

variable {ref : RecordRef}

theorem Wrote.stampsRecords (hold : ∀ r, old = some r → r ∈ rowsOf s.pages table.tableId)
    (h : Wrote s s' table recordId old row xmin ref) :
    Txn.StampsRecords s'.pages [{ born := some ref, ended := old.map (·.ref) }] := by
  obtain ⟨written, -, hchanged⟩ := h.changed
  have hrow : ∀ r ∈ rowsOf s'.pages table.tableId,
      ∃ p hd body, s'.pages[r.ref.page]? = some p ∧ p.slots[r.ref.slot]? = some (some (.record hd body)) :=
    fun r hr => row_cell hchanged.wf hr
  have hrows := hchanged.rowsOf table.tableId
  rw [rowsWith, if_pos rfl] at hrows
  intro item hitem place hplace
  rw [mem_singleton.mp hitem] at hplace
  rcases hplace with hborn | hended
  · have hnew := hrow (written.stored table recordId xmin (old.map (·.ref)) s.pageSize ref) (by rw [hrows]; simp)
    rw [← Option.some.inj hborn]
    exact hnew
  · obtain ⟨o, ho, rfl⟩ := Option.map_eq_some_iff.mp hended
    have hendedRow := hrow (endOld old xmin o)
      (by rw [hrows]; exact mem_append_left _ (mem_map_of_mem (hold o ho)))
    rwa [(endOld_header old xmin o).2] at hendedRow

section
variable (hs : Wf s) (hlive : liveRows s.pages table.tableId recordId = old.toList) (h : Wrote s s' table recordId old row xmin ref)
include hs hlive h

theorem Wrote.one_live (hcommitted : isCommittedCsn xmin = true) :
    ∃ r written, imageOver s.labelLength old row = some written ∧ r.ref = ref ∧ r.payload = written.payload ∧
      liveRows s'.pages table.tableId recordId = [r] := by
  obtain ⟨written, hwritten, hchanged⟩ := h.changed
  obtain ⟨hid, hxmin, hxmax⟩ := written.stored_header table recordId xmin (old.map (·.ref)) s.pageSize ref
  refine ⟨written.stored table recordId xmin (old.map (·.ref)) s.pageSize ref, written, hwritten, rfl, rfl, ?_⟩
  rw [liveRows, hchanged.rowsOf, rowsWith, if_pos rfl]
  refine filter_liveOf (liveOf_ended hs hlive (fun r => (endOld_header old xmin r).1) ?_ ?_) ?_
  · rintro o rfl
    rw [endOld_of_eq]
    exact isOpenEndCsn_of_committed hcommitted
  · intro r _ hne
    rw [endOld_of_ne hne]
  · simp [Row.liveOf, Row.live, hid, hxmin, hxmax, hcommitted, isOpenEndCsn]

theorem Wrote.one_live_settled (base : HeapStore) {csn : ℕ} (hcommitted : isCommittedCsn csn = true) :
    ∃ r written s₃, imageOver s.labelLength old row = some written ∧ r.ref = ref ∧ r.payload = written.payload ∧
      Txn.applyImages csn [{ born := some ref, ended := old.map (·.ref) }] base s' = some s₃ ∧
      liveRows s₃.pages table.tableId recordId = [r] := by
  have hold : ∀ r, old = some r → r ∈ rowsOf s.pages table.tableId := by
    rintro r rfl
    exact (mem_filter.mp (by simp [hlive] : r ∈ liveRows s.pages table.tableId recordId)).1
  obtain ⟨pages, happly, hreheaded⟩ := Txn.applyImages_eq csn base (h.stampsRecords hold)
  set rows : List Txn.RowWrite := [{ born := some ref, ended := old.map (·.ref) }] with hrowsDef
  obtain ⟨written, hwritten, hchanged⟩ := h.changed
  have hrewritten : Rewritten s' { s' with pages := pages } _ :=
    Reheaded.rewritten hchanged.wf hreheaded (Txn.stampHeader_keepsPayload csn rows) rfl rfl rfl rfl
  have hrows := Reheaded.rowsOf hchanged.wf (Txn.stampHeader_keepsPayload csn rows) hrewritten table.tableId
  rw [hchanged.rowsOf, rowsWith, if_pos rfl, map_append, map_map, map_singleton] at hrows
  set new := written.stored table recordId xmin (old.map (·.ref)) s.pageSize ref with hnew
  refine ⟨new.mapHeader (Txn.stampHeader csn rows), written, _, hwritten, rfl, rfl, happly, ?_⟩
  rw [liveRows, hrows]
  refine filter_liveOf (liveOf_ended hs hlive (fun r => ?_) ?_ ?_) ?_
  · exact (endOld_header old xmin r).1
  · rintro o rfl
    have hended : Txn.isEnded rows o.ref = true := by simp [hrowsDef, Txn.isEnded]
    simp only [Function.comp_apply, Row.mapHeader, Txn.stampHeader, (endOld_header _ _ _).2, hended, if_true]
    exact isOpenEndCsn_of_committed hcommitted
  · intro r hr hne
    have hborn : Txn.isBorn rows r.ref = false := by
      simpa [hrowsDef, Txn.isBorn] using Ne.symm (h.unused _ r hr)
    have hended : Txn.isEnded rows r.ref = false := by
      cases old with
      | none => rfl
      | some o => simpa [hrowsDef, Txn.isEnded] using Ne.symm (hne o rfl)
    simp only [Function.comp_apply, endOld_of_ne hne, Row.mapHeader, Txn.stampHeader, hborn, hended]
    rfl
  · obtain ⟨hid, -, hxmax⟩ := written.stored_header table recordId xmin (old.map (·.ref)) s.pageSize ref
    have hborn : Txn.isBorn rows new.ref = true := by simp [hrowsDef, hnew, Txn.isBorn, RowImage.stored]
    have hended : Txn.isEnded rows new.ref = false := by
      cases ho : old with
      | none => simp [hrowsDef, Txn.isEnded, ho]
      | some o =>
        have hne : o.ref ≠ new.ref := h.unused _ o (hold o ho)
        simpa [hrowsDef, Txn.isEnded, ho] using hne
    rw [← hnew] at hid hxmax
    simp [Row.liveOf, Row.live, Row.mapHeader, Txn.stampHeader, hborn, hended, hid, hxmax, hcommitted, isOpenEndCsn]

end

end Live

/-! ## Refusals -/

theorem Quiet.scan {s s' : HeapStore} (hs : Wf s) (h : Quiet s s') (tableId : ℕ) (snapshot : Snapshot) :
    scan s'.pages tableId snapshot = scan s.pages tableId snapshot := by
  rw [scan_eq hs, scan_eq (h.wf hs), h.rowsOf hs]

theorem Quiet.lookup {s s' : HeapStore} (hs : Wf s) (h : Quiet s s') (tableId recordId : ℕ) (snapshot : Snapshot) :
    lookup s'.pages tableId recordId snapshot = lookup s.pages tableId recordId snapshot := by
  rw [Heap.lookup, Heap.lookup, lookupWithRef_eq hs, lookupWithRef_eq (h.wf hs), h.rowsOf hs]

namespace HeapWrite

/-- A refused write changes nothing a reader can see, and every chain is still walked to its end. Repeated until it
succeeds, it leaves one live version of its record. -/
theorem refused_then_repeated (hs : Wf s) {w : HeapWrite} (htargets : w.Targets recordId old)
    (hlive : liveRows s.pages table.tableId recordId = old.toList) {script rest : List Bool} {e : HeapRefusal}
    (hrefused : w.run table row xmin script s = (.error e, s', rest)) :
    Wf s' ∧
    (∀ tableId snapshot, scan s'.pages tableId snapshot = scan s.pages tableId snapshot) ∧
    (∀ tableId record snapshot, lookup s'.pages tableId record snapshot = lookup s.pages tableId record snapshot) ∧
    (∀ tableId, rowsOf s'.pages tableId = rowsOf s.pages tableId) ∧
    (∀ tableId, (walk s'.pages tableId).failure = none) ∧
    liveRows s'.pages table.tableId recordId = old.toList ∧
    ∀ script' ref s'' rest', w.run table row xmin script' s' = (.ok ref, s'', rest') →
      ∃ written, imageOver s.labelLength old row = some written ∧
        (isCommittedCsn xmin = true →
          ∃ r, r.ref = ref ∧ r.payload = written.payload ∧ liveRows s''.pages table.tableId recordId = [r]) ∧
        ∀ csn base, isCommittedCsn csn = true →
          ∃ r s₃, r.ref = ref ∧ r.payload = written.payload ∧
            Txn.applyImages csn [{ born := some ref, ended := old.map (·.ref) }] base s'' = some s₃ ∧
            liveRows s₃.pages table.tableId recordId = [r] := by
  have hold : ∀ {t : HeapStore}, liveRows t.pages table.tableId recordId = old.toList →
      ∀ r, old = some r → r ∈ rowsOf t.pages table.tableId := by
    rintro t ht r rfl
    exact (mem_filter.mp (by simp [ht] : r ∈ liveRows t.pages table.tableId recordId)).1
  have hquiet : Quiet s s' := (run_ensures hs htargets (hold hlive)).of_error hrefused
  have hs' := hquiet.wf hs
  have hlive' : liveRows s'.pages table.tableId recordId = old.toList := by
    rw [liveRows, hquiet.rowsOf hs]
    exact hlive
  refine ⟨hs', hquiet.scan hs, hquiet.lookup hs, hquiet.rowsOf hs, walk_failure hs', hlive', ?_⟩
  intro script' ref s'' rest' hok
  have hwrote : Wrote s' s'' table recordId old row xmin ref := (run_ensures hs' htargets (hold hlive')).of_ok hok
  obtain ⟨written, hwritten, -⟩ := hwrote.changed
  refine ⟨written, hquiet.labelLength ▸ hwritten, fun hcommitted => ?_, fun csn base hcommitted => ?_⟩
  · obtain ⟨r, written', hwritten', href, hpayload, hone⟩ := hwrote.one_live hs' hlive' hcommitted
    cases hwritten.symm.trans hwritten'
    exact ⟨r, href, hpayload, hone⟩
  · obtain ⟨r, written', s₃, hwritten', href, hpayload, happly, hone⟩ := hwrote.one_live_settled hs' hlive' base hcommitted
    cases hwritten.symm.trans hwritten'
    exact ⟨r, s₃, href, hpayload, happly, hone⟩

/-- A first insert is refused after the file has grown by the page of its table, and is then repeated. -/
theorem refused_then_repeated_first_insert :
    let s := bootstrap 512 fun _ => none
    let refused := (insert 1).run ⟨3, 1⟩ ⟨none, [7]⟩ 5 [false, false, false, false, true] s
    let repeated := (insert 1).run ⟨3, 1⟩ ⟨none, [7]⟩ 5 [] refused.2.1
    refused.1 = .error .device ∧ refused.2.1.pages.length = 2 ∧
      (∀ snapshot, scan refused.2.1.pages 3 snapshot = scan s.pages 3 snapshot) ∧ liveRows refused.2.1.pages 3 1 = [] ∧
      ∃ r, repeated.1 = .ok r.ref ∧ r.payload = [7] ∧ liveRows repeated.2.1.pages 3 1 = [r] := by
  intro s refused repeated
  have hrefused : (insert 1).run ⟨3, 1⟩ ⟨none, [7]⟩ 5 [false, false, false, false, true] s =
      (.error .device, refused.2.1, refused.2.2) := rfl
  have hok : repeated.1 = .ok ⟨2, 1⟩ := by decide +kernel
  have hrepeated : (insert 1).run ⟨3, 1⟩ ⟨none, [7]⟩ 5 [] refused.2.1 = repeated := rfl
  have hs : Wf s := bootstrap_wf le_rfl _
  have htargets : (insert 1).Targets 1 none := ⟨rfl, rfl⟩
  obtain ⟨-, hscan, -, -, -, hlive, hagain⟩ := refused_then_repeated hs htargets rfl hrefused
  clear_value repeated
  obtain ⟨written, hwritten, hcommitted, -⟩ := hagain _ _ _ _ (hrepeated.trans (Prod.ext hok rfl))
  cases hwritten
  obtain ⟨r, href, hpayload, hone⟩ := hcommitted (by decide)
  exact ⟨rfl, rfl, hscan 3, hlive, r, href ▸ hok, hpayload, hone⟩

end HeapWrite
end Grafx.Heap
