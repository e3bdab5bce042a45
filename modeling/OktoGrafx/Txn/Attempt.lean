import OktoGrafx.Txn.RowOp
import OktoGrafx.Txn.Settle

/-! What an attempt leaves on the pages: rows it has ended carry a provisional end, rows it has
written a provisional birth, and nothing else has changed. The next intent of the attempt, an
abandonment and a commit all start from that. -/

namespace Grafx.Txn
open List Heap Fallible

variable {o r : Row} {intent : RowIntent}

/-! ## One intent -/

def Targets (s : HeapStore) (op : RowOp) (old : Option Row) : RowIntent → Prop
  | .insert table recordId row | .insertReserved table recordId row | .insertInitialReserved table recordId row _ =>
    op = ⟨table.tableId, recordId, .insert row⟩ ∧ old = none
  | .update table reference row =>
    ∃ r ∈ rowsOf s.pages table.tableId, r.ref = reference ∧ op = ⟨table.tableId, r.header.recordId, .update row⟩ ∧
      old = some r
  | .delete table reference =>
    ∃ r ∈ rowsOf s.pages table.tableId, r.ref = reference ∧ op = ⟨table.tableId, r.header.recordId, .delete⟩ ∧
      old = some r

def RowOp.deletes (op : RowOp) : Bool := match op.change with
  | .delete => true
  | _ => false

def endTarget (old : Option Row) (deleted : Bool) (r : Row) : Row :=
  old.elim r fun o => r.ended o.ref provisionalCsn deleted

structure Unborn (op : RowOp) (old : Option Row) (new : Row) : Prop where
  recordId : new.header.recordId = op.recordId
  xmin : new.header.xmin = provisionalCsn
  xmax : new.header.xmax = noCsn
  previous : new.header.previous = old.map (·.ref)

structure IntentDone (s s' : HeapStore) (op : RowOp) (old : Option Row) (item : RowWrite) (added : List Row) : Prop
    extends Advances s s' where
  ended : item.ended = old.map (·.ref)
  born : added.map (·.ref) = item.born.toList
  rows : ∀ t, rowsOf s'.pages t =
    (rowsOf s.pages t).map (endTarget old op.deletes) ++ if t = op.tableId then added else []
  values : added.map rowValue = (op.result s.labelLength (old.map rowValue)).toList
  unborn : ∀ new ∈ added, Unborn op old new
  unused : ∀ new ∈ added, ∀ t, ∀ r ∈ rowsOf s.pages t, r.ref ≠ new.ref

section Intent
variable {s s' : HeapStore} {op : RowOp} {old : Option Row} {ref : RecordRef} {row : RowImage} {table : TableDef}

theorem stored_unborn (row : RowImage) (table : TableDef) (recordId : ℕ) (change : RowChange) (old : Option Row)
    (pageSize : ℕ) (ref : RecordRef) :
    Unborn ⟨table.tableId, recordId, change⟩ old
        (row.stored table recordId provisionalCsn (old.map (·.ref)) pageSize ref) ∧
      rowValue (row.stored table recordId provisionalCsn (old.map (·.ref)) pageSize ref) = imageValue row := by
  unfold RowImage.stored placedHeader
  split_ifs
  · exact ⟨⟨rfl, rfl, rfl, rfl⟩, rfl⟩
  · exact ⟨⟨rfl, rfl, rfl, rfl⟩, rfl⟩

theorem Inserted.done {recordId : ℕ} (h : Inserted s s' table recordId provisionalCsn row ref) :
    ∃ added, IntentDone s s' ⟨table.tableId, recordId, .insert row⟩ none { born := some ref } added := by
  obtain ⟨hunborn, hvalue⟩ := stored_unborn row table recordId (.insert row) none s.pageSize ref
  refine ⟨[row.stored table recordId provisionalCsn none s.pageSize ref], h.added.toAdvances,
    rfl, rfl, fun t => ?_, ?_, ?_, ?_⟩
  · have hid : endTarget none (RowOp.deletes ⟨table.tableId, recordId, .insert row⟩) = (id : Row → Row) := rfl
    rw [h.added.rows t, hid, map_id]
    split_ifs
    · rfl
    · rw [append_nil]
  · exact congrArg (fun v => [v]) hvalue
  · intro new hnew
    rw [mem_singleton.mp hnew]
    exact hunborn
  · intro new hnew t r hr
    rw [mem_singleton.mp hnew]
    exact h.added.unused t r hr

variable (hs : Wf s)
include hs

theorem rowsWith_eq {tableId : ℕ} (ho : o ∈ rowsOf s.pages tableId) (deleted : Bool) (added : List Row) (t : ℕ) :
    rowsWith s tableId ((rowsOf s.pages tableId).map (Row.ended o.ref provisionalCsn deleted) ++ added) t =
      (rowsOf s.pages t).map (endTarget (some o) deleted) ++ if t = tableId then added else [] := by
  unfold rowsWith
  split_ifs with ht
  · rw [ht]
    rfl
  · rw [append_nil]
    refine (map_id _).symm.trans (map_congr_left fun r hr => ?_)
    exact (Row.ended_of_ne fun href => ht (row_unique hs hr ho href).1).symm

theorem Updated.done (ho : o ∈ rowsOf s.pages table.tableId) (h : Updated s s' table o provisionalCsn row ref) :
    ∃ added, IntentDone s s' ⟨table.tableId, o.header.recordId, .update row⟩ (some o)
      { born := some ref, ended := some o.ref } added := by
  obtain ⟨written, hwritten, hchanged⟩ := h.changed
  obtain ⟨hunborn, hvalue⟩ := stored_unborn written table o.header.recordId (.update row) (some o) s.pageSize ref
  refine ⟨[written.stored table o.header.recordId provisionalCsn (some o.ref) s.pageSize ref],
    hchanged.toAdvances, rfl, rfl, fun t => ?_, ?_, ?_, ?_⟩
  · rw [hchanged.rowsOf t, rowsWith_eq hs ho]
    rfl
  · have hresult : RowOp.result s.labelLength ⟨table.tableId, o.header.recordId, .update row⟩ (some (rowValue o)) =
        some (imageValue written) := inherited_value hwritten
    rw [Option.map_some, hresult, map_singleton]
    exact congrArg (fun v => [v]) hvalue
  · intro new hnew
    rw [mem_singleton.mp hnew]
    exact hunborn
  · intro new hnew t r hr
    rw [mem_singleton.mp hnew]
    exact h.unused t r hr

theorem Deleted.done (ho : o ∈ rowsOf s.pages table.tableId) (h : Deleted s s' table.tableId o provisionalCsn) :
    IntentDone s s' ⟨table.tableId, o.header.recordId, .delete⟩ (some o) { ended := some o.ref } [] := by
  refine ⟨h.changed.toAdvances, rfl, rfl, fun t => ?_, rfl, ?_, ?_⟩
  · rw [h.changed.rowsOf t, ← append_nil ((rowsOf s.pages table.tableId).map _), rowsWith_eq hs ho]
    rfl
  · exact nofun
  · exact nofun

theorem write_ensures (htargets : Targets s op old intent) :
    intent.write.Ensures s (fun item s' => ∃ added, IntentDone s s' op old item added) (Quiet s) := by
  cases intent with
  | insert table recordId row =>
    obtain ⟨rfl, rfl⟩ := htargets
    exact (insert_ensures hs _ _ row).bind fun ref s' h => ensures_pure (Inserted.done h)
  | insertReserved table recordId row =>
    obtain ⟨rfl, rfl⟩ := htargets
    exact (insertReserved_ensures hs _ _ row).bind fun ref s' h => ensures_pure (Inserted.done h)
  | insertInitialReserved table recordId row floor =>
    obtain ⟨rfl, rfl⟩ := htargets
    exact (insertInitialReserved_ensures hs _ _ floor row).bind fun ref s' h => ensures_pure (Inserted.done h)
  | update table reference row =>
    obtain ⟨o, ho, rfl, rfl, rfl⟩ := htargets
    exact (update_ensures hs ho _ row).bind fun ref s' h => ensures_pure (Updated.done hs ho h)
  | delete table reference =>
    obtain ⟨o, ho, rfl, rfl, rfl⟩ := htargets
    exact (delete_ensures hs ho _).bind fun _ s' h => ensures_pure ⟨[], Deleted.done hs ho h⟩

end Intent

/-! ## A whole attempt -/

structure SameVersion (r r' : Row) : Prop where
  ref : r'.ref = r.ref
  payload : r'.payload = r.payload
  recordId : r'.header.recordId = r.header.recordId
  xmin : r'.header.xmin = r.header.xmin
  previous : r'.header.previous = r.header.previous
  nodeLabels : r'.header.flags.nodeLabels = r.header.flags.nodeLabels

theorem SameVersion.refl (r : Row) : SameVersion r r := ⟨rfl, rfl, rfl, rfl, rfl, rfl⟩

theorem SameVersion.trans {r' r'' : Row} (h : SameVersion r r') (h' : SameVersion r' r'') : SameVersion r r'' :=
  ⟨h'.ref.trans h.ref, h'.payload.trans h.payload, h'.recordId.trans h.recordId, h'.xmin.trans h.xmin,
    h'.previous.trans h.previous, h'.nodeLabels.trans h.nodeLabels⟩

theorem endTarget_same (old : Option Row) (deleted : Bool) (r : Row) : SameVersion r (endTarget old deleted r) := by
  cases old with
  | none => exact SameVersion.refl r
  | some o =>
    by_cases href : r.ref = o.ref
    · simp only [endTarget, Option.elim_some, ← href, Row.ended_of_eq]
      exact ⟨rfl, rfl, rfl, rfl, rfl, rfl⟩
    · simp only [endTarget, Option.elim_some, Row.ended_of_ne href]
      exact SameVersion.refl r

theorem endTarget_of_ne {old : Option Row} {deleted : Bool} (h : ∀ o, old = some o → r.ref ≠ o.ref) : endTarget old deleted r = r := by
  cases old with
  | none => rfl
  | some o => exact Row.ended_of_ne (h o rfl)

theorem endTarget_xmax (deleted : Bool) (href : r.ref = o.ref) : (endTarget (some o) deleted r).header.xmax = provisionalCsn := by
  simp only [endTarget, Option.elim_some, ← href, Row.ended_of_eq]
  rfl

abbrev Done := List (RowOp × Option Row)

def addedTo (added : List (ℕ × Row)) (t : ℕ) : List Row := (added.filter (·.1 == t)).map (·.2)

/-- `f` is what the attempt did to the rows that were there, `added` what it has put behind them. -/
structure Written (s s' : HeapStore) (done : Done) (written : List RowWrite) (f : Row → Row) (added : List (ℕ × Row)) :
    Prop extends Advances s s' where
  rows : ∀ t, rowsOf s'.pages t = (rowsOf s.pages t).map f ++ addedTo added t
  same : ∀ r, SameVersion r (f r)
  kept : ∀ r, isEnded written r.ref = false → f r = r
  ended : ∀ r, isEnded written r.ref = true → (f r).header.xmax = provisionalCsn
  endedRefs : ∀ ref, isEnded written ref = true ↔ ∃ x ∈ done, ∃ o, x.2 = some o ∧ o.ref = ref
  bornRefs : ∀ ref, isBorn written ref = true ↔ ∃ x ∈ added, x.2.ref = ref
  values : added.map (fun x => (x.1, x.2.header.recordId, rowValue x.2)) = done.filterMap fun x =>
    (x.1.result s.labelLength (x.2.map rowValue)).map fun value => (x.1.tableId, x.1.recordId, value)
  unborn : ∀ x ∈ added, x.2.header.xmin = provisionalCsn ∧ x.2.header.xmax = noCsn ∧
    ∀ ref, x.2.header.previous = some ref → ∃ o ∈ rowsOf s.pages x.1, o.ref = ref ∧ o.header.recordId = x.2.header.recordId
  unused : ∀ x ∈ added, ∀ t, ∀ r ∈ rowsOf s.pages t, r.ref ≠ x.2.ref

section Attempt
variable {base s s' : HeapStore} {done : Done} {written : List RowWrite} {f : Row → Row} {added : List (ℕ × Row)}

theorem Written.nil (hs : Wf s) : Written s s [] [] id [] where
  toAdvances := ⟨hs, rfl, rfl, .refl s.pages⟩
  rows t := by simp [addedTo]
  same := SameVersion.refl
  kept _ _ := rfl
  ended _ h := nomatch h
  endedRefs ref := by simp [isEnded]
  bornRefs ref := by simp [isBorn]
  values := rfl
  unborn x hx := nomatch hx
  unused x hx := nomatch hx

variable (h : Written base s done written f added)
include h

theorem Written.of_quiet (hquiet : Quiet s s') : Written base s' done written f added :=
  { h with
    toAdvances := h.toAdvances.trans (hquiet.advances h.wf)
    rows := fun t => (hquiet.rowsOf h.wf t).trans (h.rows t) }

omit h in
theorem mem_addedTo {t : ℕ} : r ∈ addedTo added t ↔ (t, r) ∈ added := by
  simp only [addedTo, mem_map, mem_filter, beq_iff_eq]
  constructor
  · rintro ⟨⟨t', r'⟩, ⟨hmem, rfl⟩, rfl⟩
    exact hmem
  · intro hmem
    exact ⟨(t, r), ⟨hmem, rfl⟩, rfl⟩

theorem Written.targets {op : RowOp} {old : Option Row}
    (htargets : Targets base op old intent) (hopen : ∀ o, old = some o → isEnded written o.ref = false) :
    Targets s op old intent := by
  have hmem : ∀ {t : ℕ} {r : Row}, r ∈ rowsOf base.pages t → isEnded written r.ref = false → r ∈ rowsOf s.pages t := by
    intro t r hr hended
    rw [h.rows t]
    refine mem_append_left _ (mem_map.mpr ⟨r, hr, h.kept r hended⟩)
  cases intent with
  | insert | insertReserved | insertInitialReserved => exact htargets
  | update | delete =>
    obtain ⟨r, hr, href, hop, rfl⟩ := htargets
    exact ⟨r, hmem hr (hopen r rfl), href, hop, rfl⟩

omit h in
theorem Targets.old_mem {op : RowOp} {old : Option Row} (htargets : Targets base op old intent)
    (ho : old = some o) : o ∈ rowsOf base.pages op.tableId ∧ o.header.recordId = op.recordId := by
  cases intent with
  | insert | insertReserved | insertInitialReserved => exact nomatch htargets.2.symm.trans ho
  | update | delete =>
    obtain ⟨r, hr, -, rfl, rfl⟩ := htargets
    cases ho
    exact ⟨hr, rfl⟩

omit h in
theorem isEnded_concat (written : List RowWrite) (item : RowWrite) (ref : RecordRef) :
    isEnded (written ++ [item]) ref = true ↔ isEnded written ref = true ∨ item.ended = some ref := by
  simp [isEnded, or_comm]

omit h in
theorem isBorn_concat (written : List RowWrite) (item : RowWrite) (ref : RecordRef) :
    isBorn (written ++ [item]) ref = true ↔ isBorn written ref = true ∨ item.born = some ref := by
  simp [isBorn, or_comm]

omit h in
theorem addedTo_concat (added : List (ℕ × Row)) (tableId : ℕ) (new : List Row) (t : ℕ) :
    addedTo (added ++ new.map (tableId, ·)) t = addedTo added t ++ if t = tableId then new else [] := by
  unfold addedTo
  rw [filter_append, map_append]
  congr 1
  by_cases ht : t = tableId
  · subst ht
    rw [if_pos rfl, filter_eq_self.mpr (by simp), map_map]
    exact map_id new
  · rw [if_neg ht, filter_eq_nil_iff.mpr (by simpa using fun _ _ => Ne.symm ht), map_nil]

theorem Written.next {op : RowOp} {old : Option Row}
    (htargets : Targets base op old intent) {item : RowWrite} {new : List Row} (hdone : IntentDone s s' op old item new) :
    Written base s' (done ++ [(op, old)]) (written ++ [item]) (endTarget old op.deletes ∘ f)
      (added ++ new.map (op.tableId, ·)) := by
  have hne : ∀ x ∈ added, ∀ o, old = some o → x.2.ref ≠ o.ref :=
    fun x hx o ho => Ne.symm (h.unused x hx _ o (htargets.old_mem ho).1)
  have hended : ∀ ref, item.ended = some ref ↔ ∃ o, old = some o ∧ o.ref = ref := by
    intro ref
    rw [hdone.ended, Option.map_eq_some_iff]
  refine ⟨h.toAdvances.trans hdone.toAdvances, fun t => ?_,
    fun r => (h.same r).trans (endTarget_same old op.deletes (f r)), fun r hr => ?_, fun r hr => ?_, fun ref => ?_,
    fun ref => ?_, ?_, ?_, ?_⟩
  · have hadded : (addedTo added t).map (endTarget old op.deletes) = addedTo added t := by
      refine (map_congr_left fun r hr => ?_).trans (map_id _)
      exact endTarget_of_ne (hne (t, r) (mem_addedTo.mp hr))
    rw [hdone.rows, h.rows, map_append, map_map, hadded, addedTo_concat, append_assoc]
  · rw [Bool.eq_false_iff, ne_eq, isEnded_concat, not_or, hended, Bool.not_eq_true] at hr
    rw [Function.comp_apply, h.kept r hr.1]
    exact endTarget_of_ne fun o ho href => hr.2 ⟨o, ho, href.symm⟩
  · rw [isEnded_concat, hended] at hr
    by_cases hlast : ∃ o, old = some o ∧ o.ref = r.ref
    · obtain ⟨o, rfl, href⟩ := hlast
      exact endTarget_xmax op.deletes ((h.same r).ref.trans href.symm)
    · rw [Function.comp_apply, endTarget_of_ne fun o ho href => hlast ⟨o, ho, href.symm.trans (h.same r).ref⟩]
      exact h.ended r (hr.resolve_right hlast)
  · rw [isEnded_concat, hended, h.endedRefs]
    simp only [mem_append, mem_singleton, or_and_right, exists_or, exists_eq_left]
  · rw [isBorn_concat, h.bornRefs]
    have hborn : item.born = some ref ↔ ∃ r ∈ new, r.ref = ref := by
      rw [← Option.mem_toList, ← hdone.born, mem_map]
    simp only [hborn, mem_append, mem_map, or_and_right, exists_or, exists_exists_and_eq_and]
  · have hvalues := hdone.values
    rw [h.labelLength] at hvalues
    rw [map_append, h.values, filterMap_append, map_map]
    congr 1
    have hpairs : new.map (fun r => (op.tableId, r.header.recordId, rowValue r)) =
        (new.map rowValue).map fun value => (op.tableId, op.recordId, value) := by
      rw [map_map]
      exact map_congr_left fun r hr => by
        simp only [Function.comp_apply, (hdone.unborn r hr).recordId]
    refine hpairs.trans ?_
    rw [hvalues]
    cases hresult : op.result base.labelLength (old.map rowValue) with
    | none => simp [hresult]
    | some value => simp [hresult]
  · intro x hx
    rcases mem_append.mp hx with hx | hx
    · exact h.unborn x hx
    · obtain ⟨r, hr, rfl⟩ := mem_map.mp hx
      obtain ⟨hid, hxmin, hxmax, hprevious⟩ := hdone.unborn r hr
      refine ⟨hxmin, hxmax, fun ref href => ?_⟩
      rw [hprevious, Option.map_eq_some_iff] at href
      obtain ⟨o, ho, rfl⟩ := href
      exact ⟨o, (htargets.old_mem ho).1, rfl, (htargets.old_mem ho).2.trans hid.symm⟩
  · intro x hx t r hr
    rcases mem_append.mp hx with hx | hx
    · exact h.unused x hx t r hr
    · obtain ⟨new, hnew, rfl⟩ := mem_map.mp hx
      have hr' : f r ∈ rowsOf s.pages t := by
        rw [h.rows]
        exact mem_append_left _ (mem_map_of_mem hr)
      rw [← (h.same r).ref]
      exact hdone.unused new hnew t (f r) hr'

def Done.refs (done : Done) : List RecordRef := done.filterMap fun x => x.2.map (·.ref)

theorem writeIntents_written {rest : List RowIntent} {todo : Done} (htargets : List.Forall₂ (fun intent x => Targets base x.1 x.2 intent) rest todo)
    (hdistinct : (Done.refs (done ++ todo)).Nodup) (script : List Bool) :
    ∃ n f' added', Written base (writeIntents rest written script s).store (done ++ todo.take n)
        (writeIntents rest written script s).written f' added' ∧
      ((writeIntents rest written script s).failure = none → todo.take n = todo) := by
  induction htargets generalizing s done written f added script with
  | nil => exact ⟨0, f, added, by simpa [writeIntents] using h, fun _ => rfl⟩
  | @cons intent x rest todo hx _ ih =>
    have hopen : ∀ o, x.2 = some o → isEnded written o.ref = false := by
      intro o ho
      rw [Bool.eq_false_iff, ne_eq, h.endedRefs]
      rintro ⟨y, hy, o', ho', href⟩
      rw [Done.refs, filterMap_append, nodup_append] at hdistinct
      refine hdistinct.2.2 o.ref (mem_filterMap.mpr ⟨y, hy, by rw [ho', ← href]; rfl⟩) o.ref ?_ rfl
      exact mem_filterMap.mpr ⟨x, mem_cons_self, by rw [ho]; rfl⟩
    have hwrite := write_ensures h.wf (h.targets hx hopen) script
    match hrun : intent.write script s with
    | (.ok item, s', script') =>
      rw [hrun] at hwrite
      obtain ⟨new, hnew⟩ := hwrite
      simp only [writeIntents, hrun]
      have hstep := h.next hx hnew
      obtain ⟨n, f', added', hwritten, hall⟩ := ih hstep (by simpa using hdistinct) script'
      refine ⟨n + 1, f', added', ?_, fun hok => ?_⟩
      · simpa using hwritten
      · rw [take_succ_cons, hall hok]
    | (.error e, s', script') =>
      rw [hrun] at hwrite
      simp only [writeIntents, hrun]
      exact ⟨0, f, added, by simpa using h.of_quiet hwrite, nofun⟩

end Attempt
end Grafx.Txn
