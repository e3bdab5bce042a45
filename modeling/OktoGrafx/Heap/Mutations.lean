import OktoGrafx.Heap.Added

/-! Inserts, updates and deletes, as their callers see them: the rows of the table when they
succeed, and a quiet change when they are refused. -/

namespace Grafx.Heap
open List Fallible

variable {s s' : HeapStore} {tableId xmax : ℕ} {table : TableDef}
  {deleted : Bool} {p : Page Cell} {body : RecordBody} {h : RecordHeader} {f : RecordHeader → RecordHeader} {ref : RecordRef} {r : Row} {v : StoredVersion}

/-! ## References -/

theorem stored_unique {t t' : ℕ} {v' : StoredVersion} (hv : Stored s.pages t v)
    (hv' : Stored s.pages t' v') (href : v.ref = v'.ref) : t = t' ∧ v = v' := by
  obtain ⟨e, -, -, xs, hchain, hmem⟩ := hv
  obtain ⟨e', -, -, xs', hchain', hmem'⟩ := hv'
  obtain ⟨hpage, p, hp, -, hcell⟩ := mem_versionsOn.mp hmem
  obtain ⟨hpage', p', hp', -, hcell'⟩ := mem_versionsOn.mp hmem'
  rw [← href] at hpage' hp' hcell'
  cases hp.symm.trans hp'
  obtain ⟨q, hq, hdata⟩ := hchain.data _ hpage
  obtain ⟨q', hq', hdata'⟩ := hchain'.data _ hpage'
  cases hq.symm.trans hq'
  refine ⟨hdata.unique hdata', ?_⟩
  have hsame := Option.some.inj (Option.some.inj (hcell.symm.trans hcell'))
  obtain ⟨hheader, hbody⟩ := Cell.record.inj hsame
  cases v
  cases v'
  simp_all only

theorem mem_rowsOf (hs : Wf s) : r ∈ rowsOf s.pages tableId ↔ ∃ v, Stored s.pages tableId v ∧ rowOf s.pages v = r := by
  simp only [rowsOf, mem_map, mem_walk_iff hs]

theorem row_cell (hs : Wf s) (hr : r ∈ rowsOf s.pages tableId) :
    ∃ p h body, s.pages[r.ref.page]? = some p ∧ p.slots[r.ref.slot]? = some (some (.record h body)) := by
  obtain ⟨v, ⟨-, -, -, xs, -, hmem⟩, rfl⟩ := (mem_rowsOf hs).mp hr
  obtain ⟨-, p, hp, -, hcell⟩ := mem_versionsOn.mp hmem
  exact ⟨p, v.header, v.body, hp, hcell⟩

theorem row_unique (hs : Wf s) {t t' : ℕ} {r' : Row} (hr : r ∈ rowsOf s.pages t) (hr' : r' ∈ rowsOf s.pages t')
    (href : r.ref = r'.ref) : t = t' ∧ r = r' := by
  obtain ⟨v, hv, rfl⟩ := (mem_rowsOf hs).mp hr
  obtain ⟨v', hv', rfl⟩ := (mem_rowsOf hs).mp hr'
  obtain ⟨ht, rfl⟩ := stored_unique hv hv' href
  exact ⟨ht, rfl⟩

theorem cellVersions_pairwise (index slot : ℕ) (cells : List (Option Cell)) :
    (cellVersions index slot cells).Pairwise fun v w => v.ref ≠ w.ref := by
  induction cells generalizing slot with
  | nil => exact List.Pairwise.nil
  | cons c rest ih =>
    cases c with
    | none => exact ih _
    | some cell => cases cell with
      | record h body =>
        refine pairwise_cons.mpr ⟨fun w hw href => ?_, ih _⟩
        have hle := (mem_cellVersions.mp hw).2.1
        rw [← href] at hle
        exact Nat.not_succ_le_self slot hle
      | _ => exact ih _

theorem versionsOn_pairwise {pages : List (Page Cell)} {xs : List ℕ} (hnodup : xs.Nodup) :
    (versionsOn pages xs).Pairwise fun v w => v.ref ≠ w.ref := by
  induction xs with
  | nil => exact List.Pairwise.nil
  | cons i rest ih =>
    obtain ⟨hi, hrest⟩ := nodup_cons.mp hnodup
    rw [versionsOn, flatMap_cons, pairwise_append]
    refine ⟨?_, ih hrest, fun v hv w hw href => hi ?_⟩
    · unfold pageVersions
      cases pages[i]? with
      | none => exact List.Pairwise.nil
      | some p => exact cellVersions_pairwise i firstRecordSlot p.slots.tail
    · have hpage : v ∈ versionsOn pages [i] := by simpa [versionsOn] using hv
      have hv' := mem_singleton.mp (mem_versionsOn.mp hpage).1
      have hw' := (mem_versionsOn.mp hw).1
      rwa [← href, hv'] at hw'

/-! ## Ending a version -/

def headAt (ref : RecordRef) (f : RecordHeader → RecordHeader) (r : RecordRef) (h : RecordHeader) : RecordHeader :=
  if r = ref then f h else h

theorem headAt_keepsPayload (hf : ∀ h, (f h).payloadLen = h.payloadLen ∧ (f h).flags.hasOverflow = h.flags.hasOverflow) (ref : RecordRef) :
    KeepsPayload (headAt ref f) := by
  intro r h
  unfold headAt
  split_ifs
  · exact hf h
  · exact ⟨rfl, rfl⟩

theorem Row.mapHeader_of_ne (h : r.ref ≠ ref) : r.mapHeader (headAt ref f) = r := by
  simp only [Row.mapHeader, headAt, if_neg h]

def endAt (ref : RecordRef) (xmax : ℕ) (deleted : Bool) : RecordRef → RecordHeader → RecordHeader :=
  headAt ref (·.endedAt xmax deleted)

def Row.ended (ref : RecordRef) (xmax : ℕ) (deleted : Bool) (r : Row) : Row := r.mapHeader (endAt ref xmax deleted)

theorem Row.ended_of_ne (h : r.ref ≠ ref) : r.ended ref xmax deleted = r := Row.mapHeader_of_ne h

theorem Row.ended_of_eq : r.ended r.ref xmax deleted = { r with header := r.header.endedAt xmax deleted } := by
  simp only [Row.ended, Row.mapHeader, endAt, headAt, if_true]

theorem endable_eq (hok : endable tableId ref p = .ok (h, body)) :
    p.slots[ref.slot]? = some (some (.record h body)) ∧ isProvisionalCsn h.xmin = false ∧ isOpenEndCsn h.xmax = true := by
  unfold endable at hok
  cases hpage : requireTablePage tableId ref.page p with
  | error e => simp [hpage, bind, Except.bind] at hok
  | ok _ =>
    simp only [hpage, bind, Except.bind, throw, throwThe, MonadExceptOf.throw, pure, Except.pure] at hok
    by_cases hslot : ref.slot < firstRecordSlot
    · simp [hslot] at hok
    rw [if_neg hslot] at hok
    match hcell : p.slots[ref.slot]? with
    | some (some (.record h' body')) =>
      simp only [hcell] at hok
      split_ifs at hok with hbirth hended
      cases hok
      exact ⟨rfl, by simpa using hbirth, by simpa using hended⟩
    | none | some none => simp [hcell] at hok
    | some (some (.heapHeader _)) | some (some (.extent _)) | some (some (.descriptor _)) | some (some (.chunk _)) =>
      simp [hcell] at hok

theorem endable_stored (hs : Wf s) (hr : r ∈ rowsOf s.pages tableId) (href : r.ref = ref) (hp : s.pages[ref.page]? = some p)
    (hok : endable tableId ref p = .ok (h, body)) : Stored s.pages tableId ⟨ref, h, body⟩ ∧ r.header = h := by
  obtain ⟨v, hv, rfl⟩ := (mem_rowsOf hs).mp hr
  obtain ⟨e, he, hid, xs, hchain, hmem⟩ := hv
  obtain ⟨-, q, hq, -, hcell⟩ := mem_versionsOn.mp hmem
  have href' : v.ref = ref := href
  rw [href'] at hq hcell
  cases hp.symm.trans hq
  have hsame := Option.some.inj (Option.some.inj ((endable_eq hok).1.symm.trans hcell))
  obtain ⟨hheader, hbody⟩ := Cell.record.inj hsame
  have hv : v = ⟨ref, h, body⟩ := by
    cases v
    simp_all only
  exact ⟨hv ▸ ⟨e, he, hid, xs, hchain, hmem⟩, hheader.symm⟩

theorem setSlot_reheaded (hv : Stored s.pages tableId v) (hp : s.pages[v.ref.page]? = some p) (f : RecordHeader → RecordHeader) :
    ∃ p', p.updateSlot s.pageSize v.ref.slot (.record (f v.header) v.body) = some p' ∧
      Reheaded s.pages (s.pages.set v.ref.page p') (headAt v.ref f) := by
  obtain ⟨e, he, hid, xs, hchain, hmem⟩ := hv
  obtain ⟨-, q, hq, -, hcell⟩ := mem_versionsOn.mp hmem
  cases hp.symm.trans hq
  refine ⟨_, Page.updateSlot_of_size_le hcell le_rfl, ?_⟩
  intro i q hq
  have hother : ∀ (k slot : ℕ), (⟨k, slot⟩ : RecordRef) ≠ v.ref →
      (Option.map (mapCell (headAt v.ref f ⟨k, slot⟩)) : Option Cell → Option Cell) = id := by
    intro k slot hne
    funext c
    cases c with
    | none => rfl
    | some cell => cases cell with
      | record h body => simp [mapCell, headAt, hne]
      | _ => rfl
  by_cases hi : v.ref.page = i
  · subst hi
    cases hp.symm.trans hq
    refine ⟨_, getElem?_set_self (List.getElem?_eq_some_iff.mp hp).1, rfl, rfl, ?_⟩
    refine ext_getElem? fun slot => ?_
    rw [getElem?_mapIdx, getElem?_set]
    by_cases hslot : v.ref.slot = slot
    · subst hslot
      rw [if_pos rfl, if_pos (List.getElem?_eq_some_iff.mp hcell).1, hcell]
      simp [mapCell, headAt]
    · have hne : (⟨v.ref.page, slot⟩ : RecordRef) ≠ v.ref := fun heq => hslot (by rw [← heq])
      rw [if_neg hslot, hother _ slot hne, Option.map_id]
      rfl
  · refine ⟨q, (getElem?_set_ne hi).trans hq, rfl, rfl, ?_⟩
    refine ext_getElem? fun slot => ?_
    have hne : (⟨i, slot⟩ : RecordRef) ≠ v.ref := fun heq => hi (by rw [← heq])
    rw [getElem?_mapIdx, hother i slot hne, Option.map_id]
    rfl

/-! ## The operations -/

structure Changed (s s' : HeapStore) (rows : ℕ → List Row) : Prop extends Advances s s' where
  rowsOf : ∀ t, rowsOf s'.pages t = rows t

def rowsWith (s : HeapStore) (tableId : ℕ) (rows : List Row) (t : ℕ) : List Row :=
  if t = tableId then rows else rowsOf s.pages t

theorem Added.changed {row : Row} (h : Added s s' tableId row) :
    Changed s s' (rowsWith s tableId (rowsOf s.pages tableId ++ [row])) := by
  refine ⟨h.toAdvances, fun t => ?_⟩
  rw [h.rows, rowsWith]
  split_ifs with ht
  · rw [ht]
  · rfl

theorem headed_changed (hs : Wf s) (hv : Stored s.pages tableId v) {p' : Page Cell} (hp : s.pages[v.ref.page]? = some p)
    (hf : ∀ h, (f h).payloadLen = h.payloadLen ∧ (f h).flags.hasOverflow = h.flags.hasOverflow)
    (hset : p.updateSlot s.pageSize v.ref.slot (.record (f v.header) v.body) = some p') :
    Changed s { s with pages := s.pages.set v.ref.page p' }
      (rowsWith s tableId ((rowsOf s.pages tableId).map (Row.mapHeader (headAt v.ref f)))) := by
  obtain ⟨p'', hset', hreheaded⟩ := setSlot_reheaded hv hp f
  obtain rfl := Option.some.inj (hset'.symm.trans hset)
  have hkeeps := headAt_keepsPayload hf v.ref
  have hrewritten : Rewritten s { s with pages := s.pages.set v.ref.page p'' } _ :=
    Reheaded.rewritten hs hreheaded hkeeps rfl rfl rfl rfl
  refine ⟨hrewritten.advances hs, fun t => ?_⟩
  rw [Reheaded.rowsOf hs hkeeps hrewritten, rowsWith]
  split_ifs with ht
  · rw [ht]
  · -- The rows of another table stand elsewhere.
    refine (map_congr_left fun r hr => ?_).trans (map_id _)
    obtain ⟨w, hw, rfl⟩ := (mem_rowsOf hs).mp hr
    exact Row.mapHeader_of_ne fun href => ht (stored_unique hw hv href).1

theorem endedAt_keeps (xmax : ℕ) (deleted : Bool) (h : RecordHeader) :
    (h.endedAt xmax deleted).payloadLen = h.payloadLen ∧
      (h.endedAt xmax deleted).flags.hasOverflow = h.flags.hasOverflow := ⟨rfl, rfl⟩

def RowImage.stored (row : RowImage) (table : TableDef) (recordId xmin : ℕ) (previous : Option RecordRef) (pageSize : ℕ)
    (ref : RecordRef) : Row :=
  ⟨ref, placedHeader pageSize (row.header table recordId xmin previous) row.payload, row.payload⟩

theorem requireCommitNumber_eq {value : ℕ} (h : requireCommitNumber value = .ok ()) : 0 < value ∧ value ≤ maxU64 := by
  unfold requireCommitNumber at h
  split_ifs at h with hbad
  exact ⟨Nat.pos_of_ne_zero fun h0 => hbad (.inl h0), not_lt.mp fun hgt => hbad (.inr hgt)⟩

structure Inserted (s s' : HeapStore) (table : TableDef) (recordId xmin : ℕ) (row : RowImage) (ref : RecordRef) : Prop where
  number : 0 < xmin ∧ xmin ≤ maxU64
  added : Added s s' table.tableId (row.stored table recordId xmin none s.pageSize ref)
  floor : ∃ e ∈ entriesOf s'.pages, e.tableId = table.tableId ∧ recordId < e.nextRecordId

variable (hs : Wf s)
include hs

theorem inserted_ensures {s₁ : HeapStore} (hquiet : Quiet s s₁) {e : TableExtent} {recordId xmin : ℕ}
    (hnumber : 0 < xmin ∧ xmin ≤ maxU64) (hentry : EntryFor s₁ table.tableId e) (hbelow : recordId < e.nextRecordId)
    (row : RowImage) :
    (storeVersion table (row.header table recordId xmin none) row.payload (some e)).Ensures s₁
      (fun ref s' => Inserted s s' table recordId xmin row ref) (Quiet s) := by
  have hhint : ∀ e', some e = some e' → EntryFor s₁ table.tableId e' := fun e' he' => Option.some.inj he' ▸ hentry
  refine (storeVersion_ensures (hquiet.wf hs) rfl rfl hhint).mono (fun ref s' hadded => ⟨hnumber, ?_, ?_⟩)
    fun _ hq => hquiet.trans hq
  · rw [hquiet.pageSize] at hadded
    exact hadded.of_quiet hs hquiet
  · obtain ⟨-, e₀, he₀, hid₀, -, hfloor⟩ := hentry
    obtain ⟨e', he', hid', hfloor', -⟩ := hadded.grows e₀ he₀
    exact ⟨e', he', hid'.trans hid₀, hbelow.trans_le (hfloor.trans hfloor')⟩

theorem insert_ensures (recordId xmin : ℕ) (row : RowImage) :
    (insert table recordId row xmin).Ensures s (fun ref s' => Inserted s s' table recordId xmin row ref) (Quiet s) := by
  refine bind_lift (fun _ hnumber => ?_) (Quiet.refl hs)
  refine bind_lift (fun _ _ => ?_) (Quiet.refl hs)
  refine (observeRecordIdExtent_ensures hs recordId).bind ?_
  rintro e s₁ ⟨hquiet, hentry, hbelow⟩
  exact inserted_ensures hs hquiet (requireCommitNumber_eq hnumber) hentry hbelow row

theorem insertReserved_ensures (recordId xmin : ℕ) (row : RowImage) : (insertReserved table recordId row xmin).Ensures s
      (fun ref s' => Inserted s s' table recordId xmin row ref) (Quiet s) := by
  refine bind_lift (fun _ hnumber => ?_) (Quiet.refl hs)
  refine bind_lift (fun _ _ => ?_) (Quiet.refl hs)
  split_ifs with hid
  · exact ensures_refuse (Quiet.refl hs)
  refine (findExtent_ensures hs table.tableId (Quiet.refl hs)).bind ?_
  rintro found s₁ ⟨rfl, hfound⟩
  cases found with
  | none => exact ensures_refuse (Quiet.refl hs)
  | some e =>
    have htable : e.tableId = table.tableId := by simpa using find?_some hfound.symm
    by_cases hbelow : e.nextRecordId ≤ recordId
    · simp only [if_pos hbelow]
      exact ensures_refuse (Quiet.refl hs)
    · simp only [if_neg hbelow]
      exact inserted_ensures hs (Quiet.refl hs) (requireCommitNumber_eq hnumber)
        (htable ▸ EntryFor.of_mem (mem_of_find?_eq_some hfound.symm)) (not_le.mp hbelow) row

theorem insertInitialReserved_ensures (recordId xmin nextRecordId : ℕ) (row : RowImage) :
    (insertInitialReserved table recordId row xmin nextRecordId).Ensures s
      (fun ref s' => Inserted s s' table recordId xmin row ref) (Quiet s) := by
  refine bind_lift (fun _ hnumber => ?_) (Quiet.refl hs)
  refine bind_lift (fun _ _ => ?_) (Quiet.refl hs)
  split_ifs with hfloor hid
  · exact ensures_refuse (Quiet.refl hs)
  · exact ensures_refuse (Quiet.refl hs)
  refine (findExtent_ensures hs table.tableId (Quiet.refl hs)).bind ?_
  rintro found s₁ ⟨rfl, hfound⟩
  cases found with
  | some e => exact ensures_refuse (Quiet.refl hs)
  | none =>
    have habsent : ∀ e ∈ entriesOf s₁.pages, e.tableId ≠ table.tableId :=
      fun e he => by simpa using find?_eq_none.mp hfound.symm e he
    refine ensures_bind ((createExtent_ensures hs habsent nextRecordId).mono ?_ fun _ hq => hq)
    rintro e s₂ ⟨hquiet, hmem, htable, hnext⟩
    have hbelow : recordId < e.nextRecordId := by
      rw [hnext]
      exact not_le.mp fun hle => hid (.inr hle)
    exact inserted_ensures hs hquiet (requireCommitNumber_eq hnumber) (htable ▸ EntryFor.of_mem hmem) hbelow row

def inherited (labelLength : Payload → Option ℕ) (old : Row) (row : RowImage) : Option RowImage :=
  if old.header.flags.nodeLabels then
    (labelLength old.payload).map fun length => { row with labels := some (row.labels.getD (old.payload.take length)) }
  else some row

theorem inheritLabels_eq (hv : Stored s.pages tableId v) {row written : RowImage} (hok : inheritLabels s v.header v.body row = .ok written) :
    inherited s.labelLength (rowOf s.pages v) row = some written := by
  unfold inheritLabels at hok
  unfold inherited
  have hheader : (rowOf s.pages v).header = v.header := rfl
  rw [hheader]
  split_ifs at hok ⊢ with hlabels
  · rw [decodeVersion_eq hs.room (hs.bodies tableId v hv)] at hok
    simp only [bind, Except.bind] at hok
    have hpayload : (rowOf s.pages v).version.payload = (rowOf s.pages v).payload := rfl
    rw [hpayload] at hok
    cases hlength : s.labelLength (rowOf s.pages v).payload with
    | none =>
      simp only [hlength] at hok
      exact nomatch hok
    | some length =>
      simp only [hlength] at hok
      exact congrArg some (Except.ok.inj hok)
  · exact congrArg some (Except.ok.inj hok)

structure Updated (s s' : HeapStore) (table : TableDef) (old : Row) (xmin : ℕ) (row : RowImage) (ref : RecordRef) : Prop where
  number : 0 < xmin ∧ xmin ≤ maxU64
  born : isProvisionalCsn old.header.xmin = false
  notEnded : isOpenEndCsn old.header.xmax = true
  unused : ∀ t, ∀ r ∈ rowsOf s.pages t, r.ref ≠ ref
  changed : ∃ written, inherited s.labelLength old row = some written ∧
    Changed s s' (rowsWith s table.tableId ((rowsOf s.pages table.tableId).map (Row.ended old.ref xmin false) ++
      [written.stored table old.header.recordId xmin (some old.ref) s.pageSize ref]))

variable {old : Row} (hold : old ∈ rowsOf s.pages table.tableId)
include hold

theorem update_ensures (xmin : ℕ) (row : RowImage) :
    (update table old.ref row xmin).Ensures s (fun ref s' => Updated s s' table old xmin row ref) (Quiet s) := by
  refine bind_lift (fun _ hnumber => ?_) (Quiet.refl hs)
  refine ensures_bind (pinHeader_ensures (fun _ _ _ => ?_) (Quiet.refl hs))
  split_ifs with hreserved
  · exact ensures_refuse (Quiet.refl hs)
  refine ensures_bind (pin_ensures (fun p hp => ?_) (Quiet.refl hs))
  refine bind_lift (fun found hfound => ?_) (Quiet.refl hs)
  obtain ⟨h, body⟩ := found
  obtain ⟨hstored, rfl⟩ := endable_stored hs hold rfl hp hfound
  obtain ⟨-, hborn, hopen⟩ := endable_eq hfound
  refine bind_ask (bind_read ?_) (Quiet.refl hs)
  refine bind_lift (fun written hwritten => ?_) (Quiet.refl hs)
  have holdRow : rowOf s.pages ⟨old.ref, old.header, body⟩ = old := by
    obtain ⟨v, hv, hrow⟩ := (mem_rowsOf hs).mp hold
    have href : v.ref = old.ref := by rw [← hrow]; rfl
    rw [← (stored_unique hv hstored href).2, hrow]
  have hinherited := inheritLabels_eq hs hstored hwritten
  rw [holdRow] at hinherited
  have hhint : ∀ e, (none : Option TableExtent) = some e → EntryFor s table.tableId e := nofun
  refine ensures_bind ((storeVersion_ensures hs rfl rfl hhint).mono ?_ fun _ hq => hq)
  intro ref s₁ hadded
  refine bind_read ?_
  have hstored₁ := hadded.stored _ _ hstored
  obtain ⟨e, -, -, xs, -, hmem⟩ := hstored₁
  obtain ⟨-, p₁, hp₁, -, -⟩ := mem_versionsOn.mp hmem
  obtain ⟨ended, hended, -⟩ := setSlot_reheaded (hadded.stored _ _ hstored) hp₁ (·.endedAt xmin false)
  rw [hp₁]
  dsimp only
  rw [hended]
  refine ensures_bind (setPage_ensures (ensures_pure ⟨requireCommitNumber_eq hnumber, hborn, hopen, hadded.unused,
    written, hinherited, ?_⟩))
  have hchanged := headed_changed hadded.wf (hadded.stored _ _ hstored) hp₁ (endedAt_keeps xmin false) hended
  refine ⟨hadded.toAdvances.trans hchanged.toAdvances, fun t => ?_⟩
  · rw [hchanged.rowsOf, rowsWith, rowsWith, hadded.rows, hadded.rows, if_pos rfl]
    split_ifs
    · rw [map_append, map_singleton, Row.mapHeader_of_ne (Ne.symm (hadded.unused _ old hold))]
      rfl
    · rfl

structure Deleted (s s' : HeapStore) (tableId : ℕ) (old : Row) (xmax : ℕ) : Prop where
  number : 0 < xmax ∧ xmax ≤ maxU64
  born : isProvisionalCsn old.header.xmin = false
  notEnded : isOpenEndCsn old.header.xmax = true
  changed : Changed s s' (rowsWith s tableId ((rowsOf s.pages tableId).map (Row.ended old.ref xmax true)))

theorem delete_ensures (xmax : ℕ) : (delete table old.ref xmax).Ensures s (fun _ s' => Deleted s s' table.tableId old xmax) (Quiet s) := by
  refine ensures_bind (pinHeader_ensures (fun _ _ _ => ?_) (Quiet.refl hs))
  refine bind_lift (fun _ hnumber => ?_) (Quiet.refl hs)
  split_ifs with hreserved
  · exact ensures_refuse (Quiet.refl hs)
  refine ensures_bind (pin_ensures (fun p hp => ?_) (Quiet.refl hs))
  refine bind_lift (fun found hfound => ?_) (Quiet.refl hs)
  obtain ⟨h, body⟩ := found
  obtain ⟨hstored, rfl⟩ := endable_stored hs hold rfl hp hfound
  obtain ⟨-, hborn, hopen⟩ := endable_eq hfound
  refine bind_read ?_
  obtain ⟨ended, hended, -⟩ := setSlot_reheaded hstored hp (·.endedAt xmax true)
  rw [hended]
  exact setPage_ensures ⟨requireCommitNumber_eq hnumber, hborn, hopen, headed_changed hs hstored hp (endedAt_keeps xmax true) hended⟩

end Grafx.Heap
