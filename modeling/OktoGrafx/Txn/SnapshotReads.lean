import OktoGrafx.Txn.History

/-! Commits on the pages, and reads at a snapshot: whatever has happened to the file, a snapshot
reads the commits up to its number. -/

namespace Grafx.Txn
open List Heap Fallible MultiVersion

variable {labelLength : Payload → Option ℕ} {history : History} {s s' : HeapStore}

def effectsOn (labelLength : Payload → Option ℕ) (ops : List RowOp) (tables : Tables) (t id : ℕ) : Option (Option RowValue) :=
  if (t, id) ∈ ops.map RowOp.target then some (applyOps labelLength ops tables t id) else none

theorem overrides_effectsOn (ops : List RowOp) (tables : Tables) (t : ℕ) :
    overrides (effectsOn labelLength ops tables t) (tables t) = applyOps labelLength ops tables t := by
  funext id
  unfold overrides effectsOn
  split_ifs with htarget
  · rfl
  · exact (applyOps_of_untouched htarget).symm

section Commit
variable {intents : List RowIntent} {ops : List RowOp} {todo : Done} {written : List RowWrite} {f : Row → Row}
  {added : List (ℕ × Row)} {csn : ℕ} {r : Row} {x : RowOp × Option Row}

def stampRow (csn : ℕ) (written : List RowWrite) : Row → Row := Row.mapHeader (stampHeader csn written)

section
variable (hready : Ready labelLength history s intents ops todo)
include hready

theorem Ready.effects_of_mem (hx : x ∈ todo) : effectsOn labelLength ops (stateAt labelLength history history.last) x.1.tableId x.1.recordId =
      some (x.1.result labelLength (x.2.map rowValue)) := by
  have hop : x.1 ∈ ops := hready.todoOps ▸ mem_map_of_mem hx
  have htarget : (x.1.tableId, x.1.recordId) ∈ ops.map RowOp.target := mem_map_of_mem (f := RowOp.target) hop
  rw [effectsOn, if_pos htarget, applyOps_of_mem hready.distinct hop, (hready.grounded x hx).value]

theorem Ready.mem_of_effects {t id : ℕ} (h : (effectsOn labelLength ops (stateAt labelLength history history.last) t id).isSome) :
    ∃ x ∈ todo, x.1.tableId = t ∧ x.1.recordId = id := by
  unfold effectsOn at h
  split_ifs at h with htarget
  · obtain ⟨op, hop, heq⟩ := mem_map.mp htarget
    rw [← hready.todoOps] at hop
    obtain ⟨x, hx, rfl⟩ := mem_map.mp hop
    exact ⟨x, hx, (Prod.mk.inj heq).1, (Prod.mk.inj heq).2⟩
  · cases h

end

theorem Ready.replaces (h : Holds labelLength history s) (hready : Ready labelLength history s intents ops todo)
    {t : ℕ} (hr : r ∈ rowsOf s.pages t) (halive : AliveAt history.last (lifetime r))
    (hx : x ∈ todo) (htable : x.1.tableId = t) (hid : x.1.recordId = r.header.recordId) : x.2 = some r := by
  have hvalue := (h.rows t).sound _ (mem_map_of_mem hr) _ halive
  have hstate := (hready.grounded x hx).value
  rw [htable, hid] at hstate
  cases ho : x.2 with
  | none =>
    rw [ho] at hstate
    exact absurd (hstate.symm.trans hvalue) (by simp)
  | some o =>
    obtain ⟨hmem, hoid⟩ := hready.old_mem hx ho
    rw [htable] at hmem
    rw [hid] at hoid
    rw [(h.rows t).item_unique hmem hr hoid ((hready.grounded x hx).alive o ho) halive]

theorem lifetime_stampRow (csn : ℕ) (written : List RowWrite) (r : Row) :
    (lifetime (stampRow csn written r)).key = r.header.recordId ∧
      (lifetime (stampRow csn written r)).value = rowValue r ∧
      (isBorn written r.ref = false → (lifetime (stampRow csn written r)).born = (lifetime r).born) ∧
      (isEnded written r.ref = false → (lifetime (stampRow csn written r)).died = (lifetime r).died) := by
  refine ⟨rfl, rfl, fun hborn => ?_, fun hended => ?_⟩
  · simp [lifetime, stampRow, Row.mapHeader, stampHeader, hborn]
  · simp [lifetime, stampRow, Row.mapHeader, stampHeader, hended]

theorem lifetime_stampRow_born (hcsn : isCommittedCsn csn = true) (hborn : isBorn written r.ref = true) :
    (lifetime (stampRow csn written r)).born = some csn := by
  simp [lifetime, stampRow, Row.mapHeader, stampHeader, hborn, hcsn]

theorem lifetime_stampRow_ended (hcsn : isCommittedCsn csn = true) (hended : isEnded written r.ref = true) :
    (lifetime (stampRow csn written r)).died = some csn := by
  simp [lifetime, stampRow, Row.mapHeader, stampHeader, hended, isOpenEndCsn_of_committed hcsn]

section Written
variable (h : Holds labelLength history s) (hready : Ready labelLength history s intents ops todo)
  (hw : Written s s' todo written f added)
include h hready hw

omit h hready in
theorem Written.not_born {t : ℕ} (hr : r ∈ rowsOf s.pages t) : isBorn written r.ref = false := by
  rw [Bool.eq_false_iff, ne_eq, hw.bornRefs]
  rintro ⟨x, hx, href⟩
  exact hw.unused x hx t r hr href.symm

omit h in
theorem Written.not_ended {x : ℕ × Row} (hx : x ∈ added) : isEnded written x.2.ref = false := by
  rw [Bool.eq_false_iff, ne_eq, hw.endedRefs]
  rintro ⟨y, hy, o, ho, href⟩
  exact hw.unused x hx _ o (hready.old_mem hy ho).1 href

theorem Written.ended_iff {t : ℕ} (hr : r ∈ rowsOf s.pages t) : isEnded written r.ref = true ↔ AliveAt history.last (lifetime r) ∧
      (effectsOn labelLength ops (stateAt labelLength history history.last) t r.header.recordId).isSome := by
  rw [hw.endedRefs]
  constructor
  · rintro ⟨x, hx, o, ho, href⟩
    obtain ⟨hmem, hid⟩ := hready.old_mem hx ho
    obtain ⟨rfl, rfl⟩ := row_unique h.wf hmem hr href
    refine ⟨(hready.grounded x hx).alive o ho, ?_⟩
    rw [hid, hready.effects_of_mem hx]
    rfl
  · rintro ⟨halive, heffect⟩
    obtain ⟨x, hx, htable, hid⟩ := hready.mem_of_effects heffect
    exact ⟨x, hx, r, hready.replaces h hr halive hx htable hid, rfl⟩

theorem Written.added_iff (t id : ℕ) (value : RowValue) :
    (∃ r ∈ addedTo added t, r.header.recordId = id ∧ rowValue r = value) ↔
      effectsOn labelLength ops (stateAt labelLength history history.last) t id = some (some value) := by
  have hvalues : (t, id, value) ∈ added.map (fun x => (x.1, x.2.header.recordId, rowValue x.2)) ↔
      ∃ x ∈ todo, x.1.result labelLength (x.2.map rowValue) = some value ∧ x.1.tableId = t ∧ x.1.recordId = id := by
    rw [hw.values, h.labels, mem_filterMap]
    simp [Option.map_eq_some_iff]
  constructor
  · rintro ⟨r, hr, rfl, rfl⟩
    obtain ⟨x, hx, hresult, rfl, hid⟩ := hvalues.mp (mem_map.mpr ⟨(t, r), mem_addedTo.mp hr, rfl⟩)
    rw [← hid, hready.effects_of_mem hx, hresult]
  · intro heffect
    obtain ⟨x, hx, rfl, rfl⟩ := hready.mem_of_effects (by rw [heffect]; rfl)
    rw [hready.effects_of_mem hx, Option.some.injEq] at heffect
    obtain ⟨⟨t, r⟩, hr, heq⟩ := mem_map.mp (hvalues.mpr ⟨x, hx, heffect, rfl, rfl⟩)
    simp only [Prod.mk.injEq] at heq
    obtain ⟨rfl, hid, hvalue⟩ := heq
    exact ⟨r, mem_addedTo.mpr hr, hid, hvalue⟩

omit h in
theorem Written.added_distinct (t : ℕ) : (addedTo added t).Pairwise fun r r' => r.header.recordId ≠ r'.header.recordId := by
  have hsub : List.Sublist ((todo.filterMap fun x => (x.1.result s.labelLength (x.2.map rowValue)).map fun value =>
      (x.1.tableId, x.1.recordId, value)).map fun y => (y.1, y.2.1)) (todo.map fun x => x.1.target) := by
    clear hready hw
    induction todo with
    | nil => exact List.Sublist.slnil
    | cons x rest ih =>
      cases hresult : x.1.result s.labelLength (x.2.map rowValue) with
      | none => simpa [hresult] using ih.trans (sublist_cons_self _ _)
      | some value => simpa [hresult, RowOp.target] using ih
  have hdistinct := hready.distinct
  rw [← hready.todoOps, map_map] at hdistinct
  have hpairs := hsub.nodup hdistinct
  rw [← hw.values, map_map, List.Nodup, pairwise_map] at hpairs
  unfold addedTo
  rw [pairwise_map]
  refine (hpairs.filter (·.1 == t)).imp_of_mem fun {x y} hx hy hne hid => hne (Prod.ext ?_ hid)
  have hxt := (mem_filter.mp hx).2
  have hyt := (mem_filter.mp hy).2
  exact (eq_of_beq hxt).trans (eq_of_beq hyt).symm

theorem Written.commits (hlater : history.last < csn) (hcsn : csn < provisionalCsn) (t : ℕ) :
    Commits csn history.last (rowsOf s.pages t) lifetime (fun r => lifetime (stampRow csn written (f r)))
      ((addedTo added t).map fun r => lifetime (stampRow csn written r))
      (effectsOn labelLength ops (stateAt labelLength history history.last) t) := by
  have hcommitted : isCommittedCsn csn = true := isCommittedCsn_iff.mpr ⟨Nat.zero_lt_of_lt hlater, hcsn⟩
  refine ⟨hlater, fun r hr => ?_, fun r hr halive heffect => ?_, fun r hr huntouched => ?_, ?_, ?_, ?_⟩
  · obtain ⟨hkey, hvalue, hborn, -⟩ := lifetime_stampRow csn written (f r)
    have hsame := hw.same r
    refine ⟨hkey.trans hsame.recordId, hvalue.trans ?_, (hborn ?_).trans ?_⟩
    · rw [rowValue, hsame.payload, hsame.nodeLabels]
      rfl
    · rw [hsame.ref]
      exact hw.not_born hr
    · simp only [lifetime, hsame.xmin]
  · refine lifetime_stampRow_ended hcommitted ?_
    rw [(hw.same r).ref]
    exact (hw.ended_iff h hready hr).mpr ⟨halive, heffect⟩
  · have hended : isEnded written r.ref = false := by
      rw [Bool.eq_false_iff, ne_eq, hw.ended_iff h hready hr]
      exact huntouched
    rw [hw.kept r hended]
    exact (lifetime_stampRow csn written r).2.2.2 hended
  · intro v hv
    obtain ⟨r, hr, rfl⟩ := mem_map.mp hv
    have hx := mem_addedTo.mp hr
    obtain ⟨-, hxmax, -⟩ := hw.unborn _ hx
    refine ⟨lifetime_stampRow_born hcommitted ((hw.bornRefs _).mpr ⟨_, hx, rfl⟩), ?_, ?_⟩
    · rw [(lifetime_stampRow csn written r).2.2.2 (hw.not_ended hready hx)]
      have hopen : isOpenEndCsn noCsn = true := by decide
      simp only at hxmax
      simp [lifetime, hxmax, hopen]
    · exact (hw.added_iff h hready t _ _).mp ⟨r, hr, rfl, rfl⟩
  · intro id value heffect
    obtain ⟨r, hr, hid, -⟩ := (hw.added_iff h hready t id value).mpr heffect
    exact ⟨_, mem_map_of_mem hr, hid⟩
  · exact pairwise_map.mpr (hw.added_distinct hready t)

end Written

theorem Written.stampsRecords (hw : Written s s' todo written f added)
    (hold : ∀ x ∈ todo, ∀ o, x.2 = some o → ∃ t, o ∈ rowsOf s.pages t) : StampsRecords s'.pages written := by
  intro item hitem ref href
  obtain ⟨hborn, hended⟩ := hw.revocable hold item hitem
  rcases href with href | href
  · obtain ⟨t, r, hr, rfl, -⟩ := hborn ref href
    exact row_cell hw.wf hr
  · obtain ⟨t, r, hr, rfl, -⟩ := hended ref href
    exact row_cell hw.wf hr

theorem stateAt_cons (h : Holds labelLength history s) (csn : ℕ) (ops : List RowOp) (n : ℕ) (t : ℕ) (hlater : history.last < csn) :
    stateAt labelLength ((csn, ops) :: history) n t =
      if n < csn then stateAt labelLength history n t
      else overrides (effectsOn labelLength ops (stateAt labelLength history history.last) t)
        (stateAt labelLength history history.last t) := by
  rw [stateAt, overrides_effectsOn]
  by_cases hn : n < csn
  · rw [if_neg (not_le.mpr hn), if_pos hn]
  · have hle := not_lt.mp hn
    have hstate : stateAt labelLength history n = stateAt labelLength history history.last :=
      funext fun t => h.state_eq ((Nat.le_of_lt hlater).trans hle) t
    rw [if_pos hle, if_neg hn, hstate]

theorem Written.applied {s₁ : HeapStore} {done : Done} {written : List RowWrite} {f : Row → Row} {added : List (ℕ × Row)}
    (hw : Written s s₁ done written f added) (hdone : ∀ x ∈ done, ∀ o, x.2 = some o → ∃ t, o ∈ rowsOf s.pages t)
    (happly : applyImages csn written s s₁ = some s') :
    Wf s' ∧ s'.labelLength = s.labelLength ∧ s'.pageSize = s.pageSize ∧
      ∀ t, rowsOf s'.pages t = (rowsOf s₁.pages t).map (stampRow csn written) := by
  obtain ⟨pages, happly', hreheaded⟩ := applyImages_eq csn s (hw.stampsRecords hdone)
  cases happly'.symm.trans happly
  have hkeeps := stampHeader_keepsPayload csn written
  have hrewritten : Rewritten s₁ { s₁ with pages := pages } _ := Reheaded.rewritten hw.wf hreheaded hkeeps rfl rfl rfl rfl
  exact ⟨hrewritten.wf hw.wf, hw.labelLength, hw.pageSize, Reheaded.rowsOf hw.wf hkeeps hrewritten⟩

theorem chained_stamped {rows : List Row} (h : Chained rows) (written : List RowWrite) : Chained (rows.map (stampRow csn written)) :=
  h.of_links (forall₂_map fun _ _ => ⟨rfl, rfl, rfl⟩)

theorem Holds.committed (h : Holds labelLength history s) (hsettled : Settled s history.last intents ops)
    (script : List Bool) (hlater : history.last < csn) (hcsn : csn < provisionalCsn)
    (hwritten : (writeIntents intents [] script s).failure = none)
    (happly : applyImages csn (writeIntents intents [] script s).written s (writeIntents intents [] script s).store = some s') :
    Holds labelLength ((csn, ops) :: history) s' := by
  obtain ⟨todo, hready⟩ := hsettled.ready h
  obtain ⟨n, f, added, hw, hall⟩ := hready.written h.wf script
  rw [hall hwritten] at hw
  obtain ⟨hwf, hlabels, -, hrows⟩ := hw.applied (fun x hx o ho => ⟨_, (hready.old_mem hx ho).1⟩) happly
  refine ⟨hwf, hlabels.trans h.labels, hcsn, fun t => ?_, fun t => ?_⟩
  · have hcommit := (h.rows t).commit (hw.commits h hready hlater hcsn t)
    rw [hrows, hw.rows, map_append, map_map, map_append, map_map, map_map]
    exact funext (fun n => stateAt_cons h csn ops n t hlater) ▸ hcommit
  · rw [hrows]
    exact chained_stamped ((h.unfinished hsettled script).chained t) _

end Commit

/-! ## Every run -/

theorem Reached.holds (h : Reached labelLength history s) : Holds labelLength history s := by
  induction h with
  | bootstrap hsize => exact bootstrap_holds hsize
  | reopen _ hpages hsize hlabels hcache ih => exact ih.of_idle (reopen_idle ih.wf hpages hsize hlabels hcache)
  | unfinished _ hsettled script ih => exact ih.unfinished hsettled script
  | abandoned _ hsettled script script' escaped ih => exact ih.abandoned hsettled script script' escaped
  | committed _ hsettled script hlater hcsn hwritten happly ih => exact ih.committed hsettled script hlater hcsn hwritten happly

def versionValue (v : HeapVersion) : RowValue := ⟨v.payload, v.labelled⟩

section Reads
variable (h : Holds labelLength history s) (snapshot : Snapshot) (t : ℕ)
include h

theorem Holds.visible_nodup :
    (((rowsOf s.pages t).filter (Row.visibleTo snapshot)).map fun r => r.header.recordId).Nodup := by
  have hpairs := pairwise_map.mp (h.rows t).disjoint
  rw [List.Nodup, pairwise_map]
  refine (hpairs.filter _).imp_of_mem fun {r r'} hr hr' hne hid => ?_
  exact hne hid _ ((visibleTo_iff snapshot r).mp (mem_filter.mp hr).2) ((visibleTo_iff snapshot r').mp (mem_filter.mp hr').2)

theorem Holds.visible_iff (id : ℕ) (value : RowValue) :
    stateAt labelLength history snapshot.readLsn t id = some value ↔
      ∃ r ∈ (rowsOf s.pages t).filter (Row.visibleTo snapshot), r.header.recordId = id ∧ rowValue r = value := by
  rw [(h.rows t).value_eq]
  constructor
  · rintro ⟨v, hv, halive, hkey, hvalue⟩
    obtain ⟨r, hr, rfl⟩ := mem_map.mp hv
    exact ⟨r, mem_filter.mpr ⟨hr, (visibleTo_iff snapshot r).mpr halive⟩, hkey, hvalue⟩
  · rintro ⟨r, hr, hid, hvalue⟩
    obtain ⟨hmem, hvisible⟩ := mem_filter.mp hr
    exact ⟨lifetime r, mem_map_of_mem hmem, (visibleTo_iff snapshot r).mp hvisible, hid, hvalue⟩

end Reads

/-- A scan at a snapshot returns exactly the rows of the commits up to its number, each record once; a lookup, and a
read by reference, returns that same row or nothing. -/
theorem reads_committed_state (h : Reached labelLength history s) (snapshot : Snapshot) (t : ℕ) :
    ∃ rows, scan s.pages t snapshot = .ok rows ∧
      (rows.map fun x => x.2.recordId).Nodup ∧
      (∀ id value, stateAt labelLength history snapshot.readLsn t id = some value ↔
        ∃ x ∈ rows, x.2.recordId = id ∧ versionValue x.2 = value) ∧
      (∀ id, lookupWithRef s.pages t id snapshot = .ok (rows.find? fun x => x.2.recordId == id)) ∧
      ∀ v ∈ (walk s.pages t).versions, readIf s.pages v.ref snapshot =
        .ok ((rows.find? fun x => x.1 == v.ref).map fun x => (t, x.2)) := by
  have hholds := h.holds
  have hs := hholds.wf
  refine ⟨_, scan_eq hs t snapshot, ?_, fun id value => ?_, fun id => ?_, fun v hv => ?_⟩
  · rw [map_map]
    exact hholds.visible_nodup snapshot t
  · rw [hholds.visible_iff snapshot t]
    simp only [mem_map, exists_exists_and_eq_and]
    rfl
  · rw [lookupWithRef_eq hs, find?_map, find?_filter]
    congr 3
    funext r
    rw [Bool.decide_and, Bool.decide_eq_true, Bool.decide_eq_true, Bool.and_comm]
    rfl
  · have hstored := (mem_walk_iff hs).mp hv
    have hrow : rowOf s.pages v ∈ rowsOf s.pages t := mem_map_of_mem hv
    have honly : ∀ r ∈ (rowsOf s.pages t).filter (Row.visibleTo snapshot), r.ref = v.ref → r = rowOf s.pages v :=
      fun r hr href => (row_unique hs (mem_filter.mp hr).1 hrow href).2
    rw [readIf_eq hs hstored, find?_map]
    cases hfind : ((rowsOf s.pages t).filter (Row.visibleTo snapshot)).find? ((fun x => x.1 == v.ref) ∘ fun r => (r.ref, r.version)) with
    | none =>
      rw [find?_eq_none] at hfind
      have hhidden : ¬ (rowOf s.pages v).visibleTo snapshot = true := fun hvisible =>
        hfind _ (mem_filter.mpr ⟨hrow, hvisible⟩) (beq_self_eq_true _)
      rw [if_neg hhidden]
      rfl
    | some r =>
      have hmem := mem_of_find?_eq_some hfind
      have href : r.ref = v.ref := by simpa using find?_some hfind
      obtain rfl := honly r hmem href
      rw [if_pos (mem_filter.mp hmem).2]
      rfl

/-! ## A row and its update -/

def afterCommit (csn : ℕ) (intents : List RowIntent) (s : HeapStore) : HeapStore :=
  let attempt := writeIntents intents [] [] s
  (applyImages csn attempt.written s attempt.store).getD s

theorem Reached.afterCommit (h : Reached labelLength history s) {intents : List RowIntent} {ops : List RowOp}
    (hsettled : Settled s history.last intents ops) {csn : ℕ} (hlater : history.last < csn) (hcsn : csn < provisionalCsn)
    (hwritten : (writeIntents intents [] [] s).failure = none)
    (happly : (applyImages csn (writeIntents intents [] [] s).written s (writeIntents intents [] [] s).store).isSome = true) :
    Reached labelLength ((csn, ops) :: history) (afterCommit csn intents s) := by
  obtain ⟨s', hs'⟩ := Option.isSome_iff_exists.mp happly
  have hafter : Txn.afterCommit csn intents s = s' := by rw [Txn.afterCommit, hs', Option.getD_some]
  rw [hafter]
  exact .committed h hsettled [] hlater hcsn hwritten hs'

def wideImage : RowImage := ⟨none, replicate 600 5⟩

def insertedRow : HeapStore :=
  afterCommit 1 [.insert ⟨1, 0⟩ 1 wideImage] { bootstrap 512 (fun _ => none) with reclaimCapable := true }

def updatedRow : HeapStore := afterCommit 2 [.update ⟨1, 0⟩ ⟨1, 1⟩ ⟨none, [6]⟩] insertedRow

theorem reached_updatedRow :
    Reached (fun _ => none) [(2, [⟨1, 1, .update ⟨none, [6]⟩⟩]), (1, [⟨1, 1, .insert wideImage⟩])] updatedRow := by
  have hempty : Reached (fun _ => none) [] { bootstrap 512 (fun _ => none) with reclaimCapable := true } :=
    .reopen (.bootstrap le_rfl) rfl rfl rfl fun _ => rfl
  have hinsert : Settled { bootstrap 512 (fun _ => none) with reclaimCapable := true } 0 [.insert ⟨1, 0⟩ 1 wideImage]
      [⟨1, 1, .insert wideImage⟩] :=
    ⟨.cons ⟨rfl, ⟨9, by decide⟩, by decide, by decide⟩ .nil, by decide⟩
  have hupdate : Settled insertedRow 1 [.update ⟨1, 0⟩ ⟨1, 1⟩ ⟨none, [6]⟩] [⟨1, 1, .update ⟨none, [6]⟩⟩] :=
    ⟨.cons ⟨1, ⟨1, by decide⟩, ⟨1, 1, noCsn, replicate 600 5, none, false, false⟩, by decide, by decide +kernel, rfl⟩ .nil, by decide⟩
  have hinserted : Reached (fun _ => none) [(1, [⟨1, 1, .insert wideImage⟩])] insertedRow :=
    hempty.afterCommit hinsert (by decide) (by decide) (by decide +kernel) (by decide +kernel)
  exact Reached.afterCommit hinserted hupdate (by decide) (by decide) (by decide +kernel) (by decide +kernel)

/-- Between its two commits a row is read as it was, from its overflow pages. -/
theorem reads_committed_state_updated :
    (∃ rows, scan updatedRow.pages 1 ⟨1, by decide⟩ = .ok rows ∧
      ∃ x ∈ rows, x.2.recordId = 1 ∧ versionValue x.2 = ⟨replicate 600 5, false⟩) ∧
    ∃ rows, scan updatedRow.pages 1 ⟨2, by decide⟩ = .ok rows ∧ ∃ x ∈ rows, x.2.recordId = 1 ∧ versionValue x.2 = ⟨[6], false⟩ := by
  obtain ⟨before, hbefore, -, hstate, -, -⟩ := reads_committed_state reached_updatedRow ⟨1, by decide⟩ 1
  obtain ⟨after, hafter, -, hstate', -, -⟩ := reads_committed_state reached_updatedRow ⟨2, by decide⟩ 1
  exact ⟨⟨before, hbefore, (hstate 1 _).mp rfl⟩, after, hafter, (hstate' 1 _).mp rfl⟩

end Grafx.Txn
