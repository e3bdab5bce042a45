import OktoGrafx.Recovery.CommittedReplay

/-! The single pass against the log as a whole. A replay is refused exactly when a transaction goes on
after its outcome; otherwise it holds the effects of the transactions with a COMMIT, in log order. -/

namespace Grafx.Recovery

open List Checked Log

def commits (records : List WalRecord) (k : TxnKey) : Bool := records.any fun r => isCommit r && decide (txnKey r = k)

def settled (records : List WalRecord) (k : TxnKey) : Bool := records.any fun r => isOutcome r && decide (txnKey r = k)

def Settles (records : List WalRecord) : Prop :=
  records.Pairwise fun a b => isOutcome a = true → txnKey a = txnKey b → isEffect b = false ∧ isOutcome b = false

variable {r a b : WalRecord} {k : TxnKey} {done records : List WalRecord} {s s' : ReplayState} {p : Pending}

theorem isOutcome_of_isCommit (h : isCommit r = true) : isOutcome r = true := by rw [isOutcome, h, Bool.true_or]

theorem not_isOutcome_of_isEffect (h : isEffect r = true) : isOutcome r = false := by
  have h : r.recordType ∈ replayEffectTypes := of_decide_eq_true h
  simp only [replayEffectTypes, mem_cons, not_mem_nil, or_false] at h
  obtain h | h | h := h <;> simp [isOutcome, isCommit, isAbort, h, WalRecordType.code]

theorem settled_append : settled (done ++ [r]) k = (settled done k || (isOutcome r && decide (txnKey r = k))) := by
  rw [settled, any_append, ← settled]
  simp

theorem commits_append : commits (done ++ [r]) k = (commits done k || (isCommit r && decide (txnKey r = k))) := by
  rw [commits, any_append, ← commits]
  simp

theorem settled_of_commits (h : commits done k = true) : settled done k = true := by
  obtain ⟨c, hc, hk⟩ := any_eq_true.mp h
  obtain ⟨hcommit, hk⟩ := Bool.and_eq_true_iff.mp hk
  exact any_eq_true.mpr ⟨c, hc, Bool.and_eq_true_iff.mpr ⟨isOutcome_of_isCommit hcommit, hk⟩⟩

/-! ## Effects grouped by transaction -/

structure Pending.Grouped (p : Pending) : Prop where
  nodup : (p.map Prod.fst).Nodup
  own : ∀ entry ∈ p, ∀ r ∈ entry.2, txnKey r = entry.1

theorem Pending.add_keys (r : WalRecord) (p : Pending) : ∀ k ∈ (Pending.add r p).map Prod.fst, k = txnKey r ∨ k ∈ p.map Prod.fst := by
  induction p with
  | nil =>
    intro k hk
    exact .inl (mem_singleton.mp hk)
  | cons entry p ih =>
    intro k hk
    rw [add] at hk
    split at hk
    · exact .inr hk
    · rcases mem_cons.mp hk with rfl | hk
      · exact .inr mem_cons_self
      · exact (ih k hk).imp_right (mem_cons_of_mem _)

theorem Pending.Grouped.tail {entry : TxnKey × List WalRecord} (h : Pending.Grouped (entry :: p)) : Pending.Grouped p :=
  ⟨(nodup_cons.mp h.nodup).2, (forall_mem_cons.mp h.own).2⟩

theorem Pending.Grouped.add (h : Grouped p) (r : WalRecord) : Grouped (Pending.add r p) := by
  induction p with
  | nil =>
    refine ⟨nodup_singleton _, ?_⟩
    intro entry hentry r' hr'
    obtain rfl := mem_singleton.mp hentry
    rw [mem_singleton.mp hr']
  | cons entry p ih =>
    obtain ⟨k, rs⟩ := entry
    rw [Pending.add]
    split
    · rename_i hk
      refine ⟨h.nodup, ?_⟩
      intro entry hentry r' hr'
      rcases mem_cons.mp hentry with rfl | hentry
      · rcases mem_append.mp hr' with hr' | hr'
        · exact h.own (k, rs) mem_cons_self r' hr'
        · rw [mem_singleton.mp hr']
          exact hk.symm
      · exact h.own entry (mem_cons_of_mem _ hentry) r' hr'
    · rename_i hk
      have hrest := ih h.tail
      refine ⟨nodup_cons.mpr ⟨?_, hrest.nodup⟩, ?_⟩
      · intro hmem
        rcases Pending.add_keys r p k hmem with hk' | hmem
        · exact hk hk'
        · exact (nodup_cons.mp h.nodup).1 hmem
      · intro entry hentry
        rcases mem_cons.mp hentry with rfl | hentry
        · exact h.own _ mem_cons_self
        · exact hrest.own entry hentry

theorem Pending.values_add (r : WalRecord) (p : Pending) : (Pending.add r p).values.Perm (p.values ++ [r]) := by
  induction p with
  | nil => exact List.Perm.refl _
  | cons entry p ih =>
    obtain ⟨k, rs⟩ := entry
    rw [add]
    split
    · show (rs ++ [r] ++ Pending.values p).Perm (rs ++ Pending.values p ++ [r])
      rw [append_assoc, append_assoc]
      exact perm_append_comm.append_left rs
    · show (rs ++ (Pending.add r p).values).Perm (rs ++ Pending.values p ++ [r])
      rw [append_assoc]
      exact ih.append_left rs

theorem Pending.Grouped.drop (h : Grouped p) (k : TxnKey) : Grouped (Pending.drop k p) :=
  ⟨h.nodup.sublist (filter_sublist.map Prod.fst), fun e he => h.own e (mem_of_mem_filter he)⟩

theorem Pending.Grouped.filter_own (h : ∀ r ∈ records, txnKey r = k) (k' : TxnKey) :
    (records.filter fun r => decide (txnKey r = k')) = if k = k' then records else [] := by
  split
  · rename_i hk
    apply filter_eq_self.mpr
    intro r hr
    exact decide_eq_true ((h r hr).trans hk)
  · rename_i hk
    apply filter_eq_nil_iff.mpr
    intro r hr hdec
    exact hk ((h r hr).symm.trans (of_decide_eq_true hdec))

theorem Pending.Grouped.effectsOf_eq (h : Grouped p) (k : TxnKey) :
    Pending.effectsOf k p = p.values.filter fun r => decide (txnKey r = k) := by
  induction p with
  | nil => rfl
  | cons entry p ih =>
    obtain ⟨k', rs⟩ := entry
    have hown := filter_own (h.own (k', rs) mem_cons_self) k
    show _ = (rs ++ Pending.values p).filter _
    rw [filter_append, hown, ← ih h.tail, effectsOf, effectsOf, lookup_cons]
    by_cases hk : k = k'
    · subst hk
      have hnone : lookup k p = none := by
        rw [lookup_eq_none_iff]
        intro e he
        rw [bne_iff_ne]
        rintro rfl
        exact (nodup_cons.mp h.nodup).1 (mem_map.mpr ⟨e, he, rfl⟩)
      simp [hnone]
    · rw [if_neg (Ne.symm hk)]
      simp [beq_eq_false_iff_ne.mpr hk]

theorem Pending.Grouped.values_drop (h : Grouped p) (k : TxnKey) :
    (Pending.drop k p).values = p.values.filter fun r => !decide (txnKey r = k) := by
  induction p with
  | nil => rfl
  | cons entry p ih =>
    obtain ⟨k', rs⟩ := entry
    have hrest := ih h.tail
    have hown := h.own (k', rs) mem_cons_self
    show _ = (rs ++ Pending.values p).filter _
    rw [filter_append, ← hrest]
    by_cases hk : k' = k
    · have hnil : (rs.filter fun r => !decide (txnKey r = k)) = [] := by
        apply filter_eq_nil_iff.mpr
        intro r hr
        simp [hown r hr, hk]
      rw [hnil]
      simp [Pending.drop, hk]
    · have hself : (rs.filter fun r => !decide (txnKey r = k)) = rs := by
        apply filter_eq_self.mpr
        intro r hr
        simp [hown r hr, hk]
      rw [hself]
      simp [Pending.drop, hk, Pending.values]

/-! ## The pass -/

def effectsWhere (records : List WalRecord) (select : TxnKey → Bool) : List WalRecord :=
  records.filter fun r => isEffect r && select (txnKey r)

structure Passed (done : List WalRecord) (s : ReplayState) : Prop where
  terminals : ∀ k, s.terminals.lookup k = none ↔ settled done k = false
  grouped : s.pending.Grouped
  pending : s.pending.values.Perm (effectsWhere done fun k => !settled done k)
  committed : s.committed.Perm (effectsWhere done (commits done))
  commitRecords : s.commitRecords = done.filter isCommit
  lastCommitted : s.lastCommittedLsn = ((done.filter isCommit).map WalRecord.lsn).foldl max 0

theorem Passed.start : Passed [] {} :=
  ⟨fun _ => ⟨fun _ => rfl, fun _ => rfl⟩, ⟨nodup_nil, nofun⟩, List.Perm.refl _, List.Perm.refl _, rfl, rfl⟩

theorem effectsWhere_append (f : TxnKey → Bool) :
    effectsWhere (done ++ [r]) f = effectsWhere done f ++ if isEffect r && f (txnKey r) then [r] else [] := by
  rw [effectsWhere, filter_append, ← effectsWhere]
  cases h : isEffect r && f (txnKey r) <;> simp [h]

theorem commits_other (hcommit : isCommit r = false) : commits (done ++ [r]) = commits done := by
  funext k
  rw [commits_append, hcommit, Bool.false_and, Bool.or_false]

theorem filter_isCommit_other (hcommit : isCommit r = false) : (done ++ [r]).filter isCommit = done.filter isCommit := by
  simp [filter_append, hcommit]

section
variable (h : Passed done s)
include h

theorem Passed.unsettled {pending : Pending} (houtcome : isOutcome r = false) (hgrouped : pending.Grouped)
    (hpending : pending.values.Perm (effectsWhere (done ++ [r]) fun k => !settled done k))
    (hcommitted : effectsWhere (done ++ [r]) (commits done) = effectsWhere done (commits done)) :
    Passed (done ++ [r]) { s with pending := pending } := by
  have hcommit : isCommit r = false := (Bool.or_eq_false_iff.mp houtcome).1
  have hsettled : ∀ k, settled (done ++ [r]) k = settled done k := fun k => by rw [settled_append, houtcome, Bool.false_and, Bool.or_false]
  constructor
  · intro k
    rw [hsettled]
    exact h.terminals k
  · exact hgrouped
  · simp only [hsettled]
    exact hpending
  · rw [commits_other hcommit, hcommitted]
    exact h.committed
  · rw [filter_isCommit_other hcommit]
    exact h.commitRecords
  · rw [filter_isCommit_other hcommit]
    exact h.lastCommitted

theorem Passed.skip (heffect : isEffect r = false) (houtcome : isOutcome r = false) : Passed (done ++ [r]) s := by
  have hsame : ∀ f, effectsWhere (done ++ [r]) f = effectsWhere done f := by
    intro f
    rw [effectsWhere_append, heffect, Bool.false_and, if_neg Bool.false_ne_true, append_nil]
  exact h.unsettled houtcome h.grouped (hsame _ ▸ h.pending) (hsame _)

theorem Passed.effect (heffect : isEffect r = true) (hopen : settled done (txnKey r) = false) :
    Passed (done ++ [r]) { s with pending := Pending.add r s.pending } := by
  have hunsettled : commits done (txnKey r) = false := by
    by_contra hne
    rw [settled_of_commits (Bool.eq_true_of_not_eq_false hne)] at hopen
    cases hopen
  refine h.unsettled (not_isOutcome_of_isEffect heffect) (h.grouped.add r) ?_ ?_
  · simp only [effectsWhere_append, heffect, hopen, Bool.not_false, Bool.true_and, if_true]
    exact (Pending.values_add r s.pending).trans (h.pending.append_right [r])
  · rw [effectsWhere_append, hunsettled, Bool.and_false, if_neg Bool.false_ne_true, append_nil]

omit h in
theorem filter_or_perm {α : Type*} {p q : α → Bool} (xs : List α) (h : ∀ x ∈ xs, p x = true → q x = false) :
    (xs.filter fun x => p x || q x).Perm (xs.filter p ++ xs.filter q) := by
  induction xs with
  | nil => exact List.Perm.refl _
  | cons x xs ih =>
    have hrest := ih (forall_mem_cons.mp h).2
    cases hp : p x with
    | true =>
      have hq := h x mem_cons_self hp
      simp only [filter_cons, hp, hq, Bool.true_or, if_true, Bool.false_eq_true, if_false, cons_append]
      exact hrest.cons x
    | false =>
      cases hq : q x with
      | true =>
        simp only [filter_cons, hp, hq, Bool.or_true, if_true, Bool.false_eq_true, if_false]
        exact (hrest.cons x).trans perm_middle.symm
      | false =>
        simp only [filter_cons, hp, hq, Bool.or_false, Bool.false_eq_true, if_false]
        exact hrest

theorem Passed.effectsOf (hopen : settled done k = false) : (Pending.effectsOf k s.pending).Perm (effectsWhere done fun k' => decide (k' = k)) := by
  rw [h.grouped.effectsOf_eq]
  refine (h.pending.filter _).trans (List.Perm.of_eq ?_)
  rw [effectsWhere, filter_filter]
  apply filter_congr
  intro r _
  by_cases hk : txnKey r = k
  · rw [hk, hopen]
    simp
  · simp [hk]

theorem Passed.settle (houtcome : isOutcome r = true) (hopen : settled done (txnKey r) = false) : Passed (done ++ [r]) (s.settle r) := by
  have heffect : isEffect r = false := by
    by_contra hne
    rw [not_isOutcome_of_isEffect (Bool.eq_true_of_not_eq_false hne)] at houtcome
    cases houtcome
  have hterminals : (s.settle r).terminals = (txnKey r, r) :: s.terminals := by
    unfold ReplayState.settle
    split <;> rfl
  have hpending : (s.settle r).pending = Pending.drop (txnKey r) s.pending := by
    unfold ReplayState.settle
    split <;> rfl
  have hleft : (effectsWhere done fun k => !settled done k).filter (fun r' => !decide (txnKey r' = txnKey r)) =
      effectsWhere (done ++ [r]) fun k => !settled (done ++ [r]) k := by
    rw [effectsWhere_append, heffect, Bool.false_and, if_neg Bool.false_ne_true, append_nil, effectsWhere, filter_filter]
    apply filter_congr
    intro r' _
    dsimp only
    rw [settled_append, houtcome, Bool.true_and]
    by_cases hk : txnKey r = txnKey r'
    · simp [hk]
    · simp [hk, Ne.symm hk]
  constructor
  · intro k
    rw [hterminals, lookup_cons, settled_append, houtcome, Bool.true_and]
    by_cases hk : txnKey r = k
    · simp [hk]
    · rw [beq_eq_false_iff_ne.mpr (Ne.symm hk), decide_eq_false hk, Bool.or_false]
      exact h.terminals k
  · rw [hpending]
    exact h.grouped.drop _
  · rw [hpending, h.grouped.values_drop, ← hleft]
    exact h.pending.filter _
  all_goals
    cases hcommit : isCommit r with
    | false =>
      simp only [ReplayState.settle, hcommit, Bool.false_eq_true, if_false, filter_isCommit_other hcommit, commits_other hcommit,
        effectsWhere_append, heffect, Bool.false_and, append_nil]
      first | exact h.committed | exact h.commitRecords | exact h.lastCommitted
    | true => ?_
  · have hsplit : effectsWhere (done ++ [r]) (commits (done ++ [r])) =
        done.filter fun r' => (isEffect r' && commits done (txnKey r')) || (isEffect r' && decide (txnKey r' = txnKey r)) := by
      rw [effectsWhere_append, heffect, Bool.false_and, if_neg Bool.false_ne_true, append_nil, effectsWhere]
      apply filter_congr
      intro r' _
      rw [commits_append, hcommit, Bool.true_and, Bool.and_or_distrib_left]
      congr 3
      exact propext eq_comm
    have hapart : ∀ r' ∈ done, (isEffect r' && commits done (txnKey r')) = true → (isEffect r' && decide (txnKey r' = txnKey r)) = false := by
      intro r' _ hboth
      have hset := settled_of_commits (Bool.and_eq_true_iff.mp hboth).2
      rw [decide_eq_false (fun hk => by rw [hk, hopen] at hset; cases hset), Bool.and_false]
    rw [hsplit]
    refine List.Perm.trans ?_ (filter_or_perm done hapart).symm
    simp only [ReplayState.settle, hcommit, if_true]
    exact h.committed.append (h.effectsOf hopen)
  · have hfilter : (done ++ [r]).filter isCommit = done.filter isCommit ++ [r] := by simp [filter_append, hcommit]
    simp only [ReplayState.settle, hcommit, if_true]
    rw [hfilter, h.commitRecords]
  · have hfilter : (done ++ [r]).filter isCommit = done.filter isCommit ++ [r] := by simp [filter_append, hcommit]
    simp only [ReplayState.settle, hcommit, if_true]
    rw [hfilter, map_append, foldl_append, ← h.lastCommitted]
    rfl

theorem Passed.step (hstep : s.step r = .ok s') : Passed (done ++ [r]) s' := by
  unfold ReplayState.step at hstep
  cases hactive : isEffect r || isOutcome r with
  | false =>
    obtain ⟨heffect, houtcome⟩ := Bool.or_eq_false_iff.mp hactive
    rw [hactive, if_neg Bool.false_ne_true] at hstep
    cases hstep
    exact h.skip heffect houtcome
  | true =>
    rw [hactive, if_pos rfl] at hstep
    cases hlookup : s.terminals.lookup (txnKey r) with
    | some terminal =>
      rw [hlookup] at hstep
      cases hstep
    | none =>
      rw [hlookup] at hstep
      have hopen := (h.terminals _).mp hlookup
      cases hstep
      cases heffect : isEffect r with
      | true => exact h.effect heffect hopen
      | false =>
        rw [heffect, Bool.false_or] at hactive
        exact h.settle hactive hopen

theorem Passed.grants (hdone : Settles done) : (∃ s', s.step r = .ok s') ↔ Settles (done ++ [r]) := by
  have happend : Settles (done ++ [r]) ↔ (settled done (txnKey r) = true → isEffect r = false ∧ isOutcome r = false) := by
    unfold Settles
    rw [pairwise_append]
    constructor
    · rintro ⟨-, -, hcross⟩ hset
      obtain ⟨a, ha, hk⟩ := any_eq_true.mp hset
      obtain ⟨houtcome, hk⟩ := Bool.and_eq_true_iff.mp hk
      exact hcross a ha r mem_cons_self houtcome (of_decide_eq_true hk)
    · intro hend
      refine ⟨hdone, pairwise_singleton .., ?_⟩
      intro a ha b hb houtcome hk
      obtain rfl := mem_singleton.mp hb
      exact hend (any_eq_true.mpr ⟨a, ha, Bool.and_eq_true_iff.mpr ⟨houtcome, decide_eq_true hk⟩⟩)
  rw [happend]
  unfold ReplayState.step
  cases hactive : isEffect r || isOutcome r with
  | false =>
    exact ⟨fun _ _ => Bool.or_eq_false_iff.mp hactive, fun _ => ⟨s, rfl⟩⟩
  | true =>
    cases hlookup : s.terminals.lookup (txnKey r) with
    | some terminal =>
      have hset : settled done (txnKey r) = true := by
        by_contra hne
        rw [(h.terminals _).mpr (Bool.eq_false_of_not_eq_true hne)] at hlookup
        cases hlookup
      refine ⟨fun ⟨s', hs'⟩ => (nomatch hs'), fun hend => ?_⟩
      obtain ⟨heffect, houtcome⟩ := hend hset
      rw [heffect, houtcome] at hactive
      cases hactive
    | none =>
      refine ⟨fun _ hset => ?_, fun _ => ⟨_, rfl⟩⟩
      rw [(h.terminals _).mp hlookup] at hset
      cases hset

end

theorem settles_of_append {xs ys : List WalRecord} (h : Settles (xs ++ ys)) : Settles xs := (pairwise_append.mp h).1

theorem pass_ok_iff (records : List WalRecord) :
    ((∃ s, records.foldlM ReplayState.step {} = .ok s) ↔ Settles records) ∧
      ∀ s, records.foldlM ReplayState.step {} = .ok s → Passed records s := by
  have hkeeps : ∀ done s r s', Passed done s → s.step r = .ok s' → Passed (done ++ [r]) s' := fun _ _ _ _ => Passed.step
  have hgrants : ∀ done s r, Passed done s → Settles done → ((∃ s', s.step r = .ok s') ↔ Settles (done ++ [r])) := fun _ _ _ => Passed.grants
  exact foldlM_ok_iff (fun _ _ => settles_of_append) hkeeps hgrants Passed.start List.Pairwise.nil records

end Grafx.Recovery
