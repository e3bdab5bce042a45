import OktoGrafx.Log.TailIndex

/-! What a walk accounts for. The records and the failures it reports lie end to end over every segment it
reads. Behind damage it tries the places that show the magic, and charges each for the length it declares;
one account of candidates and bytes serves all the damage of a segment. The walk steps over no record
exactly when, behind every damage, the account reaches the first one. -/

namespace Grafx.Log

open List ByteCodec Wal

/-- The bytes an item accounts for; a break in the sequence is only a marker. -/
def ScanItem.extent? : ScanItem → Option (ℕ × ℕ)
  | record _ offset r => some (offset, r.encodedLength)
  | failure f => if f.reason = .lsnDiscontinuity then none else some (f.offset, f.length)

def Tiles (last : ℕ) : ℕ → List (ℕ × ℕ) → Prop
  | first, [] => first = last
  | first, (offset, length) :: ranges => offset = first ∧ 0 < length ∧ Tiles last (first + length) ranges

def DecodeOutcome.usable : DecodeOutcome → Bool
  | record .. => true
  | failure .. => false

def DecodeOutcome.checked : DecodeOutcome → Bool
  | record .. => true
  | failure reason consumed => decide (reason ≠ .truncatedTail ∧ 0 < consumed)

def DecodeOutcome.lost : DecodeOutcome → Bool
  | record .. => false
  | failure reason consumed => decide (reason ≠ .truncatedTail ∧ consumed = 0)

def proven (raw : Bytes) : Bool :=
  decide (raw.take 4 = magicBytes ∧ (declaredLength raw).isSome) && (decodeRecord raw).checked

def StepsOverNone (budget : ℕ) (raw : Bytes) (position candidates spent : ℕ) : Prop :=
  ∀ i, position + i < (nextRecordOffset budget raw position candidates spent).1.getD (position + raw.length) → proven (raw.drop i) = false

/-- The length declared where the magic shows and a header fits. -/
def place? (raw : Bytes) : Option ℕ := if raw.take 4 = magicBytes then declaredLength raw else none

-- A place whose length no longer fits is passed without a charge.
def charge (budget : ℕ) (account : ℕ × ℕ) (declared : ℕ) : ℕ × ℕ :=
  if account.2 + declared ≤ budget then (account.1 + 1, account.2 + declared) else account

/-- The candidates and bytes charged once the places at the first `n` bytes were tried. -/
def charged (budget : ℕ) (raw : Bytes) (account : ℕ × ℕ) (n : ℕ) : ℕ × ℕ :=
  ((range n).filterMap fun i => place? (raw.drop i)).foldl (charge budget) account

/-- The first record in the bytes can be used, and the places before it leave a candidate and its length. -/
def Affords (budget : ℕ) (raw : Bytes) (account : ℕ × ℕ) : Prop :=
  ∀ q, proven (raw.drop q) = true → (∀ i < q, proven (raw.drop i) = false) →
    (decodeRecord (raw.drop q)).usable = true ∧ (charged budget raw account q).1 < maxResyncCandidates ∧
      (charged budget raw account q).2 + (declaredLength (raw.drop q)).getD 0 ≤ budget

/-- The stretches of a segment that begin where nothing can be read and no length can be trusted. -/
def damage (data : Bytes) (items : List ScanItem) : List (ℕ × ℕ) :=
  (items.filterMap ScanItem.extent?).filter fun range => (decodeRecord (data.drop range.1)).lost

def HidesNone (data : Bytes) (ranges : List (ℕ × ℕ)) : Prop :=
  ∀ range ∈ ranges, ∀ i, range.1 < i → i < range.1 + range.2 → proven (data.drop i) = false

/-- Each stretch affords the record behind it, with what the stretches before were charged. -/
def AffordsAll (budget : ℕ) (data : Bytes) : ℕ × ℕ → List (ℕ × ℕ) → Prop
  | _, [] => True
  | account, (offset, length) :: ranges => Affords budget (data.drop (offset + 1)) account ∧
    AffordsAll budget data (charged budget (data.drop (offset + 1)) account length) ranges

variable {raw data rest : Bytes} {reason : FailureReason} {n budget position candidates spent : ℕ} {byte : Byte}

/-! ## Searches -/

theorem proven_iff : proven raw = true ↔ (raw.take 4 = magicBytes ∧ ∃ declared, declaredLength raw = some declared) ∧ (decodeRecord raw).checked = true := by
  rw [proven, Bool.and_eq_true, decide_eq_true_iff, Option.isSome_iff_exists]

theorem lt_length_of_proven {i : ℕ} (h : proven (raw.drop i) = true) : i < raw.length := by
  by_contra hle
  rw [drop_eq_nil_of_le (not_lt.mp hle)] at h
  cases h

theorem charged_one (budget : ℕ) (raw : Bytes) (account : ℕ × ℕ) :
    charged budget raw account 1 = ((place? raw).map (charge budget account)).getD account := by
  simp only [charged, range_one, filterMap_cons, filterMap_nil, drop_zero]
  cases place? raw <;> rfl

theorem charged_succ (budget : ℕ) (byte : Byte) (rest : Bytes) (account : ℕ × ℕ) (n : ℕ) :
    charged budget (byte :: rest) account (n + 1) = charged budget rest (charged budget (byte :: rest) account 1) n := by
  rw [charged_one]
  simp only [charged, range_succ_eq_map, filterMap_cons, filterMap_map, drop_zero]
  cases place? (byte :: rest) <;> rfl

theorem charge_ge (budget : ℕ) (account : ℕ × ℕ) (declared : ℕ) : account.1 ≤ (charge budget account declared).1 := by
  unfold charge
  split_ifs
  · exact Nat.le_succ _
  · exact le_rfl

theorem charged_ge (budget : ℕ) (raw : Bytes) (account : ℕ × ℕ) (n : ℕ) : account.1 ≤ (charged budget raw account n).1 :=
  foldlRecOn (motive := fun a : ℕ × ℕ => account.1 ≤ a.1) _ _ le_rfl fun a ha declared _ => ha.trans (charge_ge budget a declared)

theorem affords_proven (budget : ℕ) (account : ℕ × ℕ) (hproven : proven (byte :: rest) = true) :
    Affords budget (byte :: rest) account ↔ (decodeRecord (byte :: rest)).usable = true ∧ account.1 < maxResyncCandidates ∧
      account.2 + (declaredLength (byte :: rest)).getD 0 ≤ budget := by
  constructor
  · exact fun h => h 0 hproven fun i hi => absurd hi (Nat.not_lt_zero i)
  · intro h q hq hbefore
    cases q with
    | zero => exact h
    | succ q => exact absurd (hbefore 0 (Nat.succ_pos q)) (by rw [drop_zero, hproven]; decide)

theorem affords_pass (budget : ℕ) (account : ℕ × ℕ) (hproven : proven (byte :: rest) = false) :
    Affords budget (byte :: rest) account ↔
      Affords budget rest (charged budget (byte :: rest) account 1) := by
  constructor
  · intro h q hq hbefore
    rw [← charged_succ]
    refine h (q + 1) hq fun i hi => ?_
    cases i with
    | zero => exact hproven
    | succ i => exact hbefore i (Nat.lt_of_succ_lt_succ hi)
  · intro h q hq hbefore
    cases q with
    | zero =>
      rw [drop_zero, hproven] at hq
      cases hq
    | succ q =>
      rw [charged_succ]
      exact h q hq fun i hi => hbefore (i + 1) (Nat.succ_lt_succ hi)

theorem affords_exhausted (budget : ℕ) {account : ℕ × ℕ} (h : maxResyncCandidates ≤ account.1) :
    Affords budget raw account ↔ ∀ i, proven (raw.drop i) = false := by
  constructor
  · intro hafford
    by_contra hsome
    push Not at hsome
    obtain ⟨i, hi⟩ := hsome
    have hfirst : ∃ i, proven (raw.drop i) = true := ⟨i, Bool.eq_true_of_not_eq_false hi⟩
    obtain ⟨-, hcount, -⟩ := hafford (Nat.find hfirst) (Nat.find_spec hfirst) fun j hj =>
      Bool.eq_false_of_not_eq_true (Nat.find_min hfirst hj)
    exact absurd (charged_ge budget raw account _) (not_le.mpr (hcount.trans_le h))
  · intro hnone q hq
    rw [hnone q] at hq
    cases hq

/-- One place: the search gives up, ends at a record it affords, or goes on with what the place was charged. -/
theorem nextRecordOffset_cons (budget : ℕ) (byte : Byte) (rest : Bytes) (position candidates spent : ℕ) :
    (maxResyncCandidates ≤ candidates ∧
      nextRecordOffset budget (byte :: rest) position candidates spent = (none, candidates, spent)) ∨
    (Affords budget (byte :: rest) (candidates, spent) ∧ nextRecordOffset budget (byte :: rest) position candidates spent =
      (some position, charged budget (byte :: rest) (candidates, spent) 1)) ∨
    (proven (byte :: rest) = true → ¬ Affords budget (byte :: rest) (candidates, spent)) ∧
      nextRecordOffset budget (byte :: rest) position candidates spent =
        nextRecordOffset budget rest (position + 1) (charged budget (byte :: rest) (candidates, spent) 1).1
          (charged budget (byte :: rest) (candidates, spent) 1).2 := by
  rw [nextRecordOffset, charged_one, place?]
  by_cases hmagic : (byte :: rest).take 4 = magicBytes
  · rw [if_pos hmagic, if_pos hmagic]
    by_cases hmax : maxResyncCandidates ≤ candidates
    · exact .inl ⟨hmax, if_pos hmax⟩
    rw [if_neg hmax]
    cases hdeclared : declaredLength (byte :: rest) with
    | none => exact .inr (.inr ⟨fun hproven => by simp [proven, hdeclared] at hproven, rfl⟩)
    | some declared =>
      simp only [Option.map_some, Option.getD_some, charge]
      by_cases hfits : spent + declared ≤ budget
      · simp only [if_pos hfits]
        cases hd : decodeRecord (byte :: rest) with
        | record r n =>
          have hproven : proven (byte :: rest) = true := proven_iff.mpr ⟨⟨hmagic, declared, hdeclared⟩, by rw [hd]; rfl⟩
          refine .inr (.inl ⟨(affords_proven budget _ hproven).mpr ⟨by rw [hd]; rfl, not_le.mp hmax, ?_⟩, rfl⟩)
          rwa [hdeclared]
        | failure reason n =>
          refine .inr (.inr ⟨fun hproven hafford => ?_, rfl⟩)
          have husable := ((affords_proven budget _ hproven).mp hafford).1
          rw [hd] at husable
          cases husable
      · simp only [if_neg hfits]
        refine .inr (.inr ⟨fun hproven hafford => hfits ?_, trivial⟩)
        simpa only [hdeclared, Option.getD_some] using ((affords_proven budget _ hproven).mp hafford).2.2
  · rw [if_neg hmagic, if_neg hmagic]
    exact .inr (.inr ⟨fun hproven => absurd (proven_iff.mp hproven).1.1 hmagic, rfl⟩)

theorem nextRecordOffset_bounds {q : ℕ} (h : (nextRecordOffset budget raw position candidates spent).1 = some q) :
    position ≤ q ∧ q < position + raw.length := by
  induction raw generalizing position candidates spent with
  | nil => cases h
  | cons byte rest ih =>
    rw [length_cons]
    rcases nextRecordOffset_cons budget byte rest position candidates spent with ⟨-, heq⟩ | ⟨-, heq⟩ | ⟨-, heq⟩ <;> rw [heq] at h
    · cases h
    · cases h
      omega
    · have hlater := ih h
      omega

/-- A search that finds a record was charged for the places up to it. -/
theorem nextRecordOffset_charged {q : ℕ} {account : ℕ × ℕ}
    (h : nextRecordOffset budget raw position candidates spent = (some q, account)) :
    account = charged budget raw (candidates, spent) (q - position + 1) := by
  induction raw generalizing position candidates spent with
  | nil => cases h
  | cons byte rest ih =>
    rw [charged_succ]
    rcases nextRecordOffset_cons budget byte rest position candidates spent with ⟨-, heq⟩ | ⟨-, heq⟩ | ⟨-, heq⟩ <;> rw [heq] at h
    · cases h
    · cases h
      rw [Nat.sub_self]
      rfl
    · obtain ⟨hle, -⟩ := nextRecordOffset_bounds (congrArg Prod.fst h)
      rw [ih h]
      congr 1
      omega

theorem search_iff (budget : ℕ) (raw : Bytes) (position candidates spent : ℕ) :
    StepsOverNone budget raw position candidates spent ↔ Affords budget raw (candidates, spent) := by
  unfold StepsOverNone
  induction raw generalizing position candidates spent with
  | nil => exact iff_of_true (fun i _ => by rw [drop_nil]; rfl) fun q hq => by rw [drop_nil] at hq; cases hq
  | cons byte rest ih =>
    rcases nextRecordOffset_cons budget byte rest position candidates spent with ⟨hmax, heq⟩ | ⟨hafford, heq⟩ | ⟨hnot, heq⟩ <;> rw [heq]
    · rw [affords_exhausted budget hmax]
      refine ⟨fun hnone i => ?_, fun hnone i _ => hnone i⟩
      by_contra hi
      exact hi (hnone i (Nat.add_lt_add_left (lt_length_of_proven (Bool.eq_true_of_not_eq_false hi)) position))
    · exact iff_of_true (fun i hi => absurd hi (not_lt.mpr (Nat.le_add_right _ _))) hafford
    cases hproven : proven (byte :: rest) with
    | true =>
      -- the record that starts here is stepped over
      refine iff_of_false (fun hnone => absurd hproven (Bool.eq_false_iff.mp (hnone 0 ?_))) (hnot hproven)
      cases hfound : (nextRecordOffset budget rest (position + 1) _ _).1 with
      | none => exact Nat.lt_add_of_pos_right (Nat.succ_pos _)
      | some q => exact (nextRecordOffset_bounds hfound).1
    | false =>
      have hend : position + (byte :: rest).length = position + 1 + rest.length := by
        rw [length_cons]
        omega
      rw [affords_pass budget _ hproven, ← ih (position + 1), hend]
      constructor
      · intro hnone i hi
        exact hnone (i + 1) (by omega)
      · intro hnone i hi
        cases i with
        | zero => exact hproven
        | succ i => exact hnone i (by omega)

/-! ## The walk -/

variable {segment offset fuel : ℕ} {expected : Option ℕ}

theorem filterMap_discontinuity (length : ℕ) (expected : Option ℕ) (r : WalRecord) :
    (discontinuity segment offset length expected r).filterMap ScanItem.extent? = [] := by
  unfold discontinuity
  split
  · rfl
  · split <;> rfl

/-- One round of the walk: behind the marks, an item accounts for the next bytes. Where no length can be trusted they
reach to where the search ends, and the account goes on with what it was charged. -/
theorem walkBytes_step (segment budget fuel offset : ℕ) (expected : Option ℕ) (candidates spent : ℕ) (hne : rest ≠ []) :
    ∃ n marks item next account, 0 < n ∧ n ≤ rest.length ∧ marks.filterMap ScanItem.extent? = [] ∧ item.extent? = some (offset, n) ∧
      (walkBytes segment budget (fuel + 1) offset expected candidates spent rest).1 =
        marks ++ item :: (walkBytes segment budget fuel (offset + n) next account.1 account.2 (rest.drop n)).1 ∧
      ((decodeRecord rest).lost = false ∧ account = (candidates, spent) ∨
        (decodeRecord rest).lost = true ∧ (nextRecordOffset budget (rest.drop 1) 1 candidates spent).1.getD rest.length = n ∧
          account = charged budget (rest.drop 1) (candidates, spent) n) := by
  have hpos := length_pos_iff.mpr hne
  rw [walkBytes, if_neg hne]
  cases hd : decodeRecord rest with
  | record r n =>
    obtain ⟨-, rfl, himage⟩ := decodeRecord_record_iff.mp hd
    exact ⟨r.encodedLength, _, .record segment offset r, _, (candidates, spent), Nat.zero_lt_of_lt r.encodedLength_pos,
      WalRecord.image_length ▸ himage.length_le, filterMap_discontinuity .., rfl, rfl, .inl ⟨rfl, rfl⟩⟩
  | failure reason n =>
    obtain ⟨hmarker, hstep⟩ := decodeRecord_failure hd
    have hextent {length lsn : ℕ} : (ScanItem.failure ⟨reason, segment, offset, length, lsn⟩).extent? = some (offset, length) := if_neg hmarker
    -- an item that takes all the bytes leaves the next round none
    have hlast (item : ScanItem) (account : ℕ × ℕ) :
        [item] = [] ++ item :: (walkBytes segment budget fuel (offset + rest.length) none account.1 account.2 (rest.drop rest.length)).1 := by
      rw [drop_length, walkBytes_nil]
      rfl
    dsimp only
    split
    · rename_i htail
      exact ⟨rest.length, [], _, none, (candidates, spent), hpos, le_rfl, rfl, hextent, hlast _ _,
        .inl ⟨decide_eq_false fun h => h.1 htail, rfl⟩⟩
    rename_i htail
    split
    · rename_i hn
      have hle : n ≤ rest.length := by
        rcases hstep with rfl | ⟨-, rfl⟩ | ⟨hle, -⟩
        · exact Nat.zero_le _
        · exact le_rfl
        · exact hle
      exact ⟨n, [], _, _, (candidates, spent), hn, hle, rfl, hextent, rfl, .inl ⟨decide_eq_false fun h => hn.ne' h.2, rfl⟩⟩
    rename_i hn
    have hlost : (DecodeOutcome.failure reason n).lost = true := decide_eq_true ⟨htail, Nat.eq_zero_of_not_pos hn⟩
    split
    · rename_i hfound
      exact ⟨rest.length, [], _, none, _, hpos, le_rfl, rfl, hextent, hlast _ _, .inr ⟨hlost, by rw [hfound]; rfl, rfl⟩⟩
    · rename_i following candidates' spent' hfound
      obtain ⟨hle, hlt⟩ := nextRecordOffset_bounds (congrArg Prod.fst hfound)
      have haccount := nextRecordOffset_charged hfound
      rw [length_drop] at hlt
      rw [Nat.sub_add_cancel hle] at haccount
      exact ⟨following, [], _, _, (candidates', spent'), hle, by omega, rfl, hextent, rfl, .inr ⟨hlost, by rw [hfound]; rfl, haccount⟩⟩

theorem walkBytes_tiles (hfuel : rest.length ≤ fuel) :
    Tiles (offset + rest.length) offset
      ((walkBytes segment budget fuel offset expected candidates spent rest).1.filterMap ScanItem.extent?) := by
  induction fuel generalizing offset expected candidates spent rest with
  | zero =>
    rw [length_eq_zero_iff.mp (Nat.le_zero.mp hfuel)]
    rfl
  | succ fuel ih =>
    by_cases hempty : rest = []
    · rw [hempty, walkBytes_nil]
      rfl
    obtain ⟨n, marks, item, next, account, hn, hle, hmarks, hextent, hitems, -⟩ :=
      walkBytes_step segment budget fuel offset expected candidates spent hempty
    have hlength : (rest.drop n).length = rest.length - n := length_drop
    have hend : offset + rest.length = offset + n + (rest.drop n).length := by omega
    rw [hitems, filterMap_append, hmarks, nil_append, filterMap_cons, hextent, hend]
    exact ⟨rfl, hn, ih (by omega)⟩

/-- One damage: the search behind it steps over no record exactly when none starts inside. -/
theorem stepsOverNone_iff (hrest : data.drop offset = rest) (hne : rest ≠ [])
    (hstop : (nextRecordOffset budget (rest.drop 1) 1 candidates spent).1.getD rest.length = n) :
    StepsOverNone budget (rest.drop 1) 1 candidates spent ↔ ∀ i, offset < i → i < offset + n → proven (data.drop i) = false := by
  have hpos := length_pos_iff.mpr hne
  have hlength : 1 + (rest.drop 1).length = rest.length := by rw [length_drop]; omega
  unfold StepsOverNone
  rw [hlength, hstop, ← hrest]
  simp only [drop_drop]
  constructor
  · intro h i hle hlt
    have hi := h (i - (offset + 1)) (by omega)
    rwa [Nat.add_sub_cancel' hle] at hi
  · intro h i hi
    exact h (offset + 1 + i) (by omega) (by omega)

theorem walkBytes_hides (hfuel : rest.length ≤ fuel) (hrest : data.drop offset = rest) :
    HidesNone data (damage data (walkBytes segment budget fuel offset expected candidates spent rest).1) ↔
      AffordsAll budget data (candidates, spent)
        (damage data (walkBytes segment budget fuel offset expected candidates spent rest).1) := by
  have hnil {account : ℕ × ℕ} : HidesNone data [] ↔ AffordsAll budget data account [] := iff_of_true (fun _ h => absurd h not_mem_nil) trivial
  induction fuel generalizing offset expected candidates spent rest with
  | zero => exact hnil
  | succ fuel ih =>
    by_cases hempty : rest = []
    · rw [hempty, walkBytes_nil]
      exact hnil
    obtain ⟨n, marks, item, next, account, hn, -, hmarks, hextent, hitems, hcharged⟩ :=
      walkBytes_step segment budget fuel offset expected candidates spent hempty
    have hfuel' : (rest.drop n).length ≤ fuel := by rw [length_drop]; omega
    have hrest' : data.drop (offset + n) = rest.drop n := by rw [← hrest, drop_drop]
    rw [hitems, damage, filterMap_append, hmarks, nil_append, filterMap_cons, hextent]
    rcases hcharged with ⟨hkept, rfl⟩ | ⟨hlost, hstop, rfl⟩
    · rw [filter_cons_of_neg (by rw [hrest, hkept]; exact Bool.false_ne_true)]
      exact ih hfuel' hrest'
    · rw [filter_cons_of_pos (by rw [hrest, hlost]), HidesNone, forall_mem_cons, ← stepsOverNone_iff hrest hempty hstop, search_iff]
      have hdrop : rest.drop 1 = data.drop (offset + 1) := by rw [← hrest, drop_drop]
      rw [hdrop]
      exact and_congr Iff.rfl (ih hfuel' hrest')

def Segment.walked (seg : Segment) : Bool := decide (seg.data.length ≤ maxSegmentReadBytes)

/-- What the walk yields for a segment accounts for every byte once. No complete record with a valid checksum starts
inside the damage it reports exactly when each damage affords the first such record behind it. -/
theorem walk_accounts (expected : Option ℕ) (d : Directory) :
    (walk expected d).2 = (d.find? fun seg => !seg.walked).map Segment.number ∧
      ∃ parts : List (List ScanItem), (walk expected d).1 = parts.flatten ∧
        Forall₂ (fun seg items => (∀ item ∈ items, item.segment = seg.number) ∧
            Tiles seg.data.length 0 (items.filterMap ScanItem.extent?) ∧
            (HidesNone seg.data (damage seg.data items) ↔
              AffordsAll (seg.data.length * resyncChecksumBudgetFactor) seg.data (0, 0) (damage seg.data items)))
          (d.takeWhile Segment.walked) parts := by
  induction d generalizing expected with
  | nil => exact ⟨rfl, [], rfl, .nil⟩
  | cons seg segs ih =>
    by_cases hsize : seg.data.length ≤ maxSegmentReadBytes
    · have hwalked : seg.walked = true := decide_eq_true hsize
      have htiles : Tiles (0 + seg.data.length) 0 ((walkBytes seg.number (seg.data.length * resyncChecksumBudgetFactor) seg.data.length 0 expected 0 0
        seg.data).1.filterMap ScanItem.extent?) := walkBytes_tiles le_rfl
      rw [zero_add] at htiles
      obtain ⟨hend, parts, hparts, hall⟩ := ih (walkBytes seg.number _ seg.data.length 0 expected 0 0 seg.data).2
      rw [walk_cons hsize, hparts, hend, find?_cons, takeWhile_cons, hwalked]
      exact ⟨rfl, _ :: parts, rfl, .cons ⟨walkBytes_segment, htiles, walkBytes_hides le_rfl drop_zero⟩ hall⟩
    · have hrefused : seg.walked = false := decide_eq_false hsize
      rw [walk_oversized (not_le.mp hsize), find?_cons, takeWhile_cons, hrefused]
      exact ⟨rfl, [], rfl, .nil⟩

def hidingHeader : Bytes := magicBytes ++ (replicate 8 0 ++ (littleEndian 4 202 ++ replicate 32 0))

def hiddenRecord : Bytes := 0 :: (hidingHeader ++ (plainRecord .begin 1 0).image)

/-- One place that shows the magic and declares twice the length of the segment takes the whole budget. -/
theorem record_stepped_over : (walk none [⟨1, hiddenRecord⟩]).1 = [.failure ⟨.badMagic, 1, 0, 101, noLsn⟩] ∧
    decodeRecord (hiddenRecord.drop 49) = .record (plainRecord .begin 1 0) 52 := by
  decide +kernel

end Grafx.Log
