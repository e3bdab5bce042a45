import OktoGrafx.Query.KeyOrder

/-! ORDER BY against the language's comparisons: the values for which the sort keys are a total preorder
that `<` and `=` agree with. -/

namespace Grafx.Query

open List NestedTuple

section Compare
variable {texts : Texts} {catalog : ℤ → TableKind} {keys : Set MapKey} {components : Set Double}

/-! ## The language's order -/

theorem Answers.lt_gt {cmp : Option Ordering} {less greater : Truth} (hless : Answers .lt cmp less) (hgreater : Answers .gt cmp greater)
    (hl : less ≠ .unknown) (hg : greater ≠ .unknown) :
    ∃ o, cmp = some o ∧ less = .of (Operator.lt.holds o) ∧ greater = .of (Operator.gt.holds o) := by
  obtain rfl | ⟨o, ho, hless⟩ := hless
  · exact absurd rfl hl
  obtain rfl | ⟨p, hp, hgreater⟩ := hgreater
  · exact absurd rfl hg
  cases ho.symm.trans hp
  exact ⟨o, ho, hless, hgreater⟩

theorem orderedItems_answers {op : Operator} {xs ys : List Value}
    (hequal : ∀ x ∈ xs, ∀ y ∈ ys, queryEqual texts x y = some .yes → Key.cmp (valueKey texts x) (valueKey texts y) = some .eq)
    (hordered : ∀ x ∈ xs, ∀ y ∈ ys, ∀ op t, ordered texts op x y = some t → Answers op (Key.cmp (valueKey texts x) (valueKey texts y)) t)
    {t : Truth} (h : orderedItems texts op xs ys = some t) :
    Answers op (lexicographic Key.cmp (xs.map (valueKey texts)) (ys.map (valueKey texts))) t := by
  induction xs generalizing ys with
  | nil =>
    right
    cases ys with
    | nil =>
      simp only [orderedItems, Option.some.injEq] at h
      exact ⟨.eq, rfl, h.symm⟩
    | cons y ys =>
      simp only [orderedItems, Option.some.injEq, length_nil, length_cons] at h
      refine ⟨.lt, rfl, ?_⟩
      rw [← h, Nat.compare_eq_lt.mpr (Nat.succ_pos _)]
  | cons x xs ih => cases ys with
    | nil =>
      right
      simp only [orderedItems, Option.some.injEq, length_nil, length_cons] at h
      refine ⟨.gt, rfl, ?_⟩
      rw [← h, Nat.compare_eq_gt.mpr (Nat.succ_pos _)]
    | cons y ys =>
      have htail := ih (fun x hx y hy => hequal x (mem_cons_of_mem _ hx) y (mem_cons_of_mem _ hy))
        (fun x hx y hy => hordered x (mem_cons_of_mem _ hx) y (mem_cons_of_mem _ hy))
      have hhead := hordered x mem_cons_self y mem_cons_self
      -- equal first elements leave the comparison to the others
      have hskip : Key.cmp (valueKey texts x) (valueKey texts y) = some .eq → orderedItems texts op xs ys = some t →
          Answers op (lexicographic Key.cmp ((x :: xs).map (valueKey texts)) ((y :: ys).map (valueKey texts))) t := by
        intro heq hrest
        rw [map_cons, map_cons, lexicographic, heq]
        exact htail hrest
      simp only [orderedItems, Option.bind_eq_bind, Option.bind_eq_some_iff] at h
      obtain ⟨same, hsame, h⟩ := h
      split at h
      next hyes => exact hskip (hequal x mem_cons_self y mem_cons_self (hyes ▸ hsame)) h
      next =>
        obtain ⟨less, hless, h⟩ := Option.bind_eq_some_iff.mp h
        obtain ⟨greater, hgreater, h⟩ := Option.bind_eq_some_iff.mp h
        split at h
        next =>
          cases h
          exact .inl rfl
        next hknown =>
          rw [not_or] at hknown
          obtain ⟨o, ho, rfl, rfl⟩ := Answers.lt_gt (hhead _ _ hless) (hhead _ _ hgreater) hknown.1 hknown.2
          split at h
          next hdecided =>
            right
            cases h
            refine ⟨o, ?_, ?_⟩
            · rw [map_cons, map_cons, lexicographic, ho]
              show (if o = .eq then _ else _) = some o
              rw [if_neg]
              rintro rfl
              exact absurd hdecided (by decide)
            · cases o <;> cases op <;> first | rfl | exact absurd hdecided (by decide)
          next htie =>
            apply hskip _ h
            cases o with
            | eq => exact ho
            | lt => exact absurd (.inl rfl) htie
            | gt => exact absurd (.inr rfl) htie

theorem Drawn.ordered_answers (hkeys : TotalOn MapKey.cmp keys)
    (hzero : ¬ (Double.finite 0 ∈ components ∧ Double.negativeZero ∈ components)) {v w : Value}
    (hv : Drawn catalog keys components v) (hw : Drawn catalog keys components w) {op : Operator} {t : Truth}
    (h : ordered texts op v w = some t) : Answers op (Key.cmp (valueKey texts v) (valueKey texts w)) t := by
  have hsome : ∀ {u}, Drawn catalog keys components u → (sortKey texts u).isSome := Drawn.sortKey_isSome hkeys
  induction hv generalizing w op t with
  | scalar hvector => cases w with
    | scalar b =>
      cases h
      exact Scalar.ordered_answers texts op _ b
    | _ =>
      simp only [ordered, Option.some.injEq] at h
      exact .inl h.symm
  | list each ih => cases hw with
    | list each' =>
      rw [valueKey_list fun v hv => hsome (each v hv), valueKey_list fun v hv => hsome (each' v hv), ranked_cmp_same, Key.cmp_tuple]
      apply orderedItems_answers _ _ h
      · intro x hx y hy hyes
        exact Drawn.equal_cmp hkeys hzero (each x hx) (each' y hy) hyes
      · intro x hx y hy op t hxy
        exact ih x hx (each' y hy) hxy
    | _ =>
      simp only [ordered, Option.some.injEq] at h
      exact .inl h.symm
  | _ =>
    simp only [ordered, Option.some.injEq] at h
    exact .inl h.symm

/-! ## The values with orderly keys -/

variable (texts) in
/-- Comparing the sort keys of these values never raises and is a total preorder that respects `<` and `=`. -/
structure Orderly (values : Set Value) : Prop where
  defined : ∀ v ∈ values, ∀ w ∈ values, (compareValues texts v w).isSome
  refl : ∀ v ∈ values, compareValues texts v v ≠ some .gt
  total : ∀ v ∈ values, ∀ w ∈ values, compareValues texts v w ≠ some .gt ∨ compareValues texts w v ≠ some .gt
  trans : ∀ u ∈ values, ∀ v ∈ values, ∀ w ∈ values,
    compareValues texts u v ≠ some .gt → compareValues texts v w ≠ some .gt → compareValues texts u w ≠ some .gt
  less : ∀ v ∈ values, ∀ w ∈ values, ordered texts .lt v w = some .yes → compareValues texts v w = some .lt
  equal : ∀ v ∈ values, ∀ w ∈ values, queryEqual texts v w = some .yes → compareValues texts v w = some .eq

theorem orderly_of (hkeys : TotalOn MapKey.cmp keys) (hzero : ¬ (Double.finite 0 ∈ components ∧ Double.negativeZero ∈ components)) :
    Orderly texts {v | Drawn catalog keys components v} := by
  have hcmp : ∀ {v w}, Drawn catalog keys components v → Drawn catalog keys components w →
      compareValues texts v w = Key.cmp (valueKey texts v) (valueKey texts w) :=
    fun hv hw => compareValues_eq (hv.sortKey_isSome hkeys) (hw.sortKey_isSome hkeys)
  have hdefined : ∀ {v w}, Drawn catalog keys components v → Drawn catalog keys components w →
      (Key.cmp (valueKey texts v) (valueKey texts w)).isSome := fun hv hw => hv.cmp_isSome hkeys hw
  refine ⟨?_, ?_, ?_, ?_, ?_, ?_⟩
  · intro v hv w hw
    rw [hcmp hv hw]
    exact hdefined hv hw
  · intro v hv
    rw [hcmp hv hv, Key.cmp_refl]
    simp
  · intro v hv w hw
    rw [hcmp hv hw, hcmp hw hv]
    exact (Key.coherent _).le_total _
  · intro u hu v hv w hw huv hvw
    rw [hcmp hu hv] at huv
    rw [hcmp hv hw] at hvw
    rw [hcmp hu hw]
    exact (Key.coherent _).le_trans (hdefined hu hv) (hdefined hv hw) (hdefined hu hw) huv hvw
  · intro v hv w hw hlt
    rw [hcmp hv hw]
    obtain hunknown | ⟨o, ho, hyes⟩ := hv.ordered_answers hkeys hzero hw hlt
    · cases hunknown
    · rw [ho]
      cases o <;> first | rfl | cases hyes
  · intro v hv w hw heq
    rw [hcmp hv hw]
    exact hv.equal_cmp hkeys hzero hw heq

/-! ## Where they are not -/

def nullPair (k l : MapKey) : Value := .map [(k, .scalar .null), (l, .scalar .null)]

theorem sortKey_nullPair (texts : Texts) {k l : MapKey} (h : MapKey.cmp l k = none) : sortKey texts (nullPair k l) = none := by
  simp [nullPair, sortKey, sortKeyEntries, sorted, insertSorted, itemCmp, h]

theorem totalOn_of_orderly (h : Orderly texts {v | Drawn catalog keys components v}) : TotalOn MapKey.cmp keys := by
  intro k hk l hl
  by_contra hnone
  rw [Bool.not_eq_true, Option.isSome_eq_false_iff, Option.isNone_iff_eq_none] at hnone
  have hswap : MapKey.cmp l k = none := by
    rw [(MapKey.coherent k).swap, hnone]
    rfl
  have hdrawn : Drawn catalog keys components (nullPair k l) := by
    apply Drawn.map
    · intro e he
      obtain rfl | rfl : e = (k, .scalar .null) ∨ e = (l, .scalar .null) := by simpa using he
      · exact hk
      · exact hl
    · simp [hnone]
    · intro e he
      obtain rfl | rfl : e = (k, .scalar .null) ∨ e = (l, .scalar .null) := by simpa using he
      · exact .scalar fun _ hvector => by cases hvector
      · exact .scalar fun _ hvector => by cases hvector
  have hdefined := h.defined _ hdrawn _ hdrawn
  rw [compareValues, sortKey_nullPair texts hswap] at hdefined
  cases hdefined

def vectorOf (x : Double) : Value := .scalar (.vector ⟨[x], 1, .float32⟩)

theorem queryEqual_zeros (texts : Texts) : queryEqual texts (vectorOf (.finite 0)) (vectorOf .negativeZero) = some .yes := by
  have hequal : Scalar.equal (.vector ⟨[.finite 0], 1, .float32⟩) (.vector ⟨[.negativeZero], 1, .float32⟩) = true := by decide
  simp [vectorOf, queryEqual, equal, hequal, Truth.of]

theorem valueKey_zeros (texts : Texts) :
    valueKey texts (vectorOf (.finite 0)) = ranked (11, Key.tag "VectorValue(values=(0.0,), space_ref=1, dtype='float32')") ∧
      valueKey texts (vectorOf .negativeZero) = ranked (11, Key.tag "VectorValue(values=(-0.0,), space_ref=1, dtype='float32')") := by
  exact ⟨rfl, rfl⟩

theorem cmp_zeros : Key.cmp (Key.tag "VectorValue(values=(0.0,), space_ref=1, dtype='float32')")
    (Key.tag "VectorValue(values=(-0.0,), space_ref=1, dtype='float32')") = some .gt := by
  decide

theorem compareValues_zeros (texts : Texts) : compareValues texts (vectorOf (.finite 0)) (vectorOf .negativeZero) = some .gt := by
  have hsome : ∀ x, (sortKey texts (vectorOf x)).isSome := fun x => by rw [vectorOf, sortKey]; rfl
  rw [compareValues_eq (hsome _) (hsome _), (valueKey_zeros texts).1, (valueKey_zeros texts).2, ranked_cmp_same, cmp_zeros]

theorem zeros_of_orderly (h : Orderly texts {v | Drawn catalog keys components v}) :
    ¬ (Double.finite 0 ∈ components ∧ Double.negativeZero ∈ components) := by
  rintro ⟨hplus, hminus⟩
  have hdrawn : ∀ x ∈ components, Drawn catalog keys components (vectorOf x) := by
    intro x hx
    apply Drawn.scalar
    intro v hv y hy
    cases hv
    rw [mem_singleton.mp hy]
    exact hx
  have heq := h.equal _ (hdrawn _ hplus) _ (hdrawn _ hminus) (queryEqual_zeros texts)
  cases heq

/-- The sort keys are in order exactly when any two keys of maps have an order and vectors do not have both zeros. -/
theorem orderly_iff (texts : Texts) (catalog : ℤ → TableKind) (keys : Set MapKey) (components : Set Double) :
    Orderly texts {v | Drawn catalog keys components v} ↔
      TotalOn MapKey.cmp keys ∧ ¬ (Double.finite 0 ∈ components ∧ Double.negativeZero ∈ components) :=
  ⟨fun h => ⟨totalOn_of_orderly h, zeros_of_orderly h⟩, fun h => orderly_of h.1 h.2⟩

/-- A map with an integer and a string among its keys has no sort key; a list that is smaller can have the greater key. -/
theorem sortKey_disorder :
    (∀ texts, sortKey texts (nullPair (.atom (.int 1)) (.atom (.str (text "b")))) = none) ∧
      ∀ texts,
        queryEqual texts (vectorOf (.finite 0)) (vectorOf .negativeZero) = some .yes ∧
        compareValues texts (vectorOf (.finite 0)) (vectorOf .negativeZero) = some .gt ∧
        ordered texts .lt (.list [vectorOf (.finite 0), .scalar (.int 1)]) (.list [vectorOf .negativeZero, .scalar (.int 2)]) = some .yes ∧
        compareValues texts (.list [vectorOf (.finite 0), .scalar (.int 1)]) (.list [vectorOf .negativeZero, .scalar (.int 2)]) = some .gt := by
  refine ⟨fun texts => sortKey_nullPair texts rfl, fun texts => ?_⟩
  refine ⟨queryEqual_zeros texts, compareValues_zeros texts, ?_, ?_⟩
  · have hequal : Scalar.equal (.int 1) (.int 2) = false := by decide
    have hless : Scalar.ordered .lt (.int 1) (.int 2) = .yes := by decide
    have hgreater : Scalar.ordered .gt (.int 1) (.int 2) = .no := by decide
    have hints : queryEqual texts (.scalar (.int 1)) (.scalar (.int 2)) = some .no := by
      simp [queryEqual, equal, hequal, Truth.of]
    simp [ordered, orderedItems, queryEqual_zeros, hints, hless, hgreater]
  · have hsome : ∀ x n, ∀ v ∈ [vectorOf x, .scalar (.int n)], (sortKey texts v).isSome := by
      simp [vectorOf, sortKey]
    have hlist : ∀ x n, (sortKey texts (.list [vectorOf x, .scalar (.int n)])).isSome := fun x n => by rw [sortKey_list (hsome x n)]; rfl
    rw [compareValues_eq (hlist _ _) (hlist _ _), valueKey_list (hsome _ _), valueKey_list (hsome _ _), ranked_cmp_same, Key.cmp_tuple]
    simp only [map_cons]
    rfl

end Compare

end Grafx.Query
