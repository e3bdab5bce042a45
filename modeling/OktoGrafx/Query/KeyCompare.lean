import OktoGrafx.Query.Comparison

/-! How the keys of scalars and rows compare. -/

namespace Grafx.Query

open NestedTuple

variable {a b : Scalar}

/-! ## Positions -/

theorem digits_injective (n : ℕ) : Function.Injective fun xs : List (Fin n) => xs.map fun c => (c.val : ℚ) := by
  apply List.map_injective_iff.mpr
  intro c d h
  exact Fin.ext (Nat.cast_injective h)

theorem DateValue.parts_injective : Function.Injective DateValue.parts := by
  intro d e h
  cases d
  cases e
  simpa [DateValue.parts] using h

theorem Scalar.position_injOn {f : Family} (hf : f ≠ .number) (ha : a.family = some f) (hb : b.family = some f)
    (h : a.position = b.position) : a = b := by
  unfold Scalar.family at ha hb
  split at ha <;> cases ha
  · exact absurd rfl hf
  · exact absurd rfl hf
  · exact absurd rfl hf
  all_goals split at hb <;> cases hb
  · exact congrArg Scalar.str (digits_injective _ h)
  · exact congrArg Scalar.bytes (digits_injective _ h)
  · rw [DateValue.parts_injective h]
  next t _ u =>
    have hnanos : (t.nanoseconds : ℚ) = u.nanoseconds := List.singleton_inj.mp h
    cases t
    cases u
    simpa using hnanos
  next t _ u =>
    obtain ⟨hdate, htime⟩ := List.append_inj h rfl
    obtain ⟨d, ⟨n, hn⟩⟩ := t
    obtain ⟨e, ⟨m, hm⟩⟩ := u
    simpa using And.intro (DateValue.parts_injective hdate) htime

theorem Scalar.eq_of_cmp (h : Scalar.cmp a b = some .eq) : a = b ∨ (a.family = some .number ∧ b.family = some .number ∧ a.position = b.position) ∨
      ∃ v w, a = .vector v ∧ b = .vector w ∧ v.values.map Double.position = w.values.map Double.position ∧
        v.spaceRef = w.spaceRef ∧ v.dtype = w.dtype := by
  unfold Scalar.cmp at h
  split at h
  next horder =>
    have hpos : a.position = b.position := Std.LawfulEqCmp.compare_eq_iff_eq.mp (Option.some.inj h)
    rw [Scalar.orderable, Bool.and_eq_true, beq_iff_eq] at horder
    obtain ⟨hsome, hfamily⟩ := horder
    obtain ⟨f, hf⟩ := Option.isSome_iff_exists.mp hsome
    by_cases hnumber : f = .number
    · subst hnumber
      exact .inr (.inl ⟨hf, hfamily ▸ hf, hpos⟩)
    · exact .inl (Scalar.position_injOn hnumber hf (hfamily ▸ hf) hpos)
  next =>
    split at h
    next hsame =>
      unfold Scalar.same at hsame
      split at hsame
      · simp only [Bool.and_eq_true, beq_iff_eq] at hsame
        exact .inr (.inr ⟨_, _, rfl, rfl, hsame.1.1, hsame.1.2, hsame.2⟩)
      · exact .inl (eq_of_beq hsame)
    next => cases h

/-! ## Atoms -/

namespace Key

variable {xs ys : List Key}

theorem cmp_int (m n : ℤ) : cmp (int m) (int n) = some (compare [0, (m : ℚ)] [0, (n : ℚ)]) := by
  show Nested.compare Atom.cmp _ _ = _
  rfl

theorem cmp_str (s t : Text) : cmp (str s) (str t) = some (compare (s.map fun c => (c.val : ℚ)) (t.map fun c => (c.val : ℚ))) := by
  show Nested.compare Atom.cmp _ _ = _
  rfl

theorem cmp_tuple (xs ys : List Key) : cmp (.tuple xs) (.tuple ys) = lexicographic cmp xs ys := Nested.compare_tuple xs ys

theorem cmp_int_isSome (m n : ℤ) : (cmp (int m) (int n)).isSome := by
  rfl

theorem cmp_str_isSome (s t : Text) : (cmp (str s) (str t)).isSome := by
  rfl

theorem cmp_int_eq {m n : ℤ} : cmp (int m) (int n) = some .eq ↔ m = n := by
  rw [cmp_int, Option.some.injEq, Std.LawfulEqCmp.compare_eq_iff_eq]
  simp

theorem cmp_str_eq {s t : Text} : cmp (str s) (str t) = some .eq ↔ s = t := by
  rw [cmp_str, Option.some.injEq, Std.LawfulEqCmp.compare_eq_iff_eq]
  exact (digits_injective _).eq_iff

theorem cmp_refl (k : Key) : cmp k k = some .eq := (coherent k).refl

theorem cmp_pair (a b c d : Key) :
    cmp (.tuple [a, b]) (.tuple [c, d]) = (cmp a c).bind fun o => if o = .eq then cmp b d else some o :=
  Nested.compare_pair a b c d

theorem cmp_cons_eq {x y : Key} :
    cmp (.tuple (x :: xs)) (.tuple (y :: ys)) = some .eq ↔ cmp x y = some .eq ∧ cmp (.tuple xs) (.tuple ys) = some .eq := by
  rw [cmp_tuple, cmp_tuple, lexicographic_cons]
  simp

theorem cmp_cons_isSome {x y : Key} (hxy : (cmp x y).isSome) (hrest : (cmp (.tuple xs) (.tuple ys)).isSome) :
    (cmp (.tuple (x :: xs)) (.tuple (y :: ys))).isSome := by
  rw [cmp_tuple] at hrest ⊢
  exact lexicographic_isSome_cons hxy hrest

theorem cmp_ints_isSome (ms ns : List ℤ) : (cmp (.tuple (ms.map int)) (.tuple (ns.map int))).isSome := by
  rw [cmp_tuple]
  apply lexicographic_isSome
  intro x hx y hy
  obtain ⟨m, -, rfl⟩ := List.mem_map.mp hx
  obtain ⟨n, -, rfl⟩ := List.mem_map.mp hy
  exact cmp_int_isSome m n

theorem cmp_tag_eq {s t : String} (h : cmp (.tuple (tag s :: xs)) (.tuple (tag t :: ys)) = some .eq) :
    text s = text t ∧ cmp (.tuple xs) (.tuple ys) = some .eq := by
  obtain ⟨htag, hrest⟩ := cmp_cons_eq.mp h
  exact ⟨cmp_str_eq.mp htag, hrest⟩

theorem same_iff {a b : Key} : a.same b = true ↔ cmp a b = some .eq := by
  rw [same, beq_iff_eq]

end Key

/-! ## Ranks -/

theorem ranked_cmp_of_eq {a b : ℤ × Key} (h : a.1 = b.1) : Key.cmp (ranked a) (ranked b) = Key.cmp a.2 b.2 := by
  rw [ranked, ranked, Key.cmp_pair, Key.cmp_int_eq.mpr h]
  rfl

theorem ranked_cmp_same (r : ℤ) (x y : Key) : Key.cmp (ranked (r, x)) (ranked (r, y)) = Key.cmp x y := ranked_cmp_of_eq rfl

theorem ranked_cmp_isSome_of_ne {a b : ℤ × Key} (h : a.1 ≠ b.1) : (Key.cmp (ranked a) (ranked b)).isSome := by
  obtain ⟨o, ho⟩ := Option.isSome_iff_exists.mp (Key.cmp_int_isSome a.1 b.1)
  have hne : o ≠ .eq := by
    rintro rfl
    exact h (Key.cmp_int_eq.mp ho)
  rw [ranked, ranked, Key.cmp_pair, ho, Option.bind_some, if_neg hne]
  rfl

theorem ranked_cmp_isSome {a b : ℤ × Key} (h : a.1 = b.1 → (Key.cmp a.2 b.2).isSome) : (Key.cmp (ranked a) (ranked b)).isSome := by
  by_cases hrank : a.1 = b.1
  · rw [ranked_cmp_of_eq hrank]
    exact h hrank
  · exact ranked_cmp_isSome_of_ne hrank

/-! ## Rows -/

theorem bindingIdentity_form (b : RowBinding) : ∃ (s : String) (ns : List ℤ), bindingIdentity b = .tuple (Key.tag s :: ns.map Key.int) := by
  unfold bindingIdentity
  split
  next r _ => exact ⟨"pending", [r.txnId, r.tableId, r.token], rfl⟩
  next =>
    split
    · exact ⟨"held", [b.table.tableId, b.version], rfl⟩
    · exact ⟨"stored", [b.table.tableId, b.recordId], rfl⟩
  next => exact ⟨"stored", [b.table.tableId, b.recordId], rfl⟩

theorem bindingIdentity_isSome (a b : RowBinding) : (Key.cmp (bindingIdentity a) (bindingIdentity b)).isSome := by
  obtain ⟨s, ms, ha⟩ := bindingIdentity_form a
  obtain ⟨t, ns, hb⟩ := bindingIdentity_form b
  rw [ha, hb]
  exact Key.cmp_cons_isSome (Key.cmp_str_isSome _ _) (Key.cmp_ints_isSome ms ns)

theorem identities_isSome (as bs : List RowBinding) :
    (Key.cmp (.tuple (as.map bindingIdentity)) (.tuple (bs.map bindingIdentity))).isSome := by
  rw [Key.cmp_tuple]
  apply lexicographic_isSome
  intro x hx y hy
  obtain ⟨a, -, rfl⟩ := List.mem_map.mp hx
  obtain ⟨b, -, rfl⟩ := List.mem_map.mp hy
  exact bindingIdentity_isSome a b

theorem freezePath_isSome (as bs cs ds : List RowBinding) : (Key.cmp (freezePath as bs) (freezePath cs ds)).isSome := by
  apply Key.cmp_cons_isSome (Key.cmp_str_isSome _ _)
  apply Key.cmp_cons_isSome (identities_isSome as cs)
  apply Key.cmp_cons_isSome (identities_isSome bs ds)
  rfl

/-! ## Scalars -/

theorem numeric_isSome {a b : Atom} (h : a.orderable b = true) :
    Key.cmp (.tuple [Key.int 0, .atom a]) (.tuple [Key.int 0, .atom b]) = some (compare a.position b.position) := by
  rw [Key.cmp_pair, Key.cmp_refl, Option.bind_some, if_pos rfl]
  show Nested.compare Atom.cmp _ _ = _
  rw [Nested.compare_atom, Atom.cmp, if_pos h]

theorem temporalOrderKey_isSome (a b : Temporal) : (Key.cmp (temporalOrderKey a) (temporalOrderKey b)).isSome := by
  apply ranked_cmp_isSome
  intro hrank
  -- one family, one shape
  cases a <;> cases b <;> try simp [Temporal.rank] at hrank
  next t u =>
    apply Key.cmp_cons_isSome (Key.cmp_int_isSome _ _)
    apply Key.cmp_cons_isSome (Key.cmp_int_isSome _ _)
    apply Key.cmp_cons_isSome (Key.cmp_int_isSome _ _)
    apply Key.cmp_cons_isSome (Key.cmp_str_isSome _ _)
    rfl
  next t u => exact Key.cmp_ints_isSome [t.date.epochDay, t.time.nanoseconds] [u.date.epochDay, u.time.nanoseconds]
  next d e => exact Key.cmp_ints_isSome [d.epochDay] [e.epochDay]
  next t u => exact Key.cmp_ints_isSome [t.utcNanoseconds, t.offsetSeconds] [u.utcNanoseconds, u.offsetSeconds]
  next t u => exact Key.cmp_ints_isSome [t.nanoseconds] [u.nanoseconds]
  next d e =>
    exact Key.cmp_ints_isSome
      [d.months * 2629746 + d.days * 86400 + d.seconds, d.nanoseconds, d.months, d.days, d.seconds]
      [e.months * 2629746 + e.days * 86400 + e.seconds, e.nanoseconds, e.months, e.days, e.seconds]

def Scalar.orderAtom : Scalar → Atom
  | .decimal d => .decimalOrderKey d
  | s => .scalar s

theorem Scalar.orderAtom_orderable (ha : a.isNumeric = true) (hb : b.isNumeric = true) : a.orderAtom.orderable b.orderAtom = true := by
  unfold Scalar.isNumeric at ha hb
  split at ha <;> cases ha <;> split at hb <;> cases hb <;> rfl

theorem Scalar.orderAtom_position (a : Scalar) : a.orderAtom.position = a.position := by
  cases a <;> rfl

theorem Scalar.sortKey_numeric (texts : Texts) (ha : a.isNumeric = true) : a.sortKey texts = (7, .tuple [Key.int 0, .atom a.orderAtom]) := by
  unfold Scalar.isNumeric at ha
  split at ha <;> cases ha <;> rfl

theorem numeric_cmp (texts : Texts) (ha : a.isNumeric = true) (hb : b.isNumeric = true) :
    Key.cmp (ranked (a.sortKey texts)) (ranked (b.sortKey texts)) = some (numericCompare a b) := by
  rw [Scalar.sortKey_numeric texts ha, Scalar.sortKey_numeric texts hb, ranked_cmp_same,
    numeric_isSome (Scalar.orderAtom_orderable ha hb), Scalar.orderAtom_position, Scalar.orderAtom_position]
  rfl

theorem Scalar.isNumeric_of_rank (texts : Texts) (h : (a.sortKey texts).1 = 7) : a.isNumeric = true := by
  cases a <;> first | rfl | simp [Scalar.sortKey] at h

theorem Scalar.sortKey_isSome (texts : Texts) (a b : Scalar) :
    (Key.cmp (ranked (a.sortKey texts)) (ranked (b.sortKey texts))).isSome := by
  by_cases hnumeric : (a.sortKey texts).1 = 7 ∧ (b.sortKey texts).1 = 7
  · rw [numeric_cmp texts (Scalar.isNumeric_of_rank texts hnumeric.1) (Scalar.isNumeric_of_rank texts hnumeric.2)]
    rfl
  · apply ranked_cmp_isSome
    intro hrank
    cases a <;> cases b <;> simp only [Scalar.sortKey] at hrank ⊢ <;> first
      | exact absurd ⟨rfl, rfl⟩ hnumeric
      | omega
      | exact Key.cmp_int_isSome _ _
      | exact Key.cmp_str_isSome _ _
      | exact temporalOrderKey_isSome _ _
      | rfl

/-! ## Equality of scalars -/

theorem Scalar.isNumeric_of_isArithmetic (h : a.isArithmetic = true) : a.isNumeric = true := by
  unfold Scalar.isArithmetic at h
  split at h <;> cases h <;> rfl

theorem Key.cmp_scalar (a b : Scalar) : Key.cmp (.atom (.scalar a)) (.atom (.scalar b)) = Scalar.cmp a b :=
  Nested.compare_atom _ _

theorem Scalar.freeze_form (h : a.isDecimal = false) : (a.isArithmetic = true ∧ ∃ x, a.freeze = .tuple [Key.tag "number", x]) ∨
      (a.isArithmetic = false ∧ (a.freeze = .tuple [Key.tag "bytes", .atom (.scalar a)] ∨
        a.freeze = .tuple [Key.tag "scalar", Key.tag a.className, .atom (.scalar a)])) := by
  cases a with
  | int n => exact .inl ⟨rfl, _, rfl⟩
  | double x => exact .inl ⟨rfl, _, rfl⟩
  | decimal d => cases h
  | bytes b => exact .inr ⟨rfl, .inl rfl⟩
  | _ => exact .inr ⟨rfl, .inr rfl⟩

theorem Scalar.cmp_of_freeze (ha : a.isDecimal = false) (hb : b.isDecimal = false)
    (hnot : ¬ (a.isArithmetic = true ∧ b.isArithmetic = true)) (h : Key.cmp a.freeze b.freeze = some .eq) :
    Scalar.cmp a b = some .eq ∧ a.isArithmetic = false ∧ b.isArithmetic = false := by
  have hnumberBytes : text "number" ≠ text "bytes" := by decide
  have hnumberScalar : text "number" ≠ text "scalar" := by decide
  have hbytesScalar : text "bytes" ≠ text "scalar" := by decide
  obtain ⟨haa, x, hfa⟩ | ⟨haa, hfa | hfa⟩ := Scalar.freeze_form ha <;>
    obtain ⟨hba, y, hfb⟩ | ⟨hba, hfb | hfb⟩ := Scalar.freeze_form hb <;>
    rw [hfa, hfb] at h <;> obtain ⟨htag, hrest⟩ := Key.cmp_tag_eq h
  · exact absurd ⟨haa, hba⟩ hnot
  · exact absurd htag hnumberBytes
  · exact absurd htag hnumberScalar
  · exact absurd htag.symm hnumberBytes
  · obtain ⟨hatom, -⟩ := Key.cmp_cons_eq.mp hrest
    exact ⟨by rwa [Key.cmp_scalar] at hatom, haa, hba⟩
  · exact absurd htag hbytesScalar
  · exact absurd htag.symm hnumberScalar
  · exact absurd htag.symm hbytesScalar
  · obtain ⟨hatom, -⟩ := Key.cmp_cons_eq.mp (Key.cmp_tag_eq hrest).2
    exact ⟨by rwa [Key.cmp_scalar] at hatom, haa, hba⟩

theorem Scalar.eq_of_position (ha : a.family = some .number) (hb : b.family = some .number)
    (haa : a.isArithmetic = false) (hba : b.isArithmetic = false) (h : a.position = b.position) : a = b := by
  unfold Scalar.family at ha hb
  split at ha <;> cases ha <;> cases haa
  split at hb <;> cases hb <;> cases hba
  next p _ q => cases p <;> cases q <;> simp [Scalar.position] at h ⊢

theorem Scalar.equal_sortKey (texts : Texts)
    (hvector : ∀ v w, a = .vector v → b = .vector w → v.values.map Double.position = w.values.map Double.position → v.values = w.values)
    (h : a.equal b = true) : Key.cmp (ranked (a.sortKey texts)) (ranked (b.sortKey texts)) = some .eq := by
  unfold Scalar.equal at h
  split at h
  next =>
    simp only [Bool.and_eq_true, beq_iff_eq] at h
    rw [numeric_cmp texts h.1.1 h.1.2, h.2]
  next hdecimal =>
    obtain ⟨hda, hdb⟩ := Bool.or_eq_false_iff.mp (Bool.eq_false_iff.mpr hdecimal)
    split at h
    next harith =>
      obtain ⟨haa, hba⟩ := Bool.and_eq_true_iff.mp harith
      rw [numeric_cmp texts (Scalar.isNumeric_of_isArithmetic haa) (Scalar.isNumeric_of_isArithmetic hba), eq_of_beq h]
    next harith =>
      rw [Bool.and_eq_true] at harith
      obtain ⟨hcmp, haa, hba⟩ := Scalar.cmp_of_freeze hda hdb harith (Key.same_iff.mp h)
      obtain rfl | ⟨hfa, hfb, hpos⟩ | ⟨v, w, rfl, rfl, hvalues, hspace, hdtype⟩ := Scalar.eq_of_cmp hcmp
      · exact Key.cmp_refl _
      · rw [Scalar.eq_of_position hfa hfb haa hba hpos]
        exact Key.cmp_refl _
      · have hvw : v = w := by
          cases v
          simp_all
        rw [hvw]
        exact Key.cmp_refl _

/-! ## Order of scalars -/

def Answers (op : Operator) (cmp : Option Ordering) (t : Truth) : Prop :=
  t = .unknown ∨ ∃ o, cmp = some o ∧ t = .of (op.holds o)

theorem temporalPredicate_answers (op : Operator) (a b : Temporal) :
    Answers op (Key.cmp (temporalOrderKey a) (temporalOrderKey b)) (temporalPredicate op a b) := by
  unfold temporalPredicate
  split
  · exact .inl rfl
  · split
    · split
      next heq =>
        right
        obtain ⟨rfl, hop⟩ := heq
        refine ⟨.eq, Key.cmp_refl _, ?_⟩
        obtain rfl | rfl := hop <;> rfl
      next => exact .inl rfl
    · split
      next o ho => exact .inr ⟨o, ho, rfl⟩
      next => exact .inl rfl

theorem Scalar.comparable_cmp (texts : Texts) (h : a.comparable b = true) :
    Key.cmp (ranked (a.sortKey texts)) (ranked (b.sortKey texts)) = some (numericCompare a.comparand b.comparand) := by
  unfold Scalar.comparable at h
  split at h
  next s t =>
    show Key.cmp (ranked (5, Key.str s)) (ranked (5, Key.str t)) = _
    rw [ranked_cmp_same, Key.cmp_str]
    rfl
  next s t =>
    show Key.cmp (ranked (10, _)) (ranked (10, _)) = _
    rw [ranked_cmp_same, Key.cmp_scalar]
    rfl
  next p q =>
    show Key.cmp (ranked (6, Key.int p.toNat)) (ranked (6, Key.int q.toNat)) = _
    cases p <;> cases q <;> rfl
  next s t =>
    show Key.cmp (ranked (9, Key.int s.micros)) (ranked (9, Key.int t.micros)) = _
    rw [ranked_cmp_same, Key.cmp_int]
    rfl
  next =>
    obtain ⟨ha, hb⟩ := Bool.and_eq_true_iff.mp h
    rw [numeric_cmp texts (Scalar.isNumeric_of_isArithmetic ha) (Scalar.isNumeric_of_isArithmetic hb)]
    unfold Scalar.isArithmetic at ha hb
    split at ha <;> cases ha <;> split at hb <;> cases hb <;> rfl

theorem Scalar.ordered_answers (texts : Texts) (op : Operator) (a b : Scalar) :
    Answers op (Key.cmp (ranked (a.sortKey texts)) (ranked (b.sortKey texts))) (a.ordered op b) := by
  unfold Scalar.ordered
  split
  next =>
    split
    next hnumeric =>
      obtain ⟨ha, hb⟩ := Bool.and_eq_true_iff.mp hnumeric
      exact .inr ⟨_, numeric_cmp texts ha hb, rfl⟩
    next => exact .inl rfl
  next =>
    split
    next a b _ =>
      rw [show (Scalar.temporal a).sortKey texts = (8, temporalOrderKey a) from rfl,
        show (Scalar.temporal b).sortKey texts = (8, temporalOrderKey b) from rfl, ranked_cmp_same]
      exact temporalPredicate_answers op a b
    next => exact .inl rfl
    next => exact .inl rfl
    next =>
      split
      next hcomparable => exact .inr ⟨_, Scalar.comparable_cmp texts hcomparable, rfl⟩
      next => exact .inl rfl

end Grafx.Query
