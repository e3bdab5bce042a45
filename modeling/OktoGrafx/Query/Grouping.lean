import OktoGrafx.Query.KeyOrder

/-! `=` against the keys that DISTINCT and GROUP BY collapse rows by. -/

namespace Grafx.Query

open List NestedTuple
open Key (cmp_cons_eq cmp_refl coherent same_iff)
open Scalar (position orderable eq_of_cmp)

variable {d : DecimalValue} {a b : Scalar}

/-! ## Numbers -/

def IsFloat (q : ℚ) : Prop :=
  ∃ m e : ℤ, m.natAbs < 2 ^ 53 ∧ -1074 ≤ e ∧ e ≤ 971 ∧ q = m * (2 : ℚ) ^ e

theorem isDouble_of_isFloat (hden : d.ratio.den ≠ 1) (h : IsFloat d.ratio) : isDouble d.ratio = true := by
  obtain ⟨m, e, hm, -, -, heq⟩ := h
  have hneg : e < 0 := by
    by_contra hpos
    obtain ⟨n, rfl⟩ := Int.eq_ofNat_of_zero_le (not_lt.mp hpos)
    apply hden
    rw [heq, zpow_natCast]
    exact_mod_cast Rat.den_intCast (m * 2 ^ n)
  obtain ⟨n, hn⟩ := Int.eq_ofNat_of_zero_le (Int.neg_nonneg.mpr hneg.le)
  have hquotient : d.ratio = (m : ℚ) / ((2 ^ n : ℤ) : ℚ) := by
    rw [heq, show e = -(n : ℤ) by omega, zpow_neg, zpow_natCast]
    push_cast
    rfl
  have hdecimal : d.ratio = (d.coefficient : ℚ) / ((10 ^ d.scale : ℤ) : ℚ) := by
    push_cast
    rfl
  obtain ⟨k, -, hk⟩ : ∃ k ≤ n, d.ratio.den = 2 ^ k := by
    apply (Nat.dvd_prime_pow Nat.prime_two).mp
    have hdvd := Rat.den_dvd m (2 ^ n)
    rw [Rat.divInt_eq_div, ← hquotient] at hdvd
    exact_mod_cast hdvd
  have hsmall : d.ratio.den ≤ 10 ^ 38 := by
    have hdvd := Rat.den_dvd d.coefficient (10 ^ d.scale)
    rw [Rat.divInt_eq_div, ← hdecimal] at hdvd
    exact (Nat.le_of_dvd (by positivity) (by exact_mod_cast hdvd)).trans
      (Nat.pow_le_pow_right (by decide) (d.scale_le.trans d.precision_le))
  have hk' : k < 1024 := by
    by_contra hlarge
    have := (Nat.pow_le_pow_right (by decide : 0 < 2) (show 128 ≤ k by omega)).trans (hk ▸ hsmall)
    exact absurd this (by decide)
  have hnum : d.ratio.num.natAbs < 2 ^ 53 := by
    have hdvd := Rat.num_dvd m (by positivity : (2 ^ n : ℤ) ≠ 0)
    rw [Rat.divInt_eq_div, ← hquotient] at hdvd
    have hm' : m ≠ 0 := by
      rintro rfl
      exact hden (by rw [hquotient, Int.cast_zero, zero_div]; rfl)
    exact (Nat.le_of_dvd (Int.natAbs_pos.mpr hm') (Int.natAbs_dvd_natAbs.mpr hdvd)).trans_lt hm
  simp only [isDouble, Bool.and_eq_true, any_eq_true, mem_range, beq_iff_eq, decide_eq_true_eq]
  exact ⟨⟨k, hk', hk⟩, 0, by decide, Nat.mod_one _, by rwa [pow_zero, Nat.div_one]⟩

namespace Scalar

def Genuine (s : Scalar) : Prop := ∀ q, s = .double (.finite q) → IsFloat q

theorem tagged_number_cmp (s : String) (ha : a.family = some .number) (hb : b.family = some .number) :
    Key.cmp (.tuple [Key.tag s, .atom (.scalar a)]) (.tuple [Key.tag s, .atom (.scalar b)]) = some .eq ↔ a.position = b.position := by
  have hcmp : Scalar.cmp a b = some (compare a.position b.position) := if_pos (by simp [orderable, ha, hb])
  rw [cmp_cons_eq, cmp_cons_eq, Key.cmp_scalar, hcmp, Option.some.injEq, Std.LawfulEqCmp.compare_eq_iff_eq]
  exact ⟨fun h => h.2.1, fun h => ⟨cmp_refl _, h, cmp_refl _⟩⟩

section
variable (ha : a.isNumeric = true)
include ha

theorem freeze_numeric : (∃ s, a.freeze = .tuple [Key.tag "number", .atom (.scalar s)] ∧ s.family = some .number ∧ s.position = a.position) ∨
    ∃ d, a = .decimal d ∧ d.ratio.den ≠ 1 ∧ isDouble d.ratio = false ∧
      a.freeze = .tuple [Key.tag "decimal", Key.int d.ratio.num, Key.int d.ratio.den] := by
  have hint : ∀ {q : ℚ}, q.den = 1 → position (.int q.num) = [0, q] := by
    intro q hq
    rw [position, Rat.coe_int_num_of_den_eq_one hq]
  cases a with
  | int n => exact .inl ⟨.int n, rfl, rfl, rfl⟩
  | double x =>
    refine .inl ⟨x.frozen, rfl, ?_⟩
    cases x with
    | finite q =>
      rw [Double.frozen]
      split
      next hq => exact ⟨rfl, hint hq⟩
      next => exact ⟨rfl, rfl⟩
    | _ => exact ⟨rfl, by simp [Double.frozen, position, Double.position]⟩
  | decimal d =>
    show (∃ s, decimalGroupKey d = _ ∧ _) ∨ ∃ d', _ ∧ _ ∧ _ ∧ decimalGroupKey d = _
    unfold decimalGroupKey
    split
    next hq => exact .inl ⟨_, rfl, rfl, hint hq⟩
    next hden =>
      split
      next => exact .inl ⟨_, rfl, rfl, rfl⟩
      next hdouble => exact .inr ⟨d, rfl, hden, Bool.eq_false_iff.mpr hdouble, rfl⟩
  | _ => cases ha

theorem position_of_decimal (hgenuine : a.Genuine) (hden : d.ratio.den ≠ 1) (hdouble : isDouble d.ratio = false) (h : a.position = [0, d.ratio]) :
    ∃ d', a = .decimal d' ∧ d'.ratio = d.ratio := by
  cases a with
  | int n =>
    have hratio : (n : ℚ) = d.ratio := by simpa [position] using h
    exact absurd (by rw [← hratio]; exact Rat.den_intCast n) hden
  | double x =>
    cases x with
    | finite q =>
      have hratio : q = d.ratio := by simpa [position, Double.position] using h
      rw [isDouble_of_isFloat hden (hratio ▸ hgenuine q rfl)] at hdouble
      cases hdouble
    | negativeZero =>
      have hratio : 0 = d.ratio := by simpa [position, Double.position] using h
      exact absurd (by rw [← hratio]; rfl) hden
    | _ => simp [position, Double.position] at h
  | decimal d' => exact ⟨d', rfl, by simpa [position] using h⟩
  | _ => cases ha

theorem freeze_cmp_numeric (hb : b.isNumeric = true) (hga : a.Genuine)
    (hgb : b.Genuine) : Key.cmp a.freeze b.freeze = some .eq ↔ a.position = b.position := by
  have htags : text "number" ≠ text "decimal" := by decide
  obtain ⟨s, hfa, hsa, hpa⟩ | ⟨d, rfl, hden, hdouble, hfa⟩ := freeze_numeric ha <;>
    obtain ⟨t, hfb, htb, hpb⟩ | ⟨d', rfl, hden', hdouble', hfb⟩ := freeze_numeric hb <;> rw [hfa, hfb]
  · rw [tagged_number_cmp _ hsa htb, hpa, hpb]
  · refine ⟨fun h => absurd (Key.cmp_tag_eq h).1 htags, fun h => ?_⟩
    obtain ⟨d'', rfl, hratio⟩ := position_of_decimal ha hga hden' hdouble' h
    have hself : (Scalar.decimal d'').freeze = decimalGroupKey d'' := rfl
    rw [hself, decimalGroupKey, hratio, if_neg hden', if_neg (by simp [hdouble'])] at hfa
    simp [Key.tag, Key.str, htags.symm] at hfa
  · refine ⟨fun h => absurd (Key.cmp_tag_eq h).1.symm htags, fun h => ?_⟩
    obtain ⟨d'', rfl, hratio⟩ := position_of_decimal hb hgb hden hdouble h.symm
    have hself : (Scalar.decimal d'').freeze = decimalGroupKey d'' := rfl
    rw [hself, decimalGroupKey, hratio, if_neg hden, if_neg (by simp [hdouble])] at hfb
    simp [Key.tag, Key.str, htags.symm] at hfb
  · rw [cmp_cons_eq, cmp_cons_eq, cmp_cons_eq, Key.cmp_int_eq, Key.cmp_int_eq]
    simp only [position, cons.injEq, and_true, true_and]
    constructor
    · rintro ⟨-, hnum, hden, -⟩
      exact Rat.ext hnum (by exact_mod_cast hden)
    · intro h
      rw [h]
      exact ⟨cmp_refl _, rfl, rfl, cmp_refl _⟩

theorem equal_numeric (hb : b.isNumeric = true) : a.equal b = true ↔ a.position = b.position := by
  have hcompare : (numericCompare a b == .eq) = true ↔ a.position = b.position := by
    rw [beq_iff_eq, numericCompare, Std.LawfulEqCmp.compare_eq_iff_eq]
  unfold Scalar.equal
  split
  next => rw [ha, hb, Bool.true_and, Bool.true_and, hcompare]
  next hdecimal =>
    have harith : a.isArithmetic = true ∧ b.isArithmetic = true := by
      cases a <;> cases b <;> simp_all [Scalar.isDecimal, Scalar.isNumeric, Scalar.isArithmetic]
    rw [harith.1, harith.2, Bool.and_self, if_pos rfl, hcompare]

end

theorem equal_iff_freeze (hga : a.Genuine) (hgb : b.Genuine) : a.equal b = true ↔ Key.cmp a.freeze b.freeze = some .eq := by
  by_cases hnumeric : a.isNumeric = true ∧ b.isNumeric = true
  · rw [equal_numeric hnumeric.1 hnumeric.2, freeze_cmp_numeric hnumeric.1 hnumeric.2 hga hgb]
  have hnot : ¬ (a.isArithmetic = true ∧ b.isArithmetic = true) := fun h =>
    hnumeric ⟨isNumeric_of_isArithmetic h.1, isNumeric_of_isArithmetic h.2⟩
  unfold Scalar.equal
  split
  next hdecimal =>
    -- one of them is a decimal, and the other is not even a number
    constructor
    · intro h
      simp only [Bool.and_eq_true] at h
      exact absurd h.1 hnumeric
    · intro h
      have hform : ∀ {c : Scalar}, c.isNumeric = false → ∃ xs, c.freeze = .tuple (Key.tag "bytes" :: xs) ∨
          c.freeze = .tuple (Key.tag "scalar" :: xs) := by
        intro c hc
        cases c with
        | bytes b => exact ⟨_, .inl rfl⟩
        | int n => cases hc
        | double x => cases hc
        | decimal d => cases hc
        | _ => exact ⟨_, .inr rfl⟩
      have hform' : ∀ {c : Scalar}, c.isNumeric = true → ∃ xs, c.freeze = .tuple (Key.tag "number" :: xs) ∨
          c.freeze = .tuple (Key.tag "decimal" :: xs) := by
        intro c hc
        obtain ⟨s, hs, -⟩ | ⟨d, -, -, -, hd⟩ := freeze_numeric hc
        · exact ⟨_, .inl hs⟩
        · exact ⟨_, .inr hd⟩
      have hapart : ∀ {c e : Scalar}, c.isNumeric = true → e.isNumeric = false → Key.cmp c.freeze e.freeze ≠ some .eq := by
        intro c e hc he hsame
        obtain ⟨xs, hxs | hxs⟩ := hform' hc <;> obtain ⟨ys, hys | hys⟩ := hform he <;> rw [hxs, hys] at hsame <;>
          exact absurd (text_injective (Key.cmp_tag_eq hsame).1) (by decide)
      have hone : ∀ {c : Scalar}, c.isDecimal = true → c.isNumeric = true := by
        intro c hc
        cases c <;> first | rfl | cases hc
      obtain hd | hd := (Bool.or_eq_true _ _).mp hdecimal
      · exact absurd h (hapart (hone hd) (Bool.eq_false_iff.mpr fun hb => hnumeric ⟨hone hd, hb⟩))
      · exact absurd ((coherent _).symm h) (hapart (hone hd) (Bool.eq_false_iff.mpr fun ha => hnumeric ⟨ha, hone hd⟩))
  next => rw [if_neg (by simpa using hnot), same_iff]

end Scalar

/-! ## Values without null -/

def Told (texts : Texts) (keys : Set MapKey) : Prop :=
  ∀ k ∈ keys, ∀ l ∈ keys, MapKey.cmp k l = some .eq ↔ texts.strKey k = texts.strKey l

inductive Plain (keys : Set MapKey) : Value → Prop
  | scalar {s : Scalar} (known : s ≠ .null) (genuine : s.Genuine) : Plain keys (.scalar s)
  | list {items : List Value} (each : ∀ v ∈ items, Plain keys v) : Plain keys (.list items)
  | map {items : List (MapKey × Value)} (known : ∀ e ∈ items, e.1 ∈ keys)
      (distinct : items.Pairwise fun e f => MapKey.cmp e.1 f.1 ≠ some .eq) (each : ∀ e ∈ items, Plain keys e.2) : Plain keys (.map items)
  | row (b : RowBinding) : Plain keys (.row b)
  | path (nodes relationships : List RowBinding) : Plain keys (.path nodes relationships)

section Grouping
variable {texts : Texts} {keys : Set MapKey} {items xs ys : List (MapKey × Value)} {k : MapKey} {e f : MapKey × Value} {v w : Value}

variable (texts) in
def frozen (v : Value) : Key := (freeze texts v).getD (Key.int 0)

variable (texts) in
def frozenEntry (e : MapKey × Value) : Key := .tuple [Key.str (texts.strKey e.1), frozen texts e.2]

theorem frozen_of_some {k : Key} (h : freeze texts v = some k) : frozen texts v = k := by
  rw [frozen, h, Option.getD_some]

theorem freeze_eq (h : (freeze texts v).isSome) : freeze texts v = some (frozen texts v) := by
  obtain ⟨k, hk⟩ := Option.isSome_iff_exists.mp h
  rw [frozen_of_some hk, hk]

theorem freezeItems_eq {items : List Value} (h : ∀ v ∈ items, (freeze texts v).isSome) :
    freezeItems texts items = some (items.map (frozen texts)) := by
  induction items with
  | nil => rw [freezeItems, map_nil]
  | cons v vs ih =>
    obtain ⟨hv, hvs⟩ := forall_mem_cons.mp h
    simp [freezeItems, freeze_eq hv, ih hvs]

theorem freezeEntries_eq (h : ∀ e ∈ items, (freeze texts e.2).isSome) : freezeEntries texts items = some (items.map (frozenEntry texts)) := by
  induction items with
  | nil => rw [freezeEntries, map_nil]
  | cons e items ih =>
    obtain ⟨he, hitems⟩ := forall_mem_cons.mp h
    simp [freezeEntries, freeze_eq he, ih hitems, frozenEntry]

theorem frozenEntry_cmp : Key.cmp (frozenEntry texts e) (frozenEntry texts f) = some .eq ↔
    texts.strKey e.1 = texts.strKey f.1 ∧ Key.cmp (frozen texts e.2) (frozen texts f.2) = some .eq := by
  rw [frozenEntry, frozenEntry, cmp_cons_eq, cmp_cons_eq, Key.cmp_str_eq]
  exact and_congr_right fun _ => and_iff_left (cmp_refl _)

theorem frozenEntry_isSome (h : texts.strKey e.1 = texts.strKey f.1 → (Key.cmp (frozen texts e.2) (frozen texts f.2)).isSome) :
    (Key.cmp (frozenEntry texts e) (frozenEntry texts f)).isSome := by
  obtain ⟨o, ho⟩ := Option.isSome_iff_exists.mp (Key.cmp_str_isSome (texts.strKey e.1) (texts.strKey f.1))
  rw [frozenEntry, frozenEntry, Key.cmp_pair, ho, Option.bind_some]
  split
  next heq => exact h (Key.cmp_str_eq.mp (heq ▸ ho))
  next => rfl

section
variable (htold : Told texts keys)
include htold

theorem Told.entry_eq (known : ∀ e ∈ items, e.1 ∈ keys) (distinct : items.Pairwise fun e f => MapKey.cmp e.1 f.1 ≠ some .eq) (he : e ∈ items)
    (hf : f ∈ items) (htext : texts.strKey e.1 = texts.strKey f.1) : e = f :=
  eq_of_keys_eq distinct he hf ((htold _ (known e he) _ (known f hf)).mpr htext)

theorem freeze_map (known : ∀ e ∈ items, e.1 ∈ keys)
    (distinct : items.Pairwise fun e f => MapKey.cmp e.1 f.1 ≠ some .eq) (h : ∀ e ∈ items, (freeze texts e.2).isSome) :
    ∃ es, freeze texts (.map items) = some (.tuple [Key.tag "map", .tuple es]) ∧
      es.Perm (items.map (frozenEntry texts)) ∧ Ascends Key.cmp es := by
  have htotal : TotalOn Key.cmp {k | k ∈ items.map (frozenEntry texts)} := by
    intro x hx y hy
    obtain ⟨e, he, rfl⟩ := mem_map.mp hx
    obtain ⟨f, hf, rfl⟩ := mem_map.mp hy
    apply frozenEntry_isSome
    intro htext
    rw [htold.entry_eq known distinct he hf htext, cmp_refl]
    rfl
  have hne : (items.map (frozenEntry texts)).Pairwise fun x y => Key.cmp x y ≠ some .eq := by
    rw [pairwise_map]
    apply distinct.imp_of_mem
    intro e f he hf hkey heq
    exact hkey ((htold _ (known e he) _ (known f hf)).mpr (frozenEntry_cmp.mp heq).1)
  obtain ⟨es, hes, hperm, hasc⟩ := sorted_spec htotal coherent (fun _ hx => hx) hne
  refine ⟨es, ?_, hperm, hasc⟩
  simp [freeze, freezeEntries_eq h, hes]

theorem Plain.freeze_isSome (h : Plain keys v) : (freeze texts v).isSome := by
  induction h with
  | scalar => rw [freeze]; rfl
  | row => rw [freeze]; rfl
  | path => rw [freeze]; rfl
  | list _ ih => simp [freeze, freezeItems_eq ih]
  | map known distinct _ ih =>
    obtain ⟨es, hes, -⟩ := freeze_map htold known distinct ih
    rw [hes]
    rfl

end

theorem frozen_list {items : List Value} (h : ∀ v ∈ items, (freeze texts v).isSome) :
    frozen texts (.list items) = .tuple [Key.tag "list", .tuple (items.map (frozen texts))] := by
  apply frozen_of_some
  simp [freeze, freezeItems_eq h]

/-! ## Equality and keys -/

theorem queryEqualItems_of_forall₂ {xs ys : List Value} (h : List.Forall₂ (fun x y => queryEqual texts x y = some .yes) xs ys) :
    queryEqualItems texts xs ys = some .yes := by
  induction h with
  | nil => rw [queryEqualItems]; simp
  | cons hxy _ ih => simp [queryEqualItems, ih, hxy, Truth.and]

theorem queryEqualEntries_of_lookup (h : ∀ e ∈ xs, ∃ y, lookup e.1 ys = some y ∧ queryEqual texts e.2 y = some .yes) :
    queryEqualEntries texts xs ys = some .yes := by
  induction xs with
  | nil => rw [queryEqualEntries]
  | cons x xs ih =>
    obtain ⟨⟨y, hy, hxy⟩, hxs⟩ := forall_mem_cons.mp h
    obtain ⟨k, x⟩ := x
    simp [queryEqualEntries, ih hxs, hy, hxy, Truth.and]

theorem lookup_of_mem (h : ∃ e ∈ items, MapKey.cmp e.1 k = some .eq) : ∃ v, lookup k items = some v := by
  induction items with
  | nil => simp at h
  | cons e items ih =>
    obtain ⟨l, v⟩ := e
    rw [lookup]
    split
    next => exact ⟨v, rfl⟩
    next hne =>
      obtain ⟨f, hf, heq⟩ := h
      obtain rfl | hf := mem_cons.mp hf
      · exact absurd heq hne
      · exact ih ⟨f, hf, heq⟩

theorem entries_cmp {es fs : List Key} (hpermx : es.Perm (xs.map (frozenEntry texts)))
    (hpermy : fs.Perm (ys.map (frozenEntry texts))) (hascx : Ascends Key.cmp es) (hascy : Ascends Key.cmp fs)
    (htextx : ∀ e ∈ xs, ∀ f ∈ xs, texts.strKey e.1 = texts.strKey f.1 → e = f)
    (htexty : ∀ e ∈ ys, ∀ f ∈ ys, texts.strKey e.1 = texts.strKey f.1 → e = f) :
    Key.cmp (.tuple es) (.tuple fs) = some .eq ↔ xs.length = ys.length ∧
      ∀ x ∈ xs, ∃ y ∈ ys, Key.cmp (frozenEntry texts x) (frozenEntry texts y) = some .eq := by
  have hlengths : es.length = fs.length ↔ xs.length = ys.length := by
    rw [hpermx.length_eq, hpermy.length_eq, length_map, length_map]
  rw [Key.cmp_tuple, lexicographic_eq_iff, ← hlengths]
  constructor
  · intro h
    refine ⟨h.length_eq, fun x hx => ?_⟩
    obtain ⟨hlength, hget⟩ := forall₂_iff_get.mp h
    obtain ⟨i, hi⟩ := get_of_mem (hpermx.mem_iff.mpr (mem_map_of_mem hx))
    have heq := hget i.1 i.2 (hlength ▸ i.2)
    obtain ⟨y, hy, hf⟩ := mem_map.mp (hpermy.mem_iff.mp (get_mem fs ⟨i.1, hlength ▸ i.2⟩))
    rw [← hf, hi] at heq
    exact ⟨y, hy, heq⟩
  · rintro ⟨hlength, hfind⟩
    have hacross : ∀ x ∈ xs, ∀ y ∈ ys, (Key.cmp (frozenEntry texts x) (frozenEntry texts y)).isSome := by
      intro x hx y hy
      apply frozenEntry_isSome
      intro htext
      obtain ⟨y', hy', heq⟩ := hfind x hx
      obtain ⟨htext', hvalue⟩ := frozenEntry_cmp.mp heq
      rw [htexty y hy y' hy' (htext.symm.trans htext'), hvalue]
      rfl
    have hwithin : ∀ items : List (MapKey × Value), (∀ e ∈ items, ∀ f ∈ items, texts.strKey e.1 = texts.strKey f.1 → e = f) →
        ∀ x ∈ items, ∀ y ∈ items, (Key.cmp (frozenEntry texts x) (frozenEntry texts y)).isSome := by
      intro items hitems x hx y hy
      apply frozenEntry_isSome
      intro htext
      rw [hitems x hx y hy htext, cmp_refl]
      rfl
    have htotal : TotalOn Key.cmp {k | k ∈ xs.map (frozenEntry texts) ∨ k ∈ ys.map (frozenEntry texts)} := by
      rintro k (hk | hk) l (hl | hl) <;> obtain ⟨x, hx, rfl⟩ := mem_map.mp hk <;>
        obtain ⟨y, hy, rfl⟩ := mem_map.mp hl
      · exact hwithin xs htextx x hx y hy
      · exact hacross x hx y hy
      · rw [(coherent _).swap, Option.isSome_map]
        exact hacross y hy x hx
      · exact hwithin ys htexty x hx y hy
    have hleft : ∀ e ∈ es, ∃ f ∈ fs, Key.cmp e f = some .eq := by
      intro e he
      obtain ⟨x, hx, rfl⟩ := mem_map.mp (hpermx.mem_iff.mp he)
      obtain ⟨y, hy, heq⟩ := hfind x hx
      exact ⟨_, hpermy.mem_iff.mpr (mem_map_of_mem hy), heq⟩
    have hes : ∀ e ∈ es, e ∈ xs.map (frozenEntry texts) ∨ e ∈ ys.map (frozenEntry texts) := fun e he =>
      .inl (hpermx.mem_iff.mp he)
    have hne : es.Pairwise fun e f => Key.cmp e f ≠ some .eq := hascx.imp (by simp +contextual)
    exact Ascends.forall₂ htotal coherent hes (fun f hf => .inr (hpermy.mem_iff.mp hf)) hascx hascy hleft
      (exists_of_length_eq htotal coherent hes hne hlength hleft)

theorem map_equal_iff (htold : Told texts keys) (knownx : ∀ e ∈ xs, e.1 ∈ keys)
    (knowny : ∀ e ∈ ys, e.1 ∈ keys) (distincty : ys.Pairwise fun e f => MapKey.cmp e.1 f.1 ≠ some .eq)
    (hvalues : ∀ x ∈ xs, ∀ y ∈ ys, queryEqual texts x.2 y.2 = some .yes ↔ Key.cmp (frozen texts x.2) (frozen texts y.2) = some .eq) :
    queryEqual texts (.map xs) (.map ys) = some .yes ↔ xs.length = ys.length ∧
      ∀ x ∈ xs, ∃ y ∈ ys, Key.cmp (frozenEntry texts x) (frozenEntry texts y) = some .eq := by
  have hfound : ∀ x ∈ xs, (∃ y, lookup x.1 ys = some y ∧ queryEqual texts x.2 y = some .yes) ↔
      ∃ y ∈ ys, Key.cmp (frozenEntry texts x) (frozenEntry texts y) = some .eq := by
    intro x hx
    simp only [frozenEntry_cmp]
    constructor
    · rintro ⟨y, hlookup, hyes⟩
      obtain ⟨l, hl, hkey⟩ := lookup_mem hlookup
      exact ⟨(l, y), hl, ((htold _ (knowny _ hl) _ (knownx x hx)).mp hkey).symm, (hvalues x hx _ hl).mp hyes⟩
    · rintro ⟨y, hy, htext, hvalue⟩
      have hkey := (htold _ (knowny y hy) _ (knownx x hx)).mpr htext.symm
      obtain ⟨u, hu⟩ := lookup_of_mem ⟨y, hy, hkey⟩
      obtain ⟨l, hl, hkey'⟩ := lookup_mem hu
      have hsame : (l, u) = y := htold.entry_eq knowny distincty hl hy
        (((htold _ (knowny _ hl) _ (knownx x hx)).mp hkey').trans htext)
      refine ⟨u, hu, ?_⟩
      rw [show u = y.2 from congrArg Prod.snd hsame]
      exact (hvalues x hx y hy).mpr hvalue
  have hequal : queryEqual texts (.map xs) (.map ys) = if sameKeys xs ys then queryEqualEntries texts xs ys else some .no := by
    rw [queryEqual]
  rw [hequal]
  constructor
  · intro h
    split at h
    next hkeys =>
      exact ⟨(sameKeys_iff.mp hkeys).1, fun x hx => (hfound x hx).mp (queryEqualEntries_yes h x hx)⟩
    next => cases h
  · rintro ⟨hlength, hall⟩
    have hkeys : sameKeys xs ys = true := by
      refine sameKeys_iff.mpr ⟨hlength, fun x hx => ?_⟩
      obtain ⟨y, hy, heq⟩ := hall x hx
      exact ⟨y, hy, (htold _ (knowny y hy) _ (knownx x hx)).mpr (frozenEntry_cmp.mp heq).1.symm⟩
    rw [if_pos hkeys]
    exact queryEqualEntries_of_lookup fun x hx => (hfound x hx).mpr (hall x hx)

theorem queryEqual_scalar (ha : a ≠ .null) (hb : b ≠ .null) : queryEqual texts (.scalar a) (.scalar b) = some (.of (a.equal b)) := by
  unfold queryEqual
  split
  next h => exact absurd (Value.scalar.inj h) ha
  next =>
    split
    next h => exact absurd (Value.scalar.inj h) hb
    next h => cases h
    next h => cases h
    next => rw [equal, Option.map_some]

theorem of_eq_yes {b : Bool} : some (Truth.of b) = some .yes ↔ b = true := by
  cases b <;> simp [Truth.of]

theorem Plain.sameKind (htold : Told texts keys) (hv : Plain keys v) (hw : Plain keys w)
    (heq : Key.cmp (frozen texts v) (frozen texts w) = some .eq) : SameKind v w := by
  obtain ⟨s, hs, xs, hxs⟩ := freeze_tag (freeze_eq (hv.freeze_isSome htold))
  obtain ⟨t, ht, ys, hys⟩ := freeze_tag (freeze_eq (hw.freeze_isSome htold))
  rw [hxs, hys] at heq
  cases text_injective (Key.cmp_tag_eq heq).1
  exact SameKind.of_frozenTags hs ht

theorem Plain.equal_iff (htold : Told texts keys) (hv : Plain keys v) (hw : Plain keys w) :
    queryEqual texts v w = some .yes ↔ Key.cmp (frozen texts v) (frozen texts w) = some .eq := by
  have hkind := Plain.sameKind htold hv hw
  have hsome : ∀ {u}, Plain keys u → (freeze texts u).isSome := fun h => h.freeze_isSome htold
  induction hv generalizing w with
  | @scalar a known genuine => cases hw with
    | @scalar b known' genuine' =>
      rw [frozen_of_some (v := .scalar a) (by rw [freeze]), frozen_of_some (v := .scalar b) (by rw [freeze]),
        ← Scalar.equal_iff_freeze genuine genuine', queryEqual_scalar known known', of_eq_yes]
    | _ => exact iff_of_false (fun h => by cases equalForm h) fun h => by cases hkind h
  | row a => cases hw with
    | row b =>
      rw [frozen_of_some (v := .row a) (by rw [freeze]), frozen_of_some (v := .row b) (by rw [freeze]), cmp_cons_eq,
        cmp_cons_eq, ← same_iff (a := bindingIdentity a)]
      have hequal : queryEqual texts (.row a) (.row b) = some (.of (Key.same (bindingIdentity a) (bindingIdentity b))) := by
        simp [queryEqual, equal]
      rw [hequal, of_eq_yes]
      exact ⟨fun h => ⟨cmp_refl _, h, cmp_refl _⟩, fun h => h.2.1⟩
    | _ => exact iff_of_false (fun h => by cases equalForm h) fun h => by cases hkind h
  | path as bs => cases hw with
    | path cs ds =>
      rw [frozen_of_some (v := .path as bs) (by rw [freeze]), frozen_of_some (v := .path cs ds) (by rw [freeze]), ← same_iff]
      have hequal : queryEqual texts (.path as bs) (.path cs ds) = some (.of (Key.same (freezePath as bs) (freezePath cs ds))) := by
        simp [queryEqual, equal, freeze, Value.isDecimal]
      rw [hequal, of_eq_yes]
    | _ => exact iff_of_false (fun h => by cases equalForm h) fun h => by cases hkind h
  | @list xs each ih => cases hw with
    | @list ys each' =>
      rw [frozen_list fun v hv => hsome (each v hv), frozen_list fun v hv => hsome (each' v hv), cmp_cons_eq,
        cmp_cons_eq, Key.cmp_tuple (xs.map _), lexicographic_eq_iff, forall₂_map_left_iff, forall₂_map_right_iff]
      rw [← Pointwise.forall₂_congr fun x hx y hy => ih x hx (each' y hy) (Plain.sameKind htold (each x hx) (each' y hy))]
      constructor
      · intro h
        cases equalForm h with
        | list hyes => exact ⟨cmp_refl _, hyes, cmp_refl _⟩
      · rintro ⟨-, hyes, -⟩
        have hequal : queryEqual texts (.list xs) (.list ys) =
            if xs.length = ys.length then queryEqualItems texts xs ys else some .no := by rw [queryEqual]
        rw [hequal, if_pos hyes.length_eq, queryEqualItems_of_forall₂ hyes]
    | _ => exact iff_of_false (fun h => by cases equalForm h) fun h => by cases hkind h
  | @map xs known distinct each ih => cases hw with
    | @map ys known' distinct' each' =>
      obtain ⟨es, hes, hpermx, hascx⟩ := freeze_map htold known distinct fun e he => hsome (each e he)
      obtain ⟨fs, hfs, hpermy, hascy⟩ := freeze_map htold known' distinct' fun e he => hsome (each' e he)
      rw [frozen_of_some hes, frozen_of_some hfs, cmp_cons_eq, cmp_cons_eq,
        entries_cmp hpermx hpermy hascx hascy (fun e he f hf => htold.entry_eq known distinct he hf)
          (fun e he f hf => htold.entry_eq known' distinct' he hf),
        map_equal_iff htold known known' distinct' fun x hx y hy =>
          ih x hx (each' y hy) (Plain.sameKind htold (each x hx) (each' y hy))]
      exact ⟨fun h => ⟨cmp_refl _, h, cmp_refl _⟩, fun h => h.2.1⟩
    | _ => exact iff_of_false (fun h => by cases equalForm h) fun h => by cases hkind h

/-! ## Keys of scalars -/

theorem Scalar.cmp_eq_trans {c : Scalar} (hab : Scalar.cmp a b = some .eq) (hbc : Scalar.cmp b c = some .eq) : Scalar.cmp a c = some .eq := by
  obtain rfl | ⟨ha, hb, hpos⟩ | ⟨u, v, rfl, rfl, hvalues, hspace, hdtype⟩ := eq_of_cmp hab
  · exact hbc
  · obtain rfl | ⟨-, hc, hpos'⟩ | ⟨v, w, rfl, -⟩ := eq_of_cmp hbc
    · exact hab
    · have horder : a.orderable c = true := by simp [orderable, ha, hc]
      rw [Scalar.cmp, if_pos horder, Option.some.injEq, Std.LawfulEqCmp.compare_eq_iff_eq, hpos, hpos']
    · cases hb
  · obtain rfl | ⟨hb, -⟩ | ⟨v', w, heq, rfl, hvalues', hspace', hdtype'⟩ := eq_of_cmp hbc
    · exact hab
    · cases hb
    · cases heq
      simp [Scalar.cmp, orderable, Scalar.family, Scalar.same, hvalues, hvalues', hspace, hspace', hdtype, hdtype']

def Atom.IsScalar (a : Atom) : Prop := ∃ s, a = .scalar s

theorem Key.eq_trans {x y z : Key} (hx : x.Each Atom.IsScalar) (hy : y.Each Atom.IsScalar) (hz : z.Each Atom.IsScalar)
    (hxy : Key.cmp x y = some .eq) (hyz : Key.cmp y z = some .eq) : Key.cmp x z = some .eq := by
  apply Nested.eq_trans _ hx hy hz hxy hyz
  rintro _ _ _ ⟨a, rfl⟩ ⟨b, rfl⟩ ⟨c, rfl⟩ hab hbc
  exact Scalar.cmp_eq_trans hab hbc

theorem Key.each_scalar (s : Scalar) : Nested.Each Atom.IsScalar (.atom (.scalar s)) := .atom ⟨s, rfl⟩

theorem Key.each_cons {x : Key} {xs : List Key} (hx : x.Each Atom.IsScalar) (hxs : Nested.Each Atom.IsScalar (.tuple xs)) :
    Nested.Each Atom.IsScalar (.tuple (x :: xs)) := by
  cases hxs with
  | tuple h => exact .tuple (forall_mem_cons.mpr ⟨hx, h⟩)

theorem Key.each_nil : Nested.Each Atom.IsScalar (.tuple []) := .tuple (by simp)

theorem bindingIdentity_each (b : RowBinding) : (bindingIdentity b).Each Atom.IsScalar := by
  obtain ⟨s, ns, h⟩ := bindingIdentity_form b
  rw [h]
  apply Key.each_cons (Key.each_scalar _)
  exact .tuple (forall_mem_map.mpr fun n _ => Key.each_scalar _)

theorem Scalar.freeze_each (s : Scalar) : s.freeze.Each Atom.IsScalar := by
  have hpair : ∀ a b, Nested.Each Atom.IsScalar (.tuple [.atom (.scalar a), .atom (.scalar b)]) := fun a b =>
    Key.each_cons (Key.each_scalar a) (Key.each_cons (Key.each_scalar b) Key.each_nil)
  have htriple : ∀ a b c, Nested.Each Atom.IsScalar (.tuple [.atom (.scalar a), .atom (.scalar b), .atom (.scalar c)]) :=
    fun a b c => Key.each_cons (Key.each_scalar a) (hpair b c)
  cases s with
  | decimal d =>
    show (decimalGroupKey d).Each _
    unfold decimalGroupKey
    split
    · exact hpair _ _
    · split
      · exact hpair _ _
      · exact htriple _ _ _
  | int n => exact hpair _ _
  | double x => exact hpair _ _
  | bytes b => exact hpair _ _
  | _ => exact htriple _ _ _

theorem Plain.each (htold : Told texts keys) (h : Plain keys v) : (frozen texts v).Each Atom.IsScalar := by
  have hsome : ∀ {u}, Plain keys u → (freeze texts u).isSome := fun h => h.freeze_isSome htold
  induction h with
  | @scalar s =>
    exact s.freeze_each
  | row b =>
    exact Key.each_cons (Key.each_scalar _) (Key.each_cons (bindingIdentity_each b) Key.each_nil)
  | path nodes relationships =>
    have hrows : ∀ bs : List RowBinding, Nested.Each Atom.IsScalar (.tuple (bs.map bindingIdentity)) := fun bs =>
      .tuple (forall_mem_map.mpr fun b _ => bindingIdentity_each b)
    exact Key.each_cons (Key.each_scalar _) (Key.each_cons (hrows _) (Key.each_cons (hrows _) Key.each_nil))
  | list each ih =>
    rw [frozen_list fun v hv => hsome (each v hv)]
    exact Key.each_cons (Key.each_scalar _) (Key.each_cons (.tuple (forall_mem_map.mpr ih)) Key.each_nil)
  | map known distinct each ih =>
    obtain ⟨es, hes, hperm, -⟩ := freeze_map htold known distinct fun e he => hsome (each e he)
    rw [frozen_of_some hes]
    refine Key.each_cons (Key.each_scalar _) (Key.each_cons (.tuple fun e he => ?_) Key.each_nil)
    obtain ⟨x, hx, rfl⟩ := mem_map.mp (hperm.mem_iff.mp he)
    exact Key.each_cons (Key.each_scalar _) (Key.each_cons (ih x hx) Key.each_nil)

/-! ## Rows -/

variable (texts) in
def Grouped (v w : Value) : Prop := ∃ k l, freeze texts v = some k ∧ freeze texts w = some l ∧ k.same l = true

variable (texts) in
def signature (row : List Value) : Option Key := (freezeItems texts row).map .tuple

abbrev Columns := List (Text × Value)

def Columns.sorted (columns : Columns) : Columns := columns.insertionSort fun c d => c.1 ≤ d.1

variable (texts) in
def columnSignature (columns : Columns) : Option Key := do
  let values ← freezeItems texts (columns.sorted.map Prod.snd)
  return .tuple (zipWith (fun column value => .tuple [Key.str column.1, value]) columns.sorted values)

variable (texts) in
def distinctRows (seen : List Key) : List Columns → Option (List Columns)
  | [] => some []
  | row :: rows => do
    let key ← columnSignature texts row
    if seen.any key.same then distinctRows seen rows
    else
      let rest ← distinctRows (key :: seen) rows
      return row :: rest

theorem grouped_iff {k l : Key} (hk : freeze texts v = some k) (hl : freeze texts w = some l) : Grouped texts v w ↔ Key.cmp k l = some .eq := by
  simp [Grouped, hk, hl, same_iff]

theorem Plain.freeze_eq (htold : Told texts keys) (h : Plain keys v) : freeze texts v = some (frozen texts v) :=
  Query.freeze_eq (h.freeze_isSome htold)

theorem Plain.signature_eq (htold : Told texts keys) {row : List Value} (h : ∀ v ∈ row, Plain keys v) :
    signature texts row = some (.tuple (row.map (frozen texts))) := by
  rw [signature, freezeItems_eq fun v hv => (h v hv).freeze_isSome htold, Option.map_some]

variable (texts) in
def columnsKey (columns : Columns) : Key := .tuple (columns.sorted.map fun c => .tuple [Key.str c.1, frozen texts c.2])

theorem Plain.columnSignature_eq (htold : Told texts keys) {columns : Columns} (h : ∀ c ∈ columns, Plain keys c.2) :
    columnSignature texts columns = some (columnsKey texts columns) := by
  have hvalues : freezeItems texts (columns.sorted.map Prod.snd) = some _ :=
    freezeItems_eq (forall_mem_map.mpr fun c hc => (h c ((mem_insertionSort _).mp hc)).freeze_isSome htold)
  simp only [columnSignature, hvalues, Option.bind_eq_bind, Option.bind_some, map_map, zipWith_map_right,
    zipWith_self]
  rfl

theorem Plain.rows_iff (htold : Told texts keys) {r s : List Value} (hr : ∀ v ∈ r, Plain keys v) (hs : ∀ v ∈ s, Plain keys v) :
    List.Forall₂ (fun v w => Key.cmp (frozen texts v) (frozen texts w) = some .eq) r s ↔
      List.Forall₂ (fun v w => queryEqual texts v w = some .yes) r s :=
  Pointwise.forall₂_congr fun v hv w hw => ((hr v hv).equal_iff htold (hs w hw)).symm

variable (texts) in
def SameColumns (r s : Columns) : Prop := List.Forall₂ (fun c d => queryEqual texts c.2 d.2 = some .yes) r s

theorem Plain.columns_iff (htold : Told texts keys) {r s : Columns} (hnames : r.map Prod.fst = s.map Prod.fst)
    (hr : ∀ c ∈ r, Plain keys c.2) (hs : ∀ c ∈ s, Plain keys c.2) :
    Key.cmp (columnsKey texts r) (columnsKey texts s) = some .eq ↔ SameColumns texts r s := by
  -- One list of pairs of columns, which sorting by name moves as a whole.
  obtain ⟨z, rfl, rfl⟩ : ∃ z : List (_ × _), r = z.map Prod.fst ∧ s = z.map Prod.snd := by
    have hlength : r.length = s.length := by simpa using congrArg length hnames
    exact ⟨zip r s, (map_fst_zip hlength.le).symm, (map_snd_zip hlength.ge).symm⟩
  have hname : ∀ p ∈ z, p.1.1 = p.2.1 := by simpa using hnames
  rw [columnsKey, columnsKey, Columns.sorted, Columns.sorted,
    ← map_insertionSort (fun p q => p.1.1 ≤ q.1.1) _ Prod.fst z fun _ _ _ _ => Iff.rfl,
    ← map_insertionSort (fun p q => p.1.1 ≤ q.1.1) _ Prod.snd z fun p hp q hq => by rw [hname p hp, hname q hq],
    Key.cmp_tuple, lexicographic_eq_iff, SameColumns]
  simp only [forall₂_map_left_iff, forall₂_map_right_iff, forall₂_same, mem_insertionSort]
  refine forall_congr' fun p => imp_congr_right fun hp => ?_
  rw [cmp_cons_eq, cmp_cons_eq, Key.cmp_str_eq, (hr _ (mem_map_of_mem hp)).equal_iff htold (hs _ (mem_map_of_mem hp)), hname p hp]
  simp only [cmp_refl, true_and, and_true]

theorem Plain.distinctRows_eq (htold : Told texts keys) (seen : List Columns) {rows : List Columns}
    (h : ∀ r ∈ rows, ∀ c ∈ r, Plain keys c.2) :
    ∃ kept, distinctRows texts (seen.map (columnsKey texts)) rows = some kept ∧ kept.Sublist rows ∧
      (∀ s ∈ seen, ∀ r ∈ kept, Key.cmp (columnsKey texts s) (columnsKey texts r) ≠ some .eq) ∧
      kept.Pairwise (fun s r => Key.cmp (columnsKey texts s) (columnsKey texts r) ≠ some .eq) ∧
      ∀ r ∈ rows, ∃ s, (s ∈ seen ∨ s ∈ kept) ∧ Key.cmp (columnsKey texts s) (columnsKey texts r) = some .eq := by
  induction rows generalizing seen with
  | nil => exact ⟨[], rfl, .slnil, by simp, .nil, by simp⟩
  | cons row rows ih =>
    obtain ⟨hrow, hrows⟩ := forall_mem_cons.mp h
    have hsame : (seen.map (columnsKey texts)).any (columnsKey texts row).same = true ↔
        ∃ s ∈ seen, Key.cmp (columnsKey texts s) (columnsKey texts row) = some .eq := by
      simp only [any_map, any_eq_true, Function.comp_apply, same_iff]
      exact exists_congr fun s => and_congr_right fun _ => ⟨(coherent _).symm, (coherent _).symm⟩
    simp only [distinctRows, Plain.columnSignature_eq htold hrow, Option.bind_eq_bind, Option.bind_some]
    split
    next hany =>
      obtain ⟨kept, hkept, hsub, hapart, hpairs, hall⟩ := ih seen hrows
      obtain ⟨s, hs, heq⟩ := hsame.mp hany
      exact ⟨kept, hkept, hsub.cons _, hapart, hpairs, forall_mem_cons.mpr ⟨⟨s, .inl hs, heq⟩, hall⟩⟩
    next hnone =>
      obtain ⟨kept, hkept, hsub, hapart, hpairs, hall⟩ := ih (row :: seen) hrows
      obtain ⟨hrow', hseen⟩ := forall_mem_cons.mp hapart
      refine ⟨row :: kept, by rw [← map_cons, hkept]; rfl, hsub.cons_cons _, fun s hs => ?_, .cons hrow' hpairs, ?_⟩
      · exact forall_mem_cons.mpr ⟨fun heq => hnone (hsame.mpr ⟨s, hs, heq⟩), hseen s hs⟩
      · refine forall_mem_cons.mpr ⟨⟨row, .inr mem_cons_self, cmp_refl _⟩, fun r hr => ?_⟩
        obtain ⟨s, hs, heq⟩ := hall r hr
        refine ⟨s, ?_, heq⟩
        simp only [mem_cons] at hs ⊢
        tauto

/-! ## Agreement -/

variable (texts keys) in
structure GroupsByEquality : Prop where
  equal_iff : ∀ {v w}, Plain keys v → Plain keys w → (queryEqual texts v w = some .yes ↔ Grouped texts v w)
  refl : ∀ {v}, Plain keys v → queryEqual texts v v = some .yes
  symm : ∀ {v w}, Plain keys v → Plain keys w → queryEqual texts v w = some .yes → queryEqual texts w v = some .yes
  trans : ∀ {u v w}, Plain keys u → Plain keys v → Plain keys w → queryEqual texts u v = some .yes →
    queryEqual texts v w = some .yes → queryEqual texts u w = some .yes
  groups : ∀ {r s}, (∀ v ∈ r, Plain keys v) → (∀ v ∈ s, Plain keys v) → ∃ k l, signature texts r = some k ∧
    signature texts s = some l ∧ (k.same l = true ↔ List.Forall₂ (fun v w => queryEqual texts v w = some .yes) r s)
  distinct : ∀ {names} {rows : List Columns}, (∀ r ∈ rows, r.map Prod.fst = names ∧ ∀ c ∈ r, Plain keys c.2) →
    ∃ kept, distinctRows texts [] rows = some kept ∧ kept.Sublist rows ∧ kept.Pairwise (fun r s => ¬ SameColumns texts r s) ∧
      ∀ r ∈ rows, ∃ s ∈ kept, SameColumns texts s r

theorem Told.groupsByEquality (htold : Told texts keys) : GroupsByEquality texts keys where
  equal_iff hv hw := (hv.equal_iff htold hw).trans (grouped_iff (hv.freeze_eq htold) (hw.freeze_eq htold)).symm
  refl hv := (hv.equal_iff htold hv).mpr (cmp_refl _)
  symm hv hw h := (hw.equal_iff htold hv).mpr ((coherent _).symm ((hv.equal_iff htold hw).mp h))
  trans hu hv hw huv hvw := (hu.equal_iff htold hw).mpr
    (Key.eq_trans (hu.each htold) (hv.each htold) (hw.each htold) ((hu.equal_iff htold hv).mp huv) ((hv.equal_iff htold hw).mp hvw))
  groups hr hs := by
    refine ⟨_, _, Plain.signature_eq htold hr, Plain.signature_eq htold hs, ?_⟩
    rw [same_iff, Key.cmp_tuple, lexicographic_eq_iff, forall₂_map_left_iff, forall₂_map_right_iff,
      Plain.rows_iff htold hr hs]
  distinct := by
    intro names rows h
    obtain ⟨kept, hkept, hsub, -, hpairs, hall⟩ := Plain.distinctRows_eq htold [] fun r hr => (h r hr).2
    have hiff : ∀ {r s}, r ∈ rows → s ∈ rows →
        (Key.cmp (columnsKey texts r) (columnsKey texts s) = some .eq ↔ SameColumns texts r s) := fun hr hs =>
      Plain.columns_iff htold ((h _ hr).1.trans (h _ hs).1.symm) (h _ hr).2 (h _ hs).2
    refine ⟨kept, hkept, hsub, ?_, fun r hr => ?_⟩
    · exact hpairs.imp_of_mem fun hr hs hne hsame => hne ((hiff (hsub.mem hr) (hsub.mem hs)).mpr hsame)
    · obtain ⟨s, hs, heq⟩ := hall r hr
      have hs : s ∈ kept := hs.resolve_left not_mem_nil
      exact ⟨s, hs, (hiff (hsub.mem hs) hr).mp heq⟩

def singleton (k : MapKey) : Value := .map [(k, .scalar (.int 0))]

theorem plain_singleton (hk : k ∈ keys) : Plain keys (singleton k) := by
  refine .map (by simpa using hk) (pairwise_singleton _ _) fun e he => ?_
  rw [mem_singleton.mp he]
  exact .scalar (by simp) (by rintro _ ⟨⟩)

theorem singleton_equal (k l : MapKey) : queryEqual texts (singleton k) (singleton l) = some .yes ↔ MapKey.cmp k l = some .eq := by
  have hequal : queryEqual texts (singleton k) (singleton l) =
      if sameKeys [(k, .scalar (.int 0))] [(l, .scalar (.int 0))] then
        queryEqualEntries texts [(k, .scalar (.int 0))] [(l, .scalar (.int 0))] else some .no := by
    rw [singleton, singleton, queryEqual]
  have hzero : queryEqual texts (.scalar (.int 0)) (.scalar (.int 0)) = some .yes := by
    rfl
  have hkeys : sameKeys [(k, .scalar (.int 0))] [(l, .scalar (.int 0))] = true ↔ MapKey.cmp l k = some .eq := by simp [sameKeys_iff]
  have hcomm : MapKey.cmp l k = some .eq ↔ MapKey.cmp k l = some .eq := ⟨(MapKey.coherent l).symm, (MapKey.coherent k).symm⟩
  rw [hequal, ← hcomm]
  split
  next h =>
    have hlk := hkeys.mp h
    rw [iff_true_right hlk]
    exact queryEqualEntries_of_lookup (by simp [lookup, hlk, hzero])
  next h => simp [← hkeys, h]

theorem singleton_grouped (k l : MapKey) : Grouped texts (singleton k) (singleton l) ↔ texts.strKey k = texts.strKey l := by
  have hfreeze : ∀ k, freeze texts (singleton k) = some (.tuple [Key.tag "map", .tuple [frozenEntry texts (k, .scalar (.int 0))]]) := by
    intro k
    rfl
  simp only [grouped_iff (hfreeze k) (hfreeze l), cmp_cons_eq, frozenEntry_cmp, cmp_refl, and_true, true_and]

theorem grouping_iff : GroupsByEquality texts keys ↔ Told texts keys := by
  refine ⟨fun h k hk l hl => ?_, Told.groupsByEquality⟩
  rw [← singleton_equal, h.equal_iff (plain_singleton hk) (plain_singleton hl), singleton_grouped]

def shownTexts : Texts where
  reprDouble _ := []
  reprBytes _ := []
  strKey
    | .atom (.str s) => s
    | .atom (.int n) => text (toString n)
    | _ => []

/-- The maps `{1: 0}` and `{"1": 0}` differ and are one group. -/
theorem unequal_maps_grouped :
    queryEqual shownTexts (singleton (.atom (.int 1))) (singleton (.atom (.str (text "1")))) ≠ some .yes ∧
      Grouped shownTexts (singleton (.atom (.int 1))) (singleton (.atom (.str (text "1")))) := by
  rw [singleton_grouped, Ne, singleton_equal]
  exact ⟨by decide, rfl⟩

end Grouping

end Grafx.Query
