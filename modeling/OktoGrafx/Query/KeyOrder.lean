import OktoGrafx.Query.KeyCompare
import OktoGrafx.Lib.Pointwise

/-! Sort keys of values: when they can be compared, and when they agree with the language's own `<` and `=`. -/

namespace Grafx.Query

open List NestedTuple
open Option (isSome_iff_exists bind_eq_bind bind_eq_some_iff)

/-- Rows of one database: a table has one kind, and a staged insert is of the table that is bound. -/
def RowBinding.Of (catalog : ℤ → TableKind) (b : RowBinding) : Prop :=
  b.table.kind = catalog b.table.tableId ∧ ∀ r, b.ref = .pending r → r.tableId = b.table.tableId

section Drawn
variable (catalog : ℤ → TableKind) (keys : Set MapKey) (components : Set Double)

inductive Drawn : Value → Prop
  | scalar {s : Scalar} (vector : ∀ v, s = .vector v → ∀ x ∈ v.values, x ∈ components) : Drawn (.scalar s)
  | list {items : List Value} (each : ∀ v ∈ items, Drawn v) : Drawn (.list items)
  | map {items : List (MapKey × Value)} (known : ∀ e ∈ items, e.1 ∈ keys)
      (distinct : items.Pairwise fun e f => MapKey.cmp e.1 f.1 ≠ some .eq) (each : ∀ e ∈ items, Drawn e.2) : Drawn (.map items)
  | row {b : RowBinding} (own : b.Of catalog) : Drawn (.row b)
  | path (nodes relationships : List RowBinding) : Drawn (.path nodes relationships)

end Drawn

section Compare
variable (texts : Texts) {items xs ys : List (MapKey × Value)} {v w : Value} {k : ℤ × Key}

def valueKey (v : Value) : Key := ((sortKey texts v).map ranked).getD (Key.int 0)

def keyedItems (items : List (MapKey × Value)) : List (MapKey × Key) := items.map fun e => (e.1, valueKey texts e.2)

def compareValues (v w : Value) : Option Ordering := do
  let a ← sortKey texts v
  let b ← sortKey texts w
  Key.cmp (ranked a) (ranked b)

variable {texts}

theorem valueKey_of_some (h : sortKey texts v = some k) : valueKey texts v = ranked k := by
  rw [valueKey, h]
  rfl

theorem compareValues_eq (hv : (sortKey texts v).isSome) (hw : (sortKey texts w).isSome) :
    compareValues texts v w = Key.cmp (valueKey texts v) (valueKey texts w) := by
  obtain ⟨a, ha⟩ := isSome_iff_exists.mp hv
  obtain ⟨b, hb⟩ := isSome_iff_exists.mp hw
  rw [compareValues, ha, hb, valueKey_of_some ha, valueKey_of_some hb]
  rfl

theorem sortKeyItems_eq {items : List Value} (h : ∀ v ∈ items, (sortKey texts v).isSome) :
    sortKeyItems texts items = some (items.map (valueKey texts)) := by
  induction items with
  | nil => rw [sortKeyItems, map_nil]
  | cons v vs ih =>
    obtain ⟨hv, hvs⟩ := forall_mem_cons.mp h
    obtain ⟨k, hk⟩ := isSome_iff_exists.mp hv
    rw [sortKeyItems, hk, ih hvs, map_cons, valueKey_of_some hk]
    rfl

theorem sortKeyEntries_eq (h : ∀ e ∈ items, (sortKey texts e.2).isSome) : sortKeyEntries texts items = some (keyedItems texts items) := by
  unfold keyedItems
  induction items with
  | nil => rw [sortKeyEntries, map_nil]
  | cons e items ih =>
    obtain ⟨hv, hvs⟩ := forall_mem_cons.mp h
    obtain ⟨k, hk⟩ := isSome_iff_exists.mp hv
    obtain ⟨l, v⟩ := e
    rw [sortKeyEntries, hk, ih hvs, map_cons, valueKey_of_some hk]
    rfl

theorem sortKey_list {items : List Value} (h : ∀ v ∈ items, (sortKey texts v).isSome) :
    sortKey texts (.list items) = some (3, .tuple (items.map (valueKey texts))) := by
  rw [sortKey, sortKeyItems_eq h]
  rfl

theorem itemCmp_coherent (e : MapKey × Key) : Coherent itemCmp e := Coherent.on Prod.fst (MapKey.coherent e.1)

theorem itemCmp_totalOn {keys : Set MapKey} (h : TotalOn MapKey.cmp keys) : TotalOn itemCmp {e | e.1 ∈ keys} := by
  intro e he f hf
  exact h e.1 he f.1 hf

theorem sortKey_map (texts : Texts) {keys : Set MapKey} (hkeys : TotalOn MapKey.cmp keys)
    (known : ∀ e ∈ items, e.1 ∈ keys) (distinct : items.Pairwise fun e f => MapKey.cmp e.1 f.1 ≠ some .eq)
    (h : ∀ e ∈ items, (sortKey texts e.2).isSome) :
    ∃ entries, sortKey texts (.map items) = some (0, .tuple (entries.map itemKey)) ∧
      entries.Perm (keyedItems texts items) ∧ Ascends itemCmp entries := by
  have hknown : ∀ e ∈ keyedItems texts items, e ∈ {e : MapKey × Key | e.1 ∈ keys} := by
    intro x hx
    obtain ⟨e, he, rfl⟩ := mem_map.mp hx
    exact known e he
  have hdistinct : (keyedItems texts items).Pairwise fun e f => itemCmp e f ≠ some .eq := by
    rw [keyedItems, pairwise_map]
    exact distinct
  obtain ⟨entries, hsorted, hperm, hasc⟩ := sorted_spec (itemCmp_totalOn hkeys) itemCmp_coherent hknown hdistinct
  refine ⟨entries, ?_, hperm, hasc⟩
  rw [sortKey, sortKeyEntries_eq h]
  simp only [bind_eq_bind, Option.bind_some, hsorted]
  rfl

/-! ## No comparison raises -/

inductive SameKind : Value → Value → Prop
  | scalar (a b : Scalar) : SameKind (.scalar a) (.scalar b)
  | list (xs ys : List Value) : SameKind (.list xs) (.list ys)
  | map (xs ys : List (MapKey × Value)) : SameKind (.map xs) (.map ys)
  | row (a b : RowBinding) : SameKind (.row a) (.row b)
  | path (as bs cs ds : List RowBinding) : SameKind (.path as bs) (.path cs ds)

variable (texts) in
def Value.rank : Value → ℤ
  | .scalar s => (s.sortKey texts).1
  | .list _ => 3
  | .map _ => 0
  | .row b => rowRank b.table.kind
  | .path _ _ => 4

theorem sortKey_rank (h : sortKey texts v = some k) : k.1 = v.rank texts := by
  cases v with
  | scalar s =>
    cases h
    rfl
  | row b =>
    cases h
    rfl
  | path as bs =>
    cases h
    rfl
  | list items =>
    rw [sortKey, bind_eq_bind, bind_eq_some_iff] at h
    obtain ⟨ks, -, h⟩ := h
    cases h
    rfl
  | map items =>
    simp only [sortKey, bind_eq_bind, bind_eq_some_iff] at h
    obtain ⟨ks, -, es, -, h⟩ := h
    cases h
    rfl

theorem Scalar.five_le_rank (s : Scalar) : 5 ≤ (s.sortKey texts).1 := by
  cases s <;> simp [Scalar.sortKey]

theorem rowRank_range (k : TableKind) : 1 ≤ rowRank k ∧ rowRank k ≤ 2 := by
  cases k <;> simp [rowRank]

theorem SameKind.of_rank (texts : Texts) (h : v.rank texts = w.rank texts) : SameKind v w := by
  have hscalar := @Scalar.five_le_rank texts
  have hrow := rowRank_range
  cases v <;> cases w <;> first
    | constructor
    | grind [Value.rank]

variable {catalog : ℤ → TableKind} {keys : Set MapKey} {components : Set Double}

theorem Drawn.sortKey_isSome (hkeys : TotalOn MapKey.cmp keys) (h : Drawn catalog keys components v) : (sortKey texts v).isSome := by
  induction h with
  | scalar => rw [sortKey]; rfl
  | row => rw [sortKey]; rfl
  | path => rw [sortKey]; rfl
  | list _ ih => rw [sortKey_list ih]; rfl
  | map known distinct _ ih =>
    obtain ⟨entries, heq, -⟩ := sortKey_map texts hkeys known distinct ih
    rw [heq]
    rfl

theorem itemKey_cmp (e f : MapKey × Key) :
    Key.cmp (itemKey e) (itemKey f) = (MapKey.cmp e.1 f.1).bind fun o => if o = .eq then Key.cmp e.2 f.2 else some o := by
  rw [itemKey, itemKey, Key.cmp_pair]
  congr 1
  exact Nested.compare_map Atom.cmp_scalar e.1 f.1

theorem itemKey_cmp_isSome {e f : MapKey × Key} (hkey : (MapKey.cmp e.1 f.1).isSome) (hvalue : (Key.cmp e.2 f.2).isSome) :
    (Key.cmp (itemKey e) (itemKey f)).isSome := by
  obtain ⟨o, ho⟩ := isSome_iff_exists.mp hkey
  rw [itemKey_cmp, ho, Option.bind_some]
  split
  · exact hvalue
  · rfl

theorem cmp_isSome_of_sameKind (hv : (sortKey texts v).isSome) (hw : (sortKey texts w).isSome)
    (h : SameKind v w → (Key.cmp (valueKey texts v) (valueKey texts w)).isSome) :
    (Key.cmp (valueKey texts v) (valueKey texts w)).isSome := by
  obtain ⟨a, ha⟩ := isSome_iff_exists.mp hv
  obtain ⟨b, hb⟩ := isSome_iff_exists.mp hw
  by_cases hrank : a.1 = b.1
  · apply h
    apply SameKind.of_rank texts
    rw [← sortKey_rank ha, ← sortKey_rank hb, hrank]
  · rw [valueKey_of_some ha, valueKey_of_some hb]
    exact ranked_cmp_isSome_of_ne hrank

theorem valueKey_row (b : RowBinding) : valueKey texts (.row b) = ranked (rowRank b.table.kind, bindingIdentity b) :=
  valueKey_of_some (by rw [sortKey])

theorem valueKey_path (nodes relationships : List RowBinding) :
    valueKey texts (.path nodes relationships) = ranked (4, freezePath nodes relationships) :=
  valueKey_of_some (by rw [sortKey])

theorem valueKey_list {items : List Value} (h : ∀ v ∈ items, (sortKey texts v).isSome) :
    valueKey texts (.list items) = ranked (3, .tuple (items.map (valueKey texts))) :=
  valueKey_of_some (sortKey_list h)

theorem Drawn.cmp_isSome (hkeys : TotalOn MapKey.cmp keys) (hv : Drawn catalog keys components v)
    (hw : Drawn catalog keys components w) : (Key.cmp (valueKey texts v) (valueKey texts w)).isSome := by
  have hsome : ∀ {u}, Drawn catalog keys components u → (sortKey texts u).isSome := Drawn.sortKey_isSome hkeys
  induction hv generalizing w with
  | scalar hvector =>
    apply cmp_isSome_of_sameKind (hsome (.scalar hvector)) (hsome hw)
    rintro ⟨⟩
    exact Scalar.sortKey_isSome texts _ _
  | row own =>
    apply cmp_isSome_of_sameKind (hsome (.row own)) (hsome hw)
    rintro ⟨⟩
    apply ranked_cmp_isSome
    intro
    exact bindingIdentity_isSome _ _
  | path nodes relationships =>
    apply cmp_isSome_of_sameKind (hsome (.path nodes relationships)) (hsome hw)
    rintro ⟨⟩
    rw [valueKey_path, valueKey_path, ranked_cmp_same]
    exact freezePath_isSome _ _ _ _
  | list each ih =>
    apply cmp_isSome_of_sameKind (hsome (.list each)) (hsome hw)
    rintro ⟨⟩
    obtain _ | each' := hw
    rw [valueKey_list fun v hv => hsome (each v hv), valueKey_list fun v hv => hsome (each' v hv), ranked_cmp_same, Key.cmp_tuple]
    apply lexicographic_isSome
    intro x hx y hy
    obtain ⟨v, hv, rfl⟩ := mem_map.mp hx
    obtain ⟨w, hw, rfl⟩ := mem_map.mp hy
    exact ih v hv (each' w hw)
  | map known distinct each ih =>
    apply cmp_isSome_of_sameKind (hsome (.map known distinct each)) (hsome hw)
    rintro ⟨⟩
    obtain _ | _ | ⟨known', distinct', each'⟩ := hw
    obtain ⟨es, hes, hperm, -⟩ := sortKey_map texts hkeys known distinct fun e he => hsome (each e he)
    obtain ⟨fs, hfs, hperm', -⟩ := sortKey_map texts hkeys known' distinct' fun e he => hsome (each' e he)
    rw [valueKey_of_some hes, valueKey_of_some hfs, ranked_cmp_same, Key.cmp_tuple]
    apply lexicographic_isSome
    intro x hx y hy
    obtain ⟨e, he, rfl⟩ := mem_map.mp hx
    obtain ⟨f, hf, rfl⟩ := mem_map.mp hy
    obtain ⟨⟨k, v⟩, hv, rfl⟩ := mem_map.mp (hperm.mem_iff.mp he)
    obtain ⟨⟨l, w⟩, hw, rfl⟩ := mem_map.mp (hperm'.mem_iff.mp hf)
    exact itemKey_cmp_isSome (hkeys k (known _ hv) l (known' _ hw)) (ih _ hv (each' _ hw))

/-! ## Equal values have equal keys -/

def frozenTags : Value → List String
  | .scalar _ => ["number", "decimal", "bytes", "scalar"]
  | .list _ => ["list"]
  | .map _ => ["map"]
  | .row _ => ["binding"]
  | .path _ _ => ["path"]

theorem freeze_tag {k : Key} (h : freeze texts v = some k) : ∃ tag ∈ frozenTags v, ∃ rest, k = .tuple (Key.tag tag :: rest) := by
  cases v with
  | scalar s =>
    cases h
    unfold Scalar.freeze
    split
    · exact ⟨"number", by simp [frozenTags], _, rfl⟩
    · exact ⟨"number", by simp [frozenTags], _, rfl⟩
    · unfold decimalGroupKey
      split
      · exact ⟨"number", by simp [frozenTags], _, rfl⟩
      · split
        · exact ⟨"number", by simp [frozenTags], _, rfl⟩
        · exact ⟨"decimal", by simp [frozenTags], _, rfl⟩
    · exact ⟨"bytes", by simp [frozenTags], _, rfl⟩
    · exact ⟨"scalar", by simp [frozenTags], _, rfl⟩
  | row b =>
    cases h
    exact ⟨"binding", by simp [frozenTags], _, rfl⟩
  | path as bs =>
    cases h
    exact ⟨"path", by simp [frozenTags], _, rfl⟩
  | list items =>
    rw [freeze, bind_eq_bind, bind_eq_some_iff] at h
    obtain ⟨ks, -, h⟩ := h
    cases h
    exact ⟨"list", by simp [frozenTags], _, rfl⟩
  | map items =>
    simp only [freeze, bind_eq_bind, bind_eq_some_iff] at h
    obtain ⟨ks, -, es, -, h⟩ := h
    cases h
    exact ⟨"map", by simp [frozenTags], _, rfl⟩

theorem SameKind.of_frozenTags {tag : String} (hv : tag ∈ frozenTags v) (hw : tag ∈ frozenTags w) : SameKind v w := by
  cases v <;> cases w <;> first
    | constructor
    | simp [frozenTags] at hv hw
      grind

theorem Truth.and_eq_yes {t u : Truth} (h : t.and u = .yes) : t = .yes ∧ u = .yes := by
  cases t <;> cases u <;> cases h
  exact ⟨rfl, rfl⟩

theorem queryEqualItems_yes {xs ys : List Value} (hlength : xs.length = ys.length) (h : queryEqualItems texts xs ys = some .yes) :
    List.Forall₂ (fun x y => queryEqual texts x y = some .yes) xs ys := by
  induction xs generalizing ys with
  | nil =>
    rw [eq_nil_of_length_eq_zero hlength.symm]
    exact .nil
  | cons x xs ih => cases ys with
    | nil => cases hlength
    | cons y ys =>
      simp only [queryEqualItems, bind_eq_bind, bind_eq_some_iff] at h
      obtain ⟨rest, hrest, h⟩ := h
      split at h
      next => cases h
      next =>
        obtain ⟨first, hfirst, h⟩ := bind_eq_some_iff.mp h
        obtain ⟨rfl, rfl⟩ := Truth.and_eq_yes (Option.some.inj h)
        exact .cons hfirst (ih (Nat.succ.inj hlength) hrest)

theorem queryEqualEntries_yes (h : queryEqualEntries texts xs ys = some .yes) :
    ∀ e ∈ xs, ∃ y, lookup e.1 ys = some y ∧ queryEqual texts e.2 y = some .yes := by
  induction xs with
  | nil =>
    intro e he
    cases he
  | cons x xs ih =>
    obtain ⟨k, x⟩ := x
    simp only [queryEqualEntries, bind_eq_bind, bind_eq_some_iff] at h
    obtain ⟨rest, hrest, h⟩ := h
    split at h
    next => cases h
    next =>
      obtain ⟨y, hy, h⟩ := bind_eq_some_iff.mp h
      obtain ⟨first, hfirst, h⟩ := bind_eq_some_iff.mp h
      obtain ⟨rfl, rfl⟩ := Truth.and_eq_yes (Option.some.inj h)
      exact forall_mem_cons.mpr ⟨⟨y, hy, hfirst⟩, ih hrest⟩

inductive EqualForm (texts : Texts) : Value → Value → Prop
  | scalar {a b : Scalar} (h : a.equal b = true) : EqualForm texts (.scalar a) (.scalar b)
  | row {a b : RowBinding} (h : Key.cmp (bindingIdentity a) (bindingIdentity b) = some .eq) : EqualForm texts (.row a) (.row b)
  | path {as bs cs ds : List RowBinding} (h : Key.cmp (freezePath as bs) (freezePath cs ds) = some .eq) :
      EqualForm texts (.path as bs) (.path cs ds)
  | list {xs ys : List Value} (h : List.Forall₂ (fun x y => queryEqual texts x y = some .yes) xs ys) : EqualForm texts (.list xs) (.list ys)
  | map {xs ys : List (MapKey × Value)} (keys : sameKeys xs ys = true)
      (h : ∀ e ∈ xs, ∃ y, lookup e.1 ys = some y ∧ queryEqual texts e.2 y = some .yes) : EqualForm texts (.map xs) (.map ys)

theorem equalForm_of_equal (hlist : ∀ xs ys, v = .list xs → w ≠ .list ys) (hmap : ∀ xs ys, v = .map xs → w ≠ .map ys)
    (h : equal texts v w = some true) : EqualForm texts v w := by
  unfold equal at h
  split at h
  next => exact .scalar (Option.some.inj h)
  next => exact .row (Key.same_iff.mp (Option.some.inj h))
  next => cases h
  next => cases h
  next hrow _ hscalar _ =>
    split at h
    next => cases h
    next =>
      simp only [bind_eq_bind, bind_eq_some_iff] at h
      obtain ⟨k, hk, l, hl, h⟩ := h
      have heq : Key.cmp k l = some .eq := Key.same_iff.mp (Option.some.inj h)
      have hkind : SameKind v w := by
        obtain ⟨s, hs, xs, rfl⟩ := freeze_tag hk
        obtain ⟨t, ht, ys, rfl⟩ := freeze_tag hl
        cases text_injective (Key.cmp_tag_eq heq).1
        exact SameKind.of_frozenTags hs ht
      cases hkind with
      | scalar a b => exact absurd rfl (hscalar a b rfl)
      | row a b => exact absurd rfl (hrow a)
      | list xs ys => exact absurd rfl (hlist xs ys rfl)
      | map xs ys => exact absurd rfl (hmap xs ys rfl)
      | path as bs cs ds =>
        cases hk
        cases hl
        exact .path heq

theorem equalForm (h : queryEqual texts v w = some .yes) : EqualForm texts v w := by
  unfold queryEqual at h
  split at h
  next => cases h
  next =>
    split at h
    next => cases h
    next =>
      split at h
      next hlength => exact .list (queryEqualItems_yes hlength h)
      next => cases h
    next =>
      split at h
      next hkeys => exact .map hkeys (queryEqualEntries_yes h)
      next => cases h
    next hlist hmap =>
      obtain ⟨b, hb, ht⟩ := Option.map_eq_some_iff.mp h
      cases b with
      | false => cases ht
      | true => exact equalForm_of_equal hlist hmap hb

theorem lookup_mem {k : MapKey} (h : lookup k items = some v) : ∃ l, (l, v) ∈ items ∧ MapKey.cmp l k = some .eq := by
  induction items with
  | nil => cases h
  | cons e items ih =>
    obtain ⟨l, w⟩ := e
    rw [lookup] at h
    split at h
    next heq =>
      cases h
      exact ⟨l, mem_cons_self, heq⟩
    next =>
      obtain ⟨l', hmem, heq⟩ := ih h
      exact ⟨l', mem_cons_of_mem _ hmem, heq⟩

theorem sameKeys_iff : sameKeys xs ys = true ↔ xs.length = ys.length ∧ ∀ x ∈ xs, ∃ y ∈ ys, MapKey.cmp y.1 x.1 = some .eq := by
  simp [sameKeys]

theorem eq_of_keys_eq (distinct : items.Pairwise fun e f => MapKey.cmp e.1 f.1 ≠ some .eq)
    {e f : MapKey × Value} (he : e ∈ items) (hf : f ∈ items) (heq : MapKey.cmp e.1 f.1 = some .eq) : e = f := by
  by_contra hne
  have hsymm : Std.Symm fun e f : MapKey × Value => MapKey.cmp e.1 f.1 ≠ some .eq := by
    constructor
    intro e f hef hfe
    exact hef ((MapKey.coherent f.1).symm hfe)
  exact distinct.forall he hf hne heq

section Agreement
variable {b : RowBinding}

theorem RowBinding.identity_table (h : b.Of catalog) :
    (∃ txn token, bindingIdentity b = .tuple [Key.tag "pending", Key.int txn, Key.int b.table.tableId, Key.int token]) ∨
      (∃ version, bindingIdentity b = .tuple [Key.tag "held", Key.int b.table.tableId, Key.int version]) ∨
      ∃ record, bindingIdentity b = .tuple [Key.tag "stored", Key.int b.table.tableId, Key.int record] := by
  unfold bindingIdentity
  split
  next r hr =>
    rw [h.2 r hr]
    exact .inl ⟨_, _, rfl⟩
  next =>
    split
    · exact .inr (.inl ⟨_, rfl⟩)
    · exact .inr (.inr ⟨_, rfl⟩)
  next => exact .inr (.inr ⟨_, rfl⟩)

theorem RowBinding.rank_of_identity {a : RowBinding} (ha : a.Of catalog) (hb : b.Of catalog)
    (h : Key.cmp (bindingIdentity a) (bindingIdentity b) = some .eq) : rowRank a.table.kind = rowRank b.table.kind := by
  have htable : a.table.tableId = b.table.tableId := by
    obtain ⟨_, _, hfa⟩ | ⟨_, hfa⟩ | ⟨_, hfa⟩ := RowBinding.identity_table ha <;>
      obtain ⟨_, _, hfb⟩ | ⟨_, hfb⟩ | ⟨_, hfb⟩ := RowBinding.identity_table hb <;>
      rw [hfa, hfb] at h <;> obtain ⟨htag, hrest⟩ := Key.cmp_tag_eq h <;> replace htag := text_injective htag <;>
      first
        | exact absurd htag (by decide)
        | exact Key.cmp_int_eq.mp (Key.cmp_cons_eq.mp (Key.cmp_cons_eq.mp hrest).2).1
        | exact Key.cmp_int_eq.mp (Key.cmp_cons_eq.mp hrest).1
  rw [ha.1, hb.1, htable]

theorem Double.position_eq {x y : Double} (h : x.position = y.position) :
    x = y ∨ (x = .finite 0 ∧ y = .negativeZero) ∨ (x = .negativeZero ∧ y = .finite 0) := by
  cases x <;> cases y <;> simp_all [Double.position]
  all_goals exact absurd h (by decide)

theorem Double.eq_of_position (hzero : ¬ (Double.finite 0 ∈ components ∧ Double.negativeZero ∈ components)) {xs ys : List Double}
    (hxs : ∀ x ∈ xs, x ∈ components) (hys : ∀ y ∈ ys, y ∈ components) (h : xs.map Double.position = ys.map Double.position) :
    xs = ys := by
  induction xs generalizing ys with
  | nil => exact (map_eq_nil_iff.mp h.symm).symm
  | cons x xs ih => cases ys with
    | nil => cases h
    | cons y ys =>
      obtain ⟨hx, hxs⟩ := forall_mem_cons.mp hxs
      obtain ⟨hy, hys⟩ := forall_mem_cons.mp hys
      obtain ⟨hhead, htail⟩ := cons.inj h
      have hrest := ih hxs hys htail
      obtain rfl | ⟨rfl, rfl⟩ | ⟨rfl, rfl⟩ := Double.position_eq hhead
      · rw [hrest]
      · exact absurd ⟨hx, hy⟩ hzero
      · exact absurd ⟨hy, hx⟩ hzero

theorem itemKeys_eq (hkeys : TotalOn MapKey.cmp keys) {es fs : List (MapKey × Key)} (knownx : ∀ e ∈ xs, e.1 ∈ keys) (knowny : ∀ e ∈ ys, e.1 ∈ keys)
    (hpermx : es.Perm (keyedItems texts xs)) (hascx : Ascends itemCmp es) (hpermy : fs.Perm (keyedItems texts ys)) (hascy : Ascends itemCmp fs)
    (hsame : sameKeys xs ys = true)
    (hvalues : ∀ e ∈ xs, ∀ f ∈ ys, MapKey.cmp e.1 f.1 = some .eq → Key.cmp (valueKey texts e.2) (valueKey texts f.2) = some .eq) :
    Key.cmp (.tuple (es.map itemKey)) (.tuple (fs.map itemKey)) = some .eq := by
  obtain ⟨hlength, hfind⟩ := sameKeys_iff.mp hsame
  have hes : ∀ e ∈ es, ∃ x ∈ xs, (x.1, valueKey texts x.2) = e := fun e he => mem_map.mp (hpermx.mem_iff.mp he)
  have hfs : ∀ f ∈ fs, ∃ y ∈ ys, (y.1, valueKey texts y.2) = f := fun f hf => mem_map.mp (hpermy.mem_iff.mp hf)
  have hknownx : ∀ e ∈ es, e ∈ {e : MapKey × Key | e.1 ∈ keys} := by
    intro e he
    obtain ⟨x, hx, rfl⟩ := hes e he
    exact knownx x hx
  have hknowny : ∀ f ∈ fs, f ∈ {e : MapKey × Key | e.1 ∈ keys} := by
    intro f hf
    obtain ⟨y, hy, rfl⟩ := hfs f hf
    exact knowny y hy
  have hleft : ∀ e ∈ es, ∃ f ∈ fs, itemCmp e f = some .eq := by
    intro e he
    obtain ⟨x, hx, rfl⟩ := hes e he
    obtain ⟨y, hy, heq⟩ := hfind x hx
    refine ⟨(y.1, valueKey texts y.2), hpermy.mem_iff.mpr (mem_map.mpr ⟨y, hy, rfl⟩), ?_⟩
    exact (MapKey.coherent y.1).symm heq
  have hlengths : es.length = fs.length := by
    rw [hpermx.length_eq, hpermy.length_eq, keyedItems, keyedItems, length_map, length_map, hlength]
  have hne : es.Pairwise fun e f => itemCmp e f ≠ some .eq := hascx.imp (by simp +contextual)
  have hright := exists_of_length_eq (itemCmp_totalOn hkeys) itemCmp_coherent hknownx hne hlengths hleft
  have hplaces := Ascends.forall₂ (itemCmp_totalOn hkeys) itemCmp_coherent hknownx hknowny hascx hascy hleft hright
  rw [Key.cmp_tuple, lexicographic_eq_iff, forall₂_map_left_iff, forall₂_map_right_iff]
  refine Pointwise.forall₂_imp hplaces fun e he f hf hkey => ?_
  obtain ⟨x, hx, rfl⟩ := hes e he
  obtain ⟨y, hy, rfl⟩ := hfs f hf
  change MapKey.cmp x.1 y.1 = some .eq at hkey
  rw [itemKey_cmp, hkey]
  exact hvalues x hx y hy hkey

theorem Drawn.equal_cmp (hkeys : TotalOn MapKey.cmp keys)
    (hzero : ¬ (Double.finite 0 ∈ components ∧ Double.negativeZero ∈ components))
    (hv : Drawn catalog keys components v) (hw : Drawn catalog keys components w) (h : queryEqual texts v w = some .yes) :
    Key.cmp (valueKey texts v) (valueKey texts w) = some .eq := by
  have hsome : ∀ {u}, Drawn catalog keys components u → (sortKey texts u).isSome := Drawn.sortKey_isSome hkeys
  induction hv generalizing w with
  | scalar hvector => cases equalForm h with
    | scalar hab => cases hw with
      | scalar hvector' =>
        apply Scalar.equal_sortKey texts _ hab
        intro v w hv hw hpos
        exact Double.eq_of_position hzero (hvector v hv) (hvector' w hw) hpos
  | row own => cases equalForm h with
    | row hab => cases hw with
      | row own' => rw [valueKey_row, valueKey_row, RowBinding.rank_of_identity own own' hab, ranked_cmp_same, hab]
  | path nodes relationships => cases equalForm h with
    | path hab => rw [valueKey_path, valueKey_path, ranked_cmp_same, hab]
  | list each ih => cases equalForm h with
    | list hitems => cases hw with
      | list each' =>
        rw [valueKey_list fun v hv => hsome (each v hv), valueKey_list fun v hv => hsome (each' v hv), ranked_cmp_same,
          Key.cmp_tuple, lexicographic_eq_iff, forall₂_map_left_iff, forall₂_map_right_iff]
        exact Pointwise.forall₂_imp hitems fun x hx y hy => ih x hx (each' y hy)
  | map known distinct each ih => cases equalForm h with
    | map hsame hvalues => cases hw with
      | map known' distinct' each' =>
        obtain ⟨es, hes, hperm, hasc⟩ := sortKey_map texts hkeys known distinct fun e he => hsome (each e he)
        obtain ⟨fs, hfs, hperm', hasc'⟩ := sortKey_map texts hkeys known' distinct' fun e he => hsome (each' e he)
        rw [valueKey_of_some hes, valueKey_of_some hfs, ranked_cmp_same]
        apply itemKeys_eq hkeys known known' hperm hasc hperm' hasc' hsame
        intro e he f hf hef
        -- the other map has one item under this key, so it is the one that was looked up
        obtain ⟨y, hlookup, hyes⟩ := hvalues e he
        obtain ⟨l, hl, hle⟩ := lookup_mem hlookup
        have hlf : MapKey.cmp l f.1 = some .eq := (MapKey.coherent l).eq_left (hkeys l (known' _ hl) f.1 (known' f hf)) hle hef
        have hsamePair : (l, y) = f := eq_of_keys_eq distinct' hl hf hlf
        rw [← hsamePair] at hf ⊢
        exact ih e he (each' _ hl) hyes

end Agreement

end Compare

end Grafx.Query
