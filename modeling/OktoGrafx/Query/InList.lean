import OktoGrafx.Query.Grouping

/-! A list parameter of IN, hashed once for the statement, against the walk over its elements. -/

namespace Grafx.Query

open Key (cmp_cons_eq cmp_refl cmp_tag_eq same_iff)

/-- A value, the NaN that `Double` leaves out, or anything else a caller can pass. -/
inductive Operand (κ : Type)
  | nan
  | value (v : Value)
  | other (x : κ)

variable {κ : Type} (texts : Texts) (elsewhere : Operand κ → Operand κ → Option Truth)

def Operand.equal : Operand κ → Operand κ → Option Truth
  | value (.scalar .null), _ | _, value (.scalar .null) => some .unknown
  | value v, value w => queryEqual texts v w
  | nan, value v | value v, nan => (freeze texts v).map fun _ => .no
  | nan, nan => some .no
  | left, right => elsewhere left right

def membership (left : Operand κ) (unknown : Bool) : List (Operand κ) → Option Truth
  | [] => some (if unknown then .unknown else .no)
  | element :: rest => do
    match ← left.equal texts elsewhere element with
    | .yes => some .yes
    | .unknown => membership left true rest
    | .no => membership left unknown rest

structure HashedList where
  keys : List Key
  hasNull : Bool
  hasNumbers : Bool

structure InListMemo (κ : Type) extends HashedList where
  values : List (Operand κ)

def inNumeric (s : Scalar) : Key := .tuple [Key.tag "in_numeric", .atom (.scalar s)]

def Scalar.memoKey : Scalar → Option Key
  | .str s => some (Scalar.str s).freeze
  | .bytes b => some (Scalar.bytes b).freeze
  | .double x => some (inNumeric (.double x))
  | .int n => if -2 ^ 63 ≤ n ∧ n < 2 ^ 63 then some (inNumeric (.int n)) else none
  | _ => none

def Operand.memoKey : Operand κ → Option (Option Key)
  | nan => some none
  | value (.scalar s) => s.memoKey.map some
  | _ => none

def Operand.isNumber : Operand κ → Bool
  | nan => true
  | value (.scalar s) => s.isArithmetic
  | _ => false

namespace HashedList

def add (list : HashedList) : Operand κ → Option HashedList
  | .value (.scalar .null) => some { list with hasNull := true }
  | element => do
    let key ← element.memoKey
    return { list with keys := key.toList ++ list.keys, hasNumbers := list.hasNumbers || element.isNumber }

def holds (list : HashedList) (key : Option Key) : Bool := key.any fun k => list.keys.any k.same

def answer (list : HashedList) (key : Option Key) : Truth :=
  if list.holds key then .yes else if list.hasNull then .unknown else .no

end HashedList

def buildInListMemo (room : ℕ) (values : List (Operand κ)) : Option (InListMemo κ) := do
  if room < values.length then none
  let list ← values.foldlM HashedList.add ⟨[], false, false⟩
  return { list with values }

def memoMembership (memo : InListMemo κ) : Operand κ → Option Truth
  | .value (.scalar .null) => some (if memo.values.isEmpty then .no else .unknown)
  | left =>
    match left.memoKey with
    | some key =>
      -- a number asked of a list without numbers takes the walk
      if left.isNumber && !memo.hasNumbers then membership texts elsewhere left false memo.values
      else some (memo.answer key)
    | none => membership texts elsewhere left false memo.values

variable {texts} {elsewhere} {a b : Scalar} {k l : Key} {list next : HashedList} {left element : Operand κ}

namespace Scalar

theorem memoKey_form (h : a.memoKey = some k) : a.isDecimal = false ∧ a ≠ .null ∧
    (a.isArithmetic = true ∧ k = inNumeric a ∨ a.isArithmetic = false ∧ k = a.freeze) := by
  unfold memoKey at h
  repeat' split at h
  all_goals cases h
  all_goals first | exact ⟨rfl, nofun, .inl ⟨rfl, rfl⟩⟩ | exact ⟨rfl, nofun, .inr ⟨rfl, rfl⟩⟩

theorem inNumeric_ne_freeze (ha : a.isDecimal = false) (harith : a.isArithmetic = false) : Key.cmp (inNumeric b) a.freeze ≠ some .eq := by
  intro h
  obtain ⟨haa, -⟩ | ⟨-, hf | hf⟩ := freeze_form ha
  · rw [harith] at haa
    cases haa
  all_goals
    rw [hf] at h
    exact absurd (text_injective (cmp_tag_eq h).1) (by decide)

theorem equal_eq_same (ha : a.memoKey = some k) (hb : b.memoKey = some l) : a.equal b = k.same l := by
  obtain ⟨hda, -, hka⟩ := memoKey_form ha
  obtain ⟨hdb, -, hkb⟩ := memoKey_form hb
  have hfamily : ∀ {c : Scalar}, c.isArithmetic = true → c.family = some .number := by
    intro c hc
    cases c <;> first | rfl | cases hc
  have hfreeze : ¬ (a.isArithmetic = true ∧ b.isArithmetic = true) → (a.equal b = true ↔ Key.cmp a.freeze b.freeze = some .eq) := by
    intro hnot
    rw [equal, hda, hdb, Bool.or_self, if_neg Bool.false_ne_true, if_neg (by simpa using hnot), same_iff]
  rw [Bool.eq_iff_iff, same_iff]
  obtain ⟨haa, rfl⟩ | ⟨haa, rfl⟩ := hka <;> obtain ⟨hba, rfl⟩ | ⟨hba, rfl⟩ := hkb
  · rw [equal_numeric (isNumeric_of_isArithmetic haa) (isNumeric_of_isArithmetic hba)]
    exact (tagged_number_cmp _ (hfamily haa) (hfamily hba)).symm
  · have hnot : ¬ (a.isArithmetic = true ∧ b.isArithmetic = true) := by simp [hba]
    refine (hfreeze hnot).trans (iff_of_false (fun h => ?_) (inNumeric_ne_freeze hdb hba))
    cases haa.symm.trans (cmp_of_freeze hda hdb hnot h).2.1
  · have hnot : ¬ (a.isArithmetic = true ∧ b.isArithmetic = true) := by simp [haa]
    refine (hfreeze hnot).trans (iff_of_false (fun h => ?_) fun h => inNumeric_ne_freeze hda haa ((Key.coherent _).symm h))
    cases hba.symm.trans (cmp_of_freeze hda hdb hnot h).2.2
  · exact hfreeze (by simp [haa])

end Scalar

namespace Operand

theorem memoKey_form {key : Option Key} (h : left.memoKey = some key) :
    left = .nan ∧ key = none ∨ ∃ s k, left = .value (.scalar s) ∧ s.memoKey = some k ∧ key = some k := by
  unfold memoKey at h
  split at h
  · cases h
    exact .inl ⟨rfl, rfl⟩
  · obtain ⟨k, hk, rfl⟩ := Option.map_eq_some_iff.mp h
    exact .inr ⟨_, k, rfl, hk, rfl⟩
  · cases h

theorem equal_null : left.equal texts elsewhere (value (.scalar .null)) = some .unknown := by
  unfold Operand.equal
  split <;> simp_all

theorem equal_nan (hb : b ≠ .null) : (nan : Operand κ).equal texts elsewhere (value (.scalar b)) = some .no ∧
    (value (.scalar b) : Operand κ).equal texts elsewhere nan = some .no := by
  cases b with
  | null => exact absurd rfl hb
  | _ => exact ⟨rfl, rfl⟩

theorem equal_scalar (ha : a ≠ .null) (hb : b ≠ .null) :
    (value (.scalar a) : Operand κ).equal texts elsewhere (value (.scalar b)) = some (.of (a.equal b)) := by
  refine .trans ?_ (queryEqual_scalar ha hb : queryEqual texts _ _ = _)
  unfold Operand.equal
  split <;> simp_all

end Operand

namespace HashedList

open Operand (memoKey_form equal_nan)

theorem add_spec {key : Option Key} (hleft : left.memoKey = some key) (hadd : list.add element = some next) :
    ∃ t, left.equal texts elsewhere element = some t ∧
      next.holds key = (list.holds key || decide (t = .yes)) ∧ next.hasNull = (list.hasNull || decide (t = .unknown)) := by
  unfold add at hadd
  split at hadd
  next =>
    cases hadd
    exact ⟨.unknown, Operand.equal_null, by simp [holds], by simp⟩
  next =>
    obtain ⟨other, hother, hnext⟩ := Option.bind_eq_some_iff.mp hadd
    cases hnext
    obtain ⟨rfl, rfl⟩ | ⟨s, k, rfl, hk, rfl⟩ := memoKey_form hleft <;>
      obtain ⟨rfl, rfl⟩ | ⟨t, l, rfl, hl, rfl⟩ := memoKey_form hother
    · exact ⟨.no, rfl, by simp [holds], by simp⟩
    · exact ⟨.no, (equal_nan (Scalar.memoKey_form hl).2.1).1, by simp [holds], by simp⟩
    · exact ⟨.no, (equal_nan (Scalar.memoKey_form hk).2.1).2, by simp [holds], by simp⟩
    · refine ⟨.of (k.same l), ?_, ?_, ?_⟩
      · rw [← Scalar.equal_eq_same hk hl]
        exact Operand.equal_scalar (Scalar.memoKey_form hk).2.1 (Scalar.memoKey_form hl).2.1
      all_goals cases hsame : k.same l <;> simp [holds, Truth.of, hsame]

theorem answer_eq {key : Option Key} (hleft : left.memoKey = some key) {elements : List (Operand κ)}
    (h : elements.foldlM add list = some next) : some (next.answer key) =
      if list.holds key then some .yes else membership texts elsewhere left list.hasNull elements := by
  induction elements generalizing list with
  | nil =>
    cases h
    rw [answer]
    split <;> rfl
  | cons element rest ih =>
    obtain ⟨list', hadd, hrest⟩ := Option.bind_eq_some_iff.mp h
    obtain ⟨t, ht, hholds, hnull⟩ := add_spec hleft hadd
    rw [ih hrest, hholds, hnull, membership, ht]
    cases hheld : list.holds key <;> cases t <;> simp

end HashedList

theorem membership_null (unknown : Bool) (elements : List (Operand κ)) :
    membership texts elsewhere (.value (.scalar .null)) unknown elements =
      some (if elements.isEmpty && !unknown then .no else .unknown) := by
  induction elements generalizing unknown with
  | nil => cases unknown <;> rfl
  | cons element rest ih =>
    show membership texts elsewhere _ true rest = _
    rw [ih]
    simp

/-- The hashed list answers every probe as the walk over it does. -/
theorem memoMembership_eq {room : ℕ} {values : List (Operand κ)} {memo : InListMemo κ} (h : buildInListMemo room values = some memo)
    (left : Operand κ) : memoMembership texts elsewhere memo left = membership texts elsewhere left false values := by
  unfold buildInListMemo at h
  split at h
  · cases h
  obtain ⟨list, hlist, hmemo⟩ := Option.bind_eq_some_iff.mp h
  cases hmemo
  unfold memoMembership
  split
  · rw [membership_null, Bool.not_false, Bool.and_true]
  split
  next key hkey =>
    split
    · rfl
    · rw [HashedList.answer_eq hkey hlist, if_neg (by cases key <;> simp [HashedList.holds])]
  next => rfl

def oneNanNull : List (Operand Empty) := [.value (.scalar (.int 1)), .nan, .value (.scalar .null)]

theorem memoMembership_nan : ∃ memo, buildInListMemo 3 oneNanNull = some memo ∧
    memoMembership shownTexts (fun _ _ => none) memo (.value (.scalar (.int 1))) = some .yes ∧
    memoMembership shownTexts (fun _ _ => none) memo (.value (.scalar (.int 0))) = some .unknown :=
  have hbuilt : buildInListMemo 3 oneNanNull = some _ := rfl
  ⟨_, hbuilt, (memoMembership_eq hbuilt _).trans rfl, (memoMembership_eq hbuilt _).trans rfl⟩

end Grafx.Query
