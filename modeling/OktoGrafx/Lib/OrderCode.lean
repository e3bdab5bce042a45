import Mathlib

/-! Codes that keep an order. The word of a smaller value is smaller whatever follows the two words,
so no word is a prefix of another and words can be written one after another. -/

variable {α β σ : Type*} [LinearOrder α] [LinearOrder β] [LinearOrder σ]

def OrderCode (code : α → List σ) : Prop := ∀ a b, a < b → ∀ x y, code a ++ x < code b ++ y

namespace OrderCode

open List
variable {f : α → List σ} {g : β → List σ}

theorem lt_iff (h : OrderCode f) {a b : α} : f a < f b ↔ a < b := by
  have hlt : ∀ {a b : α}, a < b → f a < f b := by
    intro a b hab
    simpa using h a b hab [] []
  constructor
  · intro hcode
    rcases lt_trichotomy a b with hab | rfl | hba
    · exact hab
    · exact absurd hcode (lt_irrefl _)
    · exact absurd hcode (lt_asymm (hlt hba))
  · exact hlt

theorem injective (h : OrderCode f) : Function.Injective f := by
  intro a b hab
  rcases lt_trichotomy a b with hlt | heq | hlt
  · exact absurd hab (ne_of_lt (h.lt_iff.mpr hlt))
  · exact heq
  · exact absurd hab (ne_of_gt (h.lt_iff.mpr hlt))

theorem comp (h : OrderCode f) {m : β → α} (hm : StrictMono m) : OrderCode fun b => f (m b) :=
  fun _ _ hab => h _ _ (hm hab)

theorem append_lt_append (word : List σ) {x y : List σ} (h : x < y) : word ++ x < word ++ y := by
  induction word with
  | nil => exact h
  | cons s word ih => exact cons_lt_cons_iff.mpr (.inr ⟨rfl, ih⟩)

theorem append (hf : OrderCode f) (hg : OrderCode g) :
    OrderCode fun p : α ×ₗ β => f (ofLex p).1 ++ g (ofLex p).2 := by
  intro p q hpq x y
  rw [append_assoc, append_assoc]
  rcases Prod.Lex.lt_iff.mp hpq with hfirst | ⟨hfirst, hsecond⟩
  · exact hf _ _ hfirst _ _
  · have hfirst : (ofLex p).1 = (ofLex q).1 := hfirst
    rw [hfirst]
    exact append_lt_append _ (hg _ _ hsecond x y)

theorem withTop (hf : OrderCode f) {mark none : σ} (hmark : mark < none) :
    OrderCode fun v : WithTop α => v.recTopCoe [none] fun a => mark :: f a := by
  intro v w hvw x y
  induction v with
  | top => exact absurd hvw not_top_lt
  | coe a =>
    induction w with
    | top => exact cons_lt_cons_iff.mpr (.inl hmark)
    | coe b => exact cons_lt_cons_iff.mpr (.inr ⟨rfl, hf a b (WithTop.coe_lt_coe.mp hvw) x y⟩)

theorem terminated (hf : OrderCode f) {stop : List σ} (hstop : ∀ a x y, stop ++ x < f a ++ y) :
    OrderCode fun xs : List α => xs.flatMap f ++ stop := by
  intro xs ys hlt x y
  rw [append_assoc, append_assoc]
  induction hlt with
  | nil =>
    rw [flatMap_nil, flatMap_cons, nil_append, append_assoc]
    exact hstop _ _ _
  | cons _ ih =>
    rw [flatMap_cons, flatMap_cons, append_assoc, append_assoc]
    exact append_lt_append _ ih
  | rel hab =>
    rw [flatMap_cons, flatMap_cons, append_assoc, append_assoc]
    exact hf _ _ hab _ _

/-! ## Numbers -/

def digits (base : ℕ) (symbol : ℕ → σ) : ℕ → ℕ → List σ
  | 0, _ => []
  | w + 1, n => digits base symbol w (n / base) ++ [symbol (n % base)]

variable {base : ℕ} {symbol : ℕ → σ}

omit [LinearOrder σ] in
theorem digits_congr {w n m : ℕ} (h : n % base ^ w = m % base ^ w) : digits base symbol w n = digits base symbol w m := by
  induction w generalizing n m with
  | zero => rfl
  | succ w ih =>
    have hquot : n / base % base ^ w = m / base % base ^ w := by
      rw [← Nat.mod_mul_right_div_self, ← Nat.mod_mul_right_div_self, ← pow_succ', h]
    have hdigit : n % base = m % base := by
      have hdvd : base ∣ base ^ (w + 1) := Dvd.intro_left _ (pow_succ base w).symm
      rw [← Nat.mod_mod_of_dvd n hdvd, ← Nat.mod_mod_of_dvd m hdvd, h]
    rw [digits, digits, ih hquot, hdigit]

theorem digits_lt (hsymbol : ∀ a b, a < b → b < base → symbol a < symbol b) (hbase : 0 < base) {w n m : ℕ}
    (h : n % base ^ w < m % base ^ w) (x y : List σ) :
    digits base symbol w n ++ x < digits base symbol w m ++ y := by
  induction w generalizing n m x y with
  | zero => simp [Nat.mod_one] at h
  | succ w ih =>
    have hsplit : ∀ k, k % base ^ (w + 1) = k % base + base * (k / base % base ^ w) := fun k => by
      rw [pow_succ', Nat.mod_mul]
    rw [hsplit, hsplit] at h
    rw [digits, digits, append_assoc, append_assoc]
    rcases lt_trichotomy (n / base % base ^ w) (m / base % base ^ w) with hlt | heq | hgt
    · exact ih hlt _ _
    · rw [digits_congr heq]
      have hdigit : n % base < m % base := by
        rw [heq] at h
        exact Nat.lt_of_add_lt_add_right h
      exact append_lt_append _ (cons_lt_cons_iff.mpr (.inl (hsymbol _ _ hdigit (Nat.mod_lt _ hbase))))
    · -- A larger quotient cannot be made up for by one digit.
      have hstep : base * (m / base % base ^ w) + base ≤ base * (n / base % base ^ w) := by
        calc base * (m / base % base ^ w) + base = base * (m / base % base ^ w + 1) := by ring
          _ ≤ base * (n / base % base ^ w) := Nat.mul_le_mul_left base hgt
      have hdigit := Nat.mod_lt m hbase
      omega

end OrderCode
