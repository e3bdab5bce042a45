import Mathlib

/-! Unsigned numbers in a fixed count of bytes, the lowest first. -/

namespace ByteCodec

instance byteNeZero : NeZero 256 := ⟨by decide⟩

def littleEndian : ℕ → ℕ → List (Fin 256)
  | 0, _ => []
  | w + 1, n => Fin.ofNat 256 n :: littleEndian w (n / 256)

def ofLittleEndian : List (Fin 256) → ℕ
  | [] => 0
  | b :: bs => b.val + 256 * ofLittleEndian bs

@[simp] theorem littleEndian_length (w n : ℕ) : (littleEndian w n).length = w := by
  induction w generalizing n with
  | zero => rfl
  | succ w ih => rw [littleEndian, List.length_cons, ih]

theorem ofLittleEndian_littleEndian {w n : ℕ} (h : n < 256 ^ w) : ofLittleEndian (littleEndian w n) = n := by
  induction w generalizing n with
  | zero => exact (Nat.lt_one_iff.mp h).symm
  | succ w ih =>
    have hquot : n / 256 < 256 ^ w := Nat.div_lt_of_lt_mul (by rwa [← pow_succ'])
    show n % 256 + 256 * ofLittleEndian (littleEndian w (n / 256)) = n
    rw [ih hquot, Nat.mod_add_div]

def read (width : ℕ) (raw : List (Fin 256)) : ℕ × List (Fin 256) := (ofLittleEndian (raw.take width), raw.drop width)

theorem read_append {width n : ℕ} (hn : n < 256 ^ width) (rest : List (Fin 256)) :
    read width (littleEndian width n ++ rest) = (n, rest) := by
  rw [read, List.take_left' (littleEndian_length width n), List.drop_left' (littleEndian_length width n),
    ofLittleEndian_littleEndian hn]

theorem littleEndian_ofLittleEndian (bs : List (Fin 256)) : littleEndian bs.length (ofLittleEndian bs) = bs := by
  induction bs with
  | nil => rfl
  | cons b bs ih =>
    have hlow : Fin.ofNat 256 (b.val + 256 * ofLittleEndian bs) = b := by
      apply Fin.ext
      show (b.val + 256 * ofLittleEndian bs) % 256 = b.val
      rw [Nat.add_mul_mod_self_left, Nat.mod_eq_of_lt b.isLt]
    have hhigh : (b.val + 256 * ofLittleEndian bs) / 256 = ofLittleEndian bs := by
      rw [Nat.add_mul_div_left _ _ (by decide), Nat.div_eq_of_lt b.isLt, zero_add]
    show Fin.ofNat 256 (b.val + 256 * ofLittleEndian bs) ::
      littleEndian bs.length ((b.val + 256 * ofLittleEndian bs) / 256) = b :: bs
    rw [hlow, hhigh, ih]

theorem ofLittleEndian_lt (bs : List (Fin 256)) : ofLittleEndian bs < 256 ^ bs.length := by
  induction bs with
  | nil => exact one_pos
  | cons b bs ih =>
    show b.val + 256 * ofLittleEndian bs < 256 ^ (bs.length + 1)
    have hb := b.isLt
    omega

theorem read_lt (width : ℕ) (raw : List (Fin 256)) : (read width raw).1 < 256 ^ width :=
  (ofLittleEndian_lt _).trans_le (Nat.pow_le_pow_right (by decide) (List.length_take_le _ _))

theorem ofLittleEndian_blank {bs : List (Fin 256)} (h : ∀ b ∈ bs, b = 0) : ofLittleEndian bs = 0 := by
  induction bs with
  | nil => rfl
  | cons b bs ih =>
    rw [ofLittleEndian, h b List.mem_cons_self, ih (List.forall_mem_cons.mp h).2]
    rfl

theorem read_blank (width : ℕ) {raw : List (Fin 256)} (h : ∀ b ∈ raw, b = 0) :
    (read width raw).1 = 0 ∧ ∀ b ∈ (read width raw).2, b = 0 :=
  ⟨ofLittleEndian_blank fun b hb => h b (List.mem_of_mem_take hb), fun b hb => h b (List.mem_of_mem_drop hb)⟩

theorem littleEndian_read {width : ℕ} {raw rest : List (Fin 256)} (h : width ≤ raw.length) (hrest : rest = (read width raw).2) :
    littleEndian width (read width raw).1 ++ rest = raw := by
  have hback := littleEndian_ofLittleEndian (raw.take width)
  rw [List.length_take_of_le h] at hback
  rw [hrest]
  show littleEndian width (ofLittleEndian (raw.take width)) ++ raw.drop width = raw
  rw [hback, List.take_append_drop]

end ByteCodec
