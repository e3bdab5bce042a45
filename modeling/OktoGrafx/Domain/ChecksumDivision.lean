import Mathlib.RingTheory.AdjoinRoot
import OktoGrafx.Domain.Checksum
import OktoGrafx.Lib.BitPolynomial

/-! The checksum as a division. The register of the table loop is a remainder modulo the polynomial, with
its low bit as the highest power, and every byte multiplies it by `X ^ 8` and adds the bits of the
byte. -/

namespace Grafx

open BitPolynomial List Polynomial
open UInt32 (ofNat)

def crc32cMask : UInt32 := 0xFFFFFFFF

def crc32cStep (value : UInt32) (byte : Byte) : UInt32 := crc32cTable ((value ^^^ ofNat byte.val) &&& 0xFF) ^^^ (value >>> 8)

def crc32cReference (data : Bytes) (crc : UInt32) : UInt32 := data.foldl crc32cStep (crc ^^^ crc32cMask) ^^^ crc32cMask

/-- The polynomial in its normal form, the coefficient of `X ^ 32` left out. -/
def crc32cPolynomial : ℕ := 0x1EDC6F41

/-- The bits of a message in the order they are consumed, the low bit of a byte first. -/
def messageBits (data : Bytes) : List Bool := data.flatMap fun byte => bitsOf 8 byte.val

theorem messageBits_length (data : Bytes) : (messageBits data).length = 8 * data.length := by
  induction data with
  | nil => rfl
  | cons byte data ih =>
    rw [messageBits, flatMap_cons, length_append, bitsOf_length, ← messageBits, ih, length_cons]
    omega

theorem messageBits_injective {a b : Bytes} (h : messageBits a = messageBits b) : a = b := by
  have hlength := congrArg length h
  rw [messageBits_length, messageBits_length] at hlength
  induction a generalizing b with
  | nil => exact (length_eq_zero_iff.mp (by rw [length_nil] at hlength; omega)).symm
  | cons byte a ih =>
    cases b with
    | nil => exact absurd hlength (by simp)
    | cons byte' b =>
      obtain ⟨hfirst, hrest⟩ := append_inj h (by rw [bitsOf_length, bitsOf_length])
      have hbyte : byte = byte' := by
        apply Fin.ext
        apply Nat.eq_of_testBit_eq
        intro i
        by_cases hi : i < 8
        · exact map_inj_left.mp hfirst i (mem_range.mpr hi)
        · have hhigh : ∀ x : Byte, x.val.testBit i = false := fun x => Nat.testBit_lt_two_pow
            (x.isLt.trans_le (Nat.pow_le_pow_right Nat.two_pos (not_lt.mp hi)))
          rw [hhigh, hhigh]
      rw [hbyte, ih hrest (by simpa using hlength)]

noncomputable section

def register (value : UInt32) : (ZMod 2)[X] := ofBits (bitsOf 32 value.toNat)

def castagnoli : (ZMod 2)[X] := X ^ 32 + ofBits (bitsOf 32 crc32cPolynomial).reverse

theorem castagnoli_eq : castagnoli = X ^ 32 + register crc32cPolynomialReflected :=
  congrArg (X ^ 32 + ofBits ·) (by decide)

theorem register_degree (value : UInt32) : (register value).degree < 32 := by
  have hdegree := @ofBits_degree (bitsOf 32 value.toNat)
  rwa [bitsOf_length] at hdegree

theorem castagnoli_degree : castagnoli.degree = 32 := by
  rw [castagnoli_eq, degree_add_eq_left_of_degree_lt, degree_X_pow]
  · rfl
  · rw [degree_X_pow]
    exact register_degree _

theorem castagnoli_monic : castagnoli.Monic := by
  rw [castagnoli_eq]
  exact monic_X_pow_add (register_degree _)

theorem register_zero : register 0 = 0 := ofBits_zero

theorem register_xor (v w : UInt32) : register (v ^^^ w) = register v + register w := by
  rw [register, UInt32.toNat_xor, ofBits_xor]
  rfl

theorem register_shift (value : UInt32) {m : ℕ} (hm : m < 32) :
    register (value >>> ofNat m) = X ^ m * register value + X ^ 32 * ofBits (bitsOf m value.toNat) := by
  have hsum : m + (32 - m) = 32 := by omega
  have hshift := ofBits_shift (m := m) (n := 32 - m) (v := value.toNat) (by rw [hsum]; exact value.toNat_lt)
  have hmoved : (value >>> ofNat m).toNat = value.toNat >>> m := by
    rw [UInt32.toNat_shiftRight, UInt32.toNat_ofNat_of_lt' (hm.trans (by decide)), Nat.mod_eq_of_lt hm]
  rw [hsum] at hshift
  rw [register, register, hmoved, hshift, add_right_comm, CharTwo.add_self_eq_zero, zero_add]

theorem and_one_eq_zero_iff (value : UInt32) : value &&& 1 = 0 ↔ value.toNat.testBit 0 = false := by
  have hone : (value &&& 1).toNat = value.toNat % 2 := by rw [UInt32.toNat_and, ← Nat.and_one_is_mod]; rfl
  rw [← UInt32.toNat_inj, hone, Nat.testBit_zero, decide_eq_false_iff_not, Nat.mod_two_not_eq_one]
  rfl

/-! ## Modulo the polynomial -/

def residue : (ZMod 2)[X] →+* AdjoinRoot castagnoli := AdjoinRoot.mk castagnoli

theorem residue_castagnoli : residue castagnoli = 0 := AdjoinRoot.mk_self

theorem residue_reduce (n : ℕ) (value : UInt32) : residue (register (crc32cReduce n value)) = residue (X ^ n * register value) := by
  induction n generalizing value with
  | zero => rw [pow_zero, one_mul, crc32cReduce]
  | succ n ih =>
    have hbit : ofBits (bitsOf 1 value.toNat) = if value.toNat.testBit 0 then 1 else 0 := by
      rw [show bitsOf 1 value.toNat = [] ++ [value.toNat.testBit 0] from rfl, ofBits_concat, ofBits, foldl_nil, zero_mul, zero_add]
    -- the bit that is shifted out is a coefficient of `X ^ 32`, and the polynomial makes up for it
    have hstep : residue (register ((value >>> 1) ^^^ if value &&& 1 = 0 then 0 else crc32cPolynomialReflected)) = residue (X * register value) := by
      rw [register_xor, show value >>> 1 = value >>> ofNat 1 from rfl, register_shift value (by decide), hbit, pow_one]
      by_cases hlow : value &&& 1 = 0
      · rw [if_pos hlow, (and_one_eq_zero_iff value).mp hlow, register_zero]
        simp
      · rw [if_neg hlow, if_pos (Bool.eq_true_of_not_eq_false (mt (and_one_eq_zero_iff value).mpr hlow)), mul_one, add_assoc, ← castagnoli_eq,
          map_add, residue_castagnoli, add_zero]
    rw [crc32cReduce, ih, map_mul, hstep, ← map_mul, pow_succ, mul_assoc]

theorem residue_step (value : UInt32) (byte : Byte) :
    residue (register (crc32cStep value byte)) = residue (X ^ 8 * register value + X ^ 32 * ofBits (bitsOf 8 byte.val)) := by
  obtain ⟨index, hindex⟩ : ∃ index, (value ^^^ ofNat byte.val) &&& 0xFF = index := ⟨_, rfl⟩
  have hbyte : (ofNat byte.val).toNat = byte.val := UInt32.toNat_ofNat_of_lt' (byte.isLt.trans (by decide))
  have hvalue : index.toNat = (value.toNat ^^^ byte.val) % 2 ^ 8 := by
    rw [← hindex, UInt32.toNat_and, UInt32.toNat_xor, hbyte]
    exact Nat.and_two_pow_sub_one_eq_mod _ 8
  have hlow : bitsOf 8 index.toNat = bitsOf 8 (value.toNat ^^^ byte.val) := by
    apply map_congr_left
    intro i hi
    rw [hvalue, Nat.testBit_mod_two_pow, decide_eq_true (mem_range.mp hi), Bool.true_and]
  have hshort : index >>> ofNat 8 = 0 := by
    rw [← UInt32.toNat_inj, UInt32.toNat_shiftRight]
    show index.toNat >>> 8 = 0
    rw [Nat.shiftRight_eq_div_pow, Nat.div_eq_of_lt (hvalue ▸ Nat.mod_lt _ (by decide))]
  have hentry : X ^ 8 * register index = X ^ 32 * ofBits (bitsOf 8 (value.toNat ^^^ byte.val)) := by
    have hshift := register_shift index (show 8 < 32 by decide)
    rw [hshort, register_zero, hlow] at hshift
    exact CharTwo.add_eq_zero.mp hshift.symm
  rw [crc32cStep, hindex, register_xor, map_add, crc32cTable, residue_reduce, hentry, ofBits_xor,
    show value >>> 8 = value >>> ofNat 8 from rfl, register_shift value (by decide), ← map_add]
  refine congrArg residue ?_
  linear_combination CharTwo.add_self_eq_zero (X ^ 32 * ofBits (bitsOf 8 value.toNat))

theorem residue_foldl (data : Bytes) (value : UInt32) : residue (register (data.foldl crc32cStep value)) =
    residue (X ^ (8 * data.length) * register value + X ^ 32 * ofBits (messageBits data)) := by
  induction data generalizing value with
  | nil => simp [messageBits, ofBits]
  | cons byte data ih =>
    have hbits : messageBits (byte :: data) = bitsOf 8 byte.val ++ messageBits data := flatMap_cons
    rw [foldl_cons, ih, map_add, map_mul, residue_step, ← map_mul, ← map_add, hbits, ofBits_append, messageBits_length, length_cons]
    refine congrArg residue ?_
    ring

theorem register_foldl (data : Bytes) (value : UInt32) : register (data.foldl crc32cStep value) =
    (X ^ (8 * data.length) * register value + X ^ 32 * ofBits (messageBits data)) %ₘ castagnoli := by
  have hdvd := AdjoinRoot.mk_eq_mk.mp (residue_foldl data value)
  rw [← modByMonic_eq_of_dvd_sub castagnoli_monic hdvd, (modByMonic_eq_self_iff castagnoli_monic).mpr]
  rw [castagnoli_degree]
  exact register_degree _

theorem castagnoli_not_dvd : ¬ X ∣ castagnoli := by
  rw [X_dvd_iff, castagnoli, coeff_add, coeff_X_pow, if_neg (by decide), zero_add,
    show (bitsOf 32 crc32cPolynomial).reverse = (bitsOf 32 crc32cPolynomial).reverse.dropLast ++ [true] from by decide, ofBits_concat]
  simp

theorem crc32cReference_append (a b : Bytes) (crc : UInt32) :
    crc32cReference (a ++ b) crc = crc32cReference b (crc32cReference a crc) := by
  rw [crc32cReference, crc32cReference, crc32cReference, foldl_append, UInt32.xor_assoc _ crc32cMask crc32cMask, UInt32.xor_self, UInt32.xor_zero]

theorem crc32cReference_burst {a b : Bytes} (crc : UInt32) (hne : a ≠ b) {before burst burst' after : List Bool}
    (ha : messageBits a = before ++ (burst ++ after)) (hb : messageBits b = before ++ (burst' ++ after))
    (hlength : burst.length = burst'.length) (hwindow : burst.length ≤ 32) : crc32cReference a crc ≠ crc32cReference b crc := by
  intro heq
  have hsame : a.length = b.length := by
    have hbits := messageBits_length a
    rw [ha, length_append, length_append, hlength, ← length_append, ← length_append, ← hb, messageBits_length] at hbits
    omega
  have hdiffer : burst ≠ burst' := by
    rintro rfl
    exact hne (messageBits_injective (ha.trans hb.symm))
  have hvalue : a.foldl crc32cStep (crc ^^^ crc32cMask) = b.foldl crc32cStep (crc ^^^ crc32cMask) := (UInt32.xor_left_inj _).mp heq
  have hresidue := residue_foldl a (crc ^^^ crc32cMask)
  rw [hvalue, residue_foldl, hsame] at hresidue
  have hdvd := AdjoinRoot.mk_eq_mk.mp hresidue.symm
  rw [add_sub_add_left_eq_sub, ← mul_sub, ha, hb] at hdvd
  exact burst_not_dvd castagnoli_not_dvd hlength (by rw [castagnoli_degree]; exact_mod_cast hwindow) hdiffer 32 hdvd

/-- The checksum goes on over what follows, it is a remainder modulo the polynomial with register and result
inverted, and it tells apart what differs in no more than 32 bits in a row. -/
theorem crc32c_division (a b : Bytes) (crc : UInt32) :
    crc32c a = crc32cReference a 0 ∧ crc32cReference (a ++ b) crc = crc32cReference b (crc32cReference a crc) ∧
    register (crc32cReference a crc ^^^ crc32cMask) =
      (X ^ (8 * a.length) * register (crc ^^^ crc32cMask) + X ^ 32 * ofBits (messageBits a)) %ₘ castagnoli ∧
    ∀ before burst burst' after : List Bool, messageBits a = before ++ (burst ++ after) → messageBits b = before ++ (burst' ++ after) →
      burst.length = burst'.length → burst.length ≤ 32 → a ≠ b → crc32cReference a crc ≠ crc32cReference b crc := by
  refine ⟨rfl, crc32cReference_append a b crc, ?_, fun _ _ _ _ ha hb hlength hwindow hne => crc32cReference_burst crc hne ha hb hlength hwindow⟩
  rw [crc32cReference, UInt32.xor_assoc, UInt32.xor_self, UInt32.xor_zero]
  exact register_foldl a _

end

end Grafx
