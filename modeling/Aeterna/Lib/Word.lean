import Mathlib.Data.Nat.Bitwise
import Mathlib.Tactic.Common

/-!
# Arithmetic and masks of 64-bit words

`UInt64` wraps. The lemmas here turn a sum or product that does not wrap, a masked word and a
shifted word into the natural numbers they denote, so that addresses can be compared by `omega`.
The last section does the same for `Int64` and the integers, at the word size 32.
-/

namespace Lib.Word

theorem toNat_add_of_lt {a b : UInt64} (h : a.toNat + b.toNat < 2 ^ 64) :
    (a + b).toNat = a.toNat + b.toNat := by
  rw [UInt64.toNat_add, Nat.mod_eq_of_lt h]

theorem toNat_mul_of_lt {a b : UInt64} (h : a.toNat * b.toNat < 2 ^ 64) :
    (a * b).toNat = a.toNat * b.toNat := by
  rw [UInt64.toNat_mul, Nat.mod_eq_of_lt h]

theorem or_and_distrib (x y z : UInt64) : (x ||| y) &&& z = (x &&& z) ||| (y &&& z) := by
  rw [← UInt64.toBitVec_inj]
  simp only [UInt64.toBitVec_and, UInt64.toBitVec_or]
  exact BitVec.and_or_distrib_right

/-- Clearing the low `k` bits rounds down to a multiple of `2 ^ k`. -/
theorem toNat_and_not_mask (x : UInt64) {m : UInt64} {k : ℕ} (hm : m.toNat = 2 ^ k - 1) :
    (x &&& ~~~m).toNat = x.toNat / 2 ^ k * 2 ^ k := by
  have hnot : (~~~m).toNat = 2 ^ 64 - (m.toNat + 1) := by
    rw [UInt64.toNat_not]
    simp only [UInt64.size]
    omega
  rw [UInt64.toNat_and, hnot]
  refine Nat.eq_of_testBit_eq fun i => ?_
  rw [Nat.testBit_and, Nat.testBit_two_pow_sub_succ (UInt64.toNat_lt m), hm,
    Nat.testBit_two_pow_sub_one, ← Nat.shiftLeft_eq, Nat.testBit_shiftLeft,
    Nat.testBit_div_two_pow]
  by_cases hi : i < k
  · simp [hi]
  · rw [Nat.sub_add_cancel (Nat.le_of_not_lt hi)]
    by_cases h64 : i < 64
    · simp [hi, h64, Nat.le_of_not_lt hi]
    · have hx : x.toNat.testBit i = false :=
        Nat.testBit_lt_two_pow (lt_of_lt_of_le (UInt64.toNat_lt x)
          (Nat.pow_le_pow_right (by omega) (Nat.le_of_not_lt h64)))
      simp [hx]

theorem toNat_and_field (x : UInt64) {m : UInt64} {j k : ℕ} (hm : m.toNat = (2 ^ k - 1) * 2 ^ j) :
    (x &&& m).toNat = x.toNat / 2 ^ j % 2 ^ k * 2 ^ j := by
  rw [UInt64.toNat_and, hm]
  refine Nat.eq_of_testBit_eq fun i => ?_
  rw [Nat.testBit_and, Nat.testBit_mul_two_pow, Nat.testBit_mul_two_pow,
    Nat.testBit_two_pow_sub_one, Nat.testBit_mod_two_pow, Nat.testBit_div_two_pow]
  by_cases hi : j ≤ i
  · rw [Nat.sub_add_cancel hi, Bool.and_comm]
    simp [hi]
  · simp [hi]

/-- The smallest multiple of `size`, a power of two, that is not below `x`. -/
def alignUp (size x : UInt64) : UInt64 := (x + size - 1) &&& ~~~(size - 1)

theorem toNat_alignUp {size x : UInt64} {k : ℕ} (hs : size.toNat = 2 ^ k)
    (h : x.toNat + size.toNat < 2 ^ 64) :
    (alignUp size x).toNat = (x.toNat + 2 ^ k - 1) / 2 ^ k * 2 ^ k := by
  have hpos : 0 < 2 ^ k := Nat.two_pow_pos k
  have hsum := toNat_add_of_lt h
  have hone : (1 : UInt64).toNat = 1 := rfl
  have hmask : (size - 1).toNat = 2 ^ k - 1 := by
    rw [UInt64.toNat_sub_of_le _ _ (UInt64.le_iff_toNat_le.mpr (by omega)), hs, hone]
  have hsub : (x + size - 1).toNat = x.toNat + 2 ^ k - 1 := by
    rw [UInt64.toNat_sub_of_le _ _ (UInt64.le_iff_toNat_le.mpr (by omega)), hsum, hs, hone]
  rw [alignUp, toNat_and_not_mask _ hmask, hsub]

theorem alignUp_mod {size x : UInt64} {k : ℕ} (hs : size.toNat = 2 ^ k)
    (h : x.toNat + size.toNat < 2 ^ 64) : (alignUp size x).toNat % 2 ^ k = 0 := by
  rw [toNat_alignUp hs h, Nat.mul_mod_left]

theorem le_alignUp {size x : UInt64} {k : ℕ} (hs : size.toNat = 2 ^ k)
    (h : x.toNat + size.toNat < 2 ^ 64) : x.toNat ≤ (alignUp size x).toNat := by
  have hpos : 0 < 2 ^ k := Nat.two_pow_pos k
  rw [toNat_alignUp hs h]
  have hdiv := Nat.div_add_mod' (x.toNat + 2 ^ k - 1) (2 ^ k)
  have hmod := Nat.mod_lt (x.toNat + 2 ^ k - 1) hpos
  generalize 2 ^ k = n at *
  omega

/-! ## Signed words -/

theorem toInt_add_of_bounds {a b : Int64} (hlow : -2 ^ 63 ≤ a.toInt + b.toInt)
    (hhigh : a.toInt + b.toInt < 2 ^ 63) : (a + b).toInt = a.toInt + b.toInt := by
  rw [Int64.toInt_add]
  apply Int.bmod_eq_of_le <;> omega

theorem toInt_sub_of_bounds {a b : Int64} (hlow : -2 ^ 63 ≤ a.toInt - b.toInt)
    (hhigh : a.toInt - b.toInt < 2 ^ 63) : (a - b).toInt = a.toInt - b.toInt := by
  rw [Int64.toInt_sub]
  apply Int.bmod_eq_of_le <;> omega

theorem toInt_add_base {a : Int64} (h : a.toInt < 0) :
    (a + 0x100000000).toInt = a.toInt + 2 ^ 32 := by
  have hbase : (0x100000000 : Int64).toInt = 2 ^ 32 := by decide
  have hlow := a.le_toInt
  generalize (0x100000000 : Int64) = base at hbase ⊢
  rw [toInt_add_of_bounds] <;> rw [hbase] <;> omega

def signed (w : UInt32) : Int64 := w.toUInt64.toInt64

theorem toInt_signed (w : UInt32) : (signed w).toInt = w.toNat := by
  have hw := w.toNat_lt
  have hval : (signed w).toBitVec.toNat = w.toNat := rfl
  rw [← Int64.toInt_toBitVec, BitVec.toInt_eq_toNat_bmod, hval]
  apply Int.bmod_eq_of_le <;> omega

theorem toNat_truncate {a : Int64} (h : 0 ≤ a.toInt) (hlt : a.toInt < 2 ^ 32) :
    (a.toUInt64.toUInt32.toNat : ℤ) = a.toInt := by
  have h64 := a.toBitVec.isLt
  have hval : a.toUInt64.toNat = a.toBitVec.toNat := rfl
  rw [UInt64.toNat_toUInt32, hval]
  rw [← Int64.toInt_toBitVec, BitVec.toInt_eq_toNat_bmod] at *
  simp only [Int.bmod] at *
  omega

end Lib.Word
