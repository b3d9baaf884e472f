import Mathlib
import Aeterna.Net.Tls.Gcm

/-!
# Multiplication in the field of GHASH

A block stands for a polynomial over the field of two elements, its first bit for the constant
term. One pass of the loop of `gf128_mul` adds a multiple of `v` to `z` and multiplies `v` by `X`
modulo `X ^ 128 + X ^ 7 + X ^ 2 + X + 1`; after all of them `z` is the product of the two
polynomials (`polynomial_gf128Mul`).
-/

namespace Aeterna.Net.Tls

open Polynomial Lib.BlockModes

/-! ## Blocks as polynomials -/

/-- Bit `i` of a block, from the most significant bit of the first byte on. -/
def blockBit (x : Block) (i : Fin 128) : Bool :=
  (getElem x (i.val / 8) (byte_lt i)).toBitVec.getMsbD (i.val % 8)

/-- The polynomial of a block, with bit `i` as the coefficient of `X ^ i`. -/
noncomputable def polynomial (x : Block) : (ZMod 2)[X] :=
  ∑ i : Fin 128, C (if blockBit x i then 1 else 0) * X ^ i.val

noncomputable def ghashModulus : (ZMod 2)[X] := X ^ 128 + (X ^ 7 + X ^ 2 + X + 1)

/-- The block of the constant polynomial 1. -/
def gcmOne : Block := (Vector.replicate 16 0).set 0 0x80 first_lt

/-- The block that `0xE1` in front stands for. -/
def reduction : Block := (Vector.replicate 16 0).set 0 0xE1 first_lt

theorem ghashModulus_monic : ghashModulus.Monic := by
  unfold ghashModulus
  monicity!

theorem degree_ghashModulus : ghashModulus.degree = 128 := by
  unfold ghashModulus
  compute_degree!

theorem coeff_polynomial (x : Block) (i : Fin 128) :
    (polynomial x).coeff i = if blockBit x i then 1 else 0 := by
  simp only [polynomial, finsetSum_coeff, coeff_C_mul, coeff_X_pow, Fin.val_inj, mul_ite, mul_one,
    mul_zero, Finset.sum_ite_eq, Finset.mem_univ, if_true]

theorem degree_polynomial_lt (x : Block) : (polynomial x).degree < ghashModulus.degree := by
  rw [degree_ghashModulus]
  exact degree_sum_fin_lt _

theorem blockBit_injective {x y : Block} (h : ∀ i, blockBit x i = blockBit y i) : x = y := by
  refine Vector.ext fun k hk => ?_
  refine UInt8.toBitVec_inj.mp (BitVec.eq_of_getMsbD_eq fun j hj => ?_)
  have hbit := h ⟨8 * k + j, by omega⟩
  have hdiv : (8 * k + j) / 8 = k := by omega
  have hmod : (8 * k + j) % 8 = j := by omega
  simpa only [blockBit, hdiv, hmod] using hbit

theorem polynomial_injective : Function.Injective polynomial := by
  intro x y h
  refine blockBit_injective fun i => ?_
  have hcoeff := congrArg (coeff · i.val) h
  simp only [coeff_polynomial] at hcoeff
  revert hcoeff
  cases blockBit x i <;> cases blockBit y i <;> simp

theorem polynomial_xorBlock (x y : Block) :
    polynomial (xorBlock x y) = polynomial x + polynomial y := by
  rw [polynomial, polynomial, polynomial, ← Finset.sum_add_distrib]
  refine Finset.sum_congr rfl fun i _ => ?_
  have hbit : blockBit (xorBlock x y) i = (blockBit x i ^^ blockBit y i) := by
    simp [blockBit]
  rw [hbit, ← add_mul, ← C_add]
  cases blockBit x i <;> cases blockBit y i <;> simp [CharTwo.add_self_eq_zero]

theorem polynomial_of_bits {x : Block} {s : Finset (Fin 128)}
    (h : ∀ i, blockBit x i = decide (i ∈ s)) : polynomial x = ∑ i ∈ s, X ^ i.val := by
  simp [polynomial, h, apply_ite, ite_mul]

theorem polynomial_reduction : polynomial reduction = X ^ 7 + X ^ 2 + X + 1 := by
  rw [polynomial_of_bits (s := {7, 2, 1, 0}) (by decide)]
  simp [Finset.sum_insert, add_assoc]

theorem polynomial_gcmOne : polynomial gcmOne = 1 := by
  rw [polynomial_of_bits (s := {0}) (by decide), Finset.sum_singleton]
  exact pow_zero X

/-! ## Multiplication by `X` -/

/-- Bit `j` of a byte of the shifted block: the bit before, or the last bit of the byte before. -/
theorem getMsbD_shifted (a b : UInt8) {j : ℕ} (hj : j < 8) :
    ((a >>> 1) ||| ((b &&& 1) <<< 7)).toBitVec.getMsbD j =
      if j = 0 then b.toBitVec.getMsbD 7 else a.toBitVec.getMsbD (j - 1) := by
  interval_cases j <;> simp [BitVec.getMsbD]

theorem blockBit_shiftBlock_succ (v : Block) (i : Fin 127) :
    blockBit (shiftBlock v) i.succ = blockBit v i.castSucc := by
  have hi := i.isLt
  simp only [blockBit, shiftBlock, Vector.getElem_ofFn, Vector.get_eq_getElem, Fin.val_succ,
    Fin.val_castSucc]
  by_cases hfirst : (i.val + 1) / 8 = 0
  · have hshift := getMsbD_shifted v[0] 0 (show (i.val + 1) % 8 < 8 by omega)
    have hdiv : i.val / 8 = 0 := by omega
    have hmod : (i.val + 1) % 8 - 1 = i.val % 8 := by omega
    rw [if_neg (by omega), hmod] at hshift
    simpa only [hfirst, if_true, hdiv, UInt8.zero_and, UInt8.zero_shiftLeft, UInt8.or_zero] using
      hshift
  · rw [if_neg hfirst, getMsbD_shifted _ _ (by omega)]
    split_ifs with hstart
    · have hdiv : (i.val + 1) / 8 - 1 = i.val / 8 := by omega
      have hmod : i.val % 8 = 7 := by omega
      simp only [hdiv, hmod]
    · have hdiv : (i.val + 1) / 8 = i.val / 8 := by omega
      have hmod : (i.val + 1) % 8 - 1 = i.val % 8 := by omega
      simp only [hdiv, hmod]

theorem polynomial_shiftBlock (v : Block) :
    polynomial v * X =
      polynomial (shiftBlock v) + if blockBit v (Fin.last 127) then X ^ 128 else 0 := by
  have hzero : blockBit (shiftBlock v) 0 = false := by
    simp [blockBit, shiftBlock, Vector.get_eq_getElem]
  have hshift := Fin.sum_univ_succ fun i : Fin 128 =>
    (C (if blockBit (shiftBlock v) i then 1 else 0) * X ^ i.val : (ZMod 2)[X])
  have hself := Fin.sum_univ_castSucc fun i : Fin 128 =>
    (C (if blockBit v i then 1 else 0) * X ^ i.val : (ZMod 2)[X])
  have hlast : C (if blockBit v (Fin.last 127) then 1 else 0) * X ^ 127 * X =
      (if blockBit v (Fin.last 127) then X ^ 128 else 0 : (ZMod 2)[X]) := by
    by_cases hbit : blockBit v (Fin.last 127) = true
    · rw [if_pos hbit, if_pos hbit, map_one, one_mul, ← pow_succ]
    · rw [if_neg hbit, if_neg hbit, map_zero, zero_mul, zero_mul]
  simp only [hzero, blockBit_shiftBlock_succ, Fin.val_succ, pow_succ, Bool.false_eq_true, if_false,
    map_zero, zero_mul, zero_add, ← mul_assoc] at hshift
  simp only [Fin.val_castSucc, Fin.val_last] at hself
  rw [polynomial, polynomial, hshift, hself, add_mul, Finset.sum_mul, hlast]

theorem shift_and_one (b : UInt8) {j : ℕ} (hj : j < 8) :
    (b >>> (7 - UInt8.ofNat j)) &&& 1 = 1 ↔ b.toBitVec.getMsbD j = true := by
  refine forall_uint8 (p := fun b => (b >>> (7 - UInt8.ofNat j)) &&& 1 = 1 ↔
    b.toBitVec.getMsbD j = true) ?_ b
  interval_cases j <;> decide +kernel

/-- The last part of a pass over `v`. -/
def mulX (v : Block) : Block :=
  if getElem v 15 last_lt &&& 1 = 1 then
    (shiftBlock v).set 0 (getElem (shiftBlock v) 0 first_lt ^^^ 0xE1) first_lt
  else shiftBlock v

theorem mk_mulX (v : Block) :
    AdjoinRoot.mk ghashModulus (polynomial (mulX v)) =
      AdjoinRoot.mk ghashModulus (polynomial v * X) := by
  have htest : v[15] &&& 1 = 1 ↔ v[15].toBitVec.getMsbD 7 = true := by
    simpa using shift_and_one v[15] (show 7 < 8 by decide)
  have hlast : v[15] &&& 1 = 1 ↔ blockBit v (Fin.last 127) = true := htest
  have hset : (shiftBlock v).set 0 ((shiftBlock v)[0] ^^^ 0xE1) =
      xorBlock (shiftBlock v) reduction := by
    refine Vector.ext fun k hk => ?_
    rw [getElem_xorBlock, reduction, Vector.getElem_set, Vector.getElem_set]
    split_ifs with h
    · subst h
      rfl
    · rw [Vector.getElem_replicate, UInt8.xor_zero]
  have hmul := polynomial_shiftBlock v
  have hmodulus : ghashModulus = X ^ 7 + X ^ 2 + X + 1 + X ^ 128 := by
    unfold ghashModulus
    ring
  unfold mulX
  by_cases hbit : blockBit v (Fin.last 127) = true
  · rw [if_pos hbit] at hmul
    rw [if_pos (hlast.mpr hbit), hset, polynomial_xorBlock, polynomial_reduction,
      AdjoinRoot.mk_eq_mk, hmul, add_sub_add_left_eq_sub, CharTwo.sub_eq_add, ← hmodulus]
  · rw [if_neg hbit, add_zero] at hmul
    rw [if_neg (mt hlast.mp hbit), hmul]

/-! ## The loop -/

theorem gf128Step_eq (x z v : Block) (i : Fin 128) :
    gf128Step x (z, v) i = (if blockBit x i then xorBlock z v else z, mulX v) := by
  have hbit := shift_and_one x[i.val / 8] (Nat.mod_lt i.val (by decide : 0 < 8))
  simp only [gf128Step, mulX, hbit, blockBit]
  rfl

/-- The part of the polynomial that the bits `is` make up, lowest first. -/
noncomputable def horner (x : Block) (is : List (Fin 128)) : (ZMod 2)[X] :=
  is.foldr (fun i p => C (if blockBit x i then 1 else 0) + X * p) 0

theorem horner_cons (x : Block) (i : Fin 128) (is : List (Fin 128)) :
    horner x (i :: is) = C (if blockBit x i then 1 else 0) + X * horner x is :=
  rfl

/-- The passes over some bits of `x`, by Horner's rule. -/
theorem mk_foldl_gf128Step (x : Block) (is : List (Fin 128)) (z v : Block) :
    AdjoinRoot.mk ghashModulus (polynomial (is.foldl (gf128Step x) (z, v)).1) =
      AdjoinRoot.mk ghashModulus (polynomial z + polynomial v * horner x is) := by
  induction is generalizing z v with
  | nil => simp [horner]
  | cons i is ih =>
    have hz : polynomial (if blockBit x i then xorBlock z v else z) =
        polynomial z + polynomial v * C (if blockBit x i then 1 else 0) := by
      split_ifs
      · rw [polynomial_xorBlock, map_one, mul_one]
      · rw [map_zero, mul_zero, add_zero]
    rw [List.foldl_cons, gf128Step_eq, ih, horner_cons, hz]
    simp only [map_add, map_mul, mk_mulX]
    ring

theorem foldr_horner {n : ℕ} (f : Fin n → ZMod 2) :
    (List.finRange n).foldr (fun i p => C (f i) + X * p) 0 = ∑ i, C (f i) * X ^ i.val := by
  induction n with
  | zero => simp
  | succ n ih =>
    rw [List.finRange_succ, List.foldr_cons, List.foldr_map, ih fun i => f i.succ,
      Fin.sum_univ_succ, Finset.mul_sum]
    simp only [Fin.val_zero, pow_zero, mul_one, Fin.val_succ, pow_succ]
    congr 1
    refine Finset.sum_congr rfl fun i _ => ?_
    ring

theorem horner_finRange (x : Block) : horner x (List.finRange 128) = polynomial x :=
  foldr_horner fun i => if blockBit x i then 1 else 0

theorem polynomial_gf128Mul_eq (x y : Block) :
    polynomial (gf128Mul x y) = polynomial x * polynomial y %ₘ ghashModulus := by
  have hzero : polynomial (Vector.replicate 16 0) = 0 := by
    simp [polynomial, blockBit]
  have hmk := mk_foldl_gf128Step x (List.finRange 128) (Vector.replicate 16 0) y
  rw [horner_finRange, hzero, zero_add, mul_comm] at hmk
  rw [← (modByMonic_eq_self_iff ghashModulus_monic).mpr (degree_polynomial_lt (gf128Mul x y))]
  exact modByMonic_eq_of_dvd_sub ghashModulus_monic (AdjoinRoot.mk_eq_mk.mp hmk)

/-- **GHASH multiplication.** The product of the polynomials modulo the polynomial of GCM; so it is
commutative, distributes over `xor` and has a unit. -/
theorem polynomial_gf128Mul (x y z : Block) :
    polynomial (gf128Mul x y) = polynomial x * polynomial y %ₘ ghashModulus ∧
      gf128Mul x y = gf128Mul y x ∧
      gf128Mul x (xorBlock y z) = xorBlock (gf128Mul x y) (gf128Mul x z) ∧
      gf128Mul x gcmOne = x := by
  refine ⟨polynomial_gf128Mul_eq x y, polynomial_injective ?_, polynomial_injective ?_,
    polynomial_injective ?_⟩
  · rw [polynomial_gf128Mul_eq, polynomial_gf128Mul_eq, mul_comm]
  · rw [polynomial_xorBlock, polynomial_gf128Mul_eq, polynomial_gf128Mul_eq, polynomial_gf128Mul_eq,
      polynomial_xorBlock, mul_add, add_modByMonic]
  · rw [polynomial_gf128Mul_eq, polynomial_gcmOne, mul_one]
    exact (modByMonic_eq_self_iff ghashModulus_monic).mpr (degree_polynomial_lt x)

end Aeterna.Net.Tls
