import Aeterna.Lib.Bytes
import Mathlib.Data.List.GetD

/-!
# Modes of operation of a block cipher

Cipher block chaining and counter mode over blocks of `n` bytes, and the padding that fills the last
block with its own length. Chaining is undone by a cipher's inverse
(`cbcDecrypt_cbcEncrypt`), counter mode by itself (`gctr_gctr`), and padding by `unpad`, which takes
no other bytes for padding (`unpad_eq_some_iff`).
-/

namespace Lib.BlockModes

open Bytes

variable {n : ℕ}

/-! ## Blocks -/

def xorBlock (a b : Vector UInt8 n) : Vector UInt8 n := Vector.zipWith (· ^^^ ·) a b

@[simp] theorem getElem_xorBlock (a b : Vector UInt8 n) (i : ℕ) (h : i < n) :
    (xorBlock a b)[i] = a[i] ^^^ b[i] := Vector.getElem_zipWith h

theorem xorBlock_xorBlock (a b : Vector UInt8 n) : xorBlock (xorBlock a b) b = a := by
  ext i h
  rw [getElem_xorBlock, getElem_xorBlock, UInt8.xor_assoc, UInt8.xor_self, UInt8.xor_zero]

theorem blockOf_toList_append (block : Vector UInt8 n) (rest : List UInt8) :
    blockOf n (block.toList ++ rest) 0 = block := by
  ext i h
  rw [blockOf, Vector.getElem_ofFn, Nat.mul_zero, Nat.zero_add, List.getD_append _ _ _ _ (by simpa),
    List.getD_eq_getElem _ _ (by simpa), Vector.getElem_toList]

theorem toList_blockOf_append_drop {data : List UInt8} (h : n ≤ data.length) :
    (blockOf n data 0).toList ++ data.drop n = data := by
  rw [Device.toList_blockOf (by simpa using h), Nat.mul_zero, List.drop_zero,
    List.take_append_drop]

/-! ## Chaining -/

def cbcEncrypt (enc : Vector UInt8 n → Vector UInt8 n) (prev : Vector UInt8 n)
    (data : List UInt8) : List UInt8 :=
  if _ : 0 < n ∧ n ≤ data.length then
    let block := enc (xorBlock (blockOf n data 0) prev)
    block.toList ++ cbcEncrypt enc block (data.drop n)
  else []
termination_by data.length
decreasing_by
  rw [List.length_drop]
  omega

def cbcDecrypt (dec : Vector UInt8 n → Vector UInt8 n) (prev : Vector UInt8 n)
    (data : List UInt8) : List UInt8 :=
  if _ : 0 < n ∧ n ≤ data.length then
    let block := blockOf n data 0
    (xorBlock (dec block) prev).toList ++ cbcDecrypt dec block (data.drop n)
  else []
termination_by data.length
decreasing_by
  rw [List.length_drop]
  omega

variable {enc dec : Vector UInt8 n → Vector UInt8 n} {data : List UInt8}

theorem length_cbcEncrypt (hn : 0 < n) (hlen : data.length % n = 0) (prev : Vector UInt8 n) :
    (cbcEncrypt enc prev data).length = data.length := by
  induction hk : data.length using Nat.strong_induction_on generalizing data prev with
  | _ k ih =>
    rw [cbcEncrypt]
    split_ifs with h
    · have hrest : (data.drop n).length = k - n := by rw [List.length_drop, hk]
      have hmod : (data.drop n).length % n = 0 := by
        rw [List.length_drop, ← Nat.mod_eq_sub_mod h.2, hlen]
      dsimp only
      rw [List.length_append, Vector.length_toList,
        ih _ (by omega) hmod _ hrest]
      omega
    · have : data.length < n := by omega
      rw [Nat.mod_eq_of_lt this] at hlen
      rw [← hk, hlen]
      rfl

theorem cbcDecrypt_cbcEncrypt (hn : 0 < n) (hinv : ∀ block, dec (enc block) = block)
    (hlen : data.length % n = 0) (prev : Vector UInt8 n) :
    cbcDecrypt dec prev (cbcEncrypt enc prev data) = data := by
  induction hk : data.length using Nat.strong_induction_on generalizing data prev with
  | _ k ih =>
    rw [cbcEncrypt]
    split_ifs with h
    · have hmod : (data.drop n).length % n = 0 := by
        rw [List.length_drop, ← Nat.mod_eq_sub_mod h.2, hlen]
      dsimp only
      rw [cbcDecrypt, dif_pos ⟨hn, by simp⟩]
      dsimp only
      rw [blockOf_toList_append, hinv, xorBlock_xorBlock, List.drop_left' (Vector.length_toList),
        ih _ (by rw [List.length_drop]; omega) hmod _ rfl, toList_blockOf_append_drop h.2]
    · have hlt : data.length < n := by omega
      rw [Nat.mod_eq_of_lt hlt] at hlen
      rw [cbcDecrypt, dif_neg (by simp; omega), List.eq_nil_of_length_eq_zero hlen]

/-! ## Counter mode -/

/-- The data against the key stream of the counters `ctr`, `inc ctr` and so on. -/
def gctr (enc inc : Vector UInt8 n → Vector UInt8 n) (ctr : Vector UInt8 n)
    (data : List UInt8) : List UInt8 :=
  if _ : 0 < n ∧ data ≠ [] then
    List.zipWith (· ^^^ ·) (data.take n) (enc ctr).toList ++ gctr enc inc (inc ctr) (data.drop n)
  else []
termination_by data.length
decreasing_by
  have := List.length_pos_iff.mpr (show data ≠ [] by tauto)
  rw [List.length_drop]
  omega

theorem zipWith_xor_zipWith_xor {a b : List UInt8} (h : a.length ≤ b.length) :
    List.zipWith (· ^^^ ·) (List.zipWith (· ^^^ ·) a b) b = a := by
  induction a generalizing b with
  | nil => rfl
  | cons x a ih =>
    cases b with
    | nil => simp at h
    | cons y b =>
      rw [List.zipWith_cons_cons, List.zipWith_cons_cons, ih (Nat.le_of_succ_le_succ h),
        UInt8.xor_assoc, UInt8.xor_self, UInt8.xor_zero]

variable {inc : Vector UInt8 n → Vector UInt8 n}

@[simp] theorem gctr_nil (ctr : Vector UInt8 n) : gctr enc inc ctr [] = [] := by
  rw [gctr, dif_neg fun h => h.2 rfl]

theorem length_gctr (hn : 0 < n) (ctr : Vector UInt8 n) :
    (gctr enc inc ctr data).length = data.length := by
  induction hk : data.length using Nat.strong_induction_on generalizing data ctr with
  | _ k ih =>
    rw [gctr]
    split_ifs with h
    · have hpos := List.length_pos_iff.mpr h.2
      rw [List.length_append, List.length_zipWith, List.length_take, Vector.length_toList,
        ih _ (by rw [List.length_drop]; omega) _ rfl, List.length_drop]
      omega
    · have hnil : data = [] := by tauto
      rw [← hk, hnil]

theorem gctr_gctr (hn : 0 < n) (ctr : Vector UInt8 n) :
    gctr enc inc ctr (gctr enc inc ctr data) = data := by
  induction hk : data.length using Nat.strong_induction_on generalizing data ctr with
  | _ k ih =>
    by_cases hnil : data = []
    · rw [hnil, gctr_nil, gctr_nil]
    · have hpos := List.length_pos_iff.mpr hnil
      have hstep : gctr enc inc ctr data = List.zipWith (· ^^^ ·) (data.take n) (enc ctr).toList ++
          gctr enc inc (inc ctr) (data.drop n) := by
        rw [gctr, dif_pos ⟨hn, hnil⟩]
      have hne : gctr enc inc ctr data ≠ [] := by
        rw [← List.length_pos_iff, length_gctr hn]
        exact hpos
      have hfirst : (List.zipWith (· ^^^ ·) (data.take n) (enc ctr).toList).length =
          (data.take n).length := by
        rw [List.length_zipWith, List.length_take, Vector.length_toList]
        omega
      rw [gctr, dif_pos ⟨hn, hne⟩, hstep]
      -- the first block is the whole of a short text, or a full block
      rcases Nat.le_or_ge n data.length with hle | hle
      · have hlen : (List.zipWith (· ^^^ ·) (data.take n) (enc ctr).toList).length = n := by
          rw [hfirst, List.length_take]
          omega
        rw [List.take_left' hlen, List.drop_left' hlen, zipWith_xor_zipWith_xor (by simp),
          ih _ (by rw [List.length_drop]; omega) _ rfl, List.take_append_drop]
      · have hrest : data.drop n = [] := List.drop_eq_nil_of_le hle
        have hshort : (List.zipWith (· ^^^ ·) (data.take n) (enc ctr).toList).length ≤ n := by
          rw [hfirst, List.length_take]
          omega
        rw [hrest, gctr_nil, List.append_nil, List.take_of_length_le hshort,
          List.drop_eq_nil_of_le hshort, gctr_nil, List.append_nil,
          zipWith_xor_zipWith_xor (by simp), List.take_of_length_le hle]

/-! ## Padding -/

/-- One to `n` bytes that fill the last block, each with their number. -/
def pad (n : ℕ) (data : List UInt8) : List UInt8 :=
  data ++ List.replicate (n - data.length % n) (UInt8.ofNat (n - data.length % n))

def unpad (n : ℕ) (out : List UInt8) : Option (List UInt8) :=
  let count := (out.getD (out.length - 1) 0).toNat
  if count = 0 ∨ count > n then none
  else if (out.drop (out.length - count)).any fun b => b.toNat ≠ count then none
  else some (out.take (out.length - count))

theorem length_pad (n : ℕ) (data : List UInt8) :
    (pad n data).length = data.length + (n - data.length % n) := by
  rw [pad, List.length_append, List.length_replicate]

theorem length_pad_mod (hn : 0 < n) (data : List UInt8) : (pad n data).length % n = 0 := by
  have hlt := Nat.mod_lt data.length hn
  have hdiv := Nat.div_add_mod data.length n
  have hsum : data.length + (n - data.length % n) = n * (data.length / n + 1) := by
    rw [Nat.mul_succ]
    omega
  rw [length_pad n, hsum, Nat.mul_mod_right]

theorem unpad_append_replicate (hbyte : n < 256) {k : ℕ} (hpos : 1 ≤ k) (hk : k ≤ n)
    (data : List UInt8) : unpad n (data ++ List.replicate k (UInt8.ofNat k)) = some data := by
  have hcount : (UInt8.ofNat k).toNat = k := by
    rw [UInt8.toNat_ofNat', Nat.mod_eq_of_lt (by omega)]
  have hlen : (data ++ List.replicate k (UInt8.ofNat k)).length = data.length + k := by
    rw [List.length_append, List.length_replicate]
  have hlast : (data ++ List.replicate k (UInt8.ofNat k)).getD (data.length + k - 1) 0 =
      UInt8.ofNat k := by
    rw [List.getD_append_right _ _ _ _ (by omega),
      List.getD_eq_getElem _ _ (by rw [List.length_replicate]; omega), List.getElem_replicate]
  unfold unpad
  dsimp only
  rw [hlen, hlast, hcount, Nat.add_sub_cancel, if_neg (by omega), List.drop_left, List.take_left,
    if_neg]
  rw [List.any_eq_true]
  rintro ⟨b, hb, hne⟩
  rw [List.eq_of_mem_replicate hb] at hne
  exact of_decide_eq_true hne hcount

theorem unpad_pad (hn : 0 < n) (hbyte : n < 256) (data : List UInt8) :
    unpad n (pad n data) = some data := by
  have hlt := Nat.mod_lt data.length hn
  exact unpad_append_replicate hbyte (by omega) (Nat.sub_le _ _) data

/-- What is taken for padding: one to `n` bytes, each with their number. -/
theorem unpad_eq_some_iff (hbyte : n < 256) {out data : List UInt8} (hlen : n ≤ out.length) :
    unpad n out = some data ↔
      ∃ k, 1 ≤ k ∧ k ≤ n ∧ out = data ++ List.replicate k (UInt8.ofNat k) := by
  constructor
  · intro h
    unfold unpad at h
    generalize hlast : out.getD (out.length - 1) 0 = last at h
    dsimp only at h
    split_ifs at h with hcount hany
    rw [List.any_eq_true, not_exists] at hany
    refine ⟨last.toNat, by omega, by omega, ?_⟩
    have htail : out.drop (out.length - last.toNat) =
        List.replicate last.toNat (UInt8.ofNat last.toNat) := by
      refine List.eq_replicate_iff.mpr ⟨by rw [List.length_drop]; omega, fun b hb => ?_⟩
      have hsame : b.toNat = last.toNat := by
        by_contra hne
        exact hany b ⟨hb, decide_eq_true hne⟩
      rw [← hsame, UInt8.ofNat_toNat]
    rw [← htail, ← Option.some.inj h, List.take_append_drop]
  · rintro ⟨k, hpos, hk, rfl⟩
    exact unpad_append_replicate hbyte hpos hk data

end Lib.BlockModes
