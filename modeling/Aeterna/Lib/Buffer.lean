import Mathlib.Data.List.Basic
import Mathlib.Data.Nat.Bitwise

/-!
# Byte buffers

A buffer is a list of bytes; `slice` reads a piece of it and `splice` overwrites one. What is
overwritten is read back (`slice_splice_inside`), all else is as before
(`slice_splice_of_disjoint`). A bitmap is a buffer by its bits, lowest first in each byte
(`bitmapGet_bitmapSet`).
-/

namespace Lib.Buffer

/-! ## Slices -/

def slice (buf : List UInt8) (offset len : ℕ) : List UInt8 := (buf.drop offset).take len

/-- `buf` with `bytes` in place of what it has at `offset`. -/
def splice (buf : List UInt8) (offset : ℕ) (bytes : List UInt8) : List UInt8 :=
  buf.take offset ++ bytes ++ buf.drop (offset + bytes.length)

variable {buf bytes : List UInt8} {offset len : ℕ}

theorem length_slice (h : offset + len ≤ buf.length) : (slice buf offset len).length = len := by
  rw [slice, List.length_take, List.length_drop]
  omega

theorem length_splice (h : offset + bytes.length ≤ buf.length) :
    (splice buf offset bytes).length = buf.length := by
  rw [splice, List.length_append, List.length_append, List.length_take, List.length_drop]
  omega

theorem slice_slice {a m : ℕ} (h : a + m ≤ len) :
    slice (slice buf offset len) a m = slice buf (offset + a) m := by
  rw [slice, slice, slice, List.drop_take, List.take_take, List.drop_drop,
    Nat.min_eq_left (by omega)]

theorem slice_append_left {rest : List UInt8} (h : offset + len ≤ buf.length) :
    slice (buf ++ rest) offset len = slice buf offset len := by
  rw [slice, slice, List.drop_append_of_le_length (by omega),
    List.take_append_of_le_length (by rw [List.length_drop]; omega)]

theorem slice_append_right {front : List UInt8} {n : ℕ} (hn : n = front.length + offset) :
    slice (front ++ buf) n len = slice buf offset len := by
  rw [hn, slice, slice, List.drop_length_add_append]

theorem slice_flatten (front : List (List UInt8)) {pieces back : List (List UInt8)}
    (hpieces : pieces = front ++ bytes :: back) (hoffset : offset = (front.map List.length).sum)
    (hlen : len = bytes.length) : slice pieces.flatten offset len = bytes := by
  have hskip : offset = front.flatten.length + 0 := by
    rw [hoffset, List.length_flatten, Nat.add_zero]
  rw [hpieces, List.flatten_append, List.flatten_cons, slice_append_right hskip,
    slice_append_left (by omega), slice, List.drop_zero, hlen, List.take_length]

theorem getD_slice {i : ℕ} (hi : i < len) (d : UInt8) :
    (slice buf offset len).getD i d = buf.getD (offset + i) d := by
  rw [slice, List.getD_eq_getElem?_getD, List.getElem?_take_of_lt hi, List.getElem?_drop,
    List.getD_eq_getElem?_getD]

theorem slice_splice_inside {a m : ℕ} (h : offset + bytes.length ≤ buf.length)
    (ham : a + m ≤ bytes.length) :
    slice (splice buf offset bytes) (offset + a) m = slice bytes a m := by
  have hlen : (buf.take offset).length = offset := by
    rw [List.length_take]
    omega
  rw [splice, List.append_assoc, slice_append_right (by rw [hlen]), slice_append_left ham]

theorem slice_splice_of_disjoint {o m : ℕ} (h : offset + bytes.length ≤ buf.length)
    (hom : o + m ≤ offset ∨ offset + bytes.length ≤ o) :
    slice (splice buf offset bytes) o m = slice buf o m := by
  have hlen : (buf.take offset).length = offset := by
    rw [List.length_take]
    omega
  rcases hom with hom | hom
  · have hbuf : buf = buf.take offset ++ buf.drop offset := (buf.take_append_drop offset).symm
    conv_rhs => rw [hbuf]
    rw [splice, List.append_assoc, slice_append_left (by omega), slice_append_left (by omega)]
  · obtain ⟨a, rfl⟩ := Nat.exists_eq_add_of_le hom
    rw [splice, slice_append_right (by rw [List.length_append, hlen]), slice, slice,
      List.drop_drop]

theorem splice_splice {bytes' : List UInt8} (h : offset + bytes.length ≤ buf.length) {n : ℕ}
    (hn : n = offset + bytes.length) :
    splice (splice buf offset bytes) n bytes' = splice buf offset (bytes ++ bytes') := by
  subst hn
  have hlen : (buf.take offset ++ bytes).length = offset + bytes.length := by
    rw [List.length_append, List.length_take]
    omega
  rw [splice, splice, splice, List.take_left' hlen, ← List.drop_drop, List.drop_left' hlen,
    List.drop_drop, List.length_append, Nat.add_assoc, List.append_assoc _ bytes bytes']

theorem splice_to_end (h : offset + bytes.length = buf.length) :
    splice buf offset bytes = buf.take offset ++ bytes := by
  rw [splice, h, List.drop_length, List.append_nil]

theorem slice_splice_front {m : ℕ} (hm : bytes.length ≤ m) (h : offset + m ≤ buf.length) :
    slice (splice buf offset bytes) offset m = splice (slice buf offset m) 0 bytes := by
  have hfront : offset = (buf.take offset).length + 0 := by
    rw [List.length_take]
    omega
  rw [splice, List.append_assoc, slice_append_right hfront, slice, slice, splice, List.drop_zero,
    List.take_zero, List.nil_append, Nat.zero_add, List.drop_take, List.drop_drop,
    List.take_append, List.take_of_length_le hm]

theorem splice_splice_self {bytes' : List UInt8} (h : offset + bytes.length ≤ buf.length)
    (hlen : bytes'.length = bytes.length) :
    splice (splice buf offset bytes) offset bytes' = splice buf offset bytes' := by
  have hfront : (buf.take offset).length = offset := by
    rw [List.length_take]
    omega
  have hboth : (buf.take offset ++ bytes).length = offset + bytes.length := by
    rw [List.length_append, hfront]
  rw [splice, splice, splice, List.append_assoc (buf.take offset) bytes, List.take_left' hfront,
    ← List.append_assoc, hlen, List.drop_left' hboth]

theorem splice_slice_self (h : offset + len ≤ buf.length) :
    splice buf offset (slice buf offset len) = buf := by
  rw [splice, length_slice h, slice, ← List.drop_drop, List.append_assoc, List.take_append_drop,
    List.take_append_drop]

/-- The pieces, each put in place of what the buffer has at its offset. -/
def splices (buf : List UInt8) (pieces : List (ℕ × List UInt8)) : List UInt8 :=
  pieces.foldl (fun buf piece => splice buf piece.1 piece.2) buf

/-! ## Bitmaps -/

def bitmapGet (bmap : List UInt8) (bit : ℕ) : Bool :=
  let byte := bit / 8
  let mask : UInt8 := 1 <<< UInt8.ofNat (bit % 8)
  decide (byte < bmap.length) && bmap.getD byte 0 &&& mask != 0

def bitmapSet (bmap : List UInt8) (bit : ℕ) (val : Bool) : List UInt8 :=
  let byte := bit / 8
  let mask : UInt8 := 1 <<< UInt8.ofNat (bit % 8)
  if byte < bmap.length then
    bmap.set byte (if val then bmap.getD byte 0 ||| mask else bmap.getD byte 0 &&& ~~~mask)
  else bmap

@[simp] theorem length_bitmapSet (bmap : List UInt8) (bit : ℕ) (val : Bool) :
    (bitmapSet bmap bit val).length = bmap.length := by
  unfold bitmapSet
  dsimp only
  split_ifs <;> simp

theorem testBit_mask (i j : Fin 8) :
    ((1 : UInt8) <<< UInt8.ofNat i).toNat.testBit j = decide (i = j) ∧
      (~~~((1 : UInt8) <<< UInt8.ofNat i)).toNat.testBit j = decide (i ≠ j) := by
  revert i j
  decide

theorem and_mask_ne_zero (b : UInt8) (j : Fin 8) :
    (b &&& 1 <<< UInt8.ofNat j != 0) = b.toNat.testBit j := by
  have hmask : ((1 : UInt8) <<< UInt8.ofNat j).toNat = 2 ^ j.val := by
    revert j
    decide
  rw [bne, ← Bool.not_not (b.toNat.testBit j)]
  congr 1
  rw [Bool.eq_iff_iff, beq_iff_eq, ← UInt8.toNat_inj, UInt8.toNat_and, hmask, Nat.and_two_pow]
  cases b.toNat.testBit j <;> simp

theorem bit_of_set (b : UInt8) (i j : Fin 8) (val : Bool) :
    ((if val then b ||| 1 <<< UInt8.ofNat i else b &&& ~~~(1 <<< UInt8.ofNat i)) &&&
      1 <<< UInt8.ofNat j != 0) = if i = j then val else b &&& 1 <<< UInt8.ofNat j != 0 := by
  obtain ⟨hmask, hcompl⟩ := testBit_mask i j
  rw [and_mask_ne_zero, and_mask_ne_zero]
  cases val with
  | true =>
    rw [if_pos rfl, UInt8.toNat_or, Nat.testBit_or, hmask]
    by_cases hij : i = j <;> simp [hij]
  | false =>
    rw [if_neg Bool.false_ne_true, UInt8.toNat_and, Nat.testBit_and, hcompl]
    by_cases hij : i = j <;> simp [hij]

theorem bitmapGet_bitmapSet (bmap : List UInt8) {i : ℕ} (hi : i / 8 < bmap.length) (j : ℕ)
    (val : Bool) :
    bitmapGet (bitmapSet bmap i val) j = if i = j then val else bitmapGet bmap j := by
  unfold bitmapGet
  dsimp only
  rw [length_bitmapSet]
  unfold bitmapSet
  dsimp only
  rw [if_pos hi]
  by_cases hbyte : i / 8 = j / 8
  · have hbit := bit_of_set (bmap.getD (i / 8) 0) ⟨i % 8, by omega⟩ ⟨j % 8, by omega⟩ val
    rw [← hbyte, decide_eq_true hi, List.getD_eq_getElem?_getD, List.getElem?_set_self hi]
    simp only [Option.getD_some, Bool.true_and]
    have hij : (⟨i % 8, by omega⟩ : Fin 8) = ⟨j % 8, by omega⟩ ↔ i = j := by
      rw [Fin.mk.injEq]
      omega
    simp only [hij] at hbit
    exact hbit
  · have hij : i ≠ j := fun h => hbyte (by rw [h])
    rw [if_neg hij, List.getD_eq_getElem?_getD, List.getElem?_set_ne hbyte,
      List.getD_eq_getElem?_getD]

theorem bitmapGet_replicate (n bit : ℕ) : bitmapGet (List.replicate n 0) bit = false := by
  unfold bitmapGet
  dsimp only
  have hzero : (List.replicate n (0 : UInt8)).getD (bit / 8) 0 = 0 := by
    rw [List.getD_eq_getElem?_getD, List.getElem?_replicate]
    split_ifs <;> rfl
  rw [hzero]
  simp

end Lib.Buffer
