import Aeterna.Lib.BlockModes
import Aeterna.Lib.Buffer
import Aeterna.Net.Tcp
import Mathlib.Tactic.IntervalCases

/-!
# AES-128 in CBC mode

`net/tls/aes.rs`: the key expansion, the encryption and the decryption of a block, and cipher block
chaining with padding. Each layer of a round is undone by its inverse, so decryption with the same
round keys undoes encryption (`aes128DecryptBlock_encryptBlock`); for the columns this is arithmetic
in the field of 256 elements, where multiplication by a constant is linear (`gfMul_xor`).
-/

namespace Aeterna.Net.Tls

open Lib.Bytes Lib.Buffer Lib.BlockModes

abbrev Block := Vector UInt8 16

/-! ## Tables -/

def sbox : List UInt8 := [
  0x63, 0x7c, 0x77, 0x7b, 0xf2, 0x6b, 0x6f, 0xc5, 0x30, 0x01, 0x67, 0x2b, 0xfe, 0xd7, 0xab, 0x76,
  0xca, 0x82, 0xc9, 0x7d, 0xfa, 0x59, 0x47, 0xf0, 0xad, 0xd4, 0xa2, 0xaf, 0x9c, 0xa4, 0x72, 0xc0,
  0xb7, 0xfd, 0x93, 0x26, 0x36, 0x3f, 0xf7, 0xcc, 0x34, 0xa5, 0xe5, 0xf1, 0x71, 0xd8, 0x31, 0x15,
  0x04, 0xc7, 0x23, 0xc3, 0x18, 0x96, 0x05, 0x9a, 0x07, 0x12, 0x80, 0xe2, 0xeb, 0x27, 0xb2, 0x75,
  0x09, 0x83, 0x2c, 0x1a, 0x1b, 0x6e, 0x5a, 0xa0, 0x52, 0x3b, 0xd6, 0xb3, 0x29, 0xe3, 0x2f, 0x84,
  0x53, 0xd1, 0x00, 0xed, 0x20, 0xfc, 0xb1, 0x5b, 0x6a, 0xcb, 0xbe, 0x39, 0x4a, 0x4c, 0x58, 0xcf,
  0xd0, 0xef, 0xaa, 0xfb, 0x43, 0x4d, 0x33, 0x85, 0x45, 0xf9, 0x02, 0x7f, 0x50, 0x3c, 0x9f, 0xa8,
  0x51, 0xa3, 0x40, 0x8f, 0x92, 0x9d, 0x38, 0xf5, 0xbc, 0xb6, 0xda, 0x21, 0x10, 0xff, 0xf3, 0xd2,
  0xcd, 0x0c, 0x13, 0xec, 0x5f, 0x97, 0x44, 0x17, 0xc4, 0xa7, 0x7e, 0x3d, 0x64, 0x5d, 0x19, 0x73,
  0x60, 0x81, 0x4f, 0xdc, 0x22, 0x2a, 0x90, 0x88, 0x46, 0xee, 0xb8, 0x14, 0xde, 0x5e, 0x0b, 0xdb,
  0xe0, 0x32, 0x3a, 0x0a, 0x49, 0x06, 0x24, 0x5c, 0xc2, 0xd3, 0xac, 0x62, 0x91, 0x95, 0xe4, 0x79,
  0xe7, 0xc8, 0x37, 0x6d, 0x8d, 0xd5, 0x4e, 0xa9, 0x6c, 0x56, 0xf4, 0xea, 0x65, 0x7a, 0xae, 0x08,
  0xba, 0x78, 0x25, 0x2e, 0x1c, 0xa6, 0xb4, 0xc6, 0xe8, 0xdd, 0x74, 0x1f, 0x4b, 0xbd, 0x8b, 0x8a,
  0x70, 0x3e, 0xb5, 0x66, 0x48, 0x03, 0xf6, 0x0e, 0x61, 0x35, 0x57, 0xb9, 0x86, 0xc1, 0x1d, 0x9e,
  0xe1, 0xf8, 0x98, 0x11, 0x69, 0xd9, 0x8e, 0x94, 0x9b, 0x1e, 0x87, 0xe9, 0xce, 0x55, 0x28, 0xdf,
  0x8c, 0xa1, 0x89, 0x0d, 0xbf, 0xe6, 0x42, 0x68, 0x41, 0x99, 0x2d, 0x0f, 0xb0, 0x54, 0xbb, 0x16]

def invSbox : List UInt8 := [
  0x52, 0x09, 0x6a, 0xd5, 0x30, 0x36, 0xa5, 0x38, 0xbf, 0x40, 0xa3, 0x9e, 0x81, 0xf3, 0xd7, 0xfb,
  0x7c, 0xe3, 0x39, 0x82, 0x9b, 0x2f, 0xff, 0x87, 0x34, 0x8e, 0x43, 0x44, 0xc4, 0xde, 0xe9, 0xcb,
  0x54, 0x7b, 0x94, 0x32, 0xa6, 0xc2, 0x23, 0x3d, 0xee, 0x4c, 0x95, 0x0b, 0x42, 0xfa, 0xc3, 0x4e,
  0x08, 0x2e, 0xa1, 0x66, 0x28, 0xd9, 0x24, 0xb2, 0x76, 0x5b, 0xa2, 0x49, 0x6d, 0x8b, 0xd1, 0x25,
  0x72, 0xf8, 0xf6, 0x64, 0x86, 0x68, 0x98, 0x16, 0xd4, 0xa4, 0x5c, 0xcc, 0x5d, 0x65, 0xb6, 0x92,
  0x6c, 0x70, 0x48, 0x50, 0xfd, 0xed, 0xb9, 0xda, 0x5e, 0x15, 0x46, 0x57, 0xa7, 0x8d, 0x9d, 0x84,
  0x90, 0xd8, 0xab, 0x00, 0x8c, 0xbc, 0xd3, 0x0a, 0xf7, 0xe4, 0x58, 0x05, 0xb8, 0xb3, 0x45, 0x06,
  0xd0, 0x2c, 0x1e, 0x8f, 0xca, 0x3f, 0x0f, 0x02, 0xc1, 0xaf, 0xbd, 0x03, 0x01, 0x13, 0x8a, 0x6b,
  0x3a, 0x91, 0x11, 0x41, 0x4f, 0x67, 0xdc, 0xea, 0x97, 0xf2, 0xcf, 0xce, 0xf0, 0xb4, 0xe6, 0x73,
  0x96, 0xac, 0x74, 0x22, 0xe7, 0xad, 0x35, 0x85, 0xe2, 0xf9, 0x37, 0xe8, 0x1c, 0x75, 0xdf, 0x6e,
  0x47, 0xf1, 0x1a, 0x71, 0x1d, 0x29, 0xc5, 0x89, 0x6f, 0xb7, 0x62, 0x0e, 0xaa, 0x18, 0xbe, 0x1b,
  0xfc, 0x56, 0x3e, 0x4b, 0xc6, 0xd2, 0x79, 0x20, 0x9a, 0xdb, 0xc0, 0xfe, 0x78, 0xcd, 0x5a, 0xf4,
  0x1f, 0xdd, 0xa8, 0x33, 0x88, 0x07, 0xc7, 0x31, 0xb1, 0x12, 0x10, 0x59, 0x27, 0x80, 0xec, 0x5f,
  0x60, 0x51, 0x7f, 0xa9, 0x19, 0xb5, 0x4a, 0x0d, 0x2d, 0xe5, 0x7a, 0x9f, 0x93, 0xc9, 0x9c, 0xef,
  0xa0, 0xe0, 0x3b, 0x4d, 0xae, 0x2a, 0xf5, 0xb0, 0xc8, 0xeb, 0xbb, 0x3c, 0x83, 0x53, 0x99, 0x61,
  0x17, 0x2b, 0x04, 0x7e, 0xba, 0x77, 0xd6, 0x26, 0xe1, 0x69, 0x14, 0x63, 0x55, 0x21, 0x0c, 0x7d]

def rcon : List UInt8 := [0x01, 0x02, 0x04, 0x08, 0x10, 0x20, 0x40, 0x80, 0x1b, 0x36]

def subByte (b : UInt8) : UInt8 := sbox.getD b.toNat 0

def invSubByte (b : UInt8) : UInt8 := invSbox.getD b.toNat 0

/-! ## Key expansion -/

/-- One pass of the loop over the words of the key schedule. -/
def keyStep (w : List UInt32) (i : ℕ) : List UInt32 :=
  let temp := w.getD (i - 1) 0
  let temp :=
    if i % 4 = 0 then
      let rotated : UInt32 := ⟨temp.toBitVec.rotateLeft 8⟩
      let substituted := UInt32.ofNat (beValue ((beBytes 4 rotated.toNat).map subByte))
      substituted ^^^ (UInt32.ofNat (rcon.getD (i / 4 - 1) 0).toNat <<< 24)
    else temp
  w.set i (w.getD (i - 4) 0 ^^^ temp)

/-- The 44 words of the round keys. -/
def keyExpansion (key : Bytes) : List UInt32 :=
  (List.range' 4 40).foldl keyStep <| (List.range 44).map fun i =>
    if i < 4 then UInt32.ofNat (beValue (slice key (4 * i) 4)) else 0

/-! ## Layers of a round -/

def roundKey (rk : List UInt32) (round : ℕ) : Block :=
  Vector.ofFn fun i => (beBytes 4 (rk.getD (round * 4 + i / 4) 0).toNat).getD (i % 4) 0

def addRoundKey (s : Block) (rk : List UInt32) (round : ℕ) : Block := xorBlock s (roundKey rk round)

def subBytes (s : Block) : Block := s.map subByte

def invSubBytes (s : Block) : Block := s.map invSubByte

def shiftRows (s : Block) : Block :=
  #v[s[0], s[5], s[10], s[15], s[4], s[9], s[14], s[3],
    s[8], s[13], s[2], s[7], s[12], s[1], s[6], s[11]]

def invShiftRows (s : Block) : Block :=
  #v[s[0], s[13], s[10], s[7], s[4], s[1], s[14], s[11],
    s[8], s[5], s[2], s[15], s[12], s[9], s[6], s[3]]

def xtime (a : UInt8) : UInt8 := if a &&& 0x80 ≠ 0 then (a <<< 1) ^^^ 0x1b else a <<< 1

/-- One pass of the loop of `gf_mul`, over its variables `p`, `a` and `b`. -/
def gfMulStep : UInt8 × UInt8 × UInt8 → UInt8 × UInt8 × UInt8
  | (p, a, b) =>
    let p := if b &&& 1 ≠ 0 then p ^^^ a else p
    let hi := a &&& 0x80
    let a := a <<< 1
    let a := if hi ≠ 0 then a ^^^ 0x1b else a
    (p, a, b >>> 1)

def gfMul (a b : UInt8) : UInt8 := (gfMulStep^[8] (0, a, b)).1

def column (s : Block) (c : Fin 4) : Vector UInt8 4 :=
  Vector.ofFn fun r => s[4 * c.val + r.val]

/-- The same map on each of the four columns. -/
def mapColumns (f : Vector UInt8 4 → Vector UInt8 4) (s : Block) : Block :=
  Vector.ofFn fun i => (f (column s ⟨i / 4, by omega⟩))[i.val % 4]

def mixColumn (a : Vector UInt8 4) : Vector UInt8 4 :=
  #v[xtime a[0] ^^^ xtime a[1] ^^^ a[1] ^^^ a[2] ^^^ a[3],
    a[0] ^^^ xtime a[1] ^^^ xtime a[2] ^^^ a[2] ^^^ a[3],
    a[0] ^^^ a[1] ^^^ xtime a[2] ^^^ xtime a[3] ^^^ a[3],
    xtime a[0] ^^^ a[0] ^^^ a[1] ^^^ a[2] ^^^ xtime a[3]]

def invMixColumn (a : Vector UInt8 4) : Vector UInt8 4 :=
  #v[gfMul a[0] 0x0e ^^^ gfMul a[1] 0x0b ^^^ gfMul a[2] 0x0d ^^^ gfMul a[3] 0x09,
    gfMul a[0] 0x09 ^^^ gfMul a[1] 0x0e ^^^ gfMul a[2] 0x0b ^^^ gfMul a[3] 0x0d,
    gfMul a[0] 0x0d ^^^ gfMul a[1] 0x09 ^^^ gfMul a[2] 0x0e ^^^ gfMul a[3] 0x0b,
    gfMul a[0] 0x0b ^^^ gfMul a[1] 0x0d ^^^ gfMul a[2] 0x09 ^^^ gfMul a[3] 0x0e]

def mixColumns (s : Block) : Block := mapColumns mixColumn s

def invMixColumns (s : Block) : Block := mapColumns invMixColumn s

/-! ## Blocks and chains -/

def encryptRound (rk : List UInt32) (s : Block) (round : ℕ) : Block :=
  addRoundKey (mixColumns (shiftRows (subBytes s))) rk round

def aes128EncryptBlock (rk : List UInt32) (block : Block) : Block :=
  let s := (List.range' 1 9).foldl (encryptRound rk) (addRoundKey block rk 0)
  addRoundKey (shiftRows (subBytes s)) rk 10

def decryptRound (rk : List UInt32) (s : Block) (round : ℕ) : Block :=
  invMixColumns (addRoundKey (invSubBytes (invShiftRows s)) rk round)

def aes128DecryptBlock (rk : List UInt32) (block : Block) : Block :=
  let s := (List.range' 1 9).reverse.foldl (decryptRound rk) (addRoundKey block rk 10)
  addRoundKey (invSubBytes (invShiftRows s)) rk 0

def aes128CbcEncrypt (key iv plaintext : Bytes) : Bytes :=
  cbcEncrypt (aes128EncryptBlock (keyExpansion key)) (blockOf 16 iv 0) (pad 16 plaintext)

def aes128CbcDecrypt (key iv ciphertext : Bytes) : Option Bytes :=
  if ciphertext = [] ∨ ciphertext.length % 16 ≠ 0 then none
  else unpad 16 (cbcDecrypt (aes128DecryptBlock (keyExpansion key)) (blockOf 16 iv 0) ciphertext)

/-! ## The layers are undone -/

theorem forall_uint8 {p : UInt8 → Prop} (h : ∀ i : Fin 256, p (UInt8.ofNat i)) (a : UInt8) :
    p a := by
  have := h ⟨a.toNat, a.toNat_lt⟩
  rwa [UInt8.ofNat_toNat] at this

theorem invSubByte_subByte (b : UInt8) : invSubByte (subByte b) = b :=
  forall_uint8 (p := fun b => invSubByte (subByte b) = b) (by decide +kernel) b

theorem invSubBytes_subBytes (s : Block) : invSubBytes (subBytes s) = s := by
  rw [invSubBytes, subBytes, Vector.map_map, show invSubByte ∘ subByte = id from
    funext invSubByte_subByte, Vector.map_id]

theorem invShiftRows_shiftRows (s : Block) : invShiftRows (shiftRows s) = s := by
  apply Vector.ext
  intro i hi
  interval_cases i <;> rfl

theorem and_top (a : UInt8) : a &&& 0x80 = 0 ∨ a &&& 0x80 = 0x80 :=
  forall_uint8 (p := fun a => a &&& 0x80 = 0 ∨ a &&& 0x80 = 0x80) (by decide +kernel) a

theorem xor_and (a b m : UInt8) : (a ^^^ b) &&& m = (a &&& m) ^^^ (b &&& m) := by
  rw [← UInt8.toBitVec_inj]
  ext i hi
  simp [Bool.and_xor_distrib_right]

theorem xor_shiftLeft (a b : UInt8) : (a ^^^ b) <<< 1 = (a <<< 1) ^^^ (b <<< 1) := by
  rw [← UInt8.toBitVec_inj]
  exact BitVec.shiftLeft_xor_distrib _ _ _

theorem xtime_xor (a b : UInt8) : xtime (a ^^^ b) = xtime a ^^^ xtime b := by
  have h01 : (0 : UInt8) ^^^ 0x80 ≠ 0 := by decide
  have h10 : (0x80 : UInt8) ^^^ 0 ≠ 0 := by decide
  unfold xtime
  rw [xor_and, xor_shiftLeft]
  rcases and_top a with ha | ha <;> rcases and_top b with hb | hb <;> rw [ha, hb]
  · rw [if_neg (by decide), if_neg (by decide), if_neg (by decide)]
  · rw [if_pos h01, if_neg (by decide), if_pos (by decide), UInt8.xor_assoc]
  · rw [if_pos h10, if_pos (by decide), if_neg (by decide)]
    ac_rfl
  · have hcancel (x y z : UInt8) : (x ^^^ z) ^^^ (y ^^^ z) = x ^^^ y ^^^ (z ^^^ z) := by ac_rfl
    rw [if_neg (by decide), if_pos (by decide), if_pos (by decide), hcancel, UInt8.xor_self,
      UInt8.xor_zero]

/-- The pass of `gf_mul` doubles `a`, and adds it to `p` when `b` is odd. -/
theorem gfMulStep_eq (p a b : UInt8) :
    gfMulStep (p, a, b) = (if b &&& 1 ≠ 0 then p ^^^ a else p, xtime a, b >>> 1) := rfl

theorem gfMulStep_xor (p p' a a' b : UInt8) :
    gfMulStep (p ^^^ p', a ^^^ a', b) =
      ((gfMulStep (p, a, b)).1 ^^^ (gfMulStep (p', a', b)).1,
        (gfMulStep (p, a, b)).2.1 ^^^ (gfMulStep (p', a', b)).2.1,
        (gfMulStep (p, a, b)).2.2) := by
  simp only [gfMulStep_eq, xtime_xor]
  split_ifs
  · rw [show p ^^^ p' ^^^ (a ^^^ a') = p ^^^ a ^^^ (p' ^^^ a') by ac_rfl]
  · rfl

theorem gfMulStep_iterate_xor (n : ℕ) (p p' a a' b : UInt8) :
    (gfMulStep^[n] (p ^^^ p', a ^^^ a', b)).1 =
      (gfMulStep^[n] (p, a, b)).1 ^^^ (gfMulStep^[n] (p', a', b)).1 := by
  induction n generalizing p p' a a' b with
  | zero => rfl
  | succ n ih =>
    rw [Function.iterate_succ_apply, gfMulStep_xor, ih]
    rfl

theorem gfMul_xor (a a' b : UInt8) : gfMul (a ^^^ a') b = gfMul a b ^^^ gfMul a' b :=
  gfMulStep_iterate_xor 8 0 0 a a' b

/-- The products of the two column matrices, entry by entry: the diagonal. -/
theorem gfMul_diagonal (a : UInt8) : gfMul (xtime a) 0x0e ^^^ gfMul a 0x0b ^^^ gfMul a 0x0d ^^^
    (gfMul (xtime a) 0x09 ^^^ gfMul a 0x09) = a :=
  forall_uint8 (p := fun a => gfMul (xtime a) 0x0e ^^^ gfMul a 0x0b ^^^ gfMul a 0x0d ^^^
    (gfMul (xtime a) 0x09 ^^^ gfMul a 0x09) = a) (by decide +kernel) a

theorem gfMul_off_one (a : UInt8) : (gfMul (xtime a) 0x0e ^^^ gfMul a 0x0e) ^^^
    gfMul (xtime a) 0x0b ^^^ gfMul a 0x0d ^^^ gfMul a 0x09 = 0 :=
  forall_uint8 (p := fun a => (gfMul (xtime a) 0x0e ^^^ gfMul a 0x0e) ^^^
    gfMul (xtime a) 0x0b ^^^ gfMul a 0x0d ^^^ gfMul a 0x09 = 0) (by decide +kernel) a

theorem gfMul_off_two (a : UInt8) : gfMul a 0x0e ^^^ (gfMul (xtime a) 0x0b ^^^ gfMul a 0x0b) ^^^
    gfMul (xtime a) 0x0d ^^^ gfMul a 0x09 = 0 :=
  forall_uint8 (p := fun a => gfMul a 0x0e ^^^ (gfMul (xtime a) 0x0b ^^^ gfMul a 0x0b) ^^^
    gfMul (xtime a) 0x0d ^^^ gfMul a 0x09 = 0) (by decide +kernel) a

theorem gfMul_off_three (a : UInt8) : gfMul a 0x0e ^^^ gfMul a 0x0b ^^^
    (gfMul (xtime a) 0x0d ^^^ gfMul a 0x0d) ^^^ gfMul (xtime a) 0x09 = 0 :=
  forall_uint8 (p := fun a => gfMul a 0x0e ^^^ gfMul a 0x0b ^^^
    (gfMul (xtime a) 0x0d ^^^ gfMul a 0x0d) ^^^ gfMul (xtime a) 0x09 = 0) (by decide +kernel) a

/-- A row of `mix_columns`, from the byte on the diagonal on. -/
def mixRow (a b c d : UInt8) : UInt8 := xtime a ^^^ xtime b ^^^ b ^^^ c ^^^ d

theorem mixColumn_eq (a : Vector UInt8 4) :
    mixColumn a = #v[mixRow a[0] a[1] a[2] a[3], mixRow a[1] a[2] a[3] a[0],
      mixRow a[2] a[3] a[0] a[1], mixRow a[3] a[0] a[1] a[2]] := by
  have row1 (w x y z : UInt8) : w ^^^ xtime x ^^^ xtime y ^^^ y ^^^ z = mixRow x y z w := by
    unfold mixRow
    ac_rfl
  have row2 (w x y z : UInt8) : w ^^^ x ^^^ xtime y ^^^ xtime z ^^^ z = mixRow y z w x := by
    unfold mixRow
    ac_rfl
  have row3 (w x y z : UInt8) : xtime w ^^^ w ^^^ x ^^^ y ^^^ xtime z = mixRow z w x y := by
    unfold mixRow
    ac_rfl
  rw [← row1 a[0] a[1] a[2] a[3], ← row2 a[0] a[1] a[2] a[3], ← row3 a[0] a[1] a[2] a[3]]
  rfl

/-- One row of the product: the diagonal is at `a`, and the other bytes drop out. -/
theorem invMix_row (a b c d : UInt8) :
    gfMul (mixRow a b c d) 0x0e ^^^ gfMul (mixRow b c d a) 0x0b ^^^
      gfMul (mixRow c d a b) 0x0d ^^^ gfMul (mixRow d a b c) 0x09 = a := by
  unfold mixRow
  simp only [gfMul_xor]
  calc _ = (gfMul (xtime a) 0x0e ^^^ gfMul a 0x0b ^^^ gfMul a 0x0d ^^^
          (gfMul (xtime a) 0x09 ^^^ gfMul a 0x09)) ^^^
        ((gfMul (xtime b) 0x0e ^^^ gfMul b 0x0e) ^^^ gfMul (xtime b) 0x0b ^^^ gfMul b 0x0d ^^^
          gfMul b 0x09) ^^^
        (gfMul c 0x0e ^^^ (gfMul (xtime c) 0x0b ^^^ gfMul c 0x0b) ^^^ gfMul (xtime c) 0x0d ^^^
          gfMul c 0x09) ^^^
        (gfMul d 0x0e ^^^ gfMul d 0x0b ^^^ (gfMul (xtime d) 0x0d ^^^ gfMul d 0x0d) ^^^
          gfMul (xtime d) 0x09) := by ac_rfl
    _ = a := by
      rw [gfMul_diagonal, gfMul_off_one, gfMul_off_two, gfMul_off_three, UInt8.xor_zero,
        UInt8.xor_zero, UInt8.xor_zero]

theorem invMixColumn_mixColumn (a : Vector UInt8 4) : invMixColumn (mixColumn a) = a := by
  rw [mixColumn_eq]
  apply Vector.ext
  intro i hi
  interval_cases i
  · exact invMix_row a[0] a[1] a[2] a[3]
  · refine Eq.trans ?_ (invMix_row a[1] a[2] a[3] a[0])
    show gfMul (mixRow a[0] a[1] a[2] a[3]) 0x09 ^^^ gfMul (mixRow a[1] a[2] a[3] a[0]) 0x0e ^^^
      gfMul (mixRow a[2] a[3] a[0] a[1]) 0x0b ^^^ gfMul (mixRow a[3] a[0] a[1] a[2]) 0x0d = _
    ac_rfl
  · refine Eq.trans ?_ (invMix_row a[2] a[3] a[0] a[1])
    show gfMul (mixRow a[0] a[1] a[2] a[3]) 0x0d ^^^ gfMul (mixRow a[1] a[2] a[3] a[0]) 0x09 ^^^
      gfMul (mixRow a[2] a[3] a[0] a[1]) 0x0e ^^^ gfMul (mixRow a[3] a[0] a[1] a[2]) 0x0b = _
    ac_rfl
  · refine Eq.trans ?_ (invMix_row a[3] a[0] a[1] a[2])
    show gfMul (mixRow a[0] a[1] a[2] a[3]) 0x0b ^^^ gfMul (mixRow a[1] a[2] a[3] a[0]) 0x0d ^^^
      gfMul (mixRow a[2] a[3] a[0] a[1]) 0x09 ^^^ gfMul (mixRow a[3] a[0] a[1] a[2]) 0x0e = _
    ac_rfl

theorem column_mapColumns (f : Vector UInt8 4 → Vector UInt8 4) (s : Block) (c : Fin 4) :
    column (mapColumns f s) c = f (column s c) := by
  apply Vector.ext
  intro r hr
  have hdiv : (4 * c.val + r) / 4 = c.val := by omega
  have hmod : (4 * c.val + r) % 4 = r := by omega
  simp only [column, mapColumns, Vector.getElem_ofFn, hdiv, hmod]

theorem mapColumns_mapColumns {f g : Vector UInt8 4 → Vector UInt8 4} (h : ∀ a, g (f a) = a)
    (s : Block) : mapColumns g (mapColumns f s) = s := by
  apply Vector.ext
  intro i hi
  have hsum : 4 * (i / 4) + i % 4 = i := Nat.div_add_mod i 4
  rw [mapColumns]
  simp only [column_mapColumns, h]
  simp only [column, Vector.getElem_ofFn, hsum]

theorem invMixColumns_mixColumns (s : Block) : invMixColumns (mixColumns s) = s :=
  mapColumns_mapColumns invMixColumn_mixColumn s

/-! ## Decryption -/

theorem decryptRound_encryptRound (rk : List UInt32) (s : Block) (round : ℕ) :
    decryptRound rk (shiftRows (subBytes (encryptRound rk s round))) round =
      shiftRows (subBytes s) := by
  rw [decryptRound, invShiftRows_shiftRows, invSubBytes_subBytes, encryptRound, addRoundKey,
    addRoundKey, xorBlock_xorBlock, invMixColumns_mixColumns]

theorem foldl_decryptRound (rk : List UInt32) (s : Block) (rounds : List ℕ) :
    rounds.reverse.foldl (decryptRound rk)
        (shiftRows (subBytes (rounds.foldl (encryptRound rk) s))) = shiftRows (subBytes s) := by
  induction rounds generalizing s with
  | nil => rfl
  | cons round rounds ih =>
    rw [List.foldl_cons, List.reverse_cons, List.foldl_append, ih, List.foldl_cons, List.foldl_nil,
      decryptRound_encryptRound]

theorem aes128DecryptBlock_encryptBlock (rk : List UInt32) (block : Block) :
    aes128DecryptBlock rk (aes128EncryptBlock rk block) = block := by
  unfold aes128DecryptBlock aes128EncryptBlock
  rw [addRoundKey, addRoundKey, addRoundKey, xorBlock_xorBlock, foldl_decryptRound,
    invShiftRows_shiftRows, invSubBytes_subBytes, addRoundKey, xorBlock_xorBlock]

theorem length_aes128CbcEncrypt (key iv plaintext : Bytes) :
    (aes128CbcEncrypt key iv plaintext).length = plaintext.length + (16 - plaintext.length % 16) := by
  rw [aes128CbcEncrypt, length_cbcEncrypt (by decide) (length_pad_mod (by decide) _), length_pad]

theorem aes128CbcDecrypt_cbcEncrypt (key iv : Bytes) {data : Bytes} (hpos : 0 < data.length)
    (hlen : data.length % 16 = 0) :
    aes128CbcDecrypt key iv (cbcEncrypt (aes128EncryptBlock (keyExpansion key)) (blockOf 16 iv 0)
      data) = unpad 16 data := by
  have hchain : (cbcEncrypt (aes128EncryptBlock (keyExpansion key)) (blockOf 16 iv 0) data).length =
      data.length := length_cbcEncrypt (by decide) hlen _
  rw [aes128CbcDecrypt, if_neg, cbcDecrypt_cbcEncrypt (by decide)
    (aes128DecryptBlock_encryptBlock _) hlen]
  rw [← List.length_eq_zero_iff]
  omega

theorem aes128CbcDecrypt_encrypt (key iv plaintext : Bytes) :
    aes128CbcDecrypt key iv (aes128CbcEncrypt key iv plaintext) = some plaintext := by
  have hlen := length_pad 16 plaintext
  rw [aes128CbcEncrypt, aes128CbcDecrypt_cbcEncrypt _ _ (by omega) (length_pad_mod (by decide) _),
    unpad_pad (by decide) (by decide)]

/-- Decryption undoes encryption, for a block and for a chain with its padding. -/
theorem aes128_inverse (key iv block : Block) (plaintext : Bytes) :
    aes128DecryptBlock (keyExpansion key.toList)
        (aes128EncryptBlock (keyExpansion key.toList) block) = block ∧
      aes128CbcDecrypt key.toList iv.toList
        (aes128CbcEncrypt key.toList iv.toList plaintext) = some plaintext :=
  ⟨aes128DecryptBlock_encryptBlock _ block, aes128CbcDecrypt_encrypt _ _ plaintext⟩

end Aeterna.Net.Tls
