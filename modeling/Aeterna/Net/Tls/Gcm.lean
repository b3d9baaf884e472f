import Aeterna.Net.Tls.Aes
import Aeterna.Net.Tls.Record

/-!
# AES-128-GCM

`net/tls/gcm.rs`: counter mode with a tag over the ciphertext and the additional data. The receiver
computes the tag from what it gets, as the sender did, and runs the counter again
(`aes128GcmDecrypt_encrypt`); it accepts nothing that a sender could not have made
(`aes128Gcm_authentic`).
-/

namespace Aeterna.Net.Tls

open Lib.Bytes Lib.BlockModes

/-! ## The hash over blocks -/

theorem first_lt : 0 < 16 := by decide

theorem last_lt : 15 < 16 := by decide

theorem byte_lt (i : Fin 128) : i.val / 8 < 16 := by omega

/-- The right shift of a block as a big-endian number. -/
def shiftBlock (v : Block) : Block :=
  Vector.ofFn fun k => if k.val = 0 then v.get k >>> 1
    else (v.get k >>> 1) ||| ((v[k.val - 1] &&& 1) <<< 7)

/-- One pass of the loop of `gf128_mul`, over its variables `z` and `v`. -/
def gf128Step (x : Block) (zv : Block × Block) (i : Fin 128) : Block × Block :=
  let (z, v) := zv
  let byte := getElem x (i.val / 8) (byte_lt i)
  let z := if (byte >>> (7 - UInt8.ofNat (i.val % 8))) &&& 1 = 1 then xorBlock z v else z
  let lsb := getElem v 15 last_lt &&& 1
  let v := shiftBlock v
  (z, if lsb = 1 then v.set 0 (getElem v 0 first_lt ^^^ 0xE1) first_lt else v)

def gf128Mul (x y : Block) : Block :=
  ((List.finRange 128).foldl (gf128Step x) (Vector.replicate 16 0, y)).1

/-- The blocks of one input, the last one padded with zeros. -/
def ghashBlocks (h x : Block) (data : Bytes) : Block :=
  if data ≠ [] then ghashBlocks h (gf128Mul (xorBlock x (blockOf 16 data 0)) h) (data.drop 16)
  else x
termination_by data.length
decreasing_by
  have := List.length_pos_iff.mpr (show data ≠ [] by assumption)
  rw [List.length_drop]
  omega

def ghash (h : Block) (a c : Bytes) : Block :=
  let x := ghashBlocks h (ghashBlocks h (Vector.replicate 16 0) a) c
  let lenBlock := blockOf 16 (beBytes 8 (a.length * 8) ++ beBytes 8 (c.length * 8)) 0
  gf128Mul (xorBlock x lenBlock) h

/-! ## Encryption and decryption -/

/-- The counter in the last four bytes goes up by one. -/
def inc32 (icb : Block) : Block :=
  let ctr := UInt32.ofNat (beValue (icb.toList.drop 12))
  blockOf 16 (icb.toList.take 12 ++ beBytes 4 (ctr + 1).toNat) 0

/-- The nonce, and a counter of one. -/
def gcmJ0 (nonce : Bytes) : Block := blockOf 16 (nonce ++ [0, 0, 0, 1]) 0

def gcmTag (rk : List UInt32) (nonce aad cipher : Bytes) : Block :=
  let h := aes128EncryptBlock rk (Vector.replicate 16 0)
  xorBlock (ghash h aad cipher) (aes128EncryptBlock rk (gcmJ0 nonce))

def aes128GcmEncrypt (key nonce plain aad : Bytes) : Bytes × Vector UInt8 16 :=
  let rk := keyExpansion key
  let ciphertext := gctr (aes128EncryptBlock rk) inc32 (inc32 (gcmJ0 nonce)) plain
  (ciphertext, gcmTag rk nonce aad ciphertext)

def aes128GcmDecrypt (key nonce cipher aad tag : Bytes) : Option Bytes :=
  let rk := keyExpansion key
  if diffBits (gcmTag rk nonce aad cipher).toList tag ≠ 0 then none
  else some (gctr (aes128EncryptBlock rk) inc32 (inc32 (gcmJ0 nonce)) cipher)

theorem length_aes128GcmEncrypt (key nonce plain aad : Bytes) :
    (aes128GcmEncrypt key nonce plain aad).1.length = plain.length := length_gctr (by decide) _

theorem aes128GcmDecrypt_encrypt (key nonce plain aad : Bytes) :
    aes128GcmDecrypt key nonce (aes128GcmEncrypt key nonce plain aad).1 aad
      (aes128GcmEncrypt key nonce plain aad).2.toList = some plain := by
  have htag : diffBits (gcmTag (keyExpansion key) nonce aad
      (aes128GcmEncrypt key nonce plain aad).1).toList
      (aes128GcmEncrypt key nonce plain aad).2.toList = 0 := (diffBits_eq_zero_iff rfl).mpr rfl
  unfold aes128GcmDecrypt
  dsimp only
  rw [htag, if_neg (not_not.mpr rfl), aes128GcmEncrypt, gctr_gctr (by decide)]

/-- **Authenticated decryption.** What was encrypted comes back, and what is accepted is exactly
what the encryption of the result gives. -/
theorem aes128Gcm_authentic (key : Vector UInt8 16) (nonce : Vector UInt8 12) (aad : Bytes) :
    (∀ plain, aes128GcmDecrypt key.toList nonce.toList
        (aes128GcmEncrypt key.toList nonce.toList plain aad).1 aad
        (aes128GcmEncrypt key.toList nonce.toList plain aad).2.toList = some plain) ∧
      ∀ cipher (tag : Vector UInt8 16) plain,
        aes128GcmDecrypt key.toList nonce.toList cipher aad tag.toList = some plain ↔
          aes128GcmEncrypt key.toList nonce.toList plain aad = (cipher, tag) := by
  refine ⟨fun plain => aes128GcmDecrypt_encrypt _ _ plain aad, fun cipher tag plain => ?_⟩
  constructor
  · intro h
    unfold aes128GcmDecrypt at h
    dsimp only at h
    split_ifs at h with htag
    have htag := (diffBits_eq_zero_iff (by simp)).mp (not_not.mp htag)
    rw [← Option.some.inj h, aes128GcmEncrypt, gctr_gctr (by decide), Vector.toList_inj.mp htag]
  · intro h
    have hback := aes128GcmDecrypt_encrypt key.toList nonce.toList plain aad
    rwa [h] at hback

end Aeterna.Net.Tls
