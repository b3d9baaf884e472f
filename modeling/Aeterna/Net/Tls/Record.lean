import Aeterna.Lib.Bytes
import Aeterna.Net.Tcp

/-!
# TLS records

The record layer of `net/tls/record.rs` and the pseudo-random function of `net/tls/prf.rs`. The
hash, the ciphers and the key exchange are `Primitives`: the functions that the TLS code calls,
about which nothing is assumed here.

A record under AES-GCM carries its sequence number twice, in the nonce (`gcmNonce`) and in the
authenticated header (`recordHeader`).
-/

namespace Aeterna.Net.Tls

open Lib.Bytes

/-! ## Constants and primitives -/

def ctChangeCipher : UInt8 := 20
def ctAlert : UInt8 := 21
def ctHandshake : UInt8 := 22
def ctAppData : UInt8 := 23

def tls12Major : UInt8 := 3
def tls12Minor : UInt8 := 3

def maxFragment : ℕ := 16384

structure RsaPubKey where
  n : ℕ
  e : ℕ

/-- The cryptographic functions that the record layer and the handshake call. -/
structure Primitives where
  sha256 : Bytes → Vector UInt8 32
  hmacSha256 : (key data : Bytes) → Vector UInt8 32
  aes128CbcEncrypt : (key iv plaintext : Bytes) → Bytes
  aes128CbcDecrypt : (key iv ciphertext : Bytes) → Option Bytes
  aes128GcmEncrypt : (key nonce plain aad : Bytes) → Bytes × Vector UInt8 16
  aes128GcmDecrypt : (key nonce cipher aad tag : Bytes) → Option Bytes
  /-- private key and public point of an ephemeral key pair, from random bytes -/
  ecdheKeygen : Bytes → Bytes × Bytes
  ecdheSharedSecret : (priv peerPub : Bytes) → Vector UInt8 32
  /-- with the random padding as the first argument -/
  rsaEncrypt : (padding msg : Bytes) → RsaPubKey → Bytes
  parseCertificateChain : Bytes → Option Bytes
  extractRsaPubkey : Bytes → Option RsaPubKey

/-- The bits in which two byte strings differ, over their common length. -/
def diffBits (a b : Bytes) : UInt8 := (a.zip b).foldl (fun d p => d ||| (p.1 ^^^ p.2)) 0

/-! ## Plaintext records -/

def buildRecord (contentType : UInt8) (payload : Bytes) : Bytes :=
  [contentType, tls12Major, tls12Minor] ++ beBytes 2 payload.length ++ payload

def recordLength (data : Bytes) : ℕ := beValue ((data.drop 3).take 2)

/-- Content type, payload and bytes consumed of the record at the front, if it is complete. -/
def parseRecord (data : Bytes) : Option (UInt8 × Bytes × ℕ) :=
  if data.length < 5 then none
  else if data.getD 1 0 ≠ 3 then none
  else if recordLength data > maxFragment + 2048 then none
  else if data.length < 5 + recordLength data then none
  else some (data.getD 0 0, (data.drop 5).take (recordLength data), 5 + recordLength data)

/-! ## Protected records -/

/-- What a record authenticates besides its fragment: sequence number, type, version, length. -/
def recordHeader (seqNum : UInt64) (contentType : UInt8) (len : ℕ) : Bytes :=
  beBytes 8 seqNum.toNat ++ [contentType, tls12Major, tls12Minor] ++ beBytes 2 len

def buildEncryptedRecord (P : Primitives) (contentType : UInt8) (fragment : Bytes)
    (seqNum : UInt64) (macKey encKey iv : Bytes) : Bytes :=
  let mac := P.hmacSha256 macKey (recordHeader seqNum contentType fragment.length ++ fragment)
  buildRecord contentType (iv ++ P.aes128CbcEncrypt encKey iv (fragment ++ mac.toList))

def decryptRecord (P : Primitives) (contentType : UInt8) (payload : Bytes) (seqNum : UInt64)
    (macKey encKey : Bytes) : Option Bytes :=
  if payload.length < 32 then none
  else do
    let plaintext ← P.aes128CbcDecrypt encKey (payload.take 16) (payload.drop 16)
    if plaintext.length < 32 then none
    else
      let fragment := plaintext.take (plaintext.length - 32)
      let receivedMac := plaintext.drop (plaintext.length - 32)
      let expectedMac :=
        P.hmacSha256 macKey (recordHeader seqNum contentType fragment.length ++ fragment)
      if diffBits receivedMac expectedMac.toList ≠ 0 then none else some fragment

/-- The implicit part of the key block, then the sequence number. -/
def gcmNonce (implicitIv : Bytes) (seqNum : UInt64) : Bytes := implicitIv ++ beBytes 8 seqNum.toNat

def buildGcmRecord (P : Primitives) (contentType : UInt8) (fragment : Bytes) (seqNum : UInt64)
    (key implicitIv : Bytes) : Bytes :=
  let (ciphertext, tag) := P.aes128GcmEncrypt key (gcmNonce implicitIv seqNum) fragment
    (recordHeader seqNum contentType fragment.length)
  buildRecord contentType (beBytes 8 seqNum.toNat ++ ciphertext ++ tag.toList)

def decryptGcmRecord (P : Primitives) (contentType : UInt8) (payload : Bytes) (seqNum : UInt64)
    (key implicitIv : Bytes) : Option Bytes :=
  if payload.length < 8 + 16 then none
  else
    let body := payload.drop 8
    let ciphertext := body.take (body.length - 16)
    let tag := body.drop (body.length - 16)
    P.aes128GcmDecrypt key (implicitIv ++ payload.take 8) ciphertext
      (recordHeader seqNum contentType ciphertext.length) tag

/-! ## The pseudo-random function -/

/-- The rounds that are left to fill `need` bytes, from `A(i)` on. -/
def pHash (P : Primitives) (secret ls a : Bytes) (need : ℕ) : Bytes :=
  if need = 0 then []
  else
    (P.hmacSha256 secret (a ++ ls)).toList.take (min 32 need) ++
      pHash P secret ls (P.hmacSha256 secret a).toList (need - min 32 need)
termination_by need

def prf (P : Primitives) (secret label seed : Bytes) (outLen : ℕ) : Bytes :=
  pHash P secret (label ++ seed) (P.hmacSha256 secret (label ++ seed)).toList outLen

theorem length_pHash (P : Primitives) (secret ls a : Bytes) (need : ℕ) :
    (pHash P secret ls a need).length = need := by
  induction need using Nat.strong_induction_on generalizing a with
  | _ need ih =>
    rw [pHash]
    split_ifs with h
    · exact h.symm
    · rw [List.length_append, ih _ (by omega), List.length_take, Vector.length_toList]
      omega

theorem length_prf (P : Primitives) (secret label seed : Bytes) (outLen : ℕ) :
    (prf P secret label seed outLen).length = outLen := length_pHash ..

/-! ## Comparison -/

theorem foldl_or_eq_zero (l : List (UInt8 × UInt8)) (d : UInt8) :
    l.foldl (fun d p => d ||| (p.1 ^^^ p.2)) d = 0 ↔ d = 0 ∧ ∀ p ∈ l, p.1 = p.2 := by
  induction l generalizing d with
  | nil => simp
  | cons p l ih =>
    rw [List.foldl_cons, ih, List.forall_mem_cons, ← and_assoc]
    refine and_congr_left fun _ => ?_
    rw [UInt8.or_eq_zero_iff, UInt8.xor_eq_zero_iff]

theorem diffBits_eq_zero_iff {a b : Bytes} (h : a.length = b.length) :
    diffBits a b = 0 ↔ a = b := by
  rw [diffBits, foldl_or_eq_zero]
  constructor
  · rintro ⟨-, hall⟩
    apply List.ext_getElem h
    intro i h₁ h₂
    exact hall _ (List.mem_iff_getElem.mpr ⟨i, by simp [h₁, h₂], List.getElem_zip⟩)
  · rintro rfl
    refine ⟨rfl, fun p hp => ?_⟩
    obtain ⟨i, hi, rfl⟩ := List.mem_iff_getElem.mp hp
    simp

end Aeterna.Net.Tls
