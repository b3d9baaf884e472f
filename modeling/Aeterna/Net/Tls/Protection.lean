import Aeterna.Net.Tls.Gcm
import Aeterna.Net.Tls.Sha256

/-!
# Record protection

The record layer with the kernel's own hash and ciphers: `net/tls/hmac.rs`, and `Primitives.kernel`,
which leaves open only the key exchange. A record that was built is parsed back, whatever follows it,
and decrypted to its fragment, under both kinds of protection (`record_roundTrip`); the padding of a
CBC record is not that of RFC 5246 (`cbcRecord_padding`).
-/

namespace Aeterna.Net.Tls

open Lib.Bytes Lib.BlockModes

/-! ## The kernel's primitives -/

def sha256 (data : Bytes) : Bytes := (Sha256.new.update data).finalize

def hmacKeyBlock (key : Bytes) : Bytes :=
  if key.length > 64 then sha256 key ++ List.replicate 32 0
  else key ++ List.replicate (64 - key.length) 0

def hmacSha256 (key data : Bytes) : Bytes :=
  let iKey := (hmacKeyBlock key).map (· ^^^ 0x36)
  let innerHash := (Sha256.new.update iKey |>.update data).finalize
  let oKey := (hmacKeyBlock key).map (· ^^^ 0x5c)
  (Sha256.new.update oKey |>.update innerHash).finalize

/-- The functions of the key exchange and the certificates. -/
structure KeyExchange where
  ecdheKeygen : Bytes → Bytes × Bytes
  ecdheSharedSecret : (priv peerPub : Bytes) → Vector UInt8 32
  rsaEncrypt : (padding msg : Bytes) → RsaPubKey → Bytes
  parseCertificateChain : Bytes → Option Bytes
  extractRsaPubkey : Bytes → Option RsaPubKey

def KeyExchange.trivial : KeyExchange :=
  ⟨fun _ => ([], []), fun _ _ => .replicate 32 0, fun _ _ _ => [], fun _ => none, fun _ => none⟩

def Primitives.kernel (x : KeyExchange) : Primitives where
  sha256 data := blockOf 32 (Tls.sha256 data) 0
  hmacSha256 key data := blockOf 32 (Tls.hmacSha256 key data) 0
  aes128CbcEncrypt := Tls.aes128CbcEncrypt
  aes128CbcDecrypt := Tls.aes128CbcDecrypt
  aes128GcmEncrypt := Tls.aes128GcmEncrypt
  aes128GcmDecrypt := Tls.aes128GcmDecrypt
  ecdheKeygen := x.ecdheKeygen
  ecdheSharedSecret := x.ecdheSharedSecret
  rsaEncrypt := x.rsaEncrypt
  parseCertificateChain := x.parseCertificateChain
  extractRsaPubkey := x.extractRsaPubkey

/-! ## Records on the wire -/

theorem length_buildRecord (contentType : UInt8) (payload : Bytes) :
    (buildRecord contentType payload).length = 5 + payload.length := by
  simp only [buildRecord, List.length_append, List.length_cons, List.length_nil, length_beBytes]

theorem drop_buildRecord (contentType : UInt8) (payload : Bytes) :
    (buildRecord contentType payload).drop 5 = payload := by
  refine List.drop_left' ?_
  rw [List.length_append, length_beBytes]
  rfl

theorem buildRecord_append (contentType : UInt8) (payload rest : Bytes) :
    buildRecord contentType payload ++ rest =
      [contentType, tls12Major, tls12Minor] ++ (beBytes 2 payload.length ++ (payload ++ rest)) := by
  simp only [buildRecord, List.append_assoc]

theorem recordLength_buildRecord (contentType : UInt8) {payload : Bytes}
    (h : payload.length ≤ maxFragment + 2048) (rest : Bytes) :
    recordLength (buildRecord contentType payload ++ rest) = payload.length := by
  have hbound : payload.length < 256 ^ 2 := Nat.lt_of_le_of_lt h (by decide)
  rw [buildRecord_append]
  show beValue ((beBytes 2 payload.length ++ (payload ++ rest)).take 2) = _
  rw [List.take_left' (length_beBytes _ _), beValue_beBytes_of_lt hbound]

theorem parseRecord_buildRecord (contentType : UInt8) {payload : Bytes}
    (h : payload.length ≤ maxFragment + 2048) (rest : Bytes) :
    parseRecord (buildRecord contentType payload ++ rest) =
      some (contentType, payload, 5 + payload.length) := by
  have htotal : (buildRecord contentType payload ++ rest).length =
      5 + payload.length + rest.length := by
    rw [List.length_append, length_buildRecord]
  have hbody : (buildRecord contentType payload ++ rest).drop 5 = payload ++ rest := by
    rw [List.drop_append_of_le_length (by rw [length_buildRecord]; omega), drop_buildRecord]
  unfold parseRecord
  rw [recordLength_buildRecord contentType h, htotal, hbody, List.take_left, if_neg (by omega),
    if_neg, if_neg (by omega), if_neg (by omega)]
  · rw [buildRecord_append]
    rfl
  · rw [buildRecord_append, not_not]
    rfl

/-- A record of type `contentType` that is parsed back, whatever follows it. -/
def Parses (record : Bytes) (contentType : UInt8) : Prop :=
  ∀ rest, parseRecord (record ++ rest) = some (contentType, record.drop 5, record.length)

theorem parses_buildRecord (contentType : UInt8) {payload : Bytes}
    (h : payload.length ≤ maxFragment + 2048) :
    Parses (buildRecord contentType payload) contentType := by
  intro rest
  rw [parseRecord_buildRecord contentType h, drop_buildRecord, length_buildRecord]

/-! ## Protection -/

variable (x : KeyExchange) (contentType : UInt8) {fragment : Bytes} (seqNum : UInt64)

/-- A record under AES-CBC with any bytes after the code of the fragment, as a peer may choose
them. -/
def cbcRecordWith (P : Primitives) (contentType : UInt8) (fragment : Bytes) (seqNum : UInt64)
    (macKey encKey iv padding : Bytes) : Bytes :=
  let mac := P.hmacSha256 macKey (recordHeader seqNum contentType fragment.length ++ fragment)
  buildRecord contentType (iv ++ cbcEncrypt (aes128EncryptBlock (keyExpansion encKey))
    (blockOf 16 iv 0) (fragment ++ mac.toList ++ padding))

/-- The kernel's own records fill the last block with the number of bytes that it lacks. -/
theorem buildEncryptedRecord_eq (macKey encKey iv : Bytes) :
    buildEncryptedRecord (.kernel x) contentType fragment seqNum macKey encKey iv =
      cbcRecordWith (.kernel x) contentType fragment seqNum macKey encKey iv
        (List.replicate (16 - (fragment.length + 32) % 16)
          (UInt8.ofNat (16 - (fragment.length + 32) % 16))) := by
  have hlen (mac : Vector UInt8 32) : (fragment ++ mac.toList).length = fragment.length + 32 := by
    rw [List.length_append, Vector.length_toList]
  rw [cbcRecordWith, ← hlen]
  rfl

/-- Only one to sixteen bytes with their number are taken off. -/
theorem decryptRecord_cbcRecordWith (macKey encKey : Bytes) (iv : Vector UInt8 16) {padding : Bytes}
    (hpad : (fragment.length + 32 + padding.length) % 16 = 0) :
    decryptRecord (.kernel x) contentType ((cbcRecordWith (.kernel x) contentType fragment seqNum
        macKey encKey iv.toList padding).drop 5) seqNum macKey encKey = some fragment ↔
      ∃ n, 1 ≤ n ∧ n ≤ 16 ∧ padding = List.replicate n (UInt8.ofNat n) := by
  have hiv : iv.toList.length = 16 := Vector.length_toList
  unfold cbcRecordWith
  generalize hmac : (Primitives.kernel x).hmacSha256 macKey
    (recordHeader seqNum contentType fragment.length ++ fragment) = mac
  have hplain : (fragment ++ mac.toList).length = fragment.length + 32 := by
    rw [List.length_append, Vector.length_toList]
  have hdata : (fragment ++ mac.toList ++ padding).length =
      fragment.length + 32 + padding.length := by
    rw [List.length_append, hplain]
  have hchain : (cbcEncrypt (aes128EncryptBlock (keyExpansion encKey)) (blockOf 16 iv.toList 0)
      (fragment ++ mac.toList ++ padding)).length = fragment.length + 32 + padding.length := by
    rw [length_cbcEncrypt (by decide) (by rw [hdata, hpad]), hdata]
  rw [drop_buildRecord, decryptRecord, if_neg (by rw [List.length_append]; omega),
    List.take_left' hiv, List.drop_left' hiv]
  show (aes128CbcDecrypt encKey iv.toList _ >>= _) = _ ↔ _
  rw [aes128CbcDecrypt_cbcEncrypt encKey iv.toList (by omega) (by omega),
    Option.bind_eq_bind, Option.bind_eq_some_iff]
  constructor
  · rintro ⟨plain, hunpad, hrest⟩
    obtain ⟨n, hpos, hn, hsplit⟩ := (unpad_eq_some_iff (by decide) (by omega)).mp hunpad
    refine ⟨n, hpos, hn, ?_⟩
    have hfragment : plain.length = fragment.length + 32 := by
      dsimp only at hrest
      split_ifs at hrest with hshort hdiff
      rw [← Option.some.inj hrest, List.length_take]
      omega
    exact (List.append_inj hsplit (by omega)).2
  · rintro ⟨n, hpos, hn, rfl⟩
    refine ⟨_, unpad_append_replicate (by decide) hpos hn _, ?_⟩
    dsimp only
    rw [hplain, Nat.add_sub_cancel, if_neg (by omega), List.take_left, List.drop_left, hmac,
      (diffBits_eq_zero_iff rfl).mpr rfl, if_neg (not_not.mpr rfl)]

theorem decryptRecord_buildEncryptedRecord (macKey encKey : Bytes) (iv : Vector UInt8 16) :
    decryptRecord (.kernel x) contentType ((buildEncryptedRecord (.kernel x) contentType fragment
      seqNum macKey encKey iv.toList).drop 5) seqNum macKey encKey = some fragment := by
  rw [buildEncryptedRecord_eq]
  refine (decryptRecord_cbcRecordWith x contentType seqNum macKey encKey iv ?_).mpr
    ⟨_, by omega, by omega, rfl⟩
  rw [List.length_replicate]
  omega

theorem encryptedRecord_roundTrip (h : fragment.length ≤ maxFragment) (macKey encKey : Bytes)
    (iv : Vector UInt8 16) :
    Parses (buildEncryptedRecord (.kernel x) contentType fragment seqNum macKey encKey iv.toList)
        contentType ∧
      decryptRecord (.kernel x) contentType ((buildEncryptedRecord (.kernel x) contentType fragment
        seqNum macKey encKey iv.toList).drop 5) seqNum macKey encKey = some fragment := by
  have hmax : maxFragment = 16384 := rfl
  constructor
  · refine parses_buildRecord contentType ?_
    have hcipher (mac : Vector UInt8 32) :=
      length_aes128CbcEncrypt encKey iv.toList (fragment ++ mac.toList)
    simp only [List.length_append, Vector.length_toList] at hcipher ⊢
    show 16 + (aes128CbcEncrypt encKey iv.toList _).length ≤ _
    rw [hcipher]
    omega
  · exact decryptRecord_buildEncryptedRecord x contentType seqNum macKey encKey iv

/-- The padding of RFC 5246, section 6.2.3.2, with its length byte at the end. -/
def rfcPadding (paddingLength : ℕ) : Bytes :=
  List.replicate (paddingLength + 1) (UInt8.ofNat paddingLength)

theorem rfcPadding_ne_replicate (paddingLength n : ℕ) :
    rfcPadding paddingLength ≠ List.replicate n (UInt8.ofNat n) := by
  intro h
  obtain ⟨rfl, hbyte | hbyte⟩ := List.replicate_inj.mp h
  · exact absurd hbyte (Nat.succ_ne_zero _)
  · have hmod := congrArg UInt8.toNat hbyte
    rw [UInt8.toNat_ofNat', UInt8.toNat_ofNat'] at hmod
    omega

theorem decryptRecord_rfcPadding (macKey encKey : Bytes) (iv : Vector UInt8 16) {paddingLength : ℕ}
    (hlen : (fragment.length + 32 + (paddingLength + 1)) % 16 = 0) :
    decryptRecord (.kernel x) contentType ((cbcRecordWith (.kernel x) contentType fragment seqNum
      macKey encKey iv.toList (rfcPadding paddingLength)).drop 5) seqNum macKey encKey ≠
        some fragment := by
  intro h
  have hpad : (fragment.length + 32 + (rfcPadding paddingLength).length) % 16 = 0 := by
    rw [rfcPadding, List.length_replicate, hlen]
  obtain ⟨n, -, -, hsame⟩ :=
    (decryptRecord_cbcRecordWith x contentType seqNum macKey encKey iv hpad).mp h
  exact rfcPadding_ne_replicate paddingLength n hsame

/-- **Padding of CBC records.** A record is decrypted to its fragment exactly when its padding is one
to sixteen bytes with their number, as the kernel's own records have it. In RFC 5246 each of them is
one less than their number, so records of that form are neither understood nor built. -/
theorem cbcRecord_padding (x : KeyExchange) (contentType : UInt8) (fragment : Bytes)
    (seqNum : UInt64) (macKey : Bytes) (encKey iv : Vector UInt8 16) :
    (∀ padding, (fragment.length + 32 + padding.length) % 16 = 0 →
      (decryptRecord (.kernel x) contentType ((cbcRecordWith (.kernel x) contentType fragment seqNum
          macKey encKey.toList iv.toList padding).drop 5) seqNum macKey encKey.toList =
            some fragment ↔
        ∃ n, 1 ≤ n ∧ n ≤ 16 ∧ padding = List.replicate n (UInt8.ofNat n))) ∧
      (∃ n, 1 ≤ n ∧ n ≤ 16 ∧ (fragment.length + 32 + n) % 16 = 0 ∧
        buildEncryptedRecord (.kernel x) contentType fragment seqNum macKey encKey.toList iv.toList =
          cbcRecordWith (.kernel x) contentType fragment seqNum macKey encKey.toList iv.toList
            (List.replicate n (UInt8.ofNat n))) ∧
      ∀ paddingLength, (fragment.length + 32 + (paddingLength + 1)) % 16 = 0 →
        decryptRecord (.kernel x) contentType ((cbcRecordWith (.kernel x) contentType fragment
          seqNum macKey encKey.toList iv.toList (rfcPadding paddingLength)).drop 5) seqNum macKey
          encKey.toList ≠ some fragment ∧
        buildEncryptedRecord (.kernel x) contentType fragment seqNum macKey encKey.toList
          iv.toList ≠ cbcRecordWith (.kernel x) contentType fragment seqNum macKey encKey.toList
            iv.toList (rfcPadding paddingLength) := by
  refine ⟨fun padding => decryptRecord_cbcRecordWith x contentType seqNum macKey _ iv,
    ⟨_, by omega, by omega, by omega, buildEncryptedRecord_eq x contentType seqNum macKey _ _⟩,
    fun paddingLength hlen => ?_⟩
  have hrfc := decryptRecord_rfcPadding x contentType seqNum macKey encKey.toList iv hlen
  refine ⟨hrfc, fun hbuild => hrfc ?_⟩
  rw [← hbuild]
  exact decryptRecord_buildEncryptedRecord x contentType seqNum macKey encKey.toList iv

/-- A fragment of fifteen bytes needs one more byte, and that of the standard is not taken. -/
theorem cbcRecord_padding_fifteenBytes :
    decryptRecord (.kernel .trivial) ctAppData ((cbcRecordWith (.kernel .trivial) ctAppData
      (List.replicate 15 0) 0 [] (Vector.replicate 16 0).toList (Vector.replicate 16 0).toList
      [1]).drop 5) 0 [] (Vector.replicate 16 0).toList = some (List.replicate 15 0) :=
  ((cbcRecord_padding .trivial ctAppData (List.replicate 15 0) 0 [] (Vector.replicate 16 0)
    (Vector.replicate 16 0)).1 [1] (by decide)).mpr ⟨1, by decide⟩

/-- The record that the standard gives for fifteen bytes ends with a zero. -/
theorem not_decryptRecord_rfcPadding_zero :
    decryptRecord (.kernel .trivial) ctAppData ((cbcRecordWith (.kernel .trivial) ctAppData
      (List.replicate 15 0) 0 [] (Vector.replicate 16 0).toList (Vector.replicate 16 0).toList
      (rfcPadding 0)).drop 5) 0 [] (Vector.replicate 16 0).toList ≠ some (List.replicate 15 0) :=
  decryptRecord_rfcPadding .trivial ctAppData 0 [] _ (Vector.replicate 16 0) (by decide)

/-- A record under AES-GCM with any explicit nonce, as a peer may choose it. -/
def gcmRecordWith (P : Primitives) (contentType : UInt8) (fragment : Bytes) (seqNum : UInt64)
    (key implicitIv explicitNonce : Bytes) : Bytes :=
  let (ciphertext, tag) := P.aes128GcmEncrypt key (implicitIv ++ explicitNonce) fragment
    (recordHeader seqNum contentType fragment.length)
  buildRecord contentType (explicitNonce ++ ciphertext ++ tag.toList)

theorem gcmRecordWith_roundTrip (h : fragment.length ≤ maxFragment) (key implicitIv : Bytes)
    {explicitNonce : Bytes} (hnonce : explicitNonce.length = 8) :
    Parses (gcmRecordWith (.kernel x) contentType fragment seqNum key implicitIv explicitNonce)
        contentType ∧
      decryptGcmRecord (.kernel x) contentType ((gcmRecordWith (.kernel x) contentType fragment
        seqNum key implicitIv explicitNonce).drop 5) seqNum key implicitIv = some fragment := by
  have hmax : maxFragment = 16384 := rfl
  have hround := aes128GcmDecrypt_encrypt key (implicitIv ++ explicitNonce) fragment
    (recordHeader seqNum contentType fragment.length)
  have hcipher := length_aes128GcmEncrypt key (implicitIv ++ explicitNonce) fragment
    (recordHeader seqNum contentType fragment.length)
  have hbuild : gcmRecordWith (.kernel x) contentType fragment seqNum key implicitIv explicitNonce =
      buildRecord contentType (explicitNonce ++
        (aes128GcmEncrypt key (implicitIv ++ explicitNonce) fragment
          (recordHeader seqNum contentType fragment.length)).1 ++
        (aes128GcmEncrypt key (implicitIv ++ explicitNonce) fragment
          (recordHeader seqNum contentType fragment.length)).2.toList) := rfl
  rw [hbuild]
  generalize aes128GcmEncrypt key (implicitIv ++ explicitNonce) fragment
    (recordHeader seqNum contentType fragment.length) = sealed at hround hcipher
  have htag : sealed.2.toList.length = 16 := Vector.length_toList
  have hpayload : (explicitNonce ++ sealed.1 ++ sealed.2.toList).length =
      8 + fragment.length + 16 := by
    rw [List.length_append, List.length_append, hnonce, hcipher, htag]
  constructor
  · exact parses_buildRecord contentType (by omega)
  · rw [drop_buildRecord, decryptGcmRecord, if_neg (by omega)]
    dsimp only
    rw [List.append_assoc, List.take_left' hnonce, List.drop_left' hnonce, List.length_append, htag,
      Nat.add_sub_cancel, List.take_left, List.drop_left, hcipher]
    exact hround

/-- The kernel's own records carry their sequence number as the explicit nonce. -/
theorem buildGcmRecord_eq (P : Primitives) (contentType : UInt8) (fragment : Bytes)
    (seqNum : UInt64) (key implicitIv : Bytes) :
    buildGcmRecord P contentType fragment seqNum key implicitIv =
      gcmRecordWith P contentType fragment seqNum key implicitIv (beBytes 8 seqNum.toNat) := rfl

/-- **Record protection.** A protected record is parsed back whatever follows it, and decrypted to
its fragment with the keys and the number it was built with. -/
theorem record_roundTrip (x : KeyExchange) (contentType : UInt8) (fragment : Bytes)
    (h : fragment.length ≤ maxFragment) (seqNum : UInt64) (macKey : Bytes)
    (encKey iv : Vector UInt8 16) (implicitIv : Vector UInt8 4) :
    (Parses (buildEncryptedRecord (.kernel x) contentType fragment seqNum macKey encKey.toList
          iv.toList) contentType ∧
        decryptRecord (.kernel x) contentType ((buildEncryptedRecord (.kernel x) contentType
          fragment seqNum macKey encKey.toList iv.toList).drop 5) seqNum macKey encKey.toList =
            some fragment) ∧
      Parses (buildGcmRecord (.kernel x) contentType fragment seqNum encKey.toList
          implicitIv.toList) contentType ∧
        decryptGcmRecord (.kernel x) contentType ((buildGcmRecord (.kernel x) contentType fragment
          seqNum encKey.toList implicitIv.toList).drop 5) seqNum encKey.toList implicitIv.toList =
            some fragment := by
  refine ⟨encryptedRecord_roundTrip x contentType seqNum h macKey encKey.toList iv, ?_⟩
  rw [buildGcmRecord_eq]
  exact gcmRecordWith_roundTrip x contentType seqNum h encKey.toList implicitIv.toList
    (length_beBytes 8 seqNum.toNat)

/-- Three bytes of application data under zero keys. -/
theorem record_roundTrip_threeBytes :
    decryptGcmRecord (.kernel .trivial) ctAppData ((buildGcmRecord (.kernel .trivial) ctAppData
      [1, 2, 3] 0 (Vector.replicate 16 0).toList (Vector.replicate 4 0).toList).drop 5) 0
      (Vector.replicate 16 0).toList (Vector.replicate 4 0).toList = some [1, 2, 3] :=
  (record_roundTrip .trivial ctAppData [1, 2, 3] (by decide) 0 [] (Vector.replicate 16 0)
    (Vector.replicate 16 0) (Vector.replicate 4 0)).2.2

end Aeterna.Net.Tls
