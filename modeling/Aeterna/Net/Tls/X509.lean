import Aeterna.Net.Tls.Rsa

/-!
# The public key of a certificate

`net/tls/x509.rs`: a reader of DER elements and the walk through a certificate to the two integers
of its RSA key. `RsaCertificate` says which byte strings have such integers, and `extractRsaPubkey`
accepts exactly those (`extractRsaPubkey_eq_some_iff`). It takes a modulus of any length; the
padding of a premaster secret fits from 59 bytes on (`safePadding_iff`).
-/

namespace Aeterna.Net.Tls.X509

open Lib.Bytes BigNum

structure RsaPubKey where
  n : BigNum
  e : BigNum

/-! ## Elements -/

/-- The length and the number of bytes it takes. -/
def readDerLen : List UInt8 → Option (ℕ × ℕ)
  | [] => none
  | b0 :: data =>
    if b0 < 0x80 then some (b0.toNat, 1)
    else
      let numBytes := (b0 &&& 0x7F).toNat
      if numBytes = 0 ∨ 4 < numBytes ∨ data.length < numBytes then none
      else some (beValue (data.take numBytes), 1 + numBytes)

/-- The tag, the content and what follows. -/
def readTlv : List UInt8 → Option (UInt8 × List UInt8 × List UInt8)
  | [] => none
  | tag :: data => do
    let (len, hdrSize) ← readDerLen data
    if data.length < hdrSize + len then none
    else some (tag, (data.drop hdrSize).take len, data.drop (hdrSize + len))

def skipTlv (data : List UInt8) : Option (List UInt8) := (readTlv data).map fun r => r.2.2

/-- The content and the rest of an element that must have the tag. -/
def expectTlv (tag : UInt8) (data : List UInt8) : Option (List UInt8 × List UInt8) := do
  let (found, content, rest) ← readTlv data
  if found ≠ tag then none else some (content, rest)

/-- The bytes of a length: short, or long with the number of bytes in front. -/
inductive LengthBytes : List UInt8 → ℕ → Prop
  | short {b : UInt8} (h : b < 0x80) : LengthBytes [b] b.toNat
  | long {b : UInt8} {bytes : List UInt8} (h : ¬b < 0x80) (hlen : bytes.length = (b &&& 0x7F).toNat)
      (hpos : bytes ≠ []) (hle : bytes.length ≤ 4) : LengthBytes (b :: bytes) (beValue bytes)

/-- The bytes start with an element, and `rest` follows it. -/
def Starts (data : List UInt8) (tag : UInt8) (content rest : List UInt8) : Prop :=
  ∃ len, LengthBytes len content.length ∧ data = tag :: len ++ content ++ rest

theorem readDerLen_append {len : List UInt8} {n : ℕ} (h : LengthBytes len n) (rest : List UInt8) :
    readDerLen (len ++ rest) = some (n, len.length) := by
  cases h with
  | short h => exact if_pos h
  | @long b bytes h hlen hpos hle =>
    have hnz := List.length_pos_iff.mpr hpos
    rw [List.cons_append, readDerLen, if_neg h, ← hlen]
    dsimp only
    rw [List.length_append, if_neg (by omega), List.take_left, List.length_cons, Nat.add_comm]

theorem exists_of_readDerLen {data : List UInt8} {n hdrSize : ℕ}
    (h : readDerLen data = some (n, hdrSize)) :
    ∃ len rest, data = len ++ rest ∧ LengthBytes len n ∧ len.length = hdrSize := by
  cases data with
  | nil => cases h
  | cons b0 data =>
    rw [readDerLen] at h
    dsimp only at h
    split_ifs at h with hshort hbad
    · cases h
      exact ⟨[b0], data, rfl, .short hshort, rfl⟩
    · cases h
      simp only [not_or, not_lt] at hbad
      have hlen : (data.take (b0 &&& 0x7F).toNat).length = (b0 &&& 0x7F).toNat := by
        rw [List.length_take]
        omega
      refine ⟨b0 :: data.take (b0 &&& 0x7F).toNat, data.drop (b0 &&& 0x7F).toNat, ?_,
        .long hshort hlen ?_ (by omega), ?_⟩
      · rw [List.cons_append, List.take_append_drop]
      · rw [Ne, ← List.length_eq_zero_iff, hlen]
        exact hbad.1
      · rw [List.length_cons, hlen, Nat.add_comm]

theorem readTlv_eq_some_iff {data : List UInt8} {tag : UInt8} {content rest : List UInt8} :
    readTlv data = some (tag, content, rest) ↔ Starts data tag content rest := by
  constructor
  · intro h
    cases data with
    | nil => cases h
    | cons first data =>
      simp only [readTlv, Option.bind_eq_bind, Option.bind_eq_some_iff] at h
      obtain ⟨⟨n, hdrSize⟩, hlen, hread⟩ := h
      obtain ⟨len, after, rfl, hbytes, rfl⟩ := exists_of_readDerLen hlen
      dsimp only at hread
      split_ifs at hread with hshort
      cases hread
      rw [List.length_append, not_lt] at hshort
      have hcontent : (((len ++ after).drop len.length).take n).length = n := by
        rw [List.length_take, List.drop_left]
        omega
      refine ⟨len, by rwa [hcontent], ?_⟩
      rw [← List.drop_drop, List.drop_left, List.cons_append, List.cons_append, List.append_assoc,
        List.take_append_drop]
  · rintro ⟨len, hbytes, rfl⟩
    have hlen := readDerLen_append hbytes (content ++ rest)
    rw [List.append_assoc, List.cons_append, readTlv, hlen]
    simp only [Option.bind_eq_bind, Option.bind_some]
    rw [if_neg (by simp only [List.length_append]; omega), ← List.drop_drop, List.drop_left,
      List.take_left, List.drop_left]

theorem expectTlv_eq_some_iff {data : List UInt8} {tag : UInt8} {content rest : List UInt8} :
    expectTlv tag data = some (content, rest) ↔ Starts data tag content rest := by
  rw [← readTlv_eq_some_iff, expectTlv]
  cases readTlv data with
  | none => simp
  | some r =>
    obtain ⟨found, content', rest'⟩ := r
    by_cases htag : found = tag
    · simp [htag]
    · simp [htag]

theorem skipTlv_eq_some_iff {data rest : List UInt8} :
    skipTlv data = some rest ↔ ∃ tag content, Starts data tag content rest := by
  simp only [skipTlv, Option.map_eq_some_iff, ← readTlv_eq_some_iff]
  constructor
  · rintro ⟨⟨tag, content, _⟩, h, rfl⟩
    exact ⟨tag, content, h⟩
  · rintro ⟨tag, content, h⟩
    exact ⟨(tag, content, rest), h, rfl⟩

/-! ## Certificates -/

/-- An integer without the byte that keeps it positive. -/
def trimSign (bytes : List UInt8) : List UInt8 := if bytes.head? = some 0 then bytes.drop 1 else bytes

def skipVersion (tbs : List UInt8) : Option (List UInt8) :=
  if tbs.head? = some 0xA0 then skipTlv tbs else some tbs

def extractRsaPubkey (certDer : List UInt8) : Option RsaPubKey := do
  let (certContent, _) ← expectTlv 0x30 certDer
  let (tbs, _) ← expectTlv 0x30 certContent
  let pos ← skipVersion tbs
  let pos ← skipTlv pos
  let pos ← skipTlv pos
  let pos ← skipTlv pos
  let pos ← skipTlv pos
  let pos ← skipTlv pos
  let (spki, _) ← expectTlv 0x30 pos
  let spkiRest ← skipTlv spki
  let (bitstr, _) ← expectTlv 0x03 spkiRest
  if bitstr.head? ≠ some 0x00 then none
  else
    let (rsaSeq, _) ← expectTlv 0x30 (bitstr.drop 1)
    let (nBytes, rest) ← expectTlv 0x02 rsaSeq
    let (eBytes, _) ← expectTlv 0x02 rest
    some ⟨fromBeBytes (trimSign nBytes), fromBeBytes (trimSign eBytes)⟩

/-- `rest` follows `count` elements. -/
def Skips : ℕ → List UInt8 → List UInt8 → Prop
  | 0, data, rest => data = rest
  | count + 1, data, rest => ∃ tag content next, Starts data tag content next ∧ Skips count next rest

/-- The bytes are a certificate with the integers `nBytes` and `eBytes` as its RSA key. Five fields
lie between the optional version and the key. -/
def RsaCertificate (cert nBytes eBytes : List UInt8) : Prop :=
  ∃ certContent tbs fields spkiAt spki spkiRest key rsaSeq rest,
    (∃ after, Starts cert 0x30 certContent after) ∧
    (∃ after, Starts certContent 0x30 tbs after) ∧
    Skips (if tbs.head? = some 0xA0 then 1 else 0) tbs fields ∧
    Skips 5 fields spkiAt ∧
    (∃ after, Starts spkiAt 0x30 spki after) ∧
    Skips 1 spki spkiRest ∧
    (∃ after, Starts spkiRest 0x03 (0x00 :: key) after) ∧
    (∃ after, Starts key 0x30 rsaSeq after) ∧
    Starts rsaSeq 0x02 nBytes rest ∧
    ∃ after, Starts rest 0x02 eBytes after

theorem skips_succ_iff {count : ℕ} {data rest : List UInt8} :
    Skips (count + 1) data rest ↔ ∃ next, skipTlv data = some next ∧ Skips count next rest := by
  simp only [Skips, skipTlv_eq_some_iff]
  constructor
  · rintro ⟨tag, content, next, hstarts, hskips⟩
    exact ⟨next, ⟨tag, content, hstarts⟩, hskips⟩
  · rintro ⟨next, ⟨tag, content, hstarts⟩, hskips⟩
    exact ⟨tag, content, next, hstarts, hskips⟩

theorem skipVersion_eq_some_iff {tbs pos : List UInt8} :
    skipVersion tbs = some pos ↔ Skips (if tbs.head? = some 0xA0 then 1 else 0) tbs pos := by
  rw [skipVersion]
  split_ifs
  · simp [Skips, skipTlv_eq_some_iff]
  · simp [Skips]

theorem extractRsaPubkey_eq_some_iff {cert : List UInt8} {key : RsaPubKey} :
    extractRsaPubkey cert = some key ↔ ∃ nBytes eBytes, RsaCertificate cert nBytes eBytes ∧
      key = ⟨fromBeBytes (trimSign nBytes), fromBeBytes (trimSign eBytes)⟩ := by
  simp only [extractRsaPubkey, Option.bind_eq_bind, Option.bind_eq_some_iff,
    skipVersion_eq_some_iff, RsaCertificate, skips_succ_iff, ← expectTlv_eq_some_iff]
  constructor
  · rintro ⟨⟨c1, a1⟩, h1, ⟨c2, a2⟩, h2, p0, hv, p1, s1, p2, s2, p3, s3, p4, s4, p5, s5, ⟨c3, a3⟩, h3,
      p6, s6, ⟨c4, a4⟩, h4, hrest⟩
    dsimp only at hrest
    split_ifs at hrest with hbits
    rw [not_not] at hbits
    obtain ⟨key', rfl⟩ : ∃ key', c4 = 0x00 :: key' := by
      obtain _ | ⟨b, key'⟩ := c4
      · cases hbits
      · cases hbits
        exact ⟨key', rfl⟩
    simp only [Option.bind_eq_some_iff, List.drop_succ_cons, List.drop_zero] at hrest
    obtain ⟨⟨c5, a5⟩, h5, ⟨nBytes, r6⟩, h6, ⟨eBytes, a7⟩, h7, hkey⟩ := hrest
    exact ⟨nBytes, eBytes, ⟨c1, c2, p0, p5, c3, p6, key', c5, r6, ⟨a1, h1⟩, ⟨a2, h2⟩, hv,
      ⟨p1, s1, p2, s2, p3, s3, p4, s4, p5, s5, rfl⟩, ⟨a3, h3⟩, ⟨p6, s6, rfl⟩, ⟨a4, h4⟩, ⟨a5, h5⟩, h6,
      ⟨a7, h7⟩⟩, (Option.some.inj hkey).symm⟩
  · rintro ⟨nBytes, eBytes, ⟨c1, c2, p0, p5, c3, p6, key', c5, r6, ⟨a1, h1⟩, ⟨a2, h2⟩, hv,
      ⟨p1, s1, p2, s2, p3, s3, p4, s4, _, s5, rfl⟩, ⟨a3, h3⟩, ⟨_, s6, rfl⟩, ⟨a4, h4⟩, ⟨a5, h5⟩, h6,
      ⟨a7, h7⟩⟩, rfl⟩
    refine ⟨⟨c1, a1⟩, h1, ⟨c2, a2⟩, h2, p0, hv, p1, s1, p2, s2, p3, s3, p4, s4, _, s5, ⟨c3, a3⟩, h3,
      _, s6, ⟨_, a4⟩, h4, ?_⟩
    simp only [List.head?_cons, ne_eq, not_true_eq_false, if_false, Option.bind_eq_some_iff,
      List.drop_succ_cons, List.drop_zero]
    exact ⟨⟨c5, a5⟩, h5, ⟨nBytes, r6⟩, h6, ⟨eBytes, a7⟩, h7, rfl⟩

/-! ## The premaster secret under the key -/

/-- The padding of a 48-byte secret has a length, of eight bytes at least. -/
def SafePadding (key : RsaPubKey) : Prop := ∃ len, psLen (modulusLen key.n) 48 = .ok len ∧ 8 ≤ len

/-- The modulus in the certificate has 59 bytes that count. -/
def LongModulus (cert : List UInt8) : Prop :=
  ∃ nBytes eBytes, RsaCertificate cert nBytes eBytes ∧ 256 ^ 58 ≤ beValue nBytes

theorem beValue_trimSign (bytes : List UInt8) : beValue (trimSign bytes) = beValue bytes := by
  rw [trimSign]
  split_ifs with h
  · obtain _ | ⟨b, bytes⟩ := bytes
    · rfl
    · cases h
      rw [List.drop_one, List.tail_cons, beValue_cons, UInt8.toNat_zero, Nat.mul_zero, Nat.zero_add]
  · rfl

theorem safePadding_iff_le {key : RsaPubKey} : SafePadding key ↔ 256 ^ 58 ≤ key.n.toNat := by
  rw [← lt_modulusLen_iff, SafePadding, psLen]
  constructor
  · rintro ⟨len, hlen, hle⟩
    split_ifs at hlen
    cases hlen
    omega
  · intro h
    exact ⟨modulusLen key.n - 3 - 48, if_neg (by omega), by omega⟩

/-- A key that the parser accepts is safe to use when the modulus is long enough. -/
theorem safePadding_iff {cert : List UInt8} {key : RsaPubKey} (h : extractRsaPubkey cert = some key) :
    SafePadding key ↔ LongModulus cert := by
  rw [safePadding_iff_le]
  constructor
  · intro hle
    obtain ⟨nBytes, eBytes, hcert, rfl⟩ := extractRsaPubkey_eq_some_iff.mp h
    rw [toNat_fromBeBytes, beValue_trimSign] at hle
    exact ⟨nBytes, eBytes, hcert, hle⟩
  · rintro ⟨nBytes, eBytes, hcert, hle⟩
    have hkey := extractRsaPubkey_eq_some_iff.mpr ⟨nBytes, eBytes, hcert, rfl⟩
    rw [h] at hkey
    obtain rfl := Option.some.inj hkey
    rw [toNat_fromBeBytes, beValue_trimSign]
    exact hle

/-- A certificate with the modulus 55, all other fields empty. -/
def tinyCert : List UInt8 :=
  [0x30, 28, 0x30, 26, 0x02, 1, 1, 0x30, 0, 0x30, 0, 0x30, 0, 0x30, 0,
    0x30, 13, 0x30, 0, 0x03, 9, 0, 0x30, 6, 0x02, 1, 55, 0x02, 1, 3]

theorem safePadding_iff_tinyCert :
    SafePadding ⟨fromBeBytes [55], fromBeBytes [3]⟩ ↔ LongModulus tinyCert :=
  safePadding_iff rfl

/-- The parser accepts the modulus 55, and the length of the padding wraps. -/
theorem not_safePadding_tinyCert :
    ∃ key, extractRsaPubkey tinyCert = some key ∧ ¬SafePadding key := by
  refine ⟨⟨fromBeBytes [55], fromBeBytes [3]⟩, rfl, ?_⟩
  rw [safePadding_iff_le, toNat_fromBeBytes]
  decide

end Aeterna.Net.Tls.X509
