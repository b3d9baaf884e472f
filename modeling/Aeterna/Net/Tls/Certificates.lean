import Aeterna.Lib.Reader
import Aeterna.Net.Tls.X509

/-!
# Certificates in DER

Every encoding of a certificate with an RSA key gives its modulus and exponent back
(`extractRsaPubkey_encode`). The parser is also written with the indices and the slices that it
takes, which panic out of bounds; it never does (`extractRsaPubkeyChecked_eq`).
-/

namespace Aeterna.Net.Tls.X509

open Lib.Bytes Lib.Reader BigNum

/-! ## Encoding -/

/-- The shortest form of a length. -/
def derLen (n : ℕ) : List UInt8 :=
  if n < 0x80 then [UInt8.ofNat n]
  else UInt8.ofNat (0x80 + (Nat.log 256 n + 1)) :: beBytes (Nat.log 256 n + 1) n

def der (tag : UInt8) (content : List UInt8) : List UInt8 := tag :: derLen content.length ++ content

/-- The content of a positive integer: as many bytes as leave its sign bit clear. -/
def derNat (n : ℕ) : List UInt8 := beBytes (n.size / 8 + 1) n

structure Element where
  tag : UInt8
  content : List UInt8

def Element.encode (e : Element) : List UInt8 := der e.tag e.content

/-- The fields of a certificate. Those that the parser passes over are any elements, and the bytes
after the key and after the signed part are any bytes. -/
structure Certificate where
  /-- what is inside the explicit tag -/
  version : Option (List UInt8)
  serialNumber : List UInt8
  signature : Element
  issuer : Element
  validity : Element
  subject : Element
  algorithm : Element
  modulus : ℕ
  publicExponent : ℕ
  extensions : List UInt8
  signed : List UInt8

namespace Certificate

variable (c : Certificate)

def rsaSeq : List UInt8 := der 0x02 (derNat c.modulus) ++ der 0x02 (derNat c.publicExponent)

def spki : List UInt8 := c.algorithm.encode ++ der 0x03 (0x00 :: der 0x30 c.rsaSeq)

/-- The fields between the version and the key. -/
def fields : List Element :=
  [⟨0x02, c.serialNumber⟩, c.signature, c.issuer, c.validity, c.subject]

def afterVersion : List UInt8 :=
  c.fields.flatMap Element.encode ++ (der 0x30 c.spki ++ c.extensions)

def tbs : List UInt8 := (c.version.map (der 0xA0)).getD [] ++ c.afterVersion

def content : List UInt8 := der 0x30 c.tbs ++ c.signed

def encode : List UInt8 := der 0x30 c.content

end Certificate

/-! ## The parser on encodings -/

theorem lengthBytes_derLen {n : ℕ} (h : n < 2 ^ 32) : LengthBytes (derLen n) n := by
  rw [derLen]
  split_ifs with hshort
  · have hbyte : (UInt8.ofNat n).toNat = n := by
      rw [UInt8.toNat_ofNat', Nat.mod_eq_of_lt (by omega)]
    have hlt : UInt8.ofNat n < 0x80 := by
      rw [UInt8.lt_iff_toNat_lt, hbyte]
      exact hshort
    have hshort := LengthBytes.short hlt
    rwa [hbyte] at hshort
  · have hlog : Nat.log 256 n < 4 := Nat.log_lt_of_lt_pow (by omega) (by omega)
    have hvalue : beValue (beBytes (Nat.log 256 n + 1) n) = n :=
      beValue_beBytes_of_lt (Nat.lt_pow_succ_log_self (by decide) n)
    generalize Nat.log 256 n = k at hlog hvalue
    have hlong : LengthBytes (UInt8.ofNat (0x80 + (k + 1)) :: beBytes (k + 1) n)
        (beValue (beBytes (k + 1) n)) := by
      refine .long ?_ ?_ ?_ ?_
      · interval_cases k <;> decide
      · rw [length_beBytes]
        interval_cases k <;> rfl
      · rw [← List.length_pos_iff, length_beBytes]
        omega
      · rw [length_beBytes]
        omega
    rwa [hvalue] at hlong

theorem starts_der (tag : UInt8) {content : List UInt8} (h : content.length < 2 ^ 32)
    (rest : List UInt8) : Starts (der tag content ++ rest) tag content rest :=
  ⟨derLen content.length, lengthBytes_derLen h, rfl⟩

theorem starts_der_self (tag : UInt8) {content : List UInt8} (h : content.length < 2 ^ 32) :
    Starts (der tag content) tag content [] := by
  have hstarts := starts_der tag h []
  rwa [List.append_nil] at hstarts

theorem length_le_der (tag : UInt8) (content : List UInt8) :
    content.length ≤ (der tag content).length := by
  rw [der, List.length_append]
  omega

theorem skips_encode {es : List Element} (h : ∀ e ∈ es, e.content.length < 2 ^ 32)
    (rest : List UInt8) : Skips es.length (es.flatMap Element.encode ++ rest) rest := by
  induction es with
  | nil => rfl
  | cons e es ih =>
    rw [List.forall_mem_cons] at h
    rw [List.flatMap_cons, List.append_assoc]
    exact ⟨e.tag, e.content, _, starts_der e.tag h.1 _, ih h.2⟩

theorem length_content_le {es : List Element} {e : Element} (h : e ∈ es) :
    e.content.length ≤ (es.flatMap Element.encode).length := by
  obtain ⟨front, back, rfl⟩ := List.append_of_mem h
  have hle := length_le_der e.tag e.content
  simp only [List.flatMap_append, List.flatMap_cons, List.length_append, Element.encode]
  omega

theorem rsaCertificate_encode (c : Certificate) (h : c.content.length < 2 ^ 32) :
    RsaCertificate c.encode (derNat c.modulus) (derNat c.publicExponent) := by
  have htbs : c.tbs.length < 2 ^ 32 := by
    have hle := length_le_der 0x30 c.tbs
    rw [Certificate.content, List.length_append] at h
    omega
  have hafter : c.afterVersion.length < 2 ^ 32 := by
    rw [Certificate.tbs, List.length_append] at htbs
    omega
  have hfields : ∀ e ∈ c.fields, e.content.length < 2 ^ 32 := by
    intro e he
    have hle := length_content_le he
    rw [Certificate.afterVersion, List.length_append] at hafter
    omega
  have hspki : c.spki.length < 2 ^ 32 := by
    have hle := length_le_der 0x30 c.spki
    rw [Certificate.afterVersion, List.length_append, List.length_append] at hafter
    omega
  have halgorithm : c.algorithm.content.length < 2 ^ 32 := by
    have hle := length_le_der c.algorithm.tag c.algorithm.content
    rw [Certificate.spki, List.length_append, Element.encode] at hspki
    omega
  have hbits : ((0x00 : UInt8) :: der 0x30 c.rsaSeq).length < 2 ^ 32 := by
    have hle := length_le_der 0x03 ((0x00 : UInt8) :: der 0x30 c.rsaSeq)
    rw [Certificate.spki, List.length_append] at hspki
    omega
  have hseq : c.rsaSeq.length < 2 ^ 32 := by
    have hle := length_le_der 0x30 c.rsaSeq
    rw [List.length_cons] at hbits
    omega
  have hmodulus := length_le_der 0x02 (derNat c.modulus)
  have hexponent := length_le_der 0x02 (derNat c.publicExponent)
  have hints := hseq
  rw [Certificate.rsaSeq, List.length_append] at hints
  refine ⟨c.content, c.tbs, c.afterVersion, der 0x30 c.spki ++ c.extensions, c.spki,
    der 0x03 (0x00 :: der 0x30 c.rsaSeq), der 0x30 c.rsaSeq, c.rsaSeq,
    der 0x02 (derNat c.publicExponent), ⟨[], starts_der_self _ h⟩,
    ⟨c.signed, starts_der _ htbs _⟩, ?_, skips_encode hfields _,
    ⟨c.extensions, starts_der _ hspki _⟩, ⟨_, _, _, starts_der _ halgorithm _, rfl⟩,
    ⟨[], starts_der_self _ hbits⟩, ⟨[], starts_der_self _ hseq⟩, starts_der _ (by omega) _,
    ⟨[], starts_der_self _ (by omega)⟩⟩
  rw [Certificate.tbs]
  cases hversion : c.version with
  | none =>
    -- without a version the serial number comes first
    have hfirst : c.afterVersion.head? = some 0x02 := rfl
    show Skips (if c.afterVersion.head? = some 0xA0 then 1 else 0) c.afterVersion c.afterVersion
    rw [hfirst, if_neg (by decide)]
    rfl
  | some v =>
    have hv : v.length < 2 ^ 32 := by
      have hle := length_le_der 0xA0 v
      rw [Certificate.tbs, hversion, List.length_append] at htbs
      exact lt_of_le_of_lt (le_trans hle (Nat.le_add_right _ _)) htbs
    exact ⟨0xA0, v, _, starts_der _ hv _, rfl⟩

theorem beValue_derNat (n : ℕ) : beValue (derNat n) = n := by
  refine beValue_beBytes_of_lt (lt_of_lt_of_le (Nat.lt_size_self n) ?_)
  rw [show 256 = 2 ^ 8 by rfl, ← pow_mul]
  exact Nat.pow_le_pow_right (by decide) (by omega)

theorem extractRsaPubkey_encode (c : Certificate) (h : c.content.length < 2 ^ 32) :
    ∃ key, extractRsaPubkey c.encode = some key ∧ key.n.toNat = c.modulus ∧
      key.e.toNat = c.publicExponent := by
  refine ⟨_, extractRsaPubkey_eq_some_iff.mpr ⟨_, _, rsaCertificate_encode c h, rfl⟩, ?_, ?_⟩
  · rw [toNat_fromBeBytes, beValue_trimSign, beValue_derNat]
  · rw [toNat_fromBeBytes, beValue_trimSign, beValue_derNat]

/-! ## Slices in bounds -/

def readDerLenChecked (data : List UInt8) : Checked (ℕ × ℕ) :=
  if data = [] then answer none
  else do
    let b0 ← index data 0
    if b0 < 0x80 then answer (some (b0.toNat, 1))
    else
      let numBytes := (b0 &&& 0x7F).toNat
      if numBytes = 0 ∨ 4 < numBytes ∨ data.length < 1 + numBytes then answer none
      else do
        let len ← (List.range numBytes).foldlM (fun len i => do
          let b ← index data (1 + i)
          answer (some ((len <<< 8) ||| b.toNat))) 0
        answer (some (len, 1 + numBytes))

def readTlvChecked (data : List UInt8) : Checked (UInt8 × List UInt8 × List UInt8) :=
  if data = [] then answer none
  else do
    let tag ← index data 0
    let body ← range data 1 data.length
    let (len, hdrSize) ← readDerLenChecked body
    let start := 1 + hdrSize
    if start + len > data.length then answer none
    else do
      let content ← range data start (start + len)
      let rest ← range data (start + len) data.length
      answer (some (tag, content, rest))

def skipTlvChecked (data : List UInt8) : Checked (List UInt8) := do
  let (_, _, rest) ← readTlvChecked data
  answer (some rest)

def expectTlvChecked (tag : UInt8) (data : List UInt8) : Checked (List UInt8 × List UInt8) := do
  let (found, content, rest) ← readTlvChecked data
  if found ≠ tag then answer none else answer (some (content, rest))

/-- Whether the first byte is `b`, for `!data.is_empty() && data[0] == b`. -/
def startsWith (data : List UInt8) (b : UInt8) : Checked Bool :=
  if data = [] then answer (some false)
  else do
    let first ← index data 0
    answer (some (first == b))

def skipVersionChecked (tbs : List UInt8) : Checked (List UInt8) := do
  let tagged ← startsWith tbs 0xA0
  if tagged then skipTlvChecked tbs else answer (some tbs)

def trimSignChecked (bytes : List UInt8) : Checked (List UInt8) := do
  let padded ← startsWith bytes 0x00
  if padded then range bytes 1 bytes.length else answer (some bytes)

def extractRsaPubkeyChecked (certDer : List UInt8) : Checked RsaPubKey := do
  let (certContent, _) ← expectTlvChecked 0x30 certDer
  let (tbs, _) ← expectTlvChecked 0x30 certContent
  let pos ← skipVersionChecked tbs
  let pos ← skipTlvChecked pos
  let pos ← skipTlvChecked pos
  let pos ← skipTlvChecked pos
  let pos ← skipTlvChecked pos
  let pos ← skipTlvChecked pos
  let (spki, _) ← expectTlvChecked 0x30 pos
  let spkiRest ← skipTlvChecked spki
  let (bitstr, _) ← expectTlvChecked 0x03 spkiRest
  let full ← startsWith bitstr 0x00
  if !full then answer none
  else do
    let key ← range bitstr 1 bitstr.length
    let (rsaSeq, _) ← expectTlvChecked 0x30 key
    let (nBytes, rest) ← expectTlvChecked 0x02 rsaSeq
    let (eBytes, _) ← expectTlvChecked 0x02 rest
    let nTrimmed ← trimSignChecked nBytes
    let eTrimmed ← trimSignChecked eBytes
    answer (some ⟨fromBeBytes nTrimmed, fromBeBytes eTrimmed⟩)

theorem startsWith_eq (data : List UInt8) (b : UInt8) :
    startsWith data b = answer (some (data.head? == some b)) := by
  cases data with
  | nil => rfl
  | cons first data => exact answer_some_bind (index_eq (Nat.succ_pos _)) rfl

theorem foldlM_length (data : List UInt8) {count : ℕ} (h : 1 + count ≤ data.length) :
    (List.range count).foldlM (fun len i => do
        let b ← index data (1 + i)
        answer (some ((len <<< 8) ||| b.toNat))) 0 =
      answer (some (beValue ((data.drop 1).take count))) := by
  induction count with
  | zero => rfl
  | succ count ih =>
    have hget : (data.drop 1).take (count + 1) = (data.drop 1).take count ++ [data[1 + count]] := by
      rw [List.take_add_one, List.getElem?_drop, List.getElem?_eq_getElem (by omega)]
      rfl
    rw [List.range_succ, List.foldlM_append]
    refine answer_some_bind (ih (by omega)) ?_
    rw [List.foldlM_cons]
    refine answer_some_bind (answer_some_bind (index_eq (by omega)) rfl) ?_
    rw [← Nat.shiftLeft_add_eq_or_of_lt (UInt8.toNat_lt _), Nat.shiftLeft_eq, Nat.mul_comm, hget,
      beValue_append]
    rfl

theorem readDerLenChecked_eq (data : List UInt8) :
    readDerLenChecked data = answer (readDerLen data) := by
  cases data with
  | nil => rfl
  | cons b0 data =>
    rw [readDerLenChecked, if_neg (List.cons_ne_nil _ _)]
    refine answer_some_bind (index_eq (Nat.succ_pos _)) ?_
    rw [List.getElem_cons_zero, readDerLen]
    dsimp only
    split_ifs with hshort hbad hbad' hbad'
    · rfl
    · rfl
    · rw [List.length_cons] at hbad
      omega
    · rw [List.length_cons] at hbad
      omega
    · exact answer_some_bind (foldlM_length _ (by rw [List.length_cons] at hbad ⊢; omega)) rfl

theorem readTlvChecked_eq (data : List UInt8) : readTlvChecked data = answer (readTlv data) := by
  cases data with
  | nil => rfl
  | cons tag data =>
    rw [readTlvChecked, if_neg (List.cons_ne_nil _ _), readTlv]
    refine answer_some_bind (index_eq (Nat.succ_pos _)) ?_
    refine answer_some_bind (range_length_eq (by simp)) ?_
    refine answer_bind (readDerLenChecked_eq _) fun header => ?_
    obtain ⟨len, hdrSize⟩ := header
    dsimp only
    split_ifs with hlong hlong' hlong'
    · rfl
    · rw [List.length_cons] at hlong
      omega
    · rw [List.length_cons] at hlong
      omega
    · refine answer_some_bind (range_eq (by omega) (by omega)) ?_
      refine answer_some_bind (range_length_eq (by omega)) ?_
      have hcount : 1 + hdrSize + len - (1 + hdrSize) = len := by omega
      rw [hcount, Nat.add_assoc, Nat.add_comm 1, Nat.add_comm 1]
      rfl

theorem skipTlvChecked_eq (data : List UInt8) : skipTlvChecked data = answer (skipTlv data) := by
  rw [skipTlvChecked, skipTlv, Option.map_eq_bind]
  exact answer_bind (readTlvChecked_eq data) fun _ => rfl

theorem expectTlvChecked_eq (tag : UInt8) (data : List UInt8) :
    expectTlvChecked tag data = answer (expectTlv tag data) := by
  refine answer_bind (readTlvChecked_eq data) fun ⟨found, content, rest⟩ => ?_
  dsimp only
  split_ifs <;> rfl

theorem skipVersionChecked_eq (tbs : List UInt8) :
    skipVersionChecked tbs = answer (skipVersion tbs) := by
  refine answer_some_bind (startsWith_eq _ _) ?_
  simp only [beq_iff_eq, skipVersion]
  split_ifs
  · exact skipTlvChecked_eq tbs
  · rfl

theorem trimSignChecked_eq (bytes : List UInt8) :
    trimSignChecked bytes = answer (some (trimSign bytes)) := by
  refine answer_some_bind (startsWith_eq _ _) ?_
  simp only [beq_iff_eq, trimSign]
  split_ifs with h
  · refine range_length_eq ?_
    cases bytes with
    | nil => cases h
    | cons _ _ => simp
  · rfl

theorem extractRsaPubkeyChecked_eq (certDer : List UInt8) :
    extractRsaPubkeyChecked certDer = answer (extractRsaPubkey certDer) := by
  refine answer_bind (expectTlvChecked_eq _ _) fun ⟨certContent, _⟩ => ?_
  refine answer_bind (expectTlvChecked_eq _ _) fun ⟨tbs, _⟩ => ?_
  refine answer_bind (skipVersionChecked_eq _) fun pos => ?_
  refine answer_bind (skipTlvChecked_eq _) fun pos => ?_
  refine answer_bind (skipTlvChecked_eq _) fun pos => ?_
  refine answer_bind (skipTlvChecked_eq _) fun pos => ?_
  refine answer_bind (skipTlvChecked_eq _) fun pos => ?_
  refine answer_bind (skipTlvChecked_eq _) fun pos => ?_
  refine answer_bind (expectTlvChecked_eq _ _) fun ⟨spki, _⟩ => ?_
  refine answer_bind (skipTlvChecked_eq _) fun spkiRest => ?_
  refine answer_bind (expectTlvChecked_eq _ _) fun ⟨bitstr, _⟩ => ?_
  refine answer_some_bind (startsWith_eq _ _) ?_
  cases bitstr with
  | nil => rfl
  | cons unused key =>
    simp only [List.head?_cons, Option.some_beq_some, Bool.not_eq_true', beq_eq_false_iff_ne, ne_eq,
      Option.some.injEq]
    split_ifs
    · refine answer_some_bind (range_length_eq (by simp)) ?_
      refine answer_bind (expectTlvChecked_eq _ _) fun ⟨rsaSeq, _⟩ => ?_
      refine answer_bind (expectTlvChecked_eq _ _) fun ⟨nBytes, rest⟩ => ?_
      refine answer_bind (expectTlvChecked_eq _ _) fun ⟨eBytes, _⟩ => ?_
      refine answer_some_bind (trimSignChecked_eq _) ?_
      exact answer_some_bind (trimSignChecked_eq _) rfl
    · rfl

/-- **Key extraction.** An encoded certificate gives its modulus and its exponent, and on every byte
string the parser keeps within the bytes it has. -/
theorem certificate_key :
    (∀ c : Certificate, c.content.length < 2 ^ 32 →
      ∃ key, extractRsaPubkey c.encode = some key ∧ key.n.toNat = c.modulus ∧
        key.e.toNat = c.publicExponent) ∧
      ∀ certDer, extractRsaPubkeyChecked certDer = answer (extractRsaPubkey certDer) :=
  ⟨extractRsaPubkey_encode, extractRsaPubkeyChecked_eq⟩

/-- A certificate with a version, the modulus 143 and the exponent 3. -/
def smallCertificate : Certificate where
  version := some [0x02, 1, 2]
  serialNumber := [1]
  signature := ⟨0x30, []⟩
  issuer := ⟨0x30, []⟩
  validity := ⟨0x30, []⟩
  subject := ⟨0x30, []⟩
  algorithm := ⟨0x30, []⟩
  modulus := 143
  publicExponent := 3
  extensions := []
  signed := []

theorem certificate_key_small :
    ∃ key, extractRsaPubkey smallCertificate.encode = some key ∧ key.n.toNat = 143 ∧
      key.e.toNat = 3 :=
  certificate_key.1 smallCertificate (by decide)

end Aeterna.Net.Tls.X509
