import Aeterna.Net.Tls.Record

/-!
# The TLS handshake

`tls_connect_inner` of `net/tls/handshake.rs`, in the order of the source: the client's hello, the
server's flight up to `ServerHelloDone`, the key exchange and the client's Finished
(`clientFlight`), then the loop that waits for the server's Finished (`awaitFinished`).

What the client meets from outside is `Session`: the random numbers it draws, whether each of its
four sends succeeds, and, pass by pass, what its reads find (`Poll`): the clock past the timeout,
bytes of the peer cut in any way, the end of the stream, or an error.
-/

namespace Aeterna.Net.Tls

open Lib.Bytes

/-! ## Reading records -/

/-- What one pass of the loop of `tcp_read_into` meets. An empty `received` is the end of the
stream. -/
inductive Poll where
  | expired
  | received (data : Bytes)
  | failed (error : TcpError)
  deriving DecidableEq

/-- The bytes read and not yet used, and what the coming passes will meet. A reader whose passes
have run out meets the timeout. -/
structure Reader where
  buf : Bytes
  polls : List Poll

namespace Reader

/-- The bytes in the buffer and still to come. -/
def size (r : Reader) : ℕ :=
  r.buf.length + (r.polls.map fun
    | .received data => data.length
    | _ => 0).sum

/-- Read until the buffer holds `need` bytes; says whether it does. -/
def tcpReadInto (need : ℕ) (buf : Bytes) : List Poll → Bool × Reader
  | [] => (need ≤ buf.length, ⟨buf, []⟩)
  | p :: ps =>
    if need ≤ buf.length then (true, ⟨buf, p :: ps⟩)
    else match p with
    | .expired => (false, ⟨buf, ps⟩)
    | .received data => if data = [] then (false, ⟨buf, ps⟩) else tcpReadInto need (buf ++ data) ps
    | .failed .wouldBlock => tcpReadInto need buf ps
    | .failed _ => (false, ⟨buf, ps⟩)

/-- Read one complete record: its content type and payload. -/
def readRecord (r : Reader) : Option (UInt8 × Bytes) × Reader :=
  match tcpReadInto 5 r.buf r.polls with
  | (false, r) => (none, r)
  | (true, r) =>
    match tcpReadInto (5 + recordLength r.buf) r.buf r.polls with
    | (false, r) => (none, r)
    | (true, r) =>
      match parseRecord r.buf with
      | none => (none, r)
      | some (ct, payload, consumed) => (some (ct, payload), { r with buf := r.buf.drop consumed })

theorem size_tcpReadInto (need : ℕ) (buf : Bytes) (ps : List Poll) :
    (tcpReadInto need buf ps).2.size ≤ size ⟨buf, ps⟩ := by
  induction ps generalizing buf with
  | nil => simp [tcpReadInto]
  | cons p ps ih =>
    unfold tcpReadInto
    split_ifs
    · exact Nat.le_refl _
    · cases p with
      | expired => simp [size]
      | received data =>
        dsimp only
        split_ifs with hd
        · simp [size]
        · refine Nat.le_trans (ih _) ?_
          simp only [size, List.length_append, List.map_cons, List.sum_cons]
          omega
      | failed e =>
        cases e with
        | wouldBlock => exact Nat.le_trans (ih _) (by simp [size])
        | _ => simp [size]

theorem consumed_parseRecord {data payload : Bytes} {ct : UInt8} {consumed : ℕ}
    (h : parseRecord data = some (ct, payload, consumed)) :
    5 ≤ consumed ∧ consumed ≤ data.length := by
  unfold parseRecord at h
  split_ifs at h
  cases h
  exact ⟨by omega, by omega⟩

theorem size_readRecord {r r' : Reader} {x : UInt8 × Bytes}
    (h : readRecord r = (some x, r')) : r'.size < r.size := by
  unfold readRecord at h
  have h₁ := size_tcpReadInto 5 r.buf r.polls
  cases e₁ : tcpReadInto 5 r.buf r.polls with
  | mk ok₁ r₁ =>
    rw [e₁] at h h₁
    cases ok₁ with
    | false => simp at h
    | true =>
      have h₂ := size_tcpReadInto (5 + recordLength r₁.buf) r₁.buf r₁.polls
      cases e₂ : tcpReadInto (5 + recordLength r₁.buf) r₁.buf r₁.polls with
      | mk ok₂ r₂ =>
        rw [e₂] at h₂
        cases ok₂ with
        | false => simp [e₂] at h
        | true =>
          cases hp : parseRecord r₂.buf with
          | none => simp [e₂, hp] at h
          | some y =>
            obtain ⟨ct, payload, consumed⟩ := y
            simp only [e₂, hp, Prod.mk.injEq, Option.some.injEq] at h
            obtain ⟨-, rfl⟩ := h
            have hc := consumed_parseRecord hp
            simp only [size, List.length_drop] at *
            omega

end Reader

/-! ## Messages -/

def hsClientHello : UInt8 := 1
def hsServerHello : UInt8 := 2
def hsCertificate : UInt8 := 11
def hsServerKeyExchange : UInt8 := 12
def hsServerHelloDone : UInt8 := 14
def hsClientKeyExch : UInt8 := 16
def hsFinished : UInt8 := 20

abbrev CipherSuite := UInt16

def ecdheRsaAes128Gcm : CipherSuite := 0xC02F
def ecdheEcdsaAes128Gcm : CipherSuite := 0xC02B
def ecdheRsaAes128Cbc : CipherSuite := 0xC027
def rsaAes128Cbc : CipherSuite := 0x003C

def isGcmSuite (suite : CipherSuite) : Bool :=
  suite == ecdheRsaAes128Gcm || suite == ecdheEcdsaAes128Gcm

/-- Type, three bytes of length, body. -/
def wrapHandshake (hsType : UInt8) (body : Bytes) : Bytes :=
  [hsType] ++ beBytes 3 body.length ++ body

/-- The extension that names the server, left out for an empty name. -/
def sniExtension (hostname : Bytes) : Bytes :=
  if hostname = [] then []
  else
    let listLen := 3 + hostname.length
    [0x00, 0x00] ++ beBytes 2 (2 + listLen) ++ beBytes 2 listLen ++ [0x00] ++
      beBytes 2 hostname.length ++ hostname

/-- The extensions that do not depend on the connection: groups, point formats, signature
algorithms, extended master secret, session ticket, renegotiation, versions, protocol. -/
def fixedExtensions : Bytes :=
  [0x00, 0x0A, 0x00, 0x04, 0x00, 0x02, 0x00, 0x17] ++
  [0x00, 0x0B, 0x00, 0x02, 0x01, 0x00] ++
  [0x00, 0x0D, 0x00, 0x10, 0x00, 0x0E, 0x04, 0x01, 0x04, 0x03, 0x05, 0x01, 0x05, 0x03, 0x06, 0x01,
    0x06, 0x03, 0x02, 0x01] ++
  [0x00, 0x17, 0x00, 0x00] ++
  [0x00, 0x23, 0x00, 0x00] ++
  [0xFF, 0x01, 0x00, 0x01, 0x00] ++
  [0x00, 0x2B, 0x00, 0x03, 0x02, 0x03, 0x03] ++
  [0x00, 0x10, 0x00, 0x0B, 0x00, 0x09, 0x08] ++ "http/1.1".toUTF8.toList

def buildClientHello (clientRandom hostname : Bytes) : Bytes :=
  let exts := sniExtension hostname ++ fixedExtensions
  wrapHandshake hsClientHello <|
    [tls12Major, tls12Minor] ++ clientRandom ++ [0] ++
    [0x00, 0x0A, 0xC0, 0x2F, 0xC0, 0x2B, 0xC0, 0x27, 0x00, 0x3C, 0x00, 0xFF] ++
    [0x01, 0x00] ++ beBytes 2 exts.length ++ exts

structure ServerHello where
  serverRandom : Bytes
  sessionId : Bytes
  cipherSuite : CipherSuite

def parseServerHello (data : Bytes) : Option ServerHello :=
  if data.length < 38 then none
  else
    let sidLen := (data.getD 34 0).toNat
    if data.length < 35 + sidLen + 2 then none
    else some
      { serverRandom := (data.drop 2).take 32
        sessionId := (data.drop 35).take sidLen
        cipherSuite := UInt16.ofNat (beValue ((data.drop (35 + sidLen)).take 2)) }

/-- The complete messages at the front of a record payload, with their types. -/
def parseHandshakeMessages (data : Bytes) : List (UInt8 × Bytes) :=
  if data.length < 4 then []
  else
    let len := beValue ((data.drop 1).take 3)
    if data.length < 4 + len then []
    else (data.getD 0 0, (data.drop 4).take len) :: parseHandshakeMessages (data.drop (4 + len))
termination_by data.length
decreasing_by simp only [List.length_drop]; omega

/-- The peer's point, without its leading marker byte. -/
def parseServerKeyExchangeEcdhe (data : Bytes) : Option Bytes :=
  if data.length < 69 then none
  else if data.getD 0 0 ≠ 3 then none
  else if data.getD 1 0 ≠ 0x00 ∨ data.getD 2 0 ≠ 0x17 then none
  else if data.getD 3 0 ≠ 65 then none
  else if data.getD 4 0 ≠ 0x04 then none
  else some ((data.drop 5).take 64)

/-! ## Keys -/

structure SessionKeys where
  clientMacKey : Bytes
  serverMacKey : Bytes
  clientEncKey : Bytes
  serverEncKey : Bytes
  clientGcmIv : Bytes
  serverGcmIv : Bytes
  cipherSuite : CipherSuite

def deriveKeys (P : Primitives) (preMasterSecret clientRandom serverRandom : Bytes)
    (suite : CipherSuite) : Bytes × SessionKeys :=
  let masterSecret :=
    prf P preMasterSecret "master secret".toUTF8.toList (clientRandom ++ serverRandom) 48
  let ksSeed := serverRandom ++ clientRandom
  if isGcmSuite suite then
    let kb := prf P masterSecret "key expansion".toUTF8.toList ksSeed 40
    (masterSecret,
      { clientMacKey := List.replicate 32 0
        serverMacKey := List.replicate 32 0
        clientEncKey := kb.take 16
        serverEncKey := (kb.drop 16).take 16
        clientGcmIv := (kb.drop 32).take 4
        serverGcmIv := (kb.drop 36).take 4
        cipherSuite := suite })
  else
    let kb := prf P masterSecret "key expansion".toUTF8.toList ksSeed 96
    (masterSecret,
      { clientMacKey := kb.take 32
        serverMacKey := (kb.drop 32).take 32
        clientEncKey := (kb.drop 64).take 16
        serverEncKey := (kb.drop 80).take 16
        clientGcmIv := List.replicate 4 0
        serverGcmIv := List.replicate 4 0
        cipherSuite := suite })

def computeVerifyData (P : Primitives) (masterSecret label : Bytes) (hash : Vector UInt8 32) :
    Bytes :=
  (prf P masterSecret label hash.toList 12).take 12

/-! ## The server's flight -/

/-- What the client meets from outside during a handshake. -/
structure Session where
  prims : Primitives
  hostname : Bytes
  clientRandom : Vector UInt8 32
  ephemeral : Vector UInt8 32
  preMaster : Vector UInt8 46
  rsaPadding : Bytes
  finishedIv : Vector UInt8 16
  helloSent : Bool
  keyExchangeSent : Bool
  changeCipherSent : Bool
  finishedSent : Bool
  polls : List Poll

structure Flight where
  transcript : Bytes
  serverHello : Option ServerHello
  certDer : Option Bytes
  ecdhePub : Option Bytes
  done : Bool

def Flight.takeMessage (P : Primitives) (f : Flight) (msg : UInt8 × Bytes) :
    Except String Flight :=
  if msg.1 = hsServerHello then
    match parseServerHello msg.2 with
    | some sh => .ok { f with serverHello := some sh }
    | none => .error "TLS: bad ServerHello"
  else if msg.1 = hsCertificate then
    match P.parseCertificateChain msg.2 with
    | some cert => .ok { f with certDer := some cert }
    | none => .error "TLS: bad Certificate"
  else if msg.1 = hsServerKeyExchange then
    match parseServerKeyExchangeEcdhe msg.2 with
    | some pub => .ok { f with ecdhePub := some pub }
    | none => .ok f
  else if msg.1 = hsServerHelloDone then .ok { f with done := true }
  else .ok f

def Flight.takeRecord (P : Primitives) (f : Flight) (payload : Bytes) : Except String Flight :=
  (parseHandshakeMessages payload).foldlM (Flight.takeMessage P)
    { f with transcript := f.transcript ++ payload }

/-- The loop up to `ServerHelloDone`. -/
def serverFlight (P : Primitives) (f : Flight) (r : Reader) : Except String (Flight × Reader) :=
  if f.done then .ok (f, r)
  else match _h : r.readRecord with
  | (none, _) => .error "TLS: timeout waiting for server"
  | (some (ct, payload), r') =>
    if ct = ctAlert then .error "TLS: server sent alert"
    else if ct ≠ ctHandshake then serverFlight P f r'
    else
      match f.takeRecord P payload with
      | .ok f => serverFlight P f r'
      | .error e => .error e
termination_by r.size
decreasing_by all_goals exact Reader.size_readRecord _h

/-! ## The client's answer -/

/-- The secret and the message of the key exchange that the server's suite asks for. -/
def keyExchange (s : Session) (f : Flight) (sh : ServerHello) (cert : Bytes) :
    Except String (Bytes × Bytes) :=
  if isGcmSuite sh.cipherSuite || sh.cipherSuite == ecdheRsaAes128Cbc then
    match f.ecdhePub with
    | none => .error "TLS: no ServerKeyExchange for ECDHE"
    | some peerPub =>
      let (priv, pub) := s.prims.ecdheKeygen s.ephemeral.toList
      .ok ((s.prims.ecdheSharedSecret priv peerPub).toList,
        wrapHandshake hsClientKeyExch ([65, 0x04] ++ pub))
  else if sh.cipherSuite = rsaAes128Cbc then
    match s.prims.extractRsaPubkey cert with
    | none => .error "TLS: cannot extract RSA key"
    | some key =>
      let pms := [tls12Major, tls12Minor] ++ s.preMaster.toList
      let encrypted := s.prims.rsaEncrypt s.rsaPadding pms key
      .ok (pms, wrapHandshake hsClientKeyExch (beBytes 2 encrypted.length ++ encrypted))
  else .error "TLS: server chose unsupported cipher suite"

/-- The handshake after the client's Finished: what the wait for the server's works with. -/
structure Pending where
  masterSecret : Bytes
  keys : SessionKeys
  transcript : Bytes
  reader : Reader

/-- Everything up to and including the client's Finished. -/
def clientFlight (s : Session) : Except String Pending := do
  let ch := buildClientHello s.clientRandom.toList s.hostname
  if s.helloSent = false then throw "TLS: failed to send ClientHello"
  let (f, r) ← serverFlight s.prims ⟨ch, none, none, none, false⟩ ⟨[], s.polls⟩
  let some sh := f.serverHello | throw "TLS: no ServerHello"
  let some cert := f.certDer | throw "TLS: no Certificate"
  let (preMasterSecret, ckeHs) ← keyExchange s f sh cert
  if s.keyExchangeSent = false then throw "TLS: send CKE failed"
  let (masterSecret, keys) :=
    deriveKeys s.prims preMasterSecret s.clientRandom.toList sh.serverRandom sh.cipherSuite
  if s.changeCipherSent = false then throw "TLS: send CCS failed"
  let transcript := f.transcript ++ ckeHs
  let clientVd := computeVerifyData s.prims masterSecret "client finished".toUTF8.toList
    (s.prims.sha256 transcript)
  let finishedHs := wrapHandshake hsFinished clientVd
  if s.finishedSent = false then throw "TLS: send Finished failed"
  return ⟨masterSecret, keys, transcript ++ finishedHs, r⟩

/-! ## The server's Finished -/

namespace Pending

variable (P : Primitives) (p : Pending)

/-- The content of a handshake record under the server's keys and sequence number 0. -/
def decrypt (payload : Bytes) : Option Bytes :=
  if isGcmSuite p.keys.cipherSuite then
    decryptGcmRecord P ctHandshake payload 0 p.keys.serverEncKey p.keys.serverGcmIv
  else decryptRecord P ctHandshake payload 0 p.keys.serverMacKey p.keys.serverEncKey

/-- What the server's Finished has to carry. -/
def expectedVerifyData : Bytes :=
  computeVerifyData P p.masterSecret "server finished".toUTF8.toList (P.sha256 p.transcript)

/-- The verify data of a message: as many bytes after the header as its length field says, or as
there are. -/
def verifyDataOf (content : Bytes) : Bytes :=
  (content.drop 4).take (min (beValue ((content.drop 1).take 3)) (content.length - 4))

/-- The check of the decrypted content: it looks only at messages of type Finished. -/
def verifyContent (content : Bytes) : Except String Unit :=
  if 4 ≤ content.length ∧ content.getD 0 0 = hsFinished then
    if diffBits (verifyDataOf content) (p.expectedVerifyData P) ≠ 0 ∨
        (verifyDataOf content).length ≠ 12 then
      .error "TLS: server Finished verify_data mismatch"
    else .ok ()
  else .ok ()

/-- The handshake record after the server's ChangeCipherSpec. -/
def takeFinished (payload : Bytes) : Except String Unit :=
  match p.decrypt P payload with
  | none => .error "TLS: decrypt server Finished failed"
  | some content => p.verifyContent P content

end Pending

structure TlsConn where
  keys : SessionKeys
  clientSeq : UInt64
  serverSeq : UInt64
  recvBuf : Bytes

/-- The loop that waits for the server's ChangeCipherSpec and Finished. -/
def awaitFinished (P : Primitives) (p : Pending) (gotCcs : Bool) (r : Reader) :
    Except String TlsConn :=
  match _h : r.readRecord with
  | (none, _) => .error "TLS: timeout waiting for server Finished"
  | (some (ct, payload), r') =>
    if ct = ctChangeCipher then awaitFinished P p true r'
    else if ct = ctHandshake ∧ gotCcs = true then
      match p.takeFinished P payload with
      | .ok () => .ok ⟨p.keys, 1, 1, r'.buf⟩
      | .error e => .error e
    else if ct = ctAlert then .error "TLS: server alert during handshake"
    else awaitFinished P p gotCcs r'
termination_by r.size
decreasing_by all_goals exact Reader.size_readRecord _h

def tlsConnectInner (s : Session) : Except String TlsConn := do
  let p ← clientFlight s
  awaitFinished s.prims p false p.reader

end Aeterna.Net.Tls
