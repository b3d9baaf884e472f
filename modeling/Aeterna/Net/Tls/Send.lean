import Aeterna.Lib.Run
import Aeterna.Net.Tls.Finished

/-!
# Records on the wire

`TlsConn::send` and `TlsConn::close` of `net/tls/handshake.rs` over a TCP endpoint. A call of
`tcp_send` runs under a schedule: what happens on the endpoint until it returns, its own passes
and the segments and ticks that come in between (`tcpSend`).

A record is encrypted under the client's sequence number, which moves on only when `tcp_send`
reports success. A record that fails was not transmitted at all, for `tcp_send` returns its errors
before its first segment (`segs_eq_nil_of_failed`), so no nonce reaches the wire twice
(`nonces_distinct`).
-/

namespace Aeterna.Net

open Endpoint

/-! ## A call of `tcp_send` -/

/-- What a call has sent, and its reply once it has returned. -/
structure SendResult where
  endpoint : Endpoint
  segs : List Segment
  reply : Option Reply

/-- The segments a step sends on behalf of the call: not the answers to arriving segments. -/
def ownSegs (o : Outcome) : Action → List Segment
  | .segment .. | .elapse _ => []
  | .request _ | .proceed => o.segs

/-- Follow the schedule until the call in progress returns. -/
def followCall (e : Endpoint) : List Action → SendResult
  | [] => ⟨e, [], none⟩
  | a :: as =>
    let o := e.step a
    match o.reply with
    | some reply => ⟨o.endpoint, ownSegs o a, some reply⟩
    | none =>
      let rest := followCall o.endpoint as
      { rest with segs := ownSegs o a ++ rest.segs }

def tcpSend (e : Endpoint) (data : Bytes) (schedule : List Action) : SendResult :=
  followCall e (.request (.send data) :: schedule)

/-- The call in progress is a `tcp_send` that has passed its checks. -/
def InSend (e : Endpoint) : Prop :=
  (∃ mss sent rest, e.call = .sending mss sent rest) ∨
    ∃ mss sent chunk rest, e.call = .storing mss sent chunk rest

theorem step_of_inSend {e : Endpoint} (h : InSend e) (a : Action) :
    ((e.step a).reply = none ∧ InSend (e.step a).endpoint) ∨
      ∃ n, (e.step a).reply = some (.sent n) ∧ (e.step a).endpoint.call = .idle := by
  have hbusy : e.call ≠ .idle := by
    rcases h with ⟨_, _, _, h⟩ | ⟨_, _, _, _, h⟩ <;> simp [h]
  cases a with
  | segment seq ack flags window payload =>
    refine Or.inl ?_
    simp only [Endpoint.step, deliver]
    split_ifs <;> exact ⟨rfl, h⟩
  | elapse ticks => exact Or.inl ⟨rfl, h⟩
  | request r =>
    simp only [Endpoint.step, if_neg hbusy]
    exact Or.inl ⟨rfl, h⟩
  | proceed =>
    rcases h with ⟨mss, sent, rest, h⟩ | ⟨mss, sent, chunk, rest, h⟩
    · simp only [Endpoint.step, proceed, h, sendChunk]
      split_ifs
      · exact Or.inr ⟨sent, rfl, rfl⟩
      · exact Or.inl ⟨rfl, Or.inr ⟨_, _, _, _, rfl⟩⟩
    · simp only [Endpoint.step, proceed, h]
      exact Or.inl ⟨rfl, Or.inl ⟨_, _, _, rfl⟩⟩

theorem followCall_of_inSend {e : Endpoint} (h : InSend e) (as : List Action) :
    (followCall e as).reply = none ∨
      ∃ n, (followCall e as).reply = some (.sent n) ∧ (followCall e as).endpoint.call = .idle := by
  induction as generalizing e with
  | nil => exact Or.inl rfl
  | cons a as ih =>
    rcases step_of_inSend h a with ⟨hr, h'⟩ | ⟨n, hr, hidle⟩
    · simp only [followCall, hr]
      exact ih h'
    · simp only [followCall, hr]
      exact Or.inr ⟨n, rfl, hidle⟩

/-- How a `tcp_send` ends: at its checks, with nothing sent, or past them with success, if at
all. -/
theorem tcpSend_cases {e : Endpoint} (h : e.call = .idle) (data : Bytes) (schedule : List Action) :
    (∃ error, (tcpSend e data schedule).reply = some (.failed error) ∧
      (tcpSend e data schedule).segs = [] ∧ (tcpSend e data schedule).endpoint.call = .idle) ∨
    (tcpSend e data schedule).reply = none ∨
    ∃ n, (tcpSend e data schedule).reply = some (.sent n) ∧
      (tcpSend e data schedule).endpoint.call = .idle := by
  have hstep : e.step (.request (.send data)) = e.beginSend data := by
    simp only [Endpoint.step, h, if_true, begin]
  have hbegin : (∃ error, e.beginSend data = e.finish (.failed error)) ∨
      ((e.beginSend data).reply = none ∧ InSend (e.beginSend data).endpoint) := by
    unfold beginSend
    dsimp only
    split
    · split_ifs
      · exact Or.inl ⟨_, rfl⟩
      · exact Or.inr ⟨rfl, Or.inl ⟨_, _, _, rfl⟩⟩
    · split_ifs
      · exact Or.inl ⟨_, rfl⟩
      · exact Or.inr ⟨rfl, Or.inl ⟨_, _, _, rfl⟩⟩
    · exact Or.inl ⟨_, rfl⟩
  unfold tcpSend
  rcases hbegin with ⟨error, hb⟩ | ⟨hr, hin⟩
  · simp [followCall, hstep, hb, finish, ownSegs]
  · simp only [followCall, hstep, hr]
    exact Or.inr (followCall_of_inSend hin schedule)

end Aeterna.Net

namespace Aeterna.Net.Tls

open Lib.Bytes Endpoint

/-! ## Sending records -/

/-- A record handed to `tcp_send`: the key and nonce it is encrypted under, its bytes, and the
segments that went out. -/
structure WireRecord where
  key : Bytes
  nonce : Bytes
  record : Bytes
  segs : List Segment

/-- What the environment adds to one record: the random vector of a CBC record and the schedule of
the transport call. -/
structure Pass where
  iv : Vector UInt8 16
  schedule : List Action

/-- A connection over its endpoint, with the records handed to the transport so far. It is `live`
until it is closed, or for good when a transport call does not return. -/
structure Link where
  conn : TlsConn
  endpoint : Endpoint
  wire : List WireRecord
  live : Bool

namespace Link

variable (P : Primitives)

/-- The record for a fragment under the client's next sequence number. -/
def protectRecord (conn : TlsConn) (contentType : UInt8) (fragment : Bytes)
    (iv : Vector UInt8 16) : Bytes :=
  if isGcmSuite conn.keys.cipherSuite then
    buildGcmRecord P contentType fragment conn.clientSeq conn.keys.clientEncKey
      conn.keys.clientGcmIv
  else
    buildEncryptedRecord P contentType fragment conn.clientSeq conn.keys.clientMacKey
      conn.keys.clientEncKey iv.toList

/-- Build a record and hand it to the transport; the answer of `tcp_send_all`, if there is one. -/
def sendRecord (w : Link) (contentType : UInt8) (fragment : Bytes) (pass : Pass) :
    Link × Option Bool :=
  let record := protectRecord P w.conn contentType fragment pass.iv
  let res := tcpSend w.endpoint record pass.schedule
  let sent : WireRecord :=
    ⟨w.conn.keys.clientEncKey, gcmNonce w.conn.keys.clientGcmIv w.conn.clientSeq, record, res.segs⟩
  let w := { w with endpoint := res.endpoint, wire := w.wire ++ [sent] }
  match res.reply with
  | none => ({ w with live := false }, none)
  | some (.failed _) => (w, some false)
  | some _ => (w, some true)

/-- The sequence number of a record that went out is used up. -/
def advance (w : Link) : Link :=
  { w with conn := { w.conn with clientSeq := w.conn.clientSeq + 1 } }

/-- The loop of `TlsConn::send` over the fragments of the data. -/
def sendLoop (w : Link) (data : Bytes) : List Pass → Link × Option Bool
  | [] => if data = [] then (w, some true) else ({ w with live := false }, none)
  | pass :: passes =>
    if data = [] then (w, some true)
    else match w.sendRecord P ctAppData (data.take maxFragment) pass with
    | (w, some true) => w.advance.sendLoop (data.drop maxFragment) passes
    | (w, answer) => (w, answer)

/-- `TlsConn::send`: the bytes sent, or the error. -/
def send (w : Link) (data : Bytes) (passes : List Pass) : Link × Option (Except String ℕ) :=
  match w.sendLoop P data passes with
  | (w, none) => (w, none)
  | (w, some true) => (w, some (.ok data.length))
  | (w, some false) => (w, some (.error "TLS: send failed"))

/-- `TlsConn::close`: the alert, whatever becomes of it, then the close of the endpoint. -/
def close (w : Link) (pass : Pass) : Link :=
  let w := (w.sendRecord P ctAlert [1, 0] pass).1
  { w with endpoint := (w.endpoint.step (.request .close)).endpoint, live := false }

/-- The connection after the client's Finished, the record with sequence number 0. -/
def finished (keys : SessionKeys) (finishedHs : Bytes) (endpoint : Endpoint) (pass : Pass) : Link :=
  match sendRecord P ⟨⟨keys, 0, 0, []⟩, endpoint, [], true⟩ ctHandshake finishedHs pass with
  | (w, some true) => { w with conn := { w.conn with clientSeq := 1, serverSeq := 1 } }
  | (w, _) => { w with live := false }

/-- What happens to a connection: a step of its endpoint between calls, a send, the close. -/
inductive Event where
  | net (a : Action)
  | send (data : Bytes) (passes : List Pass)
  | close (pass : Pass)

def step (w : Link) : Event → Link
  | .net a => { w with endpoint := (w.endpoint.step a).endpoint }
  | .send data passes =>
    if w.live = true ∧ w.endpoint.call = .idle then (w.send P data passes).1 else w
  | .close pass => if w.live = true ∧ w.endpoint.call = .idle then w.close P pass else w

end Link

/-! ## Distinct nonces -/

/-- The records of which at least one segment went out. -/
def transmitted (wire : List WireRecord) : List WireRecord :=
  wire.filter fun x => x.segs ≠ []

/-- No two records are encrypted under the same key and nonce. -/
def DistinctNonces (records : List WireRecord) : Prop :=
  records.Pairwise fun x y => ¬ (x.key = y.key ∧ x.nonce = y.nonce)

theorem transmitted_append (wire : List WireRecord) (x : WireRecord) :
    transmitted (wire ++ [x]) = if x.segs = [] then transmitted wire else transmitted wire ++ [x] := by
  unfold transmitted
  by_cases h : x.segs = [] <;> simp [h]

theorem gcmNonce_inj {iv : Bytes} {a b : UInt64} (h : gcmNonce iv a = gcmNonce iv b) : a = b := by
  have hbytes := List.append_cancel_left h
  exact UInt64.toNat_inj.mp
    (beBytes_inj (lt_of_lt_of_eq a.toNat_lt rfl) (lt_of_lt_of_eq b.toNat_lt rfl) hbytes)

/-- The record carries a fragment encrypted under the key and nonce noted with it. -/
def EncryptedUnder (P : Primitives) (x : WireRecord) : Prop :=
  ∃ contentType fragment seqNum,
    let sealed := P.aes128GcmEncrypt x.key x.nonce fragment
      (recordHeader seqNum contentType fragment.length)
    x.record = buildRecord contentType (beBytes 8 seqNum.toNat ++ sealed.1 ++ sealed.2.toList)

/-- The nonces of the records sent so far come from sequence numbers below the next one, and each
number has been used once. -/
structure Ordered (P : Primitives) (keys : SessionKeys) (w : Link) : Prop where
  keys_eq : w.conn.keys = keys
  encrypted : isGcmSuite keys.cipherSuite = true → ∀ x ∈ w.wire, EncryptedUnder P x
  seq_le : w.conn.clientSeq.toNat ≤ w.wire.length
  below : w.live = true → ∀ x ∈ transmitted w.wire,
    ∃ n < w.conn.clientSeq, x.nonce = gcmNonce w.conn.keys.clientGcmIv n
  distinct : DistinctNonces (transmitted w.wire)

variable {P : Primitives} {keys : SessionKeys} {w : Link} {x : WireRecord}

/-- `x` is a record under the next sequence number. -/
structure IsNext (P : Primitives) (w : Link) (x : WireRecord) : Prop where
  nonce : x.nonce = gcmNonce w.conn.keys.clientGcmIv w.conn.clientSeq
  encrypted : isGcmSuite w.conn.keys.cipherSuite = true → EncryptedUnder P x

theorem Ordered.distinct_append (hw : Ordered P keys w) (hlive : w.live = true) (hx : IsNext P w x) :
    DistinctNonces (transmitted (w.wire ++ [x])) := by
  rw [transmitted_append]
  split_ifs
  · exact hw.distinct
  · refine List.pairwise_append.mpr ⟨hw.distinct, List.pairwise_singleton _ _, ?_⟩
    rintro y hy z hz ⟨-, hnonce⟩
    obtain ⟨n, hn, hyn⟩ := hw.below hlive y hy
    rw [List.mem_singleton.mp hz, hx.nonce, hyn] at hnonce
    exact absurd (gcmNonce_inj hnonce) (UInt64.ne_of_lt hn)

theorem Ordered.encrypted_append (hw : Ordered P keys w) (hx : IsNext P w x)
    (hgcm : isGcmSuite keys.cipherSuite = true) : ∀ y ∈ w.wire ++ [x], EncryptedUnder P y := by
  intro y hy
  rcases List.mem_append.mp hy with hy | hy
  · exact hw.encrypted hgcm y hy
  · exact List.mem_singleton.mp hy ▸ hx.encrypted (hw.keys_eq ▸ hgcm)

theorem Ordered.advance (hw : Ordered P keys w) (hlive : w.live = true) (hx : IsNext P w x)
    (e : Endpoint) (live : Bool) (hlen : w.wire.length + 1 < 2 ^ 64) :
    Ordered P keys (Link.advance ⟨w.conn, e, w.wire ++ [x], live⟩) := by
  have hseq : (w.conn.clientSeq + 1).toNat = w.conn.clientSeq.toNat + 1 := by
    have := hw.seq_le
    rw [UInt64.toNat_add, UInt64.toNat_one]
    omega
  refine ⟨hw.keys_eq, hw.encrypted_append hx, ?_, fun _ y hy => ?_, hw.distinct_append hlive hx⟩
  · simp only [Link.advance, List.length_append, hseq]
    exact Nat.succ_le_succ hw.seq_le
  · have hy' : y ∈ transmitted w.wire ∨ y = x := by
      simp only [Link.advance, transmitted_append] at hy
      split_ifs at hy
      · exact Or.inl hy
      · simpa using hy
    rcases hy' with hy' | rfl
    · obtain ⟨n, hn, hyn⟩ := hw.below hlive y hy'
      refine ⟨n, ?_, hyn⟩
      simp only [Link.advance, UInt64.lt_iff_toNat_lt] at hn ⊢
      omega
    · refine ⟨w.conn.clientSeq, ?_, hx.nonce⟩
      simp only [Link.advance, UInt64.lt_iff_toNat_lt]
      omega

theorem sendRecord_cases (P : Primitives) (hidle : w.endpoint.call = .idle) (contentType : UInt8)
    (fragment : Bytes) (pass : Pass) :
    ∃ x e, IsNext P w x ∧
      ((w.sendRecord P contentType fragment pass =
            (⟨w.conn, e, w.wire ++ [x], w.live⟩, some true) ∧ e.call = .idle) ∨
        (w.sendRecord P contentType fragment pass =
            (⟨w.conn, e, w.wire ++ [x], w.live⟩, some false) ∧ x.segs = []) ∨
        w.sendRecord P contentType fragment pass = (⟨w.conn, e, w.wire ++ [x], false⟩, none)) := by
  let record := Link.protectRecord P w.conn contentType fragment pass.iv
  let res := tcpSend w.endpoint record pass.schedule
  refine ⟨⟨w.conn.keys.clientEncKey, gcmNonce w.conn.keys.clientGcmIv w.conn.clientSeq, record,
    res.segs⟩, res.endpoint, ⟨rfl, fun hgcm => ⟨contentType, fragment, w.conn.clientSeq, ?_⟩⟩, ?_⟩
  · simp only [record, Link.protectRecord, if_pos hgcm]
    rfl
  · unfold Link.sendRecord
    rcases tcpSend_cases hidle record pass.schedule with ⟨error, hr, hs, hc⟩ | hr | ⟨n, hr, hc⟩
    · exact Or.inr (Or.inl ⟨by simp only [record, res] at hr ⊢; rw [hr], hs⟩)
    · exact Or.inr (Or.inr (by simp only [record, res] at hr ⊢; rw [hr]))
    · exact Or.inl ⟨by simp only [record, res] at hr ⊢; rw [hr], hc⟩

/-- As long as the sequence numbers have not run out, they are used in order. -/
def Safe (P : Primitives) (keys : SessionKeys) (w : Link) : Prop := w.wire.length < 2 ^ 64 → Ordered P keys w

theorem safe_append (hw : Safe P keys w) (hlive : w.live = true) (hx : IsNext P w x) {e : Endpoint}
    {live : Bool} (hend : live = false ∨ x.segs = []) :
    Safe P keys ⟨w.conn, e, w.wire ++ [x], live⟩ := by
  intro hlen
  have ho := hw (by simp only [List.length_append] at hlen; omega)
  refine ⟨ho.keys_eq, ho.encrypted_append hx, ?_, fun hl y hy => ?_, ho.distinct_append hlive hx⟩
  · simp only [List.length_append]
    exact Nat.le_add_right_of_le ho.seq_le
  · rcases hend with hend | hend
    · rw [hend] at hl
      cases hl
    · simp only [transmitted_append, if_pos hend] at hy
      exact ho.below hlive y hy

theorem safe_advance (hw : Safe P keys w) (hlive : w.live = true) (hx : IsNext P w x) {e : Endpoint}
    {live : Bool} : Safe P keys (Link.advance ⟨w.conn, e, w.wire ++ [x], live⟩) := by
  intro hlen
  have hlen' : w.wire.length + 1 < 2 ^ 64 := by simpa [Link.advance] using hlen
  exact (hw (by omega)).advance hlive hx e live hlen'

theorem safe_congr (hw : Safe P keys w) {w' : Link} (hwire : w'.wire = w.wire)
    (hkeys : w'.conn.keys = w.conn.keys) (hseq : w'.conn.clientSeq = w.conn.clientSeq)
    (hlive : w'.live = true → w.live = true) : Safe P keys w' := by
  intro hlen
  have ho := hw (hwire ▸ hlen)
  refine ⟨hkeys.trans ho.keys_eq, ?_, ?_, fun hl => ?_, ?_⟩
  · rw [hwire]
    exact ho.encrypted
  · rw [hseq, hwire]
    exact ho.seq_le
  · rw [hseq, hkeys, hwire]
    exact ho.below (hlive hl)
  · rw [hwire]
    exact ho.distinct

theorem safe_sendLoop (hw : Safe P keys w) (hlive : w.live = true) (hidle : w.endpoint.call = .idle)
    (data : Bytes) (passes : List Pass) : Safe P keys (w.sendLoop P data passes).1 := by
  induction passes generalizing w data with
  | nil =>
    unfold Link.sendLoop
    split_ifs
    · exact hw
    · exact safe_congr hw rfl rfl rfl (by simp)
  | cons pass passes ih =>
    unfold Link.sendLoop
    split_ifs
    · exact hw
    · obtain ⟨x, e, hx, ⟨hs, hc⟩ | ⟨hs, hsegs⟩ | hs⟩ :=
        sendRecord_cases P hidle ctAppData (data.take maxFragment) pass
      · rw [hs]
        have hnext : Safe P keys (Link.advance ⟨w.conn, e, w.wire ++ [x], w.live⟩) :=
          safe_advance hw hlive hx
        exact ih hnext hlive hc _
      · rw [hs]
        exact safe_append hw hlive hx (Or.inr hsegs)
      · rw [hs]
        exact safe_append hw hlive hx (Or.inl rfl)

theorem fst_send (P : Primitives) (w : Link) (data : Bytes) (passes : List Pass) :
    (w.send P data passes).1 = (w.sendLoop P data passes).1 := by
  unfold Link.send
  split <;> simp_all

theorem safe_close (hw : Safe P keys w) (hlive : w.live = true) (hidle : w.endpoint.call = .idle)
    (pass : Pass) : Safe P keys (w.close P pass) := by
  obtain ⟨x, e, hx, h⟩ := sendRecord_cases P hidle ctAlert [1, 0] pass
  have hclosed : Safe P keys ⟨w.conn, e, w.wire ++ [x], false⟩ :=
    safe_append hw hlive hx (Or.inl rfl)
  unfold Link.close
  rcases h with ⟨h, -⟩ | ⟨h, -⟩ | h <;> rw [h] <;> exact safe_congr hclosed rfl rfl rfl (by simp)

theorem safe_step (hw : Safe P keys w) (a : Link.Event) : Safe P keys (w.step P a) := by
  cases a with
  | net a => exact safe_congr hw rfl rfl rfl id
  | send data passes =>
    simp only [Link.step]
    split_ifs with h
    · rw [fst_send]
      exact safe_sendLoop hw h.1 h.2 data passes
    · exact hw
  | close pass =>
    simp only [Link.step]
    split_ifs with h
    · exact safe_close hw h.1 h.2 pass
    · exact hw

theorem safe_finished (P : Primitives) (keys : SessionKeys) (finishedHs : Bytes)
    {endpoint : Endpoint} (hidle : endpoint.call = .idle) (pass : Pass) :
    Safe P keys (Link.finished P keys finishedHs endpoint pass) := by
  have hstart : Safe P keys ⟨⟨keys, 0, 0, []⟩, endpoint, [], true⟩ :=
    fun _ => ⟨rfl, by simp, Nat.zero_le _, fun _ x hx => by simp [transmitted] at hx, List.Pairwise.nil⟩
  obtain ⟨x, e, hx, ⟨hs, -⟩ | ⟨hs, -⟩ | hs⟩ :=
    sendRecord_cases P (w := ⟨⟨keys, 0, 0, []⟩, endpoint, [], true⟩) hidle ctHandshake finishedHs
      pass
  · simp only [Link.finished, hs]
    have hnext : Safe P keys (Link.advance ⟨⟨keys, 0, 0, []⟩, e, [] ++ [x], true⟩) :=
      safe_advance hstart rfl hx
    exact safe_congr hnext rfl rfl rfl id
  · simp only [Link.finished, hs]
    exact safe_append hstart rfl hx (Or.inl rfl)
  · simp only [Link.finished, hs]
    exact safe_append hstart rfl hx (Or.inl rfl)

/-- **No two records of which something was transmitted share key and nonce**, in every run of a
connection: the client's Finished, then any sends, some of which fail, and the close, under any
schedule of the transport, with fewer than `2 ^ 64` records. Key and nonce are those the record is
encrypted under. -/
theorem nonces_distinct (P : Primitives) (keys : SessionKeys)
    (hgcm : isGcmSuite keys.cipherSuite = true) (finishedHs : Bytes) (endpoint : Endpoint)
    (hidle : endpoint.call = .idle) (pass : Pass) (events : List Link.Event)
    (hlen : (Lib.run (Link.step P) (Link.finished P keys finishedHs endpoint pass)
      events).wire.length < 2 ^ 64) :
    let w := Lib.run (Link.step P) (Link.finished P keys finishedHs endpoint pass) events
    (∀ x ∈ w.wire, EncryptedUnder P x) ∧ DistinctNonces (transmitted w.wire) := by
  have hsafe : Lib.Always (Link.step P) (Safe P keys)
      (Link.finished P keys finishedHs endpoint pass) events :=
    Lib.always_of_eachStep (safe_finished P keys finishedHs hidle pass)
      (fun _ a hw (_ : True) => safe_step hw a) (Lib.eachStep_of_forall_mem fun _ _ => trivial)
  have hlast := hsafe.last hlen
  exact ⟨hlast.encrypted hgcm, hlast.distinct⟩

/-- An open connection, and a transport call that returns after one chunk. -/
def openEndpoint : Endpoint := ⟨{ TcpConn.new with state := .established }, 0, .idle⟩

def oneChunk : Pass := ⟨Vector.replicate 16 0, [.proceed, .proceed, .proceed]⟩

def gcmKeys : SessionKeys := ⟨[], [], [], [], [], [], ecdheRsaAes128Gcm⟩

/-- The peer closes its window, so that the second of three sends fails, and opens it again. -/
def retryRun : Link :=
  Lib.run (Link.step clearText) (Link.finished clearText gcmKeys [20, 0, 0, 0] openEndpoint oneChunk)
    [.send [1] [oneChunk], .net (.segment 0 0 tcpAck 0 []), .send [2] [oneChunk],
     .net (.segment 0 0 tcpAck 8192 []), .send [3] [oneChunk], .close oneChunk]

/-- Five records, of which four go out under distinct nonces. -/
theorem nonces_distinct_retryRun :
    retryRun.wire.length = 5 ∧ (transmitted retryRun.wire).length = 4 ∧
      DistinctNonces (transmitted retryRun.wire) :=
  ⟨by decide +kernel, by decide +kernel,
    (nonces_distinct clearText gcmKeys (by decide) [20, 0, 0, 0] openEndpoint rfl oneChunk
      [.send [1] [oneChunk], .net (.segment 0 0 tcpAck 0 []), .send [2] [oneChunk],
       .net (.segment 0 0 tcpAck 8192 []), .send [3] [oneChunk], .close oneChunk]
      (by decide +kernel)).2⟩

end Aeterna.Net.Tls
