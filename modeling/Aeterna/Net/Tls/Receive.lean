import Aeterna.Lib.Run
import Aeterna.Net.Tls.Handshake
import Aeterna.Net.Tls.Protection

/-!
# Receiving application data

`TlsConn::recv` of `net/tls/handshake.rs`. What the reader has and will get is a front of what the
server sends (`Reader.stream`), in pieces of any size, so the reader finds the server's records one
by one (`readRecord_of_wire`).

A record is decrypted under the client's count of the records so far. The count leaves out records of
other types, and what does not fit the caller's buffer is thrown away; where neither happens, what
`recv` returns is a front of the server's data (`Inbox.intact_run`).
-/

namespace Aeterna.Net.Tls

open Lib.Bytes

/-! ## The reader on a stream -/

namespace Reader

def incoming (polls : List Poll) : Bytes :=
  polls.flatMap fun
    | .received data => data
    | _ => []

/-- The bytes in the buffer and still to come. -/
def stream (r : Reader) : Bytes := r.buf ++ incoming r.polls

theorem buf_front (r : Reader) : r.buf <+: r.stream := List.prefix_append _ _

/-- Reading loses nothing, and stops with enough when it says so. -/
theorem tcpReadInto_spec (need : ℕ) (buf : Bytes) (ps : List Poll) :
    (tcpReadInto need buf ps).2.stream = buf ++ incoming ps ∧
      ((tcpReadInto need buf ps).1 = true → need ≤ (tcpReadInto need buf ps).2.buf.length) := by
  induction ps generalizing buf with
  | nil => exact ⟨rfl, of_decide_eq_true⟩
  | cons p ps ih =>
    unfold tcpReadInto
    split_ifs with hneed
    · exact ⟨rfl, fun _ => hneed⟩
    · cases p with
      | expired => exact ⟨rfl, fun h => absurd h Bool.false_ne_true⟩
      | received data =>
        dsimp only
        split_ifs with hdata
        · subst hdata
          exact ⟨rfl, False.elim⟩
        · obtain ⟨hstream, hlen⟩ := ih (buf ++ data)
          refine ⟨?_, hlen⟩
          rw [hstream, List.append_assoc]
          rfl
      | failed error =>
        cases error with
        | wouldBlock => exact ih buf
        | _ => exact ⟨rfl, fun h => absurd h Bool.false_ne_true⟩

end Reader

theorem recordLength_take {data : Bytes} {n : ℕ} (h : 5 ≤ n) :
    recordLength (data.take n) = recordLength data := by
  rw [recordLength, recordLength, List.drop_take, List.take_take, Nat.min_eq_left (by omega)]

theorem Parses.recordLength_eq {record : Bytes} {contentType : UInt8} (h : Parses record contentType)
    (rest : Bytes) : 5 + recordLength (record ++ rest) = record.length := by
  have hparse := h rest
  unfold parseRecord at hparse
  split_ifs at hparse
  exact (Prod.mk.inj (Prod.mk.inj (Option.some.inj hparse)).2).2

section

variable {record : Bytes} {contentType : UInt8} (h : Parses record contentType)
include h

theorem readRecord_of_parses {r : Reader} {rest : Bytes} (hr : r.stream <+: record ++ rest) :
    (∃ r', r.readRecord = (none, r') ∧ r'.stream = r.stream) ∨
      ∃ r', r.readRecord = (some (contentType, record.drop 5), r') ∧
        r.stream = record ++ r'.stream := by
  obtain ⟨hstream₁, hlen₁⟩ := Reader.tcpReadInto_spec 5 r.buf r.polls
  unfold Reader.readRecord
  cases h₁ : Reader.tcpReadInto 5 r.buf r.polls with
  | mk ok₁ r₁ =>
    rw [h₁] at hstream₁ hlen₁
    cases ok₁ with
    | false => exact Or.inl ⟨r₁, rfl, hstream₁⟩
    | true =>
      -- the header is there, so the length field is the record's
      have hsame₁ : r₁.stream = r.stream := hstream₁
      have hbuf₁ : r₁.buf <+: record ++ rest := (hsame₁ ▸ r₁.buf_front).trans hr
      have hlength : 5 + recordLength r₁.buf = record.length := by
        rw [List.prefix_iff_eq_take.mp hbuf₁, recordLength_take (hlen₁ rfl), h.recordLength_eq]
      obtain ⟨hstream₂, hlen₂⟩ :=
        Reader.tcpReadInto_spec (5 + recordLength r₁.buf) r₁.buf r₁.polls
      dsimp only
      cases h₂ : Reader.tcpReadInto (5 + recordLength r₁.buf) r₁.buf r₁.polls with
      | mk ok₂ r₂ =>
        rw [h₂, hlength] at hlen₂
        rw [h₂] at hstream₂
        have hsame₂ : r₂.stream = r.stream := hstream₂.trans hsame₁
        cases ok₂ with
        | false => exact Or.inl ⟨r₂, rfl, hsame₂⟩
        | true =>
          have hbuf₂ : r₂.buf <+: record ++ rest := (hsame₂ ▸ r₂.buf_front).trans hr
          obtain ⟨tail, htail⟩ : record <+: r₂.buf :=
            List.prefix_of_prefix_length_le (List.prefix_append _ _) hbuf₂ (hlen₂ rfl)
          have hparse := h tail
          rw [htail] at hparse
          dsimp only
          rw [hparse]
          refine Or.inr ⟨_, rfl, ?_⟩
          rw [← hsame₂, Reader.stream, Reader.stream, ← htail, List.drop_left, List.append_assoc]

theorem readRecord_buffered (rest : Bytes) :
    Reader.readRecord ⟨record ++ rest, []⟩ = (some (contentType, record.drop 5), ⟨rest, []⟩) := by
  have hlength := h.recordLength_eq rest
  have hfive : decide (5 ≤ (record ++ rest).length) = true := by
    rw [List.length_append]
    exact decide_eq_true (by omega)
  have hwhole : decide (record.length ≤ (record ++ rest).length) = true := by
    rw [List.length_append]
    exact decide_eq_true (by omega)
  simp only [Reader.readRecord, Reader.tcpReadInto, hfive, hlength, hwhole, h rest, List.drop_left]

end

theorem readRecord_of_nil {r : Reader} (hr : r.stream = []) :
    ∃ r', r.readRecord = (none, r') ∧ r'.stream = [] := by
  obtain ⟨hstream, hlen⟩ := Reader.tcpReadInto_spec 5 r.buf r.polls
  unfold Reader.readRecord
  cases h : Reader.tcpReadInto 5 r.buf r.polls with
  | mk ok r' =>
    rw [h] at hstream hlen
    have hempty : r'.stream = [] := hstream.trans hr
    cases ok with
    | false => exact ⟨r', rfl, hempty⟩
    | true =>
      have hfive : 5 ≤ r'.buf.length := hlen rfl
      rw [(List.append_eq_nil_iff.mp hempty).1] at hfive
      cases hfive

/-! ## The server's records -/

/-- A record that the server protects, with the initialisation vector or nonce it chooses. -/
structure ServerRecord where
  contentType : UInt8
  plain : Bytes
  iv : Vector UInt8 16
  explicitNonce : Vector UInt8 8
  plain_le : plain.length ≤ maxFragment

namespace ServerRecord

/-- The record on the wire, under its number in the server's count. -/
def bytes (P : Primitives) (keys : SessionKeys) (seqNum : UInt64) (rec : ServerRecord) : Bytes :=
  if isGcmSuite keys.cipherSuite then
    gcmRecordWith P rec.contentType rec.plain seqNum keys.serverEncKey keys.serverGcmIv
      rec.explicitNonce.toList
  else
    buildEncryptedRecord P rec.contentType rec.plain seqNum keys.serverMacKey keys.serverEncKey
      rec.iv.toList

theorem parses_bytes (x : KeyExchange) (keys : SessionKeys) (seqNum : UInt64)
    (rec : ServerRecord) : Parses (rec.bytes (.kernel x) keys seqNum) rec.contentType := by
  unfold bytes
  split_ifs
  · exact (gcmRecordWith_roundTrip x rec.contentType seqNum rec.plain_le keys.serverEncKey
      keys.serverGcmIv Vector.length_toList).1
  · exact (encryptedRecord_roundTrip x rec.contentType seqNum rec.plain_le keys.serverMacKey
      keys.serverEncKey rec.iv).1

end ServerRecord

/-- The server numbers all its records, of whatever type. -/
def wire (P : Primitives) (keys : SessionKeys) : UInt64 → List ServerRecord → Bytes
  | _, [] => []
  | seqNum, rec :: records => rec.bytes P keys seqNum ++ wire P keys (seqNum + 1) records

def appData (records : List ServerRecord) : Bytes :=
  (records.filter (·.contentType = ctAppData)).flatMap (·.plain)

theorem appData_cons_of_eq {rec : ServerRecord} (h : rec.contentType = ctAppData)
    (records : List ServerRecord) : appData (rec :: records) = rec.plain ++ appData records := by
  rw [appData, List.filter_cons_of_pos (by simpa using h), List.flatMap_cons, appData]

theorem appData_cons_of_ne {rec : ServerRecord} (h : rec.contentType ≠ ctAppData)
    (records : List ServerRecord) : appData (rec :: records) = appData records := by
  rw [appData, List.filter_cons_of_neg (by simpa using h), appData]

/-- The reader finds the records of the server one by one. -/
theorem readRecord_of_wire (x : KeyExchange) {keys : SessionKeys} {seqNum : UInt64}
    {pending : List ServerRecord} {r : Reader}
    (hr : r.stream <+: wire (.kernel x) keys seqNum pending) :
    (∃ r', r.readRecord = (none, r') ∧ r'.stream <+: wire (.kernel x) keys seqNum pending) ∨
      ∃ rec rest r', pending = rec :: rest ∧
        r.readRecord =
          (some (rec.contentType, (rec.bytes (.kernel x) keys seqNum).drop 5), r') ∧
        r'.stream <+: wire (.kernel x) keys (seqNum + 1) rest := by
  cases pending with
  | nil =>
    obtain ⟨r', hread, hempty⟩ := readRecord_of_nil (List.prefix_nil.mp hr)
    exact Or.inl ⟨r', hread, hempty ▸ List.nil_prefix⟩
  | cons rec rest =>
    obtain ⟨r', hread, hsame⟩ | ⟨r', hread, hsplit⟩ :=
      readRecord_of_parses (rec.parses_bytes x keys seqNum) hr
    · exact Or.inl ⟨r', hread, hsame ▸ hr⟩
    · refine Or.inr ⟨rec, rest, r', rfl, hread, ?_⟩
      rw [hsplit] at hr
      exact (List.prefix_append_right_inj _).mp hr

/-! ## The call -/

/-- One pass of the loop of `recv`: whether the time is up at its head, and after a failed read. -/
structure Tick where
  late : Bool
  lateAfterRead : Bool

/-- The connection after a call, the passes of the transport that are left, the records read off
the stream, and what the call returns. -/
structure Received where
  conn : TlsConn
  polls : List Poll
  read : ℕ
  reply : Except String Bytes

namespace TlsConn

variable (P : Primitives)

/-- Decrypt a record of application data under the client's count. -/
def openRecord (conn : TlsConn) (payload : Bytes) : Option Bytes :=
  if isGcmSuite conn.keys.cipherSuite then
    decryptGcmRecord P ctAppData payload conn.serverSeq conn.keys.serverEncKey
      conn.keys.serverGcmIv
  else
    decryptRecord P ctAppData payload conn.serverSeq conn.keys.serverMacKey conn.keys.serverEncKey

/-- `TlsConn::recv` with a buffer of `size` bytes: the bytes copied to it, or the error. The time is
up when the ticks run out. -/
def recv (conn : TlsConn) (polls : List Poll) (size read : ℕ) : List Tick → Received
  | [] => ⟨conn, polls, read, .ok []⟩
  | tick :: ticks =>
    if tick.late then ⟨conn, polls, read, .ok []⟩
    else match Reader.readRecord ⟨conn.recvBuf, polls⟩ with
    | (none, r) =>
      let conn := { conn with recvBuf := r.buf }
      if tick.lateAfterRead then ⟨conn, r.polls, read, .ok []⟩
      else conn.recv r.polls size read ticks
    | (some (ct, payload), r) =>
      let conn := { conn with recvBuf := r.buf }
      if ct = ctAppData then
        match conn.openRecord P payload with
        | none => ⟨conn, r.polls, read + 1, .error "TLS: decrypt failed"⟩
        | some decrypted =>
          ⟨{ conn with serverSeq := conn.serverSeq + 1 }, r.polls, read + 1,
            .ok (decrypted.take (min decrypted.length size))⟩
      else if ct = ctAlert then ⟨conn, r.polls, read + 1, .ok []⟩
      else conn.recv r.polls size (read + 1) ticks

end TlsConn

/-- The bytes that a call hands to its caller. -/
def Received.data (res : Received) : Bytes :=
  match res.reply with
  | .ok data => data
  | .error _ => []

theorem openRecord_bytes (x : KeyExchange) (conn : TlsConn) {rec : ServerRecord}
    (h : rec.contentType = ctAppData) :
    conn.openRecord (.kernel x) ((rec.bytes (.kernel x) conn.keys conn.serverSeq).drop 5) =
      some rec.plain := by
  unfold TlsConn.openRecord ServerRecord.bytes
  rw [h]
  split_ifs
  · exact (gcmRecordWith_roundTrip x ctAppData conn.serverSeq rec.plain_le conn.keys.serverEncKey
      conn.keys.serverGcmIv Vector.length_toList).2
  · exact (encryptedRecord_roundTrip x ctAppData conn.serverSeq rec.plain_le conn.keys.serverMacKey
      conn.keys.serverEncKey rec.iv).2

/-! ## Calls in a row -/

/-- A connection with the records the server has sent or will send and the client has not read. -/
structure Inbox where
  conn : TlsConn
  polls : List Poll
  pending : List ServerRecord
  returned : Bytes

structure RecvCall where
  size : ℕ
  ticks : List Tick

namespace Inbox

def step (P : Primitives) (s : Inbox) (call : RecvCall) : Inbox :=
  let res := s.conn.recv P s.polls call.size 0 call.ticks
  ⟨res.conn, res.polls, s.pending.drop res.read, s.returned ++ res.data⟩

/-- What was returned is a front of the application data, and the rest of it is still to come. -/
def Intact (records : List ServerRecord) (s : Inbox) : Prop :=
  s.returned <+: appData records ∧ s.returned ++ appData s.pending = appData records

end Inbox

/-- The next record is application data that fits the buffer, or no application data comes. -/
def Fits (pending : List ServerRecord) (size : ℕ) : Prop :=
  (∀ rec ∈ pending, rec.contentType ≠ ctAppData) ∨
    ∃ rec ∈ pending.head?, rec.contentType = ctAppData ∧ rec.plain.length ≤ size

/-- The transport brings the pending records, and the two counts agree while they matter. -/
def Tracks (x : KeyExchange) (conn : TlsConn) (polls : List Poll)
    (pending : List ServerRecord) : Prop :=
  ∃ seqNum, Reader.stream ⟨conn.recvBuf, polls⟩ <+: wire (.kernel x) conn.keys seqNum pending ∧
    (seqNum = conn.serverSeq ∨ ∀ rec ∈ pending, rec.contentType ≠ ctAppData)

theorem Fits.of_cons {rec : ServerRecord} {rest : List ServerRecord} {size : ℕ}
    (h : Fits (rec :: rest) size) :
    (rec.contentType = ctAppData ∧ rec.plain.length ≤ size) ∨
      rec.contentType ≠ ctAppData ∧ ∀ r ∈ rest, r.contentType ≠ ctAppData := by
  obtain hnone | ⟨r, hr, happ, hfits⟩ := h
  · exact Or.inr (List.forall_mem_cons.mp hnone)
  · cases hr
    exact Or.inl ⟨happ, hfits⟩

/-- Some of the pending records were read, and the application data in them was returned. -/
def Delivers (x : KeyExchange) (pending : List ServerRecord) (read : ℕ) (res : Received) : Prop :=
  ∃ n, res.read = read + n ∧ Tracks x res.conn res.polls (pending.drop n) ∧
    appData pending = res.data ++ appData (pending.drop n)

theorem delivers_recv (x : KeyExchange) (size : ℕ) (ticks : List Tick) (read : ℕ) (conn : TlsConn)
    (polls : List Poll) (pending : List ServerRecord) (htracks : Tracks x conn polls pending)
    (hfits : Fits pending size) :
    Delivers x pending read (conn.recv (.kernel x) polls size read ticks) := by
  -- on the passes of the loop; a pass either ends the call or leaves it as it was, further on
  induction ticks generalizing read conn polls pending with
  | nil => exact ⟨0, rfl, htracks, rfl⟩
  | cons tick ticks ih =>
    unfold TlsConn.recv
    by_cases hlate : tick.late = true
    · rw [if_pos hlate]
      exact ⟨0, rfl, htracks, rfl⟩
    obtain ⟨seqNum, hstream, hseq⟩ := htracks
    rw [if_neg hlate]
    obtain ⟨r, hread, hstream'⟩ | ⟨rec, rest, r, rfl, hread, hstream'⟩ :=
      readRecord_of_wire x hstream
    · rw [hread]
      split_ifs
      · exact ⟨0, rfl, ⟨seqNum, hstream', hseq⟩, rfl⟩
      · exact ih read { conn with recvBuf := r.buf } r.polls pending ⟨seqNum, hstream', hseq⟩ hfits
    · rw [hread]
      dsimp only
      obtain ⟨happ, hsize⟩ | ⟨hother, hrest⟩ := hfits.of_cons
      · have hcount : seqNum = conn.serverSeq := by
          refine hseq.resolve_right fun hnone => ?_
          exact hnone rec List.mem_cons_self happ
        subst hcount
        rw [if_pos happ, openRecord_bytes x { conn with recvBuf := r.buf } happ]
        refine ⟨1, rfl, ⟨conn.serverSeq + 1, hstream', Or.inl rfl⟩, ?_⟩
        rw [appData_cons_of_eq happ, List.drop_one, List.tail_cons]
        show rec.plain ++ _ = rec.plain.take (min rec.plain.length size) ++ _
        rw [Nat.min_eq_left hsize, List.take_length]
      · have htracks' : Tracks x { conn with recvBuf := r.buf } r.polls rest :=
          ⟨seqNum + 1, hstream', Or.inr hrest⟩
        rw [if_neg hother]
        split_ifs with halert
        · exact ⟨1, rfl, htracks', appData_cons_of_ne hother rest⟩
        · obtain ⟨n, hn, hconn, hdata⟩ :=
            ih (read + 1) { conn with recvBuf := r.buf } r.polls rest htracks' (Or.inl hrest)
          refine ⟨n + 1, hn.trans (by omega), hconn, ?_⟩
          rw [appData_cons_of_ne hother]
          exact hdata

namespace Inbox

structure Inv (x : KeyExchange) (records : List ServerRecord) (s : Inbox) : Prop where
  tracks : Tracks x s.conn s.polls s.pending
  data : s.returned ++ appData s.pending = appData records

theorem Inv.intact {x : KeyExchange} {records : List ServerRecord} {s : Inbox}
    (h : Inv x records s) : s.Intact records := by
  refine ⟨?_, h.data⟩
  rw [← h.data]
  exact List.prefix_append _ _

theorem Inv.step {x : KeyExchange} {records : List ServerRecord} {s : Inbox} (h : Inv x records s)
    {call : RecvCall} (hfits : Fits s.pending call.size) :
    Inv x records (s.step (.kernel x) call) := by
  obtain ⟨n, hn, htracks, hdata⟩ :=
    delivers_recv x call.size call.ticks 0 s.conn s.polls s.pending h.tracks hfits
  rw [Nat.zero_add] at hn
  subst hn
  refine ⟨htracks, ?_⟩
  rw [← h.data, hdata, ← List.append_assoc]
  rfl

/-- **Stream integrity.** Where every call's buffer takes the next record of application data, and
no record of another type comes before it, the bytes returned are a front of the server's data. -/
theorem intact_run (x : KeyExchange) (records : List ServerRecord) (conn : TlsConn)
    (polls : List Poll) (hwire : Reader.stream ⟨conn.recvBuf, polls⟩ <+:
      wire (.kernel x) conn.keys conn.serverSeq records) (calls : List RecvCall)
    (hfits : Lib.EachStep (step (.kernel x)) (fun s call => Fits s.pending call.size)
      ⟨conn, polls, records, []⟩ calls) :
    Lib.Always (step (.kernel x)) (Intact records) ⟨conn, polls, records, []⟩ calls := by
  have hstart : Inv x records ⟨conn, polls, records, []⟩ :=
    ⟨⟨conn.serverSeq, hwire, Or.inl rfl⟩, rfl⟩
  have hinv := Lib.always_of_eachStep hstart (fun _ _ hs hcall => Inv.step hs hcall) hfits
  exact hinv.imp fun _ hs => hs.intact

end Inbox

/-! ## Small buffers -/

theorem recv_buffered (x : KeyExchange) (conn : TlsConn) {rec : ServerRecord}
    (happ : rec.contentType = ctAppData) (rest : Bytes)
    (hbuf : conn.recvBuf = rec.bytes (.kernel x) conn.keys conn.serverSeq ++ rest) (size : ℕ) :
    conn.recv (.kernel x) [] size 0 [⟨false, false⟩] =
      ⟨{ conn with recvBuf := rest, serverSeq := conn.serverSeq + 1 }, [], 1,
        .ok (rec.plain.take (min rec.plain.length size))⟩ := by
  unfold TlsConn.recv
  rw [hbuf, readRecord_buffered (rec.parses_bytes x conn.keys conn.serverSeq) rest,
    if_neg Bool.false_ne_true]
  dsimp only
  rw [if_pos happ, openRecord_bytes x { conn with recvBuf := rest } happ]

/-- A record of application data under zero nonces. -/
def appRecord (plain : Bytes) (h : plain.length ≤ maxFragment) : ServerRecord :=
  ⟨ctAppData, plain, .replicate 16 0, .replicate 8 0, h⟩

/-- A server that has sent two bytes and then one. -/
def threeBytes : List ServerRecord :=
  [appRecord [1, 2] (by decide), appRecord [3] (by decide)]

def zeroKeys : SessionKeys := ⟨[], [], [], [], [], [], ecdheRsaAes128Gcm⟩

/-- A connection that has the bytes of the pending records in its buffer. -/
def buffered (seqNum : UInt64) (pending : List ServerRecord) (returned : Bytes) : Inbox :=
  ⟨⟨zeroKeys, 1, seqNum, wire (.kernel .trivial) zeroKeys seqNum pending⟩, [], pending, returned⟩

def recvCall (size : ℕ) : RecvCall := ⟨size, [⟨false, false⟩]⟩

theorem step_buffered (seqNum : UInt64) {r : ServerRecord} (happ : r.contentType = ctAppData)
    (pending : List ServerRecord) (returned : Bytes) (size : ℕ) :
    (buffered seqNum (r :: pending) returned).step (.kernel .trivial) (recvCall size) =
      buffered (seqNum + 1) pending (returned ++ r.plain.take (min r.plain.length size)) := by
  unfold Inbox.step
  rw [buffered, recvCall,
    recv_buffered .trivial _ happ (wire (.kernel .trivial) zeroKeys (seqNum + 1) pending) rfl]
  rfl

theorem run_threeBytes (m n : ℕ) :
    Lib.run (Inbox.step (.kernel .trivial)) (buffered 1 threeBytes []) [recvCall m, recvCall n] =
      buffered 3 [] ([1, 2].take (min 2 m) ++ [3].take (min 1 n)) := by
  rw [Lib.run_cons, Lib.run_cons, threeBytes, step_buffered 1 rfl, step_buffered _ rfl]
  rfl

/-- Buffers of two bytes take all three. -/
theorem intact_twoCalls :
    (Lib.run (Inbox.step (.kernel .trivial)) (buffered 1 threeBytes [])
        [recvCall 2, recvCall 2]).returned = [1, 2, 3] ∧
      Lib.Always (Inbox.step (.kernel .trivial)) (Inbox.Intact threeBytes)
        (buffered 1 threeBytes []) [recvCall 2, recvCall 2] := by
  constructor
  · rw [run_threeBytes]
    rfl
  · refine Inbox.intact_run .trivial threeBytes _ [] ?_ _ ⟨?_, ?_, trivial⟩
    · refine ⟨[], ?_⟩
      rw [Reader.stream, Reader.incoming, List.flatMap_nil, List.append_nil, List.append_nil]
    · exact Or.inr ⟨appRecord [1, 2] (by decide), rfl, rfl, by decide⟩
    · have hfirst := step_buffered 1 (r := appRecord [1, 2] (by decide)) rfl
        [appRecord [3] (by decide)] [] 2
      exact hfirst ▸ Or.inr ⟨appRecord [3] (by decide), rfl, rfl, by decide⟩

/-- A buffer of one byte loses the second byte of the first record. -/
theorem not_intact_smallBuffer :
    ¬ Lib.Always (Inbox.step (.kernel .trivial)) (Inbox.Intact threeBytes)
      (buffered 1 threeBytes []) [recvCall 1, recvCall 1] := by
  intro h
  have hlast := h.last.1
  rw [run_threeBytes] at hlast
  have hreturned : [1, 3] <+: ([1, 2, 3] : Bytes) := hlast
  exact absurd hreturned (by decide)

end Aeterna.Net.Tls
