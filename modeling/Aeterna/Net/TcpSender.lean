import Mathlib.Data.List.Infix
import Mathlib.Data.UInt
import Aeterna.Lib.Run
import Aeterna.Net.Tcp

/-!
# What the sender puts on the wire

The bytes of the accepted `tcp_send` calls of a connection form its stream. `Carries` says that a
data segment carries the bytes of the stream at the offset its sequence number stands for.

The chunks of `tcp_send` always do. A retransmission of `tcp_recv` sends the last chunk again under
`snd_una`, so it does when the last chunk is all that is outstanding, that is when `snd_una` plus
its length is `snd_nxt` (`senderIntegrity_run`). With an older chunk outstanding it sends the last
chunk's bytes under the older chunk's number (`not_senderIntegrity_twoChunks`).
-/

namespace Aeterna.Net

/-! ## The stream of a connection -/

/-- An endpoint with the bytes passed to `tcp_send` since its connection was opened. -/
structure Session where
  endpoint : Endpoint
  stream : Bytes

namespace Session

open Endpoint

def new : Session := ⟨.new, []⟩

/-- The stream after a step: an accepted `tcp_send` appends to it, an opening clears it. -/
def streamAfter (s : Session) : Action → Bytes
  | .request (.send data) =>
    if s.endpoint.call = .idle ∧ (s.endpoint.beginSend data).reply = none then s.stream ++ data
    else s.stream
  | .request (.connect ..) | .request (.accept ..) =>
    if s.endpoint.call = .idle ∧ s.endpoint.conn.state = .closed then [] else s.stream
  | _ => s.stream

def step (s : Session) (a : Action) : Session := ⟨(s.endpoint.step a).endpoint, s.streamAfter a⟩

/-- The segment's payload stands in the stream at offset `seq - (iss + 1)`, modulo `2 ^ 32`. -/
def Carries (stream : Bytes) (iss : UInt32) (seg : Segment) : Prop :=
  ∃ o ≤ stream.length, UInt32.ofNat o = seg.seq - (iss + 1) ∧ seg.payload <+: stream.drop o

instance (stream : Bytes) (iss : UInt32) (seg : Segment) : Decidable (Carries stream iss seg) :=
  inferInstanceAs (Decidable (∃ o ≤ stream.length, _))

/-- Every data segment this step sends carries the bytes of the stream. -/
def SenderIntegrity (s : Session) (a : Action) : Prop :=
  ∀ seg ∈ (s.endpoint.step a).segs, seg.payload ≠ [] →
    Carries (s.step a).stream (s.step a).endpoint.conn.sndIss seg

instance (s : Session) (a : Action) : Decidable (s.SenderIntegrity a) :=
  inferInstanceAs (Decidable (∀ seg ∈ _, _))

end Session

/-! ## What arriving segments leave alone -/

/-- `c'` sends from where `c` does, with the same bytes kept or none. -/
structure TcpConn.KeepsSender (c c' : TcpConn) : Prop where
  sndNxt : c'.sndNxt = c.sndNxt
  sndIss : c'.sndIss = c.sndIss
  data : c'.retransmitData = c.retransmitData
  len : c'.retransmitLen = c.retransmitLen ∨ c'.retransmitLen = 0

namespace TcpConn

theorem KeepsSender.trans {c₁ c₂ c₃ : TcpConn} (h : c₁.KeepsSender c₂) (h' : c₂.KeepsSender c₃) :
    c₁.KeepsSender c₃ where
  sndNxt := h'.sndNxt.trans h.sndNxt
  sndIss := h'.sndIss.trans h.sndIss
  data := h'.data.trans h.data
  len := by
    rcases h'.len with h₂ | h₂
    · exact h₂ ▸ h.len
    · exact Or.inr h₂

def NoData (segs : List Segment) : Prop := ∀ seg ∈ segs, seg.payload = []

theorem noData_nil : NoData [] := by simp [NoData]

theorem noData_append {segs segs' : List Segment} (h : NoData segs) (h' : NoData segs') :
    NoData (segs ++ segs') := by
  intro seg hseg
  rcases List.mem_append.mp hseg with hm | hm
  · exact h seg hm
  · exact h' seg hm

theorem eq_of_mem_sendTcpSegment {seg seg' : Segment} (h : seg' ∈ sendTcpSegment seg) :
    seg' = seg := by
  unfold sendTcpSegment at h
  split_ifs at h
  · simp at h
  · exact List.mem_singleton.mp h

theorem noData_sendTcpSegment {seg : Segment} (h : seg.payload = []) :
    NoData (sendTcpSegment seg) := by
  intro seg' hseg'
  rw [eq_of_mem_sendTcpSegment hseg', h]

theorem noData_ackSegment (c : TcpConn) (window : UInt16) : NoData (c.ackSegment window) :=
  noData_sendTcpSegment rfl

theorem noData_synSegment (c : TcpConn) : NoData c.synSegment := noData_sendTcpSegment rfl

theorem noData_synAckSegment (c : TcpConn) : NoData c.synAckSegment := noData_sendTcpSegment rfl

theorem noData_finSegment (c : TcpConn) : NoData c.finSegment := noData_sendTcpSegment rfl

/-- What `out` sends is not data, and its connection sends from where `c` does. -/
def Answers (c : TcpConn) (out : TcpConn × List Segment) : Prop :=
  c.KeepsSender out.1 ∧ NoData out.2

theorem answers_same {c c' : TcpConn} {segs : List Segment} (hsegs : NoData segs)
    (hnxt : c'.sndNxt = c.sndNxt) (hiss : c'.sndIss = c.sndIss)
    (hdata : c'.retransmitData = c.retransmitData) (hlen : c'.retransmitLen = c.retransmitLen) :
    c.Answers (c', segs) :=
  ⟨⟨hnxt, hiss, hdata, Or.inl hlen⟩, hsegs⟩

theorem answers_takeFin (c : TcpConn) (state : TcpState) : c.Answers (c.takeFin state) :=
  answers_same (noData_ackSegment _ _) rfl rfl rfl rfl

theorem keepsSender_takeAck (c : TcpConn) (ack : UInt32) (isAck : Bool) (window : UInt16) :
    c.KeepsSender (c.takeAck ack isAck window) := by
  unfold takeAck
  split_ifs
  · exact ⟨rfl, rfl, rfl, Or.inr rfl⟩
  · exact ⟨rfl, rfl, rfl, Or.inl rfl⟩
  · exact ⟨rfl, rfl, rfl, Or.inl rfl⟩

theorem answers_takeData (c : TcpConn) (seq : UInt32) (payload : Bytes) :
    c.Answers (c.takeData seq payload) := by
  unfold takeData
  split_ifs
  · exact answers_same (noData_ackSegment _ _) rfl rfl rfl rfl
  · exact answers_same noData_nil rfl rfl rfl rfl

theorem answers_handleEstablished (c : TcpConn) (seq ack : UInt32) (isAck isFin : Bool)
    (window : UInt16) (payload : Bytes) :
    c.Answers (c.handleEstablished seq ack isAck isFin window payload) := by
  have hack := c.keepsSender_takeAck ack isAck window
  obtain ⟨hdata, hsegs⟩ := (c.takeAck ack isAck window).answers_takeData seq payload
  unfold handleEstablished
  split_ifs
  · obtain ⟨hfin, hfinSegs⟩ :=
      ((c.takeAck ack isAck window).takeData seq payload).1.answers_takeFin .closeWait
    exact ⟨(hack.trans hdata).trans hfin, noData_append hsegs hfinSegs⟩
  · exact ⟨hack.trans hdata, hsegs⟩

/-- An arriving segment never moves the send position nor changes the bytes kept, and is answered
without data. -/
theorem answers_handleConnSegment (c : TcpConn) (seq ack : UInt32) (flags : UInt8)
    (window : UInt16) (payload : Bytes) :
    c.Answers (c.handleConnSegment seq ack flags window payload) := by
  have same : c.Answers (c, []) := answers_same noData_nil rfl rfl rfl rfl
  have enters : ∀ state, c.Answers ({ c with state := state }, []) :=
    fun _ => answers_same noData_nil rfl rfl rfl rfl
  unfold handleConnSegment
  by_cases hrst : (flags &&& tcpRst != 0) = true
  · rw [if_pos hrst]
    exact enters .closed
  rw [if_neg hrst]
  cases c.state with
  | synSent =>
    dsimp only
    split_ifs
    · exact answers_same (noData_ackSegment _ _) rfl rfl rfl rfl
    · exact answers_same (noData_sendTcpSegment rfl) rfl rfl rfl rfl
    · exact same
  | synReceived =>
    dsimp only
    split_ifs
    · exact answers_same noData_nil rfl rfl rfl rfl
    · exact same
  | established => exact c.answers_handleEstablished seq ack _ _ window payload
  | finWait1 =>
    dsimp only
    split_ifs
    · exact answers_same (noData_ackSegment _ _) rfl rfl rfl rfl
    · exact answers_same noData_nil rfl rfl rfl rfl
    · exact c.answers_takeFin .timeWait
    · exact same
  | finWait2 =>
    dsimp only
    split_ifs
    · exact c.answers_takeFin .timeWait
    · exact same
  | lastAck =>
    dsimp only
    split_ifs
    · exact enters .closed
    · exact same
  | timeWait => exact enters .closed
  | closeWait =>
    dsimp only
    split_ifs
    · exact answers_same noData_nil rfl rfl rfl rfl
    · exact same
  | closed => exact same
  | listen => exact same

end TcpConn

/-! ## The invariant -/

/-- The bytes of the call in progress that are not counted as sent. -/
def Call.pending : Call → Bytes
  | .sending _ _ rest => rest
  | .storing _ _ chunk rest => chunk ++ rest
  | _ => []

def Call.Fits : Call → Prop
  | .sending mss _ _ => mss ≤ 1440
  | .storing mss _ chunk _ => mss ≤ 1440 ∧ chunk.length ≤ 1440
  | _ => True

/-- Nothing more is sent on this connection. -/
def Endpoint.Spent (e : Endpoint) : Prop :=
  match e.call with
  | .finSent _ | .closing _ _ => True
  | .sending .. | .storing .. => False
  | _ => e.conn.state = .closed

/-- Neither in `tcp_send` nor past the FIN of `tcp_close`. -/
def Call.Quiet : Call → Prop
  | .sending .. | .storing .. | .finSent _ | .closing .. => False
  | _ => True

theorem Call.Quiet.pending {call : Call} (h : call.Quiet) : call.pending = [] := by
  cases call <;> first | rfl | exact h.elim

theorem Call.Quiet.fits {call : Call} (h : call.Quiet) : call.Fits := by
  cases call <;> trivial

theorem Endpoint.spent_iff_of_quiet {e : Endpoint} (h : e.call.Quiet) :
    e.Spent ↔ e.conn.state = .closed := by
  unfold Endpoint.Spent
  cases hc : e.call <;> rw [hc] at h <;> exact h.elim

namespace Session

open Endpoint TcpConn

/-- `done` is what the connection has sent: it precedes what is pending, `snd_nxt` stands at its
end, and the bytes kept for a retransmission are its last ones. -/
structure Accounted (e : Endpoint) (stream done : Bytes) : Prop where
  stream : stream = done ++ e.call.pending
  sndNxt : e.conn.sndNxt = e.conn.sndIss + 1 + UInt32.ofNat done.length
  len : e.conn.retransmitLen ≤ e.conn.retransmitData.length
  kept : e.conn.retransmitPayload <:+ done

structure SenderInv (e : Endpoint) (stream : Bytes) : Prop where
  fits : e.call.Fits
  sent : e.Spent ∨ ∃ done, Accounted e stream done

theorem Accounted.congr {e e' : Endpoint} {stream done : Bytes} (h : Accounted e stream done)
    (hconn : e.conn.KeepsSender e'.conn) (hcall : e'.call.pending = e.call.pending) :
    Accounted e' stream done where
  stream := by rw [hcall, h.stream]
  sndNxt := by rw [hconn.sndNxt, hconn.sndIss, h.sndNxt]
  len := by
    rw [hconn.data]
    rcases hconn.len with hl | hl <;> rw [hl]
    · exact h.len
    · exact Nat.zero_le _
  kept := by
    unfold TcpConn.retransmitPayload
    rw [hconn.data]
    rcases hconn.len with hl | hl <;> rw [hl]
    · exact h.kept
    · simp

/-! ## Steps that leave the sending alone -/

variable {e e' : Endpoint} {stream done : Bytes}

theorem SenderInv.of_accounted (done : Bytes) (hfits : e.call.Fits) (h : Accounted e stream done) :
    SenderInv e stream :=
  ⟨hfits, Or.inr ⟨done, h⟩⟩

theorem SenderInv.of_closed (hq : e.call.Quiet) (h : e.conn.state = .closed) :
    SenderInv e stream :=
  ⟨hq.fits, Or.inl ((spent_iff_of_quiet hq).mpr h)⟩

theorem SenderInv.move (h : SenderInv e stream) (hq : e.call.Quiet) (hq' : e'.call.Quiet)
    (hconn : e.conn.KeepsSender e'.conn) (hstate : e'.conn.state = e.conn.state) :
    SenderInv e' stream := by
  rcases h.sent with hs | ⟨done, hd⟩
  · exact .of_closed hq' (hstate.trans ((spent_iff_of_quiet hq).mp hs))
  · exact .of_accounted done hq'.fits (hd.congr hconn (by rw [hq.pending, hq'.pending]))

theorem SenderInv.moveTo {call : Call} (h : SenderInv e stream) (hq : e.call.Quiet)
    (hq' : call.Quiet) : SenderInv { e with call := call } stream :=
  h.move hq hq' ⟨rfl, rfl, rfl, Or.inl rfl⟩ rfl

theorem SenderInv.interrupt (h : SenderInv e stream) (hcall : e'.call = e.call)
    (hconn : e.conn.KeepsSender e'.conn)
    (hstate : e.conn.state = .closed → e'.conn.state = .closed) : SenderInv e' stream := by
  refine ⟨hcall ▸ h.fits, ?_⟩
  rcases h.sent with hs | ⟨done, hd⟩
  · left
    unfold Endpoint.Spent at hs ⊢
    rw [hcall]
    cases hc : e.call <;> simp only [hc] at hs ⊢ <;> exact hstate hs
  · exact Or.inr ⟨done, hd.congr hconn (by rw [hcall])⟩

theorem SenderInv.reset (reply : Reply) : SenderInv (e.resetAnd reply).endpoint stream :=
  .of_closed trivial rfl

/-! ## Steps of the calls -/

theorem SenderInv.connectPass {deadline retransmitDeadline : UInt64} (h : SenderInv e stream)
    (hq : e.call.Quiet) :
    SenderInv (e.connectPass deadline retransmitDeadline).endpoint stream := by
  unfold Endpoint.connectPass
  split
  · exact h.moveTo hq trivial
  · exact h.moveTo hq trivial
  · split_ifs
    · exact .reset _
    · exact h.moveTo hq trivial
    · exact h.moveTo hq trivial

theorem SenderInv.acceptPass {hsDeadline : UInt64} (h : SenderInv e stream) (hq : e.call.Quiet) :
    SenderInv (e.acceptPass hsDeadline).endpoint stream := by
  unfold Endpoint.acceptPass
  split
  · exact h.moveTo hq trivial
  · exact h.moveTo hq trivial
  · split_ifs
    · exact .reset _
    · exact h.moveTo hq trivial

theorem SenderInv.recvDeadline {size : ℕ} {deadline : UInt64} (h : SenderInv e stream)
    (hq : e.call.Quiet) : SenderInv (e.recvDeadline size deadline).endpoint stream := by
  unfold Endpoint.recvDeadline
  split_ifs
  · exact h.moveTo hq trivial
  · exact h.moveTo hq trivial

theorem SenderInv.recvRetransmit {size : ℕ} {deadline : UInt64} (h : SenderInv e stream)
    (hq : e.call.Quiet) : SenderInv (e.recvRetransmit size deadline).endpoint stream := by
  unfold Endpoint.recvRetransmit
  split_ifs
  · exact h.moveTo hq trivial
  · exact h.recvDeadline hq

theorem SenderInv.setRing (h : SenderInv e stream) (ring : RxRing) :
    SenderInv { e with conn := { e.conn with rxRing := ring } } stream :=
  h.interrupt rfl ⟨rfl, rfl, rfl, Or.inl rfl⟩ id

theorem SenderInv.recvPass {size : ℕ} {deadline : UInt64} (h : SenderInv e stream)
    (hq : e.call.Quiet) : SenderInv (e.recvPass size deadline).endpoint stream := by
  have hr := h.setRing (e.conn.rxRing.read size).1
  unfold Endpoint.recvPass
  dsimp only
  split_ifs
  · exact hr.moveTo hq trivial
  · split
    · exact hr.recvRetransmit hq
    · exact hr.recvRetransmit hq
    all_goals exact hr.moveTo hq trivial

theorem SenderInv.recvNb {size : ℕ} (h : SenderInv e stream) (hq : e.call.Quiet) :
    SenderInv (e.recvNb size).endpoint stream := by
  have hr := h.setRing (e.conn.rxRing.read size).1
  unfold Endpoint.recvNb
  dsimp only
  split_ifs
  · exact hr.moveTo hq trivial
  · split <;> exact hr.moveTo hq trivial

theorem senderInv_beginClose (e : Endpoint) (stream : Bytes) :
    SenderInv e.beginClose.endpoint stream := by
  unfold Endpoint.beginClose
  split
  · exact ⟨trivial, Or.inl trivial⟩
  · exact ⟨trivial, Or.inl trivial⟩
  · exact .reset _

theorem SenderInv.sendChunk {mss sent : ℕ} {rest : Bytes} (h : SenderInv e stream)
    (hcall : e.call = .sending mss sent rest) :
    SenderInv (e.sendChunk mss sent rest).endpoint stream := by
  have hmss : mss ≤ 1440 := by
    have hf := h.fits
    rwa [hcall] at hf
  obtain ⟨done, hd⟩ := h.sent.resolve_left (by simp [Endpoint.Spent, hcall])
  have same : e.conn.KeepsSender e.conn := ⟨rfl, rfl, rfl, Or.inl rfl⟩
  unfold Endpoint.sendChunk
  split_ifs with hrest
  · exact .of_accounted done trivial (hd.congr same (by rw [hcall, hrest]; rfl))
  · have hlen : (rest.take mss).length ≤ 1440 := (List.length_take_le mss rest).trans hmss
    refine .of_accounted done (show Call.Fits (.storing ..) from ⟨hmss, hlen⟩) (hd.congr same ?_)
    rw [hcall]
    exact List.take_append_drop mss rest

theorem SenderInv.storeChunk {mss sent : ℕ} {chunk rest : Bytes} (h : SenderInv e stream)
    (hcall : e.call = .storing mss sent chunk rest) :
    SenderInv ({ e with conn := e.conn.storeChunk e.ticks chunk }.wait
      (.sending mss (sent + chunk.length) rest) []).endpoint stream := by
  obtain ⟨hmss, hchunk⟩ : mss ≤ 1440 ∧ chunk.length ≤ 1440 := by
    have hf := h.fits
    rwa [hcall] at hf
  obtain ⟨done, hd⟩ := h.sent.resolve_left (by simp [Endpoint.Spent, hcall])
  have hrlen : min chunk.length txBufSize = chunk.length :=
    min_eq_left (hchunk.trans (by decide))
  refine .of_accounted (done ++ chunk) hmss ⟨?_, ?_, ?_, ?_⟩
  · rw [hd.stream, hcall]
    simp [Endpoint.wait, Call.pending]
  · simp only [TcpConn.storeChunk, hd.sndNxt, List.length_append, UInt32.ofNat_add]
    exact UInt32.add_assoc _ _ _
  · simp [Endpoint.wait, TcpConn.storeChunk, hrlen]
  · simp [Endpoint.wait, TcpConn.storeChunk, TcpConn.retransmitPayload, hrlen]

/-! ## What data segments carry -/

/-- The next chunk goes out under `snd_nxt`, which is where it stands in the stream. -/
theorem Accounted.carries_chunk {mss sent : ℕ} {rest : Bytes} {seg : Segment}
    (h : Accounted e stream done) (hcall : e.call = .sending mss sent rest)
    (hseq : seg.seq = e.conn.sndNxt) (hpayload : seg.payload = rest.take mss) :
    Carries stream e.conn.sndIss seg := by
  have hstream : stream = done ++ rest := by rw [h.stream, hcall]; rfl
  refine ⟨done.length, by simp [hstream], ?_, ?_⟩
  · rw [hseq, h.sndNxt]
    exact (add_sub_cancel_left _ _).symm
  · rw [hpayload, hstream, List.drop_left]
    exact List.take_prefix mss rest

/-- The last chunk goes out again under `snd_una`. When nothing else is outstanding, that is the
number it was sent under. -/
theorem Accounted.carries_retransmit {seg : Segment} (h : Accounted e stream done)
    (hall : e.conn.sndUna + UInt32.ofNat e.conn.retransmitLen = e.conn.sndNxt)
    (hseq : seg.seq = e.conn.sndUna) (hpayload : seg.payload = e.conn.retransmitPayload) :
    Carries stream e.conn.sndIss seg := by
  obtain ⟨pre, hpre⟩ := h.kept
  have hlen : e.conn.retransmitPayload.length = e.conn.retransmitLen := by
    simpa [TcpConn.retransmitPayload] using h.len
  refine ⟨pre.length, by simp [h.stream, ← hpre], ?_, ?_⟩
  · have hnxt := h.sndNxt
    rw [← hpre, List.length_append, hlen, UInt32.ofNat_add] at hnxt
    have huna : e.conn.sndUna = e.conn.sndIss + 1 + UInt32.ofNat pre.length := by
      rw [← UInt32.add_left_inj (UInt32.ofNat e.conn.retransmitLen), hall, hnxt]
      exact (UInt32.add_assoc _ _ _).symm
    rw [hseq, huna]
    exact (add_sub_cancel_left _ _).symm
  · rw [hpayload, h.stream, ← hpre, List.append_assoc, List.drop_left]
    exact List.prefix_append _ _

/-! ## Whole steps -/

theorem beginSend_cases (e : Endpoint) (data : Bytes) :
    (∃ error, e.beginSend data = e.finish (.failed error)) ∨
      (e.conn.state ≠ .closed ∧
        ∃ mss ≤ 1440, e.beginSend data = e.wait (.sending mss 0 data) []) := by
  have accepted : e.conn.state ≠ .closed →
      (∃ error, (if min 1440 e.conn.sndWnd.toNat = 0 then e.finish (.failed .wouldBlock)
        else e.wait (.sending (min 1440 e.conn.sndWnd.toNat) 0 data) []) =
          e.finish (.failed error)) ∨
      (e.conn.state ≠ .closed ∧ ∃ mss ≤ 1440,
        (if min 1440 e.conn.sndWnd.toNat = 0 then e.finish (.failed .wouldBlock)
        else e.wait (.sending (min 1440 e.conn.sndWnd.toNat) 0 data) []) =
          e.wait (.sending mss 0 data) []) := by
    intro hstate
    split_ifs
    · exact Or.inl ⟨_, rfl⟩
    · exact Or.inr ⟨hstate, _, min_le_left _ _, rfl⟩
  unfold Endpoint.beginSend
  split
  · exact accepted (by simp [*])
  · exact accepted (by simp [*])
  · exact Or.inl ⟨_, rfl⟩

theorem SenderInv.begin (h : SenderInv e stream) (hidle : e.call = .idle) (r : Request) :
    SenderInv (e.step (.request r)).endpoint ((⟨e, stream⟩ : Session).streamAfter (.request r)) := by
  have hq : e.call.Quiet := by rw [hidle]; trivial
  have opened : ∀ c : TcpConn, c.sndNxt = c.sndIss + 1 → c.retransmitLen = 0 → ∀ call : Call,
      call.Quiet → SenderInv { e with conn := c, call := call } [] := by
    intro c hnxt hlen call hc
    refine .of_accounted [] hc.fits ⟨by simp [hc.pending], ?_, ?_, ?_⟩
    · simp [hnxt]
    · simp [hlen]
    · simp [TcpConn.retransmitPayload, hlen]
  simp only [Endpoint.step, if_pos hidle]
  cases r with
  | connect dstIp localPort dstPort iss =>
    simp only [streamAfter, Endpoint.begin, hidle, true_and]
    split_ifs with hclosed
    · exact opened _ rfl rfl .synSent trivial
    · exact h.moveTo hq trivial
  | accept clientIp listenPort clientPort clientIrs iss =>
    simp only [streamAfter, Endpoint.begin, hidle, true_and]
    split_ifs with hclosed
    · exact opened _ rfl rfl .synAckSent trivial
    · exact h.moveTo hq trivial
  | send data =>
    simp only [streamAfter, Endpoint.begin, hidle]
    rcases beginSend_cases e data with ⟨error, he⟩ | ⟨hstate, mss, hmss, he⟩ <;> rw [he]
    · exact h.moveTo hq trivial
    · obtain ⟨done, hd⟩ :=
        h.sent.resolve_left fun hs => hstate ((spent_iff_of_quiet hq).mp hs)
      refine .of_accounted done hmss ⟨?_, hd.sndNxt, hd.len, hd.kept⟩
      rw [hd.stream, hq.pending, List.append_nil]
      rfl
  | recv size timeoutTicks => exact h.moveTo hq trivial
  | recvNb size => exact h.recvNb hq
  | close => exact senderInv_beginClose e stream

theorem SenderInv.proceed (h : SenderInv e stream) : SenderInv e.proceed.endpoint stream := by
  have stamped : e.call.Quiet →
      SenderInv { e with conn := { e.conn with lastTxTick := e.ticks } } stream :=
    fun _ => h.interrupt rfl ⟨rfl, rfl, rfl, Or.inl rfl⟩ id
  have quiet : ∀ {call : Call}, e.call = call → call.Quiet → e.call.Quiet := by
    rintro _ rfl hc
    exact hc
  unfold Endpoint.proceed
  split
  case h_1 hc => exact h.moveTo (quiet hc trivial) trivial
  case h_2 hc => exact (stamped (quiet hc trivial)).moveTo (quiet hc trivial) trivial
  case h_3 hc => exact h.connectPass (quiet hc trivial)
  case h_4 hc => exact (stamped (quiet hc trivial)).moveTo (quiet hc trivial) trivial
  case h_5 hc => exact h.acceptPass (quiet hc trivial)
  case h_6 hc => exact h.sendChunk hc
  case h_7 hc => exact h.storeChunk hc
  case h_8 hc => exact h.recvPass (quiet hc trivial)
  case h_9 hc => exact (stamped (quiet hc trivial)).recvDeadline (quiet hc trivial)
  case h_10 => exact ⟨trivial, Or.inl trivial⟩
  case h_11 =>
    unfold Endpoint.closePass
    split_ifs
    · exact .reset _
    · exact ⟨trivial, Or.inl trivial⟩

theorem SenderInv.step {s : Session} (h : SenderInv s.endpoint s.stream) (a : Action) :
    SenderInv (s.step a).endpoint (s.step a).stream := by
  obtain ⟨e, stream⟩ := s
  cases a with
  | segment seq ack flags window payload =>
    show SenderInv (e.deliver ..).endpoint stream
    unfold Endpoint.deliver
    split_ifs with hclosed
    · exact h
    · have hkeep := (e.conn.answers_handleConnSegment seq ack flags window payload).1
      exact h.interrupt rfl hkeep fun hc => absurd hc hclosed
  | elapse ticks => exact h.interrupt rfl ⟨rfl, rfl, rfl, Or.inl rfl⟩ id
  | request r =>
    by_cases hidle : e.call = .idle
    · exact h.begin hidle r
    · have hstream : (⟨e, stream⟩ : Session).streamAfter (.request r) = stream := by
        cases r <;> simp [streamAfter, hidle]
      show SenderInv (e.step _).endpoint (streamAfter _ _)
      rw [hstream]
      simp only [Endpoint.step, if_neg hidle]
      exact h
  | proceed => exact h.proceed

/-! ## Steps without data -/

theorem noData_begin (e : Endpoint) (r : Request) : NoData (e.begin r).segs := by
  cases r with
  | connect dstIp localPort dstPort iss =>
    unfold Endpoint.begin
    split_ifs
    · exact noData_synSegment _
    · exact noData_nil
  | accept clientIp listenPort clientPort clientIrs iss =>
    unfold Endpoint.begin
    split_ifs
    · exact noData_synAckSegment _
    · exact noData_nil
  | send data =>
    show NoData (e.beginSend data).segs
    rcases beginSend_cases e data with ⟨error, he⟩ | ⟨-, mss, -, he⟩ <;> rw [he] <;>
      exact noData_nil
  | recv size timeoutTicks => exact noData_nil
  | recvNb size =>
    show NoData (e.recvNb size).segs
    unfold Endpoint.recvNb
    dsimp only
    split_ifs
    · exact noData_nil
    · split <;> exact noData_nil
  | close =>
    show NoData e.beginClose.segs
    unfold Endpoint.beginClose
    split
    · exact noData_finSegment _
    · exact noData_finSegment _
    · exact noData_nil

theorem noData_connectPass (e : Endpoint) (deadline retransmitDeadline : UInt64) :
    NoData (e.connectPass deadline retransmitDeadline).segs := by
  unfold Endpoint.connectPass
  split
  · exact noData_nil
  · exact noData_nil
  · split_ifs
    · exact noData_nil
    · exact noData_synSegment _
    · exact noData_nil

theorem noData_acceptPass (e : Endpoint) (hsDeadline : UInt64) :
    NoData (e.acceptPass hsDeadline).segs := by
  unfold Endpoint.acceptPass
  split
  · exact noData_nil
  · exact noData_nil
  · split_ifs <;> exact noData_nil

theorem noData_recvDeadline (e : Endpoint) (size : ℕ) (deadline : UInt64) :
    NoData (e.recvDeadline size deadline).segs := by
  unfold Endpoint.recvDeadline
  split_ifs <;> exact noData_nil

/-! ## Retransmissions -/

/-- `tcp_recv` retransmits in its next pass: nothing is there to read, the connection is open, and
the timer has run out. -/
def retransmits (e : Endpoint) : Bool :=
  match e.call with
  | .receiving size _ =>
    (e.conn.rxRing.read size).2.isEmpty &&
      (e.conn.state == .established || e.conn.state == .synReceived) &&
      decide (e.conn.RetransmitDue e.ticks)
  | _ => false

/-- A step that retransmits does so when the bytes kept are all that is outstanding. -/
def ResendsAll (s : Session) (a : Action) : Prop :=
  a = .proceed → retransmits s.endpoint →
    s.endpoint.conn.sndUna + UInt32.ofNat s.endpoint.conn.retransmitLen = s.endpoint.conn.sndNxt

instance (s : Session) (a : Action) : Decidable (s.ResendsAll a) :=
  inferInstanceAs (Decidable (_ → _ → _))

theorem recvRetransmit_segs (e : Endpoint) (size : ℕ) (deadline : UInt64) {seg : Segment}
    (hseg : seg ∈ (e.recvRetransmit size deadline).segs) (hne : seg.payload ≠ []) :
    e.conn.RetransmitDue e.ticks ∧ seg.seq = e.conn.sndUna ∧
      seg.payload = e.conn.retransmitPayload := by
  unfold Endpoint.recvRetransmit at hseg
  split_ifs at hseg with hdue
  · rw [eq_of_mem_sendTcpSegment hseg]
    exact ⟨hdue, rfl, rfl⟩
  · exact absurd (noData_recvDeadline e size deadline seg hseg) hne

theorem recvPass_segs {size : ℕ} {deadline : UInt64} {seg : Segment}
    (hcall : e.call = .receiving size deadline) (hseg : seg ∈ (e.recvPass size deadline).segs)
    (hne : seg.payload ≠ []) :
    retransmits e = true ∧ seg.seq = e.conn.sndUna ∧ seg.payload = e.conn.retransmitPayload := by
  have retried : (e.conn.rxRing.read size).2 = [] →
      (e.conn.state = .established ∨ e.conn.state = .synReceived) →
      seg ∈ (({ e with conn := { e.conn with rxRing := (e.conn.rxRing.read size).1 } } :
        Endpoint).recvRetransmit size deadline).segs →
      retransmits e = true ∧ seg.seq = e.conn.sndUna ∧
        seg.payload = e.conn.retransmitPayload := by
    intro hout hopen hseg'
    obtain ⟨hdue, hseq, hpayload⟩ := recvRetransmit_segs _ size deadline hseg' hne
    refine ⟨?_, hseq, hpayload⟩
    simp only [retransmits, hcall, hout, List.isEmpty_nil, Bool.true_and, Bool.and_eq_true,
      Bool.or_eq_true, beq_iff_eq, decide_eq_true_eq]
    exact ⟨hopen, hdue⟩
  unfold Endpoint.recvPass at hseg
  dsimp only at hseg
  split_ifs at hseg with hout
  · simp [Endpoint.finish] at hseg
  · rw [not_not] at hout
    split at hseg
    case h_1 hs => exact retried hout (Or.inl hs) hseg
    case h_2 hs => exact retried hout (Or.inr hs) hseg
    all_goals simp [Endpoint.finish] at hseg

theorem recvPass_sndIss (e : Endpoint) (size : ℕ) (deadline : UInt64) :
    (e.recvPass size deadline).endpoint.conn.sndIss = e.conn.sndIss := by
  unfold Endpoint.recvPass Endpoint.recvRetransmit Endpoint.recvDeadline
  dsimp only
  split_ifs <;> first | rfl | (split <;> rfl)

/-! ## The result -/

/-- A data segment is the next chunk of `tcp_send` or a retransmission of `tcp_recv`. -/
theorem proceed_data {seg : Segment} (hseg : seg ∈ e.proceed.segs) (hne : seg.payload ≠ []) :
    e.proceed.endpoint.conn.sndIss = e.conn.sndIss ∧
      ((∃ mss sent rest, e.call = .sending mss sent rest ∧ seg.seq = e.conn.sndNxt ∧
          seg.payload = rest.take mss) ∨
        (retransmits e = true ∧ e.call.Quiet ∧ seg.seq = e.conn.sndUna ∧
          seg.payload = e.conn.retransmitPayload)) := by
  have quiet : ∀ {segs}, NoData segs → seg ∉ segs := fun hn hm => hne (hn seg hm)
  unfold Endpoint.proceed at hseg ⊢
  cases hcall : e.call with
  | sending mss sent rest =>
    simp only [hcall, Endpoint.sendChunk] at hseg ⊢
    split_ifs at hseg ⊢
    · exact absurd hseg (quiet noData_nil)
    · rw [eq_of_mem_sendTcpSegment hseg]
      exact ⟨rfl, Or.inl ⟨mss, sent, rest, rfl, rfl, rfl⟩⟩
  | receiving size deadline =>
    simp only [hcall] at hseg ⊢
    obtain ⟨hre, hseq, hpayload⟩ := recvPass_segs hcall hseg hne
    exact ⟨recvPass_sndIss e size deadline, Or.inr ⟨hre, trivial, hseq, hpayload⟩⟩
  | connecting deadline retransmitDeadline =>
    simp only [hcall] at hseg
    exact absurd hseg (quiet (noData_connectPass e _ _))
  | accepting hsDeadline =>
    simp only [hcall] at hseg
    exact absurd hseg (quiet (noData_acceptPass e _))
  | resent size deadline =>
    simp only [hcall] at hseg
    exact absurd hseg (quiet (noData_recvDeadline _ _ _))
  | closing state deadline =>
    simp only [hcall, Endpoint.closePass] at hseg
    split_ifs at hseg <;> exact absurd hseg (quiet noData_nil)
  | idle | synSent | synAckSent | storing | finSent =>
    simp only [hcall] at hseg
    exact absurd hseg (quiet noData_nil)

theorem senderIntegrity_proceed {s : Session} (h : SenderInv s.endpoint s.stream)
    (hall : s.ResendsAll .proceed) : s.SenderIntegrity .proceed := by
  intro seg hseg hne
  obtain ⟨hiss, ⟨mss, sent, rest, hcall, hseq, hpayload⟩ | ⟨hre, hq, hseq, hpayload⟩⟩ :=
    proceed_data hseg hne
  · obtain ⟨done, hd⟩ := h.sent.resolve_left (by simp [Endpoint.Spent, hcall])
    show Carries s.stream s.endpoint.proceed.endpoint.conn.sndIss seg
    rw [hiss]
    exact hd.carries_chunk hcall hseq hpayload
  · have hopen : s.endpoint.conn.state ≠ .closed := by
      intro hclosed
      unfold retransmits at hre
      split at hre <;> simp [hclosed] at hre
    obtain ⟨done, hd⟩ := h.sent.resolve_left fun hs => hopen ((spent_iff_of_quiet hq).mp hs)
    show Carries s.stream s.endpoint.proceed.endpoint.conn.sndIss seg
    rw [hiss]
    exact hd.carries_retransmit (hall rfl hre) hseq hpayload

theorem senderIntegrity_step {s : Session} (h : SenderInv s.endpoint s.stream) (a : Action)
    (hall : s.ResendsAll a) : s.SenderIntegrity a := by
  have quiet : NoData (s.endpoint.step a).segs → s.SenderIntegrity a :=
    fun hn seg hseg hne => absurd (hn seg hseg) hne
  cases a with
  | segment seq ack flags window payload =>
    apply quiet
    show NoData (s.endpoint.deliver ..).segs
    unfold Endpoint.deliver
    split_ifs
    · exact noData_nil
    · exact (s.endpoint.conn.answers_handleConnSegment seq ack flags window payload).2
  | elapse ticks => exact quiet noData_nil
  | request r =>
    apply quiet
    unfold Endpoint.step
    split_ifs
    · exact noData_begin _ r
    · exact noData_nil
  | proceed => exact senderIntegrity_proceed h hall

theorem senderInv_new : SenderInv new.endpoint new.stream := .of_closed trivial rfl

/-- **Sender integrity.** In a run whose retransmissions all resend everything that is outstanding,
every data segment carries the bytes of the stream at the offset of its sequence number. -/
theorem senderIntegrity_run (as : List Action) (h : Lib.EachStep step ResendsAll new as) :
    Lib.EachStep step SenderIntegrity new as :=
  Lib.eachStep_of_eachStep senderInv_new (fun _ a hs _ => hs.step a)
    (fun _ a hs ha => senderIntegrity_step hs a ha) h

/-- A handshake with a peer that advertises `window`, `data` sent in `chunks` chunks, the timer run
out, and a `tcp_recv`. -/
def sendThenRecv (window : UInt16) (data : Bytes) (chunks : ℕ) : List Action :=
  [.request (.connect (Vector.replicate 4 10) 49152 80 0x10000), .proceed,
    .segment 1000 0x10001 0x12 window [], .proceed, .request (.send data)] ++
  List.replicate (2 * chunks + 1) .proceed ++
  [.elapse 301, .request (.recv 1 10), .proceed]

theorem senderIntegrity_run_oneChunk :
    Lib.EachStep step ResendsAll new (sendThenRecv 2 [1, 2] 1) ∧
      Lib.EachStep step SenderIntegrity new (sendThenRecv 2 [1, 2] 1) :=
  have h : Lib.EachStep step ResendsAll new (sendThenRecv 2 [1, 2] 1) := by decide +kernel
  ⟨h, senderIntegrity_run _ h⟩

/-- A window of one byte splits the data into two chunks. Neither is acknowledged, and the second
goes out again under the first one's sequence number. -/
theorem not_senderIntegrity_twoChunks :
    ¬ Lib.EachStep step SenderIntegrity new (sendThenRecv 1 [1, 2] 2) := by
  decide +kernel

end Session

end Aeterna.Net
