import Mathlib.Data.List.Basic
import Mathlib.Logic.Function.Basic

/-!
# A TCP connection

One slot of the connection table of `net/tcp.rs`, with the calls that a program makes on it and
the segments that arrive for it. A call that sends a segment or waits gives way to incoming
segments at that point: sending resolves a hardware address, which polls the card, and the wait
loops poll it in every pass. `Call` is where the call in progress last gave way, and `Endpoint.step`
is one step of the call, one arriving segment, or the passing of time.
-/

namespace Aeterna.Net

/-! ## Constants and small types -/

def tcpFin : UInt8 := 0x01
def tcpSyn : UInt8 := 0x02
def tcpRst : UInt8 := 0x04
def tcpPsh : UInt8 := 0x08
def tcpAck : UInt8 := 0x10

def rxBufSize : ℕ := 8192
def txBufSize : ℕ := 4096
def retransmitTicks : UInt64 := 300
def connectTimeoutTicks : UInt64 := 500
def defaultWindow : UInt16 := 8192

inductive TcpState where
  | closed
  | listen
  | synSent
  | synReceived
  | established
  | finWait1
  | finWait2
  | closeWait
  | lastAck
  | timeWait
  deriving DecidableEq, Repr

inductive TcpError where
  | connectionRefused
  | connectionReset
  | timedOut
  | notConnected
  | invalidConn
  | noFreeSlots
  | wouldBlock
  deriving DecidableEq, Repr

abbrev Bytes := List UInt8

abbrev IpAddr := Vector UInt8 4

/-! ## The receive ring -/

/-- The ring of received bytes: `head` is the write position, `tail` the read position. -/
structure RxRing where
  buf : ℕ → UInt8
  head : ℕ
  tail : ℕ
  len : ℕ

namespace RxRing

def new : RxRing := ⟨fun _ => 0, 0, 0, 0⟩

def put (r : RxRing) (b : UInt8) : RxRing :=
  { r with buf := Function.update r.buf r.head b, head := (r.head + 1) % rxBufSize }

def take (r : RxRing) : RxRing × UInt8 :=
  ({ r with tail := (r.tail + 1) % rxBufSize }, r.buf r.tail)

def freeSpace (r : RxRing) : ℕ := rxBufSize - r.len

/-- Stores as much of `data` as fits and returns how much that is. -/
def write (r : RxRing) (data : Bytes) : RxRing × ℕ :=
  let n := min data.length r.freeSpace
  ({ (data.take n).foldl put r with len := r.len + n }, n)

def takeMany (r : RxRing) : ℕ → RxRing × Bytes
  | 0 => (r, [])
  | n + 1 =>
    let (r₁, b) := r.take
    let (r₂, bs) := r₁.takeMany n
    (r₂, b :: bs)

/-- Takes up to `size` bytes out of the ring. -/
def read (r : RxRing) (size : ℕ) : RxRing × Bytes :=
  let n := min size r.len
  let (r', out) := r.takeMany n
  ({ r' with len := r.len - n }, out)

end RxRing

/-! ## Connections and segments -/

structure TcpConn where
  state : TcpState
  localPort : UInt16
  remotePort : UInt16
  remoteIp : IpAddr
  /-- oldest unacknowledged -/
  sndUna : UInt32
  /-- next sequence number to send -/
  sndNxt : UInt32
  /-- initial send sequence number -/
  sndIss : UInt32
  /-- next expected sequence number -/
  rcvNxt : UInt32
  /-- initial receive sequence number -/
  rcvIrs : UInt32
  rcvWnd : UInt16
  /-- the peer's receive window -/
  sndWnd : UInt16
  rxRing : RxRing
  lastTxTick : UInt64
  retransmitData : Bytes
  retransmitLen : ℕ

/-- A segment handed to the network layer. -/
structure Segment where
  dstIp : IpAddr
  srcPort : UInt16
  dstPort : UInt16
  seq : UInt32
  ack : UInt32
  flags : UInt8
  window : UInt16
  payload : Bytes
  deriving DecidableEq, Repr

/-- What reaches the network layer: nothing when the segment is longer than the limit. -/
def sendTcpSegment (seg : Segment) : List Segment :=
  if 20 + seg.payload.length > 1460 then [] else [seg]

namespace TcpConn

def new : TcpConn where
  state := .closed
  localPort := 0
  remotePort := 0
  remoteIp := Vector.replicate 4 0
  sndUna := 0
  sndNxt := 0
  sndIss := 0
  rcvNxt := 0
  rcvIrs := 0
  rcvWnd := defaultWindow
  sndWnd := defaultWindow
  rxRing := .new
  lastTxTick := 0
  retransmitData := List.replicate txBufSize 0
  retransmitLen := 0

/-- A segment from this connection to its peer. -/
def segment (c : TcpConn) (seq ack : UInt32) (flags : UInt8) (window : UInt16)
    (payload : Bytes) : Segment :=
  ⟨c.remoteIp, c.localPort, c.remotePort, seq, ack, flags, window, payload⟩

/-- The acknowledgement `(snd_nxt, rcv_nxt)` without data. -/
def ackSegment (c : TcpConn) (window : UInt16) : List Segment :=
  sendTcpSegment (c.segment c.sndNxt c.rcvNxt tcpAck window [])

/-- The free space of the ring as an advertised window. -/
def ringWindow (c : TcpConn) : UInt16 := UInt16.ofNat (min c.rxRing.freeSpace 65535)

def retransmitPayload (c : TcpConn) : Bytes := c.retransmitData.take c.retransmitLen

end TcpConn

/-! ## Incoming segments -/

/-- Whether `ack` lies in `[una, nxt]`, modulo `2 ^ 32`. -/
def ackInRange (una ack nxt : UInt32) : Bool :=
  if nxt ≥ una then ack ≥ una && ack ≤ nxt else ack ≥ una || ack ≤ nxt

namespace TcpConn

/-- The peer's FIN: it takes one sequence number and is acknowledged at once. -/
def takeFin (c : TcpConn) (state : TcpState) : TcpConn × List Segment :=
  let c := { c with rcvNxt := c.rcvNxt + 1, state := state }
  (c, c.ackSegment c.rcvWnd)

/-- The acknowledgement part of a segment in the established state. -/
def takeAck (c : TcpConn) (ack : UInt32) (isAck : Bool) (window : UInt16) : TcpConn :=
  if isAck then
    let c := if ackInRange c.sndUna ack c.sndNxt then { c with sndUna := ack, retransmitLen := 0 }
      else c
    { c with sndWnd := window }
  else c

/-- The data part of a segment in the established state. -/
def takeData (c : TcpConn) (seq : UInt32) (payload : Bytes) : TcpConn × List Segment :=
  if payload ≠ [] ∧ seq = c.rcvNxt then
    let (ring, written) := c.rxRing.write payload
    let c := { c with rxRing := ring, rcvNxt := c.rcvNxt + UInt32.ofNat written }
    (c, c.ackSegment c.ringWindow)
  else (c, [])

def handleEstablished (c : TcpConn) (seq ack : UInt32) (isAck isFin : Bool) (window : UInt16)
    (payload : Bytes) : TcpConn × List Segment :=
  let c := c.takeAck ack isAck window
  let (c, acked) := c.takeData seq payload
  if isFin then
    let (c, finAcked) := c.takeFin .closeWait
    (c, acked ++ finAcked)
  else (c, acked)

def handleConnSegment (c : TcpConn) (seq ack : UInt32) (flags : UInt8) (window : UInt16)
    (payload : Bytes) : TcpConn × List Segment :=
  let isSyn := flags &&& tcpSyn != 0
  let isAck := flags &&& tcpAck != 0
  let isFin := flags &&& tcpFin != 0
  let isRst := flags &&& tcpRst != 0
  if isRst then ({ c with state := .closed }, [])
  else match c.state with
  | .synSent =>
    if isSyn && isAck then
      if ack = c.sndNxt then
        let c := { c with rcvIrs := seq, rcvNxt := seq + 1, sndUna := ack, sndWnd := window,
                          state := .established }
        (c, c.ackSegment c.rcvWnd)
      else ({ c with state := .closed }, sendTcpSegment (c.segment ack 0 tcpRst 0 []))
    else (c, [])
  | .synReceived =>
    if isAck && ack = c.sndNxt then
      ({ c with sndUna := ack, sndWnd := window, state := .established }, [])
    else (c, [])
  | .established => c.handleEstablished seq ack isAck isFin window payload
  | .finWait1 =>
    if isAck && ack = c.sndNxt then
      let c := { c with sndUna := ack }
      if isFin then c.takeFin .timeWait else ({ c with state := .finWait2 }, [])
    else if isFin then c.takeFin .timeWait
    else (c, [])
  | .finWait2 => if isFin then c.takeFin .timeWait else (c, [])
  | .lastAck => if isAck && ack = c.sndNxt then ({ c with state := .closed }, []) else (c, [])
  | .timeWait => ({ c with state := .closed }, [])
  | .closeWait => if isAck then ({ c with sndUna := ack }, []) else (c, [])
  | .closed => (c, [])
  | .listen => (c, [])

theorem handleConnSegment_of_rst (c : TcpConn) (seq ack : UInt32) {flags : UInt8}
    (window : UInt16) (payload : Bytes) (hrst : flags &&& tcpRst ≠ 0) :
    c.handleConnSegment seq ack flags window payload = ({ c with state := .closed }, []) := by
  exact if_pos (bne_iff_ne.mpr hrst)

theorem handleConnSegment_of_established {c : TcpConn} (hs : c.state = .established)
    (seq ack : UInt32) {flags : UInt8} (window : UInt16) (payload : Bytes)
    (hrst : flags &&& tcpRst = 0) :
    c.handleConnSegment seq ack flags window payload =
      c.handleEstablished seq ack (flags &&& tcpAck != 0) (flags &&& tcpFin != 0) window
        payload := by
  unfold handleConnSegment
  rw [if_neg (by rw [hrst]; decide), hs]

/-! ## Opening a connection -/

/-- The slot as `tcp_connect` sets it up. -/
def openActive (dstIp : IpAddr) (localPort dstPort : UInt16) (iss : UInt32) : TcpConn :=
  { new with state := .synSent, localPort := localPort, remotePort := dstPort, remoteIp := dstIp,
             sndIss := iss, sndUna := iss, sndNxt := iss + 1, rcvWnd := defaultWindow }

/-- The slot as `tcp_accept` sets it up. -/
def openPassive (clientIp : IpAddr) (listenPort clientPort : UInt16) (clientIrs iss : UInt32) :
    TcpConn :=
  { new with state := .synReceived, localPort := listenPort, remotePort := clientPort,
             remoteIp := clientIp, sndIss := iss, sndUna := iss, sndNxt := iss + 1,
             rcvIrs := clientIrs, rcvNxt := clientIrs + 1, rcvWnd := defaultWindow }

def synSegment (c : TcpConn) : List Segment :=
  sendTcpSegment (c.segment c.sndIss 0 tcpSyn defaultWindow [])

def synAckSegment (c : TcpConn) : List Segment :=
  sendTcpSegment (c.segment c.sndIss c.rcvNxt (tcpSyn ||| tcpAck) defaultWindow [])

/-! ## Sending data -/

/-- A data segment with the sequence number `seq`. -/
def dataSegment (c : TcpConn) (seq : UInt32) (payload : Bytes) : List Segment :=
  sendTcpSegment (c.segment seq c.rcvNxt (tcpPsh ||| tcpAck) c.ringWindow payload)

/-- Keeps the chunk just sent for a retransmission and counts it as sent. -/
def storeChunk (c : TcpConn) (now : UInt64) (chunk : Bytes) : TcpConn :=
  let rlen := min chunk.length txBufSize
  { c with retransmitData := chunk.take rlen ++ c.retransmitData.drop rlen
           retransmitLen := rlen
           lastTxTick := now
           sndNxt := c.sndNxt + UInt32.ofNat chunk.length }

/-- Whether `tcp_recv` retransmits in this pass. -/
def RetransmitDue (c : TcpConn) (now : UInt64) : Prop :=
  c.retransmitLen > 0 ∧ now - c.lastTxTick > retransmitTicks

instance (c : TcpConn) (now : UInt64) : Decidable (c.RetransmitDue now) :=
  inferInstanceAs (Decidable (_ ∧ _))

def finSegment (c : TcpConn) : List Segment :=
  sendTcpSegment (c.segment c.sndNxt c.rcvNxt (tcpFin ||| tcpAck) c.rcvWnd [])

end TcpConn

/-! ## Calls in progress -/

inductive Request where
  | connect (dstIp : IpAddr) (localPort dstPort : UInt16) (iss : UInt32)
  | accept (clientIp : IpAddr) (listenPort clientPort : UInt16) (clientIrs iss : UInt32)
  | send (data : Bytes)
  | recv (size : ℕ) (timeoutTicks : UInt64)
  | recvNb (size : ℕ)
  | close
  deriving DecidableEq

inductive Reply where
  | opened
  | sent (n : ℕ)
  | received (data : Bytes)
  | closed
  | failed (error : TcpError)
  deriving DecidableEq

/-- The call in progress on a connection, by the point where it last gave way. -/
inductive Call where
  | idle
  /-- `tcp_connect` has sent its SYN -/
  | synSent
  | connecting (deadline retransmitDeadline : UInt64)
  /-- `tcp_accept` has sent its SYN-ACK -/
  | synAckSent
  | accepting (hsDeadline : UInt64)
  /-- `tcp_send` at the head of its loop -/
  | sending (mss sent : ℕ) (rest : Bytes)
  /-- `tcp_send` has sent `chunk` and not yet counted it -/
  | storing (mss sent : ℕ) (chunk rest : Bytes)
  | receiving (size : ℕ) (deadline : UInt64)
  /-- `tcp_recv` has retransmitted in this pass -/
  | resent (size : ℕ) (deadline : UInt64)
  /-- `tcp_close` has sent its FIN and is about to enter `state` -/
  | finSent (state : TcpState)
  | closing (state : TcpState) (deadline : UInt64)
  deriving DecidableEq

/-- A connection slot, the clock, and the call in progress on the slot. -/
structure Endpoint where
  conn : TcpConn
  ticks : UInt64
  call : Call

/-- What a step leaves behind: the endpoint, the segments sent and the reply of a call that
returns. -/
structure Outcome where
  endpoint : Endpoint
  segs : List Segment
  reply : Option Reply

namespace Endpoint

def new : Endpoint := ⟨.new, 0, .idle⟩

/-- The call waits: it gives way at `call`. -/
def wait (e : Endpoint) (call : Call) (segs : List Segment) : Outcome :=
  ⟨{ e with call := call }, segs, none⟩

def finish (e : Endpoint) (reply : Reply) : Outcome :=
  ⟨{ e with call := .idle }, [], some reply⟩

/-- The slot is cleared and the call returns. -/
def resetAnd (e : Endpoint) (reply : Reply) : Outcome := { e with conn := .new }.finish reply

def beginSend (e : Endpoint) (data : Bytes) : Outcome :=
  match e.conn.state with
  | .established | .closeWait =>
    let mss := min 1440 e.conn.sndWnd.toNat
    if mss = 0 then e.finish (.failed .wouldBlock) else e.wait (.sending mss 0 data) []
  | _ => e.finish (.failed .notConnected)

/-- `tcp_recv_nb`, after it has polled the card. -/
def recvNb (e : Endpoint) (size : ℕ) : Outcome :=
  let (ring, out) := e.conn.rxRing.read size
  let e := { e with conn := { e.conn with rxRing := ring } }
  if out ≠ [] then e.finish (.received out)
  else match e.conn.state with
  | .established => e.finish (.failed .wouldBlock)
  | .closeWait | .closed => e.finish (.received [])
  | _ => e.finish (.failed .notConnected)

def beginClose (e : Endpoint) : Outcome :=
  match e.conn.state with
  | .established => e.wait (.finSent .finWait1) e.conn.finSegment
  | .closeWait => e.wait (.finSent .lastAck) e.conn.finSegment
  | _ => e.resetAnd .closed

/-- A call begins. Opening a connection needs a free slot, which is one in the closed state. -/
def begin (e : Endpoint) : Request → Outcome
  | .connect dstIp localPort dstPort iss =>
    if e.conn.state = .closed then
      let c := TcpConn.openActive dstIp localPort dstPort iss
      { e with conn := c }.wait .synSent c.synSegment
    else e.finish (.failed .noFreeSlots)
  | .accept clientIp listenPort clientPort clientIrs iss =>
    if e.conn.state = .closed then
      let c := TcpConn.openPassive clientIp listenPort clientPort clientIrs iss
      { e with conn := c }.wait .synAckSent c.synAckSegment
    else e.finish (.failed .noFreeSlots)
  | .send data => e.beginSend data
  | .recv size timeoutTicks => e.wait (.receiving size (e.ticks + timeoutTicks)) []
  | .recvNb size => e.recvNb size
  | .close => e.beginClose

def connectPass (e : Endpoint) (deadline retransmitDeadline : UInt64) : Outcome :=
  match e.conn.state with
  | .established => e.finish .opened
  | .closed => e.finish (.failed .connectionRefused)
  | _ =>
    if e.ticks ≥ deadline then e.resetAnd (.failed .timedOut)
    else if e.ticks ≥ retransmitDeadline then
      e.wait (.connecting deadline (e.ticks + retransmitTicks)) e.conn.synSegment
    else e.wait (.connecting deadline retransmitDeadline) []

/-- One pass of the handshake loop of `tcp_accept`. -/
def acceptPass (e : Endpoint) (hsDeadline : UInt64) : Outcome :=
  match e.conn.state with
  | .established => e.finish .opened
  | .closed => e.finish (.failed .connectionReset)
  | _ =>
    if e.ticks ≥ hsDeadline then e.resetAnd (.failed .timedOut)
    else e.wait (.accepting hsDeadline) []

/-- The head of the loop of `tcp_send`: the next chunk goes out. -/
def sendChunk (e : Endpoint) (mss sent : ℕ) (rest : Bytes) : Outcome :=
  if rest = [] then e.finish (.sent sent)
  else
    let chunk := rest.take mss
    e.wait (.storing mss sent chunk (rest.drop mss)) (e.conn.dataSegment e.conn.sndNxt chunk)

/-- The end of a pass of `tcp_recv`. -/
def recvDeadline (e : Endpoint) (size : ℕ) (deadline : UInt64) : Outcome :=
  if e.ticks ≥ deadline then e.finish (.failed .timedOut) else e.wait (.receiving size deadline) []

def recvRetransmit (e : Endpoint) (size : ℕ) (deadline : UInt64) : Outcome :=
  if e.conn.RetransmitDue e.ticks then
    e.wait (.resent size deadline) (e.conn.dataSegment e.conn.sndUna e.conn.retransmitPayload)
  else e.recvDeadline size deadline

/-- One pass of `tcp_recv`, up to its retransmission. -/
def recvPass (e : Endpoint) (size : ℕ) (deadline : UInt64) : Outcome :=
  let (ring, out) := e.conn.rxRing.read size
  let e := { e with conn := { e.conn with rxRing := ring } }
  if out ≠ [] then e.finish (.received out)
  else match e.conn.state with
  | .established | .synReceived => e.recvRetransmit size deadline
  | .closeWait | .lastAck | .timeWait | .closed => e.finish (.received [])
  | _ => e.finish (.failed .notConnected)

/-- One pass of the waiting loop of `tcp_close`. -/
def closePass (e : Endpoint) (state : TcpState) (deadline : UInt64) : Outcome :=
  if e.ticks ≥ deadline ∨ e.conn.state = .closed ∨ (state = .finWait1 ∧ e.conn.state = .timeWait)
  then e.resetAnd .closed
  else e.wait (.closing state deadline) []

/-- The call in progress goes on from where it gave way. -/
def proceed (e : Endpoint) : Outcome :=
  match e.call with
  | .idle => e.wait .idle []
  | .synSent =>
    { e with conn := { e.conn with lastTxTick := e.ticks } }.wait
      (.connecting (e.ticks + connectTimeoutTicks) (e.ticks + retransmitTicks)) []
  | .connecting deadline retransmitDeadline => e.connectPass deadline retransmitDeadline
  | .synAckSent =>
    { e with conn := { e.conn with lastTxTick := e.ticks } }.wait
      (.accepting (e.ticks + connectTimeoutTicks)) []
  | .accepting hsDeadline => e.acceptPass hsDeadline
  | .sending mss sent rest => e.sendChunk mss sent rest
  | .storing mss sent chunk rest =>
    { e with conn := e.conn.storeChunk e.ticks chunk }.wait
      (.sending mss (sent + chunk.length) rest) []
  | .receiving size deadline => e.recvPass size deadline
  | .resent size deadline =>
    { e with conn := { e.conn with lastTxTick := e.ticks } }.recvDeadline size deadline
  | .finSent state =>
    let c := { e.conn with sndNxt := e.conn.sndNxt + 1, state := state, lastTxTick := e.ticks }
    { e with conn := c }.wait (.closing state (e.ticks + 300)) []
  | .closing state deadline => e.closePass state deadline

inductive Action where
  | segment (seq ack : UInt32) (flags : UInt8) (window : UInt16) (payload : Bytes)
  | elapse (ticks : UInt64)
  | request (r : Request)
  | proceed
  deriving DecidableEq

/-- A segment of the peer arrives. A closed slot is not found and receives none. -/
def deliver (e : Endpoint) (seq ack : UInt32) (flags : UInt8) (window : UInt16)
    (payload : Bytes) : Outcome :=
  if e.conn.state = .closed then e.wait e.call []
  else
    let (c, segs) := e.conn.handleConnSegment seq ack flags window payload
    { e with conn := c }.wait e.call segs

/-- One step of the endpoint. A connection serves one call at a time. -/
def step (e : Endpoint) : Action → Outcome
  | .segment seq ack flags window payload => e.deliver seq ack flags window payload
  | .elapse ticks => ⟨{ e with ticks := e.ticks + ticks }, [], none⟩
  | .request r => if e.call = .idle then e.begin r else e.wait e.call []
  | .proceed => e.proceed

end Endpoint

end Aeterna.Net
