import Aeterna.Lib.Buffer
import Aeterna.Lib.Bytes
import Aeterna.Net.TcpReceiver

/-!
# The connection table

The sixteen slots of `net/tcp.rs` and `handle_tcp`, which reads the header of a segment and hands it
to the connection with its ports and address, to a listener, or answers it with a RST.

In the established state the flags of a segment are obeyed whatever its sequence number is, and the
header length is taken as it comes, so that a short one turns the header's own bytes into data.
`unmoved_iff` says which of the segments that are to be ignored are.
-/

namespace Aeterna.Net

open Lib.Bytes Lib.Buffer

/-! ## The table -/

abbrev maxConns : ℕ := 16

/-- A slot: its connection, and what a listener holds for `tcp_accept`. -/
structure Slot where
  conn : TcpConn
  acceptReady : Bool
  acceptIp : IpAddr
  acceptPort : UInt16
  acceptIrs : UInt32

/-- The slot as `reset` leaves it, with a connection in it. -/
def Slot.of (conn : TcpConn) : Slot := ⟨conn, false, Vector.replicate 4 0, 0, 0⟩

abbrev Conns := Fin maxConns → Slot

namespace Conns

variable (t : Conns)

def findConn (localPort : UInt16) (remoteIp : IpAddr) (remotePort : UInt16) :
    Option (Fin maxConns) :=
  (List.finRange maxConns).find? fun i => (t i).conn.state ≠ .closed ∧
    (t i).conn.localPort = localPort ∧ (t i).conn.remoteIp = remoteIp ∧
    (t i).conn.remotePort = remotePort

def findListener (localPort : UInt16) : Option (Fin maxConns) :=
  (List.finRange maxConns).find? fun i =>
    (t i).conn.state = .listen ∧ (t i).conn.localPort = localPort

def setConn (i : Fin maxConns) (c : TcpConn) : Conns := Function.update t i { t i with conn := c }

@[simp] theorem setConn_self (i : Fin maxConns) (c : TcpConn) : (t.setConn i c i).conn = c := by
  unfold setConn
  rw [Function.update_self]

theorem setConn_of_ne {i j : Fin maxConns} (h : j ≠ i) (c : TcpConn) :
    t.setConn i c j = t j := Function.update_of_ne h _ _

end Conns

/-! ## Incoming segments -/

/-- The fields of a header that `handle_tcp` reads. -/
structure TcpHeader where
  srcPort : UInt16
  dstPort : UInt16
  seqNum : UInt32
  ackNum : UInt32
  /-- the header length in bytes -/
  dataOff : ℕ
  flags : UInt8
  window : UInt16

def tcpHeader (data : Bytes) : TcpHeader where
  srcPort := UInt16.ofNat (beValue (slice data 0 2))
  dstPort := UInt16.ofNat (beValue (slice data 2 2))
  seqNum := UInt32.ofNat (beValue (slice data 4 4))
  ackNum := UInt32.ofNat (beValue (slice data 8 4))
  dataOff := (data.getD 12 0 >>> 4).toNat * 4
  flags := data.getD 13 0
  window := UInt16.ofNat (beValue (slice data 14 2))

/-- The RST for a segment without a connection. -/
def rstSegment (h : TcpHeader) (srcIp : IpAddr) (payload : Bytes) : Segment :=
  if h.flags &&& tcpAck != 0 then ⟨srcIp, h.dstPort, h.srcPort, h.ackNum, 0, tcpRst, 0, []⟩
  else
    let segLen : UInt32 := UInt32.ofNat payload.length +
      (if h.flags &&& tcpSyn != 0 then 1 else 0) + (if h.flags &&& tcpFin != 0 then 1 else 0)
    ⟨srcIp, h.dstPort, h.srcPort, 0, h.seqNum + segLen, tcpRst ||| tcpAck, 0, []⟩

/-- A segment that no connection has the ports and address of. -/
def handleUnmatched (t : Conns) (h : TcpHeader) (srcIp : IpAddr) (payload : Bytes) :
    Conns × List Segment :=
  let isSyn := h.flags &&& tcpSyn != 0
  let isAck := h.flags &&& tcpAck != 0
  let isRst := h.flags &&& tcpRst != 0
  match if isSyn && !isAck then t.findListener h.dstPort else none with
  | some lis =>
    (Function.update t lis { t lis with
      acceptReady := true, acceptIp := srcIp, acceptPort := h.srcPort, acceptIrs := h.seqNum }, [])
  | none => if isRst then (t, []) else (t, sendTcpSegment (rstSegment h srcIp payload))

def handleTcp (t : Conns) (data : Bytes) (srcIp : IpAddr) : Conns × List Segment :=
  if data.length < 20 then (t, [])
  else
    let h := tcpHeader data
    if h.dataOff > data.length then (t, [])
    else
      let payload := data.drop h.dataOff
      match t.findConn h.dstPort srcIp h.srcPort with
      | some i =>
        let (c, segs) := (t i).conn.handleConnSegment h.seqNum h.ackNum h.flags h.window payload
        (t.setConn i c, segs)
      | none => handleUnmatched t h srcIp payload

/-- The segment is handed to the connection in slot `i`. -/
def Reaches (t : Conns) (data : Bytes) (srcIp : IpAddr) (i : Fin maxConns) : Prop :=
  20 ≤ data.length ∧ (tcpHeader data).dataOff ≤ data.length ∧
    t.findConn (tcpHeader data).dstPort srcIp (tcpHeader data).srcPort = some i

instance (t : Conns) (data : Bytes) (srcIp : IpAddr) (i : Fin maxConns) :
    Decidable (Reaches t data srcIp i) := inferInstanceAs (Decidable (_ ∧ _ ∧ _))

variable {t : Conns} {data : Bytes} {srcIp : IpAddr} {i : Fin maxConns}

theorem handleTcp_of_reaches (h : Reaches t data srcIp i) :
    (handleTcp t data srcIp).1 = t.setConn i ((t i).conn.handleConnSegment (tcpHeader data).seqNum
      (tcpHeader data).ackNum (tcpHeader data).flags (tcpHeader data).window
      (data.drop (tcpHeader data).dataOff)).1 := by
  obtain ⟨hlen, hoff, hfind⟩ := h
  unfold handleTcp
  rw [if_neg (Nat.not_lt.mpr hlen)]
  dsimp only
  rw [if_neg (Nat.not_lt.mpr hoff), hfind]

theorem conn_handleUnmatched (t : Conns) (h : TcpHeader) (srcIp : IpAddr) (payload : Bytes)
    (i : Fin maxConns) : ((handleUnmatched t h srcIp payload).1 i).conn = (t i).conn := by
  unfold handleUnmatched
  dsimp only
  split
  · rename_i lis _
    dsimp only
    by_cases hi : i = lis
    · subst hi
      rw [Function.update_self]
    · rw [Function.update_of_ne hi]
  · split_ifs <;> rfl

/-- What a segment does to a connection: nothing, unless it is handed to it. -/
theorem conn_handleTcp (h : ¬ Reaches t data srcIp i) :
    ((handleTcp t data srcIp).1 i).conn = (t i).conn := by
  unfold handleTcp
  dsimp only
  split_ifs with hlen hoff
  · rfl
  · rfl
  · split
    · rename_i j hfind
      have hij : i ≠ j := by
        rintro rfl
        exact h ⟨Nat.le_of_not_lt hlen, Nat.le_of_not_lt hoff, hfind⟩
      dsimp only
      rw [Conns.setConn_of_ne t hij]
    · exact conn_handleUnmatched t _ srcIp _ i

/-! ## Segments to be ignored -/

/-- The segment's header is too short, or its sequence number is outside the window. -/
def Unacceptable (c : TcpConn) (data : Bytes) : Prop :=
  (tcpHeader data).dataOff < 5 * 4 ∨
    c.rxRing.freeSpace < ((tcpHeader data).seqNum - c.rcvNxt).toNat

/-- The connection is in the same state, expects the same number and holds the same bytes. -/
def Unmoved (c c' : TcpConn) : Prop :=
  c'.state = c.state ∧ c'.rcvNxt = c.rcvNxt ∧ c'.rxRing.contents = c.rxRing.contents

instance (c : TcpConn) (data : Bytes) : Decidable (Unacceptable c data) :=
  inferInstanceAs (Decidable (_ ∨ _))

instance (c c' : TcpConn) : Decidable (Unmoved c c') := inferInstanceAs (Decidable (_ ∧ _ ∧ _))

theorem unmoved_takeAck (c : TcpConn) (ack : UInt32) (isAck : Bool) (window : UInt16) :
    (c.takeAck ack isAck window).state = c.state ∧ (c.takeAck ack isAck window).rcvNxt = c.rcvNxt ∧
      (c.takeAck ack isAck window).rxRing = c.rxRing := by
  unfold TcpConn.takeAck
  split_ifs <;> exact ⟨rfl, rfl, rfl⟩

/-- Data at the expected number move the connection as soon as the ring has room. -/
theorem unmoved_takeData_iff (c : TcpConn) (seq : UInt32) (payload : Bytes) :
    Unmoved c (c.takeData seq payload).1 ↔
      (payload ≠ [] → seq = c.rcvNxt → c.rxRing.freeSpace = 0) := by
  unfold TcpConn.takeData
  split_ifs with hacc
  · obtain ⟨hne, hseq⟩ := hacc
    constructor
    · rintro ⟨-, -, hcontents⟩ _ _
      have hlen := congrArg List.length hcontents
      rw [RxRing.length_contents, RxRing.length_contents] at hlen
      have hwritten : c.rxRing.len + min payload.length c.rxRing.freeSpace = c.rxRing.len := hlen
      have hpos := List.length_pos_iff.mpr hne
      omega
    · intro hfull
      have hzero : (c.rxRing.write payload).2 = 0 := by
        show min payload.length c.rxRing.freeSpace = 0
        rw [hfull hne hseq, Nat.min_zero]
      have hring : (c.rxRing.write payload).1 = c.rxRing := by
        have hmin : min payload.length c.rxRing.freeSpace = 0 := hzero
        unfold RxRing.write
        dsimp only
        rw [hmin]
        rfl
      refine ⟨rfl, ?_, ?_⟩
      · show c.rcvNxt + UInt32.ofNat (c.rxRing.write payload).2 = c.rcvNxt
        rw [hzero]
        exact UInt32.add_zero _
      · show (c.rxRing.write payload).1.contents = _
        rw [hring]
  · exact iff_of_true ⟨rfl, rfl, rfl⟩ fun hne hseq => absurd ⟨hne, hseq⟩ hacc

theorem unmoved_handleConnSegment_iff {c : TcpConn} (hs : c.state = .established)
    (seq ack : UInt32) (flags : UInt8) (window : UInt16) (payload : Bytes) :
    Unmoved c (c.handleConnSegment seq ack flags window payload).1 ↔
      flags &&& tcpRst = 0 ∧ flags &&& tcpFin = 0 ∧
        (payload ≠ [] → seq = c.rcvNxt → c.rxRing.freeSpace = 0) := by
  by_cases hrst : flags &&& tcpRst = 0
  · rw [TcpConn.handleConnSegment_of_established hs seq ack window payload hrst]
    obtain ⟨hstate, hnxt, hring⟩ := unmoved_takeAck c ack (flags &&& tcpAck != 0) window
    have hdata := unmoved_takeData_iff (c.takeAck ack (flags &&& tcpAck != 0) window) seq payload
    rw [hnxt, hring] at hdata
    unfold Unmoved at hdata ⊢
    rw [hstate, hnxt, hring] at hdata
    unfold TcpConn.handleEstablished
    dsimp only
    by_cases hfin : flags &&& tcpFin = 0
    · rw [if_neg (by rw [hfin]; decide), hdata]
      exact ⟨fun h => ⟨hrst, hfin, h⟩, fun h => h.2.2⟩
    · rw [if_pos (bne_iff_ne.mpr hfin)]
      refine iff_of_false (fun h => ?_) fun h => hfin h.2.1
      exact TcpState.noConfusion (h.1.trans hs)
  · rw [TcpConn.handleConnSegment_of_rst c seq ack window payload hrst]
    refine iff_of_false (fun h => ?_) fun h => hrst h.1
    exact TcpState.noConfusion (h.1.trans hs)

/-- **Segments to be ignored.** A segment with a short header or outside the window leaves an open
connection unmoved exactly when it does not reach the connection, or has neither RST nor FIN and
does not find the expected number and room in the ring. -/
theorem unmoved_iff (t : Conns) (i : Fin maxConns) (hs : (t i).conn.state = .established)
    (data : Bytes) (srcIp : IpAddr) (h : Unacceptable (t i).conn data) :
    Unmoved (t i).conn ((handleTcp t data srcIp).1 i).conn ↔
      (Reaches t data srcIp i → (tcpHeader data).flags &&& tcpRst = 0 ∧
        (tcpHeader data).flags &&& tcpFin = 0 ∧
        ((tcpHeader data).seqNum = (t i).conn.rcvNxt → (t i).conn.rxRing.freeSpace = 0)) := by
  by_cases hreach : Reaches t data srcIp i
  · rw [handleTcp_of_reaches hreach, Conns.setConn_self, unmoved_handleConnSegment_iff hs]
    -- a segment without payload has a long enough header, so it is outside the window
    have hdata : (data.drop (tcpHeader data).dataOff ≠ [] →
        (tcpHeader data).seqNum = (t i).conn.rcvNxt → (t i).conn.rxRing.freeSpace = 0) ↔
        ((tcpHeader data).seqNum = (t i).conn.rcvNxt → (t i).conn.rxRing.freeSpace = 0) := by
      refine ⟨fun hfull hseq => hfull ?_ hseq, fun hfull _ => hfull⟩
      rcases h with hshort | hout
      · have hlen := hreach.1
        rw [Ne, List.drop_eq_nil_iff]
        omega
      · rw [hseq, UInt32.sub_self] at hout
        exact absurd hout (Nat.not_lt_zero _)
    rw [hdata]
    exact ⟨fun h _ => h, fun h => h hreach⟩
  · rw [conn_handleTcp hreach]
    exact iff_of_true ⟨rfl, rfl, rfl⟩ fun hr => absurd hr hreach

/-- A segment without payload, as it arrives. -/
def segmentBytes (srcPort dstPort seq ack : ℕ) (flags : UInt8) (window : ℕ) : Bytes :=
  beBytes 2 srcPort ++ beBytes 2 dstPort ++ beBytes 4 seq ++ beBytes 4 ack ++
    [0x50, flags] ++ beBytes 2 window ++ [0, 0, 0, 0]

/-- One open connection that expects the number 1001. -/
def openTable : Conns := fun i =>
  if i.val = 0 then Slot.of { TcpConn.new with
    state := .established, localPort := 49152, remotePort := 80, remoteIp := Vector.replicate 4 10,
    rcvNxt := 1001 }
  else Slot.of .new

/-- An old acknowledgement leaves the connection unmoved. -/
theorem unmoved_openTable :
    Unmoved (openTable 0).conn ((handleTcp openTable
      (segmentBytes 80 49152 500 0 tcpAck 4096) (Vector.replicate 4 10)).1 0).conn :=
  (unmoved_iff openTable 0 (by decide +kernel) (segmentBytes 80 49152 500 0 tcpAck 4096)
    (Vector.replicate 4 10) (by decide +kernel)).mpr (by decide +kernel)

/-- A RST with a number outside the window closes the connection. -/
theorem not_unmoved_rst :
    (openTable 0).conn.state = .established ∧
      Unacceptable (openTable 0).conn (segmentBytes 80 49152 500 0 tcpRst 4096) ∧
      ¬ Unmoved (openTable 0).conn ((handleTcp openTable
        (segmentBytes 80 49152 500 0 tcpRst 4096) (Vector.replicate 4 10)).1 0).conn := by
  decide +kernel

end Aeterna.Net
