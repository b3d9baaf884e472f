import Aeterna.Net.TcpReceiver
import Aeterna.Net.TcpSender

/-!
# The two ends of a connection

A program that sends and a program that receives, each over this stack, and a network between them
that loses, repeats and reorders segments: `wire` is everything that the sending end has sent, and
any of it may arrive at any time. What arrives at the sending end is arbitrary.

What the one program has received is at every moment the front of what the other has sent
(`received_front_run`).
-/

namespace Aeterna.Net

open Endpoint (Action)

/-- Only a chunk or a retransmission carries data, and neither carries a SYN. -/
theorem Endpoint.flags_of_data {e : Endpoint} {a : Action} {seg : Segment}
    (hseg : seg ∈ (e.step a).segs) (hne : seg.payload ≠ []) :
    a = .proceed ∧ seg.flags = tcpPsh ||| tcpAck := by
  have none {segs : List Segment} (hsegs : TcpConn.NoData segs) (h : seg ∈ segs) : False :=
    hne (hsegs seg h)
  cases a with
  | segment seq ack flags window payload =>
    simp only [step, deliver] at hseg
    split_ifs at hseg
    · exact absurd hseg List.not_mem_nil
    · exact (none (e.conn.answers_handleConnSegment seq ack flags window payload).2 hseg).elim
  | elapse ticks => exact absurd hseg List.not_mem_nil
  | request r =>
    simp only [step] at hseg
    split_ifs at hseg
    · exact (none (Session.noData_begin e r) hseg).elim
    · exact absurd hseg List.not_mem_nil
  | proceed =>
    refine ⟨rfl, ?_⟩
    change seg ∈ e.proceed.segs at hseg
    obtain ⟨-, ⟨mss, sent, rest, hcall, -, -⟩ | ⟨hre, -, -, -⟩⟩ := Session.proceed_data hseg hne
    · simp only [proceed, hcall, sendChunk] at hseg
      split_ifs at hseg
      · exact absurd hseg List.not_mem_nil
      · rw [TcpConn.eq_of_mem_sendTcpSegment hseg]
        rfl
    · unfold Session.retransmits at hre
      split at hre
      case h_2 => exact absurd hre (by decide)
      case h_1 size deadline hcall =>
        -- the two states in which `tcp_recv` gets to its retransmission
        have sent {e : Endpoint} (h : seg ∈ (e.recvRetransmit size deadline).segs) :
            seg.flags = tcpPsh ||| tcpAck := by
          unfold recvRetransmit at h
          split_ifs at h
          · rw [TcpConn.eq_of_mem_sendTcpSegment h]
            rfl
          · exact (none (Session.noData_recvDeadline _ _ _) h).elim
        simp only [proceed, hcall, recvPass] at hseg
        split_ifs at hseg
        · exact absurd hseg List.not_mem_nil
        · split at hseg
          case h_1 => exact sent hseg
          case h_2 => exact sent hseg
          all_goals exact absurd hseg List.not_mem_nil

/-- Only a SYN that answers `tcp_connect` sets the peer's first number. -/
theorem TcpConn.handleConnSegment_rcvIrs {c : TcpConn} (hs : c.state ≠ .synSent) (seq ack : UInt32)
    (flags : UInt8) (window : UInt16) (payload : Bytes) :
    let c' := (c.handleConnSegment seq ack flags window payload).1
    c'.rcvIrs = c.rcvIrs ∧ c'.state ≠ .synSent ∧
      (c'.state = .established ∨ c'.state = .synReceived →
        c.state = .established ∨ c.state = .synReceived) := by
  unfold handleConnSegment
  cases hc : c.state with
  | synSent => exact absurd hc hs
  | established =>
    simp only [handleEstablished, takeAck, takeData]
    split_ifs <;> simp [takeFin, hc]
  | _ =>
    dsimp only
    split_ifs <;> simp [takeFin, hc]

/-! ## The system -/

structure Conversation where
  left : Session
  right : Receiver
  /-- what the left end has sent -/
  wire : List Segment

namespace Conversation

inductive Event where
  | left (a : Action)
  | right (a : Action)
  /-- the network delivers a segment to the right end -/
  | deliver (seg : Segment)

def arrival (seg : Segment) : Action :=
  .segment seg.seq seg.ack seg.flags seg.window seg.payload

def step (s : Conversation) : Event → Conversation
  | .left a => ⟨s.left.step a, s.right, s.wire ++ (s.left.endpoint.step a).segs⟩
  | .right a => { s with right := s.right.step a }
  | .deliver seg => { s with right := s.right.step (arrival seg) }

/-- `tcp_connect` on the left has sent its SYN, and `tcp_accept` on the right has taken it. -/
def start (clientIp serverIp : IpAddr) (clientPort serverPort : UInt16) (iss iss' : UInt32) :
    Conversation :=
  let connect := Action.request (.connect serverIp clientPort serverPort iss)
  ⟨Session.new.step connect,
    Receiver.boot.step (.request (.accept clientIp serverPort clientPort iss iss')),
    (Endpoint.new.step connect).segs⟩

/-- The left end acts as long as its slot holds the connection, resends all that is outstanding if
it resends, and sends less than 4 GiB. The right end does not open another connection, and only
what was sent arrives there. -/
def Allowed (iss : UInt32) (s : Conversation) : Event → Prop
  | .left a => s.left.endpoint.conn.sndIss = iss ∧ ¬ Receiver.Opens s.left.endpoint a ∧
      s.left.ResendsAll a ∧ (s.left.step a).stream.length < 2 ^ 32
  | .right (.segment ..) => False
  | .right a => ¬ Receiver.Opens s.right.endpoint a
  | .deliver seg => seg ∈ s.wire

/-- The peer's first number is `iss` as long as data are taken. -/
def Expects (iss : UInt32) (c : TcpConn) : Prop :=
  c.state ≠ .synSent ∧ (c.state = .established ∨ c.state = .synReceived → c.rcvIrs = iss)

/-- What is on the wire carries the stream, and the right end takes it by the left end's first
number. -/
structure Inv (iss : UInt32) (s : Conversation) : Prop where
  sender : Session.SenderInv s.left.endpoint s.left.stream
  short : s.left.stream.length < 2 ^ 32
  carried : ∀ seg ∈ s.wire, Genuine s.left.stream iss seg.seq seg.flags seg.payload
  receiver : Receiver.Inv (fun _ => s.left.stream) s.right
  expects : Expects iss s.right.endpoint.conn

variable {iss : UInt32} {s : Conversation}

theorem stream_front {s : Session} {a : Action} (ho : ¬ Receiver.Opens s.endpoint a) :
    s.stream <+: (s.step a).stream := by
  show s.stream <+: s.streamAfter a
  unfold Session.streamAfter
  split
  · split_ifs
    · exact List.prefix_append _ _
    · exact List.prefix_refl _
  · exact (if_neg ho).symm ▸ List.prefix_refl _
  · exact (if_neg ho).symm ▸ List.prefix_refl _
  · exact List.prefix_refl _

theorem Inv.left (h : Inv iss s) {a : Action} (ha : s.Allowed iss (.left a)) :
    Inv iss (s.step (.left a)) := by
  obtain ⟨hiss, hopen, hall, hshort⟩ := ha
  have hfront := stream_front hopen
  have hreceiver := h.receiver.2
  refine ⟨h.sender.step a, hshort, fun seg hseg hne => ?_,
    ⟨h.receiver.1, { hreceiver with front := hreceiver.front.trans hfront }⟩, h.expects⟩
  rcases List.mem_append.mp hseg with hold | hnew
  · obtain ⟨hsyn, o, ho, hseq, hpayload⟩ := h.carried seg hold hne
    exact ⟨hsyn, o, ho.trans hfront.length_le, hseq, hpayload.trans (hfront.drop o)⟩
  · obtain ⟨rfl, hflags⟩ := Endpoint.flags_of_data hnew hne
    have hcarries := Session.senderIntegrity_step h.sender .proceed hall seg hnew hne
    have hkept := (Session.proceed_data hnew hne).1.trans hiss
    rw [show (s.left.step .proceed).endpoint.conn.sndIss = iss from hkept] at hcarries
    exact ⟨hflags ▸ rfl, hcarries⟩

theorem Expects.call {e : Endpoint} {o : Outcome} (h : Expects iss e.conn) (hleaves : e.call.Leaves)
    (ho : e.CallStep o) : Expects iss o.endpoint.conn := by
  cases ho with
  | keep t hconn _ _ => exact hconn ▸ h
  | read size hconn _ _ => exact hconn ▸ h
  | store _ hconn _ _ => exact hconn ▸ h
  | reset hconn _ _ => exact hconn ▸ ⟨nofun, by simp [TcpConn.new]⟩
  | fin he hconn _ _ =>
    rw [he] at hleaves
    rw [hconn]
    exact ⟨hleaves.2.2, fun hs => (hs.elim hleaves.1 hleaves.2.1).elim⟩

theorem Inv.right (h : Inv iss s) {a : Action} (ha : s.Allowed iss (.right a)) :
    Inv iss (s.step (.right a)) := by
  obtain ⟨hopen, hcall⟩ : ¬ Receiver.Opens s.right.endpoint a ∧
      s.right.endpoint.CallStep (s.right.endpoint.step a) := by
    cases a with
    | segment => exact ha.elim
    | elapse ticks => exact ⟨ha, Endpoint.callStep_elapse _ ticks⟩
    | request r => exact ⟨ha, Receiver.callStep_of_not_opens r ha⟩
    | proceed => exact ⟨ha, Endpoint.callStep_proceed _⟩
  have hstep : s.right.step a = ⟨(s.right.endpoint.step a).endpoint, s.right.opened,
      s.right.received ++ (s.right.endpoint.step a).bytes⟩ := if_neg hopen
  refine ⟨h.sender, h.short, h.carried, ?_, ?_⟩
  · show Receiver.Inv _ (s.right.step a)
    rw [hstep]
    exact h.receiver.call hcall
  · show Expects iss (s.right.step a).endpoint.conn
    rw [hstep]
    exact h.expects.call h.receiver.1 hcall

theorem Inv.deliver (h : Inv iss s) {seg : Segment} (hseg : seg ∈ s.wire) :
    Inv iss (s.step (.deliver seg)) := by
  refine ⟨h.sender, h.short, h.carried, ?_, ?_⟩
  · refine h.receiver.step (fun _ => h.short) _ fun hs => ?_
    rw [h.expects.2 (Or.inl hs)]
    exact h.carried seg hseg
  · show Expects iss (s.right.endpoint.deliver ..).endpoint.conn
    unfold Endpoint.deliver
    split_ifs
    · exact h.expects
    · obtain ⟨hirs, hstate, hopen⟩ := TcpConn.handleConnSegment_rcvIrs h.expects.1 seg.seq seg.ack
        seg.flags seg.window seg.payload
      exact ⟨hstate, fun hs => hirs.trans (h.expects.2 (hopen hs))⟩

theorem Inv.step (h : Inv iss s) (event : Event) (ha : s.Allowed iss event) :
    Inv iss (s.step event) := by
  cases event with
  | left a => exact h.left ha
  | right a => exact h.right ha
  | deliver seg => exact h.deliver ha

theorem inv_start (clientIp serverIp : IpAddr) (clientPort serverPort : UInt16)
    (iss iss' : UInt32) : Inv iss (start clientIp serverIp clientPort serverPort iss iss') where
  sender := Session.senderInv_new.step _
  short := Nat.two_pow_pos 32
  carried seg hseg hne := absurd (TcpConn.noData_synSegment _ seg hseg) hne
  receiver := Receiver.Inv.opens (s := .boot)
    (.request (.accept clientIp serverPort clientPort iss iss')) (And.intro rfl rfl)
  expects := ⟨nofun, fun _ => rfl⟩

/-- **End to end.** Whatever the network loses, repeats or reorders and whatever arrives at the
sending end, the bytes that the receiving program has got are at every moment the front of those
that the sending program has sent. -/
theorem received_front_run (clientIp serverIp : IpAddr) (clientPort serverPort : UInt16)
    (iss iss' : UInt32) (events : List Event)
    (h : Lib.EachStep step (Allowed iss)
      (start clientIp serverIp clientPort serverPort iss iss') events) :
    Lib.Always step (fun s => s.right.received <+: s.left.stream)
      (start clientIp serverIp clientPort serverPort iss iss') events :=
  (Lib.always_of_eachStep (inv_start ..) (fun _ event hs ha => hs.step event ha) h).imp
    fun _ hs => hs.receiver.2.received_front

instance (iss : UInt32) (s : Conversation) : DecidablePred (s.Allowed iss)
  | .left _ => inferInstanceAs (Decidable (_ ∧ _ ∧ _ ∧ _))
  | .right (.segment ..) => inferInstanceAs (Decidable False)
  | .right (.elapse _) | .right (.request _) | .right .proceed => inferInstanceAs (Decidable ¬ _)
  | .deliver _ => inferInstanceAs (Decidable (_ ∈ _))

/-- The handshake, a byte that arrives twice, and a `tcp_recv`. -/
def repeated : List Event :=
  let sent (flags : UInt8) (payload : Bytes) : Event :=
    .deliver ⟨.replicate 4 2, 49152, 80, 0x10001, 0x8001, flags, 8192, payload⟩
  [.left .proceed, .left (.segment 0x8000 0x10001 0x12 1 []), .left .proceed, sent 0x10 [],
    .left (.request (.send [7])), .left .proceed, sent 0x18 [7], sent 0x18 [7], .right .proceed,
    .right .proceed, .right (.request (.recv 9 5)), .right .proceed]

theorem received_front_repeated :
    (Lib.run step (start (.replicate 4 1) (.replicate 4 2) 49152 80 0x10000 0x8000)
      repeated).right.received = [7] ∧
    Lib.Always step (fun s => s.right.received <+: s.left.stream)
      (start (.replicate 4 1) (.replicate 4 2) 49152 80 0x10000 0x8000) repeated :=
  ⟨by decide +kernel, received_front_run _ _ _ _ _ _ _ (by decide +kernel)⟩

end Conversation

end Aeterna.Net
