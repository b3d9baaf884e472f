import Aeterna.Net.TcpReceiver

/-!
# The end of the peer's stream

`tcp_recv` answers `Ok(0)` once the ring is empty and the peer has closed. The FIN of a segment is
taken whatever its sequence number is and however little of its payload has fitted the ring, so the
answer can come while bytes of the peer are missing (`not_truthful_overtakenFin`). It comes at the end
of the stream in runs where every FIN arrives with all the bytes before it, and `tcp_recv` is given
a buffer (`truthful_run`).
-/

namespace Aeterna.Net

/-- The peer's FIN has been taken. -/
def TcpConn.PeerClosed (c : TcpConn) : Prop :=
  c.state = .closeWait ∨ c.state = .lastAck ∨ c.state = .timeWait

instance (c : TcpConn) : Decidable c.PeerClosed := inferInstanceAs (Decidable (_ ∨ _ ∨ _))

/-- `tcp_recv` is at the head of its loop. -/
def Call.Receives : Call → Prop
  | .receiving .. => True
  | _ => False

/-- `tcp_close` waits. -/
def Call.Closes : Call → Prop
  | .closing .. => True
  | _ => False

/-- A FIN that has been sent leaves for one of two states, and `tcp_recv` has a buffer. -/
def Call.Proper : Call → Prop
  | .finSent state => state = .finWait1 ∨ state = .lastAck
  | .receiving size _ | .resent size _ => 0 < size
  | _ => True

instance : DecidablePred Call.Receives := fun call => by
  unfold Call.Receives
  split <;> infer_instance

/-! ## The calls -/

theorem Call.Next.proper {call call' : Call} (h : call.Next call') (hcall : call.Proper)
    (hrecv : ∀ size deadline, call = .idle → call' = .receiving size deadline → 0 < size) :
    call'.Proper := by
  cases h with
  | stay => exact hcall
  | recv size deadline => exact hrecv size deadline rfl rfl
  | fin hstate => exact hstate
  | again size deadline => exact hcall
  | _ => exact trivial

theorem Call.Next.closes {call call' : Call} (h : call.Next call') (hcall : call.Closes) :
    call'.Closes := by
  cases h with
  | stay => exact hcall
  | @finish call hfin =>
    cases call with
    | closing => exact absurd trivial hfin
    | _ => exact hcall.elim
  | _ => exact hcall.elim

namespace Endpoint

variable {e : Endpoint} {o : Outcome}

theorem CallStep.proper (h : e.CallStep o) (hcall : e.call.Proper)
    (hrecv : ∀ size deadline, e.call = .idle → o.endpoint.call = .receiving size deadline →
      0 < size) : o.endpoint.call.Proper := by
  cases h with
  | keep t hconn hnext hbytes => exact hnext.proper hcall hrecv
  | read size hconn hnext hbytes =>
    rcases hnext with ⟨-, hidle⟩ | ⟨deadline, hrec, hidle | hagain | hresent⟩
    · rw [hidle]
      exact trivial
    · rw [hidle]
      exact trivial
    · rw [hrec] at hcall
      rw [hagain]
      exact hcall
    · rw [hrec] at hcall
      rw [hresent]
      exact hcall
  | reset hconn hidle hbytes =>
    rw [hidle]
    exact trivial
  | store he hconn hsend hbytes =>
    rw [hsend]
    exact trivial
  | fin he hconn hclose hbytes =>
    rw [hclose]
    exact trivial

theorem CallStep.state (h : e.CallStep o) (hcall : e.call.Proper) :
    o.endpoint.conn.state = e.conn.state ∧ (e.call.Closes → o.endpoint.call.Closes) ∨
      o.endpoint.conn.state = .closed ∨
      o.endpoint.call.Closes ∧ o.endpoint.conn.state ≠ .closeWait := by
  cases h with
  | keep t hconn hnext hbytes =>
    rw [hconn]
    exact Or.inl ⟨rfl, hnext.closes⟩
  | read size hconn hnext hbytes =>
    rw [hconn]
    refine Or.inl ⟨rfl, fun hcloses => ?_⟩
    rcases hnext with ⟨hidle, -⟩ | ⟨deadline, hrec, -⟩
    · rw [hidle] at hcloses
      exact hcloses.elim
    · rw [hrec] at hcloses
      exact hcloses.elim
  | reset hconn hidle hbytes =>
    rw [hconn]
    exact Or.inr (Or.inl rfl)
  | store he hconn hsend hbytes =>
    rw [hconn, he]
    exact Or.inl ⟨rfl, fun hcloses => hcloses.elim⟩
  | fin he hconn hclose hbytes =>
    rw [he] at hcall
    rw [hconn, hclose]
    refine Or.inr (Or.inr ⟨trivial, ?_⟩)
    rcases hcall with rfl | rfl <;> exact nofun

end Endpoint

/-! ## Complete streams -/

theorem RxRing.contents_of_read_eq_nil {r : RxRing} (h : r.Ok) {size : ℕ} (hsize : 0 < size)
    (hread : (r.read size).2 = []) : r.contents = [] := by
  have hout : (r.read size).2 = Lib.Ring.window rxBufSize r.buf r.tail (min size r.len) :=
    (RxRing.takeMany_spec h.tail_lt _).1
  have hlen := congrArg List.length (hout.symm.trans hread)
  rw [Lib.Ring.length_window, List.length_nil] at hlen
  rw [← List.length_eq_zero_iff, RxRing.length_contents]
  omega

variable {stream received : Bytes} {c : TcpConn}

/-- A connection that expects the number after the stream has all of it. -/
theorem ReceiverInv.complete_of_next (h : ReceiverInv stream c received)
    (hlen : stream.length < 2 ^ 32) (hs : c.state = .established)
    (hnxt : c.rcvNxt = c.rcvIrs + 1 + UInt32.ofNat stream.length) :
    received ++ c.rxRing.contents = stream := by
  have hle := h.front.length_le
  have hsize : UInt32.size = 2 ^ 32 := rfl
  rw [h.aligned (Or.inl hs), UInt32.add_right_inj] at hnxt
  have hnat := congrArg UInt32.toNat hnxt
  rw [UInt32.toNat_ofNat_of_lt' (by omega), UInt32.toNat_ofNat_of_lt' (by omega)] at hnat
  exact h.front.eq_of_length hnat

/-- A segment with the end of the stream in it completes what is there, if nothing before it is
missing and it fits the ring. -/
theorem ReceiverInv.complete_takeData (h : ReceiverInv stream c received)
    (hlen : stream.length < 2 ^ 32) (hs : c.state = .established) {seq : UInt32} {flags : UInt8}
    {payload : Bytes} (hp : Genuine stream c.rcvIrs seq flags payload)
    (hend : seq + UInt32.ofNat payload.length = c.rcvIrs + 1 + UInt32.ofNat stream.length)
    (hfits : seq + UInt32.ofNat payload.length = c.rcvNxt ∨
      seq = c.rcvNxt ∧ payload.length ≤ c.rxRing.freeSpace) :
    received ++ (c.takeData seq payload).1.rxRing.contents = stream := by
  have hafter := h.takeData hlen hs hp
  rcases hfits with hall | ⟨hseq, hfree⟩
  · have hbefore := h.complete_of_next hlen hs (hall.symm.trans hend)
    have hgrows : received ++ c.rxRing.contents <+:
        received ++ (c.takeData seq payload).1.rxRing.contents := by
      unfold TcpConn.takeData
      split_ifs
      · rw [List.prefix_append_right_inj]
        exact ⟨_, ((RxRing.write_spec h.ring payload).2.2).symm⟩
      · exact List.prefix_rfl
    rw [hbefore] at hgrows
    exact (hafter.front.eq_of_length_le hgrows.length_le)
  · by_cases hne : payload = []
    · subst hne
      have hnxt : c.rcvNxt = c.rcvIrs + 1 + UInt32.ofNat stream.length := by
        rw [← hend, ← hseq]
        exact (UInt32.add_zero seq).symm
      exact h.complete_of_next hlen hs hnxt
    · have htaken : (c.takeData seq payload).1.state = .established ∧
          (c.takeData seq payload).1.rcvIrs = c.rcvIrs ∧
          (c.takeData seq payload).1.rcvNxt = seq + UInt32.ofNat payload.length := by
        have hwritten : (c.rxRing.write payload).2 = payload.length := by
          rw [(RxRing.write_spec h.ring payload).2.1, Nat.min_eq_left hfree]
        unfold TcpConn.takeData
        rw [if_pos ⟨hne, hseq⟩]
        refine ⟨hs, rfl, ?_⟩
        show c.rcvNxt + UInt32.ofNat (c.rxRing.write payload).2 = _
        rw [hwritten, hseq]
      refine hafter.complete_of_next hlen htaken.1 ?_
      rw [htaken.2.2, htaken.2.1, hend]

/-! ## Arriving segments -/

def TcpState.Leaving (s : TcpState) : Prop :=
  s = .finWait1 ∨ s = .finWait2 ∨ s = .lastAck ∨ s = .timeWait

instance : DecidablePred TcpState.Leaving := fun _ => inferInstanceAs (Decidable (_ ∨ _ ∨ _ ∨ _))

theorem handleConnSegment_state (hs : c.state ≠ .established) (seq ack : UInt32) (flags : UInt8)
    (window : UInt16) (payload : Bytes) :
    (c.handleConnSegment seq ack flags window payload).1.state = .closed ∨
      (c.handleConnSegment seq ack flags window payload).1.state = .established ∨
      (c.handleConnSegment seq ack flags window payload).1.state = c.state ∧
        (c.handleConnSegment seq ack flags window payload).1.rxRing = c.rxRing ∨
      c.state.Leaving ∧ (c.handleConnSegment seq ack flags window payload).1.state.Leaving := by
  unfold TcpConn.handleConnSegment
  dsimp only
  by_cases hrst : (flags &&& tcpRst != 0) = true
  · rw [if_pos hrst]
    exact Or.inl rfl
  rw [if_neg hrst]
  cases hc : c.state with
  | established => exact absurd hc hs
  | synSent =>
    dsimp only
    split_ifs
    · exact Or.inr (Or.inl rfl)
    · exact Or.inl rfl
    · exact Or.inr (Or.inr (Or.inl ⟨hc, rfl⟩))
  | synReceived =>
    dsimp only
    split_ifs
    · exact Or.inr (Or.inl rfl)
    · exact Or.inr (Or.inr (Or.inl ⟨hc, rfl⟩))
  | finWait1 =>
    have hleaving : TcpState.finWait1.Leaving := Or.inl rfl
    dsimp only
    split_ifs
    · exact Or.inr (Or.inr (Or.inr ⟨hleaving, Or.inr (Or.inr (Or.inr rfl))⟩))
    · exact Or.inr (Or.inr (Or.inr ⟨hleaving, Or.inr (Or.inl rfl)⟩))
    · exact Or.inr (Or.inr (Or.inr ⟨hleaving, Or.inr (Or.inr (Or.inr rfl))⟩))
    · exact Or.inr (Or.inr (Or.inl ⟨hc, rfl⟩))
  | finWait2 =>
    dsimp only
    split_ifs
    · exact Or.inr (Or.inr (Or.inr ⟨Or.inr (Or.inl rfl), Or.inr (Or.inr (Or.inr rfl))⟩))
    · exact Or.inr (Or.inr (Or.inl ⟨hc, rfl⟩))
  | lastAck =>
    dsimp only
    split_ifs
    · exact Or.inl rfl
    · exact Or.inr (Or.inr (Or.inl ⟨hc, rfl⟩))
  | timeWait => exact Or.inl rfl
  | closeWait =>
    dsimp only
    split_ifs
    · exact Or.inr (Or.inr (Or.inl ⟨rfl, rfl⟩))
    · exact Or.inr (Or.inr (Or.inl ⟨hc, rfl⟩))
  | closed => exact Or.inl hc
  | listen => exact Or.inr (Or.inr (Or.inl ⟨hc, rfl⟩))

/-! ## Runs -/

namespace Receiver

open Endpoint (Action)

/-- A segment on an open connection is its peer's: it carries bytes of the peer's stream, its FIN
stands at the end of the stream, and it is no RST. -/
def PeerStep (streams : ℕ → Bytes) (s : Receiver) : Action → Prop
  | .segment seq _ flags _ payload => s.endpoint.conn.state = .established →
      Genuine (streams s.opened) s.endpoint.conn.rcvIrs seq flags payload ∧
      flags &&& tcpRst = 0 ∧
      (flags &&& tcpFin ≠ 0 → seq + UInt32.ofNat payload.length =
        s.endpoint.conn.rcvIrs + 1 + UInt32.ofNat (streams s.opened).length)
  | _ => True

/-- A FIN comes when nothing before it is missing and what comes with it fits the ring, and
`tcp_recv` is given a buffer. -/
def FinInOrder (s : Receiver) : Action → Prop
  | .segment seq _ flags _ payload => s.endpoint.conn.state = .established →
      flags &&& tcpFin ≠ 0 → seq + UInt32.ofNat payload.length = s.endpoint.conn.rcvNxt ∨
        seq = s.endpoint.conn.rcvNxt ∧ payload.length ≤ s.endpoint.conn.rxRing.freeSpace
  | .request (.recv size _) => 0 < size
  | _ => True

/-- When `tcp_recv` answers that the peer has closed, all of the peer's stream has been received. -/
def Truthful (streams : ℕ → Bytes) (s : Receiver) : Action → Prop
  | .proceed => s.endpoint.call.Receives → s.endpoint.proceed.reply = some (.received []) →
      s.endpoint.conn.PeerClosed → s.received = streams s.opened
  | _ => True

instance (streams : ℕ → Bytes) (s : Receiver) : DecidablePred (PeerStep streams s)
  | .segment .. => inferInstanceAs (Decidable (_ → _))
  | .elapse _ | .request _ | .proceed => inferInstanceAs (Decidable True)

instance (s : Receiver) : DecidablePred (FinInOrder s)
  | .segment .. => inferInstanceAs (Decidable (_ → _))
  | .request (.recv ..) => inferInstanceAs (Decidable (_ < _))
  | .request (.connect ..) | .request (.accept ..) | .request (.send _) | .request (.recvNb _)
  | .request .close | .elapse _ | .proceed => inferInstanceAs (Decidable True)

instance (streams : ℕ → Bytes) (s : Receiver) : DecidablePred (Truthful streams s) :=
  fun a => by
    unfold Truthful
    split <;> infer_instance

structure CloseInv (streams : ℕ → Bytes) (s : Receiver) : Prop where
  inv : Inv streams s
  proper : s.endpoint.call.Proper
  complete : s.endpoint.conn.state = .closeWait →
    s.received ++ s.endpoint.conn.rxRing.contents = streams s.opened
  leaving : s.endpoint.conn.state.Leaving → s.endpoint.call.Closes

variable {streams : ℕ → Bytes} {s : Receiver}

theorem closeInv_boot : CloseInv streams boot where
  inv := inv_boot
  proper := trivial
  complete h := TcpState.noConfusion h
  leaving h := absurd h (by decide)

theorem closeInv_opens {a : Action} (ho : Opens s.endpoint a) : CloseInv streams (s.step a) := by
  have hinv : Inv streams (s.step a) := Inv.opens a ho
  have hopened : (s.step a).endpoint.call.Proper ∧
      ((s.step a).endpoint.conn.state = .synSent ∨
        (s.step a).endpoint.conn.state = .synReceived) := by
    unfold step
    rw [if_pos ho]
    unfold Opens at ho
    split at ho
    · dsimp only [Endpoint.step, Endpoint.begin]
      rw [if_pos ho.1, if_pos ho.2]
      exact ⟨trivial, Or.inl rfl⟩
    · dsimp only [Endpoint.step, Endpoint.begin]
      rw [if_pos ho.1, if_pos ho.2]
      exact ⟨trivial, Or.inr rfl⟩
    · exact ho.elim
  obtain ⟨hproper, hstate⟩ := hopened
  refine ⟨hinv, hproper, fun hc => ?_, fun hl => ?_⟩
  · rcases hstate with hs | hs <;> rw [hs] at hc <;> exact TcpState.noConfusion hc
  · rcases hstate with hs | hs <;> rw [hs] at hl <;> exact absurd hl (by decide)

theorem recv_of_receiving {r : Request} {size : ℕ} {deadline : UInt64}
    (hidle : s.endpoint.call = .idle)
    (hcall : (s.endpoint.step (.request r)).endpoint.call = .receiving size deadline)
    (hfin : FinInOrder s (.request r)) : 0 < size := by
  dsimp only [Endpoint.step] at hcall
  rw [if_pos hidle] at hcall
  cases r with
  | recv size' ticks =>
    obtain ⟨rfl, -⟩ := Call.receiving.inj hcall
    exact hfin
  | connect dstIp localPort dstPort iss =>
    dsimp only [Endpoint.begin] at hcall
    split_ifs at hcall <;> exact Call.noConfusion hcall
  | accept clientIp listenPort clientPort clientIrs iss =>
    dsimp only [Endpoint.begin] at hcall
    split_ifs at hcall <;> exact Call.noConfusion hcall
  | send data =>
    dsimp only [Endpoint.begin, Endpoint.beginSend] at hcall
    split at hcall
    · split_ifs at hcall <;> exact Call.noConfusion hcall
    · split_ifs at hcall <;> exact Call.noConfusion hcall
    · exact Call.noConfusion hcall
  | recvNb size' =>
    dsimp only [Endpoint.begin, Endpoint.recvNb] at hcall
    split_ifs at hcall
    · exact Call.noConfusion hcall
    · split at hcall <;> exact Call.noConfusion hcall
  | close =>
    dsimp only [Endpoint.begin, Endpoint.beginClose] at hcall
    split at hcall <;> exact Call.noConfusion hcall

theorem CloseInv.call (h : CloseInv streams s) {o : Outcome} (ho : s.endpoint.CallStep o)
    (hrecv : ∀ size deadline, s.endpoint.call = .idle →
      o.endpoint.call = .receiving size deadline → 0 < size) :
    CloseInv streams ⟨o.endpoint, s.opened, s.received ++ o.bytes⟩ := by
  refine ⟨h.inv.call ho, ho.proper h.proper hrecv, fun hc => ?_, fun hl => ?_⟩
  · have hbefore : s.endpoint.conn.state = .closeWait := by
      rcases ho.state h.proper with ⟨hsame, -⟩ | hclosed | ⟨-, hne⟩
      · exact hsame ▸ hc
      · exact TcpState.noConfusion (hclosed.symm.trans hc)
      · exact absurd hc hne
    have hall := h.complete hbefore
    cases ho with
    | keep t hconn hcall hbytes => rw [hbytes, hconn, List.append_nil, hall]
    | read size hconn hcall hbytes =>
      rw [hbytes, hconn, List.append_assoc, (RxRing.read_spec h.inv.2.ring size).2, hall]
    | reset hconn hcall hbytes =>
      rw [hconn] at hc
      exact TcpState.noConfusion hc
    | store he hconn hcall hbytes =>
      rw [hbytes, hconn, List.append_nil]
      exact hall
    | fin he hconn hcall hbytes => rw [hbytes, hconn, List.append_nil, hall]
  · rcases ho.state h.proper with ⟨hsame, hcloses⟩ | hclosed | ⟨hcloses, -⟩
    · exact hcloses (h.leaving (hsame ▸ hl))
    · rw [hclosed] at hl
      exact absurd hl (by decide)
    · exact hcloses

theorem CloseInv.established (h : CloseInv streams s) (hlen : ∀ k, (streams k).length < 2 ^ 32)
    (hs : s.endpoint.conn.state = .established) {seq ack : UInt32} {flags : UInt8}
    {window : UInt16} {payload : Bytes}
    (ha : PeerStep streams s (.segment seq ack flags window payload))
    (hfin : FinInOrder s (.segment seq ack flags window payload)) :
    let c := (s.endpoint.conn.handleConnSegment seq ack flags window payload).1
    (c.state = .closeWait → s.received ++ c.rxRing.contents = streams s.opened) ∧
      ¬ c.state.Leaving := by
  obtain ⟨hp, hrst, hend⟩ := ha hs
  have hack := h.inv.2.keep (s.endpoint.conn.keepsReceiver_takeAck ack (flags &&& tcpAck != 0) window)
  have hstate : (s.endpoint.conn.takeAck ack (flags &&& tcpAck != 0) window).state = .established ∧
      (s.endpoint.conn.takeAck ack (flags &&& tcpAck != 0) window).rcvIrs =
        s.endpoint.conn.rcvIrs ∧
      (s.endpoint.conn.takeAck ack (flags &&& tcpAck != 0) window).rcvNxt =
        s.endpoint.conn.rcvNxt ∧
      (s.endpoint.conn.takeAck ack (flags &&& tcpAck != 0) window).rxRing =
        s.endpoint.conn.rxRing := by
    unfold TcpConn.takeAck
    split_ifs <;> exact ⟨hs, rfl, rfl, rfl⟩
  obtain ⟨hest, hirs, hnxt, hring⟩ := hstate
  have hdata : ((s.endpoint.conn.takeAck ack (flags &&& tcpAck != 0) window).takeData seq
      payload).1.state = .established := by
    unfold TcpConn.takeData
    split_ifs <;> exact hest
  intro c
  have hc : c = (s.endpoint.conn.handleEstablished seq ack (flags &&& tcpAck != 0)
      (flags &&& tcpFin != 0) window payload).1 :=
    congrArg Prod.fst (TcpConn.handleConnSegment_of_established hs seq ack window payload hrst)
  rw [hc]
  unfold TcpConn.handleEstablished
  dsimp only
  split_ifs with hisFin
  · have hflag : flags &&& tcpFin ≠ 0 := bne_iff_ne.mp hisFin
    refine ⟨fun _ => ?_, ?_⟩
    · refine hack.complete_takeData (hlen _) hest (hirs.symm ▸ hp) ?_ ?_
      · rw [hirs]
        exact hend hflag
      · rw [hnxt, hring]
        exact hfin hs hflag
    · show ¬ TcpState.closeWait.Leaving
      decide
  · rw [hdata]
    exact ⟨fun hcw => TcpState.noConfusion hcw, by decide⟩

theorem CloseInv.handle (h : CloseInv streams s) (hlen : ∀ k, (streams k).length < 2 ^ 32)
    {seq ack : UInt32} {flags : UInt8} {window : UInt16} {payload : Bytes}
    (ha : PeerStep streams s (.segment seq ack flags window payload))
    (hfin : FinInOrder s (.segment seq ack flags window payload)) :
    let c := (s.endpoint.conn.handleConnSegment seq ack flags window payload).1
    (c.state = .closeWait → s.received ++ c.rxRing.contents = streams s.opened) ∧
      (c.state.Leaving → s.endpoint.call.Closes) := by
  intro c
  by_cases hs : s.endpoint.conn.state = .established
  · obtain ⟨hcomplete, hleaving⟩ := h.established hlen hs ha hfin
    exact ⟨hcomplete, fun hl => absurd hl hleaving⟩
  have hcases : c.state = .closed ∨ c.state = .established ∨
      c.state = s.endpoint.conn.state ∧ c.rxRing = s.endpoint.conn.rxRing ∨
      s.endpoint.conn.state.Leaving ∧ c.state.Leaving :=
    handleConnSegment_state hs seq ack flags window payload
  rcases hcases with hst | hst | ⟨hst, hring⟩ | ⟨hbefore, hst⟩
  · rw [hst]
    exact ⟨fun hc => TcpState.noConfusion hc, fun hl => absurd hl (by decide)⟩
  · rw [hst]
    exact ⟨fun hc => TcpState.noConfusion hc, fun hl => absurd hl (by decide)⟩
  · rw [hst, hring]
    exact ⟨h.complete, h.leaving⟩
  · refine ⟨fun hc => ?_, fun _ => h.leaving hbefore⟩
    rw [hc] at hst
    exact absurd hst (by decide)

theorem CloseInv.segment (h : CloseInv streams s) (hlen : ∀ k, (streams k).length < 2 ^ 32)
    {seq ack : UInt32} {flags : UInt8} {window : UInt16} {payload : Bytes}
    (ha : PeerStep streams s (.segment seq ack flags window payload))
    (hfin : FinInOrder s (.segment seq ack flags window payload)) :
    CloseInv streams (s.step (.segment seq ack flags window payload)) := by
  have hinv := h.inv.step hlen (.segment seq ack flags window payload) fun hs => (ha hs).1
  have hnil : (s.endpoint.deliver seq ack flags window payload).bytes = [] := by
    unfold Endpoint.deliver
    split_ifs <;> rfl
  have hstep : s.step (.segment seq ack flags window payload) =
      ⟨(s.endpoint.deliver seq ack flags window payload).endpoint, s.opened, s.received⟩ := by
    unfold step
    rw [if_neg (show ¬ Opens _ (.segment ..) from id)]
    dsimp only [Endpoint.step]
    rw [hnil, List.append_nil]
  obtain ⟨hcomplete, hleaving⟩ := h.handle hlen ha hfin
  rw [hstep] at hinv ⊢
  unfold Endpoint.deliver at hinv ⊢
  split_ifs at hinv ⊢
  · exact ⟨hinv, h.proper, h.complete, h.leaving⟩
  · exact ⟨hinv, h.proper, hcomplete, hleaving⟩

theorem CloseInv.step (h : CloseInv streams s) (hlen : ∀ k, (streams k).length < 2 ^ 32)
    {a : Action} (ha : PeerStep streams s a) (hfin : FinInOrder s a) :
    CloseInv streams (s.step a) := by
  by_cases ho : Opens s.endpoint a
  · exact closeInv_opens ho
  cases a with
  | segment seq ack flags window payload => exact h.segment hlen ha hfin
  | elapse ticks =>
    refine h.call (Endpoint.callStep_elapse _ ticks) fun size deadline hidle hcall => ?_
    exact Call.noConfusion (hidle.symm.trans hcall)
  | request r =>
    unfold Receiver.step
    rw [if_neg ho]
    refine h.call (callStep_of_not_opens r ho) fun size deadline hidle hcall => ?_
    exact recv_of_receiving hidle hcall hfin
  | proceed =>
    refine h.call (Endpoint.callStep_proceed _) fun size deadline hidle hcall => ?_
    dsimp only [Endpoint.step, Endpoint.proceed] at hcall
    rw [hidle] at hcall
    exact Call.noConfusion hcall

theorem CloseInv.truthful (h : CloseInv streams s) (a : Action) : Truthful streams s a := by
  cases a with
  | proceed =>
    intro hcall hreply hpeer
    cases hc : s.endpoint.call with
    | receiving size deadline =>
      have hsize : 0 < size := by
        have hproper := h.proper
        rwa [hc] at hproper
      have hwait : s.endpoint.conn.state = .closeWait := by
        refine hpeer.resolve_right fun hl => ?_
        have hcloses := h.leaving (Or.inr (Or.inr hl))
        rw [hc] at hcloses
        exact hcloses
      -- the answer says that the read has found nothing
      have hread : (s.endpoint.conn.rxRing.read size).2 = [] := by
        unfold Endpoint.proceed at hreply
        rw [hc] at hreply
        dsimp only [Endpoint.recvPass] at hreply
        split_ifs at hreply with hout
        · exact Reply.received.inj (Option.some.inj hreply)
        · exact not_not.mp hout
      have hall := h.complete hwait
      rwa [RxRing.contents_of_read_eq_nil h.inv.2.ring hsize hread, List.append_nil] at hall
    | _ =>
      rw [hc] at hcall
      exact hcall.elim
  | _ => exact trivial

/-- **End of stream.** In runs with a genuine peer whose FIN comes in order, `tcp_recv` answers that
the peer has closed only when all of the peer's stream has been received. -/
theorem truthful_run (streams : ℕ → Bytes) (hlen : ∀ k, (streams k).length < 2 ^ 32)
    (as : List Action) (hpeer : Lib.EachStep step (PeerStep streams) boot as)
    (hfin : Lib.EachStep step FinInOrder boot as) :
    Lib.EachStep step (Truthful streams) boot as := by
  have hboth := Lib.eachStep_and hpeer hfin
  exact Lib.eachStep_of_eachStep closeInv_boot (fun s a h ha => h.step hlen ha.1 ha.2)
    (fun s a h _ => h.truthful a) hboth

/-- A handshake with a peer that sends `1, 2` and closes, and the segments of the peer in some order,
before the program receives. -/
def closingRun (segments : List Action) : List Action :=
  [.request (.connect (Vector.replicate 4 10) 49152 80 0x10000), .proceed,
    .segment 1000 0x10001 0x12 4096 [], .proceed] ++ segments ++
  [.request (.recv 8 10), .proceed, .request (.recv 8 10), .proceed]

/-- The FIN comes with the last byte, after the first one. -/
theorem truthful_closingRun :
    Lib.EachStep step (Truthful fun _ => [1, 2]) boot
      (closingRun [.segment 1001 0x10001 0x18 4096 [1], .segment 1002 0x10001 0x19 4096 [2]]) :=
  truthful_run (fun _ => [1, 2]) (fun _ => by decide) _ (by decide +kernel) (by decide +kernel)

/-- The FIN overtakes the data. -/
theorem not_truthful_overtakenFin :
    Lib.EachStep step (PeerStep fun _ => [1, 2]) boot
        (closingRun [.segment 1003 0x10001 0x11 4096 []]) ∧
      ¬ Lib.EachStep step (Truthful fun _ => [1, 2]) boot
        (closingRun [.segment 1003 0x10001 0x11 4096 []]) := by
  decide +kernel

end Receiver

end Aeterna.Net
