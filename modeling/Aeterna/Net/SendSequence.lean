import Aeterna.Net.Retention

/-!
# Send sequence numbers and the window of the peer

An acknowledgement moves `snd_una` within `[snd_iss, snd_nxt]` in every state but `CloseWait`, which
takes any number. Along a run `snd_una` stays in that range exactly when the acknowledgements that
arrive in `CloseWait` do (`always_inOrder_iff`).

`tcp_send` looks at the window once and counts nothing that is outstanding. Its segments lie in the
window when all the data of a call fits into what is left of it and the peer takes nothing back
before the call returns (`inWindow_run`).
-/

namespace Aeterna.Net

/-! ## Acknowledgements -/

theorem ackInRange_iff (una ack nxt : UInt32) :
    ackInRange una ack nxt = true ↔ ack - una ≤ nxt - una := by
  have hnxt := nxt.toNat_lt
  have hack := ack.toNat_lt
  have huna := una.toNat_lt
  unfold ackInRange
  simp only [ge_iff_le, UInt32.le_iff_toNat_le, UInt32.toNat_sub]
  split_ifs <;> simp <;> omega

theorem sub_le_sub_of_ackInRange {iss una ack nxt : UInt32} (h : una - iss ≤ nxt - iss)
    (hrange : ackInRange una ack nxt = true) : ack - iss ≤ nxt - iss := by
  have hnxt := nxt.toNat_lt
  have hack := ack.toNat_lt
  have huna := una.toNat_lt
  have hiss := iss.toNat_lt
  rw [ackInRange_iff] at hrange
  simp only [UInt32.le_iff_toNat_le, UInt32.toNat_sub] at h hrange ⊢
  omega

namespace TcpConn

/-- `snd_una` lies in `[snd_iss, snd_nxt]`, modulo `2 ^ 32`. -/
def InOrder (c : TcpConn) : Prop := c.sndUna - c.sndIss ≤ c.sndNxt - c.sndIss

instance (c : TcpConn) : Decidable c.InOrder := inferInstanceAs (Decidable (_ ≤ _))

theorem handleEstablished_window (c : TcpConn) (seq ack : UInt32) (isAck isFin : Bool)
    (window : UInt16) (payload : Bytes) :
    (c.handleEstablished seq ack isAck isFin window payload).1.sndUna =
        (c.takeAck ack isAck window).sndUna ∧
      (c.handleEstablished seq ack isAck isFin window payload).1.sndWnd =
        (c.takeAck ack isAck window).sndWnd ∧
      ((c.handleEstablished seq ack isAck isFin window payload).1.state = c.state ∨
        (c.handleEstablished seq ack isAck isFin window payload).1.state = .closeWait) := by
  have hstate : (c.takeAck ack isAck window).state = c.state := by
    unfold takeAck
    split_ifs <;> rfl
  rw [← hstate]
  unfold handleEstablished takeData takeFin
  dsimp only
  split_ifs <;> simp

theorem handleConnSegment_of_closeWait {c : TcpConn} (hs : c.state = .closeWait)
    (seq ack : UInt32) {flags : UInt8} (window : UInt16) (payload : Bytes)
    (hrst : flags &&& tcpRst = 0) :
    c.handleConnSegment seq ack flags window payload =
      (if flags &&& tcpAck ≠ 0 then { c with sndUna := ack } else c, []) := by
  unfold handleConnSegment
  rw [if_neg (by rw [hrst]; decide), hs]
  simp only [bne_iff_ne]
  split_ifs <;> rfl

/-- The new `snd_una` is the old one, or a number that is checked, or any number in `CloseWait`. -/
theorem sndUna_handleConnSegment (c : TcpConn) (seq ack : UInt32) (flags : UInt8) (window : UInt16)
    (payload : Bytes) (hs : ¬(c.state = .closeWait ∧ flags &&& tcpRst = 0 ∧ flags &&& tcpAck ≠ 0)) :
    (c.handleConnSegment seq ack flags window payload).1.sndUna = c.sndUna ∨
      (c.handleConnSegment seq ack flags window payload).1.sndUna = c.sndNxt ∨
      ackInRange c.sndUna ack c.sndNxt = true ∧
        (c.handleConnSegment seq ack flags window payload).1.sndUna = ack := by
  by_cases hrst : flags &&& tcpRst = 0
  · cases hc : c.state with
    | established =>
      rw [handleConnSegment_of_established hc seq ack window payload hrst,
        (c.handleEstablished_window seq ack _ _ window payload).1]
      unfold takeAck
      split_ifs with hflag hrange
      · exact Or.inr (Or.inr ⟨hrange, rfl⟩)
      · exact Or.inl rfl
      · exact Or.inl rfl
    | closeWait =>
      have hack : ¬flags &&& tcpAck ≠ 0 := fun hack => hs ⟨hc, hrst, hack⟩
      rw [handleConnSegment_of_closeWait hc seq ack window payload hrst, if_neg hack]
      exact Or.inl rfl
    | _ =>
      unfold handleConnSegment takeFin
      rw [if_neg (by rw [hrst]; decide), hc]
      dsimp only
      first
        | exact Or.inl rfl
        | split_ifs <;> simp_all
  · rw [handleConnSegment_of_rst c seq ack window payload hrst]
    exact Or.inl rfl

theorem inOrder_handleConnSegment_iff {c : TcpConn} (h : c.InOrder) (seq ack : UInt32)
    (flags : UInt8) (window : UInt16) (payload : Bytes) :
    (c.handleConnSegment seq ack flags window payload).1.InOrder ↔
      (c.state = .closeWait → flags &&& tcpRst = 0 → flags &&& tcpAck ≠ 0 →
        ack - c.sndIss ≤ c.sndNxt - c.sndIss) := by
  have hkeep := (c.answers_handleConnSegment seq ack flags window payload).1
  rw [InOrder, hkeep.sndNxt, hkeep.sndIss]
  by_cases hs : c.state = .closeWait ∧ flags &&& tcpRst = 0 ∧ flags &&& tcpAck ≠ 0
  · obtain ⟨hstate, hrst, hack⟩ := hs
    rw [handleConnSegment_of_closeWait hstate seq ack window payload hrst, if_pos hack]
    exact ⟨fun h _ _ _ => h, fun h => h hstate hrst hack⟩
  · refine iff_of_true ?_ fun hstate hrst hack => absurd ⟨hstate, hrst, hack⟩ hs
    rcases c.sndUna_handleConnSegment seq ack flags window payload hs with hu | hu | ⟨hr, hu⟩ <;>
      rw [hu]
    · exact h
    · exact UInt32.le_refl _
    · exact sub_le_sub_of_ackInRange h hr

end TcpConn

/-! ## Whole runs -/

/-- The sequence numbers that FINs have taken. -/
def Call.fins : Call → ℕ
  | .closing .. => 1
  | _ => 0

theorem Call.fins_le (call : Call) : call.fins ≤ 1 := by
  cases call <;> simp [Call.fins]

theorem Call.Next.pending_fins {call call' : Call} (h : call.Next call')
    (hcall : call ≠ .idle) :
    call'.pending.length ≤ call.pending.length ∧ call.fins ≤ call'.fins := by
  cases h with
  | stay => exact ⟨le_rfl, le_rfl⟩
  | finish hfin =>
    refine ⟨Nat.zero_le _, ?_⟩
    cases call <;> first | exact le_rfl | exact absurd trivial hfin
  | send | recv | fin => exact absurd rfl hcall
  | connect | reconnect | accept | again => exact ⟨le_rfl, le_rfl⟩
  | chunk mss sent rest => exact ⟨by simp [Call.pending], le_rfl⟩

namespace Session

open Endpoint TcpConn

/-- `snd_una` is in its range while fewer than `2 ^ 31` bytes have been sent. -/
def InOrder (s : Session) : Prop := s.sent.length < 2 ^ 31 → s.endpoint.conn.InOrder

instance : DecidablePred InOrder := fun _ => inferInstanceAs (Decidable (_ → _))

/-- In `CloseWait` an acknowledgement is of something that was sent. -/
def AcksSent (s : Session) : Action → Prop
  | .segment _ ack flags _ _ =>
    s.endpoint.conn.state = .closeWait → flags &&& tcpRst = 0 → flags &&& tcpAck ≠ 0 →
      s.sent.length < 2 ^ 31 →
      ack - s.endpoint.conn.sndIss ≤ s.endpoint.conn.sndNxt - s.endpoint.conn.sndIss
  | _ => True

/-- What has been sent, with the SYN and the FIN, is all that `snd_nxt` counts. -/
structure SequenceInv (s : Session) : Prop where
  sender : SenderInv s.endpoint s.stream
  count : s.sent.length < 2 ^ 31 → (s.endpoint.conn.sndNxt - s.endpoint.conn.sndIss).toNat ≤
    1 + s.sent.length + s.endpoint.call.fins

/-- The numbers after a step of the program's side: of a new connection, or with `n` more sent. -/
def Advances (s s' : Session) : Prop :=
  (s'.endpoint.conn.sndUna = s'.endpoint.conn.sndIss ∧
    (s'.endpoint.conn.sndNxt - s'.endpoint.conn.sndIss).toNat ≤ 1) ∨
  ∃ n, s'.endpoint.conn.sndUna = s.endpoint.conn.sndUna ∧
    s'.endpoint.conn.sndIss = s.endpoint.conn.sndIss ∧
    s'.endpoint.conn.sndNxt = s.endpoint.conn.sndNxt + UInt32.ofNat n ∧
    s.sent.length ≤ s'.sent.length ∧
    s.sent.length + s.endpoint.call.fins + n ≤ s'.sent.length + s'.endpoint.call.fins

variable {s s' : Session}

theorem length_sent (s : Session) :
    s.sent.length = s.stream.length - s.endpoint.call.pending.length := by
  rw [sent, List.length_take]
  omega

theorem Advances.count (h : s.Advances s')
    (hcount : s.sent.length < 2 ^ 31 → (s.endpoint.conn.sndNxt - s.endpoint.conn.sndIss).toNat ≤
      1 + s.sent.length + s.endpoint.call.fins) (hsent : s'.sent.length < 2 ^ 31) :
    (s'.endpoint.conn.sndNxt - s'.endpoint.conn.sndIss).toNat ≤
      1 + s'.sent.length + s'.endpoint.call.fins := by
  rcases h with ⟨-, hone⟩ | ⟨n, -, hiss, hnxt, hle, hmore⟩
  · omega
  · have hbound := hcount (by omega)
    have hfins := s'.endpoint.call.fins_le
    rw [hnxt, hiss, toNat_add_sub (by omega)]
    omega

theorem Advances.inOrder (h : s.Advances s') (hs : s.InOrder)
    (hcount : s.sent.length < 2 ^ 31 → (s.endpoint.conn.sndNxt - s.endpoint.conn.sndIss).toNat ≤
      1 + s.sent.length + s.endpoint.call.fins) : s'.InOrder := by
  intro hsent
  rcases h with ⟨huna, -⟩ | ⟨n, huna, hiss, hnxt, hle, hmore⟩
  · rw [TcpConn.InOrder, huna, UInt32.sub_self]
    exact UInt32.zero_le
  · have hbound := hcount (by omega)
    have hfins := s'.endpoint.call.fins_le
    have horder := hs (by omega)
    rw [TcpConn.InOrder, UInt32.le_iff_toNat_le] at horder ⊢
    rw [huna, hnxt, hiss, toNat_add_sub (by omega)]
    omega

theorem Advances.of_new (hconn : s'.endpoint.conn = .new) : s.Advances s' := by
  refine Or.inl ?_
  rw [hconn]
  decide

theorem Advances.of_same {c : TcpConn} (hconn : s'.endpoint.conn = c)
    (huna : c.sndUna = s.endpoint.conn.sndUna) (hiss : c.sndIss = s.endpoint.conn.sndIss)
    (hnxt : c.sndNxt = s.endpoint.conn.sndNxt) (hsent : s.sent.length ≤ s'.sent.length)
    (hfins : s.endpoint.call.fins ≤ s'.endpoint.call.fins) : s.Advances s' := by
  subst hconn
  exact Or.inr ⟨0, huna, hiss, hnxt.trans (UInt32.add_zero _).symm, hsent, by omega⟩

theorem Advances.of_sent {c : TcpConn} {n : ℕ} (hconn : s'.endpoint.conn = c)
    (huna : c.sndUna = s.endpoint.conn.sndUna) (hiss : c.sndIss = s.endpoint.conn.sndIss)
    (hnxt : c.sndNxt = s.endpoint.conn.sndNxt + UInt32.ofNat n)
    (hsent : s.sent.length ≤ s'.sent.length)
    (hmore : s.sent.length + s.endpoint.call.fins + n ≤
      s'.sent.length + s'.endpoint.call.fins) : s.Advances s' := by
  subst hconn
  exact Or.inr ⟨n, huna, hiss, hnxt, hsent, hmore⟩

/-- A request that is not an opening adds to the stream what it is going to send. -/
theorem stream_request (hidle : s.endpoint.call = .idle) (r : Request)
    (hopen : ¬(r.Opens ∧ s.endpoint.conn.state = .closed)) :
    (s.step (.request r)).stream =
      s.stream ++ (s.step (.request r)).endpoint.call.pending := by
  have hstep : (s.step (.request r)).endpoint = (s.endpoint.begin r).endpoint := by
    show (s.endpoint.step (.request r)).endpoint = _
    rw [Endpoint.step, if_pos hidle]
  rw [hstep]
  show s.streamAfter (.request r) = _
  cases r with
  | connect dstIp localPort dstPort iss | accept dstIp localPort dstPort irs iss =>
    have hstate : s.endpoint.conn.state ≠ .closed := fun h => hopen ⟨trivial, h⟩
    rw [Endpoint.begin, if_neg hstate, streamAfter, if_neg fun h => hstate h.2]
    exact (List.append_nil _).symm
  | send data =>
    show streamAfter _ _ = s.stream ++ (s.endpoint.beginSend data).endpoint.call.pending
    rw [streamAfter]
    rcases beginSend_cases s.endpoint data with ⟨error, he⟩ | ⟨-, mss, -, he⟩ <;> rw [he]
    · rw [if_neg fun h => by cases h.2]
      exact (List.append_nil _).symm
    · rw [if_pos ⟨hidle, rfl⟩]
      rfl
  | recv size timeoutTicks => exact (List.append_nil _).symm
  | recvNb size =>
    have hcall : (s.endpoint.recvNb size).endpoint.call = .idle := by
      unfold Endpoint.recvNb
      dsimp only
      split_ifs
      · rfl
      · split <;> rfl
    show s.stream = s.stream ++ (s.endpoint.recvNb size).endpoint.call.pending
    rw [hcall]
    exact (List.append_nil _).symm
  | close =>
    have hpending : s.endpoint.beginClose.endpoint.call.pending = [] := by
      unfold Endpoint.beginClose
      split <;> rfl
    show s.stream = s.stream ++ s.endpoint.beginClose.endpoint.call.pending
    rw [hpending, List.append_nil]

theorem advances_request (s : Session) (r : Request) : s.Advances (s.step (.request r)) := by
  by_cases hidle : s.endpoint.call = .idle
  · by_cases hopen : r.Opens ∧ s.endpoint.conn.state = .closed
    · have fresh (c : TcpConn) (call : Call) (segs : List Segment) (hiss : c.sndUna = c.sndIss)
          (hnxt : c.sndNxt = c.sndIss + 1)
          (hstep : s.endpoint.begin r = { s.endpoint with conn := c }.wait call segs) :
          s.Advances (s.step (.request r)) := by
        have hconn : (s.step (.request r)).endpoint.conn = c := by
          show (s.endpoint.step (.request r)).endpoint.conn = c
          rw [Endpoint.step, if_pos hidle, hstep]
          rfl
        refine Or.inl ?_
        rw [hconn, hnxt]
        exact ⟨hiss, (toNat_add_sub_self c.sndIss (n := 1) (by decide)).le⟩
      cases r with
      | connect dstIp localPort dstPort iss => exact fresh _ _ _ rfl rfl (if_pos hopen.2)
      | accept clientIp listenPort clientPort clientIrs iss =>
        exact fresh _ _ _ rfl rfl (if_pos hopen.2)
      | _ => exact hopen.1.elim
    · have hcall := callStep_request r fun hr _ hclosed => hopen ⟨hr, hclosed⟩
      have hfins : s.endpoint.call.fins = 0 := by
        rw [hidle]
        rfl
      have hsent : s.sent.length ≤ (s.step (.request r)).sent.length := by
        rw [length_sent, length_sent, stream_request hidle r hopen, List.length_append]
        omega
      cases hcall with
      | keep t hconn => exact .of_same hconn rfl rfl rfl hsent (by omega)
      | read size hconn => exact .of_same hconn rfl rfl rfl hsent (by omega)
      | reset hconn => exact Advances.of_new hconn
      | store he => exact Call.noConfusion (hidle.symm.trans he)
      | fin he => exact Call.noConfusion (hidle.symm.trans he)
  · have hstep : s.step (.request r) = s := by
      have hstream : s.streamAfter (.request r) = s.stream := by
        cases r <;> simp [streamAfter, hidle]
      rw [step, hstream, Endpoint.step, if_neg hidle]
      rfl
    rw [hstep]
    exact .of_same rfl rfl rfl rfl le_rfl le_rfl

theorem advances_proceed (h : SenderInv s.endpoint s.stream) :
    s.Advances (s.step .proceed) := by
  by_cases hidle : s.endpoint.call = .idle
  · have hstep : s.endpoint.proceed.endpoint = s.endpoint := by
      have hproceed : s.endpoint.proceed.endpoint = { s.endpoint with call := .idle } := by
        unfold Endpoint.proceed
        rw [hidle]
        rfl
      rw [hproceed, ← hidle]
    have hself : s.step .proceed = s := by
      show (⟨s.endpoint.proceed.endpoint, s.stream⟩ : Session) = s
      rw [hstep]
    rw [hself]
    exact .of_same rfl rfl rfl rfl le_rfl le_rfl
  · have hcall := callStep_proceed s.endpoint
    have hsent : (s.step .proceed).sent.length =
        s.stream.length - s.endpoint.proceed.endpoint.call.pending.length := length_sent _
    have hnow := length_sent s
    cases hcall with
    | keep t hconn hnext =>
      obtain ⟨hpending, hfins⟩ := hnext.pending_fins hidle
      exact .of_same hconn rfl rfl rfl (by omega) hfins
    | read size hconn hnext =>
      have hquiet : s.endpoint.call.fins = 0 ∧ s.endpoint.proceed.endpoint.call.pending = [] := by
        rcases hnext with ⟨hcall, -⟩ | ⟨deadline, hcall, hcall' | hcall' | hcall'⟩
        · exact absurd hcall hidle
        all_goals
          rw [hcall, hcall']
          exact ⟨rfl, rfl⟩
      refine .of_same hconn rfl rfl rfl ?_ (hquiet.1.trans_le (Nat.zero_le _))
      rw [hsent, hquiet.2, hnow]
      exact Nat.sub_le _ _
    | reset hconn => exact Advances.of_new hconn
    | @store mss sent chunk rest he hconn hnext =>
      obtain ⟨done, hd⟩ := h.sent.resolve_left (by unfold Endpoint.Spent; rw [he]; exact id)
      have hstream := congrArg List.length hd.stream
      rw [he] at hstream hnow
      rw [hnext] at hsent
      have hfins : s.endpoint.call.fins = 0 := by
        rw [he]
        rfl
      simp only [Call.pending, List.length_append] at hstream hsent hnow
      exact .of_sent hconn rfl rfl rfl (by omega) (by omega)
    | @fin state deadline he hconn hnext =>
      have hfins : (s.step .proceed).endpoint.call.fins = 1 := by
        show s.endpoint.proceed.endpoint.call.fins = 1
        rw [hnext]
        rfl
      have hfins' : s.endpoint.call.fins = 0 := by
        rw [he]
        rfl
      rw [he] at hnow
      rw [hnext] at hsent
      simp only [Call.pending] at hsent hnow
      exact .of_sent (n := 1) hconn rfl rfl rfl (by omega) (by omega)

theorem segment_cases (s : Session) (seq ack : UInt32) (flags : UInt8) (window : UInt16)
    (payload : Bytes) :
    s.endpoint.conn.state = .closed ∧ s.step (.segment seq ack flags window payload) = s ∨
      s.step (.segment seq ack flags window payload) = ⟨{ s.endpoint with
        conn := (s.endpoint.conn.handleConnSegment seq ack flags window payload).1 }, s.stream⟩ := by
  have hstep : s.step (.segment seq ack flags window payload) =
      ⟨(s.endpoint.deliver seq ack flags window payload).endpoint, s.stream⟩ := rfl
  rw [hstep]
  unfold Endpoint.deliver
  split_ifs with hclosed
  · exact Or.inl ⟨hclosed, rfl⟩
  · exact Or.inr rfl

theorem SequenceInv.step (h : SequenceInv s) (a : Action) : SequenceInv (s.step a) := by
  refine ⟨h.sender.step a, ?_⟩
  cases a with
  | segment seq ack flags window payload =>
    rcases s.segment_cases seq ack flags window payload with ⟨-, hstep⟩ | hstep <;> rw [hstep]
    · exact h.count
    · have hkeep := (s.endpoint.conn.answers_handleConnSegment seq ack flags window payload).1
      dsimp only
      rw [hkeep.sndNxt, hkeep.sndIss]
      exact h.count
  | elapse ticks => exact h.count
  | request r => exact (s.advances_request r).count h.count
  | proceed => exact (advances_proceed h.sender).count h.count

theorem inOrder_step_iff (h : SequenceInv s) (hs : s.InOrder) (a : Action) :
    (s.step a).InOrder ↔ s.AcksSent a := by
  cases a with
  | segment seq ack flags window payload =>
    rcases s.segment_cases seq ack flags window payload with ⟨hclosed, hstep⟩ | hstep <;> rw [hstep]
    · exact iff_of_true hs fun hw => TcpState.noConfusion (hclosed.symm.trans hw)
    · by_cases hsent : s.sent.length < 2 ^ 31
      · have hiff := inOrder_handleConnSegment_iff (hs hsent) seq ack flags window payload
        constructor
        · exact fun h hw hr ha _ => hiff.mp (h hsent) hw hr ha
        · exact fun h _ => hiff.mpr fun hw hr ha => h hw hr ha hsent
      · exact iff_of_true (fun h => absurd h hsent) fun _ _ _ h => absurd h hsent
  | elapse ticks => exact iff_of_true hs trivial
  | request r => exact iff_of_true ((s.advances_request r).inOrder hs h.count) trivial
  | proceed => exact iff_of_true ((advances_proceed h.sender).inOrder hs h.count) trivial

theorem sequenceInv_new : SequenceInv new := ⟨senderInv_new, fun _ => by decide⟩

/-- **Send sequence.** `snd_una` stays in `[snd_iss, snd_nxt]` along a run exactly when every
acknowledgement that arrives in `CloseWait` is in that range. -/
theorem always_inOrder_iff (as : List Action) :
    Lib.Always step InOrder new as ↔ Lib.EachStep step AcksSent new as := by
  refine Lib.always_iff_eachStep_of_invariant (H := fun _ _ => True) sequenceInv_new
    (fun _ => by decide) (fun s a h _ => h.step a) (fun s a h hs _ => inOrder_step_iff h hs a) ?_
  exact Lib.eachStep_of_forall_mem fun _ _ => trivial

/-- The peer closes, and then acknowledges what was never sent. -/
theorem not_always_inOrder_closeWait :
    ¬ Lib.Always step InOrder new
      [.request (.connect (Vector.replicate 4 10) 49152 80 0x10000), .proceed,
        .segment 1000 0x10001 0x12 8192 [], .segment 1001 0x10001 0x11 8192 [],
        .segment 1002 0x20000 0x10 8192 []] := by
  decide +kernel

end Session

/-! ## The window of the peer -/

def Call.InSend : Call → Prop
  | .sending .. | .storing .. => True
  | _ => False

theorem Call.Next.not_inSend {call call' : Call} (h : call.Next call') (hcall : ¬ call.InSend)
    (hidle : call ≠ .idle) : ¬ call'.InSend := by
  cases h with
  | stay => exact hcall
  | send | recv | fin => exact absurd rfl hidle
  | chunk => exact absurd trivial hcall
  | _ => exact id

instance : DecidablePred Call.InSend := fun call => by
  unfold Call.InSend
  split <;> infer_instance

/-- The bytes that the peer has not acknowledged. -/
def TcpConn.outstanding (c : TcpConn) : ℕ := (c.sndNxt - c.sndUna).toNat

/-- An acknowledgement moves neither the end of the window nor `snd_una` back. -/
def TcpConn.KeepsWindow (c : TcpConn) (ack : UInt32) (window : UInt16) : Prop :=
  match c.state with
  | .established => c.sndWnd.toNat ≤ window.toNat +
      if ackInRange c.sndUna ack c.sndNxt then (ack - c.sndUna).toNat else 0
  | .closeWait => ackInRange c.sndUna ack c.sndNxt
  | _ => True

instance (c : TcpConn) (ack : UInt32) (window : UInt16) : Decidable (c.KeepsWindow ack window) := by
  unfold TcpConn.KeepsWindow
  split <;> infer_instance

namespace Endpoint

/-- A segment of `tcp_send` ends within the window of the peer, and so does what is outstanding once
it is counted. -/
def InWindow (e : Endpoint) : Action → Prop
  | .proceed =>
    match e.call with
    | .sending .. => ∀ seg ∈ e.proceed.segs,
      (seg.seq + UInt32.ofNat seg.payload.length - e.conn.sndUna).toNat ≤ e.conn.sndWnd.toNat
    | .storing .. =>
      e.proceed.endpoint.conn.outstanding ≤ e.proceed.endpoint.conn.sndWnd.toNat
    | _ => True
  | _ => True

/-- The data of a call fits into what is left of the window, and until the call returns the peer
keeps its window. -/
def KeepsRoom (e : Endpoint) : Action → Prop
  | .request (.send data) => e.call = .idle →
    e.conn.state = .established ∨ e.conn.state = .closeWait → e.conn.sndWnd ≠ 0 →
      data.length + e.conn.outstanding ≤ e.conn.sndWnd.toNat
  | .segment _ ack flags window _ => e.call.InSend → flags &&& tcpRst = 0 → flags &&& tcpAck ≠ 0 →
    e.conn.KeepsWindow ack window
  | _ => True

instance (e : Endpoint) (a : Action) : Decidable (e.InWindow a) := by
  unfold InWindow
  split
  · split <;> infer_instance
  · infer_instance

instance (e : Endpoint) : (a : Action) → Decidable (e.KeepsRoom a)
  | .request (.send _) | .segment .. => inferInstanceAs (Decidable (_ → _))
  | .request (.connect ..) | .request (.accept ..) | .request (.recv ..) | .request (.recvNb _)
  | .request .close | .elapse _ | .proceed => inferInstanceAs (Decidable True)

/-- In `tcp_send` there is room for everything that is left to send. -/
def Room (e : Endpoint) : Prop :=
  e.call.InSend →
    (e.conn.state = .established ∨ e.conn.state = .closeWait ∨ e.conn.state = .closed) ∧
      e.call.pending.length + e.conn.outstanding ≤ e.conn.sndWnd.toNat

variable {e : Endpoint}

theorem outstanding_of_ackInRange {una ack nxt : UInt32} (h : ackInRange una ack nxt = true) :
    (nxt - ack).toNat + (ack - una).toNat = (nxt - una).toNat := by
  have hnxt := nxt.toNat_lt
  have hack := ack.toNat_lt
  have huna := una.toNat_lt
  rw [ackInRange_iff] at h
  simp only [UInt32.le_iff_toNat_le, UInt32.toNat_sub] at h ⊢
  omega

theorem Room.inWindow (h : e.Room) (a : Action) : e.InWindow a := by
  cases a with
  | proceed =>
    unfold InWindow
    dsimp only
    split
    next mss sent rest hcall =>
      obtain ⟨-, hroom⟩ := h (by rw [hcall]; trivial)
      rw [hcall] at hroom
      intro seg hseg
      have hsegs : e.proceed.segs = (e.sendChunk mss sent rest).segs := by
        unfold proceed
        rw [hcall]
      rw [hsegs, sendChunk] at hseg
      split_ifs at hseg
      · exact absurd hseg List.not_mem_nil
      · have hwnd := e.conn.sndWnd.toNat_lt
        have htake : (rest.take mss).length ≤ rest.length := List.length_take_le' _ _
        rw [TcpConn.eq_of_mem_sendTcpSegment hseg]
        show (e.conn.sndNxt + UInt32.ofNat (rest.take mss).length - e.conn.sndUna).toNat ≤ _
        simp only [Call.pending, TcpConn.outstanding] at hroom
        rw [toNat_add_sub (by omega)]
        omega
    next mss sent chunk rest hcall =>
      obtain ⟨-, hroom⟩ := h (by rw [hcall]; trivial)
      rw [hcall] at hroom
      have hstore : e.proceed.endpoint.conn = e.conn.storeChunk e.ticks chunk := by
        unfold proceed
        rw [hcall]
        rfl
      have hwnd := e.conn.sndWnd.toNat_lt
      rw [hstore]
      show (e.conn.sndNxt + UInt32.ofNat chunk.length - e.conn.sndUna).toNat ≤ e.conn.sndWnd.toNat
      simp only [Call.pending, TcpConn.outstanding, List.length_append] at hroom
      rw [toNat_add_sub (by omega)]
      omega
    next => trivial
  | _ => trivial

theorem Room.segment (h : e.Room) {seq ack : UInt32} {flags : UInt8} {window : UInt16}
    {payload : Bytes} (hkeeps : e.KeepsRoom (.segment seq ack flags window payload)) :
    (e.step (.segment seq ack flags window payload)).endpoint.Room := by
  show (e.deliver seq ack flags window payload).endpoint.Room
  unfold deliver
  split_ifs with hclosed
  · exact h
  intro hin
  obtain ⟨hstate, hroom⟩ := h hin
  have hkeep := (e.conn.answers_handleConnSegment seq ack flags window payload).1.sndNxt
  simp only [TcpConn.outstanding] at hroom
  show _ ∧ e.call.pending.length + ((e.conn.handleConnSegment seq ack flags window payload).1.sndNxt
    - (e.conn.handleConnSegment seq ack flags window payload).1.sndUna).toNat ≤
      (e.conn.handleConnSegment seq ack flags window payload).1.sndWnd.toNat
  rw [hkeep]
  dsimp only [Endpoint.wait]
  by_cases hrst : flags &&& tcpRst = 0
  · have hkeeps := hkeeps hin hrst
    unfold TcpConn.KeepsWindow at hkeeps
    rcases hstate with hs | hs | hs
    · rw [hs] at hkeeps
      rw [TcpConn.handleConnSegment_of_established hs seq ack window payload hrst]
      obtain ⟨huna, hwnd, hafter⟩ := e.conn.handleEstablished_window seq ack
        (flags &&& tcpAck != 0) (flags &&& tcpFin != 0) window payload
      rw [hs] at hafter
      refine ⟨hafter.imp_right Or.inl, ?_⟩
      rw [huna, hwnd]
      unfold TcpConn.takeAck
      split_ifs with hflag hrange
      · have hsplit := outstanding_of_ackInRange hrange
        have hwindow := hkeeps (bne_iff_ne.mp hflag)
        dsimp only at hwindow ⊢
        rw [if_pos hrange] at hwindow
        omega
      · have hwindow := hkeeps (bne_iff_ne.mp hflag)
        dsimp only at hwindow ⊢
        rw [if_neg hrange] at hwindow
        omega
      · exact hroom
    · rw [hs] at hkeeps
      rw [TcpConn.handleConnSegment_of_closeWait hs seq ack window payload hrst]
      dsimp only
      split_ifs with hflag
      · have hsplit := outstanding_of_ackInRange (hkeeps hflag)
        exact ⟨Or.inr (Or.inl hs), by dsimp only; omega⟩
      · exact ⟨Or.inr (Or.inl hs), hroom⟩
    · exact absurd hs hclosed
  · rw [TcpConn.handleConnSegment_of_rst _ seq ack window payload hrst]
    exact ⟨Or.inr (Or.inr rfl), hroom⟩

theorem Room.request (h : e.Room) {r : Request} (hkeeps : e.KeepsRoom (.request r)) :
    (e.step (.request r)).endpoint.Room := by
  dsimp only [Endpoint.step]
  split_ifs with hidle
  · cases r with
    | send data =>
      show (e.beginSend data).endpoint.Room
      have accepted (hs : e.conn.state = .established ∨ e.conn.state = .closeWait) :
          (if min 1440 e.conn.sndWnd.toNat = 0 then e.finish (.failed .wouldBlock)
            else e.wait (.sending (min 1440 e.conn.sndWnd.toNat) 0 data) []).endpoint.Room := by
        split_ifs with hmss
        · exact False.elim
        · refine fun _ => ⟨hs.imp_right Or.inl, hkeeps hidle hs fun hzero => hmss ?_⟩
          rw [hzero]
          rfl
      unfold beginSend
      split
      next hs => exact accepted (Or.inl hs)
      next hs => exact accepted (Or.inr hs)
      next => exact False.elim
    | recvNb size =>
      show (e.recvNb size).endpoint.Room
      unfold recvNb
      dsimp only
      split_ifs
      · exact False.elim
      · split <;> exact False.elim
    | close =>
      show e.beginClose.endpoint.Room
      unfold beginClose
      split <;> exact False.elim
    | connect | accept =>
      dsimp only [Endpoint.begin]
      split_ifs <;> exact False.elim
    | recv size timeoutTicks => exact False.elim
  · exact h

theorem Room.proceed (h : e.Room) : e.proceed.endpoint.Room := by
  by_cases hin : e.call.InSend
  · obtain ⟨hstate, hroom⟩ := h hin
    unfold Endpoint.proceed
    cases hcall : e.call with
    | sending mss sent rest =>
      rw [hcall] at hroom
      dsimp only [sendChunk]
      split_ifs
      · exact nofun
      · refine fun _ => ⟨hstate, ?_⟩
        show (rest.take mss ++ rest.drop mss).length + e.conn.outstanding ≤ e.conn.sndWnd.toNat
        rw [List.take_append_drop]
        exact hroom
    | storing mss sent chunk rest =>
      rw [hcall] at hroom
      refine fun _ => ⟨hstate, ?_⟩
      have hwnd := e.conn.sndWnd.toNat_lt
      show rest.length + (e.conn.sndNxt + UInt32.ofNat chunk.length - e.conn.sndUna).toNat ≤
        e.conn.sndWnd.toNat
      simp only [Call.pending, TcpConn.outstanding, List.length_append] at hroom
      rw [toNat_add_sub (by omega)]
      omega
    | _ =>
      rw [hcall] at hin
      exact hin.elim
  · intro hin'
    refine absurd hin' ?_
    by_cases hidle : e.call = .idle
    · unfold Endpoint.proceed
      rw [hidle]
      exact id
    · cases callStep_proceed e with
      | keep t hconn hnext => exact hnext.not_inSend hin hidle
      | read size hconn hnext =>
        rcases hnext with ⟨-, hcall⟩ | ⟨deadline, -, hcall | hcall | hcall⟩ <;> rw [hcall] <;> exact id
      | reset hconn hcall => rw [hcall]; exact id
      | store he => exact absurd (he ▸ trivial) hin
      | fin he hconn hcall => rw [hcall]; exact id

/-- **Flow control.** If the data of every `tcp_send` fits into what is left of the window, and the
peer takes nothing back before the call returns, every segment of `tcp_send` lies in the window. -/
theorem inWindow_run (as : List Action)
    (h : Lib.EachStep (fun e a => (e.step a).endpoint) KeepsRoom new as) :
    Lib.EachStep (fun e a => (e.step a).endpoint) InWindow new as := by
  refine Lib.eachStep_of_eachStep (P := Room) nofun (fun e a hroom hkeeps => ?_)
    (fun e a hroom _ => hroom.inWindow a) h
  cases a with
  | segment seq ack flags window payload => exact hroom.segment hkeeps
  | elapse ticks => exact hroom
  | request r => exact hroom.request hkeeps
  | proceed => exact hroom.proceed

theorem inWindow_run_oneChunk :
    Lib.EachStep (fun e a => (e.step a).endpoint) InWindow new (Session.sendThenRecv 2 [1, 2] 1) :=
  inWindow_run _ (by decide +kernel)

/-- Two bytes go out to a peer that has room for one. -/
theorem not_inWindow_twoChunks :
    ¬ Lib.EachStep (fun e a => (e.step a).endpoint) InWindow new
      (Session.sendThenRecv 1 [1, 2] 2) := by
  decide +kernel

end Endpoint

end Aeterna.Net
