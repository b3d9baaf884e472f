import Aeterna.Net.TcpCalls
import Aeterna.Net.TcpSender

/-!
# What the sender keeps for a retransmission

A connection keeps its last chunk, and drops it at every acknowledgement in `[snd_una, snd_nxt]`.
Everything that is outstanding is kept exactly in the runs where no chunk is sent before the one
before it is acknowledged, and no acknowledgement that is taken stops short of `snd_nxt`
(`always_retains_iff`).
-/

namespace Aeterna.Net

namespace Session

open Endpoint TcpConn

/-- The part of the stream that has been sent. -/
def sent (s : Session) : Bytes := s.stream.take (s.stream.length - s.endpoint.call.pending.length)

/-- An open connection that has sent no FIN keeps the bytes from `snd_una` up to `snd_nxt`: what it
keeps is the end of what it has sent, and reaches back to `snd_una`. -/
def Retains (s : Session) : Prop :=
  s.endpoint.conn.state = .established → ¬ s.endpoint.call.FinSent →
    s.endpoint.conn.sndUna ≠ s.endpoint.conn.sndNxt →
    (s.endpoint.conn.sndNxt - s.endpoint.conn.sndUna).toNat ≤
        s.endpoint.conn.retransmitPayload.length ∧
      s.endpoint.conn.retransmitPayload <:+ s.sent

instance : DecidablePred Retains := fun s => inferInstanceAs (Decidable (_ → _ → _ → _ ∧ _))

/-- A chunk is counted when nothing else is outstanding, and an acknowledgement that is taken
acknowledges everything. -/
def Lockstep (s : Session) : Action → Prop
  | .segment _ ack flags _ _ =>
    s.endpoint.conn.state = .established → ¬ s.endpoint.call.FinSent →
      flags &&& tcpRst = 0 → flags &&& tcpFin = 0 → flags &&& tcpAck ≠ 0 →
      ackInRange s.endpoint.conn.sndUna ack s.endpoint.conn.sndNxt →
      ack = s.endpoint.conn.sndNxt
  | .proceed => s.endpoint.conn.state = .established →
      match s.endpoint.call with
      | .storing .. => s.endpoint.conn.sndUna = s.endpoint.conn.sndNxt
      | _ => True
  | _ => True

end Session

/-! ## Sequence numbers -/

namespace Endpoint

/-- What an open connection keeps is at least as long as what is outstanding. -/
def Covers (e : Endpoint) : Prop :=
  e.conn.state = .established → ¬ e.call.FinSent → e.conn.sndUna ≠ e.conn.sndNxt →
    (e.conn.sndNxt - e.conn.sndUna).toNat ≤ e.conn.retransmitLen

end Endpoint

theorem Call.Next.finSent {call call' : Call} (h : call.Next call') (hcall : call.FinSent) :
    call'.FinSent := by
  cases h with
  | stay => exact hcall
  | finish hfin => exact absurd hcall hfin
  | _ => exact hcall.elim

theorem toNat_add_sub_self (una : UInt32) {n : ℕ} (hn : n < 2 ^ 32) :
    (una + UInt32.ofNat n - una).toNat = n := by
  rw [UInt32.add_comm, UInt32.add_sub_cancel, UInt32.toNat_ofNat_of_lt' hn]

theorem toNat_add_sub {una nxt : UInt32} {n : ℕ} (h : (nxt - una).toNat + n < 2 ^ 32) :
    (nxt + UInt32.ofNat n - una).toNat = (nxt - una).toNat + n := by
  have hsplit : nxt + UInt32.ofNat n - una = nxt - una + UInt32.ofNat n := by
    rw [UInt32.sub_eq_add_neg, UInt32.sub_eq_add_neg, UInt32.add_assoc, UInt32.add_assoc,
      UInt32.add_comm (UInt32.ofNat n)]
  rw [hsplit, UInt32.toNat_add, UInt32.toNat_ofNat_of_lt' (by
    have hsize : UInt32.size = 2 ^ 32 := rfl
    omega), Nat.mod_eq_of_lt h]

theorem lt_toNat_add_sub {una nxt : UInt32} {n : ℕ} (hne : una ≠ nxt)
    (hle : (nxt - una).toNat + n < 2 ^ 32) : n < (nxt + UInt32.ofNat n - una).toNat := by
  have hpos : 0 < (nxt - una).toNat := by
    refine Nat.pos_of_ne_zero fun hzero => hne ?_
    have heq : nxt - una = 0 := UInt32.toNat_inj.mp hzero
    rw [UInt32.sub_eq_iff_eq_add, UInt32.zero_add] at heq
    exact heq.symm
  rw [toNat_add_sub hle]
  omega

namespace Endpoint

variable {e : Endpoint} {o : Outcome}

theorem CallStep.covers (h : e.CallStep o) (hc : e.Covers)
    (hstore : ∀ mss sent chunk rest, e.call ≠ .storing mss sent chunk rest) :
    o.endpoint.Covers := by
  unfold Covers at hc ⊢
  cases h with
  | keep t hconn hcall hbytes =>
    rw [hconn]
    exact fun hs hfin => hc hs fun h => hfin (hcall.finSent h)
  | read size hconn hcall hbytes =>
    rw [hconn]
    refine fun hs _ => hc hs ?_
    rcases hcall with ⟨hidle, -⟩ | ⟨deadline, hrec, -⟩
    · rw [hidle]
      exact id
    · rw [hrec]
      exact id
  | reset hconn hcall hbytes =>
    rw [hconn]
    exact nofun
  | store he hconn hcall hbytes => exact absurd he (hstore _ _ _ _)
  | fin he hconn hcall hbytes =>
    rw [hcall]
    exact fun _ hfin => absurd trivial hfin

theorem covers_storeChunk {mss sent : ℕ} {rest chunk : Bytes} (hc : e.Covers)
    (hcall : e.call = .storing mss sent chunk rest) (hlen : e.conn.retransmitLen ≤ txBufSize)
    (hchunk : chunk.length ≤ 1440) :
    e.proceed.endpoint.Covers ↔
      (e.conn.state = .established → e.conn.sndUna = e.conn.sndNxt) := by
  have hrlen : min chunk.length txBufSize = chunk.length := min_eq_left (hchunk.trans (by decide))
  have hafter : e.proceed.endpoint.Covers ↔ (e.conn.state = .established →
      e.conn.sndUna ≠ e.conn.sndNxt + UInt32.ofNat chunk.length →
      (e.conn.sndNxt + UInt32.ofNat chunk.length - e.conn.sndUna).toNat ≤ chunk.length) := by
    unfold Endpoint.Covers Endpoint.proceed
    rw [hcall]
    show (e.conn.state = .established → ¬ False → _) ↔ _
    simp only [not_false_eq_true, true_implies]
    show (_ → _ → _ ≤ min chunk.length txBufSize) ↔ _
    rw [hrlen]
    rfl
  rw [hafter]
  refine forall_congr' fun hs => ⟨fun h => ?_, fun heq _ => ?_⟩
  · by_contra hne
    have hfin : ¬ e.call.FinSent := by
      rw [hcall]
      exact id
    have hk := hc hs hfin hne
    have htx : txBufSize = 4096 := rfl
    have hlt := lt_toNat_add_sub (n := chunk.length) hne (by omega)
    refine absurd (h fun heq => ?_) (by omega)
    rw [heq, UInt32.sub_self] at hlt
    exact Nat.not_lt_zero _ hlt
  · rw [heq, toNat_add_sub_self _ (by omega)]

end Endpoint

theorem TcpConn.handleEstablished_sender (c : TcpConn) (seq ack : UInt32) (isAck : Bool)
    (window : UInt16) (payload : Bytes) :
    (c.handleEstablished seq ack isAck false window payload).1.sndUna =
        (c.takeAck ack isAck window).sndUna ∧
      (c.handleEstablished seq ack isAck false window payload).1.sndNxt = c.sndNxt ∧
      (c.handleEstablished seq ack isAck false window payload).1.retransmitLen =
        (c.takeAck ack isAck window).retransmitLen ∧
      (c.handleEstablished seq ack isAck false window payload).1.state = c.state := by
  have hack : (c.takeAck ack isAck window).sndNxt = c.sndNxt ∧
      (c.takeAck ack isAck window).state = c.state := by
    unfold TcpConn.takeAck
    split_ifs <;> exact ⟨rfl, rfl⟩
  rw [← hack.1, ← hack.2]
  unfold TcpConn.handleEstablished TcpConn.takeData
  dsimp only
  rw [if_neg Bool.false_ne_true]
  split_ifs <;> exact ⟨rfl, rfl, rfl, rfl⟩

namespace Endpoint

theorem covers_established {e : Endpoint} (hc : e.Covers) (hs : e.conn.state = .established)
    (seq ack : UInt32) (flags : UInt8) (window : UInt16) (payload : Bytes) :
    Covers { e with conn := (e.conn.handleConnSegment seq ack flags window payload).1 } ↔
      (¬ e.call.FinSent → flags &&& tcpRst = 0 → flags &&& tcpFin = 0 → flags &&& tcpAck ≠ 0 →
        ackInRange e.conn.sndUna ack e.conn.sndNxt → ack = e.conn.sndNxt) := by
  by_cases hrst : flags &&& tcpRst = 0
  · rw [TcpConn.handleConnSegment_of_established hs seq ack window payload hrst]
    by_cases hfin : flags &&& tcpFin = 0
    · obtain ⟨huna, hnxt, hlen, hstate⟩ :=
        e.conn.handleEstablished_sender seq ack (flags &&& tcpAck != 0) window payload
      rw [show (flags &&& tcpFin != 0) = false by rw [hfin]; rfl]
      unfold Covers
      dsimp only
      rw [huna, hnxt, hlen, hstate]
      unfold TcpConn.takeAck
      by_cases hack : (flags &&& tcpAck != 0) = true ∧
          ackInRange e.conn.sndUna ack e.conn.sndNxt = true
      · -- the acknowledgement is taken and what was kept is dropped
        rw [if_pos hack.1, if_pos hack.2]
        dsimp only
        constructor
        · intro hcov hfs _ _ _ _
          by_contra hne
          have hzero : e.conn.sndNxt - ack = 0 :=
            UInt32.toNat_inj.mp (Nat.le_zero.mp (hcov hs hfs hne))
          rw [UInt32.sub_eq_iff_eq_add, UInt32.zero_add] at hzero
          exact hne hzero.symm
        · intro hall _ hfs hne
          exact absurd (hall hfs hrst hfin (bne_iff_ne.mp hack.1) hack.2) hne
      · have hguard : ¬ e.call.FinSent → flags &&& tcpRst = 0 → flags &&& tcpFin = 0 →
            flags &&& tcpAck ≠ 0 → ackInRange e.conn.sndUna ack e.conn.sndNxt →
            ack = e.conn.sndNxt :=
          fun _ _ _ hflag hrange => absurd ⟨bne_iff_ne.mpr hflag, hrange⟩ hack
        refine iff_of_true ?_ hguard
        split_ifs with hflag hrange
        · exact absurd ⟨hflag, hrange⟩ hack
        · exact hc
        · exact hc
    · refine iff_of_true ?_ fun _ _ hzero => absurd hzero hfin
      rw [show (flags &&& tcpFin != 0) = true from bne_iff_ne.mpr hfin]
      exact nofun
  · rw [TcpConn.handleConnSegment_of_rst _ seq ack window payload hrst]
    exact iff_of_true nofun fun _ hzero => absurd hzero hrst

theorem covers_handshake {e : Endpoint} (hs : e.conn.state ≠ .established) (seq ack : UInt32)
    (flags : UInt8) (window : UInt16) (payload : Bytes) :
    Covers { e with conn := (e.conn.handleConnSegment seq ack flags window payload).1 } := by
  intro hopen _ hne
  refine absurd ?_ hne
  dsimp only at hopen ⊢
  unfold TcpConn.handleConnSegment at hopen ⊢
  dsimp only at hopen ⊢
  by_cases hrst : (flags &&& tcpRst != 0) = true
  · rw [if_pos hrst] at hopen
    exact TcpState.noConfusion hopen
  rw [if_neg hrst] at hopen ⊢
  cases hc : e.conn.state with
  | established => exact absurd hc hs
  | synSent =>
    rw [hc] at hopen
    dsimp only at hopen ⊢
    split_ifs at hopen ⊢ with hflags hack
    · exact hack
    · exact absurd hopen hs
  | synReceived =>
    rw [hc] at hopen
    dsimp only at hopen ⊢
    split_ifs at hopen ⊢ with hack
    · exact of_decide_eq_true (Bool.and_eq_true_iff.mp hack).2
    · exact absurd hopen hs
  | finWait1 | finWait2 | lastAck | closeWait =>
    rw [hc] at hopen
    dsimp only [TcpConn.takeFin] at hopen
    split_ifs at hopen
    exact absurd hopen hs
  | timeWait =>
    rw [hc] at hopen
    exact TcpState.noConfusion hopen
  | closed | listen =>
    rw [hc] at hopen
    exact absurd hopen hs

end Endpoint

namespace Session

open Endpoint TcpConn

variable {s : Session}

theorem retains_iff (h : SenderInv s.endpoint s.stream) : s.Retains ↔ s.endpoint.Covers := by
  unfold Retains Endpoint.Covers
  refine forall_congr' fun hs => forall_congr' fun hfin => forall_congr' fun _ => ?_
  have hspent : ¬ s.endpoint.Spent := by
    unfold Endpoint.Spent
    split
    · rename_i hc
      rw [hc] at hfin
      exact absurd trivial hfin
    · rename_i hc
      rw [hc] at hfin
      exact absurd trivial hfin
    · exact id
    · exact id
    · rw [hs]
      exact nofun
  obtain ⟨done, hd⟩ := h.sent.resolve_left hspent
  have hlen : s.endpoint.conn.retransmitPayload.length = s.endpoint.conn.retransmitLen := by
    rw [TcpConn.retransmitPayload, List.length_take, Nat.min_eq_left hd.len]
  have hsent : s.sent = done := by
    rw [sent, hd.stream, List.length_append, Nat.add_sub_cancel, List.take_left]
  rw [hlen, hsent]
  exact and_iff_left hd.kept

/-- The invariant: the sender's account, and a store within its buffer. -/
structure RetentionInv (s : Session) : Prop where
  sender : SenderInv s.endpoint s.stream
  len_le : s.endpoint.conn.retransmitLen ≤ txBufSize

theorem len_le_of_callStep {e : Endpoint} {o : Outcome} (h : e.CallStep o)
    (hlen : e.conn.retransmitLen ≤ txBufSize) : o.endpoint.conn.retransmitLen ≤ txBufSize := by
  cases h with
  | keep t hconn hcall hbytes => rwa [hconn]
  | read size hconn hcall hbytes => rwa [hconn]
  | reset hconn hcall hbytes =>
    rw [hconn]
    exact Nat.zero_le _
  | store he hconn hcall hbytes =>
    rw [hconn]
    exact Nat.min_le_right _ _
  | fin he hconn hcall hbytes => rwa [hconn]

theorem RetentionInv.step (h : RetentionInv s) (a : Action) : RetentionInv (s.step a) := by
  refine ⟨h.sender.step a, ?_⟩
  show (s.endpoint.step a).endpoint.conn.retransmitLen ≤ txBufSize
  cases a with
  | segment seq ack flags window payload =>
    show (s.endpoint.deliver seq ack flags window payload).endpoint.conn.retransmitLen ≤ txBufSize
    unfold Endpoint.deliver
    split_ifs
    · exact h.len_le
    · have hkeep := (s.endpoint.conn.answers_handleConnSegment seq ack flags window payload).1.len
      show (s.endpoint.conn.handleConnSegment seq ack flags window payload).1.retransmitLen ≤ _
      rcases hkeep with hlen | hlen <;> rw [hlen]
      · exact h.len_le
      · exact Nat.zero_le _
  | elapse ticks => exact h.len_le
  | request r =>
    rcases s.endpoint.request_cases r with hcall | ⟨c, call, he, hopened⟩
    · exact len_le_of_callStep hcall h.len_le
    · rw [he]
      rcases hopened with ⟨_, _, _, _, rfl, -⟩ | ⟨_, _, _, _, _, rfl, -⟩ <;> exact Nat.zero_le _
  | proceed => exact len_le_of_callStep (callStep_proceed _) h.len_le

theorem covers_segment (hc : s.endpoint.Covers) (seq ack : UInt32) (flags : UInt8)
    (window : UInt16) (payload : Bytes) :
    (s.endpoint.deliver seq ack flags window payload).endpoint.Covers ↔
      s.Lockstep (.segment seq ack flags window payload) := by
  unfold Endpoint.deliver
  split_ifs with hclosed
  · refine iff_of_true hc fun hs => ?_
    exact TcpState.noConfusion (hclosed.symm.trans hs)
  · by_cases hs : s.endpoint.conn.state = .established
    · refine (covers_established hc hs seq ack flags window payload).trans ?_
      exact ⟨fun h _ => h, fun h => h hs⟩
    · exact iff_of_true (covers_handshake hs seq ack flags window payload) fun h => absurd h hs

theorem covers_proceed (h : RetentionInv s) (hc : s.endpoint.Covers) :
    s.endpoint.proceed.endpoint.Covers ↔ s.Lockstep .proceed := by
  show _ ↔ (_ → _)
  cases hcall : s.endpoint.call with
  | storing mss sent chunk rest =>
    have hfits := h.sender.fits
    rw [hcall] at hfits
    exact covers_storeChunk hc hcall h.len_le hfits.2
  | _ =>
    refine iff_of_true ((callStep_proceed _).covers hc fun _ _ _ _ hs => ?_) fun _ => trivial
    exact Call.noConfusion (hcall.symm.trans hs)

theorem retains_step_iff (h : RetentionInv s) (hs : s.Retains) (a : Action) :
    (s.step a).Retains ↔ s.Lockstep a := by
  have hc := (retains_iff h.sender).mp hs
  rw [retains_iff (h.sender.step a)]
  show (s.endpoint.step a).endpoint.Covers ↔ _
  cases a with
  | segment seq ack flags window payload => exact covers_segment hc seq ack flags window payload
  | elapse ticks => exact iff_of_true hc trivial
  | request r =>
    refine iff_of_true ?_ trivial
    rcases s.endpoint.request_cases r with hcall | ⟨c, call, he, hopened⟩
    · by_cases hidle : s.endpoint.call = .idle
      · exact hcall.covers hc fun _ _ _ _ hs => Call.noConfusion (hidle.symm.trans hs)
      · dsimp only [Endpoint.step]
        rw [if_neg hidle]
        exact hc
    · rw [he]
      rcases hopened with ⟨_, _, _, _, rfl, -⟩ | ⟨_, _, _, _, _, rfl, -⟩ <;> exact nofun
  | proceed => exact covers_proceed h hc

theorem retentionInv_new : RetentionInv new := ⟨senderInv_new, Nat.zero_le _⟩

/-- **Retention.** The bytes from `snd_una` up to `snd_nxt` are kept in every state of a run exactly
when its chunks and acknowledgements are in lockstep. -/
theorem always_retains_iff (as : List Action) :
    Lib.Always step Retains new as ↔ Lib.EachStep step Lockstep new as := by
  refine Lib.always_iff_eachStep_of_invariant (H := fun _ _ => True) retentionInv_new nofun
    (fun s a h _ => h.step a) (fun s a h hs _ => retains_step_iff h hs a) ?_
  exact Lib.eachStep_of_forall_mem fun _ _ => trivial

/-- A window of one byte splits the data into two chunks, and the second replaces the first. -/
theorem not_always_retains_twoChunks :
    ¬ Lib.Always step Retains new (sendThenRecv 1 [1, 2] 2) := by
  decide +kernel

end Session

end Aeterna.Net
