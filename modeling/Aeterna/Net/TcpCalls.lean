import Aeterna.Net.Tcp

/-!
# What the calls of a program do to a connection

`Endpoint.CallStep` lists what one step of the program's side can do, from the beginning of a call to
its return: leave the connection alone but for the time of the last transmission, read from the
ring, clear the slot, count a chunk as sent, or leave for the state after the FIN. Opening a
connection is not among them. What such steps keep is proved from this list.
-/

namespace Aeterna.Net

/-- The bytes that a step returns to the program. -/
def Outcome.bytes (o : Outcome) : Bytes :=
  match o.reply with
  | some (.received data) => data
  | _ => []

def Call.FinSent : Call → Prop
  | .finSent _ | .closing .. => True
  | _ => False

instance : DecidablePred Call.FinSent := fun call => by
  unfold Call.FinSent
  split <;> infer_instance

/-- How a call goes on while the connection is left alone. -/
inductive Call.Next : Call → Call → Prop
  | stay (call : Call) : Next call call
  | finish {call : Call} (h : ¬ call.FinSent) : Next call .idle
  | send {mss : ℕ} (h : mss ≤ 1440) (data : Bytes) : Next .idle (.sending mss 0 data)
  | recv (size : ℕ) (deadline : UInt64) : Next .idle (.receiving size deadline)
  | fin {state : TcpState} (h : state = .finWait1 ∨ state = .lastAck) :
      Next .idle (.finSent state)
  | connect (deadline retransmitDeadline : UInt64) :
      Next .synSent (.connecting deadline retransmitDeadline)
  | reconnect (deadline t t' : UInt64) : Next (.connecting deadline t) (.connecting deadline t')
  | accept (hsDeadline : UInt64) : Next .synAckSent (.accepting hsDeadline)
  | chunk (mss sent : ℕ) (rest : Bytes) :
      Next (.sending mss sent rest) (.storing mss sent (rest.take mss) (rest.drop mss))
  | again (size : ℕ) (deadline : UInt64) :
      Next (.resent size deadline) (.receiving size deadline)

def Request.Opens : Request → Prop
  | .connect .. | .accept .. => True
  | _ => False

namespace Endpoint

/-- What a step of the program's side does. -/
inductive CallStep (e : Endpoint) (o : Outcome) : Prop
  | keep (t : UInt64) (hconn : o.endpoint.conn = { e.conn with lastTxTick := t })
      (hcall : e.call.Next o.endpoint.call) (hbytes : o.bytes = [])
  | read (size : ℕ) (hconn : o.endpoint.conn = { e.conn with rxRing := (e.conn.rxRing.read size).1 })
      (hcall : e.call = .idle ∧ o.endpoint.call = .idle ∨
        ∃ deadline, e.call = .receiving size deadline ∧ (o.endpoint.call = .idle ∨
          o.endpoint.call = .receiving size deadline ∨ o.endpoint.call = .resent size deadline))
      (hbytes : o.bytes = (e.conn.rxRing.read size).2)
  | reset (hconn : o.endpoint.conn = .new) (hcall : o.endpoint.call = .idle) (hbytes : o.bytes = [])
  | store {mss sent : ℕ} {chunk rest : Bytes} (he : e.call = .storing mss sent chunk rest)
      (hconn : o.endpoint.conn = e.conn.storeChunk e.ticks chunk)
      (hcall : o.endpoint.call = .sending mss (sent + chunk.length) rest) (hbytes : o.bytes = [])
  | fin {state : TcpState} {deadline : UInt64} (he : e.call = .finSent state)
      (hconn : o.endpoint.conn = { e.conn with
        sndNxt := e.conn.sndNxt + 1, state := state, lastTxTick := e.ticks })
      (hcall : o.endpoint.call = .closing state deadline) (hbytes : o.bytes = [])

variable {e : Endpoint}

theorem CallStep.same {o : Outcome} (hconn : o.endpoint.conn = e.conn)
    (hcall : e.call.Next o.endpoint.call) (hbytes : o.bytes = []) : e.CallStep o :=
  .keep e.conn.lastTxTick hconn hcall hbytes

theorem CallStep.finish {call : Call} (hcall : e.call = call) (hfin : ¬ call.FinSent) {reply : Reply}
    (hbytes : (e.finish reply).bytes = []) : e.CallStep (e.finish reply) :=
  .same rfl (.finish (hcall ▸ hfin)) hbytes

theorem callStep_beginSend (hidle : e.call = .idle) (data : Bytes) :
    e.CallStep (e.beginSend data) := by
  have accepted : e.CallStep (if min 1440 e.conn.sndWnd.toNat = 0 then
      e.finish (.failed .wouldBlock)
      else e.wait (.sending (min 1440 e.conn.sndWnd.toNat) 0 data) []) := by
    split_ifs
    · exact .finish hidle id rfl
    · exact .same rfl (hidle ▸ .send (Nat.min_le_left _ _) data) rfl
  unfold beginSend
  split
  · exact accepted
  · exact accepted
  · exact .finish hidle id rfl

theorem callStep_recvNb (hidle : e.call = .idle) (size : ℕ) : e.CallStep (e.recvNb size) := by
  unfold recvNb
  dsimp only
  by_cases hout : (e.conn.rxRing.read size).2 ≠ []
  · rw [if_pos hout]
    exact .read size rfl (Or.inl ⟨hidle, rfl⟩) rfl
  · rw [if_neg hout]
    rw [not_not] at hout
    split <;> exact .read size rfl (Or.inl ⟨hidle, rfl⟩) hout.symm

theorem callStep_beginClose (hidle : e.call = .idle) : e.CallStep e.beginClose := by
  unfold beginClose
  split
  · exact .same rfl (hidle ▸ .fin (Or.inl rfl)) rfl
  · exact .same rfl (hidle ▸ .fin (Or.inr rfl)) rfl
  · exact .reset rfl rfl rfl

theorem callStep_request (r : Request)
    (hopen : r.Opens → e.call = .idle → e.conn.state ≠ .closed) :
    e.CallStep (e.step (.request r)) := by
  dsimp only [Endpoint.step]
  split_ifs with hidle
  · have refused (error : TcpError) : e.CallStep (e.finish (.failed error)) := .finish hidle id rfl
    cases r with
    | connect dstIp localPort dstPort iss =>
      dsimp only [Endpoint.begin]
      rw [if_neg (hopen trivial hidle)]
      exact refused _
    | accept clientIp listenPort clientPort clientIrs iss =>
      dsimp only [Endpoint.begin]
      rw [if_neg (hopen trivial hidle)]
      exact refused _
    | send data => exact callStep_beginSend hidle data
    | recv size timeoutTicks => exact .same rfl (hidle ▸ .recv size _) rfl
    | recvNb size => exact callStep_recvNb hidle size
    | close => exact callStep_beginClose hidle
  · exact .same rfl (.stay _) rfl

theorem request_cases (e : Endpoint) (r : Request) :
    e.CallStep (e.step (.request r)) ∨ ∃ c call,
      (e.step (.request r)).endpoint = { e with conn := c, call := call } ∧
        ((∃ dstIp localPort dstPort iss, c = .openActive dstIp localPort dstPort iss ∧
            call = .synSent) ∨
          ∃ ip listenPort port irs iss, c = .openPassive ip listenPort port irs iss ∧
            call = .synAckSent) := by
  by_cases hopen : r.Opens ∧ e.call = .idle ∧ e.conn.state = .closed
  · obtain ⟨hr, hidle, hclosed⟩ := hopen
    dsimp only [Endpoint.step]
    rw [if_pos hidle]
    cases r with
    | connect dstIp localPort dstPort iss =>
      dsimp only [Endpoint.begin]
      rw [if_pos hclosed]
      exact Or.inr ⟨_, _, rfl, Or.inl ⟨dstIp, localPort, dstPort, iss, rfl, rfl⟩⟩
    | accept clientIp listenPort clientPort clientIrs iss =>
      dsimp only [Endpoint.begin]
      rw [if_pos hclosed]
      exact Or.inr ⟨_, _, rfl,
        Or.inr ⟨clientIp, listenPort, clientPort, clientIrs, iss, rfl, rfl⟩⟩
    | _ => exact hr.elim
  · exact Or.inl (callStep_request r fun hr hidle hclosed => hopen ⟨hr, hidle, hclosed⟩)

theorem callStep_elapse (e : Endpoint) (ticks : UInt64) : e.CallStep (e.step (.elapse ticks)) :=
  .same rfl (.stay _) rfl

theorem recvDeadline_cases (e : Endpoint) (size : ℕ) (deadline : UInt64) :
    (e.recvDeadline size deadline).endpoint.conn = e.conn ∧
      (e.recvDeadline size deadline).bytes = [] ∧
      ((e.recvDeadline size deadline).endpoint.call = .idle ∨
        (e.recvDeadline size deadline).endpoint.call = .receiving size deadline) := by
  unfold recvDeadline
  split_ifs
  · exact ⟨rfl, rfl, Or.inl rfl⟩
  · exact ⟨rfl, rfl, Or.inr rfl⟩

theorem recvRetransmit_cases (e : Endpoint) (size : ℕ) (deadline : UInt64) :
    (e.recvRetransmit size deadline).endpoint.conn = e.conn ∧
      (e.recvRetransmit size deadline).bytes = [] ∧
      ((e.recvRetransmit size deadline).endpoint.call = .idle ∨
        (e.recvRetransmit size deadline).endpoint.call = .receiving size deadline ∨
        (e.recvRetransmit size deadline).endpoint.call = .resent size deadline) := by
  unfold recvRetransmit
  split_ifs
  · exact ⟨rfl, rfl, Or.inr (Or.inr rfl)⟩
  · obtain ⟨hconn, hbytes, hcall⟩ := recvDeadline_cases e size deadline
    exact ⟨hconn, hbytes, hcall.imp_right Or.inl⟩

theorem callStep_recvPass {size : ℕ} {deadline : UInt64} (hcall : e.call = .receiving size deadline) :
    e.CallStep (e.recvPass size deadline) := by
  unfold recvPass
  dsimp only
  by_cases hout : (e.conn.rxRing.read size).2 ≠ []
  · rw [if_pos hout]
    exact .read size rfl (Or.inr ⟨deadline, hcall, Or.inl rfl⟩) rfl
  rw [if_neg hout]
  rw [not_not] at hout
  have waits (e' : Endpoint)
      (he' : e'.conn = { e.conn with rxRing := (e.conn.rxRing.read size).1 }) :
      e.CallStep (e'.recvRetransmit size deadline) := by
    obtain ⟨hconn, hbytes, hcall'⟩ := recvRetransmit_cases e' size deadline
    exact .read size (hconn.trans he') (Or.inr ⟨deadline, hcall, hcall'⟩) (hbytes.trans hout.symm)
  split
  · exact waits _ rfl
  · exact waits _ rfl
  all_goals exact .read size rfl (Or.inr ⟨deadline, hcall, Or.inl rfl⟩) hout.symm

theorem callStep_resent {e' : Endpoint} {t : UInt64} {size : ℕ} {deadline : UInt64}
    (hconn : e'.conn = { e.conn with lastTxTick := t }) (hcall : e.call = .resent size deadline) :
    e.CallStep (e'.recvDeadline size deadline) := by
  obtain ⟨hconn', hbytes, hcall'⟩ := recvDeadline_cases e' size deadline
  refine .keep t (hconn'.trans hconn) ?_ hbytes
  rw [hcall]
  rcases hcall' with hcall' | hcall' <;> rw [hcall']
  · exact .finish id
  · exact .again size deadline

theorem callStep_connectPass {deadline t : UInt64} (hcall : e.call = .connecting deadline t) :
    e.CallStep (e.connectPass deadline t) := by
  unfold connectPass
  split
  · exact .finish hcall id rfl
  · exact .finish hcall id rfl
  · split_ifs
    · exact .reset rfl rfl rfl
    · exact .same rfl (hcall ▸ .reconnect deadline t _) rfl
    · exact .same rfl (hcall ▸ .stay _) rfl

theorem callStep_acceptPass {hsDeadline : UInt64} (hcall : e.call = .accepting hsDeadline) :
    e.CallStep (e.acceptPass hsDeadline) := by
  unfold acceptPass
  split
  · exact .finish hcall id rfl
  · exact .finish hcall id rfl
  · split_ifs
    · exact .reset rfl rfl rfl
    · exact .same rfl (hcall ▸ .stay _) rfl

theorem callStep_proceed (e : Endpoint) : e.CallStep e.proceed := by
  unfold proceed
  cases hc : e.call with
  | idle => exact .same rfl (by rw [hc]; exact .stay _) rfl
  | synSent => exact .keep e.ticks rfl (by rw [hc]; exact .connect _ _) rfl
  | connecting deadline retransmitDeadline => exact callStep_connectPass hc
  | synAckSent => exact .keep e.ticks rfl (by rw [hc]; exact .accept _) rfl
  | accepting hsDeadline => exact callStep_acceptPass hc
  | sending mss sent rest =>
    dsimp only [sendChunk]
    split_ifs
    · exact .finish hc id rfl
    · exact .same rfl (by rw [hc]; exact .chunk mss sent rest) rfl
  | storing mss sent chunk rest => exact .store hc rfl rfl rfl
  | receiving size deadline => exact callStep_recvPass hc
  | resent size deadline => exact callStep_resent rfl hc
  | finSent state => exact .fin hc rfl rfl rfl
  | closing state deadline =>
    dsimp only [closePass]
    split_ifs
    · exact .reset rfl rfl rfl
    · exact .same rfl (by rw [hc]; exact .stay _) rfl

end Endpoint

end Aeterna.Net
