import Aeterna.Lib.Ring
import Aeterna.Lib.Run
import Aeterna.Net.TcpCalls

/-!
# What the receiver gets off the wire

The ring of a connection holds a queue (`RxRing.contents`): `write` appends what fits, `read`
takes from the front. Data is accepted in the established state only, at `rcv_nxt` and as far as
the ring has room, so what has been handed to the program and what waits in the ring together are
always the front of the peer's stream, and `rcv_nxt` stands at their end (`ReceiverInv`).

The peer's segments may be lost, repeated, reordered and cut anew; all that is asked is that a
payload carries the bytes of the stream at the offset its sequence number stands for (`Genuine`).
-/

namespace Aeterna.Net

open Lib.Ring

/-! ## The ring is a queue -/

namespace RxRing

variable {r : RxRing}

def contents (r : RxRing) : Bytes := window rxBufSize r.buf r.tail r.len

/-- The indices agree. -/
structure Ok (r : RxRing) : Prop where
  len_le : r.len ≤ rxBufSize
  tail_lt : r.tail < rxBufSize
  head_eq : r.head = (r.tail + r.len) % rxBufSize

theorem ok_new : Ok .new := ⟨Nat.zero_le _, by decide, rfl⟩

@[simp] theorem contents_new : contents .new = [] := rfl

@[simp] theorem length_contents : r.contents.length = r.len := length_window

theorem foldl_put {k : ℕ} {data : Bytes} (hhead : r.head = (r.tail + k) % rxBufSize)
    (hk : k + data.length ≤ rxBufSize) :
    (data.foldl put r).tail = r.tail ∧ (data.foldl put r).len = r.len ∧
      (data.foldl put r).head = (r.tail + (k + data.length)) % rxBufSize ∧
      window rxBufSize (data.foldl put r).buf r.tail (k + data.length) =
        window rxBufSize r.buf r.tail k ++ data := by
  induction data generalizing r k with
  | nil => simpa using hhead
  | cons b data ih =>
    rw [List.length_cons] at hk ⊢
    have hhead' : (r.put b).head = (r.tail + (k + 1)) % rxBufSize := by
      show (r.head + 1) % rxBufSize = _
      rw [hhead, Nat.mod_add_mod, Nat.add_assoc]
    obtain ⟨ht, hl, hh, hw⟩ := ih hhead' (by omega)
    have hbuf : window rxBufSize (r.put b).buf r.tail (k + 1) =
        window rxBufSize r.buf r.tail k ++ [b] := by
      show window rxBufSize (Function.update r.buf r.head b) _ _ = _
      rw [hhead]
      exact window_update b (by omega)
    rw [List.foldl_cons, show k + (data.length + 1) = k + 1 + data.length by omega]
    refine ⟨ht, hl, hh, ?_⟩
    rw [show (r.put b).tail = r.tail from rfl] at hw
    rw [hw, hbuf, List.append_assoc]
    rfl

theorem write_spec (h : r.Ok) (data : Bytes) :
    (r.write data).1.Ok ∧ (r.write data).2 = min data.length r.freeSpace ∧
      (r.write data).1.contents = r.contents ++ data.take (r.write data).2 := by
  have hn : (data.take (min data.length r.freeSpace)).length = min data.length r.freeSpace := by
    rw [List.length_take]
    omega
  have hfit : r.len + min data.length r.freeSpace ≤ rxBufSize := by
    have := h.len_le
    unfold freeSpace
    omega
  obtain ⟨ht, -, hh, hw⟩ := foldl_put h.head_eq (hn.symm ▸ hfit)
  rw [hn] at hh hw
  refine ⟨⟨hfit, ht.symm ▸ h.tail_lt, ?_⟩, rfl, ?_⟩
  · show ((data.take _).foldl put r).head =
      (((data.take _).foldl put r).tail + (r.len + min data.length r.freeSpace)) % rxBufSize
    rw [hh, ht]
  · show window rxBufSize _ ((data.take _).foldl put r).tail _ = _
    rw [ht]
    exact hw

theorem takeMany_spec (h : r.tail < rxBufSize) (n : ℕ) :
    (r.takeMany n).2 = window rxBufSize r.buf r.tail n ∧ (r.takeMany n).1.buf = r.buf ∧
      (r.takeMany n).1.tail = (r.tail + n) % rxBufSize ∧ (r.takeMany n).1.head = r.head := by
  induction n generalizing r with
  | zero => exact ⟨rfl, rfl, (Nat.mod_eq_of_lt h).symm, rfl⟩
  | succ n ih =>
    have hlt : r.take.1.tail < rxBufSize := Nat.mod_lt _ (by decide)
    obtain ⟨h₁, h₂, h₃, h₄⟩ := ih hlt
    refine ⟨?_, h₂, ?_, h₄⟩
    · show r.buf r.tail :: (r.take.1.takeMany n).2 = _
      rw [h₁, window_cons h]
      rfl
    · show (r.take.1.takeMany n).1.tail = _
      rw [h₃]
      show ((r.tail + 1) % rxBufSize + n) % rxBufSize = _
      rw [Nat.mod_add_mod, Nat.add_assoc, Nat.add_comm 1 n]

theorem read_spec (h : r.Ok) (size : ℕ) :
    (r.read size).1.Ok ∧ (r.read size).2 ++ (r.read size).1.contents = r.contents := by
  obtain ⟨h₁, h₂, h₃, h₄⟩ := takeMany_spec h.tail_lt (min size r.len)
  have hlen : min size r.len + (r.len - min size r.len) = r.len := by omega
  refine ⟨⟨?_, ?_, ?_⟩, ?_⟩
  · exact le_trans (Nat.sub_le _ _) h.len_le
  · show (r.takeMany _).1.tail < _
    rw [h₃]
    exact Nat.mod_lt _ (by decide)
  · show (r.takeMany _).1.head = ((r.takeMany _).1.tail + (r.len - min size r.len)) % rxBufSize
    rw [h₃, h₄, h.head_eq, Nat.mod_add_mod, Nat.add_assoc, hlen]
  · show (r.takeMany _).2 ++ window rxBufSize (r.takeMany _).1.buf (r.takeMany _).1.tail
      (r.len - min size r.len) = window rxBufSize r.buf r.tail r.len
    rw [h₁, h₂, h₃, ← window_add, hlen]

end RxRing

/-! ## The peer's stream -/

/-- A payload of the peer stands in its stream at offset `seq - (irs + 1)`, modulo `2 ^ 32`, and
does not come with a SYN. -/
def Genuine (stream : Bytes) (irs seq : UInt32) (flags : UInt8) (payload : Bytes) : Prop :=
  payload ≠ [] → flags &&& tcpSyn = 0 ∧
    ∃ o ≤ stream.length, UInt32.ofNat o = seq - (irs + 1) ∧ payload <+: stream.drop o

instance (stream : Bytes) (irs seq : UInt32) (flags : UInt8) (payload : Bytes) :
    Decidable (Genuine stream irs seq flags payload) :=
  inferInstanceAs (Decidable (_ → _ ∧ ∃ o ≤ stream.length, _))

/-- `received` and the ring are the front of the stream, and an open connection expects what
comes next. -/
structure ReceiverInv (stream : Bytes) (c : TcpConn) (received : Bytes) : Prop where
  ring : c.rxRing.Ok
  front : received ++ c.rxRing.contents <+: stream
  aligned : c.state = .established ∨ c.state = .synReceived →
    c.rcvNxt = c.rcvIrs + 1 + UInt32.ofNat (received ++ c.rxRing.contents).length
  fresh : c.state = .synSent → received ++ c.rxRing.contents = []

/-- `c'` expects what `c` does, with the same ring, or no longer takes data. -/
structure TcpConn.KeepsReceiver (c c' : TcpConn) : Prop where
  ring : c'.rxRing = c.rxRing
  next : c'.state = .established ∨ c'.state = .synReceived →
    (c.state = .established ∨ c.state = .synReceived) ∧ c'.rcvNxt = c.rcvNxt ∧
      c'.rcvIrs = c.rcvIrs
  fresh : c'.state = .synSent → c.state = .synSent

variable {stream received : Bytes} {c c' : TcpConn}

theorem ReceiverInv.keep (h : ReceiverInv stream c received) (hc : c.KeepsReceiver c') :
    ReceiverInv stream c' received where
  ring := hc.ring ▸ h.ring
  front := hc.ring ▸ h.front
  aligned hs := by
    obtain ⟨hs', hnxt, hirs⟩ := hc.next hs
    rw [hnxt, hirs, hc.ring]
    exact h.aligned hs'
  fresh hs := hc.ring ▸ h.fresh (hc.fresh hs)

theorem TcpConn.keepsReceiver_of_state (hring : c'.rxRing = c.rxRing)
    (hs : c'.state ≠ .established ∧ c'.state ≠ .synReceived ∧ c'.state ≠ .synSent) :
    c.KeepsReceiver c' where
  ring := hring
  next h := by
    rcases h with h | h
    · exact absurd h hs.1
    · exact absurd h hs.2.1
  fresh h := absurd h hs.2.2

theorem TcpConn.keepsReceiver_of_eq (hring : c'.rxRing = c.rxRing) (hs : c'.state = c.state)
    (hnxt : c'.rcvNxt = c.rcvNxt) (hirs : c'.rcvIrs = c.rcvIrs) : c.KeepsReceiver c' where
  ring := hring
  next h := ⟨hs ▸ h, hnxt, hirs⟩
  fresh h := hs ▸ h

theorem ReceiverInv.cleared (h : received <+: stream) : ReceiverInv stream .new received where
  ring := RxRing.ok_new
  front := by
    show received ++ RxRing.new.contents <+: stream
    rwa [RxRing.contents_new, List.append_nil]
  aligned hs := by simp [TcpConn.new] at hs
  fresh hs := by simp [TcpConn.new] at hs

theorem ReceiverInv.received_front (h : ReceiverInv stream c received) : received <+: stream :=
  (List.prefix_append _ _).trans h.front

theorem ReceiverInv.read (h : ReceiverInv stream c received) (size : ℕ) :
    ReceiverInv stream { c with rxRing := (c.rxRing.read size).1 }
      (received ++ (c.rxRing.read size).2) := by
  obtain ⟨hok, hq⟩ := RxRing.read_spec h.ring size
  have hall : received ++ (c.rxRing.read size).2 ++ (c.rxRing.read size).1.contents =
      received ++ c.rxRing.contents := by
    rw [List.append_assoc, hq]
  exact ⟨hok, hall ▸ h.front, hall ▸ h.aligned, hall ▸ h.fresh⟩

/-! ## Arriving segments -/

/-- A payload at the expected number continues what is there. -/
theorem ReceiverInv.append (h : ReceiverInv stream c received) (hlen : stream.length < 2 ^ 32)
    (hs : c.state = .established ∨ c.state = .synReceived) {payload : Bytes} {o : ℕ}
    (ho : o ≤ stream.length) (hseq : UInt32.ofNat o = c.rcvNxt - (c.rcvIrs + 1))
    (hp : payload <+: stream.drop o) :
    received ++ c.rxRing.contents ++ payload <+: stream := by
  have hk := h.front.length_le
  have hoff : o = (received ++ c.rxRing.contents).length := by
    rw [h.aligned hs, UInt32.add_comm, UInt32.add_sub_cancel] at hseq
    have := congrArg UInt32.toNat hseq
    have hsize : UInt32.size = 2 ^ 32 := rfl
    rw [UInt32.toNat_ofNat_of_lt' (by omega), UInt32.toNat_ofNat_of_lt' (by omega)] at this
    exact this
  obtain ⟨rest, hrest⟩ := h.front
  rw [hoff, ← hrest, List.drop_left] at hp
  rw [← hrest]
  exact List.prefix_append_right_inj _ |>.mpr hp

namespace TcpConn

theorem keepsReceiver_takeAck (c : TcpConn) (ack : UInt32) (isAck : Bool) (window : UInt16) :
    c.KeepsReceiver (c.takeAck ack isAck window) := by
  unfold takeAck
  split_ifs <;> exact keepsReceiver_of_eq rfl rfl rfl rfl

theorem keepsReceiver_takeFin (c : TcpConn) {state : TcpState}
    (hs : state ≠ .established ∧ state ≠ .synReceived ∧ state ≠ .synSent) :
    c.KeepsReceiver (c.takeFin state).1 := keepsReceiver_of_state rfl hs

end TcpConn

theorem ReceiverInv.takeData (h : ReceiverInv stream c received) (hlen : stream.length < 2 ^ 32)
    (hs : c.state = .established) {seq : UInt32} {flags : UInt8} {payload : Bytes}
    (hp : Genuine stream c.rcvIrs seq flags payload) :
    ReceiverInv stream (c.takeData seq payload).1 received := by
  unfold TcpConn.takeData
  split_ifs with hacc
  · obtain ⟨hne, rfl⟩ := hacc
    obtain ⟨-, o, ho, hseq, hpre⟩ := hp hne
    obtain ⟨hok, -, hcontents⟩ := RxRing.write_spec h.ring payload
    have hfront := h.append hlen (Or.inl hs) ho hseq
      (List.IsPrefix.trans ⟨_, payload.take_append_drop (c.rxRing.write payload).2⟩ hpre)
    rw [List.append_assoc, ← hcontents] at hfront
    refine ⟨hok, hfront, fun _ => ?_, fun hs' => by simp [hs] at hs'⟩
    show c.rcvNxt + UInt32.ofNat (c.rxRing.write payload).2 = c.rcvIrs + 1 + _
    have hn : (payload.take (c.rxRing.write payload).2).length = (c.rxRing.write payload).2 := by
      rw [List.length_take]
      exact Nat.min_eq_left (Nat.min_le_left _ _)
    have hall : (received ++ (c.rxRing.write payload).1.contents).length =
        (received ++ c.rxRing.contents).length + (c.rxRing.write payload).2 := by
      rw [hcontents, ← List.append_assoc, List.length_append, hn]
    rw [h.aligned (Or.inl hs), hall, UInt32.ofNat_add, UInt32.add_assoc]
  · exact h

theorem ReceiverInv.handleEstablished (h : ReceiverInv stream c received)
    (hlen : stream.length < 2 ^ 32) (hs : c.state = .established) {seq ack : UInt32}
    {flags : UInt8} {isAck isFin : Bool} {window : UInt16} {payload : Bytes}
    (hp : Genuine stream c.rcvIrs seq flags payload) :
    ReceiverInv stream (c.handleEstablished seq ack isAck isFin window payload).1 received := by
  have hack := h.keep (c.keepsReceiver_takeAck ack isAck window)
  have hstate : (c.takeAck ack isAck window).state = .established ∧
      (c.takeAck ack isAck window).rcvIrs = c.rcvIrs := by
    unfold TcpConn.takeAck
    split_ifs <;> exact ⟨hs, rfl⟩
  have hdata := hack.takeData hlen hstate.1 (hstate.2.symm ▸ hp)
  unfold TcpConn.handleEstablished
  split_ifs
  · exact hdata.keep (TcpConn.keepsReceiver_takeFin _ (by decide))
  · exact hdata

/-- A segment keeps the invariant, if it is the peer's where data is taken. -/
theorem ReceiverInv.handleConnSegment (h : ReceiverInv stream c received)
    (hlen : stream.length < 2 ^ 32) {seq ack : UInt32} {flags : UInt8} {window : UInt16}
    {payload : Bytes}
    (hp : c.state = .established → Genuine stream c.rcvIrs seq flags payload) :
    ReceiverInv stream (c.handleConnSegment seq ack flags window payload).1 received := by
  have gone (una : UInt32) {state : TcpState} :
      state ≠ .established ∧ state ≠ .synReceived ∧ state ≠ .synSent →
      ReceiverInv stream { c with sndUna := una, state := state } received :=
    fun hs => h.keep (TcpConn.keepsReceiver_of_state rfl hs)
  have fin (una : UInt32) :
      ReceiverInv stream (TcpConn.takeFin { c with sndUna := una } .timeWait).1 received :=
    h.keep (TcpConn.keepsReceiver_of_state rfl (by simp [TcpConn.takeFin]))
  unfold TcpConn.handleConnSegment
  by_cases hrst : (flags &&& tcpRst != 0) = true
  · rw [if_pos hrst]
    exact gone c.sndUna (by decide)
  rw [if_neg hrst]
  cases hs : c.state with
  | synSent =>
    dsimp only
    split_ifs
    · have hnil := h.fresh hs
      refine ⟨h.ring, h.front, fun _ => ?_, fun hs' => by simp at hs'⟩
      rw [hnil]
      exact (UInt32.add_zero _).symm
    · exact gone c.sndUna (by decide)
    · exact h
  | synReceived =>
    dsimp only
    split_ifs
    · exact h.keep ⟨rfl, fun _ => ⟨Or.inr hs, rfl, rfl⟩, fun hs' => by simp at hs'⟩
    · exact h
  | established => exact h.handleEstablished hlen hs (hp hs)
  | finWait1 =>
    dsimp only
    split_ifs
    · exact fin ack
    · exact gone ack (by decide)
    · exact fin c.sndUna
    · exact h
  | finWait2 =>
    dsimp only
    split_ifs
    · exact fin c.sndUna
    · exact h
  | lastAck =>
    dsimp only
    split_ifs
    · exact gone c.sndUna (by decide)
    · exact h
  | timeWait => exact gone c.sndUna (by decide)
  | closeWait =>
    dsimp only
    split_ifs
    · exact gone ack (by decide)
    · exact h
  | closed => exact h
  | listen => exact h

/-! ## Calls of the program -/

/-- A FIN that has been sent ends the connection. -/
def Call.Leaves : Call → Prop
  | .finSent state => state ≠ .established ∧ state ≠ .synReceived ∧ state ≠ .synSent
  | _ => True

theorem Call.Next.leaves {call call' : Call} (h : call.Next call') (hcall : call.Leaves) :
    call'.Leaves := by
  cases h with
  | stay => exact hcall
  | fin hstate => rcases hstate with rfl | rfl <;> exact ⟨nofun, nofun, nofun⟩
  | _ => exact trivial

/-! ## The receiver -/

/-- An endpoint, how many connections its slot has held, and what the program has received on the
present one. -/
structure Receiver where
  endpoint : Endpoint
  opened : ℕ
  received : Bytes

namespace Receiver

open Endpoint (Action)

def boot : Receiver := ⟨.new, 0, []⟩

/-- The slot is allocated to a new connection. -/
def Opens (e : Endpoint) : Action → Prop
  | .request (.connect ..) | .request (.accept ..) => e.call = .idle ∧ e.conn.state = .closed
  | _ => False

instance (e : Endpoint) : DecidablePred (Opens e) := fun a => by
  unfold Opens
  split <;> infer_instance

def step (s : Receiver) (a : Action) : Receiver :=
  let o := s.endpoint.step a
  if Opens s.endpoint a then ⟨o.endpoint, s.opened + 1, []⟩
  else ⟨o.endpoint, s.opened, s.received ++ o.bytes⟩

/-- A segment that arrives on an open connection is one of its peer. -/
def GenuineStep (streams : ℕ → Bytes) (s : Receiver) : Action → Prop
  | .segment seq _ flags _ payload => s.endpoint.conn.state = .established →
      Genuine (streams s.opened) s.endpoint.conn.rcvIrs seq flags payload
  | _ => True

/-- The invariant of the slot, for the stream of its present connection. -/
def Inv (streams : ℕ → Bytes) (s : Receiver) : Prop :=
  s.endpoint.call.Leaves ∧ ReceiverInv (streams s.opened) s.endpoint.conn s.received

variable {streams : ℕ → Bytes} {s : Receiver}

theorem inv_boot : Inv streams boot := ⟨trivial, .cleared ⟨_, rfl⟩⟩

theorem inv_open {c : TcpConn} {opened : ℕ} {call : Call} {ticks : UInt64}
    (hcall : call.Leaves) (hring : c.rxRing = .new)
    (hnxt : c.state = .established ∨ c.state = .synReceived → c.rcvNxt = c.rcvIrs + 1) :
    Inv streams ⟨⟨c, ticks, call⟩, opened, []⟩ := by
  have hnil : c.rxRing.contents = [] := hring ▸ RxRing.contents_new
  refine ⟨hcall, hring ▸ RxRing.ok_new, ?_, fun hs => ?_, fun _ => hnil⟩
  · rw [hnil]
    exact ⟨_, rfl⟩
  · rw [hnil, hnxt hs]
    exact (UInt32.add_zero _).symm

theorem Inv.opens (a : Action) (ho : Opens s.endpoint a) : Inv streams (s.step a) := by
  unfold step
  rw [if_pos ho]
  unfold Opens at ho
  split at ho
  · dsimp only [Endpoint.step, Endpoint.begin]
    rw [if_pos ho.1, if_pos ho.2]
    exact inv_open trivial rfl nofun
  · dsimp only [Endpoint.step, Endpoint.begin]
    rw [if_pos ho.1, if_pos ho.2]
    exact inv_open trivial rfl fun _ => rfl
  · exact ho.elim

theorem Inv.call (h : Inv streams s) {o : Outcome} (ho : s.endpoint.CallStep o) :
    Inv streams ⟨o.endpoint, s.opened, s.received ++ o.bytes⟩ := by
  have kept (hcall : o.endpoint.call.Leaves) (hbytes : o.bytes = [])
      (hconn : s.endpoint.conn.KeepsReceiver o.endpoint.conn) :
      Inv streams ⟨o.endpoint, s.opened, s.received ++ o.bytes⟩ := by
    refine ⟨hcall, ?_⟩
    rw [hbytes, List.append_nil]
    exact h.2.keep hconn
  cases ho with
  | keep t hconn hcall hbytes =>
    exact kept (hcall.leaves h.1) hbytes
      (hconn ▸ TcpConn.keepsReceiver_of_eq rfl rfl rfl rfl)
  | read size hconn hcall hbytes =>
    refine ⟨?_, ?_⟩
    · rcases hcall with ⟨-, hcall⟩ | ⟨deadline, -, hcall | hcall | hcall⟩
      all_goals
        rw [hcall]
        exact trivial
    · rw [hbytes, hconn]
      exact h.2.read size
  | reset hconn hcall hbytes =>
    refine ⟨?_, ?_⟩
    · rw [hcall]
      exact trivial
    · rw [hbytes, hconn, List.append_nil]
      exact .cleared h.2.received_front
  | store he hconn hcall hbytes =>
    refine kept ?_ hbytes (hconn ▸ TcpConn.keepsReceiver_of_eq rfl rfl rfl rfl)
    rw [hcall]
    exact trivial
  | fin he hconn hcall hbytes =>
    have hleaves := h.1
    rw [he] at hleaves
    refine kept ?_ hbytes (hconn ▸ TcpConn.keepsReceiver_of_state rfl hleaves)
    rw [hcall]
    exact trivial

theorem callStep_of_not_opens {e : Endpoint} (r : Request) (ho : ¬ Opens e (.request r)) :
    e.CallStep (e.step (.request r)) := by
  refine Endpoint.callStep_request r fun hopens hidle hclosed => ho ?_
  cases r with
  | connect => exact ⟨hidle, hclosed⟩
  | accept => exact ⟨hidle, hclosed⟩
  | _ => exact hopens.elim

theorem Inv.step (hlen : ∀ k, (streams k).length < 2 ^ 32) (h : Inv streams s) (a : Action)
    (ha : GenuineStep streams s a) : Inv streams (s.step a) := by
  by_cases ho : Opens s.endpoint a
  · exact Inv.opens a ho
  unfold Receiver.step
  rw [if_neg ho]
  cases a with
  | segment seq ack flags window payload =>
    have hnil : (s.endpoint.deliver seq ack flags window payload).bytes = [] := by
      unfold Endpoint.deliver
      split_ifs <;> rfl
    dsimp only [Endpoint.step]
    rw [hnil, List.append_nil]
    unfold Endpoint.deliver
    split_ifs
    · exact h
    · exact ⟨h.1, h.2.handleConnSegment (hlen _) ha⟩
  | elapse ticks => exact h.call (Endpoint.callStep_elapse _ ticks)
  | request r => exact h.call (callStep_of_not_opens r ho)
  | proceed => exact h.call (Endpoint.callStep_proceed _)

/-- **Receive integrity.** In every run of a connection slot in which the segments that arrive on
an open connection are its peer's, what the program has received on it is at every moment the
front of the peer's stream. -/
theorem received_prefix_run (streams : ℕ → Bytes) (hlen : ∀ k, (streams k).length < 2 ^ 32)
    (as : List Action) (h : Lib.EachStep step (GenuineStep streams) boot as) :
    Lib.Always step (fun s => s.received <+: streams s.opened) boot as :=
  (Lib.always_of_eachStep inv_boot (fun _ a hs ha => hs.step hlen a ha) h).imp
    fun _ hs => hs.2.received_front

/-- A handshake with a peer whose stream is `1, 2, 3`. Its second segment overtakes the first and
is dropped, both are sent again in one, and the program reads two bytes and then one. -/
def reorderedRun : List Action :=
  [.request (.connect (Vector.replicate 4 10) 49152 80 0x10000), .proceed,
    .segment 1000 0x10001 0x12 4096 [], .proceed,
    .segment 1003 0x10001 0x18 4096 [3], .segment 1001 0x10001 0x18 4096 [1, 2],
    .segment 1001 0x10001 0x18 4096 [1, 2, 3], .request (.recv 2 10), .proceed,
    .segment 1003 0x10001 0x18 4096 [3], .request (.recv 8 10), .proceed]

instance (streams : ℕ → Bytes) (s : Receiver) : DecidablePred (GenuineStep streams s) :=
  fun a => by
    unfold GenuineStep
    split <;> infer_instance

theorem received_prefix_reorderedRun :
    Lib.EachStep step (GenuineStep fun _ => [1, 2, 3]) boot reorderedRun ∧
      (Lib.run step boot reorderedRun).received = [1, 2, 3] ∧
      Lib.Always step (fun s => s.received <+: [1, 2, 3]) boot reorderedRun :=
  have h : Lib.EachStep step (GenuineStep fun _ => [1, 2, 3]) boot reorderedRun := by
    decide +kernel
  ⟨h, by decide +kernel, received_prefix_run (fun _ => [1, 2, 3]) (fun _ => by decide) _ h⟩

end Receiver

end Aeterna.Net
