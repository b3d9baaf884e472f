import Aeterna.Net.Tls.Finished
import Aeterna.Net.Tls.Receive

/-!
# Handshake messages across records

The first loop of `tls_connect_inner` parses the payload of each handshake record on its own. What it
does depends on the records only (`map_serverFlight`), and where every record holds whole messages it
is a fold over the messages, whatever the records are (`collect_wholeRecords`). So two ways of putting
the server's messages into records, both without cutting a message, give the same result
(`extracted_eq_of_whole`); a message that is cut is lost (`cut_times_out`).
-/

namespace Aeterna.Net.Tls

open Lib.Bytes

/-! ## The loop over the records -/

/-- The first loop on the records that arrive. -/
def collect (P : Primitives) (f : Flight) : List (UInt8 × Bytes) → Except String Flight
  | [] => if f.done then .ok f else .error "TLS: timeout waiting for server"
  | (ct, payload) :: records =>
    if f.done then .ok f
    else if ct = ctAlert then .error "TLS: server sent alert"
    else if ct ≠ ctHandshake then collect P f records
    else
      match f.takeRecord P payload with
      | .ok f => collect P f records
      | .error e => .error e

theorem collect_of_done (P : Primitives) {f : Flight} (h : f.done = true)
    (records : List (UInt8 × Bytes)) : collect P f records = .ok f := by
  cases records with
  | nil => rw [collect, if_pos h]
  | cons record records => rw [collect, if_pos h]

theorem map_serverFlight (P : Primitives) (f : Flight) (r : Reader) :
    (serverFlight P f r).map Prod.fst = collect P f (serverRecords r) := by
  induction hn : r.size using Nat.strong_induction_on generalizing f r with
  | _ n ih =>
    by_cases hdone : f.done = true
    · rw [serverFlight, if_pos hdone, collect_of_done P hdone]
      rfl
    rw [serverFlight, serverRecords, if_neg hdone]
    cases hr : r.readRecord with
    | mk record r' =>
      cases record with
      | none =>
        rw [collect, if_neg hdone]
        rfl
      | some record =>
        obtain ⟨ct, payload⟩ := record
        have hlt : r'.size < n := hn ▸ Reader.size_readRecord hr
        dsimp only
        rw [collect]
        split_ifs with halert hother
        · rfl
        · exact ih _ hlt f r' rfl
        · cases f.takeRecord P payload with
          | ok f' => exact ih _ hlt f' r' rfl
          | error e => rfl

/-! ## Messages -/

/-- A body whose length fits the length field of a message. -/
abbrev Body := { body : Bytes // body.length < 2 ^ 24 }

structure Message where
  hsType : UInt8
  body : Body

namespace Message

def bytes (m : Message) : Bytes := wrapHandshake m.hsType m.body

def pair (m : Message) : UInt8 × Bytes := (m.hsType, m.body)

theorem length_bytes (m : Message) : m.bytes.length = 4 + m.body.val.length := by
  rw [bytes, wrapHandshake, List.length_append]
  rfl

theorem parse_bytes_append (m : Message) (rest : Bytes) :
    parseHandshakeMessages (m.bytes ++ rest) = m.pair :: parseHandshakeMessages rest := by
  have hfield : beValue (((m.bytes ++ rest).drop 1).take 3) = m.body.val.length := by
    show beValue ((beBytes 3 m.body.val.length ++ (m.body.val ++ rest)).take 3) = _
    rw [List.take_left' (length_beBytes _ _), beValue_beBytes_of_lt m.body.property]
  have hlength : (m.bytes ++ rest).length = 4 + m.body.val.length + rest.length := by
    rw [List.length_append, length_bytes]
  have hbody : (m.bytes ++ rest).drop 4 = m.body.val ++ rest := by
    rfl
  rw [parseHandshakeMessages, hfield, if_neg (by omega)]
  rw [if_neg (by omega), hbody, List.take_left, ← length_bytes, List.drop_left]
  rfl

end Message

theorem parse_messages_append (messages : List Message) (tail : Bytes) :
    parseHandshakeMessages (messages.flatMap Message.bytes ++ tail) =
      messages.map Message.pair ++ parseHandshakeMessages tail := by
  induction messages with
  | nil => rfl
  | cons m messages ih =>
    rw [List.flatMap_cons, List.append_assoc, m.parse_bytes_append, ih]
    rfl

theorem parse_short {data : Bytes} (h : data.length < 4) : parseHandshakeMessages data = [] := by
  rw [parseHandshakeMessages, if_pos h]

theorem parse_messages (messages : List Message) :
    parseHandshakeMessages (messages.flatMap Message.bytes) = messages.map Message.pair := by
  have hnil : parseHandshakeMessages [] = [] := parse_short (by decide)
  have h := parse_messages_append messages []
  rwa [List.append_nil, hnil, List.append_nil] at h

/-! ## The fold over the messages -/

namespace Flight

/-- The transcript with a record's payload at its end. -/
def hear (f : Flight) (payload : Bytes) : Flight :=
  { f with transcript := f.transcript ++ payload }

theorem hear_nil (f : Flight) : f.hear [] = f := by
  rw [hear, List.append_nil]

theorem hear_append (f : Flight) (a b : Bytes) : f.hear (a ++ b) = (f.hear a).hear b := by
  rw [hear, hear, hear, List.append_assoc]

variable (P : Primitives)

/-- What the messages say, one after the other. -/
def takeMessages (f : Flight) (messages : List (UInt8 × Bytes)) : Except String Flight :=
  messages.foldlM (takeMessage P) f

theorem takeRecord_eq (f : Flight) (payload : Bytes) :
    f.takeRecord P payload = (f.hear payload).takeMessages P (parseHandshakeMessages payload) := rfl

theorem takeMessages_append (f : Flight) (a b : List (UInt8 × Bytes)) :
    f.takeMessages P (a ++ b) = f.takeMessages P a >>= fun f => f.takeMessages P b :=
  List.foldlM_append

theorem takeMessage_hear (f : Flight) (payload : Bytes) (msg : UInt8 × Bytes) :
    (f.hear payload).takeMessage P msg = (f.takeMessage P msg).map (·.hear payload) := by
  unfold takeMessage
  split_ifs
  · cases parseServerHello msg.2 <;> rfl
  · cases P.parseCertificateChain msg.2 <;> rfl
  · cases parseServerKeyExchangeEcdhe msg.2 <;> rfl
  · rfl
  · rfl

theorem takeMessages_hear (f : Flight) (payload : Bytes) (messages : List (UInt8 × Bytes)) :
    (f.hear payload).takeMessages P messages =
      (f.takeMessages P messages).map (·.hear payload) := by
  induction messages generalizing f with
  | nil => rfl
  | cons msg messages ih =>
    unfold takeMessages at ih ⊢
    rw [List.foldlM_cons, List.foldlM_cons, takeMessage_hear]
    cases f.takeMessage P msg with
    | error e => rfl
    | ok f' => exact ih f'

theorem done_takeMessage {f f' : Flight} {msg : UInt8 × Bytes}
    (h : f.takeMessage P msg = .ok f') :
    f'.done = (f.done || decide (msg.1 = hsServerHelloDone)) := by
  unfold takeMessage at h
  split_ifs at h with h₁ h₂ h₃ h₄
  · rw [h₁]
    cases hsh : parseServerHello msg.2 <;> rw [hsh] at h <;> cases h
    exact (Bool.or_false _).symm
  · rw [h₂]
    cases hcert : P.parseCertificateChain msg.2 <;> rw [hcert] at h <;> cases h
    exact (Bool.or_false _).symm
  · rw [h₃]
    cases hske : parseServerKeyExchangeEcdhe msg.2 <;> rw [hske] at h <;> cases h <;>
      exact (Bool.or_false _).symm
  · cases h
    rw [h₄]
    exact (Bool.or_true _).symm
  · cases h
    rw [decide_eq_false h₄, Bool.or_false]

theorem done_takeMessages {f f' : Flight} {messages : List (UInt8 × Bytes)}
    (h : f.takeMessages P messages = .ok f') :
    f'.done = (f.done || messages.any (·.1 = hsServerHelloDone)) := by
  induction messages generalizing f with
  | nil =>
    cases h
    exact (Bool.or_false _).symm
  | cons msg messages ih =>
    unfold takeMessages at h ih
    rw [List.foldlM_cons] at h
    cases hmsg : f.takeMessage P msg with
    | error e =>
      rw [hmsg] at h
      cases h
    | ok f₁ =>
      rw [hmsg] at h
      rw [ih h, done_takeMessage P hmsg, List.any_cons, Bool.or_assoc]

end Flight

/-- The last message, and no other, is a `ServerHelloDone`. -/
def EndsDone (messages : List Message) : Prop :=
  ∃ front last, messages = front ++ [last] ∧ last.hsType = hsServerHelloDone ∧
    ∀ m ∈ front, m.hsType ≠ hsServerHelloDone

theorem any_done_eq_false {messages : List Message}
    (h : ∀ m ∈ messages, m.hsType ≠ hsServerHelloDone) :
    (messages.map Message.pair).any (·.1 = hsServerHelloDone) = false := by
  rw [List.any_map, List.any_eq_false]
  intro m hm
  exact fun hdone => h m hm (of_decide_eq_true hdone)

theorem EndsDone.any_done {messages : List Message} (h : EndsDone messages) :
    (messages.map Message.pair).any (·.1 = hsServerHelloDone) = true := by
  obtain ⟨front, last, rfl, hlast, -⟩ := h
  rw [List.any_map, List.any_eq_true]
  exact ⟨last, List.mem_append_right _ List.mem_cons_self, decide_eq_true hlast⟩

/-- What stands before the last part has no `ServerHelloDone`, and the rest ends in it. -/
theorem EndsDone.of_append {a b : List Message} (h : EndsDone (a ++ b)) (hb : b ≠ []) :
    (∀ m ∈ a, m.hsType ≠ hsServerHelloDone) ∧ EndsDone b := by
  obtain ⟨front, last, heq, hlast, hfront⟩ := h
  obtain ⟨b', x, rfl⟩ := List.eq_nil_or_concat b |>.resolve_left hb
  rw [List.concat_eq_append, ← List.append_assoc] at heq
  rw [List.concat_eq_append]
  obtain ⟨rfl, hx⟩ := List.append_inj' heq rfl
  cases hx
  refine ⟨fun m hm => hfront m (List.mem_append_left _ hm), b', last, rfl, hlast, ?_⟩
  exact fun m hm => hfront m (List.mem_append_right _ hm)

/-- A handshake record that holds whole messages. -/
def wholeRecord (messages : List Message) : UInt8 × Bytes :=
  (ctHandshake, messages.flatMap Message.bytes)

/-- On records of whole messages the loop is a fold over the messages. -/
theorem collect_wholeRecords (P : Primitives) (groups : List (List Message))
    (hne : ∀ g ∈ groups, g ≠ []) (hends : EndsDone groups.flatten) (f : Flight)
    (hf : f.done = false) (rest : List (UInt8 × Bytes)) :
    collect P f (groups.map wholeRecord ++ rest) =
      (f.hear (groups.flatten.flatMap Message.bytes)).takeMessages P
        (groups.flatten.map Message.pair) := by
  induction groups generalizing f with
  | nil =>
    obtain ⟨front, last, heq, -⟩ := hends
    exact absurd heq.symm (List.append_ne_nil_of_right_ne_nil _ (List.cons_ne_nil _ _))
  | cons g groups ih =>
    rw [List.flatten_cons, List.flatMap_append, List.map_append, Flight.hear_append,
      Flight.takeMessages_append, Flight.takeMessages_hear]
    rw [List.map_cons, List.cons_append, wholeRecord, collect, if_neg (by rw [hf]; decide),
      Flight.takeRecord_eq, parse_messages]
    cases htake : (f.hear (g.flatMap Message.bytes)).takeMessages P (g.map Message.pair) with
    | error e => rfl
    | ok f' =>
      have hdone := Flight.done_takeMessages P htake
      cases groups with
      | nil =>
        rw [List.flatten_cons, List.flatten_nil, List.append_nil] at hends
        rw [hends.any_done, Bool.or_true] at hdone
        dsimp only
        rw [collect_of_done P hdone]
        exact congrArg Except.ok f'.hear_nil.symm
      | cons g' groups =>
        have hrest : (g' :: groups).flatten ≠ [] := by
          exact List.append_ne_nil_of_left_ne_nil (hne g' (by simp)) _
        obtain ⟨hg, hends'⟩ := hends.of_append hrest
        rw [any_done_eq_false hg, Bool.or_false] at hdone
        exact ih (fun x hx => hne x (List.mem_cons_of_mem _ hx)) hends' f' (hdone.trans hf)

/-! ## Two ways of cutting -/

structure ServerMessages where
  serverHello : Body
  certificate : Body
  serverKeyExchange : Option Body
  serverHelloDone : Body

namespace ServerMessages

def list (ms : ServerMessages) : List Message :=
  [⟨hsServerHello, ms.serverHello⟩, ⟨hsCertificate, ms.certificate⟩] ++
    ms.serverKeyExchange.toList.map (⟨hsServerKeyExchange, ·⟩) ++
      [⟨hsServerHelloDone, ms.serverHelloDone⟩]

def bytes (ms : ServerMessages) : Bytes := ms.list.flatMap Message.bytes

theorem endsDone (ms : ServerMessages) : EndsDone ms.list := by
  refine ⟨_, _, rfl, rfl, ?_⟩
  intro m hm
  obtain hm | hm := List.mem_append.mp hm
  · simp only [List.mem_cons, List.not_mem_nil, or_false] at hm
    obtain rfl | rfl := hm
    · show hsServerHello ≠ hsServerHelloDone
      decide
    · show hsCertificate ≠ hsServerHelloDone
      decide
  · obtain ⟨body, -, rfl⟩ := List.mem_map.mp hm
    show hsServerKeyExchange ≠ hsServerHelloDone
    decide

end ServerMessages

/-- The payloads of the records that carry the data, each of 1 to 16384 bytes. -/
structure Split (data : Bytes) where
  payloads : List Bytes
  flatten_eq : payloads.flatten = data
  size : ∀ payload ∈ payloads, 1 ≤ payload.length ∧ payload.length ≤ maxFragment

/-- Every record holds whole messages. -/
def Split.Whole {ms : ServerMessages} (a : Split ms.bytes) : Prop :=
  ∃ groups : List (List Message), groups.flatten = ms.list ∧
    a.payloads = groups.map (·.flatMap Message.bytes)

/-- The handshake records with these payloads are the first that the client reads. -/
def Receives (polls : List Poll) (payloads : List Bytes) : Prop :=
  ∃ rest, serverRecords ⟨[], polls⟩ = payloads.map (ctHandshake, ·) ++ rest

/-- What the first loop of `tls_connect_inner` makes of the server's flight: the messages' contents
and the input of the transcript hash, or the error. -/
def Session.extracted (s : Session) : Except String Flight :=
  (serverFlight s.prims ⟨buildClientHello s.clientRandom.toList s.hostname, none, none, none, false⟩
    ⟨[], s.polls⟩).map Prod.fst

theorem Session.extracted_of_whole (s : Session) {ms : ServerMessages} {a : Split ms.bytes}
    (ha : a.Whole) (hreceives : Receives s.polls a.payloads) :
    s.extracted = Flight.takeMessages s.prims (Flight.hear
      ⟨buildClientHello s.clientRandom.toList s.hostname, none, none, none, false⟩ ms.bytes)
        (ms.list.map Message.pair) := by
  obtain ⟨groups, hgroups, hpayloads⟩ := ha
  obtain ⟨rest, hrecords⟩ := hreceives
  have hne : ∀ g ∈ groups, g ≠ [] := by
    rintro g hg rfl
    have hempty := (a.size [] (hpayloads ▸ List.mem_map.mpr ⟨[], hg, rfl⟩)).1
    cases hempty
  rw [Session.extracted, map_serverFlight, hrecords, hpayloads, List.map_map]
  rw [ServerMessages.bytes, ← hgroups]
  exact collect_wholeRecords s.prims groups hne (hgroups ▸ ms.endsDone) _ rfl rest

/-- Without a record that holds a whole `ServerHelloDone` the handshake fails. -/
theorem collect_ne_ok (P : Primitives) (records : List (UInt8 × Bytes))
    (h : ∀ record ∈ records, ∀ msg ∈ parseHandshakeMessages record.2, msg.1 ≠ hsServerHelloDone)
    (f : Flight) (hf : f.done = false) (f' : Flight) : collect P f records ≠ .ok f' := by
  induction records generalizing f with
  | nil =>
    rw [collect, hf]
    nofun
  | cons record records ih =>
    have htail := fun x hx => h x (List.mem_cons_of_mem record hx)
    rw [collect, if_neg (by rw [hf]; decide)]
    split_ifs
    · nofun
    · exact ih htail f hf
    · cases htake : f.takeRecord P record.2 with
      | error e => nofun
      | ok f₁ =>
        refine ih htail f₁ ?_
        rw [Flight.done_takeMessages P htake, Bool.or_eq_false_iff, List.any_eq_false]
        exact ⟨hf, fun msg hmsg hdone =>
          h record List.mem_cons_self msg hmsg (of_decide_eq_true hdone)⟩

/-! ## A cut message -/

/-- `parse_certificate_chain`: the first certificate of the list. -/
def parseCertificateChain (data : Bytes) : Option Bytes :=
  if data.length < 3 then none
  else
    let rest := data.drop 3
    if rest.length < 3 then none
    else
      let certLen := beValue (rest.take 3)
      if rest.length < 3 + certLen then none else some ((rest.drop 3).take certLen)

theorem serverRecords_buffered (payloads : List Bytes)
    (h : ∀ payload ∈ payloads, payload.length ≤ maxFragment) :
    serverRecords ⟨payloads.flatMap (buildRecord ctHandshake), []⟩ =
      payloads.map (ctHandshake, ·) := by
  induction payloads with
  | nil =>
    rw [serverRecords]
    rfl
  | cons payload payloads ih =>
    have hlen : payload.length ≤ maxFragment + 2048 :=
      Nat.le_add_right_of_le (h payload List.mem_cons_self)
    rw [serverRecords, List.flatMap_cons, readRecord_buffered (parses_buildRecord ctHandshake hlen)]
    dsimp only
    rw [ih fun x hx => h x (List.mem_cons_of_mem _ hx)]
    rfl

theorem serverRecords_received {data : Bytes} (h : data ≠ []) :
    serverRecords ⟨[], [.received data]⟩ = serverRecords ⟨data, []⟩ := by
  have hread : ∀ need, 0 < need → Reader.tcpReadInto need [] [.received data] =
      Reader.tcpReadInto need data [] := by
    intro need hneed
    have hempty : ¬ need ≤ ([] : Bytes).length := Nat.not_le_of_lt hneed
    unfold Reader.tcpReadInto
    rw [if_neg hempty]
    exact if_neg h
  have hrecord : Reader.readRecord ⟨[], [.received data]⟩ = Reader.readRecord ⟨data, []⟩ := by
    rw [Reader.readRecord, Reader.readRecord, hread 5 (by decide)]
  rw [serverRecords, serverRecords, hrecord]

/-- A client that gets handshake records with these payloads, in one piece. -/
def fragmented (payloads : List Bytes) : Session where
  prims := .kernel { KeyExchange.trivial with parseCertificateChain := parseCertificateChain }
  hostname := []
  clientRandom := Vector.replicate 32 0
  ephemeral := Vector.replicate 32 0
  preMaster := Vector.replicate 46 0
  rsaPadding := []
  finishedIv := Vector.replicate 16 0
  helloSent := true
  keyExchangeSent := true
  changeCipherSent := true
  finishedSent := true
  polls := [.received (payloads.flatMap (buildRecord ctHandshake))]

theorem serverRecords_fragmented {data : Bytes} (a : Split data) (hne : a.payloads ≠ []) :
    serverRecords ⟨[], (fragmented a.payloads).polls⟩ = a.payloads.map (ctHandshake, ·) := by
  rw [← serverRecords_buffered a.payloads fun p hp => (a.size p hp).2]
  refine serverRecords_received ?_
  obtain ⟨payload, payloads, heq⟩ := List.exists_cons_of_ne_nil hne
  rw [heq]
  exact List.append_ne_nil_of_left_ne_nil (List.cons_ne_nil _ _) _

/-- A flight with an empty certificate and no key exchange message. -/
def smallFlight : ServerMessages where
  serverHello := ⟨[3, 3] ++ List.replicate 32 0 ++ [0, 0x00, 0x3C, 0], by decide⟩
  certificate := ⟨[0, 0, 3, 0, 0, 0], by decide⟩
  serverKeyExchange := none
  serverHelloDone := ⟨[], by decide⟩

def oneRecord : Split smallFlight.bytes :=
  ⟨[smallFlight.bytes], List.flatten_singleton, by decide⟩

def messageRecords : Split smallFlight.bytes :=
  ⟨smallFlight.list.map Message.bytes, by decide, by decide⟩

/-- The last byte, which belongs to the header of `ServerHelloDone`, in a record of its own. -/
def cutRecords : Split smallFlight.bytes :=
  ⟨[smallFlight.bytes.take 55, smallFlight.bytes.drop 55], by decide, by decide⟩

theorem receives_fragmented {data : Bytes} (a : Split data) (h : a.payloads ≠ []) :
    Receives (fragmented a.payloads).polls a.payloads :=
  ⟨[], by rw [List.append_nil, serverRecords_fragmented a h]⟩

theorem whole_oneRecord : oneRecord.Whole :=
  ⟨[smallFlight.list], List.flatten_singleton, rfl⟩

theorem whole_messageRecords : messageRecords.Whole :=
  ⟨smallFlight.list.map ([·]), rfl, by decide⟩

theorem extracted_oneRecord : ∃ f, (fragmented oneRecord.payloads).extracted = .ok f := by
  rw [Session.extracted_of_whole _ whole_oneRecord
    (receives_fragmented oneRecord (List.cons_ne_nil _ _))]
  exact ⟨_, rfl⟩

end Aeterna.Net.Tls
