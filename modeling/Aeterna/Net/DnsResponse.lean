import Aeterna.Lib.Reader
import Aeterna.Net.Dns

/-!
# Answers in DNS responses

`skip_name` and `parse_response` of `net/dns.rs`, with every byte that they read. No message makes
them read out of bounds; of a well-formed one they find the first address (`parseResponse_spec`).
-/

namespace Aeterna.Net.Dns

open Lib.Bytes Lib.Buffer Lib.Reader

/-! ## The parser -/

/-- The position after a name; a pointer ends it. -/
def skipName (data : Bytes) (pos : ℕ) : Checked ℕ :=
  if _h : pos ≥ data.length then answer (some data.length)
  else do
    let b ← index data pos
    if b = 0 then answer (some (pos + 1))
    else if b &&& 0xC0 = 0xC0 then answer (some (pos + 2))
    else skipName data (pos + (1 + b.toNat))
termination_by data.length - pos
decreasing_by omega

def u16At (data : Bytes) (pos : ℕ) : Checked UInt16 := do
  let bytes ← indices data pos 2
  answer (some (UInt16.ofNat (beValue bytes)))

/-- The loop over the questions, with as many to come as its last argument says. -/
def skipQuestions (data : Bytes) (pos : ℕ) : ℕ → Checked ℕ
  | 0 => answer (some pos)
  | qdcount + 1 => do
    let pos ← skipName data pos
    let pos := pos + 4
    if pos > data.length then answer none else skipQuestions data pos qdcount

def firstAddress (data : Bytes) (pos : ℕ) : ℕ → Checked Bytes
  | 0 => answer none
  | ancount + 1 =>
    if pos ≥ data.length then answer none
    else do
      let pos ← skipName data pos
      if pos + 10 > data.length then answer none
      else do
        let rtype ← u16At data pos
        let rclass ← u16At data (pos + 2)
        let rdlen ← u16At data (pos + 8)
        let pos := pos + 10
        if pos + rdlen.toNat > data.length then answer none
        else if rtype = 1 ∧ rclass = 1 ∧ rdlen = 4 then indices data pos 4
        else firstAddress data (pos + rdlen.toNat) ancount

def parseResponse (data : Bytes) (expectedId : UInt16) : Checked Bytes :=
  if data.length < 12 then answer none
  else do
    let id ← u16At data 0
    if id ≠ expectedId then answer none
    else do
      let flags ← u16At data 2
      if flags &&& 0x8000 = 0 then answer none
      else if flags &&& 0x000F ≠ 0 then answer none
      else do
        let ancount ← u16At data 6
        let qdcount ← u16At data 4
        let pos ← skipQuestions data 12 qdcount.toNat
        firstAddress data pos ancount.toNat

/-! ## Messages -/

/-- A name of labels that ends with the root, or with a pointer to another name. -/
structure Name where
  labels : List Bytes
  pointer : Option (Fin 16384)
  valid : ∀ label ∈ labels, Valid label

def pointerBytes : Option (Fin 16384) → Bytes
  | none => [0]
  | some offset => [UInt8.ofNat (0xC0 + offset / 256), UInt8.ofNat offset]

def Name.encode (name : Name) : Bytes := wire name.labels ++ pointerBytes name.pointer

structure Question where
  name : Name
  qtype : UInt16
  qclass : UInt16

def Question.encode (q : Question) : Bytes :=
  q.name.encode ++ (beBytes 2 q.qtype.toNat ++ beBytes 2 q.qclass.toNat)

structure Record where
  name : Name
  rtype : UInt16
  rclass : UInt16
  ttl : UInt32
  rdata : Bytes
  short : rdata.length < 2 ^ 16

def Record.encode (r : Record) : Bytes :=
  r.name.encode ++ (beBytes 2 r.rtype.toNat ++ (beBytes 2 r.rclass.toNat ++ (beBytes 4 r.ttl.toNat ++
    (beBytes 2 r.rdata.length ++ r.rdata))))

/-- The address of a record of type A and class IN. -/
def Record.address (r : Record) : Option Bytes :=
  if r.rtype = 1 ∧ r.rclass = 1 ∧ r.rdata.length = 4 then some r.rdata else none

/-- A response without error. `rest` are the records of the other two sections. -/
structure Response where
  id : UInt16
  flags : UInt16
  questions : List Question
  answers : List Record
  nscount : UInt16
  arcount : UInt16
  rest : Bytes
  response : flags &&& 0x8000 ≠ 0
  rcode : flags &&& 0x000F = 0
  qdcount : questions.length < 2 ^ 16
  ancount : answers.length < 2 ^ 16

def Response.encode (m : Response) : Bytes :=
  beBytes 2 m.id.toNat ++ (beBytes 2 m.flags.toNat ++ (beBytes 2 m.questions.length ++
    (beBytes 2 m.answers.length ++ (beBytes 2 m.nscount.toNat ++ (beBytes 2 m.arcount.toNat ++
      (m.questions.flatMap Question.encode ++ (m.answers.flatMap Record.encode ++ m.rest)))))))

/-! ## Bounds -/

theorem exists_answer_skipName (data : Bytes) (pos : ℕ) : ∃ a, skipName data pos = answer a := by
  -- The position grows with every label.
  induction hn : data.length - pos using Nat.strong_induction_on generalizing pos with
  | h n ih =>
    rw [skipName]
    split_ifs with hend
    · exact ⟨_, rfl⟩
    · refine exists_answer_bind ⟨_, index_eq (Nat.not_le.mp hend)⟩ fun b => ?_
      split_ifs
      · exact ⟨_, rfl⟩
      · exact ⟨_, rfl⟩
      · exact ih _ (by omega) _ rfl

theorem exists_answer_u16At {data : Bytes} {pos : ℕ} (h : pos + 2 ≤ data.length) :
    ∃ a, u16At data pos = answer a :=
  exists_answer_bind ⟨_, indices_eq h⟩ fun _ => ⟨_, rfl⟩

theorem exists_answer_skipQuestions (data : Bytes) (pos qdcount : ℕ) :
    ∃ a, skipQuestions data pos qdcount = answer a := by
  induction qdcount generalizing pos with
  | zero => exact ⟨_, rfl⟩
  | succ qdcount ih =>
    refine exists_answer_bind (exists_answer_skipName data pos) fun pos => ?_
    dsimp only
    split_ifs
    · exact ⟨_, rfl⟩
    · exact ih _

theorem exists_answer_firstAddress (data : Bytes) (pos ancount : ℕ) :
    ∃ a, firstAddress data pos ancount = answer a := by
  induction ancount generalizing pos with
  | zero => exact ⟨_, rfl⟩
  | succ ancount ih =>
    rw [firstAddress]
    split_ifs
    · exact ⟨_, rfl⟩
    refine exists_answer_bind (exists_answer_skipName data pos) fun pos => ?_
    split_ifs with hfixed
    · exact ⟨_, rfl⟩
    refine exists_answer_bind (exists_answer_u16At (by omega)) fun rtype => ?_
    refine exists_answer_bind (exists_answer_u16At (by omega)) fun rclass => ?_
    refine exists_answer_bind (exists_answer_u16At (by omega)) fun rdlen => ?_
    dsimp only
    split_ifs with hdata haddress
    · exact ⟨_, rfl⟩
    · rw [haddress.2.2] at hdata
      exact ⟨_, indices_eq (Nat.not_lt.mp hdata)⟩
    · exact ih _

theorem exists_answer_parseResponse (data : Bytes) (expectedId : UInt16) :
    ∃ a, parseResponse data expectedId = answer a := by
  unfold parseResponse
  split_ifs with hlen
  · exact ⟨_, rfl⟩
  refine exists_answer_bind (exists_answer_u16At (by omega)) fun id => ?_
  split_ifs
  · exact ⟨_, rfl⟩
  refine exists_answer_bind (exists_answer_u16At (by omega)) fun flags => ?_
  split_ifs
  · exact ⟨_, rfl⟩
  · exact ⟨_, rfl⟩
  refine exists_answer_bind (exists_answer_u16At (by omega)) fun ancount => ?_
  refine exists_answer_bind (exists_answer_u16At (by omega)) fun qdcount => ?_
  refine exists_answer_bind (exists_answer_skipQuestions data 12 _) fun pos => ?_
  exact exists_answer_firstAddress data pos _

/-! ## Well-formed messages -/

theorem u16At_append {data front rest : Bytes} {pos v : ℕ} (hv : v < 2 ^ 16)
    (hdata : data = front ++ (beBytes 2 v ++ rest)) (hpos : pos = front.length) :
    u16At data pos = answer (some (UInt16.ofNat v)) := by
  refine answer_some_bind (indices_append hdata hpos (length_beBytes 2 v)) ?_
  rw [beValue_beBytes_of_lt hv]

theorem skipName_append (front rest : Bytes) (b : UInt8) :
    skipName (front ++ b :: rest) front.length =
      if b = 0 then answer (some (front.length + 1))
      else if b &&& 0xC0 = 0xC0 then answer (some (front.length + 2))
      else skipName (front ++ b :: rest) (front.length + (1 + b.toNat)) := by
  rw [skipName, dif_neg (by simp), index_append rfl rfl]
  rfl

theorem labelByte_and (n : Fin 64) : UInt8.ofNat n &&& 0xC0 ≠ 0xC0 := by
  revert n
  decide

theorem pointerByte_and (n : Fin 64) :
    UInt8.ofNat (0xC0 + n) ≠ 0 ∧ UInt8.ofNat (0xC0 + n) &&& 0xC0 = 0xC0 := by
  revert n
  decide

theorem skipName_wire {ls : List Bytes} (hv : ∀ label ∈ ls, Valid label) (front rest : Bytes) :
    skipName (front ++ (wire ls ++ rest)) front.length =
      skipName (front ++ (wire ls ++ rest)) (front.length + (wire ls).length) := by
  induction ls generalizing front with
  | nil => rfl
  | cons label ls ih =>
    obtain ⟨hlabel, hls⟩ := List.forall_mem_cons.mp hv
    have hdata : front ++ (wire (label :: ls) ++ rest) =
        front ++ UInt8.ofNat label.length :: (label ++ (wire ls ++ rest)) := by
      simp [wire]
    have hnext : front ++ UInt8.ofNat label.length :: (label ++ (wire ls ++ rest)) =
        (front ++ UInt8.ofNat label.length :: label) ++ (wire ls ++ rest) := by
      simp
    have hlen : (front ++ UInt8.ofNat label.length :: label).length =
        front.length + (1 + label.length) := by
      rw [List.length_append, List.length_cons, Nat.add_comm 1]
    rw [hdata, skipName_append, if_neg hlabel.lengthByte_ne_zero,
      if_neg (labelByte_and ⟨_, Nat.lt_succ_of_le hlabel.2⟩), hlabel.toNat_lengthByte, hnext, ← hlen,
      ih hls, hlen, length_wire_cons, Nat.add_assoc]

theorem skipName_encode {data front rest : Bytes} (name : Name)
    (hdata : data = front ++ (name.encode ++ rest)) :
    skipName data front.length = answer (some (front.length + name.encode.length)) := by
  have hlen : (front ++ wire name.labels).length = front.length + (wire name.labels).length :=
    List.length_append
  rw [hdata, Name.encode, List.append_assoc, skipName_wire name.valid, ← List.append_assoc,
    List.length_append, ← Nat.add_assoc, ← hlen]
  cases name.pointer with
  | none =>
    rw [pointerBytes, List.cons_append, skipName_append, if_pos rfl]
    rfl
  | some offset =>
    have hbyte := pointerByte_and ⟨offset / 256, by omega⟩
    rw [pointerBytes, List.cons_append, skipName_append, if_neg hbyte.1, if_pos hbyte.2]
    rfl

theorem skipQuestions_encode {data front rest : Bytes} (qs : List Question)
    (hdata : data = front ++ (qs.flatMap Question.encode ++ rest)) :
    skipQuestions data front.length qs.length =
      answer (some (front ++ qs.flatMap Question.encode).length) := by
  induction qs generalizing front with
  | nil =>
    rw [List.flatMap_nil, List.append_nil]
    rfl
  | cons q qs ih =>
    have hname : data = front ++ (q.name.encode ++ (beBytes 2 q.qtype.toNat ++
        (beBytes 2 q.qclass.toNat ++ (qs.flatMap Question.encode ++ rest)))) := by
      simp [hdata, Question.encode]
    have hnext : data = front ++ q.encode ++ (qs.flatMap Question.encode ++ rest) := by
      simp [hdata]
    have hpos : front.length + q.name.encode.length + 4 = (front ++ q.encode).length := by
      simp [Question.encode, Nat.add_assoc]
    refine answer_some_bind (skipName_encode q.name hname) ?_
    dsimp only
    rw [hpos, if_neg, ih hnext, List.flatMap_cons, List.append_assoc]
    exact Nat.not_lt.mpr (hnext ▸ (List.prefix_append _ _).length_le)

theorem firstAddress_encode {data front rest : Bytes} (rs : List Record)
    (hdata : data = front ++ (rs.flatMap Record.encode ++ rest)) :
    firstAddress data front.length rs.length = answer (rs.findSome? Record.address) := by
  induction rs generalizing front with
  | nil => rfl
  | cons r rs ih =>
    generalize htail : rs.flatMap Record.encode ++ rest = tail at ih
    have hdata : data = front ++ (r.name.encode ++ (beBytes 2 r.rtype.toNat ++
        (beBytes 2 r.rclass.toNat ++ (beBytes 4 r.ttl.toNat ++ (beBytes 2 r.rdata.length ++
          (r.rdata ++ tail)))))) := by
      simp [hdata, Record.encode, ← htail]
    have hname := skipName_encode r.name hdata
    rw [← List.append_assoc] at hdata
    generalize hfront : front ++ r.name.encode = name at hdata
    have hlen : data.length = name.length + (10 + (r.rdata.length + tail.length)) := by
      simp [hdata, ← Nat.add_assoc]
    have hpos : front.length + r.name.encode.length = name.length := by
      rw [← hfront, List.length_append]
    have hclass : data = (name ++ beBytes 2 r.rtype.toNat) ++ (beBytes 2 r.rclass.toNat ++
        (beBytes 4 r.ttl.toNat ++ (beBytes 2 r.rdata.length ++ (r.rdata ++ tail)))) := by
      rw [hdata, List.append_assoc]
    have hrdlen : data = (name ++ (beBytes 2 r.rtype.toNat ++ (beBytes 2 r.rclass.toNat ++
        beBytes 4 r.ttl.toNat))) ++ (beBytes 2 r.rdata.length ++ (r.rdata ++ tail)) := by
      simp [hdata]
    have hrdata : data = (name ++ (beBytes 2 r.rtype.toNat ++ (beBytes 2 r.rclass.toNat ++
        (beBytes 4 r.ttl.toNat ++ beBytes 2 r.rdata.length)))) ++ (r.rdata ++ tail) := by
      simp [hdata]
    have hcount : (UInt16.ofNat r.rdata.length).toNat = r.rdata.length := by
      rw [UInt16.toNat_ofNat', Nat.mod_eq_of_lt r.short]
    rw [List.length_cons, firstAddress, if_neg (by omega)]
    refine answer_some_bind hname ?_
    rw [hpos, if_neg (by omega)]
    refine answer_some_bind (u16At_append r.rtype.toNat_lt hdata rfl) ?_
    refine answer_some_bind (u16At_append r.rclass.toNat_lt hclass (by simp)) ?_
    refine answer_some_bind (u16At_append r.short hrdlen (by simp)) ?_
    dsimp only
    rw [hcount, UInt16.ofNat_toNat, UInt16.ofNat_toNat, if_neg (by omega)]
    have hfour : UInt16.ofNat r.rdata.length = 4 ↔ r.rdata.length = 4 := by
      rw [← UInt16.toNat_inj, hcount]
      rfl
    simp only [hfour]
    rw [List.findSome?_cons, Record.address]
    split_ifs with haddress
    · exact indices_append hrdata (by simp) haddress.2.2
    · have hend : name.length + 10 + r.rdata.length = (name ++ (beBytes 2 r.rtype.toNat ++
          (beBytes 2 r.rclass.toNat ++ (beBytes 4 r.ttl.toNat ++ (beBytes 2 r.rdata.length ++
            r.rdata))))).length := by
        simp
        omega
      rw [hend]
      exact ih (by simp [hdata])

/-- **Responses.** On every byte string the parser keeps within its bytes; of a response without
error it returns the address of the first record that holds one. -/
theorem parseResponse_spec :
    (∀ data expectedId, ∃ a, parseResponse data expectedId = answer a) ∧
      ∀ m : Response, parseResponse m.encode m.id = answer (m.answers.findSome? Record.address) := by
  refine ⟨exists_answer_parseResponse, fun m => ?_⟩
  obtain ⟨data, hdata⟩ : ∃ data, data = m.encode := ⟨_, rfl⟩
  rw [← hdata]
  rw [Response.encode] at hdata
  -- The same bytes with each part of the header in turn behind those before it.
  have hid := hdata.trans (List.nil_append _).symm
  have hqdcount := hdata
  rw [← List.append_assoc] at hqdcount
  have hancount := hqdcount
  rw [← List.append_assoc] at hancount
  have hbody := hancount
  iterate 3 rw [← List.append_assoc] at hbody
  have hanswers := hbody
  rw [← List.append_assoc] at hanswers
  unfold parseResponse
  rw [if_neg (by simp [hdata]; omega)]
  refine answer_some_bind (u16At_append m.id.toNat_lt hid rfl) ?_
  rw [UInt16.ofNat_toNat, if_neg (not_not.mpr rfl)]
  refine answer_some_bind (u16At_append m.flags.toNat_lt hdata (by simp)) ?_
  rw [UInt16.ofNat_toNat, if_neg m.response, if_neg (not_not.mpr m.rcode)]
  refine answer_some_bind (u16At_append m.ancount hancount (by simp)) ?_
  refine answer_some_bind (u16At_append m.qdcount hqdcount (by simp)) ?_
  rw [UInt16.toNat_ofNat', UInt16.toNat_ofNat', Nat.mod_eq_of_lt m.ancount,
    Nat.mod_eq_of_lt m.qdcount]
  refine answer_some_bind ?_ (firstAddress_encode _ hanswers)
  rw [← skipQuestions_encode _ hbody]
  simp

/-- An alias and then an address, for a name that the question spells out. -/
def aliasResponse : Response where
  id := 7
  flags := 0x8180
  questions := [⟨⟨[[0x61], [0x62]], none, by decide⟩, 1, 1⟩]
  answers := [⟨⟨[], some 12, by decide⟩, 5, 1, 60, [0xC0, 14], by decide⟩,
    ⟨⟨[], some 14, by decide⟩, 1, 1, 60, [10, 0, 2, 2], by decide⟩]
  nscount := 0
  arcount := 0
  rest := []
  response := by decide
  rcode := by decide
  qdcount := by decide
  ancount := by decide

theorem parseResponse_spec_alias :
    parseResponse aliasResponse.encode 7 = answer (some [10, 0, 2, 2]) :=
  parseResponse_spec.2 aliasResponse

end Aeterna.Net.Dns
