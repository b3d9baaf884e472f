import Aeterna.Lib.Bytes
import Aeterna.Lib.Reader

/-!
# DHCP replies

`parse_dhcp_reply` of `net/dhcp.rs`, with every byte that it reads. No bytes make it read out of
bounds; a well-formed reply gives the last long enough option of each code it knows
(`parseDhcpReply_spec`).
-/

namespace Aeterna.Net.Dhcp

open Lib.Bytes Lib.Buffer Lib.Reader

abbrev Bytes := List UInt8

structure DhcpLease where
  yourIp : Bytes
  subnet : Bytes
  gateway : Bytes
  dns : Bytes
  serverIp : Bytes
  leaseSecs : UInt32
  deriving DecidableEq

def DhcpLease.empty : DhcpLease :=
  ⟨[0, 0, 0, 0], [255, 255, 255, 0], [0, 0, 0, 0], [0, 0, 0, 0], [0, 0, 0, 0], 0⟩

def dhcpMagicCookie : Bytes := [99, 130, 83, 99]

/-! ## The parser -/

/-- The bytes that the parser takes of an option, if it knows its code. -/
def taken (opt : UInt8) : Option ℕ :=
  if opt = 53 then some 1
  else if opt = 1 ∨ opt = 3 ∨ opt = 6 ∨ opt = 51 ∨ opt = 54 then some 4
  else none

/-- The message type and the lease with the field of the option set. -/
def setField (opt : UInt8) (bytes : Bytes) (msgType : UInt8) (lease : DhcpLease) :
    UInt8 × DhcpLease :=
  if opt = 53 then (bytes.headD 0, lease)
  else if opt = 1 then (msgType, { lease with subnet := bytes })
  else if opt = 3 then (msgType, { lease with gateway := bytes })
  else if opt = 6 then (msgType, { lease with dns := bytes })
  else if opt = 51 then (msgType, { lease with leaseSecs := UInt32.ofNat (beValue bytes) })
  else (msgType, { lease with serverIp := bytes })

def takeOption (opt : UInt8) (val : Bytes) (r : UInt8 × DhcpLease) : Checked (UInt8 × DhcpLease) :=
  match taken opt with
  | none => answer (some r)
  | some n =>
    if val.length ≥ n then do
      let bytes ← indices val 0 n
      answer (some (setField opt bytes r.1 r.2))
    else answer (some r)

/-- The loop over the options, from `i` on. -/
def parseOptions (data : Bytes) (i : ℕ) (r : UInt8 × DhcpLease) : Checked (UInt8 × DhcpLease) :=
  if _h : i < data.length then do
    let opt ← index data i
    if opt = 255 then answer (some r)
    else if opt = 0 then parseOptions data (i + 1) r
    else if i + 1 ≥ data.length then answer (some r)
    else do
      let len ← index data (i + 1)
      if i + 2 + len.toNat > data.length then answer (some r)
      else do
        let val ← range data (i + 2) (i + 2 + len.toNat)
        let r ← takeOption opt val r
        parseOptions data (i + (2 + len.toNat)) r
  else answer (some r)
termination_by data.length - i

def parseDhcpReply (data : Bytes) (expectedXid : UInt32) : Checked (UInt8 × DhcpLease) :=
  if data.length < 240 then answer none
  else do
    let op ← index data 0
    if op ≠ 2 then answer none
    else do
      let xid ← indices data 4 4
      if UInt32.ofNat (beValue xid) ≠ expectedXid then answer none
      else do
        let yourIp ← indices data 16 4
        let serverIp ← indices data 20 4
        let cookie ← range data 236 240
        if cookie ≠ dhcpMagicCookie then answer none
        else do
          let (msgType, lease) ←
            parseOptions data 240 (0, { DhcpLease.empty with yourIp := yourIp, serverIp := serverIp })
          if msgType = 0 then answer none else answer (some (msgType, lease))

/-! ## Replies -/

inductive Item where
  | pad
  | option (code : UInt8) (value : Bytes) (hcode : code ≠ 0 ∧ code ≠ 255) (hlen : value.length < 256)

def Item.encode : Item → Bytes
  | pad => [0]
  | option code value _ _ => code :: UInt8.ofNat value.length :: value

/-- The first `n` bytes of an option of this code, if it has so many. -/
def Item.value? (code : UInt8) (n : ℕ) : Item → Option Bytes
  | pad => none
  | option c value _ _ => if c = code ∧ n ≤ value.length then some (value.take n) else none

/-- The last option of a code that is long enough. -/
def last (items : List Item) (code : UInt8) (n : ℕ) : Option Bytes :=
  items.reverse.findSome? (Item.value? code n)

/-- The message type and the lease after the options, for fields that were set before. -/
def merged (items : List Item) (r : UInt8 × DhcpLease) : UInt8 × DhcpLease :=
  (((last items 53 1).map fun bytes => bytes.headD 0).getD r.1,
    { yourIp := r.2.yourIp
      subnet := (last items 1 4).getD r.2.subnet
      gateway := (last items 3 4).getD r.2.gateway
      dns := (last items 6 4).getD r.2.dns
      serverIp := (last items 54 4).getD r.2.serverIp
      leaseSecs := ((last items 51 4).map fun bytes => UInt32.ofNat (beValue bytes)).getD
        r.2.leaseSecs })

/-- A reply with its options and an end marker; the other fields are not read. -/
structure Reply where
  hardware : Vector UInt8 3
  xid : UInt32
  elapsed : Vector UInt8 8
  yiaddr : Vector UInt8 4
  siaddr : Vector UInt8 4
  names : Vector UInt8 212
  items : List Item
  rest : Bytes

def Reply.encode (m : Reply) : Bytes :=
  2 :: m.hardware.toList ++ (beBytes 4 m.xid.toNat ++ (m.elapsed.toList ++ (m.yiaddr.toList ++
    (m.siaddr.toList ++ (m.names.toList ++ (dhcpMagicCookie ++
      (m.items.flatMap Item.encode ++ 255 :: m.rest)))))))

/-- What the options say: the server is `siaddr` and the rest as in an empty lease where they do
not. -/
def Reply.content (m : Reply) : UInt8 × DhcpLease :=
  merged m.items
    (0, { DhcpLease.empty with yourIp := m.yiaddr.toList, serverIp := m.siaddr.toList })

/-! ## Bounds -/

theorem takeOption_eq (opt : UInt8) (val : Bytes) (r : UInt8 × DhcpLease) :
    takeOption opt val r = answer (some (match taken opt with
      | none => r
      | some n => if n ≤ val.length then setField opt (val.take n) r.1 r.2 else r)) := by
  unfold takeOption
  split
  · rfl
  · split_ifs with hlong
    · exact answer_some_bind (indices_eq (Nat.zero_add _ ▸ hlong)) rfl
    · rfl

theorem exists_answer_parseOptions (data : Bytes) (i : ℕ) (r : UInt8 × DhcpLease) :
    ∃ a, parseOptions data i r = answer a := by
  induction hn : data.length - i using Nat.strong_induction_on generalizing i r with
  | h n ih =>
    rw [parseOptions]
    by_cases hend : i < data.length
    · rw [dif_pos hend]
      refine exists_answer_bind ⟨_, index_eq hend⟩ fun opt => ?_
      split_ifs with _ _ htype
      · exact ⟨_, rfl⟩
      · exact ih _ (by omega) _ _ rfl
      · exact ⟨_, rfl⟩
      refine exists_answer_bind ⟨_, index_eq (Nat.not_le.mp htype)⟩ fun len => ?_
      split_ifs with hlen
      · exact ⟨_, rfl⟩
      refine exists_answer_bind ⟨_, range_eq (Nat.le_add_right _ _) (Nat.not_lt.mp hlen)⟩ fun val => ?_
      refine exists_answer_bind ⟨_, takeOption_eq _ _ _⟩ fun r => ?_
      exact ih _ (by omega) _ _ rfl
    · rw [dif_neg hend]
      exact ⟨_, rfl⟩

theorem exists_answer_parseDhcpReply (data : Bytes) (expectedXid : UInt32) :
    ∃ a, parseDhcpReply data expectedXid = answer a := by
  unfold parseDhcpReply
  split_ifs with hlen
  · exact ⟨_, rfl⟩
  refine exists_answer_bind ⟨_, index_eq (by omega)⟩ fun op => ?_
  split_ifs
  · exact ⟨_, rfl⟩
  refine exists_answer_bind ⟨_, indices_eq (by omega)⟩ fun xid => ?_
  split_ifs
  · exact ⟨_, rfl⟩
  refine exists_answer_bind ⟨_, indices_eq (by omega)⟩ fun yourIp => ?_
  refine exists_answer_bind ⟨_, indices_eq (by omega)⟩ fun serverIp => ?_
  refine exists_answer_bind ⟨_, range_eq (by omega) (by omega)⟩ fun cookie => ?_
  split_ifs
  · exact ⟨_, rfl⟩
  refine exists_answer_bind (exists_answer_parseOptions data 240 _) fun ⟨msgType, lease⟩ => ?_
  dsimp only
  split_ifs
  · exact ⟨_, rfl⟩
  · exact ⟨_, rfl⟩

/-! ## Well-formed replies -/

theorem last_cons (item : Item) (items : List Item) (code : UInt8) (n : ℕ) :
    last (item :: items) code n = (last items code n).or (item.value? code n) := by
  rw [last, List.reverse_cons, List.findSome?_append, List.findSome?_singleton, last]

theorem getD_last_cons (item : Item) (items : List Item) (code : UInt8) (n : ℕ) (d : Bytes) :
    (last (item :: items) code n).getD d =
      (last items code n).getD ((item.value? code n).getD d) := by
  rw [last_cons]
  cases last items code n <;> rfl

theorem getD_map_last_cons {α : Type} (f : Bytes → α) (item : Item) (items : List Item)
    (code : UInt8) (n : ℕ) (d : α) : ((last (item :: items) code n).map f).getD d =
      ((last items code n).map f).getD (((item.value? code n).map f).getD d) := by
  rw [last_cons]
  cases last items code n <;> rfl

theorem merged_pad (items : List Item) (r : UInt8 × DhcpLease) :
    merged (.pad :: items) r = merged items r := by
  simp only [merged, getD_last_cons, getD_map_last_cons]
  rfl

theorem merged_option (code : UInt8) (value : Bytes) (hcode : code ≠ 0 ∧ code ≠ 255)
    (hlen : value.length < 256) (items : List Item) (r : UInt8 × DhcpLease) :
    merged (.option code value hcode hlen :: items) r = merged items (match taken code with
      | none => r
      | some n => if n ≤ value.length then setField code (value.take n) r.1 r.2 else r) := by
  simp only [merged, getD_last_cons, getD_map_last_cons, Item.value?]
  by_cases hknown : code = 53 ∨ code = 1 ∨ code = 3 ∨ code = 6 ∨ code = 51 ∨ code = 54
  · rcases hknown with rfl | rfl | rfl | rfl | rfl | rfl
    · by_cases hlong : 1 ≤ value.length <;> simp [taken, setField, hlong]
    all_goals by_cases hlong : 4 ≤ value.length <;> simp [taken, setField, hlong]
  · simp only [not_or] at hknown
    simp [taken, hknown]

theorem parseOptions_encode {data front rest : Bytes} (items : List Item) (r : UInt8 × DhcpLease)
    (hdata : data = front ++ (items.flatMap Item.encode ++ 255 :: rest)) :
    parseOptions data front.length r = answer (some (merged items r)) := by
  induction items generalizing front r with
  | nil =>
    rw [parseOptions, dif_pos (by simp [hdata])]
    exact answer_some_bind (index_append hdata rfl) (if_pos rfl)
  | cons item items ih =>
    generalize htail : items.flatMap Item.encode ++ 255 :: rest = tail at ih
    rw [List.flatMap_cons, List.append_assoc, htail] at hdata
    cases item with
    | pad =>
      have hnext : data = (front ++ [0]) ++ tail := by
        simp [hdata, Item.encode]
      rw [parseOptions, dif_pos (by simp [hnext])]
      refine answer_some_bind (index_append hdata rfl) ?_
      rw [if_neg (by decide), if_pos rfl, merged_pad, ← ih r hnext, List.length_append]
      rfl
    | option code value hcode hlen =>
      have hbyte : (UInt8.ofNat value.length).toNat = value.length := by
        rw [UInt8.toNat_ofNat', Nat.mod_eq_of_lt hlen]
      have hcount : data = (front ++ [code]) ++ UInt8.ofNat value.length :: (value ++ tail) := by
        simp [hdata, Item.encode]
      have hvalue : data = (front ++ [code, UInt8.ofNat value.length]) ++ (value ++ tail) := by
        simp [hdata, Item.encode]
      have hnext : data = (front ++ code :: UInt8.ofNat value.length :: value) ++ tail := by
        simp [hdata, Item.encode]
      have hend : front.length + (2 + value.length) =
          (front ++ code :: UInt8.ofNat value.length :: value).length := by
        simp
        omega
      have hle : front.length + (2 + value.length) ≤ data.length := by
        rw [hend]
        exact hnext ▸ (List.prefix_append _ _).length_le
      rw [parseOptions, dif_pos (by omega)]
      refine answer_some_bind (index_append hdata rfl) ?_
      rw [if_neg hcode.2, if_neg hcode.1, if_neg (by omega)]
      refine answer_some_bind (index_append hcount (by simp)) ?_
      rw [hbyte, if_neg (by omega)]
      refine answer_some_bind (range_append hvalue (by simp) rfl) ?_
      refine answer_some_bind (takeOption_eq _ _ _) ?_
      rw [hend, merged_option]
      exact ih _ hnext

/-- **Replies.** On every byte string the parser keeps within its bytes; a reply gives the last long
enough option of each code, and nothing when its message type is missing or zero. -/
theorem parseDhcpReply_spec :
    (∀ data expectedXid, ∃ a, parseDhcpReply data expectedXid = answer a) ∧
      ∀ m : Reply, parseDhcpReply m.encode m.xid =
        answer (if m.content.1 = 0 then none else some m.content) := by
  refine ⟨exists_answer_parseDhcpReply, fun m => ?_⟩
  obtain ⟨data, hdata⟩ : ∃ data, data = m.encode := ⟨_, rfl⟩
  rw [← hdata]
  rw [Reply.encode] at hdata
  have hyiaddr := hdata
  iterate 2 rw [← List.append_assoc] at hyiaddr
  have hsiaddr := hyiaddr
  rw [← List.append_assoc] at hsiaddr
  have hcookie := hsiaddr
  iterate 2 rw [← List.append_assoc] at hcookie
  have hitems := hcookie
  rw [← List.append_assoc] at hitems
  unfold parseDhcpReply
  rw [if_neg (by simp [hdata, dhcpMagicCookie]; omega)]
  have hop := hdata.trans (List.nil_append _).symm
  refine answer_some_bind (index_append hop rfl) ?_
  rw [if_neg (not_not.mpr rfl)]
  refine answer_some_bind (indices_append hdata (by simp) (length_beBytes 4 _)) ?_
  rw [beValue_beBytes_of_lt m.xid.toNat_lt, UInt32.ofNat_toNat, if_neg (not_not.mpr rfl)]
  refine answer_some_bind (indices_append hyiaddr (by simp) Vector.length_toList) ?_
  refine answer_some_bind (indices_append hsiaddr (by simp) Vector.length_toList) ?_
  refine answer_some_bind (range_append hcookie (by simp) rfl) ?_
  rw [if_neg (not_not.mpr rfl)]
  refine answer_some_bind (v := m.content) ?_ ?_
  · rw [Reply.content, ← parseOptions_encode _ _ hitems]
    simp [dhcpMagicCookie]
  · dsimp only
    split_ifs
    · rfl
    · rfl

/-- An offer with a router, and a subnet that is too short. -/
def offer : Reply where
  hardware := #v[1, 6, 0]
  xid := 0x12345678
  elapsed := Vector.replicate 8 0
  yiaddr := #v[10, 0, 2, 15]
  siaddr := #v[10, 0, 2, 2]
  names := Vector.replicate 212 0
  items := [.option 53 [2] (by decide) (by decide), .pad, .option 1 [9] (by decide) (by decide),
    .option 3 [10, 0, 2, 4] (by decide) (by decide)]
  rest := []

theorem parseDhcpReply_spec_offer :
    parseDhcpReply offer.encode 0x12345678 = answer (some (2,
      ⟨[10, 0, 2, 15], [255, 255, 255, 0], [10, 0, 2, 4], [0, 0, 0, 0], [10, 0, 2, 2], 0⟩)) :=
  parseDhcpReply_spec.2 offer

end Aeterna.Net.Dhcp
