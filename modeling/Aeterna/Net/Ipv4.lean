import Aeterna.Net.TcpTable

/-!
# The IPv4 layer and its checksums

`net/ipv4.rs` and `tcp_checksum` of `net/tcp.rs`. A checksum that is written into its field makes
the checksum of the whole vanish (`checksum_splice`). An incoming packet is handed on by its
lengths, its protocol and its address, and its checksums are not looked at
(`handleIpv4_unverified`).
-/

namespace Aeterna.Net

open Lib.Bytes Lib.Buffer

/-! ## Carries -/

theorem toNat_carry (sum : UInt32) :
    ((sum &&& 0xFFFF : UInt32) + (sum >>> 16 : UInt32)).toNat =
      sum.toNat % 65536 + sum.toNat / 65536 := by
  have hlt := sum.toNat_lt
  have hmask : sum.toNat &&& (0xFFFF : UInt32).toNat = sum.toNat % 65536 :=
    Nat.and_two_pow_sub_one_eq_mod sum.toNat 16
  rw [UInt32.toNat_add, UInt32.toNat_and, UInt32.toNat_shiftRight, hmask,
    show (16 : UInt32).toNat % 32 = 16 by rfl, Nat.shiftRight_eq_div_pow]
  omega

/-- The carries are added at the other end until none is left. -/
def foldCarry (sum : UInt32) : UInt32 :=
  if sum > 0xFFFF then foldCarry ((sum &&& 0xFFFF : UInt32) + (sum >>> 16 : UInt32)) else sum
termination_by sum.toNat
decreasing_by
  rename_i h
  have h : 65535 < sum.toNat := UInt32.lt_iff_toNat_lt.mp h
  rw [toNat_carry]
  omega

def complement (sum : UInt32) : UInt16 := (~~~ foldCarry sum).toUInt16

/-- The residue modulo 65535, with 65535 in the place of 0. -/
theorem toNat_foldCarry (sum : UInt32) :
    (foldCarry sum).toNat = if sum.toNat = 0 then 0 else (sum.toNat - 1) % 65535 + 1 := by
  fun_induction foldCarry sum with
  | case1 sum h ih =>
    have h : 65535 < sum.toNat := UInt32.lt_iff_toNat_lt.mp h
    rw [ih, toNat_carry]
    split_ifs <;> omega
  | case2 sum h =>
    have h : ¬65535 < sum.toNat := fun hlt => h (UInt32.lt_iff_toNat_lt.mpr hlt)
    split_ifs <;> omega

theorem toNat_complement (sum : UInt32) :
    (complement sum).toNat = 65535 - (foldCarry sum).toNat := by
  have hle : (foldCarry sum).toNat ≤ 65535 := by
    rw [toNat_foldCarry]
    split_ifs <;> omega
  have hsize : UInt32.size = 4294967296 := rfl
  rw [complement, UInt32.toNat_toUInt16, UInt32.toNat_not]
  omega

theorem complement_add_complement {sum : UInt32} (h : sum.toNat + 65535 < 2 ^ 32) :
    complement (sum + UInt32.ofNat (complement sum).toNat) = 0 := by
  apply UInt16.toNat_inj.mp
  have hadd : (sum + UInt32.ofNat (complement sum).toNat).toNat =
      sum.toNat + (complement sum).toNat := by
    have hle := (complement sum).toNat_lt
    rw [UInt32.toNat_add, UInt32.toNat_ofNat', Nat.mod_eq_of_lt (by omega)]
    omega
  rw [toNat_complement, toNat_foldCarry, hadd, toNat_complement, toNat_foldCarry]
  show _ = 0
  split_ifs <;> omega

/-! ## Checksums -/

/-- The loop over the words of `data`. An odd byte at the end is the high half of a word. -/
def sumWords (sum : UInt32) : Bytes → UInt32
  | a :: b :: rest => sumWords (sum + UInt32.ofNat (beValue [a, b])) rest
  | [a] => sum + UInt32.ofNat (beValue [a, 0])
  | [] => sum

def checksum (data : Bytes) : UInt16 := complement (sumWords 0 data)

/-- The addresses, the protocol and the length. -/
def pseudoHeader (src dst : IpAddr) (len : ℕ) : UInt32 :=
  sumWords (sumWords 0 src.toList) dst.toList + 6 + UInt32.ofNat len

def tcpChecksum (src dst : IpAddr) (segment : Bytes) : UInt16 :=
  complement (sumWords (pseudoHeader src dst segment.length) segment)

theorem sumWords_add (sum c : UInt32) (data : Bytes) :
    sumWords (sum + c) data = sumWords sum data + c := by
  fun_induction sumWords sum data with
  | case1 sum a b rest ih =>
    rw [sumWords, UInt32.add_assoc, UInt32.add_comm c, ← UInt32.add_assoc, ih]
  | case2 sum a => rw [sumWords, UInt32.add_assoc, UInt32.add_comm c, ← UInt32.add_assoc]
  | case3 sum => rfl

theorem sumWords_append (sum : UInt32) {front : Bytes} (h : front.length % 2 = 0) (back : Bytes) :
    sumWords sum (front ++ back) = sumWords (sumWords sum front) back := by
  fun_induction sumWords sum front with
  | case1 sum a b rest ih =>
    rw [List.length_cons, List.length_cons] at h
    exact ih (by omega)
  | case2 sum a => exact absurd h (by simp)
  | case3 sum => rfl

theorem toNat_sumWords_le (sum : UInt32) (data : Bytes)
    (h : sum.toNat + 65535 * ((data.length + 1) / 2) < 2 ^ 32) :
    (sumWords sum data).toNat ≤ sum.toNat + 65535 * ((data.length + 1) / 2) := by
  have hadd (sum : UInt32) (a b : UInt8) (h : sum.toNat + 65535 < 2 ^ 32) :
      (sum + UInt32.ofNat (beValue [a, b])).toNat ≤ sum.toNat + 65535 := by
    have hword : beValue [a, b] < 256 ^ 2 := beValue_lt [a, b]
    rw [UInt32.toNat_add, UInt32.toNat_ofNat', Nat.mod_eq_of_lt (a := beValue [a, b]) (by omega)]
    omega
  fun_induction sumWords sum data with
  | case1 sum a b rest ih =>
    simp only [List.length_cons] at h ⊢
    have hword := hadd sum a b (by omega)
    have hrest := ih (by omega)
    omega
  | case2 sum a =>
    rw [List.length_singleton] at h ⊢
    exact hadd sum a 0 h
  | case3 sum => exact Nat.le_add_right _ _

theorem add_two_le_of_slice {data : Bytes} {k : ℕ} (hfield : slice data k 2 = [0, 0]) :
    k + 2 ≤ data.length := by
  have hlength := congrArg List.length hfield
  rw [slice, List.length_take, List.length_drop, List.length_cons, List.length_singleton] at hlength
  omega

theorem sumWords_splice (sum : UInt32) {data : Bytes} {k : ℕ} (heven : k % 2 = 0)
    (hfield : slice data k 2 = [0, 0]) (c : UInt16) :
    sumWords sum (splice data k (beBytes 2 c.toNat)) =
      sumWords sum data + UInt32.ofNat c.toNat := by
  have hlen := add_two_le_of_slice hfield
  have hfront : (data.take k).length % 2 = 0 := by
    rw [List.length_take]
    omega
  have hself : data = data.take k ++ ([0, 0] ++ data.drop (k + 2)) := by
    rw [← hfield, slice, ← List.drop_drop, List.take_append_drop, List.take_append_drop]
  obtain ⟨a, b, hbytes⟩ : ∃ a b, beBytes 2 c.toNat = [a, b] := ⟨_, _, rfl⟩
  have hvalue : beValue [a, b] = c.toNat := by
    rw [← hbytes]
    exact beValue_beBytes_of_lt c.toNat_lt
  rw [splice, length_beBytes, List.append_assoc, sumWords_append _ hfront, hbytes]
  conv_rhs => rw [hself, sumWords_append _ hfront]
  show sumWords (_ + UInt32.ofNat (beValue [a, b])) _ = sumWords (_ + 0) _ + _
  rw [UInt32.add_zero, sumWords_add, hvalue]

theorem toNat_pseudoHeader_le (src dst : IpAddr) {len : ℕ} (h : len ≤ 65535) :
    (pseudoHeader src dst len).toNat ≤ 5 * 65535 + 6 := by
  have hsrc := toNat_sumWords_le 0 src.toList (by simp)
  rw [Vector.length_toList, UInt32.toNat_zero] at hsrc
  have hdst := toNat_sumWords_le (sumWords 0 src.toList) dst.toList (by
    rw [Vector.length_toList]
    omega)
  rw [Vector.length_toList] at hdst
  have hsix : (6 : UInt32).toNat = 6 := rfl
  rw [pseudoHeader, UInt32.toNat_add, UInt32.toNat_add, UInt32.toNat_ofNat',
    Nat.mod_eq_of_lt (a := len) (by omega), hsix]
  omega

/-- **Checksum insertion.** A checksum in its own field makes the checksum of the whole zero. -/
theorem checksum_splice (data : Bytes) (k : ℕ) (hlen : data.length ≤ 65535) (heven : k % 2 = 0)
    (hfield : slice data k 2 = [0, 0]) :
    checksum (splice data k (beBytes 2 (checksum data).toNat)) = 0 ∧
      ∀ src dst, tcpChecksum src dst
        (splice data k (beBytes 2 (tcpChecksum src dst data).toNat)) = 0 := by
  constructor
  · have hle := toNat_sumWords_le 0 data (by rw [UInt32.toNat_zero]; omega)
    rw [checksum, sumWords_splice _ heven hfield]
    refine complement_add_complement ?_
    rw [UInt32.toNat_zero] at hle
    omega
  · intro src dst
    have hhead := toNat_pseudoHeader_le src dst hlen
    have hle := toNat_sumWords_le (pseudoHeader src dst data.length) data (by omega)
    have hsame : (splice data k (beBytes 2 (tcpChecksum src dst data).toNat)).length =
        data.length := length_splice (add_two_le_of_slice hfield)
    rw [tcpChecksum, hsame, sumWords_splice _ heven hfield]
    refine complement_add_complement ?_
    omega

/-- The header of a packet from 10.0.2.2 to 10.0.2.15. -/
theorem checksum_splice_header :
    checksum (splice [0x45, 0, 0, 40, 0, 1, 0x40, 0, 64, 6, 0, 0, 10, 0, 2, 2, 10, 0, 2, 15] 10
      (beBytes 2 (checksum [0x45, 0, 0, 40, 0, 1, 0x40, 0, 64, 6, 0, 0, 10, 0, 2, 2, 10, 0, 2,
        15]).toNat)) = 0 :=
  (checksum_splice _ 10 (by decide) rfl rfl).1

/-! ## Incoming packets -/

inductive Handler where
  | icmp
  | tcp
  | udp
  deriving DecidableEq

/-- What a handler is called with; only that of ICMP takes the time to live. -/
structure Delivery where
  handler : Handler
  payload : Bytes
  srcIp : IpAddr
  ttl : UInt8
  deriving DecidableEq

def addrAt (data : Bytes) (offset : ℕ) : IpAddr := blockOf 4 (slice data offset 4) 0

def ipHeaderLen (data : Bytes) : ℕ := (data.getD 0 0 &&& 0x0F).toNat * 4

def ipTotalLen (data : Bytes) : ℕ := beValue (slice data 2 2)

def ipHandler (protocol : UInt8) : Option Handler :=
  if protocol = 1 then some .icmp
  else if protocol = 6 then some .tcp
  else if protocol = 17 then some .udp
  else none

def handleIpv4 (ourIp : IpAddr) (data : Bytes) : Option Delivery :=
  if data.length < 20 then none
  else if data.getD 0 0 >>> 4 ≠ 4 ∨ ipHeaderLen data < 20 then none
  else if data.length < ipTotalLen data ∨ ipTotalLen data < ipHeaderLen data then none
  else if addrAt data 16 ≠ ourIp ∧ addrAt data 16 ≠ Vector.replicate 4 255 ∧
      ourIp ≠ Vector.replicate 4 0 then none
  else (ipHandler (data.getD 9 0)).map fun handler =>
    ⟨handler, slice data (ipHeaderLen data) (ipTotalLen data - ipHeaderLen data), addrAt data 12,
      data.getD 8 0⟩

/-- What arrives from the card: a TCP segment goes on to the connections. -/
def receiveIpv4 (t : Conns) (ourIp : IpAddr) (data : Bytes) : Conns × List Segment :=
  match handleIpv4 ourIp data with
  | some ⟨.tcp, payload, srcIp, _⟩ => handleTcp t payload srcIp
  | _ => (t, [])

theorem getD_splice_of_disjoint {buf bytes : Bytes} {offset i : ℕ}
    (h : offset + bytes.length ≤ buf.length) (hi : i + 1 ≤ offset ∨ offset + bytes.length ≤ i) :
    (splice buf offset bytes).getD i 0 = buf.getD i 0 := by
  have hslice := slice_splice_of_disjoint h hi
  have hget (b : Bytes) : b.getD i 0 = (slice b i 1).getD 0 0 :=
    (getD_slice (show 0 < 1 by decide) 0).symm
  rw [hget, hslice, ← hget]

theorem drop_splice {buf bytes : Bytes} {offset n : ℕ} (h : offset + bytes.length ≤ buf.length)
    (hn : offset + bytes.length ≤ n) : (splice buf offset bytes).drop n = buf.drop n := by
  have hlen : (buf.take offset ++ bytes).length = offset + bytes.length := by
    rw [List.length_append, List.length_take]
    omega
  obtain ⟨m, rfl⟩ := Nat.exists_eq_add_of_le hn
  rw [splice, ← hlen, List.drop_length_add_append, hlen, List.drop_drop]

theorem payload_handleIpv4 {ourIp : IpAddr} {data : Bytes} {d : Delivery}
    (h : handleIpv4 ourIp data = some d) :
    20 ≤ ipHeaderLen data ∧ ipHeaderLen data ≤ ipTotalLen data ∧ ipTotalLen data ≤ data.length ∧
      d.payload = slice data (ipHeaderLen data) (ipTotalLen data - ipHeaderLen data) := by
  unfold handleIpv4 at h
  split_ifs at h with hshort hversion htotal haddr
  obtain ⟨handler, -, rfl⟩ := Option.map_eq_some_iff.mp h
  exact ⟨by omega, by omega, by omega, rfl⟩

theorem handleIpv4_splice (ourIp : IpAddr) {data : Bytes} (h : 20 ≤ data.length) (hi lo : UInt8) :
    handleIpv4 ourIp (splice data 10 [hi, lo]) = handleIpv4 ourIp data := by
  have hfits : 10 + [hi, lo].length ≤ data.length := by
    show 12 ≤ data.length
    omega
  have hget (i : ℕ) (hi' : i + 1 ≤ 10) : (splice data 10 [hi, lo]).getD i 0 = data.getD i 0 :=
    getD_splice_of_disjoint hfits (Or.inl hi')
  have hheader : ipHeaderLen (splice data 10 [hi, lo]) = ipHeaderLen data := by
    rw [ipHeaderLen, hget 0 (by decide), ipHeaderLen]
  have htotal : ipTotalLen (splice data 10 [hi, lo]) = ipTotalLen data := by
    rw [ipTotalLen, slice_splice_of_disjoint hfits (Or.inl (by decide)), ipTotalLen]
  have haddr (offset : ℕ) (ho : 12 ≤ offset) :
      addrAt (splice data 10 [hi, lo]) offset = addrAt data offset := by
    rw [addrAt, slice_splice_of_disjoint hfits (Or.inr ho), addrAt]
  unfold handleIpv4
  rw [hheader, htotal, haddr 16 (by decide), haddr 12 (by decide), hget 0 (by decide),
    hget 8 (by decide), hget 9 (by decide), length_splice hfits]
  split_ifs with hshort hversion
  · rfl
  · rfl
  · rfl
  · rfl
  · rw [slice_splice_of_disjoint hfits (Or.inr (by
      show 12 ≤ ipHeaderLen data
      omega))]

/-- The checksum of a segment is not looked at, unless the header length makes it data. -/
theorem handleTcp_splice (t : Conns) {segment : Bytes} (h : 20 ≤ segment.length)
    (hoff : 20 ≤ (tcpHeader segment).dataOff) (srcIp : IpAddr) (hi lo : UInt8) :
    handleTcp t (splice segment 16 [hi, lo]) srcIp = handleTcp t segment srcIp := by
  have hfits : 16 + [hi, lo].length ≤ segment.length := by
    show 18 ≤ segment.length
    omega
  have hheader : tcpHeader (splice segment 16 [hi, lo]) = tcpHeader segment := by
    have hslice (o m : ℕ) (hom : o + m ≤ 16) :
        slice (splice segment 16 [hi, lo]) o m = slice segment o m :=
      slice_splice_of_disjoint hfits (Or.inl hom)
    have hget (i : ℕ) (hi' : i + 1 ≤ 16) :
        (splice segment 16 [hi, lo]).getD i 0 = segment.getD i 0 :=
      getD_splice_of_disjoint hfits (Or.inl hi')
    unfold tcpHeader
    rw [hslice 0 2 (by decide), hslice 2 2 (by decide), hslice 4 4 (by decide),
      hslice 8 4 (by decide), hslice 14 2 (by decide), hget 12 (by decide), hget 13 (by decide)]
  have hdrop : (splice segment 16 [hi, lo]).drop (tcpHeader segment).dataOff =
      segment.drop (tcpHeader segment).dataOff := by
    refine drop_splice hfits ?_
    show 18 ≤ (tcpHeader segment).dataOff
    omega
  unfold handleTcp
  dsimp only
  rw [hheader, hdrop, length_splice hfits]

/-- A packet to 10.0.2.15 with a RST for the open connection, and no checksum anywhere. -/
def rstPacket : Bytes :=
  [0x45, 0, 0, 40, 0, 1, 0x40, 0, 64, 6, 0, 0, 10, 10, 10, 10, 10, 0, 2, 15] ++
    segmentBytes 80 49152 1001 0 tcpRst 4096

end Aeterna.Net
