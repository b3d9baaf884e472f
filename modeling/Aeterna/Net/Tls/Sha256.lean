import Aeterna.Lib.Fips180
import Aeterna.Net.Tcp

/-!
# The streaming hasher

`net/tls/sha256.rs`: a hash state, a buffer for a block that is not complete, and a count of the
bytes hashed. `Holds h m` says that the hasher `h` has been fed the bytes `m`; `update` appends to
them and `finalize` gives their SHA-256, however they were cut.
-/

namespace Aeterna.Net.Tls

open Lib.Bytes Lib.Buffer Lib.Blocks
open Lib.Fips180 (Hash)

/-! ## Compression -/

def rotateRight (x : UInt32) (n : ℕ) : UInt32 := ⟨x.toBitVec.rotateRight n⟩

/-- The value that one pass of the loop over the message schedule stores. -/
def scheduleWord (w : List UInt32) (i : ℕ) : UInt32 :=
  let w15 := w.getD (i - 15) 0
  let w2 := w.getD (i - 2) 0
  let s0 := rotateRight w15 7 ^^^ rotateRight w15 18 ^^^ (w15 >>> 3)
  let s1 := rotateRight w2 17 ^^^ rotateRight w2 19 ^^^ (w2 >>> 10)
  w.getD (i - 16) 0 + s0 + w.getD (i - 7) 0 + s1

def scheduleStep (w : List UInt32) (i : ℕ) : List UInt32 := w.set i (scheduleWord w i)

/-- The words of the block, then the loop from 16 to 63. -/
def messageSchedule (block : Bytes) : List UInt32 :=
  (List.range' 16 48).foldl scheduleStep <| (List.range 64).map fun i =>
    if i < 16 then UInt32.ofNat (beValue (slice block (i * 4) 4)) else 0

def roundStep (k w : List UInt32) (v : Hash) (i : ℕ) : Hash :=
  let s1 := rotateRight v.e 6 ^^^ rotateRight v.e 11 ^^^ rotateRight v.e 25
  let ch := (v.e &&& v.f) ^^^ (~~~v.e &&& v.g)
  let temp1 := v.h + s1 + ch + k.getD i 0 + w.getD i 0
  let s0 := rotateRight v.a 2 ^^^ rotateRight v.a 13 ^^^ rotateRight v.a 22
  let maj := (v.a &&& v.b) ^^^ (v.a &&& v.c) ^^^ (v.b &&& v.c)
  let temp2 := s0 + maj
  { h := v.g, g := v.f, f := v.e, e := v.d + temp1, d := v.c, c := v.b, b := v.a,
    a := temp1 + temp2 }

/-- The compression of one block with the round constants `k`. -/
def compressWith (k : List UInt32) (state : Hash) (block : Bytes) : Hash :=
  let v := (List.range 64).foldl (roundStep k (messageSchedule block)) state
  ⟨state.a + v.a, state.b + v.b, state.c + v.c, state.d + v.d, state.e + v.e, state.f + v.f,
    state.g + v.g, state.h + v.h⟩

theorem roundStep_eq (k w : List UInt32) (v : Hash) (i : ℕ) :
    roundStep k w v i = Lib.Fips180.round (k.getD i 0) (w.getD i 0) v := rfl

theorem scheduleWord_eq (w : List UInt32) (i : ℕ) :
    scheduleWord w i = Lib.Fips180.sigma1 (w.getD (i - 2) 0) + w.getD (i - 7) 0 +
      Lib.Fips180.sigma0 (w.getD (i - 15) 0) + w.getD (i - 16) 0 := by
  have hword : scheduleWord w i = w.getD (i - 16) 0 + Lib.Fips180.sigma0 (w.getD (i - 15) 0) +
      w.getD (i - 7) 0 + Lib.Fips180.sigma1 (w.getD (i - 2) 0) := rfl
  rw [hword]
  ac_rfl

/-- The array that the loop has filled up to `16 + n` agrees with the standard's schedule. -/
theorem foldl_scheduleStep (block : Bytes) (w : List UInt32)
    (hw : ∀ t < 16, w.getD t 0 = Lib.Fips180.wordAt block t) (n : ℕ) (hn : 16 + n ≤ w.length) :
    ((List.range' 16 n).foldl scheduleStep w).length = w.length ∧
      ∀ t < 16 + n, ((List.range' 16 n).foldl scheduleStep w).getD t 0 =
        Lib.Fips180.schedule block t := by
  induction n with
  | zero =>
    refine ⟨rfl, fun t ht => ?_⟩
    rw [Lib.Fips180.schedule, if_pos ht]
    exact hw t ht
  | succ n ih =>
    obtain ⟨hlen, hread⟩ := ih (by omega)
    rw [List.range'_concat, List.foldl_append, Nat.one_mul, List.foldl_cons, List.foldl_nil,
      scheduleStep]
    refine ⟨by rw [List.length_set, hlen], fun t ht => ?_⟩
    rw [List.getD_eq_getElem?_getD]
    by_cases hlast : t = 16 + n
    · subst hlast
      rw [List.getElem?_set_self (by omega), Option.getD_some, scheduleWord_eq,
        Lib.Fips180.schedule, if_neg (by omega), hread _ (by omega), hread _ (by omega),
        hread _ (by omega), hread _ (by omega)]
    · rw [List.getElem?_set_ne (Ne.symm hlast)]
      exact hread t (by omega)

theorem messageSchedule_eq (block : Bytes) {t : ℕ} (ht : t < 64) :
    (messageSchedule block).getD t 0 = Lib.Fips180.schedule block t := by
  refine (foldl_scheduleStep block _ (fun t ht => ?_) 48 (by simp)).2 t ht
  have hlt : t < (List.range 64).length := by
    rw [List.length_range]
    omega
  rw [List.getD_eq_getElem?_getD, List.getElem?_map, List.getElem?_eq_getElem hlt,
    List.getElem_range, Option.map_some, Option.getD_some, if_pos ht, Lib.Fips180.wordAt,
    Nat.mul_comm]

/-- With the standard's constants this is the standard's compression. -/
theorem compressWith_eq (state : Hash) (block : Bytes) :
    compressWith Lib.Fips180.k state block = Lib.Fips180.compress state block := by
  have hrounds : (List.range 64).foldl (roundStep Lib.Fips180.k (messageSchedule block)) state =
      (List.range 64).foldl
        (fun v t => Lib.Fips180.round (Lib.Fips180.k.getD t 0) (Lib.Fips180.schedule block t) v)
        state := by
    refine List.foldl_ext _ _ _ fun v t ht => ?_
    rw [roundStep_eq, messageSchedule_eq block (List.mem_range.mp ht)]
  unfold compressWith Lib.Fips180.compress
  rw [hrounds]
  rfl

/-! ## The hasher -/

structure Sha256 where
  state : Hash
  buf : Bytes
  bufLen : ℕ
  totalLen : UInt64

namespace Sha256

/-- The round constants `K`. -/
def k : List UInt32 := [
  0x428a2f98, 0x71374491, 0xb5c0fbcf, 0xe9b5dba5, 0x3956c25b, 0x59f111f1, 0x923f82a4, 0xab1c5ed5,
  0xd807aa98, 0x12835b01, 0x243185be, 0x550c7dc3, 0x72be5d74, 0x80deb1fe, 0x9bdc06a7, 0xc19bf174,
  0xe49b69c1, 0xefbe4786, 0x0fc19dc6, 0x240ca1cc, 0x2de92c6f, 0x4a7484aa, 0x5cb0a9dc, 0x76f988da,
  0x983e5152, 0xa831c66d, 0xb00327c8, 0xbf597fc7, 0xc6e00bf3, 0xd5a79147, 0x06ca6351, 0x14292967,
  0x27b70a85, 0x2e1b2138, 0x4d2c6dfc, 0x53380d13, 0x650a7354, 0x766a0abb, 0x81c2c92e, 0x92722c85,
  0xa2bfe8a1, 0xa81a664b, 0xc24b8b70, 0xc76c51a3, 0xd192e819, 0xd6990624, 0xf40e3585, 0x106aa070,
  0x19a4c116, 0x1e376c08, 0x2748774c, 0x34b0bcb5, 0x391c0cb3, 0x4ed8aa4a, 0x5b9cca4f, 0x682e6ff3,
  0x748f82ee, 0x78a5636f, 0x84c87814, 0x8cc70208, 0x90befffa, 0xa4506ceb, 0xbef9a3f7, 0xc67178f2]

def hInit : Hash :=
  ⟨0x6a09e667, 0xbb67ae85, 0x3c6ef372, 0xa54ff53a, 0x510e527f, 0x9b05688c, 0x1f83d9ab, 0x5be0cd19⟩

def compress (state : Hash) (block : Bytes) : Hash := compressWith k state block

def new : Sha256 := ⟨hInit, List.replicate 64 0, 0, 0⟩

/-- The part of `update` that fills a block that was begun: the hasher, and the data left. -/
def fill (h : Sha256) (data : Bytes) : Sha256 × Bytes :=
  if h.bufLen > 0 then
    let take := min data.length (64 - h.bufLen)
    let buf := splice h.buf h.bufLen (data.take take)
    let bufLen := h.bufLen + take
    if bufLen = 64 then
      ({ h with state := compress h.state buf, buf := buf, bufLen := 0 }, data.drop take)
    else ({ h with buf := buf, bufLen := bufLen }, data.drop take)
  else (h, data)

/-- Complete blocks are hashed directly, what is left behind them is kept. -/
def drain (h : Sha256) (data : Bytes) : Sha256 :=
  let state := absorb 64 compress h.state data
  let rest := leftover 64 data
  if rest ≠ [] then { h with state := state, buf := splice h.buf 0 rest, bufLen := rest.length }
  else { h with state := state }

/-- The source counts the bytes first; nothing before the end of the call reads the count. -/
def update (h : Sha256) (data : Bytes) : Sha256 :=
  { (h.fill data).1.drain (h.fill data).2 with
    totalLen := h.totalLen + UInt64.ofNat data.length }

def finalize (h : Sha256) : Bytes :=
  let bitLen := h.totalLen * 8
  let buf := splice h.buf h.bufLen [0x80]
  let bufLen := h.bufLen + 1
  let (state, buf) :=
    if bufLen > 56 then
      (compress h.state (splice buf bufLen (List.replicate (64 - bufLen) 0)), List.replicate 64 0)
    else (h.state, splice buf bufLen (List.replicate (56 - bufLen) 0))
  (compress state (splice buf 56 (beBytes 8 bitLen.toNat))).bytes

theorem compress_eq : compress = Lib.Fips180.compress := by
  funext state block
  exact compressWith_eq state block

/-! ## What a hasher has been fed -/

/-- State and buffer are those of a hasher that has been fed the bytes `m`. -/
structure Feeds (h : Sha256) (m : Bytes) : Prop where
  state : h.state = absorb 64 compress hInit m
  bufLen : h.bufLen = m.length % 64
  length_buf : h.buf.length = 64
  buf : h.buf.take h.bufLen = leftover 64 m

/-- The hasher has been fed the bytes `m`. -/
structure Holds (h : Sha256) (m : Bytes) : Prop extends Feeds h m where
  totalLen : h.totalLen = UInt64.ofNat m.length

variable {h : Sha256} {m : Bytes}

theorem holds_new : Holds new [] where
  state := (absorb_of_lt _ _ (by decide)).symm
  bufLen := rfl
  length_buf := rfl
  buf := rfl
  totalLen := rfl

theorem drain_nil (h : Sha256) : h.drain [] = h := by
  unfold drain
  rw [absorb_of_lt _ _ (by decide)]
  rfl

theorem Feeds.drain (hf : Feeds h m) (hempty : h.bufLen = 0) (data : Bytes) :
    Feeds (h.drain data) (m ++ data) := by
  have hleft : leftover 64 m = [] := by
    apply List.eq_nil_of_length_eq_zero
    rw [length_leftover, ← hf.bufLen, hempty]
  have hstate : absorb 64 compress h.state data = absorb 64 compress hInit (m ++ data) := by
    rw [absorb_append _ _ (by decide), ← hf.state, hleft, List.nil_append]
  have hrest : leftover 64 (m ++ data) = leftover 64 data := by
    rw [leftover_append (by decide), hleft, List.nil_append]
  have hlen : (leftover 64 data).length = (m ++ data).length % 64 := by
    rw [← hrest, length_leftover]
  have hle : 0 + (leftover 64 data).length ≤ h.buf.length := by
    rw [hf.length_buf]
    omega
  unfold Sha256.drain
  dsimp only
  split_ifs with hne
  · refine ⟨hstate, hlen, (length_splice hle).trans hf.length_buf, ?_⟩
    rw [hrest]
    exact List.take_left
  · rw [not_not] at hne
    refine ⟨hstate, ?_, hf.length_buf, ?_⟩
    · rw [← hlen, hne, hempty]
      rfl
    · rw [hempty, hrest, hne, List.take_zero]

/-- `fill` feeds a front of the data: all of it, or what completes the block. -/
theorem Feeds.fill (hf : Feeds h m) (data : Bytes) :
    ∃ pre, data = pre ++ (h.fill data).2 ∧ Feeds (h.fill data).1 (m ++ pre) ∧
      ((h.fill data).1.bufLen = 0 ∨ (h.fill data).2 = []) := by
  have hlt : h.bufLen < 64 := by
    rw [hf.bufLen]
    exact Nat.mod_lt _ (by decide)
  unfold Sha256.fill
  dsimp only
  split_ifs with hpos hfull
  · have htake : (data.take (min data.length (64 - h.bufLen))).length = 64 - h.bufLen := by
      rw [List.length_take]
      omega
    have hblock : splice h.buf h.bufLen (data.take (min data.length (64 - h.bufLen))) =
        leftover 64 m ++ data.take (min data.length (64 - h.bufLen)) := by
      rw [splice_to_end (by rw [htake, hf.length_buf]; omega), hf.buf]
    have hblock_len : (leftover 64 m ++ data.take (min data.length (64 - h.bufLen))).length = 64 := by
      rw [List.length_append, length_leftover, ← hf.bufLen]
      omega
    have hmod : (m ++ data.take (min data.length (64 - h.bufLen))).length % 64 = 0 := by
      have hm := hf.bufLen
      rw [List.length_append]
      omega
    refine ⟨data.take (min data.length (64 - h.bufLen)), (List.take_append_drop _ _).symm, ?_,
      Or.inl rfl⟩
    rw [hblock]
    refine ⟨?_, hmod.symm, hblock_len, ?_⟩
    · rw [absorb_append _ _ (by decide), absorb_block _ _ (by decide) hblock_len, hf.state]
    · rw [eq_comm]
      apply List.eq_nil_of_length_eq_zero
      rw [length_leftover, hmod]
  · have hall : min data.length (64 - h.bufLen) = data.length := by omega
    rw [hall, List.take_length, List.drop_length]
    have hm := hf.bufLen
    have hshort : (leftover 64 m ++ data).length < 64 := by
      rw [List.length_append, length_leftover]
      omega
    refine ⟨data, (List.append_nil _).symm, ⟨?_, ?_, ?_, ?_⟩, Or.inr rfl⟩
    · rw [absorb_append _ _ (by decide), absorb_of_lt _ _ hshort, hf.state]
    · show h.bufLen + data.length = _
      rw [List.length_append]
      omega
    · rw [length_splice (by rw [hf.length_buf]; omega), hf.length_buf]
    · have hfront : (h.buf.take h.bufLen ++ data).length = h.bufLen + data.length := by
        rw [List.length_append, List.length_take, hf.length_buf]
        omega
      rw [leftover_append (by decide), leftover_of_lt hshort, ← hf.buf]
      exact List.take_left' hfront
  · refine ⟨[], rfl, ?_, Or.inl (Nat.eq_zero_of_not_pos hpos)⟩
    rwa [List.append_nil]

theorem Feeds.count (hf : Feeds h m) (totalLen : UInt64) :
    Feeds { h with totalLen := totalLen } m := ⟨hf.state, hf.bufLen, hf.length_buf, hf.buf⟩

theorem Holds.update (hh : Holds h m) (data : Bytes) : Holds (h.update data) (m ++ data) := by
  obtain ⟨pre, hpre, hfed, hdone⟩ := hh.toFeeds.fill data
  unfold Sha256.update
  constructor
  · apply Feeds.count
    have hdrained : Feeds ((h.fill data).1.drain (h.fill data).2) (m ++ pre ++ (h.fill data).2) := by
      rcases hdone with hempty | hnil
      · exact hfed.drain hempty _
      · rw [hnil, List.append_nil, drain_nil]
        exact hfed
    rwa [List.append_assoc, ← hpre] at hdrained
  · rw [hh.totalLen, List.length_append, UInt64.ofNat_add]

theorem holds_foldl_update (hh : Holds h m) (chunks : List Bytes) :
    Holds (chunks.foldl Sha256.update h) (m ++ chunks.flatten) := by
  induction chunks generalizing h m with
  | nil => rwa [List.flatten_nil, List.append_nil]
  | cons data chunks ih =>
    rw [List.flatten_cons, ← List.append_assoc]
    exact ih (hh.update data)

/-! ## The digest -/

theorem absorb_padding {state : Hash} {front : Bytes} {len : ℕ} (hfront : front.length = len % 64) :
    absorb 64 compress state (front ++ Lib.Fips180.padding len) =
      if front.length + 1 > 56 then
        compress (compress state (front ++ 0x80 :: List.replicate (63 - front.length) 0))
          (List.replicate 56 0 ++ beBytes 8 (8 * len))
      else
        compress state
          (front ++ 0x80 :: List.replicate (55 - front.length) 0 ++ beBytes 8 (8 * len)) := by
  have hlt : len % 64 < 64 := Nat.mod_lt _ (by decide)
  unfold Lib.Fips180.padding Lib.Fips180.zeros
  split_ifs with hlong
  · have hzeros : (119 - len % 64) % 64 = (63 - front.length) + 56 := by omega
    have hsplit : front ++ 0x80 :: (List.replicate ((63 - front.length) + 56) 0 ++
        beBytes 8 (8 * len)) = (front ++ 0x80 :: List.replicate (63 - front.length) 0) ++
          (List.replicate 56 0 ++ beBytes 8 (8 * len)) := by
      simp [List.replicate_add]
    rw [hzeros, hsplit, absorb_block_append _ _ (by decide), absorb_block _ _ (by decide)]
    · simp
    · simp
      omega
  · have hzeros : (119 - len % 64) % 64 = 55 - front.length := by omega
    have hsplit : front ++ 0x80 :: (List.replicate (55 - front.length) 0 ++
        beBytes 8 (8 * len)) =
          front ++ 0x80 :: List.replicate (55 - front.length) 0 ++ beBytes 8 (8 * len) := by
      simp
    rw [hzeros, hsplit, absorb_block _ _ (by decide)]
    simp
    omega

theorem Holds.finalize (hh : Holds h m) : h.finalize = Lib.Fips180.sha256 m := by
  have hlt : h.bufLen < 64 := by
    rw [hh.bufLen]
    exact Nat.mod_lt _ (by decide)
  -- both lengths are taken modulo `2 ^ 64`
  have hbits : beBytes 8 (h.totalLen * 8).toNat = beBytes 8 (8 * m.length) := by
    have hmod : (h.totalLen * 8).toNat = 8 * m.length % 256 ^ 8 := by
      rw [hh.totalLen, UInt64.toNat_mul, UInt64.toNat_ofNat', Nat.mod_mul_mod, Nat.mul_comm]
      rfl
    rw [hmod, beBytes, leBytes_mod, beBytes]
  have hleft : (leftover 64 m).length = h.bufLen := by rw [length_leftover, hh.bufLen]
  have hspec : Lib.Fips180.sha256 m =
      (absorb 64 compress h.state (leftover 64 m ++ Lib.Fips180.padding m.length)).bytes := by
    rw [Lib.Fips180.sha256, Lib.Fips180.pad, absorb_append _ _ (by decide), hh.state, compress_eq]
    rfl
  rw [hspec, absorb_padding (length_leftover 64 m), hleft]
  have hmark (zeros : ℕ) : splice (splice h.buf h.bufLen [0x80]) (h.bufLen + 1)
      (List.replicate zeros 0) = splice h.buf h.bufLen (0x80 :: List.replicate zeros 0) := by
    refine splice_splice ?_ rfl
    rw [hh.length_buf]
    exact hlt
  unfold Sha256.finalize
  dsimp only
  rw [hbits]
  by_cases hlong : h.bufLen + 1 > 56
  · have hblock : splice h.buf h.bufLen (0x80 :: List.replicate (64 - (h.bufLen + 1)) 0) =
        leftover 64 m ++ 0x80 :: List.replicate (63 - h.bufLen) 0 := by
      rw [splice_to_end, hh.buf, show 64 - (h.bufLen + 1) = 63 - h.bufLen by omega]
      rw [hh.length_buf, List.length_cons, List.length_replicate]
      omega
    rw [if_pos hlong, if_pos hlong, hmark, hblock]
    rfl
  · have hblock : splice (splice h.buf h.bufLen (0x80 :: List.replicate (56 - (h.bufLen + 1)) 0))
        56 (beBytes 8 (8 * m.length)) = leftover 64 m ++
          0x80 :: List.replicate (55 - h.bufLen) 0 ++ beBytes 8 (8 * m.length) := by
      have hfill : h.bufLen + (0x80 :: List.replicate (56 - (h.bufLen + 1)) (0 : UInt8)).length =
          56 := by
        rw [List.length_cons, List.length_replicate]
        omega
      rw [splice_splice (by rw [hfill, hh.length_buf]; decide) hfill.symm, splice_to_end, hh.buf,
        show 56 - (h.bufLen + 1) = 55 - h.bufLen by omega, List.append_assoc]
      rw [List.length_append, length_beBytes, hh.length_buf, ← Nat.add_assoc, hfill]
    rw [if_neg hlong, if_neg hlong, hmark, hblock]

end Sha256

end Aeterna.Net.Tls
