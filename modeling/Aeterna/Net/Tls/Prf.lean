import Aeterna.Net.Tls.Protection

/-!
# The pseudo-random function of TLS

`net/tls/prf.rs` and `net/tls/hmac.rs` against RFC 2104 and section 5 of RFC 5246, over the hash of
FIPS 180-4. The loop of `prf` carries `A(i)` from one block to the next and cuts the last block
(`prf_eq`).
-/

namespace Aeterna.Net.Tls

open Lib.Bytes

/-! ## The standards -/

/-- HMAC of RFC 2104 over a hash with blocks of `size` bytes. -/
def rfcHmac (hash : Bytes → Bytes) (size : ℕ) (key text : Bytes) : Bytes :=
  let key := if key.length > size then hash key else key
  let block := key ++ List.replicate (size - key.length) 0
  hash (block.map (· ^^^ 0x5c) ++ hash (block.map (· ^^^ 0x36) ++ text))

/-- Block `i + 1` of `P_hash`, with `A(i)` as `i` applications of `mac` to the seed. -/
def rfcBlock (mac : Bytes → Bytes) (seed : Bytes) (i : ℕ) : Bytes := mac (mac^[i + 1] seed ++ seed)

/-- The first `n` blocks of `P_SHA256`. -/
def rfcPSha256 (secret seed : Bytes) (n : ℕ) : Bytes :=
  (List.range n).flatMap (rfcBlock (rfcHmac Lib.Fips180.sha256 64 secret) seed)

/-! ## The code -/

theorem sha256_eq (data : Bytes) : sha256 data = Lib.Fips180.sha256 data :=
  (Sha256.holds_new.update data).finalize

theorem hmacSha256_eq (key data : Bytes) :
    hmacSha256 key data = rfcHmac Lib.Fips180.sha256 64 key data := by
  have hblock : hmacKeyBlock key =
      (if key.length > 64 then Lib.Fips180.sha256 key else key) ++ List.replicate
        (64 - (if key.length > 64 then Lib.Fips180.sha256 key else key).length) 0 := by
    unfold hmacKeyBlock
    split_ifs
    · rw [sha256_eq, Lib.Fips180.sha256, Lib.Fips180.length_bytes]
    · rfl
  have htwo (a b : Bytes) :
      (Sha256.new.update a |>.update b).finalize = Lib.Fips180.sha256 (a ++ b) :=
    ((Sha256.holds_new.update a).update b).finalize
  rw [hmacSha256, htwo, htwo, hblock]
  rfl

theorem kernel_hmacSha256 (x : KeyExchange) (key data : Bytes) :
    ((Primitives.kernel x).hmacSha256 key data).toList =
      rfcHmac Lib.Fips180.sha256 64 key data := by
  have hlen : (rfcHmac Lib.Fips180.sha256 64 key data).length = 32 := Lib.Fips180.length_bytes _
  show (blockOf 32 (hmacSha256 key data) 0).toList = _
  rw [hmacSha256_eq, Lib.Bytes.Device.toList_blockOf (by rw [hlen]), Nat.mul_zero, List.drop_zero,
    List.take_of_length_le hlen.le]

theorem pHash_eq (P : Primitives) (secret ls a : Bytes) {need n : ℕ} (h : need ≤ 32 * n) :
    pHash P secret ls a need = ((List.range n).flatMap fun i => (P.hmacSha256 secret
      ((fun d => (P.hmacSha256 secret d).toList)^[i] a ++ ls)).toList).take need := by
  induction n generalizing a need with
  | zero =>
    rw [Nat.le_zero.mp h, pHash, if_pos rfl, List.take_zero]
  | succ n ih =>
    by_cases hneed : need = 0
    · rw [hneed, pHash, if_pos rfl, List.take_zero]
    · have hcut (m : ℕ) (block : Vector UInt8 32) : block.toList.take (min 32 m) =
          block.toList.take m := by
        rw [← List.take_take, List.take_of_length_le (by simp)]
      have hrest : need - min 32 need = need - 32 := by omega
      rw [pHash, if_neg hneed, List.range_succ_eq_map, List.flatMap_cons, List.flatMap_map,
        List.take_append, Vector.length_toList, hcut, hrest, ih _ (by omega)]
      rfl

/-- **The pseudo-random function.** The first bytes of `P_SHA256` over the label and the seed, of as
many blocks as one likes; so a shorter output is the beginning of a longer one. -/
theorem prf_eq (x : KeyExchange) (secret label seed : Bytes) (outLen more : ℕ) :
    prf (.kernel x) secret label seed outLen =
        (rfcPSha256 secret (label ++ seed) ((outLen + 31) / 32 + more)).take outLen ∧
      prf (.kernel x) secret label seed outLen <+:
        prf (.kernel x) secret label seed (outLen + more) := by
  have hblocks (n k : ℕ) (h : n ≤ 32 * k) : prf (.kernel x) secret label seed n =
      (rfcPSha256 secret (label ++ seed) k).take n := by
    rw [prf, pHash_eq _ _ _ _ h]
    simp only [kernel_hmacSha256]
    rfl
  refine ⟨hblocks _ _ (by omega), ?_⟩
  rw [hblocks outLen (outLen + more) (by omega), hblocks _ (outLen + more) (by omega)]
  exact List.take_prefix_take_left (by omega)

end Aeterna.Net.Tls
