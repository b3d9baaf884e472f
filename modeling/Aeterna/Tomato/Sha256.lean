import Aeterna.Net.Tls.Sha256

/-!
# The package manager's hash

`sha256_hash` of `userland/tomato`, written apart from the hasher of the kernel: it pads a copy of
the data with a loop and hashes it block by block. Both compute SHA-256 (`sha256_agreement`).
-/

namespace Aeterna.Tomato

open Lib.Bytes Lib.Blocks
open Lib.Fips180 (Hash)
open Net (Bytes)

/-- The round constants in `sha256_hash`. -/
def k : List UInt32 := [
  0x428a2f98, 0x71374491, 0xb5c0fbcf, 0xe9b5dba5, 0x3956c25b, 0x59f111f1, 0x923f82a4, 0xab1c5ed5,
  0xd807aa98, 0x12835b01, 0x243185be, 0x550c7dc3, 0x72be5d74, 0x80deb1fe, 0x9bdc06a7, 0xc19bf174,
  0xe49b69c1, 0xefbe4786, 0x0fc19dc6, 0x240ca1cc, 0x2de92c6f, 0x4a7484aa, 0x5cb0a9dc, 0x76f988da,
  0x983e5152, 0xa831c66d, 0xb00327c8, 0xbf597fc7, 0xc6e00bf3, 0xd5a79147, 0x06ca6351, 0x14292967,
  0x27b70a85, 0x2e1b2138, 0x4d2c6dfc, 0x53380d13, 0x650a7354, 0x766a0abb, 0x81c2c92e, 0x92722c85,
  0xa2bfe8a1, 0xa81a664b, 0xc24b8b70, 0xc76c51a3, 0xd192e819, 0xd6990624, 0xf40e3585, 0x106aa070,
  0x19a4c116, 0x1e376c08, 0x2748774c, 0x34b0bcb5, 0x391c0cb3, 0x4ed8aa4a, 0x5b9cca4f, 0x682e6ff3,
  0x748f82ee, 0x78a5636f, 0x84c87814, 0x8cc70208, 0x90befffa, 0xa4506ceb, 0xbef9a3f7, 0xc67178f2]

/-- The initial hash values in `sha256_hash`. -/
def hInit : Hash :=
  ⟨0x6a09e667, 0xbb67ae85, 0x3c6ef372, 0xa54ff53a, 0x510e527f, 0x9b05688c, 0x1f83d9ab, 0x5be0cd19⟩

def pushZeros (padded : Bytes) : Bytes :=
  if padded.length % 64 ≠ 56 then pushZeros (padded ++ [0]) else padded
termination_by (120 - padded.length % 64) % 64
decreasing_by
  rw [List.length_append, List.length_singleton]
  omega

def sha256Hash (data : Bytes) : Bytes :=
  let bitLen := UInt64.ofNat data.length * 8
  let padded := pushZeros (data ++ [0x80]) ++ beBytes 8 bitLen.toNat
  (absorb 64 (Net.Tls.compressWith k) hInit padded).bytes

theorem pushZeros_eq (padded : Bytes) :
    pushZeros padded = padded ++ List.replicate ((120 - padded.length % 64) % 64) 0 := by
  fun_induction pushZeros padded with
  | case1 padded h ih =>
    have hlen : (120 - padded.length % 64) % 64 =
        (120 - (padded ++ [(0 : UInt8)]).length % 64) % 64 + 1 := by
      rw [List.length_append, List.length_singleton]
      omega
    rw [ih, hlen, List.append_assoc, List.replicate_succ]
    rfl
  | case2 padded h =>
    rw [not_not] at h
    rw [h]
    simp

theorem sha256Hash_eq {data : Bytes} (h : data.length < 2 ^ 61) :
    sha256Hash data = Lib.Fips180.sha256 data := by
  have hbits : (UInt64.ofNat data.length * 8).toNat = 8 * data.length := by
    rw [UInt64.toNat_mul, UInt64.toNat_ofNat', Nat.mod_eq_of_lt (a := data.length) (by omega)]
    show data.length * 8 % 2 ^ 64 = _
    omega
  have hpad : pushZeros (data ++ [0x80]) ++ beBytes 8 (UInt64.ofNat data.length * 8).toNat =
      Lib.Fips180.pad data := by
    have hzeros : (120 - (data ++ [(0x80 : UInt8)]).length % 64) % 64 =
        Lib.Fips180.zeros data.length := by
      rw [List.length_append, List.length_singleton, Lib.Fips180.zeros]
      omega
    rw [pushZeros_eq, hzeros, hbits, Lib.Fips180.pad, Lib.Fips180.padding]
    simp
  have hcompress : Net.Tls.compressWith k = Lib.Fips180.compress := by
    funext state block
    exact Net.Tls.compressWith_eq state block
  unfold sha256Hash
  dsimp only
  rw [hpad, hcompress]
  rfl

/-- **Agreement.** However a string is cut into chunks, the kernel's hasher gives its SHA-256, and
so does the package manager's function. -/
theorem sha256_agreement (chunks : List Bytes) (h : chunks.flatten.length < 2 ^ 61) :
    (chunks.foldl Net.Tls.Sha256.update .new).finalize = Lib.Fips180.sha256 chunks.flatten ∧
      sha256Hash chunks.flatten = Lib.Fips180.sha256 chunks.flatten := by
  have hheld := Net.Tls.Sha256.holds_foldl_update Net.Tls.Sha256.holds_new chunks
  rw [List.nil_append] at hheld
  exact ⟨hheld.finalize, sha256Hash_eq h⟩

/-- Three bytes in two chunks. -/
theorem sha256_agreement_abc :
    (Net.Tls.Sha256.new.update [0x61] |>.update [0x62, 0x63]).finalize =
        Lib.Fips180.sha256 [0x61, 0x62, 0x63] ∧
      sha256Hash [0x61, 0x62, 0x63] = Lib.Fips180.sha256 [0x61, 0x62, 0x63] :=
  sha256_agreement [[0x61], [0x62, 0x63]] (by decide)

end Aeterna.Tomato
