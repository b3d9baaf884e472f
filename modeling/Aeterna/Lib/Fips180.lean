import Aeterna.Lib.Blocks
import Aeterna.Lib.Buffer
import Aeterna.Lib.Bytes

/-!
# SHA-256

The secure hash standard FIPS 180-4 for strings of bytes: the functions and constants of section 4,
the padding of section 5 and the computation of section 6.2.
-/

namespace Lib.Fips180

open Bytes Buffer Blocks

/-! ## Functions and constants -/

/-- Rotation to the right by `n < 32` places. -/
def rotr (n : UInt32) (x : UInt32) : UInt32 := (x >>> n) ||| (x <<< (32 - n))

def ch (x y z : UInt32) : UInt32 := (x &&& y) ^^^ (~~~x &&& z)

def maj (x y z : UInt32) : UInt32 := (x &&& y) ^^^ (x &&& z) ^^^ (y &&& z)

def bigSigma0 (x : UInt32) : UInt32 := rotr 2 x ^^^ rotr 13 x ^^^ rotr 22 x

def bigSigma1 (x : UInt32) : UInt32 := rotr 6 x ^^^ rotr 11 x ^^^ rotr 25 x

def sigma0 (x : UInt32) : UInt32 := rotr 7 x ^^^ rotr 18 x ^^^ (x >>> 3)

def sigma1 (x : UInt32) : UInt32 := rotr 17 x ^^^ rotr 19 x ^^^ (x >>> 10)

/-- The first 32 bits of the fractional parts of the cube roots of the first 64 primes. -/
def k : List UInt32 := [
  0x428a2f98, 0x71374491, 0xb5c0fbcf, 0xe9b5dba5, 0x3956c25b, 0x59f111f1, 0x923f82a4, 0xab1c5ed5,
  0xd807aa98, 0x12835b01, 0x243185be, 0x550c7dc3, 0x72be5d74, 0x80deb1fe, 0x9bdc06a7, 0xc19bf174,
  0xe49b69c1, 0xefbe4786, 0x0fc19dc6, 0x240ca1cc, 0x2de92c6f, 0x4a7484aa, 0x5cb0a9dc, 0x76f988da,
  0x983e5152, 0xa831c66d, 0xb00327c8, 0xbf597fc7, 0xc6e00bf3, 0xd5a79147, 0x06ca6351, 0x14292967,
  0x27b70a85, 0x2e1b2138, 0x4d2c6dfc, 0x53380d13, 0x650a7354, 0x766a0abb, 0x81c2c92e, 0x92722c85,
  0xa2bfe8a1, 0xa81a664b, 0xc24b8b70, 0xc76c51a3, 0xd192e819, 0xd6990624, 0xf40e3585, 0x106aa070,
  0x19a4c116, 0x1e376c08, 0x2748774c, 0x34b0bcb5, 0x391c0cb3, 0x4ed8aa4a, 0x5b9cca4f, 0x682e6ff3,
  0x748f82ee, 0x78a5636f, 0x84c87814, 0x8cc70208, 0x90befffa, 0xa4506ceb, 0xbef9a3f7, 0xc67178f2]

/-- The eight words of a hash value, and the working variables. -/
structure Hash where
  a : UInt32
  b : UInt32
  c : UInt32
  d : UInt32
  e : UInt32
  f : UInt32
  g : UInt32
  h : UInt32
  deriving DecidableEq

/-- The first 32 bits of the fractional parts of the square roots of the first eight primes. -/
def initial : Hash where
  a := 0x6a09e667
  b := 0xbb67ae85
  c := 0x3c6ef372
  d := 0xa54ff53a
  e := 0x510e527f
  f := 0x9b05688c
  g := 0x1f83d9ab
  h := 0x5be0cd19

/-- Word by word, modulo `2 ^ 32`. -/
def Hash.add (x y : Hash) : Hash :=
  ⟨x.a + y.a, x.b + y.b, x.c + y.c, x.d + y.d, x.e + y.e, x.f + y.f, x.g + y.g, x.h + y.h⟩

/-- The words as bytes, the most significant byte first. -/
def Hash.bytes (x : Hash) : List UInt8 :=
  [x.a, x.b, x.c, x.d, x.e, x.f, x.g, x.h].flatMap fun w => beBytes 4 w.toNat

/-! ## Padding -/

/-- Zero bytes between the first byte of the padding and the length: as few as bring the whole to
eight bytes short of a multiple of 64. -/
def zeros (len : ℕ) : ℕ := (119 - len % 64) % 64

def padding (len : ℕ) : List UInt8 :=
  0x80 :: (List.replicate (zeros len) 0 ++ beBytes 8 (8 * len))

def pad (message : List UInt8) : List UInt8 := message ++ padding message.length

/-! ## Computation -/

def wordAt (block : List UInt8) (t : ℕ) : UInt32 := UInt32.ofNat (beValue (slice block (4 * t) 4))

def schedule (block : List UInt8) (t : ℕ) : UInt32 :=
  if t < 16 then wordAt block t
  else sigma1 (schedule block (t - 2)) + schedule block (t - 7) + sigma0 (schedule block (t - 15)) +
    schedule block (t - 16)

/-- One round, with the word `w` of the schedule and the constant `k`. -/
def round (k w : UInt32) (v : Hash) : Hash :=
  let t1 := v.h + bigSigma1 v.e + ch v.e v.f v.g + k + w
  let t2 := bigSigma0 v.a + maj v.a v.b v.c
  ⟨t1 + t2, v.a, v.b, v.c, v.d + t1, v.e, v.f, v.g⟩

def compress (x : Hash) (block : List UInt8) : Hash :=
  x.add ((List.range 64).foldl (fun v t => round (k.getD t 0) (schedule block t) v) x)

def sha256 (message : List UInt8) : List UInt8 := (absorb 64 compress initial (pad message)).bytes

/-! ## Lengths -/

@[simp] theorem length_bytes (x : Hash) : x.bytes.length = 32 := by
  simp [Hash.bytes]

end Lib.Fips180
