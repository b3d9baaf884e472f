import Aeterna.Net.Tls.Bignum

/-!
# Encryption of the premaster secret

`rsa_encrypt` of `net/tls/bignum.rs` and `random_bytes` of `net/tls/rng.rs`. What the hardware or
the fallback generator answers is a sequence of words. The loop that replaces a zero byte draws
until it gets another one, so `rsaEncrypt` takes a bound on the draws for each byte; when the
sequence has non-zero bytes again and again, some bound is enough (`rsaEncrypt_spec`).
-/

namespace Aeterna.Net.Tls

open Lib.Bytes BigNum

/-! ## Random bytes -/

/-- What the calls for a random word answer, in order. -/
abbrev Draws := ℕ → UInt64

/-- `n` bytes from whole words, after the first `used` answers; the last word is cut. -/
def randomBytes (draws : Draws) (n used : ℕ) : List UInt8 × ℕ :=
  let count := (n + 7) / 8
  (((List.range count).flatMap fun i => leBytes 8 (draws (used + i)).toNat).take n, used + count)

theorem length_randomBytes (draws : Draws) (n used : ℕ) :
    (randomBytes draws n used).1.length = n := by
  have hall : ((List.range ((n + 7) / 8)).flatMap
      fun i => leBytes 8 (draws (used + i)).toNat).length = 8 * ((n + 7) / 8) := by
    rw [List.length_flatMap]
    simp [Nat.mul_comm]
  rw [randomBytes, List.length_take, hall]
  omega

theorem randomBytes_one (draws : Draws) (used : ℕ) :
    randomBytes draws 1 used = ([UInt8.ofNat (draws used).toNat], used + 1) := rfl

/-- From any answer on there is a word with a non-zero low byte. -/
def Lively (draws : Draws) : Prop := ∀ used, ∃ j, (draws (used + j)).toNat % 256 ≠ 0

/-! ## Padding -/

/-- Why a call does not return. -/
inductive Stop
  /-- `vec!` panics -/
  | capacityOverflow
  /-- the bound on the draws is used up -/
  | outOfDraws
  deriving DecidableEq

/-- The loop for one byte of the padding. -/
def redraw (draws : Draws) : ℕ → UInt8 → ℕ → Except Stop (UInt8 × ℕ)
  | 0, b, used => if b = 0 then .error .outOfDraws else .ok (b, used)
  | fuel + 1, b, used =>
    if b = 0 then
      let (tmp, used) := randomBytes draws 1 used
      redraw draws fuel (tmp.headD 0) used
    else .ok (b, used)

def redrawAll (draws : Draws) (fuel : ℕ) : List UInt8 → ℕ → Except Stop (List UInt8 × ℕ)
  | [], used => .ok ([], used)
  | b :: bs, used => do
    let (b, used) ← redraw draws fuel b used
    let (bs, used) ← redrawAll draws fuel bs used
    return (b :: bs, used)

/-- `k - 3 - len`, and `vec!` of that size. A difference below zero wraps to more than `isize::MAX`,
because `k` and `len` are sizes of objects in memory. -/
def psLen (k len : ℕ) : Except Stop ℕ :=
  if k < 3 + len then .error .capacityOverflow else .ok (k - 3 - len)

/-- `00 02 PS 00 M`. -/
def encodedMessage (ps msg : List UInt8) : List UInt8 := [0x00, 0x02] ++ ps ++ [0x00] ++ msg

def modulusLen (n : BigNum) : ℕ := (n.bitLen + 7) / 8

def rsaEncrypt (draws : Draws) (fuel used : ℕ) (msg : List UInt8) (n e : BigNum) :
    Except Stop (List UInt8 × ℕ) := do
  let k := modulusLen n
  let len ← psLen k msg.length
  let (ps, used) := randomBytes draws len used
  let (ps, used) ← redrawAll draws fuel ps used
  let m := fromBeBytes (encodedMessage ps msg)
  let c := modExp m e n
  return (c.toBeBytesPadded k, used)

theorem redraw_of_ne {draws : Draws} {b : UInt8} (hb : b ≠ 0) (fuel used : ℕ) :
    redraw draws fuel b used = .ok (b, used) := by
  cases fuel with
  | zero => rw [redraw, if_neg hb]
  | succ fuel => rw [redraw, if_neg hb]

theorem redraw_zero (draws : Draws) (fuel used : ℕ) :
    redraw draws (fuel + 1) 0 used =
      redraw draws fuel (UInt8.ofNat (draws used).toNat) (used + 1) := by
  rw [redraw, if_pos rfl, randomBytes_one]
  rfl

/-- With a non-zero answer ahead some bound on the draws is enough, and more changes nothing. -/
theorem exists_redraw {draws : Draws} {j : ℕ} {b : UInt8} {used : ℕ}
    (hj : (draws (used + j)).toNat % 256 ≠ 0) :
    ∃ bound b' used', b' ≠ 0 ∧
      ∀ fuel, bound ≤ fuel → redraw draws fuel b used = .ok (b', used') := by
  induction j generalizing b used with
  | zero =>
    by_cases hb : b = 0
    · have hnext : UInt8.ofNat (draws used).toNat ≠ 0 := by
        intro hz
        have hbyte := congrArg UInt8.toNat hz
        rw [UInt8.toNat_ofNat'] at hbyte
        exact hj hbyte
      refine ⟨1, _, used + 1, hnext, fun fuel hfuel => ?_⟩
      obtain ⟨fuel, rfl⟩ := Nat.exists_eq_add_of_le' hfuel
      rw [hb, redraw_zero, redraw_of_ne hnext]
    · exact ⟨0, b, used, hb, fun fuel _ => redraw_of_ne hb fuel used⟩
  | succ j ih =>
    by_cases hb : b = 0
    · rw [Nat.add_succ, ← Nat.succ_add] at hj
      obtain ⟨bound, b', used', hne, hdraw⟩ := ih hj
      refine ⟨bound + 1, b', used', hne, fun fuel hfuel => ?_⟩
      obtain ⟨fuel, rfl⟩ := Nat.exists_eq_add_of_le' (le_trans (Nat.le_add_left 1 bound) hfuel)
      rw [hb, redraw_zero]
      exact hdraw fuel (by omega)
    · exact ⟨0, b, used, hb, fun fuel _ => redraw_of_ne hb fuel used⟩

theorem exists_redrawAll {draws : Draws} (h : Lively draws) (bs : List UInt8) (used : ℕ) :
    ∃ bound ps used', ps.length = bs.length ∧ 0 ∉ ps ∧
      ∀ fuel, bound ≤ fuel → redrawAll draws fuel bs used = .ok (ps, used') := by
  induction bs generalizing used with
  | nil => exact ⟨0, [], used, rfl, List.not_mem_nil, fun fuel _ => rfl⟩
  | cons b bs ih =>
    obtain ⟨j, hj⟩ := h used
    obtain ⟨bound, b', used', hne, hdraw⟩ := @exists_redraw draws j b used hj
    obtain ⟨bound', ps, used'', hlen, hps, hdraws⟩ := ih used'
    refine ⟨max bound bound', b' :: ps, used'', congrArg (· + 1) hlen, ?_, fun fuel hfuel => ?_⟩
    · rw [List.mem_cons, not_or]
      exact ⟨hne.symm, hps⟩
    · rw [redrawAll, hdraw fuel (le_trans (le_max_left _ _) hfuel)]
      show (redrawAll draws fuel bs used' >>= _) = _
      rw [hdraws fuel (le_trans (le_max_right _ _) hfuel)]
      rfl

/-! ## The encoded message -/

theorem length_encodedMessage (ps msg : List UInt8) :
    (encodedMessage ps msg).length = ps.length + 3 + msg.length := by
  simp only [encodedMessage, List.length_append, List.length_cons, List.length_nil]
  omega

/-- Padding without zeros ends at the first zero after the two bytes in front. -/
theorem encodedMessage_inj {ps ps' msg msg' : List UInt8} (hps : 0 ∉ ps) (hps' : 0 ∉ ps')
    (h : encodedMessage ps msg = encodedMessage ps' msg') : ps = ps' ∧ msg = msg' := by
  have hrest : ps ++ 0 :: msg = ps' ++ 0 :: msg' := by
    simpa [encodedMessage] using h
  clear h
  induction ps generalizing ps' with
  | nil =>
    cases ps' with
    | nil => exact ⟨rfl, (List.cons.inj hrest).2⟩
    | cons b ps' =>
      have hb : (0 : UInt8) = b := (List.cons.inj hrest).1
      exact absurd (by rw [hb]; exact List.mem_cons_self) hps'
  | cons a ps ih =>
    cases ps' with
    | nil =>
      have ha : a = (0 : UInt8) := (List.cons.inj hrest).1
      exact absurd (by rw [ha]; exact List.mem_cons_self) hps
    | cons b ps' =>
      obtain ⟨rfl, htail⟩ := List.cons.inj hrest
      rw [List.mem_cons, not_or] at hps hps'
      obtain ⟨rfl, rfl⟩ := ih hps.2 hps'.2 htail
      exact ⟨rfl, rfl⟩

theorem beValue_encodedMessage_lt (ps msg : List UInt8) :
    beValue (encodedMessage ps msg) < 256 ^ (ps.length + 2 + msg.length) := by
  have hcons : encodedMessage ps msg = 0 :: (2 :: ps ++ 0 :: msg) := by
    simp [encodedMessage]
  have hlt := beValue_lt (2 :: ps ++ 0 :: msg)
  have hlen : (2 :: ps ++ 0 :: msg).length = ps.length + 2 + msg.length := by
    simp only [List.length_append, List.length_cons]
    omega
  rw [hcons, beValue_cons, UInt8.toNat_zero, Nat.mul_zero, Nat.zero_add, ← hlen]
  exact hlt

/-! ## Encryption -/

theorem pow_le_beValue {b : UInt8} (hb : b ≠ 0) (bs : List UInt8) :
    256 ^ bs.length ≤ beValue (b :: bs) := by
  have hpos : 0 < b.toNat := Nat.pos_of_ne_zero fun hz => hb (UInt8.toNat_inj.mp hz)
  rw [beValue_cons]
  exact le_trans (Nat.le_mul_of_pos_right _ hpos) (Nat.le_add_right _ _)

theorem lt_modulusLen_iff (n : BigNum) (k : ℕ) : k < modulusLen n ↔ 256 ^ k ≤ n.toNat := by
  have hpow : 256 ^ k = 2 ^ (8 * k) := by
    rw [pow_mul]
    rfl
  rw [modulusLen, bitLen_eq, hpow, ← Nat.lt_size]
  omega

theorem modulusLen_fromBeBytes {b : UInt8} (hb : b ≠ 0) (bs : List UInt8) :
    modulusLen (fromBeBytes (b :: bs)) = bs.length + 1 := by
  have hlow := (lt_modulusLen_iff (fromBeBytes (b :: bs)) bs.length).mpr
    (by rw [toNat_fromBeBytes]; exact pow_le_beValue hb bs)
  have hhigh := mt (lt_modulusLen_iff (fromBeBytes (b :: bs)) (bs.length + 1)).mp
    (by rw [toNat_fromBeBytes, not_le]; exact beValue_lt (b :: bs))
  omega

/-- The call returns `EM ^ e mod n` in as many bytes as `n` has, for an encoded message below `n`
that determines its padding, of eight bytes at least, and `msg`. -/
def Encrypts (draws : Draws) (used : ℕ) (msg n : List UInt8) (e : BigNum) : Prop :=
  ∃ bound ps used',
    (∀ fuel, bound ≤ fuel → ∃ c,
      rsaEncrypt draws fuel used msg (fromBeBytes n) e = .ok (c, used') ∧ c.length = n.length ∧
      beValue c = beValue (encodedMessage ps msg) ^ e.toNat % beValue n) ∧
    (encodedMessage ps msg).length = n.length ∧ 8 ≤ ps.length ∧ 0 ∉ ps ∧
    beValue (encodedMessage ps msg) < beValue n ∧
    ∀ ps' msg', 0 ∉ ps' → encodedMessage ps' msg' = encodedMessage ps msg →
      ps' = ps ∧ msg' = msg

theorem rsaEncrypt_spec {draws : Draws} (hdraws : Lively draws) (used : ℕ) {b : UInt8} (hb : b ≠ 0)
    (bs : List UInt8) (e : BigNum) {msg : List UInt8} (hk : msg.length + 11 ≤ (b :: bs).length) :
    Encrypts draws used msg (b :: bs) e := by
  rw [List.length_cons] at hk
  have hlen : psLen (bs.length + 1) msg.length = .ok (bs.length + 1 - 3 - msg.length) := by
    rw [psLen, if_neg (by omega)]
  have hmodulus : 2 ≤ (fromBeBytes (b :: bs)).toNat := by
    rw [toNat_fromBeBytes]
    have hpow : 256 ^ 1 ≤ 256 ^ bs.length := Nat.pow_le_pow_right (by norm_num) (by omega)
    exact le_trans (by norm_num) (le_trans hpow (pow_le_beValue hb bs))
  obtain ⟨bound, ps, used', hpsLen, hps, hall⟩ := exists_redrawAll hdraws
    (randomBytes draws (bs.length + 1 - 3 - msg.length) used).1
    (randomBytes draws (bs.length + 1 - 3 - msg.length) used).2
  rw [length_randomBytes] at hpsLen
  have hpower := toNat_modExp (fromBeBytes (encodedMessage ps msg)) e hmodulus
  generalize hc : modExp (fromBeBytes (encodedMessage ps msg)) e (fromBeBytes (b :: bs)) = c
    at hpower
  have hlt : c.toNat < 256 ^ (bs.length + 1) := by
    rw [hpower, toNat_fromBeBytes (b :: bs)]
    rw [toNat_fromBeBytes] at hmodulus
    exact lt_trans (Nat.mod_lt _ (by omega)) (beValue_lt (b :: bs))
  refine ⟨bound, ps, used', fun fuel hfuel => ⟨c.toBeBytesPadded (b :: bs).length, ?_,
    length_toBeBytesPadded _ _, ?_⟩, ?_, by omega, hps, ?_,
    fun ps' msg' hps' heq => encodedMessage_inj hps' hps heq⟩
  · rw [rsaEncrypt, modulusLen_fromBeBytes hb, hlen, ← hc]
    show (redrawAll draws fuel (randomBytes draws _ used).1 (randomBytes draws _ used).2 >>= _) = _
    rw [hall fuel hfuel]
    rfl
  · rw [List.length_cons, beValue_toBeBytesPadded hlt, hpower, toNat_fromBeBytes, toNat_fromBeBytes]
  · rw [length_encodedMessage, List.length_cons]
    omega
  · have hem := beValue_encodedMessage_lt ps msg
    have hwidth : ps.length + 2 + msg.length = bs.length := by omega
    rw [hwidth] at hem
    exact lt_of_lt_of_le hem (pow_le_beValue hb bs)

/-- A twelve-byte modulus, one byte of message and a source that always answers one. -/
theorem rsaEncrypt_spec_oneByte :
    Lively (fun _ => 1) ∧
      Encrypts (fun _ => 1) 0 [7] (0x80 :: List.replicate 11 1) (fromBeBytes [3]) := by
  have hlively : Lively (fun _ => 1) := fun _ => ⟨0, Nat.one_ne_zero⟩
  exact ⟨hlively, rsaEncrypt_spec hlively 0 (by decide) _ _ (by decide)⟩

end Aeterna.Net.Tls
