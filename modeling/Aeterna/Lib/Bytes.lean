import Mathlib.Data.List.Basic
import Mathlib.Data.Nat.Init
import Mathlib.Algebra.Order.Ring.Nat

/-!
# Numbers as bytes, and block devices

`leBytes n v` is the number `v` in `n` bytes, lowest first; `leValue` reads it back modulo `256 ^ n`.
`beBytes` and `beValue` are the same, highest first.
`Device n` is a store of blocks of `n` bytes by block number; what is written to it is read back
(`read_write`).
-/

namespace Lib.Bytes

/-! ## Little-endian numbers -/

def leBytes : ℕ → ℕ → List UInt8
  | 0, _ => []
  | n + 1, v => UInt8.ofNat v :: leBytes n (v / 256)

def leValue : List UInt8 → ℕ
  | [] => 0
  | b :: bs => b.toNat + 256 * leValue bs

@[simp] theorem length_leBytes (n v : ℕ) : (leBytes n v).length = n := by
  induction n generalizing v with
  | zero => rfl
  | succ n ih => rw [leBytes, List.length_cons, ih]

@[simp] theorem take_leBytes_append (n v : ℕ) (rest : List UInt8) :
    (leBytes n v ++ rest).take n = leBytes n v := List.take_left' (length_leBytes n v)

@[simp] theorem drop_leBytes_append (n v : ℕ) (rest : List UInt8) :
    (leBytes n v ++ rest).drop n = rest := List.drop_left' (length_leBytes n v)

theorem leValue_leBytes (n v : ℕ) : leValue (leBytes n v) = v % 256 ^ n := by
  induction n generalizing v with
  | zero => rw [leBytes, leValue, pow_zero, Nat.mod_one]
  | succ n ih =>
    have hbyte : (UInt8.ofNat v).toNat = v % 256 := UInt8.toNat_ofNat'
    rw [leBytes, leValue, ih, hbyte, pow_succ, Nat.mul_comm (256 ^ n), Nat.mod_mul]

theorem leValue_leBytes_of_lt {n v : ℕ} (h : v < 256 ^ n) : leValue (leBytes n v) = v := by
  rw [leValue_leBytes, Nat.mod_eq_of_lt h]

theorem leBytes_leValue {n : ℕ} {bytes : List UInt8} (h : bytes.length = n) :
    leBytes n (leValue bytes) = bytes := by
  induction bytes generalizing n with
  | nil => exact h ▸ rfl
  | cons b bs ih =>
    have hb := b.toNat_lt
    have hlow : UInt8.ofNat (b.toNat + 256 * leValue bs) = b := by
      apply UInt8.toNat_inj.mp
      rw [UInt8.toNat_ofNat']
      omega
    rw [← h, List.length_cons, leBytes, leValue, hlow, Nat.add_mul_div_left _ _ (by decide),
      Nat.div_eq_of_lt hb, Nat.zero_add, ih rfl]

theorem leValue_lt (bytes : List UInt8) : leValue bytes < 256 ^ bytes.length := by
  induction bytes with
  | nil => exact Nat.one_pos
  | cons b bs ih =>
    have hb := b.toNat_lt
    rw [leValue, List.length_cons, pow_succ]
    omega

theorem leValue_append (bs cs : List UInt8) :
    leValue (bs ++ cs) = leValue bs + 256 ^ bs.length * leValue cs := by
  induction bs with
  | nil => simp [leValue]
  | cons b bs ih =>
    rw [List.cons_append, leValue, leValue, ih, List.length_cons, pow_succ', Nat.mul_add,
      Nat.mul_assoc, Nat.add_assoc]

theorem leBytes_mod (n v : ℕ) : leBytes n (v % 256 ^ n) = leBytes n v := by
  induction n generalizing v with
  | zero => rfl
  | succ n ih =>
    have hlow : UInt8.ofNat (v % 256 ^ (n + 1)) = UInt8.ofNat v := by
      apply UInt8.toNat_inj.mp
      rw [UInt8.toNat_ofNat', UInt8.toNat_ofNat']
      exact Nat.mod_mod_of_dvd v (dvd_pow_self 256 n.succ_ne_zero)
    rw [leBytes, leBytes, hlow, pow_succ', Nat.mod_mul_right_div_self, ih]

/-! ## Big-endian numbers -/

def beBytes (n v : ℕ) : List UInt8 := (leBytes n v).reverse

def beValue (bytes : List UInt8) : ℕ := leValue bytes.reverse

@[simp] theorem length_beBytes (n v : ℕ) : (beBytes n v).length = n := by
  rw [beBytes, List.length_reverse, length_leBytes]

theorem beValue_beBytes_of_lt {n v : ℕ} (h : v < 256 ^ n) : beValue (beBytes n v) = v := by
  rw [beValue, beBytes, List.reverse_reverse, leValue_leBytes_of_lt h]

theorem beValue_cons (b : UInt8) (bs : List UInt8) :
    beValue (b :: bs) = 256 ^ bs.length * b.toNat + beValue bs := by
  rw [beValue, List.reverse_cons, leValue_append, List.length_reverse, Nat.add_comm]
  rfl

theorem beValue_append (as bs : List UInt8) :
    beValue (as ++ bs) = 256 ^ bs.length * beValue as + beValue bs := by
  rw [beValue, List.reverse_append, leValue_append, List.length_reverse, Nat.add_comm]
  rfl

theorem beValue_replicate_zero (n : ℕ) : beValue (List.replicate n 0) = 0 := by
  induction n with
  | zero => rfl
  | succ n ih => rw [List.replicate_succ, beValue_cons, ih, UInt8.toNat_zero, Nat.mul_zero]

theorem beValue_lt (bytes : List UInt8) : beValue bytes < 256 ^ bytes.length := by
  have hlt := leValue_lt bytes.reverse
  rwa [List.length_reverse] at hlt

theorem beBytes_inj {n v w : ℕ} (hv : v < 256 ^ n) (hw : w < 256 ^ n)
    (h : beBytes n v = beBytes n w) : v = w := by
  rw [← beValue_beBytes_of_lt hv, h, beValue_beBytes_of_lt hw]

/-! ## Block devices -/

/-- Blocks of `n` bytes, by number. -/
abbrev Device (n : ℕ) := ℕ → Vector UInt8 n

variable {n : ℕ}

/-- Block `i` of the bytes, padded with zeros. -/
def blockOf (n : ℕ) (bytes : List UInt8) (i : ℕ) : Vector UInt8 n :=
  Vector.ofFn fun j => bytes.getD (n * i + j) 0

namespace Device

def write (d : Device n) (start count : ℕ) (bytes : List UInt8) : Device n :=
  fun i => if start ≤ i ∧ i < start + count then blockOf n bytes (i - start) else d i

def read (d : Device n) (start count : ℕ) : List UInt8 :=
  (List.range count).flatMap fun i => (d (start + i)).toList

theorem read_succ (d : Device n) (start count : ℕ) :
    d.read start (count + 1) = d.read start count ++ (d (start + count)).toList := by
  rw [read, List.range_succ, List.flatMap_append]
  simp [read]

@[simp] theorem length_read (d : Device n) (start count : ℕ) :
    (d.read start count).length = n * count := by
  induction count with
  | zero => rfl
  | succ count ih =>
    rw [read_succ, List.length_append, ih, Vector.length_toList, Nat.mul_succ]

theorem read_add (d : Device n) (start count more : ℕ) :
    d.read start (count + more) = d.read start count ++ d.read (start + count) more := by
  induction more with
  | zero => simp [read]
  | succ more ih =>
    rw [← Nat.add_assoc, read_succ, ih, read_succ, List.append_assoc, Nat.add_assoc]

theorem toList_blockOf {bytes : List UInt8} {i : ℕ} (h : n * (i + 1) ≤ bytes.length) :
    (blockOf n bytes i).toList = (bytes.drop (n * i)).take n := by
  rw [Nat.mul_succ] at h
  apply List.ext_getElem
  · simp
    omega
  · intro j h₁ h₂
    simp only [Vector.length_toList] at h₁
    simp only [blockOf, Vector.getElem_toList, Vector.getElem_ofFn, List.getElem_take,
      List.getElem_drop, List.getD_eq_getElem?_getD]
    rw [List.getElem?_eq_getElem, Option.getD_some]

theorem blockOf_replicate (m i : ℕ) :
    blockOf n (List.replicate m 0) i = Vector.replicate n 0 := by
  ext j hj
  rw [blockOf, Vector.getElem_ofFn, Vector.getElem_replicate, List.getD_eq_getElem?_getD,
    List.getElem?_replicate]
  split_ifs <;> rfl

/-- `bytes` as a block: cut, or padded with zeros. -/
def fit (n : ℕ) (bytes : List UInt8) : List UInt8 :=
  bytes.take n ++ List.replicate (n - bytes.length) 0

@[simp] theorem length_fit (n : ℕ) (bytes : List UInt8) : (fit n bytes).length = n := by
  rw [fit, List.length_append, List.length_take, List.length_replicate]
  omega

theorem fit_of_length {bytes : List UInt8} (h : bytes.length = n) : fit n bytes = bytes := by
  rw [fit, List.take_of_length_le (le_of_eq h), h, Nat.sub_self, List.replicate_zero,
    List.append_nil]

theorem read_write_one (d : Device n) (start : ℕ) (bytes : List UInt8) :
    (d.write start 1 bytes).read start 1 = fit n bytes := by
  rw [read, List.range_one, List.flatMap_singleton, write, Nat.add_zero,
    if_pos ⟨le_refl _, Nat.lt_succ_self _⟩, Nat.sub_self]
  apply List.ext_getElem
  · simp
  · intro j h₁ h₂
    simp only [Vector.length_toList] at h₁
    simp only [blockOf, Vector.getElem_toList, Vector.getElem_ofFn, fit, List.getD_eq_getElem?_getD,
      Nat.mul_zero, Nat.zero_add]
    by_cases hj : j < bytes.length
    · rw [List.getElem_append_left (by rw [List.length_take]; omega), List.getElem_take,
        List.getElem?_eq_getElem hj, Option.getD_some]
    · rw [List.getElem_append_right (by rw [List.length_take]; omega), List.getElem_replicate,
        List.getElem?_eq_none (by omega), Option.getD_none]

theorem read_write_of_disjoint (d : Device n) {start count start' count' : ℕ}
    (bytes : List UInt8) (h : start' + count' ≤ start ∨ start + count ≤ start') :
    (d.write start count bytes).read start' count' = d.read start' count' := by
  induction count' with
  | zero => rfl
  | succ count' ih =>
    rw [read_succ, read_succ, ih (by omega), write, if_neg (by omega)]

theorem read_write (d : Device n) (start : ℕ) {count more : ℕ} {bytes : List UInt8}
    (hcount : more ≤ count) (hlen : n * more ≤ bytes.length) :
    (d.write start count bytes).read start more = bytes.take (n * more) := by
  induction more with
  | zero => simp [read]
  | succ more ih =>
    have hle : n * more ≤ bytes.length := le_trans (Nat.mul_le_mul_left n (Nat.le_succ more)) hlen
    rw [read_succ, ih (by omega) hle, Nat.mul_succ, List.take_add]
    congr 1
    rw [write, if_pos (by omega), Nat.add_sub_cancel_left, toList_blockOf hlen]

end Device

end Lib.Bytes
