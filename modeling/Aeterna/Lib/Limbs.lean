import Aeterna.Lib.Bytes
import Aeterna.Lib.Word
import Mathlib.Data.Nat.Digits.Lemmas
import Mathlib.Tactic.Linarith
import Mathlib.Tactic.Ring

/-!
# Numbers in 32-bit words

Little-endian lists of words and the numbers that they stand for (`nat`): how these are put together
from their words, bits and bytes.
-/

namespace Lib.Limbs

/-- The number with the given digits, lowest first. -/
def value {R : Type*} [CommSemiring R] (base : R) : List R → R
  | [] => 0
  | d :: ds => d + base * value base ds

theorem value_eq_ofDigits (base : ℕ) (ds : List ℕ) : value base ds = Nat.ofDigits base ds := by
  induction ds with
  | nil => rfl
  | cons d ds ih => rw [value, ih, Nat.ofDigits_cons]

theorem value_set {R : Type*} [CommSemiring R] (base : R) {ds : List R} {k : ℕ} (d : R)
    (hk : k < ds.length) :
    value base (ds.set k d) + base ^ k * ds[k] = value base ds + base ^ k * d := by
  induction ds generalizing k with
  | nil => exact absurd hk (by simp)
  | cons x ds ih =>
    cases k with
    | zero =>
      rw [List.set_cons_zero, value, value, List.getElem_cons_zero]
      ring
    | succ k =>
      have hk' : k < ds.length := Nat.lt_of_succ_lt_succ hk
      have hrest := ih hk'
      calc x + base * value base (ds.set k d) + base ^ (k + 1) * ds[k]
          = x + base * (value base (ds.set k d) + base ^ k * ds[k]) := by ring
        _ = x + base * value base ds + base ^ (k + 1) * d := by rw [hrest]; ring

/-! ## Words -/

def nat (ws : List UInt32) : ℕ := value (2 ^ 32) (ws.map UInt32.toNat)

theorem nat_cons (w : UInt32) (ws : List UInt32) : nat (w :: ws) = w.toNat + 2 ^ 32 * nat ws := rfl

theorem nat_lt (ws : List UInt32) : nat ws < 2 ^ (32 * ws.length) := by
  have hlt : nat ws < (2 ^ 32) ^ (ws.map UInt32.toNat).length := by
    rw [nat, value_eq_ofDigits]
    apply Nat.ofDigits_lt_base_pow_length (by norm_num)
    intro x hx
    obtain ⟨w, -, rfl⟩ := List.mem_map.mp hx
    exact w.toNat_lt
  rwa [← pow_mul, List.length_map] at hlt

theorem nat_append (as bs : List UInt32) : nat (as ++ bs) = nat as + 2 ^ (32 * as.length) * nat bs := by
  rw [nat, List.map_append, value_eq_ofDigits, Nat.ofDigits_append, List.length_map, ← pow_mul,
    ← value_eq_ofDigits, ← value_eq_ofDigits]
  rfl

theorem nat_replicate_zero (n : ℕ) : nat (List.replicate n 0) = 0 := by
  induction n with
  | zero => rfl
  | succ n ih => rw [List.replicate_succ, nat_cons, ih, UInt32.toNat_zero, Nat.mul_zero]

theorem nat_take_succ {ws : List UInt32} {n : ℕ} (hn : n < ws.length) :
    nat (ws.take (n + 1)) = nat (ws.take n) + 2 ^ (32 * n) * (ws.getD n 0).toNat := by
  have hword : ws.getD n 0 = ws[n] := by
    rw [List.getD_eq_getElem?_getD, List.getElem?_eq_getElem hn, Option.getD_some]
  have hlen : (ws.take n).length = n := by
    rw [List.length_take]
    omega
  rw [List.take_succ_eq_append_getElem hn, nat_append, hlen, hword]
  rfl

theorem testBit_nat (ws : List UInt32) (i : ℕ) :
    (nat ws).testBit i = (ws.getD (i / 32) 0).toNat.testBit (i % 32) := by
  induction ws generalizing i with
  | nil => simp [nat, value]
  | cons w ws ih =>
    rw [nat_cons, Nat.add_comm, Nat.testBit_two_pow_mul_add _ w.toNat_lt]
    by_cases hi : i < 32
    · rw [if_pos hi, Nat.div_eq_of_lt hi, Nat.mod_eq_of_lt hi, List.getD_cons_zero]
    · rw [if_neg hi, ih]
      have hdiv : i / 32 = (i - 32) / 32 + 1 := by omega
      have hmod : i % 32 = (i - 32) % 32 := by omega
      rw [hdiv, hmod, List.getD_cons_succ]

/-! ### Bytes of words -/

theorem leValue_flatMap (ws : List UInt32) :
    Bytes.leValue (ws.flatMap fun w => Bytes.leBytes 4 w.toNat) = nat ws := by
  induction ws with
  | nil => rfl
  | cons w ws ih =>
    rw [List.flatMap_cons, Bytes.leValue_append, ih, Bytes.leValue_leBytes_of_lt w.toNat_lt,
      nat_cons]
    norm_num

theorem nat_words_of_bytes {n : ℕ} {bytes : List UInt8} (hlen : bytes.length = 4 * n) :
    nat ((List.range n).map fun k =>
      UInt32.ofNat (Bytes.leValue ((bytes.drop (4 * k)).take 4))) = Bytes.leValue bytes := by
  induction n generalizing bytes with
  | zero =>
    obtain rfl := List.length_eq_zero_iff.mp hlen
    rfl
  | succ n ih =>
    have hrest := @ih (bytes.drop 4) (by rw [List.length_drop]; omega)
    have htake : (bytes.take 4).length = 4 := by rw [List.length_take]; omega
    have hlow : Bytes.leValue (bytes.take 4) < 2 ^ 32 := by
      have hlt := Bytes.leValue_lt (bytes.take 4)
      rwa [htake] at hlt
    rw [List.range_succ_eq_map, List.map_cons, List.map_map, nat_cons, List.drop_zero,
      UInt32.toNat_ofNat_of_lt' hlow]
    simp only [List.drop_drop] at hrest
    have hshift : (fun k => UInt32.ofNat (Bytes.leValue ((bytes.drop (4 * k)).take 4))) ∘ Nat.succ =
        fun k => UInt32.ofNat (Bytes.leValue ((bytes.drop (4 + 4 * k)).take 4)) := by
      funext k
      rw [Function.comp_apply, Nat.mul_succ, Nat.add_comm]
    rw [hshift, hrest]
    conv_rhs => rw [← List.take_append_drop 4 bytes]
    rw [Bytes.leValue_append, htake]
    norm_num

end Lib.Limbs
