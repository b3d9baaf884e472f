import Mathlib

/-!
# The integer square root of the terminal

`isqrt_u64` of `src/terminal.rs`, from which `ping` has the deviation that it prints: Newton's
iteration on words of 64 bits, from the number itself downwards. A sum that does not fit and a
division by zero stop the kernel; `none` is that outcome.

An iterate is never below the root (`lt_sq_average`), and the iteration goes on as long as it is
above it (`sq_le_of_le_average`).
-/

namespace Aeterna.Term

def checkedAdd (a b : UInt64) : Option UInt64 :=
  if a.toNat + b.toNat < 2 ^ 64 then some (a + b) else none

def checkedDiv (a b : UInt64) : Option UInt64 := if b = 0 then none else some (a / b)

def isqrtLoop (n x y : UInt64) : Option UInt64 :=
  if _ : y < x then do
    let q ← checkedDiv n y
    let sum ← checkedAdd y q
    isqrtLoop n y (sum / 2)
  else some x
termination_by x.toNat

def isqrtU64 (n : UInt64) : Option UInt64 :=
  if n = 0 then some 0
  else do
    let sum ← checkedAdd n 1
    isqrtLoop n n (sum / 2)

/-! ## One iterate -/

theorem lt_sq_average {n x : ℕ} (hx : 0 < x) :
    n < ((x + n / x) / 2 + 1) * ((x + n / x) / 2 + 1) := by
  have hn : n < x * (n / x + 1) := Nat.lt_mul_div_succ n hx
  generalize n / x = q at hn ⊢
  have hs : x + (q + 1) ≤ 2 * ((x + q) / 2 + 1) := by omega
  generalize (x + q) / 2 + 1 = s at hs ⊢
  have hmean : 4 * (x * (q + 1)) ≤ (x + (q + 1)) * (x + (q + 1)) := by
    nlinarith [sq_nonneg ((x : ℤ) - (q + 1))]
  have hsq : (x + (q + 1)) * (x + (q + 1)) ≤ 2 * s * (2 * s) := Nat.mul_le_mul hs hs
  nlinarith

theorem sq_le_of_le_average {n x : ℕ} (hx : 0 < x) (h : x ≤ (x + n / x) / 2) : x * x ≤ n := by
  have hle : x ≤ n / x := by omega
  exact (Nat.le_div_iff_mul_le hx).mp hle

theorem add_div_le {n y : ℕ} (hy : 0 < y) (h : y ≤ n) : y + n / y ≤ n + 1 := by
  have hq : 0 < n / y := Nat.div_pos h hy
  have hle : y * (n / y) ≤ n := Nat.mul_div_le n y
  generalize n / y = q at hq hle ⊢
  nlinarith

/-! ## The loop -/

theorem checkedAdd_eq {a b : UInt64} (h : a.toNat + b.toNat < 2 ^ 64) :
    checkedAdd a b = some (a + b) ∧ ((a + b) / 2).toNat = (a.toNat + b.toNat) / 2 := by
  refine ⟨if_pos h, ?_⟩
  rw [UInt64.toNat_div, UInt64.toNat_add, Nat.mod_eq_of_lt h]
  rfl

/-- The loop ends at the root if it starts from above it, with the next iterate at hand. -/
theorem isqrtLoop_spec {n x y : UInt64} (hn : n.toNat < 2 ^ 64 - 1) (hx : 0 < x.toNat)
    (hxn : x.toNat ≤ n.toNat) (hy : y.toNat = (x.toNat + n.toNat / x.toNat) / 2)
    (habove : n.toNat < (x.toNat + 1) * (x.toNat + 1)) :
    ∃ r, isqrtLoop n x y = some r ∧ r.toNat * r.toNat ≤ n.toNat ∧
      n.toNat < (r.toNat + 1) * (r.toNat + 1) := by
  induction hk : x.toNat using Nat.strong_induction_on generalizing x y with
  | _ k ih =>
    subst hk
    rw [isqrtLoop]
    by_cases hlt : y < x
    · have hlt' : y.toNat < x.toNat := UInt64.lt_iff_toNat_lt.mp hlt
      have hnext : n.toNat < (y.toNat + 1) * (y.toNat + 1) := hy ▸ lt_sq_average hx
      have hy0 : 0 < y.toNat := by
        by_contra h0
        rw [Nat.eq_zero_of_not_pos h0] at hnext
        omega
      have hdiv : checkedDiv n y = some (n / y) := if_neg fun h => by simp [h] at hy0
      have hyn : y.toNat ≤ n.toNat := hlt'.le.trans hxn
      have hfits : y.toNat + (n / y).toNat < 2 ^ 64 := by
        have hle := add_div_le hy0 hyn
        rw [UInt64.toNat_div]
        omega
      obtain ⟨hsum, hhalf⟩ := checkedAdd_eq hfits
      rw [dif_pos hlt, hdiv, Option.bind_eq_bind, Option.bind_some, hsum, Option.bind_some]
      rw [UInt64.toNat_div] at hhalf
      exact ih _ hlt' hy0 hyn hhalf hnext rfl
    · have hle : x.toNat ≤ y.toNat := UInt64.le_iff_toNat_le.mp (UInt64.not_lt.mp hlt)
      rw [dif_neg hlt]
      exact ⟨x, rfl, sq_le_of_le_average hx (hle.trans_eq hy), habove⟩

/-- Below the largest word the result is the root, rounded down. -/
theorem isqrtU64_spec {n : UInt64} (hn : n.toNat < 2 ^ 64 - 1) :
    ∃ r, isqrtU64 n = some r ∧ r.toNat * r.toNat ≤ n.toNat ∧
      n.toNat < (r.toNat + 1) * (r.toNat + 1) := by
  unfold isqrtU64
  by_cases h0 : n = 0
  · rw [if_pos h0, h0]
    exact ⟨0, rfl, by decide, by decide⟩
  · have hpos : 0 < n.toNat := Nat.pos_of_ne_zero fun h => h0 (UInt64.toNat_inj.mp h)
    have hfits : n.toNat + (1 : UInt64).toNat < 2 ^ 64 := by
      show n.toNat + 1 < 2 ^ 64
      omega
    obtain ⟨hsum, hhalf⟩ := checkedAdd_eq hfits
    rw [if_neg h0, hsum, Option.bind_eq_bind, Option.bind_some]
    refine isqrtLoop_spec hn hpos le_rfl ?_ (by nlinarith)
    rw [hhalf, Nat.div_self hpos]
    rfl

theorem isqrtU64_spec_ten :
    ∃ r, isqrtU64 10 = some r ∧ r.toNat * r.toNat ≤ (10 : UInt64).toNat ∧
      (10 : UInt64).toNat < (r.toNat + 1) * (r.toNat + 1) :=
  isqrtU64_spec (by decide)

end Aeterna.Term
