import Mathlib.Data.List.Basic
import Mathlib.Algebra.Order.Ring.Nat

/-!
# Block-wise processing

`absorb n f` feeds the complete blocks of `n` elements of a list to a function, left to right, and
`leftover n` is what is left behind them. Feeding a list in two parts is feeding the first part, and
then what it has left over together with the second (`absorb_append`).
-/

namespace Lib.Blocks

variable {α S : Type*} {n : ℕ} {m : List α} (f : S → List α → S) (s : S)

def absorb (n : ℕ) (f : S → List α → S) (s : S) (m : List α) : S :=
  if _ : 0 < n ∧ n ≤ m.length then absorb n f (f s (m.take n)) (m.drop n) else s
termination_by m.length
decreasing_by
  rw [List.length_drop]
  omega

def leftover (n : ℕ) (m : List α) : List α := m.drop (n * (m.length / n))

theorem absorb_of_lt (h : m.length < n) : absorb n f s m = s := by
  rw [absorb, dif_neg fun hn => Nat.not_le.mpr h hn.2]

theorem absorb_of_le (hn : 0 < n) (h : n ≤ m.length) :
    absorb n f s m = absorb n f (f s (m.take n)) (m.drop n) := by
  rw [absorb, dif_pos ⟨hn, h⟩]

theorem absorb_block_append {block : List α} (hn : 0 < n) (h : block.length = n) (m : List α) :
    absorb n f s (block ++ m) = absorb n f (f s block) m := by
  rw [absorb_of_le f s hn (by rw [List.length_append]; omega), List.take_left' h,
    List.drop_left' h]

theorem absorb_block {block : List α} (hn : 0 < n) (h : block.length = n) :
    absorb n f s block = f s block := by
  calc absorb n f s block = absorb n f s (block ++ []) := by rw [List.append_nil]
    _ = absorb n f (f s block) [] := absorb_block_append f s hn h []
    _ = f s block := absorb_of_lt f _ hn

@[simp] theorem length_leftover (n : ℕ) (m : List α) : (leftover n m).length = m.length % n := by
  rw [leftover, List.length_drop, Nat.mod_def]

theorem leftover_of_lt (h : m.length < n) : leftover n m = m := by
  rw [leftover, Nat.div_eq_of_lt h, Nat.mul_zero, List.drop_zero]

theorem leftover_of_le (hn : 0 < n) (h : n ≤ m.length) :
    leftover n m = leftover n (m.drop n) := by
  have hdiv : m.length / n = (m.length - n) / n + 1 := by
    conv_lhs => rw [← Nat.sub_add_cancel h]
    exact Nat.add_div_right _ hn
  rw [leftover, leftover, List.drop_drop, List.length_drop, hdiv, Nat.mul_succ, Nat.add_comm]

theorem absorb_append (hn : 0 < n) (m m' : List α) :
    absorb n f s (m ++ m') = absorb n f (absorb n f s m) (leftover n m ++ m') := by
  -- the blocks of the first part come off one by one
  induction hk : m.length using Nat.strong_induction_on generalizing m s with
  | _ k ih =>
    by_cases h : n ≤ m.length
    · have hlen : (m.drop n).length < k := by
        rw [List.length_drop]
        omega
      rw [absorb_of_le f s hn h, leftover_of_le hn h, ← ih _ hlen _ _ rfl,
        absorb_of_le f s hn (by rw [List.length_append]; omega),
        List.take_append_of_le_length h, List.drop_append_of_le_length h]
    · rw [absorb_of_lt f s (Nat.not_le.mp h), leftover_of_lt (Nat.not_le.mp h)]

theorem leftover_append (hn : 0 < n) (m m' : List α) :
    leftover n (m ++ m') = leftover n (leftover n m ++ m') := by
  induction hk : m.length using Nat.strong_induction_on generalizing m with
  | _ k ih =>
    by_cases h : n ≤ m.length
    · have hlen : (m.drop n).length < k := by
        rw [List.length_drop]
        omega
      rw [leftover_of_le hn h, ← ih _ hlen _ rfl,
        leftover_of_le hn (by rw [List.length_append]; omega), List.drop_append_of_le_length h]
    · rw [leftover_of_lt (m := m) (Nat.not_le.mp h)]

end Lib.Blocks
