import Mathlib.Data.List.Basic
import Mathlib.Data.Nat.ModEq
import Mathlib.Logic.Function.Basic

/-!
# Windows of a cyclic buffer

A buffer of `cap` cells read around its end: `window cap buf tail len` is the queue that a ring
buffer with read position `tail` and `len` elements holds. Writing the cell behind the window
appends to it (`window_update`), dropping cells at the front moves `tail` (`window_add`).
-/

namespace Lib.Ring

variable {α : Type*} {cap tail len : ℕ} {buf : ℕ → α}

/-- The `len` cells from `tail` on, modulo the size of the buffer. -/
def window (cap : ℕ) (buf : ℕ → α) (tail len : ℕ) : List α :=
  (List.range len).map fun i => buf ((tail + i) % cap)

@[simp] theorem length_window : (window cap buf tail len).length = len := by
  simp [window]

theorem window_zero : window cap buf tail 0 = [] := rfl

theorem window_succ :
    window cap buf tail (len + 1) = window cap buf tail len ++ [buf ((tail + len) % cap)] := by
  simp [window, List.range_succ]

theorem window_add (more : ℕ) :
    window cap buf tail (len + more) =
      window cap buf tail len ++ window cap buf ((tail + len) % cap) more := by
  simp only [window, List.range_add, List.map_append, List.map_map]
  congr 1
  apply List.map_congr_left
  intro i _
  simp only [Function.comp, Nat.mod_add_mod, Nat.add_assoc]

theorem window_cons (h : tail < cap) :
    window cap buf tail (len + 1) = buf tail :: window cap buf ((tail + 1) % cap) len := by
  rw [Nat.add_comm, window_add, window_succ, window_zero, Nat.add_zero, Nat.mod_eq_of_lt h]
  rfl

theorem window_congr {tail' : ℕ} (h : tail % cap = tail' % cap) :
    window cap buf tail len = window cap buf tail' len := by
  apply List.map_congr_left
  intro i _
  rw [Nat.add_mod, h, ← Nat.add_mod]

theorem add_mod_ne {i : ℕ} (hi : i < len) (hlen : len < cap) :
    (tail + i) % cap ≠ (tail + len) % cap := by
  intro h
  have hmod : i ≡ len [MOD cap] := Nat.ModEq.add_left_cancel' tail h
  rw [Nat.ModEq, Nat.mod_eq_of_lt (lt_trans hi hlen), Nat.mod_eq_of_lt hlen] at hmod
  exact absurd hmod (Nat.ne_of_lt hi)

theorem window_update (b : α) (hlen : len < cap) :
    window cap (Function.update buf ((tail + len) % cap) b) tail (len + 1) =
      window cap buf tail len ++ [b] := by
  rw [window_succ, Function.update_self]
  congr 1
  apply List.map_congr_left
  intro i hi
  rw [Function.update_of_ne (add_mod_ne (List.mem_range.mp hi) hlen)]

end Lib.Ring
