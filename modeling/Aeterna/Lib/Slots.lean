import Mathlib.Data.List.Basic
import Mathlib.Data.List.TakeWhile

/-!
# Tables of slots

A table is a list, searched from the front for the first slot that meets a predicate. Replacing a
slot that does not meet it leaves the search as it was, or makes the new slot the one that is found
(`find?_set_of_not`, `find?_set_of_none`). Where a table is spread over chunks, a slot of a chunk is
a slot of the table (`flatMap_set`).
-/

namespace Lib.Slots

variable {α β : Type*}

theorem find?_set_of_not {p : α → Bool} {xs : List α} {i : ℕ} {x y : α} (hi : xs[i]? = some x)
    (hx : p x = false) (hy : p y = false) : (xs.set i y).find? p = xs.find? p := by
  induction xs generalizing i with
  | nil => rfl
  | cons z xs ih =>
    cases i with
    | zero =>
      rw [List.getElem?_cons_zero, Option.some.injEq] at hi
      rw [List.set_cons_zero, List.find?_cons, List.find?_cons, hy, hi, hx]
    | succ i =>
      rw [List.set_cons_succ, List.find?_cons, List.find?_cons, ih hi]

theorem find?_set_of_none {p : α → Bool} {xs : List α} {i : ℕ} {y : α} (hi : i < xs.length)
    (hxs : xs.find? p = none) (hy : p y = true) : (xs.set i y).find? p = some y := by
  induction xs generalizing i with
  | nil => exact absurd hi (Nat.not_lt_zero i)
  | cons z xs ih =>
    rw [List.find?_cons] at hxs
    cases hz : p z with
    | true =>
      rw [hz] at hxs
      exact absurd hxs (Option.some_ne_none z)
    | false =>
      rw [hz] at hxs
      cases i with
      | zero => rw [List.set_cons_zero, List.find?_cons, hy]
      | succ i =>
        rw [List.set_cons_succ, List.find?_cons, hz]
        exact ih (Nat.lt_of_succ_lt_succ hi) hxs

theorem takeWhile_eq_take {p : α → Bool} {xs : List α} {n : ℕ}
    (hbefore : ∀ i x, i < n → xs[i]? = some x → p x = true)
    (hat : ∀ x, xs[n]? = some x → p x = false) : xs.takeWhile p = xs.take n := by
  induction xs generalizing n with
  | nil => rw [List.takeWhile_nil, List.take_nil]
  | cons x xs ih =>
    cases n with
    | zero => rw [List.take_zero, List.takeWhile_cons_of_neg (by rw [hat x rfl]; decide)]
    | succ n =>
      rw [List.takeWhile_cons_of_pos (hbefore 0 x (Nat.zero_lt_succ n) rfl), List.take_succ_cons,
        ih (fun i y hi hy => hbefore (i + 1) y (Nat.succ_lt_succ hi) hy) fun y hy => hat y hy]

theorem flatMap_set {f f' : α → List β} {xs : List α} {b : α} {i : ℕ} {y : β} (hb : b ∈ xs)
    (hxs : xs.Nodup) (hother : ∀ x ∈ xs, x ≠ b → f' x = f x) (hi : i < (f b).length)
    (hset : f' b = (f b).set i y) :
    ∃ j, (xs.flatMap f)[j]? = (f b)[i]? ∧ xs.flatMap f' = (xs.flatMap f).set j y := by
  obtain ⟨front, back, rfl⟩ := List.append_of_mem hb
  obtain ⟨-, hback, hdisj⟩ := List.nodup_append.mp hxs
  have hfront : front.flatMap f' = front.flatMap f := by
    refine List.flatMap_congr fun x hx => ?_
    exact hother x (List.mem_append_left _ hx) (hdisj x hx b List.mem_cons_self)
  have hback : back.flatMap f' = back.flatMap f := by
    refine List.flatMap_congr fun x hx => hother x ?_ ?_
    · exact List.mem_append_right _ (List.mem_cons_of_mem b hx)
    · rintro rfl
      exact (List.nodup_cons.mp hback).1 hx
  refine ⟨(front.flatMap f).length + i, ?_, ?_⟩
  · rw [List.flatMap_append, List.flatMap_cons, List.getElem?_append_right (Nat.le_add_right _ i),
      Nat.add_sub_cancel_left, List.getElem?_append_left hi]
  · rw [List.flatMap_append, List.flatMap_append, List.flatMap_cons, List.flatMap_cons, hfront,
      hback, hset, List.set_append_right _ _ (Nat.le_add_right _ i), Nat.add_sub_cancel_left,
      List.set_append_left _ _ hi]

end Lib.Slots
