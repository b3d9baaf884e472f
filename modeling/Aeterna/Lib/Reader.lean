import Aeterna.Lib.Buffer

/-!
# Parsers that index byte strings

A run of a parser has three outcomes: a value, a rejected input, and a panic at an index or a slice
out of bounds. A run that keeps within its bytes is an `answer`; the rules for `>>=` carry that from
step to step.
-/

namespace Lib.Reader

open Buffer

/-- A run of the parser: `none` outside is a panic, `none` inside a rejected input. -/
abbrev Checked := OptionT Option

/-- The run ends without a panic. -/
def answer {α : Type} (a : Option α) : Checked α := OptionT.mk (some a)

/-- `data[i]` -/
def index (data : List UInt8) (i : ℕ) : Checked UInt8 := OptionT.lift data[i]?

/-- `[data[i], .., data[i + n - 1]]` -/
def indices (data : List UInt8) (i : ℕ) : ℕ → Checked (List UInt8)
  | 0 => answer (some [])
  | n + 1 => do
    let b ← index data i
    let bs ← indices data (i + 1) n
    answer (some (b :: bs))

/-- `&data[start..stop]` -/
def range (data : List UInt8) (start stop : ℕ) : Checked (List UInt8) :=
  OptionT.lift (if start ≤ stop ∧ stop ≤ data.length then
    some ((data.drop start).take (stop - start)) else none)

section Answers

variable {α β : Type}

theorem answer_bind {x : Checked α} {a : Option α} {f : α → Checked β} {g : α → Option β}
    (hx : x = answer a) (hf : ∀ v, f v = answer (g v)) : x >>= f = answer (a >>= g) := by
  subst hx
  cases a with
  | none => rfl
  | some v => exact hf v

theorem answer_some_bind {x : Checked α} {v : α} {f : α → Checked β} {b : Option β}
    (hx : x = answer (some v)) (hf : f v = answer b) : x >>= f = answer b := by
  subst hx
  exact hf

theorem exists_answer_bind {x : Checked α} {f : α → Checked β} (hx : ∃ a, x = answer a)
    (hf : ∀ v, ∃ b, f v = answer b) : ∃ b, x >>= f = answer b := by
  obtain ⟨_ | v, rfl⟩ := hx
  · exact ⟨none, rfl⟩
  · exact hf v

end Answers

variable {data : List UInt8} {i n start stop : ℕ}

theorem index_eq (h : i < data.length) : index data i = answer (some data[i]) := by
  rw [index, List.getElem?_eq_getElem h]
  rfl

theorem index_append {front rest : List UInt8} {b : UInt8} (hdata : data = front ++ b :: rest)
    (hi : i = front.length) : index data i = answer (some b) := by
  subst hdata hi
  rw [index_eq (by simp), List.getElem_append_right le_rfl]
  simp

theorem indices_eq (h : i + n ≤ data.length) :
    indices data i n = answer (some (slice data i n)) := by
  induction n generalizing i with
  | zero => rfl
  | succ n ih =>
    have hslice : slice data i (n + 1) = data[i] :: slice data (i + 1) n := by
      rw [slice, List.drop_eq_getElem_cons (by omega), List.take_succ_cons, slice]
    rw [hslice]
    refine answer_some_bind (index_eq (by omega)) ?_
    exact answer_some_bind (ih (by omega)) rfl

theorem indices_append {front bytes rest : List UInt8} (hdata : data = front ++ (bytes ++ rest))
    (hi : i = front.length) (hn : bytes.length = n) :
    indices data i n = answer (some bytes) := by
  subst hdata hi
  rw [indices_eq (by simp [hn]), slice, List.drop_left, ← hn, List.take_left]

theorem range_eq (h : start ≤ stop) (hle : stop ≤ data.length) :
    range data start stop = answer (some ((data.drop start).take (stop - start))) := by
  rw [range, if_pos ⟨h, hle⟩]
  rfl

theorem range_length_eq (h : start ≤ data.length) :
    range data start data.length = answer (some (data.drop start)) := by
  rw [range_eq h le_rfl, List.take_of_length_le (by rw [List.length_drop])]

theorem range_append {front bytes rest : List UInt8} (hdata : data = front ++ (bytes ++ rest))
    (hstart : start = front.length) (hstop : stop = start + bytes.length) :
    range data start stop = answer (some bytes) := by
  subst hdata hstart hstop
  rw [range_eq (Nat.le_add_right _ _) (by simp), List.drop_left, Nat.add_sub_cancel_left,
    List.take_left]

end Lib.Reader
