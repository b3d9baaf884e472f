import Mathlib

/-!
# Loops over cells

A loop that updates an array acts on each cell by itself (`Acts`): what a cell holds in the end is
what the steps make of it, one after the other (`Acts.foldlM`), also when loops are nested. An
index out of range has no result, so that an action is in bounds.

What the steps make of one cell is a fold in which most steps do nothing: at most one of them
counts (`foldl_ite_eq`), or all of them under one condition (`foldl_ite`). `stepBy s n` are the
starts of tiles of the width `s`; the tiles go over `0, …, n - 1` in their order (`foldl_tiles`), and
a number lies in one of them (`foldl_ite_tile`).
-/

namespace Lib.Loops

variable {α β : Type}

/-! ## Actions -/

/-- The function changes lists of `n` cells cell by cell. -/
def Acts (n : ℕ) (f : List α → Option (List α)) (e : ℕ → α → α) : Prop :=
  ∀ xs : List α, xs.length = n →
    ∃ ys, f xs = some ys ∧ ys.length = n ∧ ∀ i : ℕ, ys[i]? = xs[i]?.map (e i)

variable {n : ℕ} {f : List α → Option (List α)} {e e' : ℕ → α → α}

theorem Acts.congr (h : Acts n f e) (he : ∀ i < n, ∀ z, e i z = e' i z) : Acts n f e' := by
  intro xs hxs
  obtain ⟨ys, hf, hlen, hcell⟩ := h xs hxs
  refine ⟨ys, hf, hlen, fun i => ?_⟩
  rw [hcell]
  by_cases hi : i < n
  · exact congrArg (xs[i]?.map ·) (funext (he i hi))
  · rw [List.getElem?_eq_none (by omega)]
    rfl

theorem acts_set {q : ℕ} (hq : q < n) (g : α → α) :
    Acts n (fun xs => xs[q]?.bind fun z => some (xs.set q (g z)))
      fun i z => if i = q then g z else z := by
  rintro xs rfl
  have hget : xs[q]? = some xs[q] := List.getElem?_eq_getElem hq
  refine ⟨xs.set q (g xs[q]), ?_, List.length_set, fun i => ?_⟩
  · simp only [hget, Option.bind_some]
  · rw [List.getElem?_set]
    by_cases hi : q = i
    · subst hi
      rw [if_pos rfl, if_pos hq, hget]
      simp
    · rw [if_neg hi]
      simp [Ne.symm hi]

theorem Acts.foldlM {l : List β} {f : List α → β → Option (List α)} {e : β → ℕ → α → α}
    (h : ∀ x ∈ l, Acts n (f · x) (e x)) :
    Acts n (l.foldlM f ·) fun i z => l.foldl (fun z x => e x i z) z := by
  induction l with
  | nil =>
    intro xs hxs
    exact ⟨xs, rfl, hxs, fun i => Option.map_id'.symm⟩
  | cons x l ih =>
    intro xs hxs
    obtain ⟨ys, hx, hlen, hcell⟩ := h x List.mem_cons_self xs hxs
    obtain ⟨zs, hl, hlen', hcell'⟩ := ih (fun y hy => h y (List.mem_cons_of_mem x hy)) ys hlen
    refine ⟨zs, ?_, hlen', fun i => ?_⟩
    · show (f xs x).bind _ = some zs
      rw [show f xs x = some ys from hx]
      exact hl
    · rw [hcell', hcell, Option.map_map]
      rfl

theorem Acts.replicate (h : Acts n f e) (x : α) :
    ∃ ys, f (List.replicate n x) = some ys ∧ ys.length = n ∧ ∀ i < n, ys[i]? = some (e i x) := by
  obtain ⟨ys, hf, hlen, hcell⟩ := h _ List.length_replicate
  refine ⟨ys, hf, hlen, fun i hi => ?_⟩
  rw [hcell, List.getElem?_replicate_of_lt hi]
  rfl

/-! ## Folds in which most steps do nothing -/

theorem foldl_ite {p : Prop} [Decidable p] (g : α → β → α) (l : List β) (z : α) :
    l.foldl (fun z x => if p then g z x else z) z = if p then l.foldl g z else z := by
  by_cases hp : p
  · simp only [if_pos hp]
  · simp only [if_neg hp, List.foldl_fixed]

theorem foldl_ite_eq [DecidableEq β] {l : List β} (hl : l.Nodup) (x : β) (g : α → β → α) (z : α) :
    l.foldl (fun z y => if y = x then g z y else z) z = if x ∈ l then g z x else z := by
  induction l generalizing z with
  | nil => rfl
  | cons y l ih =>
    obtain ⟨hy, hl⟩ := List.nodup_cons.mp hl
    rw [List.foldl_cons, ih hl]
    by_cases hyx : y = x
    · subst hyx
      rw [if_pos rfl, if_neg hy, if_pos List.mem_cons_self]
    · rw [if_neg hyx]
      simp [Ne.symm hyx]

/-! ## Tiles -/

/-- `(0..n).step_by(s)`. -/
def stepBy (s n : ℕ) : List ℕ := (List.range ((n + s - 1) / s)).map (· * s)

/-- The numbers from `a` to `b`, without `b`. -/
def fromTo (a b : ℕ) : List ℕ := List.range' a (b - a)

theorem mem_fromTo {a b i : ℕ} : i ∈ fromTo a b ↔ a ≤ i ∧ i < b := by
  rw [fromTo, List.mem_range'_1]
  omega

variable {s : ℕ}

theorem nodup_stepBy (hs : 0 < s) (n : ℕ) : (stepBy s n).Nodup :=
  List.nodup_range.map fun _ _ h => Nat.eq_of_mul_eq_mul_right hs h

theorem mem_stepBy (hs : 0 < s) {n i : ℕ} : i ∈ stepBy s n ↔ i < n ∧ s ∣ i := by
  rw [stepBy, List.mem_map]
  have hlt : ∀ q, q < (n + s - 1) / s ↔ q * s < n := fun q => by
    rw [← Nat.succ_le_iff, Nat.le_div_iff_mul_le hs, Nat.succ_mul]
    omega
  constructor
  · rintro ⟨q, hq, rfl⟩
    exact ⟨(hlt q).mp (List.mem_range.mp hq), Nat.dvd_mul_left s q⟩
  · rintro ⟨hi, q, rfl⟩
    rw [Nat.mul_comm] at hi
    exact ⟨q, List.mem_range.mpr ((hlt q).mpr hi), Nat.mul_comm q s⟩

theorem mem_tile_iff (hs : 0 < s) {n i t : ℕ} (hi : i ∈ stepBy s n) (ht : t < n) :
    t ∈ fromTo i (min (i + s) n) ↔ i = t / s * s := by
  obtain ⟨-, q, rfl⟩ := (mem_stepBy hs).mp hi
  rw [mem_fromTo, Nat.mul_comm s q]
  have hdiv : t / s = q ↔ q * s ≤ t ∧ t < q * s + s := by
    rw [Nat.div_eq_iff hs]
    omega
  constructor
  · rintro ⟨hle, hlt⟩
    rw [hdiv.mpr ⟨hle, by omega⟩]
  · intro h
    have hq := hdiv.mp (Nat.eq_of_mul_eq_mul_right hs h).symm
    omega

theorem div_mul_mem_stepBy (hs : 0 < s) {n t : ℕ} (ht : t < n) : t / s * s ∈ stepBy s n :=
  (mem_stepBy hs).mpr ⟨(Nat.div_mul_le_self t s).trans_lt ht, Nat.dvd_mul_left s _⟩

theorem flatMap_tiles (hs : 0 < s) (n : ℕ) :
    (stepBy s n).flatMap (fun i => fromTo i (min (i + s) n)) = List.range n := by
  have hfirst : ∀ q, (List.range q).flatMap (fun q => fromTo (q * s) (min (q * s + s) n)) =
      List.range (min (q * s) n) := by
    intro q
    induction q with
    | zero => simp
    | succ q ih =>
      rw [List.range_succ, List.flatMap_append, ih, List.flatMap_singleton, fromTo, Nat.succ_mul]
      by_cases hq : q * s ≤ n
      · have hlen : min (q * s + s) n = q * s + (min (q * s + s) n - q * s) := by omega
        rw [Nat.min_eq_left hq, List.range_eq_range', hlen, Nat.add_sub_cancel_left,
          List.range_eq_range', ← List.range'_append_1, Nat.zero_add]
      · have hnone : min (q * s + s) n - q * s = 0 := by omega
        rw [hnone, List.range'_zero, List.append_nil, Nat.min_eq_right (by omega),
          Nat.min_eq_right (by omega)]
  have hall : n ≤ (n + s - 1) / s * s := by
    have hlt := Nat.lt_div_mul_add hs (a := n + s - 1)
    omega
  rw [stepBy, List.flatMap_map, hfirst, Nat.min_eq_right hall]

theorem foldl_tiles (hs : 0 < s) (n : ℕ) (g : α → ℕ → α) (z : α) :
    (stepBy s n).foldl (fun z i => (fromTo i (min (i + s) n)).foldl g z) z =
      (List.range n).foldl g z := by
  rw [← flatMap_tiles hs n, List.foldl_flatMap]

theorem foldl_ite_tile (hs : 0 < s) {n t : ℕ} (ht : t < n) (g : α → α) (z : α) :
    (stepBy s n).foldl (fun z i => if t ∈ fromTo i (min (i + s) n) then g z else z) z = g z := by
  have hone : (stepBy s n).foldl (fun z i => if t ∈ fromTo i (min (i + s) n) then g z else z) z =
      (stepBy s n).foldl (fun z i => if i = t / s * s then g z else z) z :=
    List.foldl_ext _ _ _ fun z i hi => if_congr (mem_tile_iff hs hi ht) rfl rfl
  rw [hone, foldl_ite_eq (nodup_stepBy hs n), if_pos (div_mul_mem_stepBy hs ht)]

end Lib.Loops
