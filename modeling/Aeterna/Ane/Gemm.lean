import Aeterna.Lib.Loops

/-!
# The matrix product

`gemm_scalar` of `lib/ane/tensor.rs` multiplies matrices in tiles of 16 by 16 by 16. The elements are
of any type with a sum and a product, of which no law is used: each cell of the result has its
terms added from the left in the order of the inner index, as three plain loops add them
(`gemmScalar_eq`).

An index out of range, and the end of a tile that is not a `usize`, stop the kernel; `none` is that
outcome.
-/

namespace Aeterna.Ane

open Lib.Loops

/-- A slice of numbers of four bytes, which together are fewer than `isize` counts. -/
structure Slice (α : Type) where
  data : List α
  fits : 4 * data.length < 2 ^ 63

section Gemm

variable {α : Type} [Zero α] [Add α] [Mul α]

def tile : ℕ := 16

def tileEnd (start bound : ℕ) : Option ℕ :=
  if start + tile < 2 ^ 64 then some (min (start + tile) bound) else none

/-- The innermost loop, over the columns of a tile. -/
def addRow (b : List α) (n i p : ℕ) (aip : α) (cols : List ℕ) (out : List α) : Option (List α) :=
  cols.foldlM (fun out j => do
    let bpj ← b[p * n + j]?
    let cij ← out[i * n + j]?
    some (out.set (i * n + j) (cij + aip * bpj))) out

/-- `out` is the matrix that the products are added to. -/
def gemmScalar (a b out : List α) (m k n : ℕ) : Option (List α) :=
  (stepBy tile m).foldlM (fun out i0 =>
    (stepBy tile n).foldlM (fun out j0 =>
      (stepBy tile k).foldlM (fun out p0 => do
        let iEnd ← tileEnd i0 m
        let jEnd ← tileEnd j0 n
        let pEnd ← tileEnd p0 k
        (fromTo i0 iEnd).foldlM (fun out i =>
          (fromTo p0 pEnd).foldlM (fun out p => do
            let aip ← a[i * k + p]?
            addRow b n i p aip (fromTo j0 jEnd) out) out) out) out) out) out

/-! ## Indices -/

theorem index_lt {m n i j : ℕ} (hi : i < m) (hj : j < n) : i * n + j < m * n := by
  have hle : (i + 1) * n ≤ m * n := Nat.mul_le_mul_right n hi
  rw [Nat.succ_mul] at hle
  omega

theorem index_eq_iff {n i j q : ℕ} (hj : j < n) : q = i * n + j ↔ q / n = i ∧ j = q % n := by
  have hn : 0 < n := Nat.zero_lt_of_lt hj
  constructor
  · rintro rfl
    rw [Nat.mul_comm, Nat.mul_add_div hn, Nat.div_eq_of_lt hj, Nat.mul_add_mod, Nat.mod_eq_of_lt hj]
    exact ⟨rfl, rfl⟩
  · rintro ⟨rfl, rfl⟩
    rw [Nat.mul_comm]
    exact (Nat.div_add_mod q n).symm

omit [Add α] [Mul α] in
theorem getElem?_eq_getD {xs : List α} {i : ℕ} (h : i < xs.length) : xs[i]? = some (xs.getD i 0) := by
  rw [List.getD_eq_getElem?_getD, List.getElem?_eq_getElem h]
  rfl

/-! ## The loops, from the innermost one -/

section Loops

variable {a b : List α} {m k n : ℕ}

variable (a b k n) in
/-- The terms of a cell for some values of the inner index, added to what it holds. -/
def terms (i j : ℕ) (ps : List ℕ) (z : α) : α :=
  ps.foldl (fun z p => z + a.getD (i * k + p) 0 * b.getD (p * n + j) 0) z

theorem acts_addRow (hb : b.length = k * n) {i p : ℕ} (hi : i < m) (hp : p < k) (aip : α)
    {cols : List ℕ} (hcols : cols.Nodup) (hlt : ∀ j ∈ cols, j < n) :
    Acts (m * n) (addRow b n i p aip cols) fun q z =>
      if q / n = i ∧ q % n ∈ cols then z + aip * b.getD (p * n + q % n) 0 else z := by
  have hstep : ∀ j ∈ cols, Acts (m * n) (fun out => do
      let bpj ← b[p * n + j]?
      let cij ← out[i * n + j]?
      some (out.set (i * n + j) (cij + aip * bpj)))
      fun q z => if q = i * n + j then z + aip * b.getD (p * n + j) 0 else z := fun j hj => by
    rw [getElem?_eq_getD (hb ▸ index_lt hp (hlt j hj))]
    exact acts_set (index_lt hi (hlt j hj)) _
  refine (Acts.foldlM hstep).congr fun q _ z => ?_
  have hrow : cols.foldl (fun z j => if q = i * n + j then z + aip * b.getD (p * n + j) 0 else z) z =
      cols.foldl (fun z j => if q / n = i then
        if j = q % n then z + aip * b.getD (p * n + j) 0 else z else z) z :=
    List.foldl_ext _ _ _ fun z j hj => by
      rw [← ite_and]
      exact if_congr (index_eq_iff (hlt j hj)) rfl rfl
  rw [hrow, foldl_ite, foldl_ite_eq hcols, ite_and]

theorem nodup_fromTo (x y : ℕ) : (fromTo x y).Nodup := List.nodup_range'

/-- One tile: the cells in its rows and columns get the terms of its inner indices. -/
theorem acts_tile (ha : a.length = m * k) (hb : b.length = k * n) {rows ps cols : List ℕ}
    (hrows : rows.Nodup) (hcols : cols.Nodup) (hi : ∀ i ∈ rows, i < m) (hp : ∀ p ∈ ps, p < k)
    (hj : ∀ j ∈ cols, j < n) :
    Acts (m * n) (fun out => rows.foldlM (fun out i => ps.foldlM (fun out p => do
      let aip ← a[i * k + p]?
      addRow b n i p aip cols out) out) out)
      fun q z => if q / n ∈ rows ∧ q % n ∈ cols then terms a b k n (q / n) (q % n) ps z else z := by
  have hrow : ∀ i ∈ rows, Acts (m * n) (fun out => ps.foldlM (fun out p => do
      let aip ← a[i * k + p]?
      addRow b n i p aip cols out) out)
      fun q z => if i = q / n then
        if q % n ∈ cols then terms a b k n i (q % n) ps z else z else z := fun i hmem => by
    have hstep : ∀ p ∈ ps, Acts (m * n) (fun out => do
        let aip ← a[i * k + p]?
        addRow b n i p aip cols out)
        fun q z => if q / n = i ∧ q % n ∈ cols then
          z + a.getD (i * k + p) 0 * b.getD (p * n + q % n) 0 else z := fun p hmem' => by
      rw [getElem?_eq_getD (ha ▸ index_lt (hi i hmem) (hp p hmem'))]
      exact acts_addRow hb (hi i hmem) (hp p hmem') _ hcols hj
    refine (Acts.foldlM hstep).congr fun q _ z => ?_
    rw [foldl_ite, ite_and]
    exact if_congr eq_comm rfl rfl
  refine (Acts.foldlM hrow).congr fun q _ z => ?_
  rw [foldl_ite_eq hrows, ite_and]

theorem tileEnd_eq {start bound : ℕ} (h : start < bound) (hbound : bound < 2 ^ 62) :
    tileEnd start bound = some (min (start + tile) bound) := by
  unfold tileEnd tile
  rw [if_pos (by omega)]

theorem tile_pos : 0 < tile := by decide

theorem acts_gemmScalar (a b : Slice α) (ha : a.data.length = m * k) (hb : b.data.length = k * n) :
    Acts (m * n) (gemmScalar a.data b.data · m k n) fun q z =>
      terms a.data b.data k n (q / n) (q % n) (List.range k) z := by
  have hlt : ∀ {i start bound}, i ∈ fromTo start (min (start + tile) bound) → i < bound :=
    fun h => lt_of_lt_of_le (mem_fromTo.mp h).2 (min_le_right _ _)
  have hinner : ∀ i0 ∈ stepBy tile m, ∀ j0 ∈ stepBy tile n, ∀ p0 ∈ stepBy tile k,
      Acts (m * n) (fun out => do
        let iEnd ← tileEnd i0 m
        let jEnd ← tileEnd j0 n
        let pEnd ← tileEnd p0 k
        (fromTo i0 iEnd).foldlM (fun out i => (fromTo p0 pEnd).foldlM (fun out p => do
          let aip ← a.data[i * k + p]?
          addRow b.data n i p aip (fromTo j0 jEnd) out) out) out)
        fun q z => if q / n ∈ fromTo i0 (min (i0 + tile) m) ∧
            q % n ∈ fromTo j0 (min (j0 + tile) n) then
          terms a.data b.data k n (q / n) (q % n) (fromTo p0 (min (p0 + tile) k)) z else z := by
    intro i0 hi0 j0 hj0 p0 hp0
    have hi := ((mem_stepBy tile_pos).mp hi0).1
    have hj := ((mem_stepBy tile_pos).mp hj0).1
    have hp := ((mem_stepBy tile_pos).mp hp0).1
    -- all three dimensions are lengths of slices
    have hafits := a.fits
    have hbfits := b.fits
    have hm : m ≤ m * k := Nat.le_mul_of_pos_right m (by omega)
    have hk : k ≤ m * k := Nat.le_mul_of_pos_left k (by omega)
    have hn : n ≤ k * n := Nat.le_mul_of_pos_left n (by omega)
    rw [tileEnd_eq hi (by omega), tileEnd_eq hj (by omega), tileEnd_eq hp (by omega)]
    exact acts_tile ha hb (nodup_fromTo _ _) (nodup_fromTo _ _) (fun _ => hlt) (fun _ => hlt)
      fun _ => hlt
  refine (Acts.foldlM fun i0 hi0 => Acts.foldlM fun j0 hj0 =>
    Acts.foldlM fun p0 hp0 => hinner i0 hi0 j0 hj0 p0 hp0).congr fun q hq z => ?_
  have hn : 0 < n := Nat.pos_of_mul_pos_left (Nat.zero_lt_of_lt hq)
  have hrow : q / n < m := (Nat.div_lt_iff_lt_mul hn).mpr hq
  have hcol : q % n < n := Nat.mod_lt q hn
  have hinner_index : ∀ z, (stepBy tile k).foldl (fun z p0 => terms a.data b.data k n (q / n) (q % n)
      (fromTo p0 (min (p0 + tile) k)) z) z = terms a.data b.data k n (q / n) (q % n) (List.range k) z :=
    foldl_tiles tile_pos k _
  simp only [ite_and, foldl_ite, hinner_index]
  simp only [foldl_ite_tile tile_pos hcol, foldl_ite_tile tile_pos hrow]

/-- The product is computed in bounds, and each cell is the sum of its terms in their order, from
the left. -/
theorem gemmScalar_eq (a b : Slice α) {m k n : ℕ} (ha : a.data.length = m * k)
    (hb : b.data.length = k * n) :
    ∃ out, gemmScalar a.data b.data (List.replicate (m * n) 0) m k n = some out ∧
      out.length = m * n ∧ ∀ i < m, ∀ j < n, out[i * n + j]? = some ((List.range k).foldl
        (fun z p => z + a.data.getD (i * k + p) 0 * b.data.getD (p * n + j) 0) 0) := by
  obtain ⟨out, hout, hlen, hcell⟩ := (acts_gemmScalar a b ha hb).replicate 0
  refine ⟨out, hout, hlen, fun i hi j hj => ?_⟩
  obtain ⟨hrow, hcol⟩ := (index_eq_iff hj (i := i)).mp rfl
  rw [hcell _ (index_lt hi hj), hrow, ← hcol]
  rfl

end Loops

theorem gemmScalar_eq_dot :
    ∃ out, gemmScalar [2, 3] [5, 7] (List.replicate (1 * 1) 0) 1 2 1 = some out ∧
      out.length = 1 * 1 ∧ ∀ i < 1, ∀ j < 1, out[i * 1 + j]? = some ((List.range 2).foldl
        (fun z p => z + [2, 3].getD (i * 2 + p) 0 * [5, 7].getD (p * 1 + j) 0) 0) :=
  gemmScalar_eq ⟨[2, 3], by decide⟩ ⟨[5, 7], by decide⟩ rfl rfl

end Gemm

end Aeterna.Ane
