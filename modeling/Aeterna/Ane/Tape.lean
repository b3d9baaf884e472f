import Aeterna.Ane.Gemm

/-!
# Tensors and the tape

`lib/ane/tensor.rs`: tensors of numbers of four bytes, and the tape that records operations on them
together with functions for their gradients. A variable is addressed by its position on the tape.

The tape takes the operations on tensors from a `Prims`; `prims` are those of the source, over
elements with a sum and a product. Where the source asserts, indexes or allocates, an operation
that would stop the kernel has no result.
-/

namespace Aeterna.Ane

open Lib.Loops

/-- A tensor. Its elements together have fewer bytes than an allocation may have. -/
structure Tensor (α : Type) where
  shape : List ℕ
  data : List α
  length_data : data.length = shape.prod
  fits : 4 * data.length < 2 ^ 63

variable {α : Type}

namespace Tensor

/-- A new tensor, where the layout of the allocation is valid. -/
def ofData (shape : List ℕ) (data : List α) : Option (Tensor α) :=
  if h : data.length = shape.prod ∧ 4 * data.length < 2 ^ 63 then some ⟨shape, data, h.1, h.2⟩
  else none

theorem ofData_eq {shape : List ℕ} {data : List α} (h : data.length = shape.prod)
    (hfits : 4 * data.length < 2 ^ 63) :
    ∃ z, ofData shape data = some z ∧ z.shape = shape ∧ z.data = data :=
  ⟨_, dif_pos ⟨h, hfits⟩, rfl, rfl⟩

theorem length_eq {a b : Tensor α} (h : a.shape = b.shape) : a.data.length = b.data.length := by
  rw [a.length_data, b.length_data, h]

def cols (a : Tensor α) : ℕ := a.shape.getLastD 1

theorem length_map_data {β : Type} (a : Tensor α) (f : α → β) :
    (a.data.map f).length = a.shape.prod := by
  rw [List.length_map, a.length_data]

theorem fits_map_data {β : Type} (a : Tensor α) (f : α → β) :
    4 * (a.data.map f).length < 2 ^ 63 := by
  rw [List.length_map]
  exact a.fits

def mapCells {β : Type} (f : α → β) (a : Tensor α) : Tensor β :=
  ⟨a.shape, a.data.map f, a.length_map_data f, a.fits_map_data f⟩

/-- A loop over the elements of two tensors with as many elements. -/
def zipCells (f : α → α → α) (a b : Tensor α) : Option (Tensor α) :=
  if a.data.length = b.data.length then ofData a.shape (List.zipWith f a.data b.data) else none

variable [Zero α]

def zeros (shape : List ℕ) : Option (Tensor α) := ofData shape (List.replicate shape.prod 0)

def cell (a : Tensor α) (i : ℕ) : α := a.data.getD i 0

/-- The elements of the second tensor where those of the first are positive. -/
def maskBy (pos : α → Bool) (src grad : Tensor α) : Option (Tensor α) :=
  if src.data.length ≤ grad.data.length then
    ofData src.shape (List.zipWith (fun x y => if pos x then y else 0) src.data grad.data)
  else none

def relu (pos : α → Bool) (a : Tensor α) : Tensor α := a.mapCells fun x => if pos x then x else 0

def t (a : Tensor α) : Option (Tensor α) :=
  match a.shape with
  | [r, c] => do
    let out ← zeros [c, r]
    let dst ← (List.range r).foldlM (fun dst i => (List.range c).foldlM (fun dst j => do
      let x ← a.data[i * c + j]?
      dst[j * r + i]?.bind fun _ => some (dst.set (j * r + i) x)) dst) out.data
    ofData [c, r] dst
  | _ => none

/-! ### Cells -/

theorem getD_zipWith {f : α → α → α} {xs ys : List α} {i : ℕ} (hx : i < xs.length)
    (hy : i < ys.length) : (List.zipWith f xs ys).getD i 0 = f (xs.getD i 0) (ys.getD i 0) := by
  simp [List.getD_eq_getElem?_getD, hx, hy]

theorem zipCells_eq (f : α → α → α) {a b : Tensor α} (h : a.data.length = b.data.length) :
    ∃ z, zipCells f a b = some z ∧ z.shape = a.shape ∧
      ∀ i < a.data.length, z.cell i = f (a.cell i) (b.cell i) := by
  have hlen : (List.zipWith f a.data b.data).length = a.data.length := by
    rw [List.length_zipWith, h, min_self]
  obtain ⟨z, hz, hshape, hdata⟩ := ofData_eq (hlen.trans a.length_data) (hlen ▸ a.fits)
  refine ⟨z, (if_pos h).trans hz, hshape, fun i hi => ?_⟩
  rw [cell, hdata]
  exact getD_zipWith hi (h ▸ hi)

theorem maskBy_eq (pos : α → Bool) {src g : Tensor α} (h : src.data.length = g.data.length) :
    ∃ z, maskBy pos src g = some z ∧ z.shape = src.shape ∧
      ∀ i < src.data.length, z.cell i = if pos (src.cell i) then g.cell i else 0 := by
  obtain ⟨z, hz, hshape, hcell⟩ := zipCells_eq (fun x y => if pos x then y else 0) h
  rw [zipCells, if_pos h] at hz
  exact ⟨z, (if_pos h.le).trans hz, hshape, hcell⟩

theorem zeros_bind_eq {m n : ℕ} (h : 4 * (m * n) < 2 ^ 63) {fill : List α → Option (List α)}
    {e : ℕ → α → α} (hfill : Acts (m * n) fill e) :
    ∃ z : Tensor α, (zeros [m, n]).bind (fun z => (fill z.data).bind (ofData [m, n])) = some z ∧
      z.shape = [m, n] ∧ ∀ i < m, ∀ j < n, z.cell (i * n + j) = e (i * n + j) 0 := by
  have hprod : [m, n].prod = m * n := by simp
  have hzero : (List.replicate [m, n].prod (0 : α)).length = m * n := by
    rw [List.length_replicate, hprod]
  obtain ⟨out, hout, hlen, hcell⟩ := hfill.replicate 0
  obtain ⟨z, hz, -, hdata⟩ := ofData_eq (hzero.trans hprod.symm) (hzero ▸ h)
  obtain ⟨w, hw, hshape, hdata'⟩ := ofData_eq (hlen.trans hprod.symm) (hlen ▸ h)
  refine ⟨w, ?_, hshape, fun i hi j hj => ?_⟩
  · rw [zeros, hz, Option.bind_some, hdata, hprod, hout, Option.bind_some, hw]
  · rw [cell, hdata', List.getD_eq_getElem?_getD, hcell _ (index_lt hi hj), Option.getD_some]

theorem acts_t {a : Tensor α} {r n : ℕ} (hla : a.data.length = r * n) :
    Acts (n * r) (fun dst => (List.range r).foldlM (fun dst i =>
      (List.range n).foldlM (fun dst j => do
        let x ← a.data[i * n + j]?
        dst[j * r + i]?.bind fun _ => some (dst.set (j * r + i) x)) dst) dst)
      fun q _ => a.cell (q % r * n + q / r) := by
  have hrow : ∀ i ∈ List.range r, Acts (n * r) (fun dst => (List.range n).foldlM (fun dst j => do
      let x ← a.data[i * n + j]?
      dst[j * r + i]?.bind fun _ => some (dst.set (j * r + i) x)) dst)
      fun q z => if i = q % r then a.cell (i * n + q / r) else z := fun i hi => by
    have hi := List.mem_range.mp hi
    have hstep : ∀ j ∈ List.range n, Acts (n * r) (fun dst => do
        let x ← a.data[i * n + j]?
        dst[j * r + i]?.bind fun _ => some (dst.set (j * r + i) x))
        fun q z => if q = j * r + i then a.cell (i * n + j) else z := fun j hj => by
      have hj := List.mem_range.mp hj
      rw [getElem?_eq_getD (hla ▸ index_lt hi hj)]
      exact acts_set (index_lt hj hi) fun _ => a.cell (i * n + j)
    refine (Acts.foldlM hstep).congr fun q hq z => ?_
    have hone : (List.range n).foldl (fun z j => if q = j * r + i then a.cell (i * n + j) else z) z =
        (List.range n).foldl (fun z j => if i = q % r then
          if j = q / r then a.cell (i * n + j) else z else z) z :=
      List.foldl_ext _ _ _ fun z j _ => by
        rw [← ite_and]
        exact if_congr ((index_eq_iff hi).trans (and_comm.trans (and_congr_right' eq_comm))) rfl rfl
    have hdiv : q / r < n := (Nat.div_lt_iff_lt_mul (Nat.zero_lt_of_lt hi)).mpr hq
    rw [hone, foldl_ite, foldl_ite_eq List.nodup_range, if_pos (List.mem_range.mpr hdiv)]
  refine (Acts.foldlM hrow).congr fun q hq z => ?_
  have hmod : q % r < r := Nat.mod_lt q (Nat.pos_of_mul_pos_left (Nat.zero_lt_of_lt hq))
  rw [foldl_ite_eq List.nodup_range, if_pos (List.mem_range.mpr hmod)]

theorem t_eq {a : Tensor α} {r n : ℕ} (ha : a.shape = [r, n]) :
    ∃ z, t a = some z ∧ z.shape = [n, r] ∧ ∀ j < n, ∀ i < r,
      z.cell (j * r + i) = a.cell (i * n + j) := by
  have hla : a.data.length = r * n := by rw [a.length_data, ha]; simp
  have hfits : 4 * (n * r) < 2 ^ 63 := by
    rw [Nat.mul_comm n, ← hla]
    exact a.fits
  obtain ⟨z, hz, hshape, hcell⟩ := zeros_bind_eq hfits (acts_t hla)
  refine ⟨z, ?_, hshape, fun j hj i hi => ?_⟩
  · unfold t
    rw [ha]
    exact hz
  · obtain ⟨hdiv, hmod⟩ := (index_eq_iff hi (i := j)).mp rfl
    rw [hcell j hj i hi, hdiv, ← hmod]

variable [Add α] [Mul α]

def add (a b : Tensor α) : Option (Tensor α) := zipCells (· + ·) a b

def mul (a b : Tensor α) : Option (Tensor α) := zipCells (· * ·) a b

def matmul (a b : Tensor α) : Option (Tensor α) :=
  match a.shape, b.shape with
  | [m, k], [k', n] =>
    if k = k' then do
      let out ← zeros [m, n]
      let out ← gemmScalar a.data b.data out.data m k n
      ofData [m, n] out
    else none
  | _, _ => none

theorem matmul_eq {a b : Tensor α} {m k n : ℕ} (ha : a.shape = [m, k]) (hb : b.shape = [k, n])
    (hfits : 4 * (m * n) < 2 ^ 63) :
    ∃ z, matmul a b = some z ∧ z.shape = [m, n] ∧ ∀ i < m, ∀ j < n,
      z.cell (i * n + j) = terms a.data b.data k n i j (List.range k) 0 := by
  have hla : a.data.length = m * k := by rw [a.length_data, ha]; simp
  have hlb : b.data.length = k * n := by rw [b.length_data, hb]; simp
  obtain ⟨z, hz, hshape, hcell⟩ :=
    zeros_bind_eq hfits (acts_gemmScalar ⟨a.data, a.fits⟩ ⟨b.data, b.fits⟩ hla hlb)
  refine ⟨z, ?_, hshape, fun i hi j hj => ?_⟩
  · unfold matmul
    rw [ha, hb]
    dsimp only
    rw [if_pos rfl]
    exact hz
  · obtain ⟨hrow, hcol⟩ := (index_eq_iff hj (i := i)).mp rfl
    rw [hcell i hi j hj, hrow, ← hcol]

theorem matmul_eq_some {a b z : Tensor α} (h : matmul a b = some z) :
    ∃ m k n, a.shape = [m, k] ∧ b.shape = [k, n] ∧ 4 * (m * n) < 2 ^ 63 := by
  unfold matmul at h
  split at h
  case h_2 => cases h
  case h_1 m k k' n ha hb =>
    split_ifs at h with hk
    subst hk
    obtain ⟨out, hout, -⟩ := Option.bind_eq_some_iff.mp h
    unfold zeros ofData at hout
    split_ifs at hout with hfits
    have hlen : (List.replicate [m, n].prod (0 : α)).length = m * n := by simp
    exact ⟨m, k, n, ha, hb, hlen ▸ hfits.2⟩

end Tensor

/-! ## The tape -/

/-- The operations on tensors that a tape uses. `pos` is the comparison with zero. -/
structure Prims (α : Type) where
  add : Tensor α → Tensor α → Option (Tensor α)
  mul : Tensor α → Tensor α → Option (Tensor α)
  matmul : Tensor α → Tensor α → Option (Tensor α)
  relu : Tensor α → Tensor α
  t : Tensor α → Option (Tensor α)
  pos : α → Bool

/-- The operations of the source. -/
def prims [Zero α] [Add α] [Mul α] (pos : α → Bool) : Prims α :=
  ⟨Tensor.add, Tensor.mul, Tensor.matmul, Tensor.relu pos, Tensor.t, pos⟩

structure Variable (α : Type) where
  data : Tensor α
  grad : Option (Tensor α)
  requiresGrad : Bool

/-- An operation on the tape; `gradFn` takes the gradient of the output to those of the inputs. -/
structure TapeNode (α : Type) where
  gradFn : Tensor α → Option (List (Tensor α))
  outputId : ℕ
  inputIds : List ℕ

structure Tape (α : Type) where
  vars : List (Variable α)
  nodes : List (TapeNode α)

def shapes (vars : List (Variable α)) : List (List ℕ) := vars.map (·.data.shape)

theorem getElem?_shapes {vars : List (Variable α)} {a : ℕ} {v : Variable α} (h : vars[a]? = some v) :
    (shapes vars)[a]? = some v.data.shape := by
  rw [shapes, List.getElem?_map, h]
  rfl

namespace Tape

def new : Tape α := ⟨[], []⟩

def var (tape : Tape α) (data : Tensor α) (requiresGrad : Bool) : Tape α :=
  { tape with vars := tape.vars ++ [⟨data, none, requiresGrad⟩] }

def push (tape : Tape α) (result : Tensor α) (requiresGrad : Bool)
    (gradFn : Tensor α → Option (List (Tensor α))) (inputs : List ℕ) : Tape α where
  vars := tape.vars ++ [⟨result, none, requiresGrad⟩]
  nodes := tape.nodes ++ [⟨gradFn, tape.vars.length, inputs⟩]

/-- An operation with two operands; `gradFn` has them as they are now. -/
def binary (f : Tensor α → Tensor α → Option (Tensor α))
    (gradFn : Variable α → Variable α → Tensor α → Option (List (Tensor α))) (tape : Tape α)
    (a b : ℕ) : Option (Tape α) := do
  let va ← tape.vars[a]?
  let vb ← tape.vars[b]?
  let result ← f va.data vb.data
  return tape.push result (va.requiresGrad || vb.requiresGrad) (gradFn va vb) [a, b]

theorem binary_eq_some {f : Tensor α → Tensor α → Option (Tensor α)}
    {gradFn : Variable α → Variable α → Tensor α → Option (List (Tensor α))} {tape tape' : Tape α}
    {a b : ℕ} (h : tape.binary f gradFn a b = some tape') :
    ∃ va vb z, tape.vars[a]? = some va ∧ tape.vars[b]? = some vb ∧ f va.data vb.data = some z ∧
      tape' = tape.push z (va.requiresGrad || vb.requiresGrad) (gradFn va vb) [a, b] := by
  unfold binary at h
  obtain ⟨va, ha, h⟩ := Option.bind_eq_some_iff.mp h
  obtain ⟨vb, hb, h⟩ := Option.bind_eq_some_iff.mp h
  obtain ⟨z, hz, h⟩ := Option.bind_eq_some_iff.mp h
  exact ⟨va, vb, z, ha, hb, hz, (Option.some.inj h).symm⟩

variable [Zero α] (P : Prims α)

def add : Tape α → ℕ → ℕ → Option (Tape α) :=
  binary P.add fun va vb g => do
    let ga ← if va.requiresGrad then some g else Tensor.zeros va.data.shape
    let gb ← if vb.requiresGrad then some g else Tensor.zeros vb.data.shape
    return [ga, gb]

def mul : Tape α → ℕ → ℕ → Option (Tape α) :=
  binary P.mul fun va vb g => do
    let ga ← if va.requiresGrad then P.mul g vb.data else Tensor.zeros vb.data.shape
    let gb ← if vb.requiresGrad then P.mul g va.data else Tensor.zeros va.data.shape
    return [ga, gb]

def matmul : Tape α → ℕ → ℕ → Option (Tape α) :=
  binary P.matmul fun va vb g => do
    let ga ← if va.requiresGrad then (P.t vb.data).bind (P.matmul g ·) else Tensor.zeros va.data.shape
    let gb ← if vb.requiresGrad then (P.t va.data).bind (P.matmul · g) else Tensor.zeros vb.data.shape
    return [ga, gb]

def relu (tape : Tape α) (a : ℕ) : Option (Tape α) := do
  let va ← tape.vars[a]?
  return tape.push (P.relu va.data) va.requiresGrad
    (fun g => do return [← Tensor.maskBy P.pos va.data g]) [a]

end Tape

/-- A call on a tape; `β` are the leaves. -/
inductive Op (β : Type) where
  | var (data : β) (requiresGrad : Bool)
  | add (a b : ℕ)
  | mul (a b : ℕ)
  | matmul (a b : ℕ)
  | relu (a : ℕ)

def Tape.exec [Zero α] (P : Prims α) (tape : Tape α) : Op (Tensor α) → Option (Tape α)
  | .var data requiresGrad => some (tape.var data requiresGrad)
  | .add a b => tape.add P a b
  | .mul a b => tape.mul P a b
  | .matmul a b => tape.matmul P a b
  | .relu a => tape.relu P a

/-- Every call puts one variable on the tape, and all but `var` a node for it. -/
theorem Tape.exec_eq_some [Zero α] {P : Prims α} {tape tape' : Tape α} {op : Op (Tensor α)}
    (h : tape.exec P op = some tape') :
    (∃ data requiresGrad, op = .var data requiresGrad ∧ tape' = tape.var data requiresGrad) ∨
      ∃ result requiresGrad gradFn inputs, tape' = tape.push result requiresGrad gradFn inputs := by
  cases op with
  | var data requiresGrad => exact Or.inl ⟨data, requiresGrad, rfl, (Option.some.inj h).symm⟩
  | add a b | mul a b | matmul a b =>
    obtain ⟨va, vb, z, -, -, -, rfl⟩ := binary_eq_some h
    exact Or.inr ⟨_, _, _, _, rfl⟩
  | relu a =>
    obtain ⟨va, -, h⟩ := Option.bind_eq_some_iff.mp h
    exact Or.inr ⟨_, _, _, _, (Option.some.inj h).symm⟩

end Aeterna.Ane
