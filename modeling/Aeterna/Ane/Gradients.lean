import Aeterna.Ane.Tape

/-!
# Gradients

`Tape::backward` of `lib/ane/tensor.rs`, over elements of a commutative ring. A perturbation of the
leaves goes through the linearised operations to every variable (`Built`); the gradients that a
backward pass leaves at the leaves give the same sum over the perturbation as the seed over what
arrives at the output (`backward_adjoint`).

The pass is a balance: the sum of all gradients over the perturbations of their variables is the
same before and after a node, if the output of the node does not count any more (`run_nodes`). For
one node this is the identity of its operation (`Adjoint`).
-/

namespace Aeterna.Ane

open Lib.Loops Finset

section Backward

variable {α : Type} [Add α]

def Variable.accumulateGrad (v : Variable α) (g : Tensor α) : Option (Variable α) :=
  match v.grad with
  | some e =>
    if g.data.length < e.data.length then none
    else (Tensor.ofData e.shape (List.zipWith (· + ·) e.data g.data)).map fun e =>
      { v with grad := some e }
  | none => some { v with grad := some g }

def accumulate (vars : List (Variable α)) (id : ℕ) (g : Tensor α) :
    Option (List (Variable α)) := do
  let v ← vars[id]?
  let v ← v.accumulateGrad g
  return vars.set id v

/-- The body of the loop over the inputs of a node. -/
def accumulateInput (vars : List (Variable α)) (input : ℕ × Tensor α) :
    Option (List (Variable α)) := do
  let v ← vars[input.1]?
  if v.requiresGrad then accumulate vars input.1 input.2 else some vars

/-- The body of the loop over the nodes: nodes whose output has no gradient are passed over. -/
def backwardNode (vars : List (Variable α)) (node : TapeNode α) :
    Option (List (Variable α)) := do
  let v ← vars[node.outputId]?
  match v.grad with
  | none => some vars
  | some upstream =>
    let grads ← node.gradFn upstream
    (node.inputIds.zip grads).foldlM accumulateInput vars

def Tape.backward (tape : Tape α) (outputId : ℕ) (initialGrad : Tensor α) : Option (Tape α) := do
  let vars ← accumulate tape.vars outputId initialGrad
  let vars ← tape.nodes.reverse.foldlM backwardNode vars
  return { tape with vars := vars }

end Backward

variable {R : Type} [CommRing R]

/-! ## Sums over the cells of tensors -/

namespace Tensor

theorem terms_eq_sum (a b : Tensor R) (k n i j : ℕ) :
    terms a.data b.data k n i j (List.range k) 0 =
      ∑ p ∈ range k, a.cell (i * k + p) * b.cell (p * n + j) := by
  have hsum : ∀ (f : ℕ → R) (l : ℕ), (List.range l).foldl (fun z p => z + f p) 0 =
      ∑ p ∈ range l, f p := by
    intro f l
    induction l with
    | zero => rfl
    | succ l ih => rw [List.range_succ, List.foldl_concat, ih, sum_range_succ]
  exact hsum _ k

/-- The sum of a gradient over a perturbation. -/
def dot (g : Tensor R) (f : ℕ → R) : R := ∑ i ∈ range g.data.length, g.cell i * f i

theorem sum_range_mul (f : ℕ → R) (m n : ℕ) :
    ∑ q ∈ range (m * n), f q = ∑ i ∈ range m, ∑ j ∈ range n, f (i * n + j) := by
  induction m with
  | zero => simp
  | succ m ih => rw [Nat.succ_mul, sum_range_add, ih, sum_range_succ]

theorem dot_eq_sum {g : Tensor R} {m n : ℕ} (h : g.shape = [m, n]) (f : ℕ → R) :
    g.dot f = ∑ i ∈ range m, ∑ j ∈ range n, g.cell (i * n + j) * f (i * n + j) := by
  have hlen : g.data.length = m * n := by rw [g.length_data, h]; simp
  rw [dot, hlen, sum_range_mul]

theorem sum_mul_right_factor (m k n : ℕ) (u b x : ℕ → ℕ → R) :
    ∑ i ∈ range m, ∑ p ∈ range k, (∑ j ∈ range n, u i j * b p j) * x i p =
      ∑ i ∈ range m, ∑ j ∈ range n, u i j * ∑ p ∈ range k, x i p * b p j := by
  refine sum_congr rfl fun i _ => ?_
  simp only [sum_mul, mul_sum]
  rw [sum_comm]
  exact sum_congr rfl fun j _ => sum_congr rfl fun p _ => by ring

theorem sum_mul_left_factor (m k n : ℕ) (u a y : ℕ → ℕ → R) :
    ∑ p ∈ range k, ∑ j ∈ range n, (∑ i ∈ range m, a i p * u i j) * y p j =
      ∑ i ∈ range m, ∑ j ∈ range n, u i j * ∑ p ∈ range k, a i p * y p j := by
  simp only [sum_mul, mul_sum]
  calc _ = ∑ p ∈ range k, ∑ i ∈ range m, ∑ j ∈ range n, a i p * u i j * y p j :=
        sum_congr rfl fun p _ => sum_comm
    _ = ∑ i ∈ range m, ∑ p ∈ range k, ∑ j ∈ range n, a i p * u i j * y p j := sum_comm
    _ = ∑ i ∈ range m, ∑ j ∈ range n, ∑ p ∈ range k, a i p * u i j * y p j :=
        sum_congr rfl fun i _ => sum_comm
    _ = _ := sum_congr rfl fun i _ => sum_congr rfl fun j _ => sum_congr rfl fun p _ => by ring

end Tensor

/-! ## Perturbations -/

section Tangents

def value (vars : List (Variable R)) (a i : ℕ) : R :=
  match vars[a]? with
  | some v => v.data.cell i
  | none => 0

def colsOf (vars : List (Variable R)) (a : ℕ) : ℕ :=
  match vars[a]? with
  | some v => v.data.cols
  | none => 0

variable (pos : R → Bool)

/-- The perturbation of a new variable: that of a leaf, or the linearised operation at the values of
the operands. -/
def Op.tangent (dleaf : ℕ → R) (vars : List (Variable R)) (d : ℕ → ℕ → R) : Op (Tensor R) → ℕ → R
  | .var _ _, i => dleaf i
  | .add a b, i => d a i + d b i
  | .mul a b, i => d a i * value vars b i + value vars a i * d b i
  | .matmul a b, q =>
    let k := colsOf vars a
    let n := colsOf vars b
    ∑ p ∈ range k, (d a (q / n * k + p) * value vars b (p * n + q % n) +
      value vars a (q / n * k + p) * d b (p * n + q % n))
  | .relu a, i => (if pos (value vars a i) then 1 else 0) * d a i

/-- Leaves require gradients, and sums and products are of equal shapes. -/
def Op.Fits (vars : List (Variable R)) : Op (Tensor R) → Prop
  | .var _ requiresGrad => requiresGrad = true
  | .add a b | .mul a b => (shapes vars)[a]? = (shapes vars)[b]?
  | .matmul _ _ | .relu _ => True

/-- The tape was built from nothing, and `d` are the perturbations of its variables when `dleaf` are
those of the leaves. -/
inductive Built (dleaf : ℕ → ℕ → R) : Tape R → (ℕ → ℕ → R) → Prop
  | new : Built dleaf Tape.new fun _ _ => 0
  | step {tape tape' : Tape R} {d : ℕ → ℕ → R} {op : Op (Tensor R)} (h : Built dleaf tape d)
      (hfits : op.Fits tape.vars) (hexec : tape.exec (prims pos) op = some tape') :
      Built dleaf tape' (Function.update d tape.vars.length
        (op.tangent pos (dleaf tape.vars.length) tape.vars d))

end Tangents

/-- The variables that no operation wrote. -/
def Tape.leaves {α : Type} (tape : Tape α) : Finset ℕ :=
  range tape.vars.length \ (tape.nodes.map (·.outputId)).toFinset

/-- The sum of the gradient of a variable over its perturbation; a missing gradient counts as
zero. -/
def flow (d : ℕ → ℕ → R) (vars : List (Variable R)) (id : ℕ) : R :=
  match vars[id]?.bind (·.grad) with
  | some g => g.dot (d id)
  | none => 0

/-- The gradients of the inputs give the sum that the gradient of the output gives, and are of the
inputs' shapes. -/
def Adjoint (shapes : List (List ℕ)) (d : ℕ → ℕ → R) (node : TapeNode R) : Prop :=
  ∃ shape, shapes[node.outputId]? = some shape ∧ ∀ u : Tensor R, u.shape = shape →
    ∃ grads, node.gradFn u = some grads ∧
      (∀ x ∈ node.inputIds.zip grads, x.1 < node.outputId ∧ shapes[x.1]? = some x.2.shape) ∧
      ((node.inputIds.zip grads).map fun x => x.2.dot (d x.1)).sum = u.dot (d node.outputId)

theorem Adjoint.append {shapes : List (List ℕ)} {d : ℕ → ℕ → R} {node : TapeNode R}
    (h : Adjoint shapes d node) (shape : List ℕ) (f : ℕ → R) :
    Adjoint (shapes ++ [shape]) (Function.update d shapes.length f) node := by
  obtain ⟨out, hout, hgrad⟩ := h
  have hlt : node.outputId < shapes.length := (List.getElem?_eq_some_iff.mp hout).1
  refine ⟨out, by rw [List.getElem?_append_left hlt, hout], fun u hu => ?_⟩
  obtain ⟨grads, hgrads, hinputs, hsum⟩ := hgrad u hu
  refine ⟨grads, hgrads, fun x hx => ?_, ?_⟩
  · obtain ⟨hx, hshape⟩ := hinputs x hx
    exact ⟨hx, by rw [List.getElem?_append_left (hx.trans hlt), hshape]⟩
  · rw [Function.update_of_ne hlt.ne, ← hsum]
    refine congrArg List.sum (List.map_congr_left fun x hx => ?_)
    rw [Function.update_of_ne ((hinputs x hx).1.trans hlt).ne]

/-! ## The pass -/

section Pass

/-- All variables require gradients, and those there are have the shapes of their variables. -/
structure Graded (ss : List (List ℕ)) (vars : List (Variable R)) : Prop where
  shapes_eq : shapes vars = ss
  requiresGrad : ∀ v ∈ vars, v.requiresGrad = true
  grad_shape : ∀ v ∈ vars, ∀ g ∈ v.grad, g.shape = v.data.shape

variable {ss : List (List ℕ)} {vars : List (Variable R)} {d : ℕ → ℕ → R}

theorem Variable.accumulateGrad_eq {v : Variable R} {g : Tensor R}
    (hgrad : ∀ e ∈ v.grad, e.shape = v.data.shape) (hg : g.shape = v.data.shape) (f : ℕ → R) :
    ∃ e, v.accumulateGrad g = some { v with grad := some e } ∧ e.shape = v.data.shape ∧
      e.dot f = (match v.grad with | some e => e.dot f | none => 0) + g.dot f := by
  unfold accumulateGrad
  cases hv : v.grad with
  | none => exact ⟨g, rfl, hg, (zero_add _).symm⟩
  | some e =>
    have hlen : e.data.length = g.data.length := Tensor.length_eq ((hgrad e hv).trans hg.symm)
    obtain ⟨z, hz, hshape, hcell⟩ := Tensor.zipCells_eq (· + ·) hlen
    rw [Tensor.zipCells, if_pos hlen] at hz
    refine ⟨z, ?_, hshape.trans (hgrad e hv), ?_⟩
    · dsimp only
      rw [if_neg hlen.not_gt, hz]
      rfl
    · show ∑ i ∈ range z.data.length, z.cell i * f i = e.dot f + g.dot f
      rw [Tensor.length_eq hshape, Tensor.dot, Tensor.dot, ← hlen, ← sum_add_distrib]
      exact sum_congr rfl fun i hi => by rw [hcell i (mem_range.mp hi), add_mul]

omit [CommRing R] in
theorem Graded.exists_getElem? (h : Graded ss vars) {id : ℕ} {shape : List ℕ}
    (hid : ss[id]? = some shape) : ∃ v, vars[id]? = some v ∧ v.data.shape = shape := by
  rwa [← h.shapes_eq, shapes, List.getElem?_map, Option.map_eq_some_iff] at hid

theorem accumulate_eq (h : Graded ss vars) {id : ℕ} {g : Tensor R} (hg : ss[id]? = some g.shape) :
    ∃ vars', accumulate vars id g = some vars' ∧ Graded ss vars' ∧
      ∀ j, flow d vars' j = flow d vars j + if j = id then g.dot (d id) else 0 := by
  obtain ⟨v, hv, hshape⟩ := h.exists_getElem? hg
  have hmem : v ∈ vars := List.mem_of_getElem? hv
  have hlt : id < vars.length := (List.getElem?_eq_some_iff.mp hv).1
  obtain ⟨e, he, heshape, hdot⟩ :=
    Variable.accumulateGrad_eq (h.grad_shape v hmem) hshape.symm (d id)
  refine ⟨vars.set id { v with grad := some e }, ?_, ⟨?_, ?_, ?_⟩, fun j => ?_⟩
  · unfold accumulate
    rw [hv, Option.bind_eq_bind, Option.bind_some, he]
    rfl
  · rw [← h.shapes_eq, shapes, shapes, List.map_set]
    obtain ⟨-, rfl⟩ := List.getElem?_eq_some_iff.mp hv
    have hid : id < (vars.map (·.data.shape)).length := hlt.trans_eq (List.length_map _).symm
    exact (congrArg (List.set _ id) (by simp)).trans (List.set_getElem_self hid)
  · intro w hw
    rcases List.mem_or_eq_of_mem_set hw with hw | rfl
    · exact h.requiresGrad w hw
    · exact h.requiresGrad v hmem
  · intro w hw e' he'
    rcases List.mem_or_eq_of_mem_set hw with hw | rfl
    · exact h.grad_shape w hw e' he'
    · cases he'
      exact heshape
  · unfold flow
    rw [List.getElem?_set]
    by_cases hj : id = j
    · subst hj
      rw [if_pos rfl, if_pos hlt, if_pos rfl, hv]
      exact hdot
    · rw [if_neg hj, if_neg (Ne.symm hj), add_zero]

/-- Both gradients of a node may go to one variable. -/
theorem foldlM_accumulateInput (A : Finset ℕ) (xs : List (ℕ × Tensor R)) (h : Graded ss vars)
    (hxs : ∀ x ∈ xs, x.1 ∈ A ∧ ss[x.1]? = some x.2.shape) :
    ∃ vars', xs.foldlM accumulateInput vars = some vars' ∧ Graded ss vars' ∧
      ∑ j ∈ A, flow d vars' j = ∑ j ∈ A, flow d vars j + (xs.map fun x => x.2.dot (d x.1)).sum := by
  induction xs generalizing vars with
  | nil => exact ⟨vars, rfl, h, (add_zero _).symm⟩
  | cons x xs ih =>
    obtain ⟨hx, hshape⟩ := hxs x List.mem_cons_self
    obtain ⟨vars₁, h₁, hgraded, hflow⟩ := accumulate_eq (d := d) h hshape
    obtain ⟨vars₂, h₂, hgraded, hsum⟩ :=
      ih hgraded fun y hy => hxs y (List.mem_cons_of_mem x hy)
    have hstep : accumulateInput vars x = some vars₁ := by
      obtain ⟨v, hv, -⟩ := h.exists_getElem? hshape
      unfold accumulateInput
      rw [hv, Option.bind_eq_bind, Option.bind_some,
        if_pos (h.requiresGrad v (List.mem_of_getElem? hv)), h₁]
    refine ⟨vars₂, ?_, hgraded, ?_⟩
    · rw [List.foldlM_cons, hstep]
      exact h₂
    · simp only [hsum, hflow, sum_add_distrib, sum_ite_eq', if_pos hx, List.map_cons,
        List.sum_cons, add_assoc]

/-- One node: its output is taken out of the balance. -/
theorem backwardNode_eq (h : Graded ss vars) {node : TapeNode R} (hnode : Adjoint ss d node)
    {A : Finset ℕ} (hA : ∀ i ≤ node.outputId, i ∈ A) :
    ∃ vars', backwardNode vars node = some vars' ∧ Graded ss vars' ∧
      ∑ j ∈ A.erase node.outputId, flow d vars' j = ∑ j ∈ A, flow d vars j := by
  obtain ⟨shape, hshape, hadj⟩ := hnode
  obtain ⟨v, hv, rfl⟩ := h.exists_getElem? hshape
  have hsplit := add_sum_erase A (flow d vars) (hA _ le_rfl)
  unfold backwardNode
  rw [hv, Option.bind_eq_bind, Option.bind_some]
  cases hgrad : v.grad with
  | none =>
    have hzero : flow d vars node.outputId = 0 := by
      unfold flow
      rw [hv, Option.bind_some, hgrad]
    exact ⟨vars, rfl, h, by rw [← hsplit, hzero, zero_add]⟩
  | some u =>
    have hflow : flow d vars node.outputId = u.dot (d node.outputId) := by
      unfold flow
      rw [hv, Option.bind_some, hgrad]
    obtain ⟨grads, hgrads, hinputs, hsum⟩ :=
      hadj u (h.grad_shape v (List.mem_of_getElem? hv) u hgrad)
    obtain ⟨vars', h', hgraded, hsum'⟩ :=
      foldlM_accumulateInput (d := d) (A.erase node.outputId) (node.inputIds.zip grads) h
        fun x hx => ⟨mem_erase.mpr ⟨(hinputs x hx).1.ne, hA _ (hinputs x hx).1.le⟩,
          (hinputs x hx).2⟩
    refine ⟨vars', ?_, hgraded, ?_⟩
    · dsimp only
      rw [hgrads]
      exact h'
    · rw [hsum', hsum, ← hsplit, hflow, add_comm]

theorem run_nodes {nodes : List (TapeNode R)} (hnodes : ∀ node ∈ nodes, Adjoint ss d node)
    (hsorted : nodes.Pairwise (·.outputId > ·.outputId)) (h : Graded ss vars) {A : Finset ℕ}
    (hA : ∀ node ∈ nodes, ∀ i ≤ node.outputId, i ∈ A) :
    ∃ vars', nodes.foldlM backwardNode vars = some vars' ∧
      ∑ j ∈ A \ (nodes.map (·.outputId)).toFinset, flow d vars' j = ∑ j ∈ A, flow d vars j := by
  induction nodes generalizing vars A with
  | nil => exact ⟨vars, rfl, by simp⟩
  | cons node nodes ih =>
    obtain ⟨hgt, hsorted⟩ := List.pairwise_cons.mp hsorted
    obtain ⟨vars₁, h₁, hgraded, hsum₁⟩ :=
      backwardNode_eq h (hnodes node List.mem_cons_self) (hA node List.mem_cons_self)
    -- the outputs still to come, and all inputs, are before this one
    obtain ⟨vars₂, h₂, hsum₂⟩ := ih (fun x hx => hnodes x (List.mem_cons_of_mem node hx)) hsorted
      hgraded (A := A.erase node.outputId) fun x hx i hi => mem_erase.mpr
        ⟨(hi.trans_lt (hgt x hx)).ne, hA x (List.mem_cons_of_mem node hx) i hi⟩
    refine ⟨vars₂, ?_, ?_⟩
    · rw [List.foldlM_cons, h₁]
      exact h₂
    · rw [← hsum₁, ← hsum₂, List.map_cons, List.toFinset_cons, sdiff_insert, erase_sdiff_comm]

end Pass

/-! ## The nodes of a tape -/

/-- The tape is new, and its nodes are adjoint to the perturbations. -/
structure Linear (tape : Tape R) (d : ℕ → ℕ → R) : Prop where
  fresh : ∀ v ∈ tape.vars, v.requiresGrad = true ∧ v.grad = none
  adjoint : ∀ node ∈ tape.nodes, Adjoint (shapes tape.vars) d node
  sorted : tape.nodes.Pairwise (·.outputId < ·.outputId)

section Step

variable {tape tape' : Tape R} {d : ℕ → ℕ → R}

theorem Linear.push (h : Linear tape d) {result : Tensor R} {requiresGrad : Bool}
    (hgrad : requiresGrad = true) {gradFn : Tensor R → Option (List (Tensor R))} {inputs : List ℕ}
    {f : ℕ → R} (hadj : ∀ u : Tensor R, u.shape = result.shape → ∃ grads, gradFn u = some grads ∧
      (∀ x ∈ inputs.zip grads, (shapes tape.vars)[x.1]? = some x.2.shape) ∧
      ((inputs.zip grads).map fun x => x.2.dot (d x.1)).sum = u.dot f) :
    Linear (tape.push result requiresGrad gradFn inputs) (Function.update d tape.vars.length f) := by
  have hlen : (shapes tape.vars).length = tape.vars.length := List.length_map _
  have hshapes : shapes (tape.push result requiresGrad gradFn inputs).vars =
      shapes tape.vars ++ [result.shape] := List.map_append
  refine ⟨fun v hv => ?_, fun node hnode => ?_, ?_⟩
  · rcases List.mem_append.mp hv with hv | hv
    · exact h.fresh v hv
    · obtain rfl := List.mem_singleton.mp hv
      exact ⟨hgrad, rfl⟩
  · rw [hshapes, ← hlen]
    rcases List.mem_append.mp hnode with hnode | hnode
    · exact (h.adjoint node hnode).append _ _
    · obtain rfl := List.mem_singleton.mp hnode
      refine ⟨result.shape, ?_, fun u hu => ?_⟩
      · show (shapes tape.vars ++ [result.shape])[tape.vars.length]? = _
        rw [← hlen, List.getElem?_concat_length]
      · obtain ⟨grads, hgrads, hinputs, hsum⟩ := hadj u hu
        have hlt : ∀ x ∈ inputs.zip grads, x.1 < (shapes tape.vars).length := fun x hx =>
          (List.getElem?_eq_some_iff.mp (hinputs x hx)).1
        refine ⟨grads, hgrads, fun x hx => ⟨hlen ▸ hlt x hx, ?_⟩, ?_⟩
        · rw [List.getElem?_append_left (hlt x hx), hinputs x hx]
        · rw [← hlen, Function.update_self, ← hsum]
          refine congrArg List.sum (List.map_congr_left fun x hx => ?_)
          rw [Function.update_of_ne (hlt x hx).ne]
  · refine List.pairwise_append.mpr ⟨h.sorted, List.pairwise_singleton _ _, fun x hx y hy => ?_⟩
    obtain rfl := List.mem_singleton.mp hy
    obtain ⟨shape, hshape, -⟩ := h.adjoint x hx
    exact hlen ▸ (List.getElem?_eq_some_iff.mp hshape).1

theorem value_eq {vars : List (Variable R)} {a : ℕ} {v : Variable R} (h : vars[a]? = some v) :
    value vars a = v.data.cell := by
  funext i
  rw [value, h]

omit [CommRing R] in
theorem colsOf_eq {vars : List (Variable R)} {a : ℕ} {v : Variable R} (h : vars[a]? = some v) :
    colsOf vars a = v.data.cols := by
  rw [colsOf, h]

/-- An operation with two operands whose gradients are adjoint to `f`. -/
theorem Linear.binary (h : Linear tape d) {op : Tensor R → Tensor R → Option (Tensor R)}
    {gradFn : Variable R → Variable R → Tensor R → Option (List (Tensor R))} {a b : ℕ} {f : ℕ → R}
    (hexec : tape.binary op gradFn a b = some tape')
    (hadj : ∀ va vb z u, tape.vars[a]? = some va → tape.vars[b]? = some vb →
      va.requiresGrad = true → vb.requiresGrad = true → op va.data vb.data = some z →
      u.shape = z.shape → ∃ ga gb : Tensor R, gradFn va vb u = some [ga, gb] ∧
        ga.shape = va.data.shape ∧ gb.shape = vb.data.shape ∧
        ga.dot (d a) + gb.dot (d b) = u.dot f) :
    Linear tape' (Function.update d tape.vars.length f) := by
  obtain ⟨va, vb, z, ha, hb, hz, rfl⟩ := Tape.binary_eq_some hexec
  have hga := (h.fresh va (List.mem_of_getElem? ha)).1
  have hgb := (h.fresh vb (List.mem_of_getElem? hb)).1
  refine h.push (by rw [hga]; rfl) fun u hu => ?_
  obtain ⟨ga, gb, hgrads, hsa, hsb, hsum⟩ := hadj va vb z u ha hb hga hgb hz hu
  refine ⟨[ga, gb], hgrads, ?_, ?_⟩
  · simp [getElem?_shapes ha, getElem?_shapes hb, hsa, hsb]
  · simpa using hsum

theorem Linear.add (h : Linear tape d) (pos : R → Bool) {a b : ℕ}
    (hfits : (shapes tape.vars)[a]? = (shapes tape.vars)[b]?)
    (hexec : tape.add (prims pos) a b = some tape') :
    Linear tape' (Function.update d tape.vars.length fun i => d a i + d b i) := by
  refine h.binary hexec fun va vb z u ha hb hga hgb hz hu => ?_
  rw [getElem?_shapes ha, getElem?_shapes hb, Option.some.injEq] at hfits
  obtain ⟨z', hz', hshape, -⟩ := Tensor.zipCells_eq (· + ·) (Tensor.length_eq hfits)
  obtain rfl := Option.some.inj (hz.symm.trans hz')
  refine ⟨u, u, ?_, hu.trans hshape, (hu.trans hshape).trans hfits, ?_⟩
  · simp [hga, hgb]
  · simp only [Tensor.dot, mul_add, sum_add_distrib]

theorem Linear.mul (h : Linear tape d) (pos : R → Bool) {a b : ℕ}
    (hfits : (shapes tape.vars)[a]? = (shapes tape.vars)[b]?)
    (hexec : tape.mul (prims pos) a b = some tape') :
    Linear tape' (Function.update d tape.vars.length fun i =>
      d a i * value tape.vars b i + value tape.vars a i * d b i) := by
  refine h.binary hexec fun va vb z u ha hb hga hgb hz hu => ?_
  rw [getElem?_shapes ha, getElem?_shapes hb, Option.some.injEq] at hfits
  obtain ⟨z', hz', hshape, -⟩ := Tensor.zipCells_eq (· * ·) (Tensor.length_eq hfits)
  obtain rfl := Option.some.inj (hz.symm.trans hz')
  have hua := hu.trans hshape
  obtain ⟨ga, hmula, hsa, hca⟩ := Tensor.zipCells_eq (· * ·) (Tensor.length_eq (hua.trans hfits))
  obtain ⟨gb, hmulb, hsb, hcb⟩ := Tensor.zipCells_eq (· * ·) (Tensor.length_eq hua)
  refine ⟨ga, gb, ?_, hsa.trans hua, hsb.trans (hua.trans hfits), ?_⟩
  · simp only [hga, hgb, if_true]
    rw [show (prims pos).mul u vb.data = some ga from hmula,
      show (prims pos).mul u va.data = some gb from hmulb]
    rfl
  · simp only [Tensor.dot]
    rw [Tensor.length_eq hsa, Tensor.length_eq hsb, ← sum_add_distrib, value_eq ha, value_eq hb]
    refine sum_congr rfl fun i hi => ?_
    rw [hca i (mem_range.mp hi), hcb i (mem_range.mp hi)]
    ring

/-- The gradients of a matrix product are products with the transposed operands. -/
theorem Linear.matmul (h : Linear tape d) (pos : R → Bool) {a b : ℕ}
    (hexec : tape.matmul (prims pos) a b = some tape') (dleaf : ℕ → R) :
    Linear tape' (Function.update d tape.vars.length
      ((Op.matmul a b).tangent pos dleaf tape.vars d)) := by
  refine h.binary hexec fun va vb z u ha hb hga hgb hz hu => ?_
  obtain ⟨m, k, n, hsa, hsb, hfits⟩ := Tensor.matmul_eq_some hz
  have hla : va.data.data.length = m * k := by rw [va.data.length_data, hsa]; simp
  have hlb : vb.data.data.length = k * n := by rw [vb.data.length_data, hsb]; simp
  obtain ⟨z', hz', hsz, -⟩ := Tensor.matmul_eq hsa hsb hfits
  obtain rfl := Option.some.inj (hz.symm.trans hz')
  have hsu : u.shape = [m, n] := hu.trans hsz
  obtain ⟨bt, hbt, hsbt, hcbt⟩ := Tensor.t_eq hsb
  obtain ⟨ta, hta, hsta, hcta⟩ := Tensor.t_eq hsa
  obtain ⟨ga, hmula, hsga, hca⟩ := Tensor.matmul_eq hsu hsbt (hla ▸ va.data.fits)
  obtain ⟨gb, hmulb, hsgb, hcb⟩ := Tensor.matmul_eq hsta hsu (hlb ▸ vb.data.fits)
  refine ⟨ga, gb, ?_, hsga.trans hsa.symm, hsgb.trans hsb.symm, ?_⟩
  · simp only [hga, hgb, if_true]
    rw [show (prims pos).t vb.data = some bt from hbt, show (prims pos).t va.data = some ta from hta,
      Option.bind_some, Option.bind_some, show (prims pos).matmul u bt = some ga from hmula,
      show (prims pos).matmul ta u = some gb from hmulb]
    rfl
  have hleft : ga.dot (d a) = ∑ i ∈ range m, ∑ j ∈ range n, u.cell (i * n + j) *
      ∑ p ∈ range k, d a (i * k + p) * vb.data.cell (p * n + j) := by
    rw [Tensor.dot_eq_sum hsga, ← Tensor.sum_mul_right_factor]
    refine sum_congr rfl fun i hi => sum_congr rfl fun p hp => ?_
    rw [hca i (mem_range.mp hi) p (mem_range.mp hp), Tensor.terms_eq_sum]
    refine congrArg (· * _) (sum_congr rfl fun j hj => ?_)
    rw [hcbt j (mem_range.mp hj) p (mem_range.mp hp)]
  have hright : gb.dot (d b) = ∑ i ∈ range m, ∑ j ∈ range n, u.cell (i * n + j) *
      ∑ p ∈ range k, va.data.cell (i * k + p) * d b (p * n + j) := by
    rw [Tensor.dot_eq_sum hsgb, ← Tensor.sum_mul_left_factor]
    refine sum_congr rfl fun p hp => sum_congr rfl fun j hj => ?_
    rw [hcb p (mem_range.mp hp) j (mem_range.mp hj), Tensor.terms_eq_sum]
    refine congrArg (· * _) (sum_congr rfl fun i hi => ?_)
    rw [hcta p (mem_range.mp hp) i (mem_range.mp hi)]
  have hcols : va.data.cols = k ∧ vb.data.cols = n := by
    rw [Tensor.cols, Tensor.cols, hsa, hsb]
    exact ⟨rfl, rfl⟩
  rw [hleft, hright, Tensor.dot_eq_sum hsu]
  simp only [← sum_add_distrib, ← mul_add]
  refine sum_congr rfl fun i _ => sum_congr rfl fun j hj => congrArg (u.cell (i * n + j) * ·) ?_
  obtain ⟨hrow, hcol⟩ := (index_eq_iff (mem_range.mp hj) (i := i)).mp rfl
  simp only [Op.tangent, colsOf_eq ha, colsOf_eq hb, value_eq ha, value_eq hb, hcols.1, hcols.2, hrow,
    ← hcol]

theorem Linear.relu (h : Linear tape d) (pos : R → Bool) {a : ℕ}
    (hexec : tape.relu (prims pos) a = some tape') :
    Linear tape' (Function.update d tape.vars.length fun i =>
      (if pos (value tape.vars a i) then 1 else 0) * d a i) := by
  unfold Tape.relu at hexec
  obtain ⟨va, ha, hexec⟩ := Option.bind_eq_some_iff.mp hexec
  obtain rfl := Option.some.inj hexec
  refine h.push (h.fresh va (List.mem_of_getElem? ha)).1 fun u hu => ?_
  have hlen : va.data.data.length = u.data.length := Tensor.length_eq hu.symm
  obtain ⟨g, hg, hshape, hcell⟩ := Tensor.maskBy_eq pos hlen
  refine ⟨[g], ?_, ?_, ?_⟩
  · show (Tensor.maskBy pos va.data u).bind _ = _
    rw [hg]
    rfl
  · simp [getElem?_shapes ha, hshape]
  · simp only [List.zip_cons_cons, List.zip_nil_right, List.map_cons, List.map_nil, List.sum_cons,
      List.sum_nil, add_zero, Tensor.dot]
    rw [Tensor.length_eq hshape, ← hlen, value_eq ha]
    refine sum_congr rfl fun i hi => ?_
    rw [hcell i (mem_range.mp hi)]
    split_ifs <;> ring

theorem Linear.var (h : Linear tape d) (data : Tensor R) (f : ℕ → R) :
    Linear (tape.var data true) (Function.update d tape.vars.length f) := by
  have hlen : (shapes tape.vars).length = tape.vars.length := List.length_map _
  refine ⟨fun v hv => ?_, fun node hnode => ?_, h.sorted⟩
  · rcases List.mem_append.mp hv with hv | hv
    · exact h.fresh v hv
    · obtain rfl := List.mem_singleton.mp hv
      exact ⟨rfl, rfl⟩
  · rw [show shapes (tape.var data true).vars = shapes tape.vars ++ [data.shape] from
      List.map_append, ← hlen]
    exact (h.adjoint node hnode).append _ _

end Step

theorem Built.linear {pos : R → Bool} {dleaf : ℕ → ℕ → R} {tape : Tape R} {d : ℕ → ℕ → R}
    (h : Built pos dleaf tape d) : Linear tape d := by
  induction h with
  | new => exact ⟨fun _ h => absurd h List.not_mem_nil, fun _ h => absurd h List.not_mem_nil, .nil⟩
  | @step tape tape' d op _ hfits hexec ih =>
    cases op with
    | var data requiresGrad =>
      obtain rfl := Option.some.inj hexec
      obtain rfl : requiresGrad = true := hfits
      exact ih.var data _
    | add a b => exact ih.add pos hfits hexec
    | mul a b => exact ih.mul pos hfits hexec
    | matmul a b => exact ih.matmul pos hexec _
    | relu a => exact ih.relu pos hexec

theorem Linear.backward {tape : Tape R} {d : ℕ → ℕ → R} (h : Linear tape d) {id : ℕ} {g : Tensor R}
    (hg : (shapes tape.vars)[id]? = some g.shape) :
    ∃ tape', tape.backward id g = some tape' ∧
      ∑ i ∈ tape.leaves, flow d tape'.vars i = g.dot (d id) := by
  have hgraded : Graded (shapes tape.vars) tape.vars :=
    ⟨rfl, fun v hv => (h.fresh v hv).1, fun v hv e he => by simp [(h.fresh v hv).2] at he⟩
  have hzero : ∀ j, flow d tape.vars j = 0 := fun j => by
    unfold flow
    cases hv : tape.vars[j]? with
    | none => rfl
    | some v => rw [Option.bind_some, (h.fresh v (List.mem_of_getElem? hv)).2]
  have hlen : (shapes tape.vars).length = tape.vars.length := List.length_map _
  have hlt : ∀ {i shape}, (shapes tape.vars)[i]? = some shape → i < tape.vars.length :=
    fun hi => hlen ▸ (List.getElem?_eq_some_iff.mp hi).1
  obtain ⟨vars₁, h₁, hgraded, hflow⟩ := accumulate_eq (d := d) hgraded hg
  have hnodes : ∀ node ∈ tape.nodes.reverse, Adjoint (shapes tape.vars) d node :=
    fun node hnode => h.adjoint node (List.mem_reverse.mp hnode)
  obtain ⟨vars₂, h₂, hsum⟩ := run_nodes hnodes (List.pairwise_reverse.mpr h.sorted) hgraded
    (A := range tape.vars.length)
    fun node hnode i hi => by
      obtain ⟨shape, hshape, -⟩ := hnodes node hnode
      exact mem_range.mpr (hi.trans_lt (hlt hshape))
  refine ⟨{ tape with vars := vars₂ }, ?_, ?_⟩
  · unfold Tape.backward
    rw [h₁, Option.bind_eq_bind, Option.bind_some, h₂]
    rfl
  · rw [List.map_reverse, List.toFinset_reverse] at hsum
    rw [Tape.leaves, hsum]
    simp only [hflow, hzero, zero_add, sum_ite_eq', mem_range, if_pos (hlt hg)]

theorem Built.leaf {pos : R → Bool} {dleaf : ℕ → ℕ → R} {tape : Tape R} {d : ℕ → ℕ → R}
    (h : Built pos dleaf tape d) : ∀ i ∈ tape.leaves, d i = dleaf i := by
  induction h with
  | new => exact fun i hi => absurd hi (notMem_empty i)
  | @step tape tape' d op _ _ hexec ih =>
    intro i hi
    obtain ⟨hlt, hout⟩ := mem_sdiff.mp hi
    rw [mem_range] at hlt
    by_cases hnew : i = tape.vars.length
    · subst hnew
      rw [Function.update_self]
      rcases Tape.exec_eq_some hexec with ⟨data, requiresGrad, rfl, -⟩ | ⟨z, rg, gradFn, inputs, rfl⟩
      · rfl
      · exact absurd (by simp [Tape.push]) hout
    · rw [Function.update_of_ne hnew]
      refine ih i (mem_sdiff.mpr ?_)
      rw [mem_range]
      rcases Tape.exec_eq_some hexec with ⟨data, requiresGrad, -, rfl⟩ | ⟨z, rg, gradFn, inputs, rfl⟩
      · simp only [Tape.var, List.length_append, List.length_singleton] at hlt
        exact ⟨by omega, hout⟩
      · simp only [Tape.push, List.length_append, List.length_singleton] at hlt
        refine ⟨by omega, fun h => hout ?_⟩
        rw [Tape.push, List.map_append, List.toFinset_append]
        exact mem_union_left _ h

/-- A backward pass from any variable, with any seed of its shape: the gradients of the leaves over
their perturbations sum to the seed over the perturbation of the variable. -/
theorem backward_adjoint {pos : R → Bool} {dleaf : ℕ → ℕ → R} {tape : Tape R} {d : ℕ → ℕ → R}
    (h : Built pos dleaf tape d) {id : ℕ} {g : Tensor R}
    (hg : (shapes tape.vars)[id]? = some g.shape) :
    ∃ tape', tape.backward id g = some tape' ∧
      ∑ i ∈ tape.leaves, flow dleaf tape'.vars i = g.dot (d id) := by
  obtain ⟨tape', htape, hsum⟩ := h.linear.backward hg
  refine ⟨tape', htape, ?_⟩
  rw [← hsum]
  refine sum_congr rfl fun i hi => ?_
  rw [flow, flow, h.leaf i hi]

/-- A square, with both gradients at one leaf. -/
theorem backward_adjoint_square : ∃ (tape tape' : Tape ℤ) (d : ℕ → ℕ → ℤ),
    Built (fun x => decide (0 < x)) (fun _ _ => 1) tape d ∧
    tape.backward 1 ⟨[1], [5], rfl, by decide⟩ = some tape' ∧
    ∑ i ∈ tape.leaves, flow (fun _ _ => 1) tape'.vars i =
      Tensor.dot ⟨[1], [5], rfl, by decide⟩ (d 1) := by
  have hvar : Built (fun x : ℤ => decide (0 < x)) (fun _ _ => 1)
      (Tape.new.var ⟨[1], [3], rfl, by decide⟩ true) _ :=
    .step .new (show Op.Fits _ (.var ⟨[1], [3], rfl, by decide⟩ true) from rfl) rfl
  have hmul := hvar.step (show Op.Fits _ (.mul 0 0) from rfl) rfl
  obtain ⟨tape', htape⟩ := backward_adjoint hmul
    (show (shapes _)[1]? = some (Tensor.shape ⟨[1], [5], rfl, by decide⟩) from rfl)
  exact ⟨_, tape', _, hmul, htape⟩

end Aeterna.Ane
