import Aeterna.Ane.Tape

/-!
# The graph compiler

`lib/ane/compiler.rs` turns the operations on a tape into blocks and runs them on the variables of the
tape again. Which operation a node is, it guesses from the number and the shapes of the inputs, and
neighbouring nodes may share a block.

The operations on tensors are any functions. The run leaves a tape as it is if the compiler guesses
every call of its graph and puts no two of them together (`Faithful`, `preserved_of_faithful`).
-/

namespace Aeterna.Ane

inductive PrimOp where
  | add | mul | matMul | relu | softmax | layerNorm | embedding | linear | noop
  deriving DecidableEq

structure OpNode where
  op : PrimOp
  inputs : List ℕ
  output : ℕ

structure InsnBlock where
  ops : List PrimOp
  inputs : List ℕ
  output : ℕ

variable {α β : Type}

/-! ## Compiling -/

def guess (ss : List (List ℕ)) : List ℕ → Option PrimOp
  | [_] => some .relu
  | [a, b] => do
    let aShape ← ss[a]?
    let bShape ← ss[b]?
    return if aShape = bShape then .add else .matMul
  | _ => some .noop

def opNode (ss : List (List ℕ)) (node : TapeNode α) : Option OpNode := do
  let op ← guess ss node.inputIds
  return ⟨op, node.inputIds, node.outputId⟩

def OpNode.block (node : OpNode) : InsnBlock := ⟨[node.op], node.inputs, node.output⟩

/-- A chain of operations element by element is one block. -/
def place (blocks : List InsnBlock) (node : OpNode) : List InsnBlock :=
  match blocks.getLast? with
  | some last =>
    if (node.op = .relu ∨ node.op = .add) ∧ last.output = node.inputs.headD (2 ^ 64 - 1) then
      blocks.dropLast ++ [{ last with ops := last.ops ++ [node.op], output := node.output }]
    else blocks ++ [node.block]
  | none => blocks ++ [node.block]

/-- A matrix product and the sum that takes its result. -/
def linearBlock (node next : OpNode) : InsnBlock :=
  ⟨[.matMul, .add], node.inputs ++ next.inputs, next.output⟩

def fuse : List InsnBlock → List OpNode → List InsnBlock
  | blocks, [] => blocks
  | blocks, [node] => place blocks node
  | blocks, node :: next :: rest =>
    if node.op = .matMul ∧ next.op = .add ∧ node.output ∈ next.inputs then
      fuse (blocks ++ [linearBlock node next]) rest
    else fuse (place blocks node) (next :: rest)

def compile (tape : Tape α) : Option (List InsnBlock) := do
  let nodes ← tape.nodes.mapM (opNode (shapes tape.vars))
  return fuse [] nodes

/-! ## Running -/

/-- Elements one after the other are written over those of `dst`; behind its last one they would
go to other memory. -/
def Tensor.overwrite (dst src : Tensor α) : Option (Tensor α) :=
  if src.data.length ≤ dst.data.length then
    ofData dst.shape (src.data ++ dst.data.drop src.data.length)
  else none

def InsnBlock.runBinary (block : InsnBlock) (f : Tensor α → Tensor α → Option (Tensor α))
    (xs : List (Tensor α)) : Option (List (Tensor α)) :=
  match block.inputs with
  | a :: b :: _ =>
    match xs[block.output]? with
    | none => some xs
    | some dst => do
      let va ← xs[a]?
      let vb ← xs[b]?
      let result ← f va vb
      let dst ← dst.overwrite result
      return xs.set block.output dst
  | _ => some xs

section Run

variable (P : Prims α) (softmaxInplace : Tensor α → Tensor α)

/-- `xs` are the data of the variables; `current` is the first input of the block. -/
def InsnBlock.runOp (block : InsnBlock) (current : ℕ) (xs : List (Tensor α)) :
    PrimOp → Option (List (Tensor α))
  | .relu => xs[current]?.map fun x => xs.set current (P.relu x)
  | .softmax => xs[current]?.map fun x => xs.set current (softmaxInplace x)
  | .add => block.runBinary P.add xs
  | .matMul => block.runBinary P.matmul xs
  | _ => some xs

/-- The blocks one after the other. The first result is the value of the call: `last`, or nothing
if a block with operations has no inputs, which ends the run. -/
def runBlocks (last : Option ℕ) : List InsnBlock → List (Tensor α) →
    Option (Option ℕ × List (Tensor α))
  | [], xs => some (last, xs)
  | block :: blocks, xs =>
    if block.ops = [] then runBlocks last blocks xs
    else
      match block.inputs with
      | [] => some (none, xs)
      | current :: _ => do
        let xs ← block.ops.foldlM (block.runOp P softmaxInplace current) xs
        runBlocks last blocks xs

/-- Without blocks there is no result. -/
def run (blocks : List InsnBlock) (xs : List (Tensor α)) : Option (Option ℕ × List (Tensor α)) :=
  runBlocks P softmaxInplace (blocks.getLast?.map (·.output)) blocks xs

def Tape.datas (tape : Tape α) : List (Tensor α) := tape.vars.map (·.data)

/-- The compiled graph runs, gives the output of the last node, and leaves in every variable what
the tape has there. -/
def Preserved (tape : Tape α) : Prop :=
  ∃ blocks, compile tape = some blocks ∧
    run P softmaxInplace blocks tape.datas = some (tape.nodes.getLast?.map (·.outputId), tape.datas)

end Run

/-! ## What a tape records -/

namespace Op

def inputs : Op β → List ℕ
  | var _ _ => []
  | add a b | mul a b | matmul a b => [a, b]
  | relu a => [a]

/-- The operation of a call; a leaf has none. -/
def prim : Op β → PrimOp
  | var _ _ => .noop
  | add _ _ => .add
  | mul _ _ => .mul
  | matmul _ _ => .matMul
  | relu _ => .relu

def isCall : Op β → Bool
  | var _ _ => false
  | _ => true

def eval (P : Prims α) (xs : List (Tensor α)) : Op (Tensor α) → Option (Tensor α)
  | var x _ => some x
  | add a b => xs[a]?.bind fun x => xs[b]?.bind (P.add x)
  | mul a b => xs[a]?.bind fun x => xs[b]?.bind (P.mul x)
  | matmul a b => xs[a]?.bind fun x => xs[b]?.bind (P.matmul x)
  | relu a => xs[a]?.map P.relu

end Op

/-- The calls that record a node, with the variables of their results. -/
def calls (ops : List (Op β)) : List (Op β × ℕ) := ops.zipIdx.filter (·.1.isCall)

theorem calls_append (ops : List (Op β)) (op : Op β) :
    calls (ops ++ [op]) = calls ops ++ if op.isCall then [(op, ops.length)] else [] := by
  rw [calls, List.zipIdx_append, List.filter_append, Nat.zero_add, List.zipIdx_singleton,
    List.filter_singleton, Bool.cond_eq_ite]
  rfl

/-- The inputs and the output of every node. -/
def Tape.links (tape : Tape α) : List (List ℕ × ℕ) :=
  tape.nodes.map fun node => (node.inputIds, node.outputId)

section Record

variable {P : Prims α}

theorem Tape.exec_eq [Zero α] (tape : Tape α) (op : Op (Tensor α)) :
    (tape.exec P op).map (fun t => (t.datas, t.links)) = (op.eval P tape.datas).map fun z =>
      (tape.datas ++ [z], tape.links ++ if op.isCall then [(op.inputs, tape.datas.length)] else []) := by
  have hget : ∀ a, tape.datas[a]? = tape.vars[a]?.map Variable.data := fun a => List.getElem?_map
  have hlen : tape.datas.length = tape.vars.length := List.length_map _
  have hpush : ∀ (z : Tensor α) rg gradFn inputs, ((tape.push z rg gradFn inputs).datas,
      (tape.push z rg gradFn inputs).links) =
      (tape.datas ++ [z], tape.links ++ [(inputs, tape.datas.length)]) := fun z rg gradFn inputs => by
    simp [Tape.push, Tape.datas, Tape.links]
  have hbinary : ∀ (f : Tensor α → Tensor α → Option (Tensor α)) gradFn a b,
      (tape.binary f gradFn a b).map (fun t => (t.datas, t.links)) =
      (tape.datas[a]?.bind fun x => tape.datas[b]?.bind (f x)).map fun z =>
        (tape.datas ++ [z], tape.links ++ [([a, b], tape.datas.length)]) := fun f gradFn a b => by
    unfold binary
    rw [hget, hget]
    cases tape.vars[a]? with
    | none => rfl
    | some va =>
      cases tape.vars[b]? with
      | none => rfl
      | some vb =>
        cases hz : f va.data vb.data with
        | none => simp [hz]
        | some z => simp [hz, hpush]
  cases op with
  | var x rg => simp [exec, Op.eval, Op.isCall, Tape.var, Tape.datas, Tape.links]
  | add a b => exact hbinary P.add _ a b
  | mul a b => exact hbinary P.mul _ a b
  | matmul a b => exact hbinary P.matmul _ a b
  | relu a =>
    show (tape.relu P a).map _ = _
    unfold Tape.relu
    rw [Op.eval, hget]
    cases tape.vars[a]? with
    | none => rfl
    | some va => simp [hpush, Op.isCall, Op.inputs]

theorem Op.lt_of_eval {op : Op (Tensor α)} {xs : List (Tensor α)} {z : Tensor α}
    (h : op.eval P xs = some z) : ∀ a ∈ op.inputs, a < xs.length := by
  intro a ha
  by_contra hlt
  have hnone : xs[a]? = none := List.getElem?_eq_none (by omega)
  cases op with
  | var x rg => cases ha
  | add b c | mul b c | matmul b c =>
    simp only [Op.inputs, List.mem_cons, List.not_mem_nil, or_false] at ha
    rcases ha with rfl | rfl <;> simp [Op.eval, hnone] at h
  | relu b =>
    obtain rfl := List.mem_singleton.mp ha
    simp [Op.eval, hnone] at h

theorem Op.eval_append {op : Op (Tensor α)} {xs : List (Tensor α)} {z : Tensor α}
    (h : op.eval P xs = some z) (ys : List (Tensor α)) : op.eval P (xs ++ ys) = some z := by
  have hlt := Op.lt_of_eval h
  rw [← h]
  cases op with
  | var x rg => rfl
  | add a b | mul a b | matmul a b =>
    simp only [Op.eval, List.getElem?_append_left (hlt a (by simp [Op.inputs])),
      List.getElem?_append_left (hlt b (by simp [Op.inputs]))]
  | relu a => simp only [Op.eval, List.getElem?_append_left (hlt a (by simp [Op.inputs]))]

/-- The nodes of a tape are its calls, and every variable holds the value of its call. -/
theorem exists_of_exec [Zero α] {ops : List (Op (Tensor α))} {tape : Tape α}
    (h : ops.foldlM (Tape.exec P) Tape.new = some tape) :
    tape.datas.length = ops.length ∧ tape.links = (calls ops).map (fun x => (x.1.inputs, x.2)) ∧
      ∀ x ∈ calls ops, ∃ z, tape.datas[x.2]? = some z ∧ x.1.eval P tape.datas = some z := by
  induction ops using List.reverseRecOn generalizing tape with
  | nil =>
    obtain rfl := Option.some.inj h
    exact ⟨rfl, rfl, fun x hx => absurd hx List.not_mem_nil⟩
  | append_singleton ops op ih =>
    rw [List.foldlM_append] at h
    obtain ⟨init, hinit, h⟩ := Option.bind_eq_some_iff.mp h
    rw [List.foldlM_cons] at h
    obtain ⟨last, hlast, h⟩ := Option.bind_eq_some_iff.mp h
    obtain rfl := Option.some.inj h
    obtain ⟨hlen, hlinks, heval⟩ := ih hinit
    have hview := init.exec_eq (P := P) op
    rw [hlast, Option.map_some, eq_comm, Option.map_eq_some_iff] at hview
    obtain ⟨z, hz, hview⟩ := hview
    obtain ⟨hdatas, hlinks'⟩ := Prod.mk.injEq .. ▸ hview
    rw [← hdatas, ← hlinks', calls_append, hlinks, hlen]
    refine ⟨by simp [hlen], ?_, fun x hx => ?_⟩
    · rw [List.map_append]
      cases op.isCall <;> rfl
    · rcases List.mem_append.mp hx with hx | hx
      · obtain ⟨y, hy, hxy⟩ := heval x hx
        exact ⟨y, by rw [List.getElem?_append_left (List.getElem?_eq_some_iff.mp hy).1, hy],
          Op.eval_append hxy _⟩
      · split_ifs at hx
        · obtain rfl := List.mem_singleton.mp hx
          exact ⟨z, hlen ▸ List.getElem?_concat_length, Op.eval_append hz _⟩
        · cases hx

end Record

/-! ## Which graphs are translated -/

/-- The compiler guesses the call: a sum of equal shapes, or a matrix product of different ones. -/
def Op.Direct (ss : List (List ℕ)) : Op β → Prop
  | add a b => ss[a]? = ss[b]?
  | matmul a b => ss[a]? ≠ ss[b]?
  | _ => False

/-- The sum `y` takes the result of the call before it: first, or at all if that is a matrix
product. -/
def Takes (x y : Op β × ℕ) : Prop :=
  match y.1 with
  | .add a b => a = x.2 ∨ x.1.prim = .matMul ∧ b = x.2
  | _ => False

def Faithful (ss : List (List ℕ)) (graph : List (Op β)) : Prop :=
  (∀ x ∈ calls graph, x.1.Direct ss) ∧ (calls graph).IsChain fun x y => ¬ Takes x y

def callNode (x : Op β × ℕ) : OpNode := ⟨x.1.prim, x.1.inputs, x.2⟩

theorem Op.Direct.guess {op : Op β} {ss : List (List ℕ)} (h : op.Direct ss)
    (hlt : ∀ a ∈ op.inputs, a < ss.length) : guess ss op.inputs = some op.prim := by
  cases op with
  | var | mul | relu => cases h
  | add a b | matmul a b =>
    have ha := List.getElem?_eq_getElem (hlt a (by simp [Op.inputs]))
    have hb := List.getElem?_eq_getElem (hlt b (by simp [Op.inputs]))
    simp only [Op.Direct, ha, hb, ne_eq, Option.some.injEq] at h
    simp [Op.inputs, Op.prim, Ane.guess, ha, hb, h]

theorem compile_eq {tape : Tape α} {cs : List (Op β × ℕ)}
    (hlinks : tape.links = cs.map fun x => (x.1.inputs, x.2))
    (hguess : ∀ x ∈ cs, guess (shapes tape.vars) x.1.inputs = some x.1.prim) :
    compile tape = some (fuse [] (cs.map callNode)) := by
  suffices h : tape.nodes.mapM (opNode (shapes tape.vars)) = some (cs.map callNode) by
    rw [compile, h]
    rfl
  unfold Tape.links at hlinks
  generalize tape.nodes = nodes at hlinks
  induction cs generalizing nodes with
  | nil =>
    obtain rfl := List.map_eq_nil_iff.mp hlinks
    rfl
  | cons x cs ih =>
    obtain ⟨node, nodes, rfl, hnode, hrest⟩ := List.map_eq_cons_iff.mp hlinks
    obtain ⟨hinputs, houtput⟩ := Prod.mk.injEq .. ▸ hnode
    have hfirst : opNode (shapes tape.vars) node = some (callNode x) := by
      unfold opNode
      rw [hinputs, hguess x List.mem_cons_self, houtput]
      rfl
    rw [List.mapM_cons, hfirst, ih (fun y hy => hguess y (List.mem_cons_of_mem x hy)) nodes hrest]
    rfl

/-! ## Fusing -/

section Fuse

/-- The node joins a block with that output. -/
def Joins (output : ℕ) (node : OpNode) : Prop :=
  (node.op = .relu ∨ node.op = .add) ∧ output = node.inputs.headD (2 ^ 64 - 1)

/-- The two nodes become one block at once. -/
def IsLinear (node next : OpNode) : Prop :=
  node.op = .matMul ∧ next.op = .add ∧ node.output ∈ next.inputs

variable {blocks : List InsnBlock} {node next : OpNode} {nodes : List OpNode}

theorem fuse_of_not_linear (h : ¬ IsLinear node next) : fuse blocks (node :: next :: nodes) =
    fuse (place blocks node) (next :: nodes) := by
  rw [fuse]
  exact if_neg h

theorem place_eq (h : ∀ last ∈ blocks.getLast?, ¬ Joins last.output node) :
    place blocks node = blocks ++ [node.block] := by
  unfold place
  cases hlast : blocks.getLast? with
  | none => rfl
  | some last => exact if_neg (h last hlast)

def Fusable (node next : OpNode) : Prop := IsLinear node next ∨ Joins node.output next

theorem fuse_eq (hchain : nodes.IsChain fun x y => ¬ Fusable x y)
    (hlast : ∀ last ∈ blocks.getLast?, ∀ node ∈ nodes.head?, ¬ Joins last.output node) :
    fuse blocks nodes = blocks ++ nodes.map OpNode.block := by
  induction blocks, nodes using fuse.induct with
  | case1 blocks => rw [fuse]; simp
  | case2 blocks node =>
    rw [fuse]
    exact place_eq fun last h => hlast last h node rfl
  | case3 blocks node next rest h ih =>
    exact absurd (Or.inl h) (List.isChain_cons_cons.mp hchain).1
  | case4 blocks node next rest h ih =>
    obtain ⟨hnext, hchain⟩ := List.isChain_cons_cons.mp hchain
    have hplace := place_eq fun last h => hlast last h node rfl
    rw [hplace] at ih
    have hlast : ∀ last ∈ (blocks ++ [node.block]).getLast?, ∀ x ∈ (next :: rest).head?,
        ¬ Joins last.output x := by
      intro last hmem x hx
      rw [List.getLast?_concat] at hmem
      obtain rfl := Option.some.inj hmem
      obtain rfl := Option.some.inj hx
      exact fun hjoins => hnext (Or.inr hjoins)
    rw [fuse_of_not_linear h, hplace, ih hchain hlast, List.append_assoc]
    rfl

end Fuse

/-! ## Faithful graphs -/

section Translated

variable {P : Prims α} {softmaxInplace : Tensor α → Tensor α}

theorem Tensor.overwrite_self (x : Tensor α) : x.overwrite x = some x := by
  rw [overwrite, if_pos le_rfl, List.drop_length, List.append_nil, ofData,
    dif_pos ⟨x.length_data, x.fits⟩]

theorem InsnBlock.runBinary_eq {block : InsnBlock} {f : Tensor α → Tensor α → Option (Tensor α)}
    {xs : List (Tensor α)} {a b : ℕ} {z : Tensor α} (hinputs : block.inputs = [a, b])
    (hz : xs[block.output]? = some z) (h : (xs[a]?.bind fun x => xs[b]?.bind (f x)) = some z) :
    block.runBinary f xs = some xs := by
  obtain ⟨x, hx, h⟩ := Option.bind_eq_some_iff.mp h
  obtain ⟨y, hy, h⟩ := Option.bind_eq_some_iff.mp h
  obtain ⟨hlt, rfl⟩ := List.getElem?_eq_some_iff.mp hz
  unfold runBinary
  rw [hinputs]
  simp [hz, hx, hy, h, Tensor.overwrite_self]

theorem runBlocks_eq {blocks : List InsnBlock} {xs : List (Tensor α)} (last : Option ℕ)
    (h : ∀ block ∈ blocks, ∃ op current rest, block.ops = [op] ∧ block.inputs = current :: rest ∧
      block.runOp P softmaxInplace current xs op = some xs) :
    runBlocks P softmaxInplace last blocks xs = some (last, xs) := by
  induction blocks with
  | nil => rfl
  | cons block blocks ih =>
    obtain ⟨op, current, rest, hops, hinputs, hrun⟩ := h block List.mem_cons_self
    rw [runBlocks, hops, hinputs]
    simp [hrun, ih fun x hx => h x (List.mem_cons_of_mem block hx)]

/-- A call that is guessed computes again what its variable holds. -/
theorem Op.Direct.runOp {op : Op (Tensor α)} {ss : List (List ℕ)} (h : op.Direct ss) {i : ℕ}
    {xs : List (Tensor α)} {z : Tensor α} (hz : xs[i]? = some z) (heval : op.eval P xs = some z) :
    ∃ a b, op.inputs = [a, b] ∧
      (callNode (op, i)).block.runOp P softmaxInplace a xs op.prim = some xs := by
  cases op with
  | var | mul | relu => cases h
  | add a b =>
    refine ⟨a, b, rfl, ?_⟩
    show (callNode (Op.add a b, i)).block.runBinary P.add xs = some xs
    exact InsnBlock.runBinary_eq rfl hz heval
  | matmul a b =>
    refine ⟨a, b, rfl, ?_⟩
    show (callNode (Op.matmul a b, i)).block.runBinary P.matmul xs = some xs
    exact InsnBlock.runBinary_eq rfl hz heval

theorem fusable_iff {ss : List (List ℕ)} {x y : Op β × ℕ} (hy : y.1.Direct ss) :
    Fusable (callNode x) (callNode y) ↔ Takes x y := by
  obtain ⟨op, i⟩ := y
  cases op with
  | var | mul | relu => cases hy
  | matmul a b => simp [Fusable, IsLinear, Joins, callNode, Op.prim, Takes]
  | add a b =>
    simp only [Fusable, IsLinear, Joins, callNode, Takes, Op.prim, Op.inputs, List.headD_cons,
      List.mem_cons, List.not_mem_nil, or_false, true_and, or_true]
    constructor
    · rintro (⟨h, rfl | rfl⟩ | rfl)
      · exact Or.inl rfl
      · exact Or.inr ⟨h, rfl⟩
      · exact Or.inl rfl
    · rintro (rfl | ⟨h, rfl⟩)
      · exact Or.inr rfl
      · exact Or.inl ⟨h, Or.inr rfl⟩

/-- A tape is left as it is: the compiler guesses every call of its graph and puts no two of them
together. -/
theorem preserved_of_faithful [Zero α] {ops : List (Op (Tensor α))} {tape : Tape α}
    (htape : ops.foldlM (Tape.exec P) Tape.new = some tape) (h : Faithful (shapes tape.vars) ops) :
    Preserved P softmaxInplace tape := by
  obtain ⟨-, hlinks, heval⟩ := exists_of_exec htape
  obtain ⟨hdirect, hchain⟩ := h
  have hlen : tape.datas.length = (shapes tape.vars).length := by
    rw [Tape.datas, shapes, List.length_map, List.length_map]
  have hguess : ∀ x ∈ calls ops, guess (shapes tape.vars) x.1.inputs = some x.1.prim := by
    intro x hx
    obtain ⟨z, -, hz⟩ := heval x hx
    exact (hdirect x hx).guess (hlen ▸ Op.lt_of_eval hz)
  have hnodes : ((calls ops).map callNode).IsChain fun x y => ¬ Fusable x y := by
    rw [List.isChain_map, List.isChain_iff_getElem]
    intro i hi
    exact fun hfus => List.isChain_iff_getElem.mp hchain i hi
      ((fusable_iff (hdirect _ (List.getElem_mem _))).mp hfus)
  have hlast : tape.nodes.getLast?.map (·.outputId) = (calls ops).getLast?.map (·.2) := by
    have hlast := congrArg (fun l => l.getLast?.map (·.2)) hlinks
    simp only [Tape.links, List.getLast?_map, Option.map_map] at hlast
    exact hlast
  refine ⟨_, compile_eq hlinks hguess, ?_⟩
  have hfuse : fuse [] ((calls ops).map callNode) = [] ++ _ := fuse_eq hnodes fun _ h => by cases h
  rw [hfuse, List.nil_append, run, hlast, List.getLast?_map, List.getLast?_map, Option.map_map,
    Option.map_map]
  refine runBlocks_eq _ fun block hblock => ?_
  rw [List.map_map, List.mem_map] at hblock
  obtain ⟨x, hx, rfl⟩ := hblock
  obtain ⟨z, hz, hxz⟩ := heval x hx
  obtain ⟨a, b, hinputs, hrun⟩ := (hdirect x hx).runOp hz hxz
  exact ⟨_, a, [b], rfl, hinputs, hrun⟩

end Translated

def vectorSum : List (Op (Tensor ℤ)) :=
  [.var ⟨[2], [1, 2], rfl, by decide⟩ true, .var ⟨[2], [3, 4], rfl, by decide⟩ true, .add 0 1]

theorem preserved_of_faithful_sum : ∃ tape,
    vectorSum.foldlM (Tape.exec (prims fun x => decide (0 < x))) Tape.new = some tape ∧
      tape.nodes ≠ [] ∧ Preserved (prims fun x => decide (0 < x)) id tape :=
  ⟨_, rfl, List.cons_ne_nil _ _,
    preserved_of_faithful (show vectorSum.foldlM _ _ = _ from rfl)
      ⟨List.forall_mem_singleton.mpr rfl, List.isChain_singleton _⟩⟩

/-- Of a product of vectors the compiler makes a sum. -/
theorem compile_mul_as_add : ∃ tape : Tape ℤ,
    [.var ⟨[1], [2], rfl, by decide⟩ true, .var ⟨[1], [3], rfl, by decide⟩ true, .mul 0 1].foldlM
      (Tape.exec (prims fun x => decide (0 < x))) Tape.new = some tape ∧
    tape.datas.map (·.data) = [[2], [3], [6]] ∧
    ∃ blocks result xs, compile tape = some blocks ∧
      run (prims fun x => decide (0 < x)) id blocks tape.datas = some (result, xs) ∧
      xs.map (·.data) = [[2], [3], [5]] :=
  ⟨_, rfl, rfl, _, _, _, rfl, rfl, rfl⟩

end Aeterna.Ane
