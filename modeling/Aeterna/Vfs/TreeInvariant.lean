import Aeterna.Lib.Run
import Aeterna.Vfs.Rename

/-!
# When the tree stays a tree

No call of the RamFS checks all that keeps its map a tree: `writeFile` replaces any node by a file,
also `/` or a directory with contents; the parents that are made may lie below a file; inner empty
components of a path are kept; and `rename` overwrites what it meets.

`Keeps` is the condition on one call, in the tree before it, under which it leaves a tree behind. It
is exact: from `init`, the map is a tree in every state of a run exactly when every call of the run
meets it (`always_wellFormed_iff`).
-/

namespace Aeterna.Vfs

variable {tree : Tree}

/-- The call leaves a tree behind. -/
def Keeps (tree : Tree) : Op → Prop
  | .writeFile path _ => FileFits tree (normalize path)
  | .writeAt path _ _ | .touch path => normalize path ∈ tree ∨ FileFits tree (normalize path)
  | .appendFile path _ =>
    (∃ data, tree[normalize path]? = some (.file data)) ∨ FileFits tree (normalize path)
  | .mkdir path => normalize path ∈ tree ∨ DirFits tree (normalize path)
  | .remove _ => True
  | .rename src dst =>
    normalize src = normalize dst ∨ normalize src ∉ tree ∨
      normalize src ≠ rootPath ∧
        if normalize dst = rootPath then
          tree[normalize src]? = some .dir ∧ ∀ k ∈ tree, ¬ Above (normalize src) k
        else MoveFits tree (normalize src) (normalize dst)

theorem wellFormed_writeAt_iff (h : WellFormed tree) (path : Path) (offset : ℕ) (data : Data) :
    WellFormed (writeAt tree path offset data).1 ↔
      normalize path ∈ tree ∨ FileFits tree (normalize path) := by
  unfold writeAt
  dsimp only
  cases hp : tree[normalize path]? with
  | none =>
    have hmem : normalize path ∉ tree := by rw [mem_iff, hp]; simp
    rw [or_iff_right hmem]
    exact wellFormed_insertFile_iff h _ _
  | some node =>
    have hmem : normalize path ∈ tree := by rw [mem_iff, hp]; simp
    cases node with
    | file existing => exact iff_of_true (wellFormed_insert_of_file h hp _) (Or.inl hmem)
    | dir => exact iff_of_true h (Or.inl hmem)

theorem wellFormed_appendFile_iff (h : WellFormed tree) (path : Path) (data : Data) :
    WellFormed (appendFile tree path data).1 ↔
      (∃ data, tree[normalize path]? = some (.file data)) ∨ FileFits tree (normalize path) := by
  unfold appendFile
  dsimp only
  cases hp : tree[normalize path]? with
  | none =>
    rw [or_iff_right (by simp)]
    exact wellFormed_insertFile_iff h _ _
  | some node =>
    cases node with
    | file existing =>
      exact iff_of_true (wellFormed_insert_of_file h hp _) (Or.inl ⟨existing, rfl⟩)
    | dir =>
      rw [or_iff_right (by simp)]
      exact wellFormed_insertFile_iff h _ _

theorem wellFormed_touch_iff (h : WellFormed tree) (path : Path) :
    WellFormed (touch tree path).1 ↔
      normalize path ∈ tree ∨ FileFits tree (normalize path) := by
  unfold touch
  dsimp only
  split_ifs with hmem
  · exact iff_of_true h (Or.inl hmem)
  · rw [or_iff_right hmem]
    exact wellFormed_insertFile_iff h _ _

theorem wellFormed_rename_iff (h : WellFormed tree) (src dst : Path) :
    WellFormed (rename tree src dst).1 ↔ Keeps tree (.rename src dst) := by
  unfold rename Keeps
  dsimp only
  by_cases heq : normalize src = normalize dst
  · rw [if_pos heq]
    exact iff_of_true h (Or.inl heq)
  by_cases hmem : normalize src ∈ tree
  · rw [if_neg heq, if_neg (not_not.mpr hmem), or_iff_right heq, or_iff_right (not_not.mpr hmem)]
    by_cases hs : normalize src = rootPath
    · rw [hs] at heq ⊢
      exact iff_of_false (not_wellFormed_moveTree_root h (Ne.symm heq)) fun hk => hk.1 rfl
    rw [and_iff_right hs]
    split_ifs with hd
    · rw [hd]
      exact wellFormed_moveTree_onto_root_iff h hmem hs
    · exact wellFormed_moveTree_iff h hmem hs hd
  · rw [if_neg heq, if_pos hmem]
    exact iff_of_true h (Or.inr (Or.inl hmem))

theorem wellFormed_step_iff (h : WellFormed tree) (op : Op) :
    WellFormed (step tree op) ↔ Keeps tree op := by
  cases op with
  | writeFile path data => exact wellFormed_insertFile_iff h _ data
  | writeAt path offset data => exact wellFormed_writeAt_iff h path offset data
  | appendFile path data => exact wellFormed_appendFile_iff h path data
  | touch path => exact wellFormed_touch_iff h path
  | mkdir path => exact wellFormed_mkdirInternal_iff h (normalize_ne_nil path)
  | remove path => exact iff_of_true (wellFormed_remove h path) trivial
  | rename src dst => exact wellFormed_rename_iff h src dst

theorem wellFormed_init : WellFormed init := by decide +kernel

/-- **The tree invariant.** From `init` the map is a tree in every state of a run exactly when
every call of the run meets `Keeps` in the tree before it. -/
theorem always_wellFormed_iff (ops : List Op) :
    Lib.Always step WellFormed init ops ↔ Lib.EachStep step Keeps init ops :=
  Lib.always_iff_eachStep wellFormed_init fun _ op h => wellFormed_step_iff h op

/-- One `writeFile` to `/` turns the root into a file. -/
theorem not_wellFormed_writeRoot :
    ¬ Lib.Always step WellFormed init [.writeFile "/".toList []] := by
  decide +kernel

end Aeterna.Vfs
