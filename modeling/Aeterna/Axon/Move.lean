import Aeterna.Plum.Script
import Aeterna.Vfs.Calls

/-!
# Moving a file

`mv` of `userspace/axon` reads the source, writes the destination and removes the source. It looks at
no node of the destination before: a source and a destination that are the same node are lost, a
directory at the destination becomes the file, and `/dev/audio` takes the contents away
(`cmdMv_safe_iff`).
-/

namespace Aeterna.Axon

open Aeterna.Vfs (Tree Path Data RamNode normalize rootPath trimSlashes remove fileAt fileAt_eq_some
  readFile_eq fileAt_writeFile getElem?_erase getElem?_writeFile_self getElem?_writeFile_of_ne grown_ensureParent)
open Aeterna.Vfs.RootMount
open Aeterna.Plum (splitWhitespace)

/-- What the shell has for `PWD` and `HOME`. -/
structure Env where
  pwd : Option Path
  home : Option Path

def Env.resolvePath (env : Env) (path : Path) : Path :=
  if path = ['~'] then env.home.getD rootPath
  else if path.head? = some '/' then trimSlashes path
  else
    let pwd := env.pwd.getD rootPath
    let abs := if pwd.getLast? = some '/' then pwd else pwd ++ ['/']
    trimSlashes (abs ++ path)

inductive MvReport where
  | missingOperand
  | moved (src dst : Path)
  | notRemoved
  | cannotWrite (dst : Path)
  | cannotRead (src : Path)
  deriving DecidableEq

def move (env : Env) (tree : Tree) (srcText dstText : Path) : Tree × MvReport :=
  let src := env.resolvePath srcText
  let dst := env.resolvePath dstText
  match readFile tree src with
  | some data =>
    let written := writeFile tree dst data
    if written.2 then
      let removed := remove written.1 src
      (removed.1, if removed.2 then .moved srcText dstText else .notRemoved)
    else (written.1, .cannotWrite dstText)
  | none => (tree, .cannotRead srcText)

def cmdMv (env : Env) (tree : Tree) (args : List Char) : Tree × MvReport :=
  match splitWhitespace args with
  | src :: dst :: _ => move env tree src dst
  | _ => (tree, .missingOperand)

/-! ## What is kept -/

/-- All nodes are as they were, other than the source and a file at the destination. -/
def Kept (src dst : Path) (tree tree' : Tree) : Prop :=
  ∀ k node, tree[k]? = some node → k ≠ normalize src → (k = normalize dst → node = .dir) →
    tree'[k]? = some node

/-- The contents are at the destination if the command reports success, and else at the source. -/
def Safe (src dst : Path) (data : Data) (tree : Tree) (result : Tree × MvReport) : Prop :=
  match result.2 with
  | .moved _ _ => readFile result.1 dst = some data ∧ Kept src dst tree result.1
  | _ => readFile result.1 src = some data

section Move

variable {tree tree' : Tree} {path k : Path} {data : Data}

theorem remove_file (hfile : fileAt tree (normalize path) = some data)
    (hroot : normalize path ≠ rootPath) : remove tree path = (tree.erase (normalize path), true) := by
  rw [fileAt_eq_some] at hfile
  unfold remove
  dsimp only
  rw [if_neg hroot, if_neg (by simp [hfile]), Std.ExtTreeMap.contains_eq_isSome_getElem?, hfile]
  rfl

theorem remove_root (hroot : normalize path = rootPath) : remove tree path = (tree, false) := by
  unfold remove
  dsimp only
  rw [if_pos hroot]

theorem getElem?_writeFile {node : RamNode} (h : tree[k]? = some node)
    (hk : path ≠ devAudio → k ≠ normalize path) : (writeFile tree path data).1[k]? = some node := by
  unfold writeFile
  split_ifs with haudio
  · exact h
  · rw [getElem?_writeFile_of_ne tree data (hk haudio)]
    rcases grown_ensureParent tree (normalize path) k with hsame | ⟨hnone, -⟩
    · rw [hsame, h]
    · rw [h] at hnone
      cases hnone

theorem writeFile_snd : (writeFile tree path data).2 = true := by
  unfold writeFile
  split_ifs <;> rfl

theorem fileAt_erase (tree : Tree) (p k : Path) :
    fileAt (tree.erase p) k = if p = k then none else fileAt tree k := by
  unfold fileAt
  rw [getElem?_erase]
  split_ifs <;> rfl

variable {env : Env} {srcText dstText : Path} {src dst : Path}

theorem fileAt_writeFile_src (hread : fileAt tree (normalize src) = some data) :
    fileAt (writeFile tree dst data).1 (normalize src) = some data := by
  by_cases haudio : dst = devAudio
  · rwa [writeFile, if_pos haudio]
  · rw [fileAt_writeFile haudio]
    split_ifs
    · rfl
    · exact hread

theorem move_root (hread : readFile tree (env.resolvePath srcText) = some data)
    (hroot : normalize (env.resolvePath srcText) = rootPath) : move env tree srcText dstText =
      ((writeFile tree (env.resolvePath dstText) data).1, .notRemoved) := by
  unfold move
  dsimp only
  rw [hread]
  dsimp only
  rw [if_pos writeFile_snd, remove_root hroot]
  rfl

theorem move_file (hread : readFile tree (env.resolvePath srcText) = some data)
    (hroot : normalize (env.resolvePath srcText) ≠ rootPath) : move env tree srcText dstText =
      ((writeFile tree (env.resolvePath dstText) data).1.erase (normalize (env.resolvePath srcText)),
        .moved srcText dstText) := by
  unfold move
  dsimp only
  rw [hread]
  dsimp only
  rw [if_pos writeFile_snd, remove_file (fileAt_writeFile_src hread) hroot]
  rfl

theorem kept_iff (hne : normalize src ≠ normalize dst) :
    (readFile ((writeFile tree dst data).1.erase (normalize src)) dst = some data ∧
      Kept src dst tree ((writeFile tree dst data).1.erase (normalize src))) ↔
    if dst = devAudio then readFile tree dst = some data else tree[normalize dst]? ≠ some .dir := by
  have hread : readFile ((writeFile tree dst data).1.erase (normalize src)) dst =
      fileAt (writeFile tree dst data).1 (normalize dst) := by
    rw [readFile_eq, fileAt_erase, if_neg hne]
  rw [hread]
  split_ifs with haudio
  · have hsame : (writeFile tree dst data).1 = tree := by rw [writeFile, if_pos haudio]
    rw [hsame, readFile_eq]
    refine and_iff_left fun k node hk hsrc _ => ?_
    rw [getElem?_erase, if_neg (Ne.symm hsrc), hk]
  · have hdst : (writeFile tree dst data).1[normalize dst]? = some (.file data) := by
      rw [writeFile, if_neg haudio]
      exact getElem?_writeFile_self tree dst data
    rw [and_iff_right (fileAt_eq_some.mpr hdst)]
    constructor
    · intro hkept hdir
      have hstill := hkept _ _ hdir (Ne.symm hne) fun _ => rfl
      rw [getElem?_erase, if_neg hne, hdst] at hstill
      cases hstill
    · intro hdir k node hk hsrc hnode
      rw [getElem?_erase, if_neg (Ne.symm hsrc)]
      refine getElem?_writeFile hk fun _ heq => hdir ?_
      rw [← heq, hk, hnode heq]

/-- The move is safe if the source cannot be removed, being the root, or if the destination is another
node, no directory, and not the sound device. -/
theorem cmdMv_safe_iff {args : List Char} {rest : List (List Char)}
    (hargs : splitWhitespace args = srcText :: dstText :: rest)
    (hread : readFile tree (env.resolvePath srcText) = some data) :
    Safe (env.resolvePath srcText) (env.resolvePath dstText) data tree (cmdMv env tree args) ↔
      normalize (env.resolvePath srcText) = rootPath ∨
        normalize (env.resolvePath srcText) ≠ normalize (env.resolvePath dstText) ∧
        if env.resolvePath dstText = devAudio then readFile tree (env.resolvePath dstText) = some data
        else tree[normalize (env.resolvePath dstText)]? ≠ some .dir := by
  have hmove : cmdMv env tree args = move env tree srcText dstText := by
    unfold cmdMv
    rw [hargs]
  rw [hmove]
  by_cases hroot : normalize (env.resolvePath srcText) = rootPath
  · rw [move_root hread hroot]
    exact iff_of_true (fileAt_writeFile_src hread) (Or.inl hroot)
  · rw [move_file hread hroot, or_iff_right hroot]
    show (readFile _ _ = some data ∧ Kept _ _ _ _) ↔ _
    by_cases hne : normalize (env.resolvePath srcText) = normalize (env.resolvePath dstText)
    · refine iff_of_false (fun h => ?_) fun h => h.1 hne
      rw [readFile_eq, fileAt_erase, if_pos hne] at h
      cases h.1
    · rw [kept_iff hne, and_iff_right hne]

end Move

def oneFile : Tree := (∅ : Tree).insert "/a".toList (.file [1])

theorem readFile_oneFile : readFile oneFile "/a".toList = some [1] := by
  show fileAt ((∅ : Tree).insert "/a".toList (.file [1])) "/a".toList = some [1]
  rw [fileAt_eq_some, Vfs.getElem?_insert, if_pos rfl]

theorem cmdMv_safe_new :
    Safe (Env.resolvePath ⟨none, none⟩ "/a".toList) (Env.resolvePath ⟨none, none⟩ "/b".toList) [1]
      oneFile (cmdMv ⟨none, none⟩ oneFile "/a /b".toList) := by
  have hargs : splitWhitespace "/a /b".toList = ["/a".toList, "/b".toList] := by decide +kernel
  have hread : readFile oneFile (Env.resolvePath ⟨none, none⟩ "/a".toList) = some [1] :=
    readFile_oneFile
  refine (cmdMv_safe_iff hargs hread).mpr (Or.inr ⟨by decide, ?_⟩)
  rw [if_neg (by decide), oneFile, Vfs.getElem?_insert, if_neg (by decide)]
  simp

/-- Moved to itself, the file is gone. -/
theorem cmdMv_self :
    readFile oneFile "/a".toList = some [1] ∧
      (cmdMv ⟨none, none⟩ oneFile "/a /a/".toList).2 = .moved "/a".toList "/a/".toList ∧
      readFile (cmdMv ⟨none, none⟩ oneFile "/a /a/".toList).1 "/a".toList = none := by
  have hargs : splitWhitespace "/a /a/".toList = ["/a".toList, "/a/".toList] := by decide +kernel
  have hread : readFile oneFile (Env.resolvePath ⟨none, none⟩ "/a".toList) = some [1] :=
    readFile_oneFile
  have hmove : cmdMv ⟨none, none⟩ oneFile "/a /a/".toList =
      move ⟨none, none⟩ oneFile "/a".toList "/a/".toList := by
    unfold cmdMv
    rw [hargs]
  rw [hmove, move_file hread (by decide)]
  refine ⟨readFile_oneFile, rfl, ?_⟩
  rw [readFile_eq, fileAt_erase, if_pos (by decide)]

end Aeterna.Axon
