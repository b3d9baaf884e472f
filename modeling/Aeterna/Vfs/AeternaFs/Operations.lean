import Aeterna.Lib.Run
import Aeterna.Vfs.AeternaFs.Directory

/-!
# The operations of AeternaFS

The file system calls of `vfs/aeternafs.rs`, each with the answer it gives its caller, and the
formatting and mounting of a partition. `step` is one call.
-/

namespace Aeterna.Vfs.AeternaFs

open Lib.Bytes Lib.Buffer

/-- The loop of `read_file` over the blocks of a file of `size` bytes. -/
def readChunks (block : ℕ → Data) (ss size : ℕ) : List ℕ → Data → Data
  | [], result => result
  | blk :: blks, result =>
    let remaining := size - result.length
    let result := result ++ (block blk).take (min remaining ss)
    if result.length ≥ size then result else readChunks block ss size blks result

namespace State

variable {g : SectorSize}

/-! ## Files -/

def flushSuperblock (st : State g) : State g :=
  let sb := splice (st.readLba 0) 60 (leBytes 4 st.freeInodes)
  st.writeLba 0 (splice sb 68 (leBytes 4 st.freeBlocks))

/-- Frees the blocks that the pointers name; a pointer that is 0 names none. -/
def releaseBlocks (st : State g) (pointers : List UInt32) : State g :=
  pointers.foldl (fun st blk => if blk != 0 then st.freeBlock blk.toNat else st) st

def readFile (st : State g) (path : Path) : Option Data :=
  if !st.ready then none
  else do
    let ino ← st.lookupPath path
    let inode ← st.readInodeRaw ino
    if !inode.isReg then none
    else some (readChunks st.readBlock g.bytes inode.size.toNat inode.liveBlocks [])

def «exists» (st : State g) (path : Path) : Bool := st.ready && (st.lookupPath path).isSome

/-- The loop of `write_file` over the pointers of the inode, with what is left of the data. -/
def writeChunks : List (Fin 8) → State g → Inode → Data → Option Inode × State g
  | [], st, inode, _ => (some inode, st)
  | k :: ks, st, inode, rest =>
    if rest = [] then (some inode, st)
    else match st.allocBlock with
      | (none, st) => (none, st)
      | (some newBlk, st) =>
        writeChunks ks (st.writeBlock newBlk (rest.take g.bytes))
          (inode.setDirect k (UInt32.ofNat newBlk)) (rest.drop g.bytes)

/-- Empties the file that is to be written. -/
def truncate (st : State g) (ino : ℕ) : State g :=
  match st.readInodeRaw ino with
  | none => st
  | some inode =>
    if inode.isReg then
      let st := st.releaseBlocks inode.direct.toList
      (st.writeInodeRaw ino { inode with direct := Vector.replicate 8 0, size := 0 }).2
    else st

/-- Makes an empty file in the directory of the path. -/
def createFile (st : State g) (parentPath filename : Path) : Option ℕ × State g :=
  match st.lookupPath parentPath with
  | none => (none, st)
  | some parentIno =>
    match st.allocInode with
    | (none, st) => (none, st)
    | (some newIno, st) =>
      match st.writeInodeRaw newIno (.empty modeReg 1) with
      | (false, st) => (none, st)
      | (true, st) =>
        match st.dirAddEntry parentIno filename newIno with
        | (false, st) => (none, st)
        | (true, st) => (some newIno, st)

/-- Writes the data of a file whose inode is found. -/
def writeData (st : State g) (ino : ℕ) (data : Data) : Bool × State g :=
  match st.readInodeRaw ino with
  | none => (false, st)
  | some inode =>
    match writeChunks (List.finRange 8) st inode data with
    | (none, st) => (false, st)
    | (some inode, st) =>
      let st := (st.writeInodeRaw ino { inode with size := UInt64.ofNat data.length }).2
      (true, st.flushSuperblock)

def writeFile (st : State g) (path : Path) (data : Data) : Bool × State g :=
  if !st.ready then (false, st)
  else
    let (parentPath, filename) := splitPath path
    match st.lookupPath path with
    | some ino => (st.truncate ino).writeData ino data
    | none =>
      match st.createFile parentPath filename with
      | (none, st) => (false, st)
      | (some newIno, st) => st.writeData newIno data

def appendFile (st : State g) (path : Path) (data : Data) : Bool × State g :=
  st.writeFile path ((st.readFile path).getD [] ++ data)

def writeAt (st : State g) (path : Path) (offset : ℕ) (data : Data) : Bool × State g :=
  let content := (st.readFile path).getD []
  let content := content ++ List.replicate (offset + data.length - content.length) 0
  st.writeFile path (splice content offset data)

def touch (st : State g) (path : Path) : Bool × State g :=
  if st.exists path then (true, st) else st.writeFile path []

/-! ## Directories -/

def mkdirAt (st : State g) (path : Path) (parentIno : ℕ) (dirname : Path) : Bool × State g :=
  if (st.lookupPath path).isSome then (true, st)
  else match st.allocInode with
    | (none, st) => (false, st)
    | (some newIno, st) =>
      match st.writeInodeRaw newIno (.empty modeDir 2) with
      | (false, st) => (false, st)
      | (true, st) =>
        let st := (st.dirAddEntry newIno ['.'] newIno).2
        let st := (st.dirAddEntry newIno ['.', '.'] parentIno).2
        let st := (st.dirAddEntry parentIno dirname newIno).2
        (true, st.flushSuperblock)

theorem lookupPath_root (st : State g) : st.lookupPath rootPath = some inodeRoot := by
  rw [lookupPath_eq, names_root]
  rfl

theorem length_parent_lt {st : State g} {path : Path}
    (h : st.lookupPath (splitPath path).1 = none) : (splitPath path).1.length < path.length := by
  have hroot : (splitPath path).1 ≠ rootPath := by
    intro hroot
    rw [hroot, lookupPath_root] at h
    exact Option.some_ne_none _ h
  rcases names_splitPath path with ⟨hsplit, -⟩ | ⟨-, -, hlen⟩
  · exact absurd (congrArg Prod.fst hsplit) hroot
  · exact hlen.resolve_left hroot

/-- Makes a directory, and those above it that are missing. -/
def mkdir (st : State g) (path : Path) : Bool × State g :=
  if !st.ready then (false, st)
  else if (splitPath path).2 = [] then (true, st)
  else match h : st.lookupPath (splitPath path).1 with
    | some parentIno => st.mkdirAt path parentIno (splitPath path).2
    | none =>
      have := length_parent_lt h
      match st.mkdir (splitPath path).1 with
      | (false, st) => (false, st)
      | (true, st) =>
        match st.lookupPath (splitPath path).1 with
        | none => (false, st)
        | some parentIno => st.mkdirAt path parentIno (splitPath path).2
termination_by path.length

theorem mkdir_of_root {st : State g} {path : Path} (hname : (splitPath path).2 = []) :
    (st.mkdir path).2 = st := by
  rw [mkdir]
  split_ifs <;> rfl

theorem mkdir_of_parent {st : State g} {path : Path} {parent : ℕ} (hready : st.ready = true)
    (hname : (splitPath path).2 ≠ []) (hparent : st.lookupPath (splitPath path).1 = some parent) :
    st.mkdir path = st.mkdirAt path parent (splitPath path).2 := by
  rw [mkdir, if_neg (by rw [hready]; decide), if_neg hname]
  split
  · rename_i found hfound
    rw [Option.some.inj (hparent.symm.trans hfound)]
  · rename_i hnone
    rw [hparent] at hnone
    exact absurd hnone (Option.some_ne_none parent)

/-- What the making of each directory on the way keeps, `mkdir` keeps. -/
theorem mkdir_rule {P : State g → Prop}
    (hstep : ∀ st path parent, P st → st.lookupPath (splitPath path).1 = some parent →
      (splitPath path).2 ≠ [] → P (st.mkdirAt path parent (splitPath path).2).2)
    {st : State g} (h : P st) (path : Path) : P (st.mkdir path).2 := by
  fun_induction mkdir st path with
  | case1 => exact h
  | case2 => exact h
  | case3 path _ hname parent hparent => exact hstep st path parent h hparent hname
  | case4 path _ _ _ _ st' hmkdir ih =>
    rw [hmkdir] at ih
    exact ih
  | case5 path _ _ _ _ st' hmkdir _ ih =>
    rw [hmkdir] at ih
    exact ih
  | case6 path _ hname _ _ st' hmkdir parent hparent ih =>
    rw [hmkdir] at ih
    exact hstep st' path parent ih hparent hname

def remove (st : State g) (path : Path) : Bool × State g :=
  if !st.ready then (false, st)
  else match st.lookupPath path with
    | none => (false, st)
    | some ino =>
      match st.readInodeRaw ino with
      | none => (false, st)
      | some inode =>
        let st := st.releaseBlocks inode.direct.toList
        let st := (st.writeInodeRaw ino
          { inode with direct := Vector.replicate 8 0, mode := modeFree }).2
        let st := st.freeInode ino
        let (parentPath, filename) := splitPath path
        let st := match st.lookupPath parentPath with
          | some parentIno => (st.dirRemoveEntry parentIno filename).2
          | none => st
        (true, st.flushSuperblock)

/-! ## Formatting and mounting -/

/-- The state of an instance over a disk, before it is mounted. -/
def new (disk : Device g.bytes) : State g where
  disk := disk
  ready := false
  totalBlocks := 0
  freeBlocks := 0
  totalInodes := maxInodes
  freeInodes := maxInodes - 2

end State

def aeternaMagic : ℕ := 0x5346544541450100
def aeternaVersion : ℕ := 1

namespace State

variable {g : SectorSize}

def zeroSectors (st : State g) (first count : ℕ) : State g :=
  (List.range count).foldl (fun st i => st.writeLba (first + i) (List.replicate g.bytes 0)) st

def superblock (st : State g) (partSectors : UInt64) (label : Path) : Data :=
  leBytes 8 aeternaMagic ++ (leBytes 4 aeternaVersion ++ (leBytes 4 0 ++
    (leBytes 8 partSectors.toNat ++ (leBytes 8 inodeBmapLba ++ (leBytes 8 blockBmapLba ++
      (leBytes 8 inodeTblLba ++ (leBytes 8 dataStartLba ++ (leBytes 4 maxInodes ++
        (leBytes 4 st.freeInodes ++ (leBytes 4 st.totalBlocks ++ (leBytes 4 st.freeBlocks ++
          (pathBytes label).take 63)))))))))))

/-- The first steps of `mkfs`: the superblock, the bitmaps and the inode table. -/
def layOut (disk : Device g.bytes) (partSectors : UInt64) (label : Path) : State g :=
  let dataBlocks := (partSectors.toNat - dataStartLba) % 2 ^ 32
  let totalBlocks := min dataBlocks maxBlocks
  let st : State g := { new disk with totalBlocks := totalBlocks, freeBlocks := totalBlocks }
  let st := st.writeLba 0 (st.superblock partSectors label)
  let st := st.writeLba inodeBmapLba
    (bitmapSet (bitmapSet (List.replicate g.bytes 0) 0 true) 1 true)
  let st := st.zeroSectors blockBmapLba 8
  st.zeroSectors inodeTblLba 64

def mkfs (disk : Device g.bytes) (partSectors : UInt64) (label : Path) : Bool × Device g.bytes :=
  match (layOut disk partSectors label).allocBlock with
  | (none, st) => (false, st.disk)
  | (some rootBlk, st) =>
    let rootInode := { Inode.empty modeDir 2 with
      size := UInt64.ofNat g.bytes
      direct := (Vector.replicate 8 0).set 0 (UInt32.ofNat rootBlk) }
    match st.writeInodeRaw inodeRoot rootInode with
    | (false, st) => (false, st.disk)
    | (true, st) =>
      let block := splice (List.replicate g.bytes 0) 0 (leBytes 4 inodeRoot ++ [0x2E])
      let block := splice block 32 (leBytes 4 inodeRoot ++ [0x2E, 0x2E])
      (true, (st.writeBlock rootBlk block).disk)

/-- Mounts a partition that has a superblock. -/
def mount (st : State g) (disk : Device g.bytes) : Bool × State g :=
  let st := { st with disk := disk }
  let sb := st.readLba 0
  if leValue (slice sb 0 8) = aeternaMagic then
    (true, { st with
      totalInodes := leValue (slice sb 56 4)
      freeInodes := leValue (slice sb 60 4)
      totalBlocks := leValue (slice sb 64 4)
      freeBlocks := leValue (slice sb 68 4)
      ready := true })
  else (false, st)

/-- The instance over its disk, formatted and mounted. -/
def formatted (st : State g) (partSectors : UInt64) (label : Path) : State g :=
  (st.mount (mkfs st.disk partSectors label).2).2

end State

/-! ## Runs -/

inductive Action where
  | writeFile (path : Path) (data : Data)
  | appendFile (path : Path) (data : Data)
  | writeAt (path : Path) (offset : ℕ) (data : Data)
  | touch (path : Path)
  | mkdir (path : Path)
  | remove (path : Path)

variable {g : SectorSize}

def step (st : State g) : Action → State g
  | .writeFile path data => (st.writeFile path data).2
  | .appendFile path data => (st.appendFile path data).2
  | .writeAt path offset data => (st.writeAt path offset data).2
  | .touch path => (st.touch path).2
  | .mkdir path => (st.mkdir path).2
  | .remove path => (st.remove path).2

end Aeterna.Vfs.AeternaFs
