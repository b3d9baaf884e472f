import Aeterna.Lib.Buffer
import Aeterna.Vfs.DiskSync

/-!
# The on-disk layout of AeternaFS

The structures of `vfs/aeternafs.rs` on a partition that keeps what is written to it: a superblock,
an inode bitmap, a block bitmap of eight sectors, the inode table and the data blocks, one sector
each. `Volume` is what the sectors mean, the two bitmaps, the inodes and the blocks by number, and
every function that writes a sector is described by the one part of the volume it changes.
-/

namespace Aeterna.Vfs.AeternaFs

open Lib.Bytes Lib.Buffer

/-! ## Constants -/

/-- The sector sizes of the drives. -/
inductive SectorSize where
  | small
  | large
  deriving DecidableEq

def SectorSize.bytes : SectorSize → ℕ
  | .small => 512
  | .large => 4096

def inodeBmapLba : ℕ := 1
def blockBmapLba : ℕ := 2
def inodeTblLba : ℕ := 10
def dataStartLba : ℕ := 74
def maxInodes : ℕ := 512
def maxBlocks : ℕ := 32768
def inodeRoot : ℕ := 1

def modeFree : UInt16 := 0x0000
def modeReg : UInt16 := 0x8000
def modeDir : UInt16 := 0x4000

/-! ## Inodes -/

structure Inode where
  mode : UInt16
  nlinks : UInt16
  size : UInt64
  mtime : UInt64
  direct : Vector UInt32 8
  crc : UInt32

namespace Inode

def setDirect (i : Inode) (k : Fin 8) (b : UInt32) : Inode := { i with direct := i.direct.set k b }

theorem direct_setDirect (i : Inode) (k l : Fin 8) (b : UInt32) :
    (i.setDirect k b).direct.get l = if l = k then b else i.direct.get l := by
  rw [setDirect, Vector.get_eq_getElem, Vector.get_eq_getElem, Vector.getElem_set]
  exact if_congr (by rw [Fin.ext_iff, eq_comm]) rfl rfl

/-- The first 56 of the 64 bytes of an inode; the rest is padding. -/
def encode (i : Inode) : Data :=
  leBytes 2 i.mode.toNat ++ (leBytes 2 i.nlinks.toNat ++ (leBytes 8 i.size.toNat ++
    (leBytes 8 i.mtime.toNat ++ (i.direct.toList.flatMap (fun b => leBytes 4 b.toNat) ++
      leBytes 4 i.crc.toNat))))

def decode (raw : Data) : Inode where
  mode := UInt16.ofNat (leValue (slice raw 0 2))
  nlinks := UInt16.ofNat (leValue (slice raw 2 2))
  size := UInt64.ofNat (leValue (slice raw 4 8))
  mtime := UInt64.ofNat (leValue (slice raw 12 8))
  direct := Vector.ofFn fun k => UInt32.ofNat (leValue (slice raw (20 + 4 * k) 4))
  crc := UInt32.ofNat (leValue (slice raw 52 4))

def free : Inode := ⟨modeFree, 0, 0, 0, Vector.replicate 8 0, 0⟩

def empty (mode nlinks : UInt16) : Inode := ⟨mode, nlinks, 0, 0, Vector.replicate 8 0, 0⟩

def isDir (i : Inode) : Bool := i.mode &&& 0xF000 = modeDir

def isReg (i : Inode) : Bool := i.mode &&& 0xF000 = modeReg

theorem length_flatMap_leBytes (bs : List UInt32) :
    (bs.flatMap fun b => leBytes 4 b.toNat).length = 4 * bs.length := by
  induction bs with
  | nil => rfl
  | cons b bs ih =>
    rw [List.flatMap_cons, List.length_append, length_leBytes, List.length_cons]
    omega

@[simp] theorem length_encode (i : Inode) : i.encode.length = 56 := by
  simp only [encode, List.length_append, length_leBytes, length_flatMap_leBytes,
    Vector.length_toList]

theorem slice_flatMap_leBytes (bs : List UInt32) {k : ℕ} (hk : k < bs.length) :
    slice (bs.flatMap fun b => leBytes 4 b.toNat) (4 * k) 4 = leBytes 4 bs[k].toNat := by
  induction bs generalizing k with
  | nil => simp at hk
  | cons b bs ih =>
    cases k with
    | zero =>
      rw [List.flatMap_cons, slice_append_left (by simp)]
      exact List.take_of_length_le (by simp)
    | succ k =>
      rw [List.length_cons] at hk
      have hskip : 4 * (k + 1) = (leBytes 4 b.toNat).length + 4 * k := by
        rw [length_leBytes]
        omega
      rw [List.flatMap_cons, slice_append_right hskip, ih (by omega), List.getElem_cons_succ]

theorem slice_self {bytes : Data} {n : ℕ} (h : bytes.length = n) : slice bytes 0 n = bytes := by
  rw [slice, List.drop_zero, List.take_of_length_le (le_of_eq h)]

theorem decode_eq {raw : Data} {i : Inode}
    (h : ∀ a m, a + m ≤ 56 → slice raw a m = slice i.encode a m) : decode raw = i := by
  have hskip {front rest : Data} {b m : ℕ} (a : ℕ) (hb : b = front.length + a) :
      slice (front ++ rest) b m = slice rest a m := slice_append_right hb
  have hhead {n v m : ℕ} {rest : Data} (hn : m = n) :
      slice (leBytes n v ++ rest) 0 m = leBytes n v := by
    rw [hn, slice_append_left (by simp), slice_self (by simp)]
  have hdirectLen : (i.direct.toList.flatMap fun b => leBytes 4 b.toNat).length = 32 := by
    rw [length_flatMap_leBytes, Vector.length_toList]
  have hmode : slice raw 0 2 = leBytes 2 i.mode.toNat := by
    rw [h 0 2 (by decide), encode, hhead rfl]
  have hnlinks : slice raw 2 2 = leBytes 2 i.nlinks.toNat := by
    rw [h 2 2 (by decide), encode, hskip 0 (by simp), hhead rfl]
  have hsize : slice raw 4 8 = leBytes 8 i.size.toNat := by
    rw [h 4 8 (by decide), encode, hskip 2 (by simp), hskip 0 (by simp), hhead rfl]
  have hmtime : slice raw 12 8 = leBytes 8 i.mtime.toNat := by
    rw [h 12 8 (by decide), encode, hskip 10 (by simp), hskip 8 (by simp), hskip 0 (by simp),
      hhead rfl]
  have hcrc : slice raw 52 4 = leBytes 4 i.crc.toNat := by
    rw [h 52 4 (by decide), encode, hskip 50 (by simp), hskip 48 (by simp), hskip 40 (by simp),
      hskip 32 (by simp), hskip 0 (by rw [hdirectLen]), slice_self (by simp)]
  have hdirect (k : ℕ) (hk : k < 8) :
      slice raw (20 + 4 * k) 4 = leBytes 4 i.direct[k].toNat := by
    rw [h _ 4 (by omega), encode, hskip (18 + 4 * k) (by simp; omega),
      hskip (16 + 4 * k) (by simp; omega), hskip (8 + 4 * k) (by simp; omega),
      hskip (4 * k) (by simp), slice_append_left (by rw [hdirectLen]; omega),
      slice_flatMap_leBytes _ (by rw [Vector.length_toList]; omega), Vector.getElem_toList]
  obtain ⟨mode, nlinks, size, mtime, direct, crc⟩ := i
  have h16 (v : UInt16) : UInt16.ofNat (leValue (leBytes 2 v.toNat)) = v := by
    rw [leValue_leBytes_of_lt v.toNat_lt, UInt16.ofNat_toNat]
  have h32 (v : UInt32) : UInt32.ofNat (leValue (leBytes 4 v.toNat)) = v := by
    rw [leValue_leBytes_of_lt v.toNat_lt, UInt32.ofNat_toNat]
  have h64 (v : UInt64) : UInt64.ofNat (leValue (leBytes 8 v.toNat)) = v := by
    rw [leValue_leBytes_of_lt v.toNat_lt, UInt64.ofNat_toNat]
  simp only [decode, hmode, hnlinks, hsize, hmtime, hcrc, h16, h32, h64, Inode.mk.injEq, true_and,
    and_true]
  ext k hk
  rw [Vector.getElem_ofFn, hdirect k hk, h32]

end Inode

/-! ## Sectors -/

/-- The mounted file system: the partition and the numbers of its superblock. -/
structure State (g : SectorSize) where
  disk : Device g.bytes
  ready : Bool
  totalBlocks : ℕ
  freeBlocks : ℕ
  totalInodes : ℕ
  freeInodes : ℕ

namespace State

variable {g : SectorSize}

def readLba (st : State g) (lba : ℕ) : Data := st.disk.read lba 1

def writeLba (st : State g) (lba : ℕ) (buf : Data) : State g :=
  { st with disk := st.disk.write lba 1 buf }

/-! ### Bitmaps -/

def readInodeBmap (st : State g) : Data := st.readLba inodeBmapLba

def writeInodeBmap (st : State g) (bmap : Data) : State g := st.writeLba inodeBmapLba bmap

/-- Allocates an inode, from number 2 on. -/
def allocInode (st : State g) : Option ℕ × State g :=
  let bmap := st.readInodeBmap
  match (List.range' 2 (maxInodes - 2)).find? fun i => !bitmapGet bmap i with
  | some i => (some i, st.writeInodeBmap (bitmapSet bmap i true))
  | none => (none, st)

def freeInode (st : State g) (ino : ℕ) : State g :=
  st.writeInodeBmap (bitmapSet st.readInodeBmap ino false)

def readBlockBmap (st : State g) : Data := st.disk.read blockBmapLba 8

def writeBlockBmap (st : State g) (bmap : Data) : State g :=
  { st with disk := st.disk.write blockBmapLba 8 bmap }

/-- Allocates a data block and fills it with zeros. -/
def allocBlock (st : State g) : Option ℕ × State g :=
  let bmap := st.readBlockBmap
  match (List.range st.totalBlocks).find? fun i => !bitmapGet bmap i with
  | some i =>
    let st := st.writeBlockBmap (bitmapSet bmap i true)
    (some i, st.writeLba (dataStartLba + i) (List.replicate g.bytes 0))
  | none => (none, st)

def freeBlock (st : State g) (blk : ℕ) : State g :=
  st.writeBlockBmap (bitmapSet st.readBlockBmap blk false)

/-! ### Inodes and blocks -/

/-- The sector of an inode, and its place in it. -/
def inodePlace (g : SectorSize) (ino : ℕ) : ℕ × ℕ :=
  let inodesPerSector := g.bytes / 64
  (inodeTblLba + ino / inodesPerSector, ino % inodesPerSector * 64)

def readInodeRaw (st : State g) (ino : ℕ) : Option Inode :=
  if ino = 0 ∨ ino ≥ maxInodes then none
  else
    let (lba, base) := inodePlace g ino
    let buf := st.readLba lba
    if base + 64 > buf.length then none else some (Inode.decode (slice buf base 64))

def writeInodeRaw (st : State g) (ino : ℕ) (inode : Inode) : Bool × State g :=
  if ino = 0 ∨ ino ≥ maxInodes then (false, st)
  else
    let (lba, base) := inodePlace g ino
    let buf := st.readLba lba
    if base + 64 > buf.length then (false, st)
    else (true, st.writeLba lba (splice buf base inode.encode))

def readBlock (st : State g) (blk : ℕ) : Data := st.readLba (dataStartLba + blk)

/-- A block is cut or padded with zeros. -/
def writeBlock (st : State g) (blk : ℕ) (data : Data) : State g :=
  st.writeLba (dataStartLba + blk) data

end State

/-! ## The volume -/

def ValidIno (ino : ℕ) : Prop := ino ≠ 0 ∧ ino < maxInodes

/-- What the sectors mean. -/
@[ext] structure Volume where
  ready : Bool
  total : ℕ
  blockUsed : ℕ → Bool
  inodeUsed : ℕ → Bool
  inode : ℕ → Inode
  block : ℕ → Data

namespace State

variable {g : SectorSize} (st : State g)

def view : Volume where
  ready := st.ready
  total := st.totalBlocks
  blockUsed i := bitmapGet st.readBlockBmap i
  inodeUsed i := bitmapGet st.readInodeBmap i
  inode i := (st.readInodeRaw i).getD .free
  block b := st.readBlock b

@[simp] theorem length_readLba (lba : ℕ) : (st.readLba lba).length = g.bytes := by
  rw [readLba, Device.length_read, Nat.mul_one]

theorem inodePlace_spec (g : SectorSize) {ino : ℕ} (h : ino < maxInodes) :
    inodeTblLba ≤ (inodePlace g ino).1 ∧ (inodePlace g ino).1 < dataStartLba ∧
      (inodePlace g ino).2 + 64 ≤ g.bytes := by
  unfold inodePlace inodeTblLba dataStartLba
  unfold maxInodes at h
  cases g <;> simp only [SectorSize.bytes] <;> omega

theorem inodePlace_ne (g : SectorSize) {i j : ℕ} (hij : i ≠ j) :
    (inodePlace g i).1 ≠ (inodePlace g j).1 ∨
      (inodePlace g i).2 + 64 ≤ (inodePlace g j).2 ∨
      (inodePlace g j).2 + 64 ≤ (inodePlace g i).2 := by
  unfold inodePlace
  cases g <;> simp only [SectorSize.bytes] <;> omega

theorem readInodeRaw_eq {ino : ℕ} (h0 : ino ≠ 0) (h : ino < maxInodes) :
    st.readInodeRaw ino =
      some (Inode.decode (slice (st.readLba (inodePlace g ino).1) (inodePlace g ino).2 64)) := by
  have hplace := inodePlace_spec g h
  unfold readInodeRaw
  rw [if_neg (by omega)]
  dsimp only
  rw [if_neg (by rw [length_readLba]; omega)]

theorem readInodeRaw_of_valid {ino : ℕ} (h : ValidIno ino) :
    st.readInodeRaw ino = some (st.view.inode ino) := by
  show st.readInodeRaw ino = some ((st.readInodeRaw ino).getD .free)
  rw [readInodeRaw_eq st h.1 h.2, Option.getD_some]

theorem readInodeRaw_of_not_valid {ino : ℕ} (h : ¬ ValidIno ino) :
    st.readInodeRaw ino = none := by
  unfold ValidIno at h
  unfold readInodeRaw
  rw [if_pos (by omega)]

theorem readBlock_eq (b : ℕ) : st.readBlock b = st.view.block b := rfl

theorem length_block (b : ℕ) : (st.view.block b).length = g.bytes := length_readLba st _

theorem readLba_writeLba_self (lba : ℕ) (buf : Data) :
    (st.writeLba lba buf).readLba lba = Device.fit g.bytes buf :=
  Device.read_write_one st.disk lba buf

theorem readLba_writeLba_of_ne {lba lba' : ℕ} (h : lba ≠ lba') (buf : Data) :
    (st.writeLba lba buf).readLba lba' = st.readLba lba' :=
  Device.read_write_of_disjoint st.disk buf (by omega)

theorem readInodeRaw_congr {st' : State g}
    (h : ∀ lba, inodeTblLba ≤ lba → lba < dataStartLba → st'.readLba lba = st.readLba lba)
    (ino : ℕ) : st'.readInodeRaw ino = st.readInodeRaw ino := by
  by_cases hv : ValidIno ino
  · obtain ⟨hlo, hhi, -⟩ := inodePlace_spec g hv.2
    rw [readInodeRaw_eq _ hv.1 hv.2, readInodeRaw_eq _ hv.1 hv.2, h _ hlo hhi]
  · rw [readInodeRaw_of_not_valid _ hv, readInodeRaw_of_not_valid _ hv]

theorem readBlockBmap_writeLba {lba : ℕ} (h : lba < blockBmapLba ∨ inodeTblLba ≤ lba)
    (buf : Data) : (st.writeLba lba buf).readBlockBmap = st.readBlockBmap := by
  unfold blockBmapLba inodeTblLba at h
  apply Device.read_write_of_disjoint
  unfold blockBmapLba
  omega

theorem view_writeBlock (b : ℕ) (data : Data) :
    (st.writeBlock b data).view =
      { st.view with block := Function.update st.view.block b (Device.fit g.bytes data) } := by
  have hother (lba : ℕ) (h : lba < dataStartLba) :
      (st.writeBlock b data).readLba lba = st.readLba lba :=
    readLba_writeLba_of_ne st (by omega) data
  have hbmap : (st.writeBlock b data).readBlockBmap = st.readBlockBmap :=
    readBlockBmap_writeLba st (Or.inr (by unfold inodeTblLba dataStartLba; omega)) data
  refine Volume.ext rfl rfl (funext fun i => ?_) (funext fun i => ?_) (funext fun i => ?_)
    (funext fun b' => ?_)
  · exact congrArg (bitmapGet · i) hbmap
  · exact congrArg (bitmapGet · i) (hother _ (by decide))
  · exact congrArg (·.getD .free) (readInodeRaw_congr st (fun lba _ h => hother lba h) i)
  · by_cases hb : b' = b
    · subst hb
      dsimp only
      rw [Function.update_self]
      exact readLba_writeLba_self st _ data
    · dsimp only
      rw [Function.update_of_ne hb]
      exact readLba_writeLba_of_ne st (by omega) data

theorem view_writeLba_of_lt {lba : ℕ} (h : lba < blockBmapLba) (buf : Data) :
    (st.writeLba lba buf).view =
      { st.view with inodeUsed := bitmapGet (st.writeLba lba buf).readInodeBmap } := by
  have hother (lba' : ℕ) (h' : blockBmapLba < lba') :
      (st.writeLba lba buf).readLba lba' = st.readLba lba' :=
    readLba_writeLba_of_ne st (h.trans h').ne buf
  refine Volume.ext rfl rfl (funext fun i => ?_) rfl (funext fun i => ?_) (funext fun b => ?_)
  · exact congrArg (bitmapGet · i) (readBlockBmap_writeLba st (Or.inl h) buf)
  · refine congrArg (·.getD .free) (readInodeRaw_congr st (fun lba h _ => hother lba ?_) i)
    exact lt_of_lt_of_le (by decide) h
  · exact hother _ (lt_of_lt_of_le (by decide) (Nat.le_add_right _ b))

theorem view_writeInodeBmap {bmap : Data} (h : bmap.length = g.bytes) :
    (st.writeInodeBmap bmap).view = { st.view with inodeUsed := bitmapGet bmap } := by
  have hself : (st.writeLba inodeBmapLba bmap).readInodeBmap = bmap := by
    rw [readInodeBmap, readLba_writeLba_self, Device.fit_of_length h]
  have hlt : inodeBmapLba < blockBmapLba := by decide
  have hview := view_writeLba_of_lt st hlt bmap
  rwa [hself] at hview

theorem view_writeBlockBmap {bmap : Data} (h : bmap.length = 8 * g.bytes) :
    (st.writeBlockBmap bmap).view = { st.view with blockUsed := bitmapGet bmap } := by
  have hother (lba : ℕ) (h : lba < blockBmapLba ∨ inodeTblLba ≤ lba) :
      (st.writeBlockBmap bmap).readLba lba = st.readLba lba := by
    unfold blockBmapLba inodeTblLba at h
    apply Device.read_write_of_disjoint
    unfold blockBmapLba
    omega
  have hself : (st.writeBlockBmap bmap).readBlockBmap = bmap := by
    rw [readBlockBmap, writeBlockBmap, Device.read_write _ _ le_rfl (by omega),
      List.take_of_length_le (by omega)]
  refine Volume.ext rfl rfl (funext fun i => ?_) (funext fun i => ?_) (funext fun i => ?_)
    (funext fun b => ?_)
  · exact congrArg (bitmapGet · i) hself
  · exact congrArg (bitmapGet · i) (hother _ (Or.inl (by decide)))
  · exact congrArg (·.getD .free) (readInodeRaw_congr st (fun lba h _ => hother lba (Or.inr h)) i)
  · exact hother _ (Or.inr (le_trans (by decide) (Nat.le_add_right _ b)))

theorem writeInodeRaw_eq {ino : ℕ} (h : ValidIno ino) (inode : Inode) :
    st.writeInodeRaw ino inode = (true, st.writeLba (inodePlace g ino).1
      (splice (st.readLba (inodePlace g ino).1) (inodePlace g ino).2 inode.encode)) := by
  have hplace := inodePlace_spec g h.2
  have h0 := h.1
  have hlt := h.2
  unfold writeInodeRaw
  rw [if_neg (by omega)]
  dsimp only
  rw [if_neg (by rw [length_readLba]; omega)]

theorem writeInodeRaw_pair {ino : ℕ} (h : ValidIno ino) (inode : Inode) :
    st.writeInodeRaw ino inode = (true, (st.writeInodeRaw ino inode).2) := by
  rw [writeInodeRaw_eq st h]

theorem readInodeRaw_writeInodeRaw {ino : ℕ} (h : ValidIno ino) (inode : Inode) (j : ℕ) :
    (st.writeInodeRaw ino inode).2.readInodeRaw j =
      if j = ino then some inode else st.readInodeRaw j := by
  obtain ⟨hlo, hhi, hbase⟩ := inodePlace_spec g h.2
  have hfits : (inodePlace g ino).2 + inode.encode.length ≤
      (st.readLba (inodePlace g ino).1).length := by
    rw [Inode.length_encode, length_readLba]
    omega
  have hself : (st.writeInodeRaw ino inode).2.readLba (inodePlace g ino).1 =
      splice (st.readLba (inodePlace g ino).1) (inodePlace g ino).2 inode.encode := by
    rw [writeInodeRaw_eq st h, readLba_writeLba_self, Device.fit_of_length]
    rw [length_splice hfits, length_readLba]
  by_cases hv : ValidIno j
  · rw [readInodeRaw_eq _ hv.1 hv.2]
    by_cases hj : j = ino
    · subst hj
      rw [if_pos rfl, hself]
      refine congrArg some (Inode.decode_eq fun a m ham => ?_)
      rw [slice_slice (by omega), slice_splice_inside hfits (by rw [Inode.length_encode]; exact ham)]
    · rw [if_neg hj, readInodeRaw_eq _ hv.1 hv.2]
      by_cases hlba : (inodePlace g ino).1 = (inodePlace g j).1
      · have hplace := (inodePlace_ne g (Ne.symm hj)).resolve_left (not_not.mpr hlba)
        rw [← hlba, hself, slice_splice_of_disjoint hfits]
        rw [Inode.length_encode]
        omega
      · rw [writeInodeRaw_eq st h, readLba_writeLba_of_ne st hlba]
  · rw [readInodeRaw_of_not_valid _ hv, if_neg, readInodeRaw_of_not_valid _ hv]
    rintro rfl
    exact hv h

theorem view_writeInodeRaw {ino : ℕ} (h : ValidIno ino) (inode : Inode) :
    (st.writeInodeRaw ino inode).2.view =
      { st.view with inode := Function.update st.view.inode ino inode } := by
  obtain ⟨hlo, hhi, -⟩ := inodePlace_spec g h.2
  have hother (lba : ℕ) (hne : (inodePlace g ino).1 ≠ lba) :
      (st.writeInodeRaw ino inode).2.readLba lba = st.readLba lba := by
    rw [writeInodeRaw_eq st h, readLba_writeLba_of_ne st hne]
  refine Volume.ext ?_ ?_ (funext fun i => ?_) (funext fun i => ?_) (funext fun i => ?_)
    (funext fun b => ?_)
  · rw [writeInodeRaw_eq st h]
    rfl
  · rw [writeInodeRaw_eq st h]
    rfl
  · refine congrArg (bitmapGet · i) ?_
    rw [writeInodeRaw_eq st h, readBlockBmap_writeLba st (Or.inr hlo)]
  · refine congrArg (bitmapGet · i) (hother _ (Nat.ne_of_gt (lt_of_lt_of_le ?_ hlo)))
    decide
  · show ((st.writeInodeRaw ino inode).2.readInodeRaw i).getD .free =
      Function.update st.view.inode ino inode i
    rw [readInodeRaw_writeInodeRaw st h]
    by_cases hi : i = ino
    · rw [if_pos hi, hi, Function.update_self]
      rfl
    · rw [if_neg hi, Function.update_of_ne hi]
      rfl
  · exact hother _ (by omega)

/-- The superblock is no part of the volume. -/
theorem view_writeLba_zero (buf : Data) : (st.writeLba 0 buf).view = st.view := by
  have hother : (st.writeLba 0 buf).readInodeBmap = st.readInodeBmap :=
    readLba_writeLba_of_ne st (by decide) buf
  rw [view_writeLba_of_lt st (by decide), hother]
  rfl

/-! ## Allocation -/

theorem length_readBlockBmap : st.readBlockBmap.length = 8 * g.bytes := by
  rw [readBlockBmap, Device.length_read, Nat.mul_comm]

theorem bitmapGet_set {bmap : Data} {i : ℕ} (h : i / 8 < bmap.length) (val : Bool) :
    bitmapGet (bitmapSet bmap i val) = Function.update (bitmapGet bmap) i val := by
  funext j
  rw [bitmapGet_bitmapSet _ h, Function.update_apply]
  exact if_congr eq_comm rfl rfl

theorem view_setBlock {i : ℕ} (h : i < maxBlocks) (val : Bool) :
    (st.writeBlockBmap (bitmapSet st.readBlockBmap i val)).view =
      { st.view with blockUsed := Function.update st.view.blockUsed i val } := by
  have hfits : i / 8 < st.readBlockBmap.length := by
    rw [length_readBlockBmap]
    unfold maxBlocks at h
    cases g <;> simp only [SectorSize.bytes] <;> omega
  rw [view_writeBlockBmap st (by rw [length_bitmapSet, length_readBlockBmap]),
    bitmapGet_set hfits]
  rfl

theorem view_setInode {i : ℕ} (h : i < maxInodes) (val : Bool) :
    (st.writeInodeBmap (bitmapSet st.readInodeBmap i val)).view =
      { st.view with inodeUsed := Function.update st.view.inodeUsed i val } := by
  have hlen : st.readInodeBmap.length = g.bytes := length_readLba st _
  have hfits : i / 8 < st.readInodeBmap.length := by
    rw [hlen]
    unfold maxInodes at h
    cases g <;> simp only [SectorSize.bytes] <;> omega
  rw [view_writeInodeBmap st (by rw [length_bitmapSet, hlen]),
    bitmapGet_set hfits]
  rfl

theorem allocBlock_cases (htotal : st.view.total ≤ maxBlocks) :
    (st.allocBlock = (none, st) ∧ ∀ b < st.view.total, st.view.blockUsed b = true) ∨
      ∃ b st', st.allocBlock = (some b, st') ∧ b < st.view.total ∧
        st.view.blockUsed b = false ∧ (∀ c < b, st.view.blockUsed c = true) ∧
        st'.view = { st.view with
          blockUsed := Function.update st.view.blockUsed b true
          block := Function.update st.view.block b (List.replicate g.bytes 0) } := by
  unfold allocBlock
  dsimp only
  cases hfind : (List.range st.totalBlocks).find? fun i => !bitmapGet st.readBlockBmap i with
  | none =>
    refine Or.inl ⟨rfl, fun b hb => ?_⟩
    have hused := List.find?_eq_none.mp hfind b (List.mem_range.mpr hb)
    rw [Bool.not_eq_true', Bool.not_eq_false] at hused
    exact hused
  | some b =>
    have hfree := List.find?_some hfind
    rw [Bool.not_eq_true'] at hfree
    have hb : b < st.totalBlocks := List.mem_range.mp (List.mem_of_find?_eq_some hfind)
    have hbefore (c : ℕ) (hc : c < b) : st.view.blockUsed c = true := by
      obtain ⟨-, i, hi, hib, hbefore⟩ := List.find?_eq_some_iff_getElem.mp hfind
      rw [List.getElem_range] at hib
      have hused := hbefore c (hib ▸ hc)
      rw [List.getElem_range, Bool.not_not] at hused
      exact hused
    refine Or.inr ⟨b, _, rfl, hb, hfree, hbefore, ?_⟩
    show (writeBlock _ b (List.replicate g.bytes 0)).view = _
    rw [view_writeBlock, view_setBlock st (lt_of_lt_of_le hb htotal),
      Device.fit_of_length List.length_replicate]

theorem view_freeBlock {b : ℕ} (h : b < maxBlocks) :
    (st.freeBlock b).view =
      { st.view with blockUsed := Function.update st.view.blockUsed b false } :=
  view_setBlock st h false

theorem allocInode_cases :
    (st.allocInode = (none, st) ∧
        ∀ i, inodeRoot < i → i < maxInodes → st.view.inodeUsed i = true) ∨
      ∃ i st', st.allocInode = (some i, st') ∧ inodeRoot < i ∧ i < maxInodes ∧
        st.view.inodeUsed i = false ∧
        st'.view = { st.view with inodeUsed := Function.update st.view.inodeUsed i true } := by
  unfold allocInode
  dsimp only
  have hrange (i : ℕ) : i ∈ List.range' 2 (maxInodes - 2) ↔ inodeRoot < i ∧ i < maxInodes := by
    rw [List.mem_range'_1]
    unfold inodeRoot maxInodes
    omega
  cases hfind : (List.range' 2 (maxInodes - 2)).find? fun i => !bitmapGet st.readInodeBmap i with
  | none =>
    refine Or.inl ⟨rfl, fun i hlo hhi => ?_⟩
    have hused := List.find?_eq_none.mp hfind i ((hrange i).mpr ⟨hlo, hhi⟩)
    rw [Bool.not_eq_true', Bool.not_eq_false] at hused
    exact hused
  | some i =>
    have hfree := List.find?_some hfind
    rw [Bool.not_eq_true'] at hfree
    obtain ⟨hlo, hhi⟩ := (hrange i).mp (List.mem_of_find?_eq_some hfind)
    exact Or.inr ⟨i, _, rfl, hlo, hhi, hfree, view_setInode st hhi true⟩

theorem view_freeInode {i : ℕ} (h : i < maxInodes) :
    (st.freeInode i).view =
      { st.view with inodeUsed := Function.update st.view.inodeUsed i false } :=
  view_setInode st h false

end State

end Aeterna.Vfs.AeternaFs
