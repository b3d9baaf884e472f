import Aeterna.Vfs.AeternaFs.Operations

/-!
# Mounting again

The numbers that a mounted instance keeps besides the disk are those of the superblock, and no call
changes either: `flush_superblock` writes back what `mount` has read. An instance that mounts the
disk after any calls is therefore in the state that they have led to (`mount_run`).
-/

namespace Aeterna.Vfs.AeternaFs.State

open Lib.Bytes Lib.Buffer

variable {g : SectorSize} {st : State g}

/-- Whoever mounts the disk gets this state. -/
def Mounted (st : State g) : Prop := ∀ old : State g, old.mount st.disk = (true, st)

theorem mounted_mount (st : State g) (disk : Device g.bytes) (h : (st.mount disk).1 = true) :
    Mounted (st.mount disk).2 := by
  intro old
  unfold mount at h ⊢
  dsimp only at h ⊢
  split_ifs at h with hmagic
  rw [if_pos hmagic]
  exact if_pos hmagic

namespace Mounted

/-- Only the superblock is read. -/
theorem setDisk (h : Mounted st) {disk : Device g.bytes} (hread : disk.read 0 1 = st.disk.read 0 1) :
    Mounted { st with disk := disk } := by
  intro old
  have hold := h old
  unfold mount readLba at hold ⊢
  dsimp only at hold ⊢
  rw [hread]
  split_ifs at hold ⊢ with hmagic
  · rw [← (Prod.mk.inj hold).2]
  · exact absurd (Prod.mk.inj hold).1 Bool.false_ne_true

theorem writeLba (h : Mounted st) {lba : ℕ} (hlba : 0 < lba) (buf : Data) :
    Mounted (st.writeLba lba buf) :=
  h.setDisk (Device.read_write_of_disjoint _ _ (Or.inl hlba))

/-- The counters are on the disk already. -/
theorem flushSuperblock (h : Mounted st) : Mounted st.flushSuperblock := by
  have hlen : (st.readLba 0).length = g.bytes := length_readLba st 0
  have hsize : 512 ≤ g.bytes := by cases g <;> decide
  have hfield {v offset : ℕ} (hv : leValue (slice (st.readLba 0) offset 4) = v)
      (ho : offset + 4 ≤ 512) : splice (st.readLba 0) offset (leBytes 4 v) = st.readLba 0 := by
    have hfour : (slice (st.readLba 0) offset 4).length = 4 := length_slice (by omega)
    rw [← hv, leBytes_leValue hfour, splice_slice_self (by omega)]
  have hself := h st
  unfold mount at hself
  dsimp only at hself
  split_ifs at hself
  · have hst := (Prod.mk.inj hself).2
    refine h.setDisk ?_
    rw [hfield (congrArg freeInodes hst) (by decide), hfield (congrArg freeBlocks hst) (by decide),
      Device.read_write_one, Device.fit_of_length hlen]
    rfl
  · exact absurd (Prod.mk.inj hself).1 Bool.false_ne_true

theorem allocInode (h : Mounted st) : Mounted st.allocInode.2 := by
  unfold State.allocInode
  dsimp only
  split
  · exact h.writeLba (by decide) _
  · exact h

theorem writeBlockBmap (h : Mounted st) (bmap : Data) : Mounted (st.writeBlockBmap bmap) :=
  h.setDisk (Device.read_write_of_disjoint _ _ (Or.inl (by decide)))

theorem writeBlock (h : Mounted st) (blk : ℕ) (data : Data) : Mounted (st.writeBlock blk data) :=
  h.writeLba (Nat.lt_of_lt_of_le (by decide) (Nat.le_add_right _ _)) data

theorem allocBlock (h : Mounted st) : Mounted st.allocBlock.2 := by
  unfold State.allocBlock
  dsimp only
  split
  · exact (h.writeBlockBmap _).writeBlock _ _
  · exact h

theorem writeInodeRaw (h : Mounted st) (ino : ℕ) (inode : Inode) :
    Mounted (st.writeInodeRaw ino inode).2 := by
  unfold State.writeInodeRaw
  dsimp only
  split_ifs
  · exact h
  · exact h
  · exact h.writeLba (Nat.lt_of_lt_of_le (by decide) (Nat.le_add_right _ _)) _

theorem releaseBlocks (h : Mounted st) (pointers : List UInt32) :
    Mounted (st.releaseBlocks pointers) := by
  induction pointers generalizing st with
  | nil => exact h
  | cons blk pointers ih =>
    refine ih ?_
    dsimp only
    split_ifs
    · exact h.writeBlockBmap _
    · exact h

theorem of_eq {α : Type} {r : α × State g} {a : α} (h : Mounted r.2) (heq : r = (a, st)) :
    Mounted st := by
  rwa [heq] at h

theorem writeChunks (ks : List (Fin 8)) (h : Mounted st) (inode : Inode) (rest : Data) :
    Mounted (State.writeChunks ks st inode rest).2 := by
  induction ks generalizing st inode rest with
  | nil => exact h
  | cons k ks ih =>
    unfold State.writeChunks
    split_ifs
    · exact h
    · split
      next heq => exact h.allocBlock.of_eq heq
      next heq => exact ih ((h.allocBlock.of_eq heq).writeBlock _ _) _ _

theorem truncate (h : Mounted st) (ino : ℕ) : Mounted (st.truncate ino) := by
  unfold State.truncate
  split
  · exact h
  · split_ifs
    · exact (h.releaseBlocks _).writeInodeRaw _ _
    · exact h

theorem dirAddEntry (h : Mounted st) (dirIno : ℕ) (name : Path) (childIno : ℕ) :
    Mounted (st.dirAddEntry dirIno name childIno).2 := by
  unfold State.dirAddEntry
  split
  · exact h
  split_ifs
  · exact h
  · exact h
  dsimp only
  split
  · exact h.writeBlock _ _
  split
  · exact h
  split
  next heq => exact h.allocBlock.of_eq heq
  next heq => exact ((h.allocBlock.of_eq heq).writeInodeRaw _ _).writeBlock _ _

theorem dirRemoveEntry (h : Mounted st) (dirIno : ℕ) (name : Path) :
    Mounted (st.dirRemoveEntry dirIno name).2 := by
  unfold State.dirRemoveEntry
  split
  · exact h
  split_ifs
  · exact h
  split
  · exact h.writeBlock _ _
  · exact h

theorem createFile (h : Mounted st) (parentPath filename : Path) :
    Mounted (st.createFile parentPath filename).2 := by
  unfold State.createFile
  split
  · exact h
  split
  next heq => exact h.allocInode.of_eq heq
  next newIno st' heq =>
    have hinode := (h.allocInode.of_eq heq).writeInodeRaw newIno (.empty modeReg 1)
    split
    next heq => exact hinode.of_eq heq
    next heq =>
      split
      next heq' => exact ((hinode.of_eq heq).dirAddEntry _ _ _).of_eq heq'
      next heq' => exact ((hinode.of_eq heq).dirAddEntry _ _ _).of_eq heq'

theorem writeData (h : Mounted st) (ino : ℕ) (data : Data) : Mounted (st.writeData ino data).2 := by
  unfold State.writeData
  split
  · exact h
  split
  next heq => exact (h.writeChunks _ _ _).of_eq heq
  next heq => exact (((h.writeChunks _ _ _).of_eq heq).writeInodeRaw _ _).flushSuperblock

theorem writeFile (h : Mounted st) (path : Path) (data : Data) :
    Mounted (st.writeFile path data).2 := by
  unfold State.writeFile
  split_ifs
  · exact h
  dsimp only
  split
  · exact (h.truncate _).writeData _ _
  split
  next heq => exact (h.createFile _ _).of_eq heq
  next heq => exact ((h.createFile _ _).of_eq heq).writeData _ _

theorem mkdirAt (h : Mounted st) (path : Path) (parentIno : ℕ) (dirname : Path) :
    Mounted (st.mkdirAt path parentIno dirname).2 := by
  unfold State.mkdirAt
  split_ifs
  · exact h
  split
  next heq => exact h.allocInode.of_eq heq
  next newIno st' heq =>
    have hinode := (h.allocInode.of_eq heq).writeInodeRaw newIno (.empty modeDir 2)
    split
    next heq => exact hinode.of_eq heq
    next heq =>
      exact ((((hinode.of_eq heq).dirAddEntry _ _ _).dirAddEntry _ _ _).dirAddEntry
        _ _ _).flushSuperblock

theorem remove (h : Mounted st) (path : Path) : Mounted (st.remove path).2 := by
  unfold State.remove
  split_ifs
  · exact h
  split
  · exact h
  split
  · exact h
  · dsimp only
    split
    · exact ((((h.releaseBlocks _).writeInodeRaw _ _).writeLba (by decide) _).dirRemoveEntry
        _ _).flushSuperblock
    · exact (((h.releaseBlocks _).writeInodeRaw _ _).writeLba (by decide) _).flushSuperblock

theorem step (h : Mounted st) (a : Action) : Mounted (AeternaFs.step st a) := by
  cases a with
  | writeFile path data => exact h.writeFile path data
  | appendFile path data => exact h.writeFile path _
  | writeAt path offset data => exact h.writeFile path _
  | touch path =>
    show Mounted (st.touch path).2
    unfold State.touch
    split_ifs
    · exact h
    · exact h.writeFile path []
  | mkdir path => exact mkdir_rule (fun _ _ _ h _ _ => h.mkdirAt _ _ _) h path
  | remove path => exact h.remove path

end Mounted

/-- **Mounting again.** After any calls on a mounted disk, an instance that mounts it is in the state
that the calls have led to. -/
theorem mount_run (st old : State g) (disk : Device g.bytes) (h : (st.mount disk).1 = true)
    (actions : List Action) :
    let st' := Lib.run AeternaFs.step (st.mount disk).2 actions
    old.mount st'.disk = (true, st') :=
  (Lib.always_of_eachStep (G := fun _ _ => True) (mounted_mount st disk h)
    (fun _ a h _ => h.step a) (Lib.eachStep_of_forall_mem fun _ _ => trivial)).last old

/-- A disk with nothing but the magic number in its superblock. -/
def bare : State .small :=
  .new (Device.write (fun _ => .replicate _ 0) 0 1 (leBytes 8 aeternaMagic))

theorem mount_run_bare :
    let st' := Lib.run AeternaFs.step (bare.mount bare.disk).2 [.mkdir ['/', 'd']]
    bare.mount st'.disk = (true, st') :=
  mount_run bare bare bare.disk (by decide +kernel) _

end Aeterna.Vfs.AeternaFs.State
