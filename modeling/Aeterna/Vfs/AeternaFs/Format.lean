import Aeterna.Vfs.AeternaFs.Ownership

/-!
# A new file system, and block ownership

`mkfs` zeroes the tables and makes a root directory without blocks: it takes block 0 for the root,
and a pointer that is 0 is no pointer (`view_formatted`). Block 0 is therefore used for good, and
every pointer to an allocated block differs from 0. From there on every call keeps the volume sound,
so blocks have one owner (`always_blockOwnership`).
-/

namespace Aeterna.Vfs.AeternaFs

open Lib Lib.Bytes Lib.Buffer

namespace State

variable {g : SectorSize}

theorem zeroSectors_eq (st : State g) (first count m : ℕ) :
    st.zeroSectors first count =
      { st with disk := st.disk.write first count (List.replicate m 0) } := by
  unfold zeroSectors
  induction count with
  | zero =>
    have hwrite : st.disk.write first 0 (List.replicate m 0) = st.disk := by
      funext lba
      rw [Device.write, if_neg (by omega)]
    rw [hwrite]
    rfl
  | succ count ih =>
    rw [List.range_succ, List.foldl_append, ih, List.foldl_cons, List.foldl_nil, writeLba]
    congr 1
    funext lba
    simp only [Device.write, Device.blockOf_replicate]
    by_cases hlba : first ≤ lba ∧ lba < first + (count + 1)
    · by_cases hlast : lba = first + count
      · rw [if_pos (by omega), if_pos hlba]
      · rw [if_neg (by omega), if_pos (by omega), if_pos hlba]
    · rw [if_neg (by omega), if_neg (by omega), if_neg hlba]

theorem leValue_replicate (n : ℕ) : leValue (List.replicate n 0) = 0 := by
  induction n with
  | zero => rfl
  | succ n ih =>
    rw [List.replicate_succ, leValue, ih]
    rfl

theorem leValue_slice_replicate (n a m : ℕ) : leValue (slice (List.replicate n 0) a m) = 0 := by
  rw [slice, List.drop_replicate, List.take_replicate, leValue_replicate]

theorem decode_replicate (n : ℕ) : Inode.decode (List.replicate n 0) = .free := by
  unfold Inode.decode
  simp only [leValue_slice_replicate]
  rfl

theorem view_zeroTable (st : State g) :
    (st.zeroSectors inodeTblLba 64).view = { st.view with inode := fun _ => .free } := by
  rw [zeroSectors_eq st inodeTblLba 64 (64 * g.bytes)]
  generalize hst' : ({ st with
    disk := st.disk.write inodeTblLba 64 (List.replicate (64 * g.bytes) 0) } : State g) = st'
  have hother (lba count : ℕ) (h : lba + count ≤ inodeTblLba ∨ dataStartLba ≤ lba) :
      st'.disk.read lba count = st.disk.read lba count := by
    rw [← hst']
    exact Device.read_write_of_disjoint _ _ h
  have htable (lba : ℕ) (hlo : inodeTblLba ≤ lba) (hhi : lba < dataStartLba) :
      st'.readLba lba = List.replicate g.bytes 0 := by
    have hblock : st'.disk lba = Vector.replicate g.bytes 0 := by
      rw [← hst']
      dsimp only
      rw [Device.write, if_pos ⟨hlo, hhi⟩, Device.blockOf_replicate]
    rw [readLba, Device.read, List.range_one, List.flatMap_singleton, Nat.add_zero, hblock,
      Vector.toList_replicate]
  refine Volume.ext (by rw [← hst']; rfl) (by rw [← hst']; rfl) (funext fun i => ?_)
    (funext fun i => ?_) (funext fun i => ?_) (funext fun b => ?_)
  · exact congrArg (bitmapGet · i) (hother _ 8 (Or.inl (by decide)))
  · exact congrArg (bitmapGet · i) (hother _ 1 (Or.inl (by decide)))
  · show (st'.readInodeRaw i).getD .free = .free
    by_cases hi : ValidIno i
    · obtain ⟨hlo, hhi, -⟩ := inodePlace_spec g hi.2
      rw [readInodeRaw_eq _ hi.1 hi.2, htable _ hlo hhi, slice, List.drop_replicate,
        List.take_replicate, decode_replicate, Option.getD_some]
    · rw [readInodeRaw_of_not_valid _ hi, Option.getD_none]
  · exact hother _ 1 (Or.inr (Nat.le_add_right _ b))

theorem view_zeroBitmap (st : State g) :
    (st.zeroSectors blockBmapLba 8).view = { st.view with blockUsed := fun _ => false } := by
  have hwrite : st.zeroSectors blockBmapLba 8 =
      st.writeBlockBmap (List.replicate (8 * g.bytes) 0) := zeroSectors_eq ..
  have hbits : bitmapGet (List.replicate (8 * g.bytes) 0) = fun _ => false :=
    funext fun b => bitmapGet_replicate _ b
  rw [hwrite, view_writeBlockBmap st List.length_replicate, hbits]

/-- The number of data blocks of a partition. -/
def blocksOf (partSectors : UInt64) : ℕ := min ((partSectors.toNat - dataStartLba) % 2 ^ 32) maxBlocks

theorem view_layOut (disk : Device g.bytes) (partSectors : UInt64) (label : Path) :
    ∃ block, (layOut disk partSectors label).view =
      ⟨false, blocksOf partSectors, fun _ => false, fun i => i == 0 || i == 1, fun _ => .free,
        block⟩ := by
  have hlen : 1 < g.bytes := by cases g <;> decide
  have hbits : bitmapGet (bitmapSet (bitmapSet (List.replicate g.bytes 0) 0 true) 1 true) =
      fun i => i == 0 || i == 1 := by
    funext i
    rw [bitmapGet_bitmapSet _ (by simp; omega), bitmapGet_bitmapSet _ (by simp; omega),
      bitmapGet_replicate]
    by_cases h1 : 1 = i
    · simp [← h1]
    · by_cases h0 : 0 = i
      · simp [← h0]
      · simp [h0, h1, Ne.symm h0, Ne.symm h1]
  have hbmap (st : State g) (bmap : Data) : st.writeLba inodeBmapLba bmap = st.writeInodeBmap bmap :=
    rfl
  unfold layOut
  rw [view_zeroTable, view_zeroBitmap, hbmap, view_writeInodeBmap _ (by simp), hbits]
  exact ⟨_, rfl⟩

theorem readLba_zeroSectors (st : State g) {first : ℕ} (h : 0 < first) (count : ℕ) :
    (st.zeroSectors first count).readLba 0 = st.readLba 0 := by
  rw [zeroSectors_eq st first count 0]
  exact Device.read_write_of_disjoint _ _ (Or.inl h)

theorem superblock_layOut (disk : Device g.bytes) (partSectors : UInt64) (label : Path) :
    (layOut disk partSectors label).readLba 0 =
      Device.fit g.bytes (superblock { new disk with
        totalBlocks := blocksOf partSectors, freeBlocks := blocksOf partSectors }
          partSectors label) := by
  unfold layOut
  rw [readLba_zeroSectors _ (by decide), readLba_zeroSectors _ (by decide),
    readLba_writeLba_of_ne _ (by decide), readLba_writeLba_self]
  rfl

/-- The fields of the superblock that `mount` goes by. -/
theorem fields_superblock (disk : Device g.bytes) (partSectors : UInt64) (label : Path) :
    leValue (slice ((layOut disk partSectors label).readLba 0) 0 8) = aeternaMagic ∧
      leValue (slice ((layOut disk partSectors label).readLba 0) 64 4) = blocksOf partSectors := by
  have hskip {front rest : Data} {b m : ℕ} (a : ℕ) (hb : b = front.length + a) :
      slice (front ++ rest) b m = slice rest a m := slice_append_right hb
  have hhead {n v : ℕ} {rest : Data} (hv : v < 256 ^ n) :
      leValue (slice (leBytes n v ++ rest) 0 n) = v := by
    rw [slice_append_left (by simp), Inode.slice_self (by simp), leValue_leBytes_of_lt hv]
  have hblocks : blocksOf partSectors < 256 ^ 4 :=
    lt_of_le_of_lt (Nat.min_le_right _ _) (by decide)
  rw [superblock_layOut]
  have hfit : ∀ sb : Data, sb.length ≤ 135 →
      Device.fit g.bytes sb = sb ++ List.replicate (g.bytes - sb.length) 0 := by
    intro sb hsb
    have hsize : 512 ≤ g.bytes := by cases g <;> decide
    rw [Device.fit, List.take_of_length_le (by omega)]
  have hlabel : ((pathBytes label).take 63).length ≤ 63 := by
    rw [List.length_take]
    exact Nat.min_le_left _ _
  rw [hfit _ (by simp only [superblock, List.length_append, length_leBytes]; omega)]
  simp only [superblock, List.append_assoc]
  constructor
  · exact hhead (by decide)
  · rw [hskip 56 (by simp), hskip 52 (by simp), hskip 48 (by simp), hskip 40 (by simp),
      hskip 32 (by simp), hskip 24 (by simp), hskip 16 (by simp), hskip 8 (by simp),
      hskip 4 (by simp), hskip 0 (by simp), hhead hblocks]

theorem readLba_allocBlock (st : State g) : st.allocBlock.2.readLba 0 = st.readLba 0 := by
  unfold allocBlock
  dsimp only
  split
  · rw [readLba_writeLba_of_ne _ (by simp [dataStartLba])]
    exact Device.read_write_of_disjoint _ _ (Or.inl (by decide))
  · rfl

theorem mkfs_spec (disk : Device g.bytes) (partSectors : UInt64) (label : Path) :
    (mkfs disk partSectors label).1 = decide (0 < blocksOf partSectors) ∧
      (0 < blocksOf partSectors → ∃ st' : State g, (mkfs disk partSectors label).2 = st'.disk ∧
        st'.readLba 0 = (layOut disk partSectors label).readLba 0 ∧
        ∃ inode, inode.isDir = true ∧ (∀ k : Fin 8, inode.direct.get k = 0) ∧
          st'.view = ⟨false, blocksOf partSectors, fun b => b == 0, fun i => i == 0 || i == 1,
            Function.update (fun _ => .free) inodeRoot inode, st'.view.block⟩) := by
  obtain ⟨block, hview⟩ := view_layOut disk partSectors label
  generalize hlay : layOut disk partSectors label = st at hview
  have htotal : st.view.total ≤ maxBlocks := by
    rw [hview]
    exact Nat.min_le_right _ _
  unfold mkfs
  rw [hlay]
  rcases allocBlock_cases st htotal with
    ⟨halloc, hnone⟩ | ⟨b, st', halloc, hlt, -, hbefore, hview'⟩
  · have hzero : blocksOf partSectors = 0 := by
      by_contra hne
      have hused := hnone 0 (by rw [hview]; exact Nat.pos_of_ne_zero hne)
      rw [hview] at hused
      exact Bool.false_ne_true hused
    rw [halloc, hzero]
    exact ⟨rfl, fun h => absurd h (lt_irrefl 0)⟩
  · have hb : b = 0 := by
      by_contra hne
      have hused := hbefore 0 (Nat.pos_of_ne_zero hne)
      rw [hview] at hused
      exact Bool.false_ne_true hused
    subst hb
    have hpos : 0 < blocksOf partSectors := by
      rw [hview] at hlt
      exact hlt
    have hroot : ValidIno inodeRoot := ⟨by decide, by decide⟩
    rw [halloc]
    dsimp only
    rw [writeInodeRaw_pair st' hroot]
    refine ⟨(decide_eq_true hpos).symm, fun _ => ⟨_, rfl, ?_, { Inode.empty modeDir 2 with
      size := UInt64.ofNat g.bytes, direct := (Vector.replicate 8 0).set 0 (UInt32.ofNat 0) },
      ?_, fun k => ?_, ?_⟩⟩
    · have halloc' := readLba_allocBlock st
      rw [halloc] at halloc'
      rw [writeBlock, readLba_writeLba_of_ne _ (by simp [dataStartLba]), writeInodeRaw_eq _ hroot,
        readLba_writeLba_of_ne, halloc']
      exact Nat.ne_of_gt (lt_of_lt_of_le (by decide) (inodePlace_spec g hroot.2).1)
    · show decide (modeDir &&& 0xF000 = modeDir) = true
      decide
    · rw [Vector.get_eq_getElem, Vector.getElem_set, Vector.getElem_replicate]
      exact ite_self _
    · rw [view_writeBlock, view_writeInodeRaw _ hroot, hview', hview]
      refine Volume.ext rfl rfl (funext fun b => ?_) rfl rfl rfl
      dsimp only
      rw [Function.update_apply]
      by_cases hb : b = 0
      · rw [if_pos hb, hb]
        rfl
      · rw [if_neg hb]
        exact (beq_false_of_ne hb).symm

/-! ### The sectors that formatting leaves alone -/

theorem view_formatted {st : State g} {partSectors : UInt64} {label : Path}
    (h : (mkfs st.disk partSectors label).1 = true) :
    0 < blocksOf partSectors ∧ ∃ inode, inode.isDir = true ∧
      (∀ k : Fin 8, inode.direct.get k = 0) ∧
      (st.formatted partSectors label).view =
        ⟨true, blocksOf partSectors, fun b => b == 0, fun i => i == 0 || i == 1,
          Function.update (fun _ => .free) inodeRoot inode,
          (st.formatted partSectors label).view.block⟩ := by
  obtain ⟨hfst, hspec⟩ := mkfs_spec st.disk partSectors label
  have hpos : 0 < blocksOf partSectors := of_decide_eq_true (hfst ▸ h)
  obtain ⟨st', hdisk, hsb, inode, hdir, hzero, hview⟩ := hspec hpos
  refine ⟨hpos, inode, hdir, hzero, ?_⟩
  have hread : ({ st with disk := (mkfs st.disk partSectors label).2 } : State g).readLba 0 =
      st'.readLba 0 := by
    rw [hdisk]
    rfl
  obtain ⟨hmagic, htotal⟩ := fields_superblock st.disk partSectors label
  unfold formatted mount
  dsimp only
  rw [hread, hsb, if_pos hmagic, htotal, hdisk]
  show { st'.view with ready := true, total := blocksOf partSectors } =
    (⟨_, _, _, _, _, st'.view.block⟩ : Volume)
  rw [hview]

theorem formatted_sound {st : State g} {partSectors : UInt64} {label : Path}
    (h : (mkfs st.disk partSectors label).1 = true) :
    (st.formatted partSectors label).view.Sound := by
  obtain ⟨hpos, inode, -, hzero, hview⟩ := view_formatted h
  have hfree (i : ℕ) (k : Fin 8) :
      (Function.update (fun _ => Inode.free) inodeRoot inode i).direct.get k = 0 := by
    rw [Function.update_apply]
    split_ifs
    · exact hzero k
    · exact Vector.getElem_replicate _
  rw [hview]
  refine ⟨Nat.min_le_right _ _, ⟨hpos, rfl⟩, fun i _ k _ _ => hfree i k, ?_, ?_⟩
  · intro p b hp
    exact absurd (hfree p.1 p.2) (Inode.pointer_eq_some.mp hp).1
  · intro p q b hp
    exact absurd (hfree p.1 p.2) (Inode.pointer_eq_some.mp hp).1

end State

/-! ## Block ownership -/

variable {g : SectorSize}

/-- The inode `ino` is allocated and its pointer `k` names block `b`. -/
def PointsTo (st : State g) (ino : ℕ) (k : Fin 8) (b : ℕ) : Prop :=
  bitmapGet st.readInodeBmap ino = true ∧
    ∃ inode, st.readInodeRaw ino = some inode ∧ inode.direct.get k ≠ 0 ∧ (inode.direct.get k).toNat = b

/-- Blocks in use exist, are marked in the bitmap and belong to one pointer. -/
structure BlockOwnership (st : State g) : Prop where
  lt_total : ∀ ino k b, PointsTo st ino k b → b < st.totalBlocks
  marked : ∀ ino k b, PointsTo st ino k b → bitmapGet st.readBlockBmap b = true
  owner : ∀ ino k ino' k' b, PointsTo st ino k b → PointsTo st ino' k' b → ino = ino' ∧ k = k'

theorem PointsTo.held {st : State g} {ino : ℕ} {k : Fin 8} {b : ℕ} (h : PointsTo st ino k b) :
    st.view.held (ino, k) = some b := by
  obtain ⟨-, inode, hread, hne, hb⟩ := h
  have hinode : st.view.inode ino = inode := congrArg (·.getD .free) hread
  refine Inode.pointer_eq_some.mpr ?_
  rw [hinode]
  exact ⟨hne, hb⟩

theorem blockOwnership_of_sound {st : State g} (h : st.view.Sound) : BlockOwnership st where
  lt_total ino k b hb := (h.holding.used_of_held (ino, k) b hb.held).1
  marked ino k b hb := (h.holding.used_of_held (ino, k) b hb.held).2
  owner ino k ino' k' b hb hb' :=
    Prod.mk.inj (h.holding.inj (ino, k) (ino', k') b hb.held hb'.held)

/-- **Block ownership.** In every run on a file system that `mkfs` has made, with any paths and
data, the blocks the inodes point to exist, are marked as used and belong to one pointer each. -/
theorem always_blockOwnership (st : State g) (partSectors : UInt64) (label : Path)
    (h : (State.mkfs st.disk partSectors label).1 = true) (as : List Action) :
    Always step BlockOwnership (st.formatted partSectors label) as := by
  have hsound : Always step (fun st => st.view.Sound) (st.formatted partSectors label) as :=
    always_of_eachStep (G := fun _ _ => True) (State.formatted_sound h)
      (fun st a hv _ => step_sound hv a) (eachStep_of_forall_mem fun _ _ => trivial)
  exact hsound.imp fun st => blockOwnership_of_sound

/-- A run on a partition of 76 sectors of zeros. -/
theorem always_blockOwnership_smallPartition :
    Always step BlockOwnership
      ((State.new (g := .small) fun _ => Vector.replicate _ 0).formatted 76 [])
      [.mkdir "/d".toList, .writeFile "/d/f".toList [1], .remove "/d".toList] :=
  always_blockOwnership _ 76 [] (by rw [(State.mkfs_spec _ 76 []).1]; decide) _

end Aeterna.Vfs.AeternaFs
