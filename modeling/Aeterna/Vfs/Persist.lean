import Aeterna.Vfs.Image

/-!
# Flush and recovery

A flush that reports success has written the image of the tree to the disk
(`disk_syncFilesystem`), and what is read back from it is `clipTree` of the tree if the reader takes
an image of that size (`readBack_flushed`) and nothing if it does not
(`readBack_flushed_of_large`). The flush looks at none of these limits, so one that succeeds keeps
the tree exactly when it is within them.
-/

namespace Aeterna.Vfs

open Lib.Bytes

/-- The tree that boot recovers from the disk. -/
def readBack (disk : Disk) : Option Tree := (readFromDisk disk).bind deserializeRamfs

/-! ## The read loop -/

theorem readBatches_eq (disk : Disk) {sectorCount fuel done : ℕ} (hdone : done ≤ sectorCount)
    (hfuel : sectorCount ≤ done + fuel) :
    readBatches disk sectorCount fuel done (disk.read lbaBase done) =
      disk.read lbaBase sectorCount := by
  induction fuel generalizing done with
  | zero =>
    obtain rfl : done = sectorCount := by omega
    rfl
  | succ fuel ih =>
    rw [readBatches]
    dsimp only
    split_ifs with hmore
    · rw [← Device.read_add]
      exact ih (by omega) (by omega)
    · obtain rfl : done = sectorCount := by omega
      rfl

theorem readFromDisk_eq_some_iff {disk : Disk} {buf : Data} :
    readFromDisk disk = some buf ↔
      leValue ((disk.read lbaBase 1).take 8) = superMagic ∧
      ∃ sectors, leValue (((disk.read lbaBase 1).drop 8).take 4) = sectors ∧
        0 < sectors ∧ sectors ≤ maxFsBytes / 512 ∧ disk.read lbaBase sectors = buf := by
  have hread (sectors : ℕ) : readBatches disk sectors sectors 0 [] = disk.read lbaBase sectors :=
    readBatches_eq disk (Nat.zero_le _) (by omega)
  unfold readFromDisk
  simp only [hread, ne_eq, ite_not]
  constructor
  · intro h
    split_ifs at h with hmagic hcount
    exact ⟨hmagic, _, rfl, by omega, by omega, Option.some.inj h⟩
  · rintro ⟨hmagic, sectors, rfl, hpos, hle, rfl⟩
    rw [if_pos hmagic, if_neg (by omega)]

theorem requiredSize_le_of_readBack {disk : Disk} {tree : Tree}
    (h : readBack disk = some tree) : requiredSize tree ≤ maxFsBytes := by
  obtain ⟨buf, hbuf, htree⟩ := Option.bind_eq_some_iff.mp h
  obtain ⟨-, sectors, -, -, hle, rfl⟩ := readFromDisk_eq_some_iff.mp hbuf
  have hsize := requiredSize_le_of_deserialize htree
  rw [Device.length_read] at hsize
  calc requiredSize tree ≤ 512 * sectors := hsize
    _ ≤ 512 * (maxFsBytes / 512) := Nat.mul_le_mul_left _ hle
    _ ≤ maxFsBytes := Nat.mul_div_le _ _

/-! ## The image in the buffer -/

theorem length_flatMap_encodeEntry (es : List Entry) :
    es.length ≤ (es.flatMap encodeEntry).length ∧
      (es.flatMap encodeEntry).length ≤ (es.map entrySize).sum := by
  induction es with
  | nil => simp
  | cons e es ih =>
    have hle := length_encodeEntry_le e
    have hge := length_encodeEntry_ge e
    simp only [List.length_cons, List.flatMap_cons, List.length_append, List.map_cons,
      List.sum_cons]
    omega

theorem sum_entrySize_recorded (tree : Tree) :
    30 + ((recorded tree).map entrySize).sum ≤ requiredSize tree := by
  have hsum : ((recorded tree).map entrySize).sum ≤ (tree.toList.map entrySize).sum :=
    (List.filter_sublist.map entrySize).sum_le_sum fun _ _ => Nat.zero_le _
  rw [requiredSize_eq]
  omega

theorem entrySize_le_requiredSize {tree : Tree} {e : Entry} (h : e ∈ tree.toList) :
    30 + entrySize e ≤ requiredSize tree := by
  have hle := List.le_sum_of_mem (List.mem_map_of_mem (f := entrySize) h)
  rw [requiredSize_eq]
  omega

theorem imageOf_ne_nil (tree : Tree) (sectors : ℕ) : imageOf tree sectors ≠ [] := by
  intro h
  have := congrArg List.length h
  simp [imageOf] at this

theorem length_imageOf_le (tree : Tree) (sectors : ℕ) :
    (imageOf tree sectors).length ≤ requiredSize tree := by
  have hrecords := length_flatMap_encodeEntry (recorded tree)
  have hsum := sum_entrySize_recorded tree
  rw [imageOf, List.length_append, length_header]
  omega

theorem length_recorded_le (tree : Tree) : (recorded tree).length ≤ requiredSize tree := by
  have hrecords := length_flatMap_encodeEntry (recorded tree)
  have hsum := sum_entrySize_recorded tree
  omega

/-- The sector count is in the image already when it is patched in. -/
theorem bufferOf_imageOf (tree : Tree) (cap sectors : ℕ) :
    bufferOf (imageOf tree sectors) cap sectors =
      imageOf tree sectors ++ List.replicate (cap - (imageOf tree sectors).length) 0 := by
  have hpatch : patch (imageOf tree sectors) 8 (leBytes 4 sectors) = imageOf tree sectors := by
    rw [← List.append_nil (imageOf tree sectors), imageOf_append, ← List.append_assoc]
    exact patch_append rfl
  rw [bufferOf, hpatch]

theorem requiredSize_le_sectorsNeeded (tree : Tree) :
    requiredSize tree ≤ sectorsNeeded tree * 512 := by
  unfold sectorsNeeded
  omega

theorem sectorsNeeded_pos (tree : Tree) : 0 < sectorsNeeded tree := by
  unfold sectorsNeeded
  omega

theorem sectorsNeeded_le_iff (tree : Tree) :
    sectorsNeeded tree ≤ maxFsBytes / 512 ↔ requiredSize tree ≤ maxFsBytes := by
  unfold sectorsNeeded maxFsBytes
  omega

theorem medBuffer_ge {kept : Option ℕ} {total cap : ℕ} {framesFree : Bool}
    (h : medBuffer kept total framesFree = some cap) : total ≤ cap := by
  unfold medBuffer at h
  dsimp only at h
  split at h <;> split_ifs at h <;> cases h <;> omega

theorem exists_medBuffer (kept : Option ℕ) (total : ℕ) :
    ∃ cap, medBuffer kept total true = some cap := by
  unfold medBuffer
  cases kept with
  | none => exact ⟨_, rfl⟩
  | some cap =>
    by_cases hcap : cap ≥ total
    · exact ⟨cap, if_pos hcap⟩
    · exact ⟨_, if_neg hcap⟩

/-! ## The disk after a flush -/

/-- The disk with the image of the tree on it, from a buffer of `cap` bytes. -/
def flushed (disk : Disk) (tree : Tree) (cap : ℕ) : Disk :=
  disk.write lbaBase (sectorsNeeded tree % 2 ^ 32)
    (imageOf tree (sectorsNeeded tree) ++
      List.replicate (cap - (imageOf tree (sectorsNeeded tree)).length) 0)

theorem flushImage_disk {s : SyncState} {drivers : Drivers} {buffer : Data} {sectors : ℕ}
    (h : (flushImage s drivers buffer sectors).1 = true) :
    (flushImage s drivers buffer sectors).2.disk =
      s.disk.write lbaBase (sectors % 2 ^ 32) buffer := by
  unfold flushImage at h ⊢
  dsimp only at h ⊢
  split_ifs at h ⊢ with hwritten hverified
  rfl

/-- A dirty flush that succeeds puts the image on the disk. -/
theorem disk_syncFilesystem {s : SyncState} {drivers : Drivers} {tree : Tree}
    (htree : s.tree = some tree) (hdirty : s.dirty = true)
    (hsync : (syncFilesystem s drivers).1 = true) :
    ∃ cap, sectorsNeeded tree * 512 ≤ cap ∧
      (syncFilesystem s drivers).2.disk = flushed s.disk tree cap := by
  unfold syncFilesystem at hsync ⊢
  simp only [htree, hdirty, not_true_eq_false, if_false] at hsync ⊢
  split_ifs at hsync ⊢ with hempty
  cases hbuf : medBuffer s.medCapacity (sectorsNeeded tree * 512) drivers.framesFree with
  | none => simp [hbuf] at hsync
  | some cap =>
    have hcap := medBuffer_ge hbuf
    have himage := serializeRamfsInto_eq
      (le_trans (requiredSize_le_sectorsNeeded tree) hcap) (sectorsNeeded tree)
    simp only [hbuf, himage] at hsync ⊢
    split_ifs at hsync ⊢ with hnil
    refine ⟨cap, hcap, ?_⟩
    rw [flushImage_disk hsync, bufferOf_imageOf]
    rfl

section Flushed

variable {tree : Tree} {cap : ℕ} (disk : Disk)

theorem read_flushed (hsmall : sectorsNeeded tree < 2 ^ 32)
    (hcap : sectorsNeeded tree * 512 ≤ cap) {more : ℕ} (hmore : more ≤ sectorsNeeded tree) :
    (flushed disk tree cap).read lbaBase more =
      (imageOf tree (sectorsNeeded tree) ++
        List.replicate (cap - (imageOf tree (sectorsNeeded tree)).length) 0).take (512 * more) := by
  apply Device.read_write
  · rwa [Nat.mod_eq_of_lt hsmall]
  · rw [List.length_append, List.length_replicate]
    omega

/-- The first sector has the magic and the sector count. -/
theorem read_flushed_header (hsmall : sectorsNeeded tree < 2 ^ 32)
    (hcap : sectorsNeeded tree * 512 ≤ cap) :
    leValue (((flushed disk tree cap).read lbaBase 1).take 8) = superMagic ∧
      leValue ((((flushed disk tree cap).read lbaBase 1).drop 8).take 4) =
        sectorsNeeded tree := by
  rw [read_flushed disk hsmall hcap (sectorsNeeded_pos tree), List.take_take, List.drop_take,
    List.take_take, imageOf_append, drop_leBytes_append]
  constructor
  · show leValue (List.take 8 _) = superMagic
    rw [take_leBytes_append]
    exact leValue_leBytes_of_lt (by decide)
  · show leValue (List.take 4 _) = sectorsNeeded tree
    rw [take_leBytes_append]
    exact leValue_leBytes_of_lt hsmall

theorem readBack_flushed (hsize : requiredSize tree ≤ maxFsBytes)
    (hcap : sectorsNeeded tree * 512 ≤ cap) :
    readBack (flushed disk tree cap) = some (clipTree tree) := by
  have hle := (sectorsNeeded_le_iff tree).mpr hsize
  have hsmall : sectorsNeeded tree < 2 ^ 32 := lt_of_le_of_lt hle (by decide)
  obtain ⟨hmagic, hcount⟩ := read_flushed_header disk hsmall hcap
  have hread : readFromDisk (flushed disk tree cap) =
      some ((flushed disk tree cap).read lbaBase (sectorsNeeded tree)) :=
    readFromDisk_eq_some_iff.mpr ⟨hmagic, _, hcount, sectorsNeeded_pos tree, hle, rfl⟩
  have himage : (imageOf tree (sectorsNeeded tree)).length ≤ 512 * sectorsNeeded tree := by
    have := length_imageOf_le tree (sectorsNeeded tree)
    have := requiredSize_le_sectorsNeeded tree
    omega
  rw [readBack, hread, Option.bind_some, read_flushed disk hsmall hcap le_rfl,
    List.take_append, List.take_of_length_le himage]
  apply deserializeRamfs_image
  exact lt_of_le_of_lt (le_trans (length_recorded_le tree) hsize) (by decide)

theorem readBack_flushed_of_large (hsize : maxFsBytes < requiredSize tree)
    (hsmall : sectorsNeeded tree < 2 ^ 32) (hcap : sectorsNeeded tree * 512 ≤ cap) :
    readBack (flushed disk tree cap) = none := by
  have hread : readFromDisk (flushed disk tree cap) = none := by
    rw [Option.eq_none_iff_forall_ne_some]
    intro buf hbuf
    obtain ⟨-, sectors, hcount, -, hle, -⟩ := readFromDisk_eq_some_iff.mp hbuf
    rw [(read_flushed_header disk hsmall hcap).2] at hcount
    have := (sectorsNeeded_le_iff tree).mp (hcount ▸ hle)
    omega
  rw [readBack, hread, Option.bind_none]

end Flushed

/-! ## Success -/

/-- A dirty tree is flushed when the drivers do their part, however large it is for the reader. -/
theorem syncFilesystem_succeeds {s : SyncState} {drivers : Drivers} {tree : Tree}
    (htree : s.tree = some tree) (hdirty : s.dirty = true) (hne : tree.isEmpty = false)
    (hsmall : sectorsNeeded tree < 2 ^ 32) (hframes : drivers.framesFree = true)
    (hwritten : drivers.written = true) (hverified : drivers.verified = true) :
    (syncFilesystem s drivers).1 = true := by
  obtain ⟨cap, hbuf⟩ := exists_medBuffer s.medCapacity (sectorsNeeded tree * 512)
  have hcap := medBuffer_ge hbuf
  have himage := serializeRamfsInto_eq
    (le_trans (requiredSize_le_sectorsNeeded tree) hcap) (sectorsNeeded tree)
  have hnil := imageOf_ne_nil tree (sectorsNeeded tree)
  have hmagic := (read_flushed_header s.disk hsmall hcap).1
  unfold flushed at hmagic
  unfold syncFilesystem
  simp only [htree, hdirty, hne, hframes, hbuf, himage, hnil, not_true_eq_false, if_false,
    Bool.false_eq_true]
  unfold flushImage
  simp only [hwritten, hverified, bufferOf_imageOf, hmagic, not_true_eq_false, ne_eq, or_self,
    if_false]

/-! ## What a successful flush keeps -/

theorem readBack_syncFilesystem {s : SyncState} {drivers : Drivers} {tree : Tree}
    (htree : s.tree = some tree) (hdirty : s.dirty = true)
    (hsync : (syncFilesystem s drivers).1 = true) (hsize : requiredSize tree ≤ maxFsBytes) :
    readBack (syncFilesystem s drivers).2.disk = some (clipTree tree) := by
  obtain ⟨cap, hcap, hdisk⟩ := disk_syncFilesystem htree hdirty hsync
  rw [hdisk, readBack_flushed s.disk hsize hcap]

/-- After a dirty flush that reports success, boot recovers the tree if and only if its paths and
files fit their records and its image fits the reader's limit. -/
theorem readBack_syncFilesystem_iff {s : SyncState} {drivers : Drivers} {tree : Tree}
    (htree : s.tree = some tree) (hdirty : s.dirty = true)
    (hsync : (syncFilesystem s drivers).1 = true) :
    readBack (syncFilesystem s drivers).2.disk = some tree ↔
      Fits tree ∧ requiredSize tree ≤ maxFsBytes := by
  constructor
  · intro h
    have hsize := requiredSize_le_of_readBack h
    rw [readBack_syncFilesystem htree hdirty hsync hsize, Option.some.injEq] at h
    exact ⟨(clipTree_eq_iff tree).mp h, hsize⟩
  · rintro ⟨hfits, hsize⟩
    rw [readBack_syncFilesystem htree hdirty hsync hsize, (clipTree_eq_iff tree).mpr hfits]

/-- A dirty tree, a blank disk and no buffer yet. -/
def unsynced (tree : Tree) : SyncState where
  tree := some tree
  dirty := true
  lastDirtyTick := 0
  lastSnapshotBytes := 0
  medCapacity := none
  disk := fun _ => Vector.replicate 512 0

/-- Frames to spare and a disk without faults. -/
def sound : Drivers where
  framesFree := true
  written := true
  torn := fun _ => Vector.replicate 512 0
  verified := true

theorem length_lt_requiredSize_oneFile (data : Data) :
    data.length < requiredSize (oneFile data) := by
  have hmem : ("/big".toList, RamNode.file data) ∈ (oneFile data).toList := by
    rw [Std.ExtTreeMap.mem_toList_iff_getElem?_eq_some, getElem?_oneFile, if_pos rfl]
  have hle := entrySize_le_requiredSize hmem
  rw [entrySize] at hle
  omega

theorem isEmpty_oneFile (data : Data) : (oneFile data).isEmpty = false := by
  rw [← Bool.not_eq_true, Std.ExtTreeMap.isEmpty_iff]
  intro hempty
  have hroot := getElem?_oneFile data rootPath
  simp [hempty, rootPath] at hroot

theorem syncFilesystem_oneFile {data : Data} (h : data.length ≤ maxFsBytes) :
    sectorsNeeded (oneFile data) < 2 ^ 32 ∧
      (syncFilesystem (unsynced (oneFile data)) sound).1 = true := by
  have hsmall : sectorsNeeded (oneFile data) < 2 ^ 32 := by
    have hle := requiredSize_oneFile_le data
    unfold maxFsBytes at h
    unfold sectorsNeeded
    omega
  exact ⟨hsmall, syncFilesystem_succeeds rfl rfl (isEmpty_oneFile data) hsmall rfl rfl rfl⟩

theorem readBack_syncFilesystem_small :
    (syncFilesystem (unsynced (oneFile [1, 2, 3])) sound).1 = true ∧
      readBack (syncFilesystem (unsynced (oneFile [1, 2, 3])) sound).2.disk =
        some (oneFile [1, 2, 3]) := by
  obtain ⟨-, hsync⟩ := syncFilesystem_oneFile (show [1, 2, 3].length ≤ maxFsBytes by decide)
  refine ⟨hsync, (readBack_syncFilesystem_iff rfl rfl hsync).mpr ⟨fits_oneFile (by decide), ?_⟩⟩
  exact le_trans (requiredSize_oneFile_le _) (by decide)

/-- A file of 8 MiB: the flush reports success and nothing comes back. -/
theorem not_readBack_syncFilesystem_big :
    (syncFilesystem (unsynced (oneFile (List.replicate 8388608 0))) sound).1 = true ∧
      readBack (syncFilesystem (unsynced (oneFile (List.replicate 8388608 0))) sound).2.disk =
        none := by
  generalize hdata : (List.replicate 8388608 0 : Data) = data
  have hlen : data.length = maxFsBytes := by
    rw [← hdata, List.length_replicate]
    rfl
  obtain ⟨hsmall, hsync⟩ := syncFilesystem_oneFile (le_of_eq hlen)
  obtain ⟨cap, hcap, hdisk⟩ := disk_syncFilesystem rfl rfl hsync
  refine ⟨hsync, ?_⟩
  rw [hdisk, readBack_flushed_of_large _ _ hsmall hcap]
  rw [← hlen]
  exact length_lt_requiredSize_oneFile data

end Aeterna.Vfs
