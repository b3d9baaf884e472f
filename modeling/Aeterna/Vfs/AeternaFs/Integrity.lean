import Aeterna.Vfs.AeternaFs.ReadWrite

/-!
# Name space integrity of AeternaFS

`write_file` and `remove` take any inode their path leads to, and `mkdir` drops the answer of
`dir_add_entry`: a write to `/` replaces the root's entries (`not_integrity_writeRoot`). The name space
keeps its integrity in runs that write and remove files only, and make directories under proper names
in parents that have room for them (`always_integrity`).
-/

namespace Aeterna.Vfs.AeternaFs

open Lib Lib.Bytes Lib.Buffer

variable {g : SectorSize}

/-! ## Runs that keep the name space -/

/-- `mkdir` finds the directory, or finds a parent for it that takes its name, or no inode. -/
def CanMkdir (st : State g) (path : Path) : Prop :=
  (splitPath path).2 = [] ∨ ∃ parent, st.lookupPath (splitPath path).1 = some parent ∧
    (st.lookupPath path ≠ none ∨ (∀ i, ¬ Available st.files i) ∨
      st.Room parent (splitPath path).2 1 ∧ 0 ∉ pathBytes (splitPath path).2 ∧
        (splitPath path).2 ≠ ['.'] ∧ (splitPath path).2 ≠ ['.', '.'])

/-- The calls that keep the name space. -/
def SafeCall (st : State g) (a : Action) : Prop :=
  FileCall st a ∧ ∀ path, a = .mkdir path → CanMkdir st path

/-- The invariant of runs of such calls. -/
structure Intact (st : State g) : Prop where
  ordered : Ordered st
  owned : ∃ L, st.files.Linked L ∧ st.files.Owned L

namespace Intact

variable {st : State g}

theorem integrity (h : Intact st) : st.files.Integrity := by
  obtain ⟨L, hL, howned⟩ := h.owned
  exact hL.integrity howned

theorem writeFile (h : Intact st) {path : Path} (hpath : ¬ IsDirectory st path) (data : Data) :
    Intact (st.writeFile path data).2 := by
  obtain ⟨L, hL, howned⟩ := h.owned
  obtain ⟨L', hL', howned'⟩ := hL.of_write
    (fun _ hi => h.ordered.reg_of_not_directory hpath hi) (h.ordered.writeFile_result hpath data)
  exact ⟨h.ordered.writeFile hpath data, L', hL', howned' howned⟩

theorem mkdir (h : Intact st) {path : Path} (hpath : CanMkdir st path) :
    Intact (st.mkdir path).2 := by
  refine ⟨h.ordered.mkdir path, ?_⟩
  obtain ⟨L, hL, howned⟩ := h.owned
  rcases hpath with hname | ⟨parent, hparent, hcan⟩
  · rw [State.mkdir_of_root hname]
    exact ⟨L, hL, howned⟩
  by_cases hname : (splitPath path).2 = []
  · rw [State.mkdir_of_root hname]
    exact ⟨L, hL, howned⟩
  rw [State.mkdir_of_parent h.ordered.ready hname hparent]
  rw [State.lookupPath_files] at hparent hcan
  have hmem := hL.lookup_mem hparent
  obtain ⟨L', hL', howned'⟩ := hL.of_mkdir hmem (State.mkdirAt_result h.ordered.sound path
    (splitPath path).2 (hL.used parent hmem).1 (hL.used parent hmem).2 (hL.formed parent hmem))
  exact ⟨L', hL', howned' howned hcan⟩

theorem remove (h : Intact st) {path : Path} (hpath : ¬ IsDirectory st path) :
    Intact (st.remove path).2 := by
  obtain ⟨L, hL, howned⟩ := h.owned
  obtain ⟨L', hL', howned'⟩ := hL.of_remove
    (State.remove_result h.ordered.sound h.ordered.ready path hL.root_dir
      fun _ hi => h.ordered.reg_of_not_directory hpath hi)
  exact ⟨h.ordered.remove hpath, L', hL', howned' howned⟩

theorem step (h : Intact st) {a : Action} (ha : SafeCall st a) : Intact (step st a) := by
  obtain ⟨hcall, hmkdir⟩ := ha
  cases a with
  | writeFile path data => exact h.writeFile hcall data
  | appendFile path data => exact h.writeFile hcall _
  | writeAt path offset data => exact h.writeFile hcall _
  | touch path =>
    show Intact (st.touch path).2
    unfold State.touch
    split_ifs with hexists
    · exact h
    · exact h.writeFile (h.ordered.not_directory_of_not_exists hexists) []
  | mkdir path => exact h.mkdir (hmkdir path rfl)
  | remove path => exact h.remove hcall

end Intact

theorem formatted_intact {st : State g} {partSectors : UInt64} {label : Path}
    (h : (State.mkfs st.disk partSectors label).1 = true) :
    Intact (st.formatted partSectors label) := by
  have hL := linked_formatted h
  refine ⟨formatted_ordered h, _, hL, fun i slots hi hused hnode => ?_, fun i hi _ _ hroot => ?_,
    fun d p d' p' i hentry => ?_⟩
  · obtain ⟨-, inode, -, -, hview⟩ := State.view_formatted h
    rw [State.used_eq, hview] at hused
    rcases Bool.or_eq_true_iff.mp hused with hzero | hone
    · exact absurd (beq_iff_eq.mp hzero) hi.1
    · exact beq_iff_eq.mp hone
  · exact absurd hi hroot
  · obtain ⟨rfl, -, raw, ⟨slots, hslots, hp, -⟩, -⟩ := hentry
    obtain rfl := Node.dir.inj ((node_formatted h).symm.trans hslots)
    exact absurd hp.symm (Option.some_ne_none raw)

/-- **Name space integrity.** Runs of calls that write and remove files only, and make directories
where there is room for them, keep the name space. -/
theorem always_integrity (st : State g) (partSectors : UInt64) (label : Path)
    (h : (State.mkfs st.disk partSectors label).1 = true) (as : List Action)
    (has : EachStep step SafeCall (st.formatted partSectors label) as) :
    Always step (fun st => st.files.Integrity) (st.formatted partSectors label) as := by
  have hintact := always_of_eachStep (P := Intact) (formatted_intact h)
    (fun st a h ha => h.step ha) has
  exact hintact.imp fun st h => h.integrity

/-- A directory and a file in it. -/
theorem always_integrity_threeBlocks :
    Always step (fun st => st.files.Integrity) threeBlocks
      [.mkdir ['/', 'd'], .touch ['/', 'd', '/', 'f']] := by
  refine always_integrity _ 77 [] mkfs_threeBlocks _ ⟨⟨trivial, ?_⟩, ⟨trivial, ?_⟩, trivial⟩
  · rintro path hpath
    obtain rfl := Action.mkdir.inj hpath
    refine Or.inr ⟨inodeRoot, State.lookupPath_root _, Or.inr (Or.inr ⟨?_, ?_⟩)⟩
    · exact room_formatted mkfs_threeBlocks (by decide +kernel) (by decide)
    · decide +kernel
  · intro path hpath
    exact Action.noConfusion hpath

/-! ## A write to the root -/

/-- Data written to an empty directory are its entries. -/
theorem has_writeData {st : State g} (hv : st.view.Sound) {d : ℕ} (hd : ValidIno d)
    (hdir : (st.view.inode d).isDir = true) (hzero : ∀ k : Fin 8, (st.view.inode d).direct.get k = 0)
    {data : Data} (hne : data ≠ []) (hcap : data.length ≤ 8 * g.bytes)
    (hfree : data.length ≤ st.view.freeBlocks * g.bytes)
    (hlive : direntIno (dirent (Device.fit g.bytes (data.take g.bytes)) 0) ≠ 0) :
    (st.writeData d data).2.files.used = st.files.used ∧
      (st.writeData d data).2.files.Has d 0
        (dirent (Device.fit g.bytes (data.take g.bytes)) 0) := by
  obtain ⟨inode, hsome⟩ :=
    State.writeChunks_isSome hv (List.finRange 8) (st.view.inode d) data hfree
  obtain ⟨bs, hgrown, hlen, hresult⟩ :=
    State.writeChunks_spec hv (List.finRange 8) (st.view.inode d) data 0 (by intro t ht; simp)
  unfold State.writeData
  rw [State.readInodeRaw_of_valid st hd]
  dsimp only
  rw [List.length_finRange] at hlen hresult
  generalize State.writeChunks (List.finRange 8) st (st.view.inode d) data = result at *
  obtain ⟨out, st'⟩ := result
  obtain rfl : out = some inode := hsome
  dsimp only at hgrown hresult ⊢
  obtain ⟨inode', hinode', hpoint, hholds⟩ := hresult.resolve_left (Option.some_ne_none _)
  obtain rfl := Option.some.inj hinode'
  have hview := State.view_writeInodeRaw st' hd { inode with size := UInt64.ofNat data.length }
  generalize (st'.writeInodeRaw d { inode with size := UInt64.ofNat data.length }).2 = st'' at *
  have hinode : st''.view.inode d = { inode with size := UInt64.ofNat data.length } := by
    rw [hview]
    exact Function.update_self d _ _
  have hdir' : (st''.view.inode d).isDir = true := by
    rw [hinode]
    unfold Inode.isDir at hdir ⊢
    rw [hpoint.mode]
    exact hdir
  have hblocks : (st''.view.inode d).liveBlocks = bs := by
    rw [hinode]
    exact liveBlocks_of_pointed hv hgrown hlen (hpoint.resize _) hzero
  rw [State.files_flush]
  constructor
  · funext i
    rw [State.used_eq, State.used_eq, hview, hgrown.inodeUsed]
  · -- the first slot of the first block
    have hholds := hholds hcap
    cases bs with
    | nil => exact absurd hholds hne
    | cons b bs =>
      obtain ⟨-, hb, -⟩ := hholds
      have hblock : st''.view.block b = Device.fit g.bytes (data.take g.bytes) := by
        rw [hview]
        exact hb
      refine ⟨_, nodeOf_dir hdir', ?_, hlive⟩
      have hpos : 0 < g.bytes / 32 := Nat.zero_lt_of_lt bytes_div_pos
      rw [slotsOf, hblocks, List.flatMap_cons, hblock, List.getElem?_append_left, blockSlots,
        List.getElem?_map, List.getElem?_range hpos]
      · rfl
      · rw [length_blockSlots]
        exact hpos

theorem writeFile_directory {st : State g} (hready : st.ready = true) {path : Path} {d : ℕ}
    (hpath : st.lookupPath path = some d) (hd : ValidIno d)
    (hdir : (st.view.inode d).isDir = true) (data : Data) :
    st.writeFile path data = st.writeData d data := by
  have htruncate : st.truncate d = st := by
    unfold State.truncate
    rw [State.readInodeRaw_of_valid st hd]
    dsimp only
    rw [if_neg (by rw [not_reg_of_dir hdir]; decide)]
  unfold State.writeFile
  rw [if_neg (by rw [hready]; decide), hpath]
  dsimp only
  rw [htruncate]

/-- A write to an empty `/` can give it an entry for an inode that is not in use. -/
theorem not_integrity_of_writeRoot {st : State g} (h : Ordered st)
    (hdir : (st.view.inode inodeRoot).isDir = true)
    (hzero : ∀ k : Fin 8, (st.view.inode inodeRoot).direct.get k = 0) (hfree : 0 < st.view.freeBlocks)
    (hunused : st.files.used 9 = false) :
    ¬ (step st (.writeFile rootPath [9, 0, 0, 0, 120])).files.Integrity := by
  intro hintegrity
  have hroot : ValidIno inodeRoot := ⟨by decide, by decide⟩
  have hino : direntIno (dirent (Device.fit g.bytes
      (([9, 0, 0, 0, 120] : Data).take g.bytes)) 0) = 9 := by
    cases g <;> decide +kernel
  have hbytes : 5 ≤ g.bytes := by cases g <;> decide
  obtain ⟨hused, hhas⟩ := has_writeData h.sound hroot hdir hzero
    (List.cons_ne_nil 9 [0, 0, 0, 120]) (by show 5 ≤ 8 * g.bytes; omega)
    (hbytes.trans (Nat.le_mul_of_pos_left _ hfree)) (by rw [hino]; decide)
  rw [← writeFile_directory h.ready (State.lookupPath_root _) hroot hdir] at hused hhas
  have hentry := (hintegrity.entries inodeRoot 0 _ .root hhas).2.1
  rw [hino] at hentry
  exact Bool.false_ne_true (hunused.symm.trans ((congrFun hused 9).symm.trans hentry))

/-- A write to `/` on a new file system. -/
theorem not_integrity_writeRoot :
    ¬ Always step (fun st => st.files.Integrity) threeBlocks
      [.writeFile ['/'] [9, 0, 0, 0, 120]] := by
  intro h
  obtain ⟨-, inode, hdir, hzero, hview⟩ := State.view_formatted mkfs_threeBlocks
  have hinode : threeBlocks.view.inode inodeRoot = inode := by
    rw [threeBlocks, hview]
    dsimp only
    rw [Function.update_self]
  have hunused : threeBlocks.files.used 9 = false := by
    rw [State.used_eq, threeBlocks, hview]
    rfl
  have hfree : 0 < threeBlocks.view.freeBlocks := by
    rw [threeBlocks, freeBlocks_formatted mkfs_threeBlocks]
    decide
  rw [← hinode] at hdir hzero
  exact not_integrity_of_writeRoot (formatted_ordered mkfs_threeBlocks) hdir hzero hfree hunused h.2

end Aeterna.Vfs.AeternaFs
