import Aeterna.Vfs.AeternaFs.Integrity

/-!
# What the answers of AeternaFS mean

The loop of `write_file` ends after eight blocks whatever is left of the data, a directory is written
like a file, and `mkdir` takes anything that its path finds for the directory: their answer can be true
with nothing of the kind to be read. Within these limits it is true to the volume (`always_truthful`).

When `write_file` gives up half-way, what it has taken and written stays, and so do the directories
above the one that `mkdir` could not make. A call that can only be refused before its first write
leaves no trace (`always_clean`).
-/

namespace Aeterna.Vfs.AeternaFs

open Lib Lib.Bytes Lib.Buffer

variable {g : SectorSize} {st : State g}

/-! ## Success -/

/-- A call that answers true has done what it is for. -/
def Truthful (st : State g) : Action → Prop
  | .writeFile path data => (st.writeFile path data).1 = true →
      (st.writeFile path data).2.readFile path = some data
  | .appendFile path data => (st.appendFile path data).1 = true →
      (st.appendFile path data).2.readFile path = some ((st.readFile path).getD [] ++ data)
  | .mkdir path => (st.mkdir path).1 = true → IsDirectory (st.mkdir path).2 path
  | _ => True

/-- `mkdir` finds the directory, or nothing under a name that its parent takes, or no inode. -/
def MakesDirectory (st : State g) (path : Path) : Prop :=
  (splitPath path).2 = [] ∨ ∃ parent, st.lookupPath (splitPath path).1 = some parent ∧
    (IsDirectory st path ∨ st.lookupPath path = none ∧ ((∀ i, ¬ Available st.files i) ∨
      st.Room parent (splitPath path).2 1 ∧ 0 ∉ pathBytes (splitPath path).2))

/-- Files are written under names without a zero byte and with no more than eight blocks of data. -/
def WithinLimits (st : State g) : Action → Prop
  | .writeFile path data => 0 ∉ pathBytes (splitPath path).2 ∧ data.length ≤ 8 * g.bytes
  | .appendFile path data => 0 ∉ pathBytes (splitPath path).2 ∧
      ((st.readFile path).getD [] ++ data).length ≤ 8 * g.bytes
  | .mkdir path => MakesDirectory st path
  | _ => True

theorem Ordered.isDirectory_mkdir (h : Ordered st) {path : Path} (hmakes : MakesDirectory st path)
    (hok : (st.mkdir path).1 = true) : IsDirectory (st.mkdir path).2 path := by
  obtain ⟨L, hL⟩ := h.linked
  obtain ⟨slots, hslots⟩ := hL.root_dir
  by_cases hname : (splitPath path).2 = []
  · rw [State.mkdir_of_root hname]
    refine isDirectory_of_node (i := inodeRoot) ?_ hslots
    rcases names_splitPath path with ⟨-, hnil⟩ | ⟨hne, -⟩
    · rw [hnil]
      rfl
    · exact absurd hname hne
  obtain ⟨parent, hparent, hmakes⟩ := hmakes.resolve_left hname
  rw [State.mkdir_of_parent h.ready hname hparent] at hok ⊢
  rcases hmakes with hdir | ⟨hnone, hmakes⟩
  · obtain ⟨i, inode, hi, -⟩ := id hdir
    have hfound : st.mkdirAt path parent (splitPath path).2 = (true, st) := if_pos (by rw [hi]; rfl)
    rw [hfound]
    exact hdir
  rw [State.lookupPath_files] at hparent hnone
  have hmem := hL.lookup_mem hparent
  have hmkdir := State.mkdirAt_result h.sound path (splitPath path).2 (hL.used parent hmem).1
    (hL.used parent hmem).2 (hL.formed parent hmem)
  rw [hok] at hmkdir
  generalize (st.mkdirAt path parent (splitPath path).2).2 = st' at hmkdir
  generalize hfiles : st'.files = f' at hmkdir
  cases hmkdir with
  | found hpath => exact absurd hnone hpath
  | orphaned _ hi _ hroom =>
    rcases hmakes with hfull | hmakes
    · exact absurd hi (hfull _)
    · exact absurd hmakes.1 hroom
  | @created i s slots slots' hpath hi _ hd hlen hins =>
    have hiL := hL.not_mem_of_available hi
    have hzero := (hmakes.resolve_left fun hfull => hfull i hi).2
    obtain ⟨hnew, -⟩ :=
      hL.lookup_created (.dir s) hpath hiL hi.valid hparent hd hlen hzero hins
    have hne : i ≠ parent := fun hc => hiL (hc ▸ hmem)
    have hnode : st'.files.node i = .dir s := by
      rw [hfiles, Files.set_node_of_ne _ hne, Files.create_node_self]
    exact isDirectory_of_node (hfiles ▸ hnew) hnode

theorem Ordered.truthful (h : Ordered st) {a : Action} (hcall : FileCall st a)
    (ha : WithinLimits st a) : Truthful st a := by
  cases a with
  | writeFile path data => exact fun hok => (h.read_writeFile ha.1 hcall ha.2 hok).1
  | appendFile path data => exact fun hok => (h.read_writeFile ha.1 hcall ha.2 hok).1
  | mkdir path => exact fun hok => h.isDirectory_mkdir ha hok
  | writeAt path offset data => trivial
  | touch path => trivial
  | remove path => trivial

/-- **Success is truthful.** In runs of calls that write and remove no directory and stay within the
limits of the format. -/
theorem always_truthful (st : State g) (partSectors : UInt64) (label : Path)
    (h : (State.mkfs st.disk partSectors label).1 = true) (as : List Action)
    (has : EachStep step (fun st a => FileCall st a ∧ WithinLimits st a)
      (st.formatted partSectors label) as) :
    EachStep step Truthful (st.formatted partSectors label) as :=
  eachStep_of_eachStep (P := Ordered) (formatted_ordered h) (fun _ _ h ha => h.step ha.1)
    (fun _ _ h ha => h.truthful ha.1 ha.2) has

/-- A file is written and read back. -/
theorem always_truthful_threeBlocks :
    EachStep step Truthful threeBlocks [.writeFile ['/', 'f'] [7]] := by
  refine always_truthful _ 77 [] mkfs_threeBlocks _ ⟨⟨?_, by decide +kernel, by decide⟩, trivial⟩
  rintro ⟨i, inode, hi, -⟩
  exact Option.some_ne_none i (hi.symm.trans (lookupPath_threeBlocks ['f'] (by decide)))

theorem not_truthful_of_writeRoot (h : Ordered st)
    (hdir : (st.view.inode inodeRoot).isDir = true) : ¬ Truthful st (.writeFile rootPath []) := by
  intro htruth
  have hroot : ValidIno inodeRoot := ⟨by decide, by decide⟩
  have hwrite := writeFile_directory h.ready (State.lookupPath_root _) hroot hdir []
  have hread := htruth (by rw [hwrite]; exact State.writeData_true h.sound hroot (Nat.zero_le _))
  have hchunks (ks : List (Fin 8)) (inode : Inode) :
      State.writeChunks ks st inode [] = (some inode, st) := by
    cases ks <;> rfl
  rw [hwrite, State.writeData, State.readInodeRaw_of_valid _ hroot] at hread
  dsimp only at hread
  rw [hchunks, State.readFile_files, State.files_flush, names_root] at hread
  have hnone (inode : Inode) (hinode : inode.isDir = true) :
      (st.writeInodeRaw inodeRoot inode).2.files.content inodeRoot = none := by
    unfold Files.content
    rw [State.node_eq, State.view_writeInodeRaw st hroot]
    dsimp only
    rw [Function.update_self, nodeOf_dir hinode]
  split_ifs at hread
  exact Option.some_ne_none _ (hread.symm.trans (hnone _ hdir))

/-- Writing nothing to `/` succeeds, and `/` is still no file. -/
theorem not_truthful_writeRoot : ¬ EachStep step Truthful threeBlocks [.writeFile ['/'] []] := by
  rintro ⟨htruth, -⟩
  have hnode : threeBlocks.files.node inodeRoot = .dir [] := node_formatted mkfs_threeBlocks
  rw [State.node_eq] at hnode
  exact not_truthful_of_writeRoot (formatted_ordered mkfs_threeBlocks) (isDir_of_nodeOf hnode).1
    htruth

/-! ## Failure -/

/-- No path, no file and no bitmap has changed. -/
structure Same (st st' : State g) : Prop where
  read : ∀ path, st'.readFile path = st.readFile path
  paths : ∀ path, st'.exists path = st.exists path
  inodes : st'.view.inodeUsed = st.view.inodeUsed
  blocks : st'.view.blockUsed = st.view.blockUsed

theorem Same.refl (st : State g) : Same st st := ⟨fun _ => rfl, fun _ => rfl, rfl, rfl⟩

/-- A call that answers false has changed nothing. -/
def Clean (st : State g) : Action → Prop
  | .writeFile path data => (st.writeFile path data).1 = false → Same st (st.writeFile path data).2
  | .mkdir path => (st.mkdir path).1 = false → Same st (st.mkdir path).2
  | _ => True

/-- The number of blocks that a write to the inode can take: those of a file are freed first. -/
def Volume.writable (v : Volume) (ino : ℕ) : ℕ :=
  ((Finset.range v.total).filter fun b => v.blockUsed b = false ∨
    (v.inode ino).isReg = true ∧ ∃ k, (v.inode ino).pointer k = some b).card

/-- A write to a file that is there has blocks for its data, and one to a new file also has an entry
in a directory, or is refused before it changes anything. -/
def HasRoom (st : State g) (path : Path) (data : Data) : Prop :=
  match st.lookupPath path with
  | some ino => data.length ≤ st.view.writable ino * g.bytes
  | none => st.lookupPath (splitPath path).1 = none ∨
      ∃ d, st.lookupPath (splitPath path).1 = some d ∧ st.files.used d = true ∧
        st.Room d (splitPath path).2 0 ∧ data.length ≤ (st.view.freeBlocks - 1) * g.bytes

/-- Writes have room, and directories are made in parents that are there; or there is no inode. -/
def Provided (st : State g) : Action → Prop
  | .writeFile path data => HasRoom st path data ∨
      st.lookupPath path = none ∧ ∀ i, ¬ Available st.files i
  | .mkdir path => (splitPath path).2 = [] ∨ st.lookupPath (splitPath path).1 ≠ none ∨
      ∀ i, ¬ Available st.files i
  | _ => True

theorem HasRoom.provided {path : Path} {data : Data} (h : HasRoom st path data) :
    Provided st (.writeFile path data) := Or.inl h

namespace State

theorem writable_le_truncate (hv : st.view.Sound) {ino : ℕ} (hino : ValidIno ino) :
    st.view.writable ino ≤ (st.truncate ino).view.freeBlocks := by
  unfold truncate
  rw [readInodeRaw_of_valid st hino]
  dsimp only
  split_ifs with hreg
  · obtain ⟨st', hst', -, used, hview, hfreed⟩ := release_spec hv hino { st.view.inode ino with
      direct := Vector.replicate 8 0, size := 0 } fun k => Vector.getElem_replicate _
    rw [hst', hview]
    exact Finset.card_le_card (Finset.monotone_filter_right _ fun b _ hb =>
      hfreed b (hb.imp_right And.right))
  · exact Finset.card_le_card (Finset.monotone_filter_right _ fun b _ hb =>
      hb.resolve_right fun hb => hreg hb.1)

theorem allocInode_of_full (hfull : ∀ i, ¬ Available st.files i) : st.allocInode = (none, st) := by
  rcases newInode_cases st modeReg 1 with ⟨halloc, -⟩ | ⟨i, -, -, -, -, hroot, hi, hfree, -⟩
  · exact halloc
  · exact absurd ⟨hroot, hi, hfree⟩ (hfull i)

theorem createFile_of_full (hfull : ∀ i, ¬ Available st.files i) (parentPath filename : Path) :
    st.createFile parentPath filename = (none, st) := by
  unfold createFile
  cases st.lookupPath parentPath with
  | none => rfl
  | some d =>
    dsimp only
    rw [allocInode_of_full hfull]

theorem writeFile_of_createFile {path : Path} (data : Data) (hpath : st.lookupPath path = none)
    (hcreate : st.createFile (splitPath path).1 (splitPath path).2 = (none, st)) :
    (st.writeFile path data).2 = st := by
  unfold writeFile
  split_ifs
  · rfl
  · rw [hpath]
    dsimp only
    rw [hcreate]

theorem writeFile_of_false (hv : st.view.Sound) {path : Path} {data : Data}
    (hroom : HasRoom st path data) (hfail : (st.writeFile path data).1 = false) :
    (st.writeFile path data).2 = st := by
  unfold HasRoom at hroom
  by_cases hready : st.ready = true
  swap
  · unfold writeFile
    rw [if_pos (by simpa using hready)]
  cases hpath : st.lookupPath path with
  | some ino =>
    rw [hpath] at hroom
    unfold writeFile at hfail ⊢
    rw [if_neg (by rw [hready]; decide), hpath] at hfail ⊢
    by_cases hino : ValidIno ino
    · have htrue := writeData_true (truncate_sound hv ino) hino
        (hroom.trans (Nat.mul_le_mul_right _ (writable_le_truncate hv hino)))
      exact absurd (htrue.symm.trans hfail) (by decide)
    · have hnone := readInodeRaw_of_not_valid st hino
      simp only [truncate, writeData, hnone]
  | none =>
    rw [hpath] at hroom
    rcases hroom with hparent | ⟨d, hparent, hused, hroom, hdata⟩
    · refine writeFile_of_createFile data hpath ?_
      rw [createFile, hparent]
    · by_cases hany : ∃ i, Available st.files i
      · have htrue := writeFile_true hv hready hpath hparent hused hany hroom hdata
        exact absurd (htrue.symm.trans hfail) (by decide)
      · exact writeFile_of_createFile data hpath (createFile_of_full (not_exists.mp hany) _ _)

theorem mkdirAt_of_full (hfull : ∀ i, ¬ Available st.files i) (path : Path) (parent : ℕ)
    (dirname : Path) : (st.mkdirAt path parent dirname).2 = st := by
  unfold mkdirAt
  split_ifs
  · rfl
  · rw [allocInode_of_full hfull]

theorem mkdirAt_of_false {path dirname : Path} {parent : ℕ}
    (hfail : (st.mkdirAt path parent dirname).1 = false) :
    (st.mkdirAt path parent dirname).2 = st := by
  unfold mkdirAt at hfail ⊢
  split_ifs at hfail ⊢
  rcases newInode_cases st modeDir 2 with ⟨halloc, -⟩ | ⟨i, st₁, st₂, halloc, hwrite, -⟩
  · rw [halloc]
  · rw [halloc] at hfail
    dsimp only at hfail
    rw [hwrite] at hfail
    cases hfail

theorem mkdir_of_false {path : Path} (hparent : (splitPath path).2 = [] ∨
      st.lookupPath (splitPath path).1 ≠ none ∨ ∀ i, ¬ Available st.files i)
    (hfail : (st.mkdir path).1 = false) : (st.mkdir path).2 = st := by
  by_cases hname : (splitPath path).2 = []
  · exact mkdir_of_root hname
  rcases hparent.resolve_left hname with hparent | hfull
  · obtain ⟨parent, hparent⟩ := Option.ne_none_iff_exists'.mp hparent
    by_cases hready : st.ready = true
    · rw [mkdir_of_parent hready hname hparent] at hfail ⊢
      exact mkdirAt_of_false hfail
    · rw [mkdir, if_pos (by simpa using hready)]
  · refine mkdir_rule (P := fun st' => st' = st) (fun st' path parent h _ _ => ?_) rfl path
    rw [h]
    exact mkdirAt_of_full hfull path parent _

end State

theorem clean_of_provided (hv : st.view.Sound) {a : Action} (ha : Provided st a) : Clean st a := by
  cases a with
  | writeFile path data =>
    intro hfail
    rcases ha with hroom | ⟨hpath, hfull⟩
    · rw [State.writeFile_of_false hv hroom hfail]
      exact .refl st
    · rw [State.writeFile_of_createFile data hpath (State.createFile_of_full hfull _ _)]
      exact .refl st
  | mkdir path =>
    intro hfail
    rw [State.mkdir_of_false ha hfail]
    exact .refl st
  | appendFile path data => trivial
  | writeAt path offset data => trivial
  | touch path => trivial
  | remove path => trivial

/-- **Failure is clean.** In runs whose writes are refused at once or have room, and whose
directories are made in parents that are there. -/
theorem always_clean (st : State g) (partSectors : UInt64) (label : Path)
    (h : (State.mkfs st.disk partSectors label).1 = true) (as : List Action)
    (has : EachStep step Provided (st.formatted partSectors label) as) :
    EachStep step Clean (st.formatted partSectors label) as :=
  eachStep_of_eachStep (P := fun st : State g => st.view.Sound) (State.formatted_sound h)
    (fun _ a hv _ => step_sound hv a) (fun _ _ hv ha => clean_of_provided hv ha) has

/-- A write to a directory that is missing. -/
theorem always_clean_missing :
    EachStep step Clean threeBlocks [.writeFile ['/', 'd', '/', 'f'] [7]] := by
  have hpath : threeBlocks.lookupPath ['/', 'd', '/', 'f'] = none := by
    rw [State.lookupPath_files, show names ['/', 'd', '/', 'f'] = [['d'], ['f']] by decide]
    exact lookup_formatted mkfs_threeBlocks ['d'] [['f']]
  refine always_clean _ 77 [] mkfs_threeBlocks _ ⟨HasRoom.provided ?_, trivial⟩
  rw [← threeBlocks, HasRoom]
  rw [hpath]
  exact Or.inl (lookupPath_threeBlocks ['d'] (by decide))

/-- A name of 28 bytes. -/
def longName : Path := List.replicate 28 'a'

/-- A name that is too long is refused after the inode has been taken. -/
theorem not_clean_of_longName {path : Path} {data : Data} {d i : ℕ} (hready : st.ready = true)
    (hpath : st.lookupPath path = none) (hparent : st.lookupPath (splitPath path).1 = some d)
    (hlong : 27 < (pathBytes (splitPath path).2).length) (hi : Available st.files i) :
    ¬ Clean st (.writeFile path data) := by
  intro hclean
  rcases State.newInode_cases st modeReg 1 with
    ⟨-, hfull⟩ | ⟨j, st₁, st₂, halloc, hwrite, -, -, hfree, -, hview⟩
  · have hused := hfull i hi.above_root hi.valid.2
    exact Bool.false_ne_true (hi.unused.symm.trans hused)
  have hadd : st₂.dirAddEntry d (splitPath path).2 j = (false, st₂) := by
    unfold State.dirAddEntry
    cases st₂.readInodeRaw d with
    | none => rfl
    | some inode =>
      dsimp only
      rw [if_pos hlong, ite_self]
  have hresult : st.writeFile path data = (false, st₂) := by
    unfold State.writeFile State.createFile
    rw [if_neg (by rw [hready]; decide), hpath]
    dsimp only
    rw [hparent]
    dsimp only
    rw [halloc]
    dsimp only
    rw [hwrite]
    dsimp only
    rw [hadd]
  have hsame := hclean (by rw [hresult])
  rw [hresult] at hsame
  have hused := congrFun hsame.inodes j
  rw [hfree, hview] at hused
  dsimp only at hused
  rw [Function.update_self] at hused
  exact Bool.false_ne_true hused.symm

theorem not_clean_longName :
    ¬ EachStep step Clean threeBlocks [.writeFile ('/' :: longName) [7]] := by
  rintro ⟨hclean, -⟩
  have hready : threeBlocks.ready = true := (formatted_ordered mkfs_threeBlocks).ready
  have hsplit : splitPath ('/' :: longName) = (rootPath, longName) := by decide +kernel
  have hpath : threeBlocks.lookupPath ('/' :: longName) = none :=
    lookupPath_threeBlocks longName (by decide +kernel)
  have havail : Available threeBlocks.files 2 := available_formatted mkfs_threeBlocks
  have hroot : threeBlocks.lookupPath (splitPath ('/' :: longName)).1 = some inodeRoot := by
    rw [hsplit, State.lookupPath_root]
  refine not_clean_of_longName hready hpath hroot ?_ havail hclean
  rw [hsplit]
  decide +kernel

end Aeterna.Vfs.AeternaFs
