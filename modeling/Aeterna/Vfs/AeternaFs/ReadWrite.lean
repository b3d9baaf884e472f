import Aeterna.Vfs.AeternaFs.Calls
import Aeterna.Vfs.AeternaFs.Format
import Aeterna.Vfs.AeternaFs.Namespace

/-!
# Reading what was written

In runs that write and remove no directory the files stay linked (`Ordered`), and there a write that
succeeds is read back and changes no other file (`readFile_writeFile`).
-/

namespace Aeterna.Vfs.AeternaFs

open Lib Lib.Bytes Lib.Buffer

/-! ## Linked files stay linked -/

theorem Dots.isDot {i parent : ℕ} {s : List Data} (h : Dots i parent s) {raw : Data}
    (hraw : raw ∈ s) (hne : direntIno raw ≠ 0) : IsDot raw := by
  rcases h.entries raw hraw hne with rfl | rfl
  · exact Or.inl (direntName_entryBytes _ (by decide +kernel) (by decide +kernel))
  · exact Or.inr (direntName_entryBytes _ (by decide +kernel) (by decide +kernel))

namespace Files.Linked

variable {f f' : Files} {L : Set ℕ}

theorem not_mem_of_available (h : f.Linked L) {i : ℕ} (hi : Available f i) : i ∉ L := by
  intro hmem
  exact Bool.false_ne_true (hi.unused.symm.trans (h.used i hmem).2)

theorem create (h : f.Linked L) {i : ℕ} (hi : i ∉ L) (n : Node) : (f.create i n).Linked L := by
  have hne {j : ℕ} (hj : j ∈ L) : j ≠ i := fun hji => hi (hji ▸ hj)
  exact h.congr (fun j hj => create_node_of_ne f (hne hj) n)
    fun j hj => create_used_of_ne f (hne hj) n

theorem of_write (h : f.Linked L) {path : Path} {data : Data} {cap : ℕ} {ok : Bool}
    (hreg : ∀ i, f.lookup (names path) = some i → ∃ c, f.node i = .file c)
    (hwrite : WriteResult f path data cap ok f') :
    ∃ L', f'.Linked L' ∧ (f.Owned L → f'.Owned L') := by
  cases hwrite with
  | rewritten hpath _ =>
    obtain ⟨c, hc⟩ := hreg _ hpath
    exact ⟨L, h.setFile hc _, fun ho => ho.setFile hc _⟩
  | refused _ => exact ⟨L, h, id⟩
  | orphaned _ hi =>
    have hiL := h.not_mem_of_available hi
    exact ⟨L, h.create hiL _, fun ho => ho.createFile h hiL _⟩
  | @created _ i d slots slots' content _ hi hparent hd hdi hname hins _ =>
    have hiL := h.not_mem_of_available hi
    have hdL := h.lookup_mem hparent
    have hnode : (f.create i (.file content)).node i = .file content := create_node_self f i _
    refine ⟨insert i L, (h.create hiL (.file content)).link hdL ?_ hiL hi.valid
      (create_used_self f i _) ?_ hname hins ?_ ?_, fun ho => ?_⟩
    · rw [create_node_of_ne f hdi, hd]
    · rw [hnode]
      exact Node.noConfusion
    · exact fun s hs => absurd hnode (not_file_of_dir hs)
    · rintro p raw ⟨s, hs, -⟩
      exact absurd hnode (not_file_of_dir hs)
    · exact ho.link h hdL hd hiL hi.valid hname hins fun s hs => Node.noConfusion hs

/-- The directories stay owned if the new one comes under its name into a parent with room. -/
theorem of_mkdir (h : f.Linked L) {path : Path} {parent : ℕ} {dirname : Path} {ok : Bool}
    {room : Prop} (hparent : parent ∈ L) (hmkdir : MkdirResult f path parent dirname room ok f') :
    ∃ L', f'.Linked L' ∧
      (f.Owned L → f.lookup (names path) ≠ none ∨ (∀ i, ¬ Available f i) ∨ room ∧
        0 ∉ pathBytes dirname ∧ dirname ≠ ['.'] ∧ dirname ≠ ['.', '.'] → f'.Owned L') := by
  cases hmkdir with
  | found _ => exact ⟨L, h, fun ho _ => ho⟩
  | full _ => exact ⟨L, h, fun ho _ => ho⟩
  | @orphaned i s hpath hi hdots hroom =>
    refine ⟨L, h.create (h.not_mem_of_available hi) _, fun _ hsafe => ?_⟩
    rcases hsafe with hfound | hfull | ⟨hr, -⟩
    · exact absurd hpath hfound
    · exact absurd hi (hfull i)
    · exact absurd hr hroom
  | @created i s slots slots' hpath hi hdots hd hname hins =>
    have hiL := h.not_mem_of_available hi
    have hnode : (f.create i (.dir s)).node i = .dir s := create_node_self f i _
    refine ⟨insert i L, (h.create hiL (.dir s)).link hparent ?_ hiL hi.valid
      (create_used_self f i _) ?_ hname hins ?_ ?_, fun ho hsafe => ?_⟩
    · have hpi : parent ≠ i := fun hpi => hiL (hpi ▸ hparent)
      rw [create_node_of_ne f hpi, hd]
    · rw [hnode]
      exact Node.noConfusion
    · intro s' hs'
      obtain rfl := Node.dir.inj (hnode.symm.trans hs')
      exact hdots.formed
    · rintro p raw ⟨s', hs', hp, hne⟩
      obtain rfl := Node.dir.inj (hnode.symm.trans hs')
      rcases hdots.entries raw (List.mem_of_getElem? hp) hne with rfl | rfl
      · exact Or.inl (direntIno_entryBytes hi.valid.2 (by decide +kernel))
      · exact Or.inr (direntIno_entryBytes (h.used parent hparent).1.2 (by decide +kernel))
    · rcases hsafe with hfound | hfull | ⟨-, hzero, hone, htwo⟩
      · exact absurd hpath hfound
      · exact absurd hi (hfull i)
      refine ho.link h hparent hd hiL hi.valid hname hins fun s' hs' => ⟨?_, fun raw hraw hne => ?_⟩
      · rw [IsDot, direntName_entryBytes i hname hzero]
        exact not_or.mpr ⟨hone, htwo⟩
      · obtain rfl := Node.dir.inj hs'
        exact hdots.isDot hraw hne

theorem of_remove (h : f.Linked L) {path : Path} {ok : Bool} (hremove : RemoveResult f path ok f') :
    ∃ L', f'.Linked L' ∧ (f.Owned L → f'.Owned L') := by
  cases hremove with
  | missing _ => exact ⟨L, h, id⟩
  | @removed i d p slots raw c hpath hi hparent hd hp hraw =>
    have hdL := h.lookup_mem hparent
    exact ⟨L \ {i}, h.unlink hdL hd hp hraw hi (h.used i (h.lookup_mem hpath)).1.1,
      fun ho => ho.unlink hdL hd hp hraw hi⟩

end Files.Linked

/-! ## States in good order -/

variable {g : SectorSize}

def IsDirectory (st : State g) (path : Path) : Prop :=
  ∃ i inode, st.lookupPath path = some i ∧ st.readInodeRaw i = some inode ∧ inode.isDir = true

theorem isDirectory_of_node {st : State g} {path : Path} {i : ℕ} {slots : List Data}
    (hi : st.files.lookup (names path) = some i) (hnode : st.files.node i = .dir slots) :
    IsDirectory st path := by
  have hvalid : ValidIno i := State.valid_of_node (by rw [hnode]; exact Node.noConfusion)
  refine ⟨i, st.view.inode i, ?_, State.readInodeRaw_of_valid st hvalid, (isDir_of_nodeOf hnode).1⟩
  rw [State.lookupPath_files, hi]

/-- The calls that write or remove no directory. -/
def FileCall (st : State g) : Action → Prop
  | .writeFile path _ => ¬ IsDirectory st path
  | .appendFile path _ => ¬ IsDirectory st path
  | .writeAt path _ _ => ¬ IsDirectory st path
  | .touch _ => True
  | .mkdir _ => True
  | .remove path => ¬ IsDirectory st path

/-- The invariant of runs of such calls. -/
structure Ordered (st : State g) : Prop where
  sound : st.view.Sound
  ready : st.ready = true
  linked : ∃ L, st.files.Linked L

namespace Ordered

variable {st : State g}

theorem reg_of_not_directory (h : Ordered st) {path : Path} (hpath : ¬ IsDirectory st path) {i : ℕ}
    (hi : st.files.lookup (names path) = some i) : ∃ c, st.files.node i = .file c := by
  obtain ⟨L, hL⟩ := h.linked
  have hmem := hL.lookup_mem hi
  cases hnode : st.files.node i with
  | file c => exact ⟨c, rfl⟩
  | dir slots => exact absurd (isDirectory_of_node hi hnode) hpath
  | other => exact absurd hnode (hL.kind i hmem)

theorem formed_of_lookup (h : Ordered st) {ns : List Path} {d : ℕ} {slots : List Data}
    (hd : st.files.lookup ns = some d) (hnode : st.files.node d = .dir slots) :
    ∀ raw ∈ slots, Formed raw := by
  obtain ⟨L, hL⟩ := h.linked
  exact hL.formed d (hL.lookup_mem hd) slots hnode

theorem writeFile_result (h : Ordered st) {path : Path} (hpath : ¬ IsDirectory st path)
    (data : Data) :
    WriteResult st.files path data (8 * g.bytes) (st.writeFile path data).1
      (st.writeFile path data).2.files :=
  State.writeFile_result h.sound h.ready path data (fun _ hi => h.reg_of_not_directory hpath hi)
    fun _ _ hd hnode => h.formed_of_lookup hd hnode

theorem writeFile (h : Ordered st) {path : Path} (hpath : ¬ IsDirectory st path) (data : Data) :
    Ordered (st.writeFile path data).2 := by
  have hwrite := h.writeFile_result hpath data
  obtain ⟨L, hL⟩ := h.linked
  obtain ⟨L', hL', -⟩ := hL.of_write (fun _ hi => h.reg_of_not_directory hpath hi) hwrite
  exact ⟨State.writeFile_sound h.sound path data, hwrite.ready.trans h.ready, L', hL'⟩

theorem mkdir (h : Ordered st) (path : Path) : Ordered (st.mkdir path).2 := by
  refine State.mkdir_rule (P := Ordered) (fun st path parent h hparent _ => ?_) h path
  obtain ⟨L, hL⟩ := h.linked
  rw [State.lookupPath_files] at hparent
  have hmem := hL.lookup_mem hparent
  have hmkdir := State.mkdirAt_result h.sound path (splitPath path).2 (hL.used parent hmem).1
    (hL.used parent hmem).2 (hL.formed parent hmem)
  obtain ⟨L', hL', -⟩ := hL.of_mkdir hmem hmkdir
  exact ⟨State.mkdirAt_sound h.sound .., hmkdir.ready.trans h.ready, L', hL'⟩

theorem remove (h : Ordered st) {path : Path} (hpath : ¬ IsDirectory st path) :
    Ordered (st.remove path).2 := by
  obtain ⟨L, hL⟩ := h.linked
  have hremove := State.remove_result h.sound h.ready path hL.root_dir
    fun _ hi => h.reg_of_not_directory hpath hi
  obtain ⟨L', hL', -⟩ := hL.of_remove hremove
  exact ⟨State.remove_sound h.sound path, hremove.ready.trans h.ready, L', hL'⟩

theorem not_directory_of_not_exists (h : Ordered st) {path : Path}
    (hpath : ¬ st.exists path = true) : ¬ IsDirectory st path := by
  rintro ⟨i, inode, hi, -⟩
  refine hpath ?_
  rw [State.exists, h.ready, hi]
  rfl

theorem step (h : Ordered st) {a : Action} (ha : FileCall st a) : Ordered (step st a) := by
  cases a with
  | writeFile path data => exact h.writeFile ha data
  | appendFile path data => exact h.writeFile ha _
  | writeAt path offset data => exact h.writeFile ha _
  | touch path =>
    show Ordered (st.touch path).2
    unfold State.touch
    split_ifs with hexists
    · exact h
    · exact h.writeFile (h.not_directory_of_not_exists hexists) []
  | mkdir path => exact h.mkdir path
  | remove path => exact h.remove ha

end Ordered

theorem inode_formatted {st : State g} {partSectors : UInt64} {label : Path}
    (h : (State.mkfs st.disk partSectors label).1 = true) :
    ((st.formatted partSectors label).view.inode inodeRoot).isDir = true ∧
      ∀ k, ((st.formatted partSectors label).view.inode inodeRoot).direct.get k = 0 := by
  obtain ⟨-, inode, hdir, hzero, hview⟩ := State.view_formatted h
  rw [hview]
  dsimp only
  rw [Function.update_self]
  exact ⟨hdir, hzero⟩

theorem node_formatted {st : State g} {partSectors : UInt64} {label : Path}
    (h : (State.mkfs st.disk partSectors label).1 = true) :
    (st.formatted partSectors label).files.node inodeRoot = .dir [] := by
  obtain ⟨hdir, hzero⟩ := inode_formatted h
  have hlive := liveBlocks_eq_take (n := 0) (fun _ hk => absurd hk (Nat.not_lt_zero _)) fun k _ =>
    hzero k
  rw [State.node_eq, nodeOf_dir hdir, slotsOf, hlive]
  rfl

theorem linked_formatted {st : State g} {partSectors : UInt64} {label : Path}
    (h : (State.mkfs st.disk partSectors label).1 = true) :
    (st.formatted partSectors label).files.Linked {inodeRoot} := by
  have hnode := node_formatted h
  have hnone {d p : ℕ} {raw : Data} (hd : d ∈ ({inodeRoot} : Set ℕ)) :
      ¬ (st.formatted partSectors label).files.Has d p raw := by
    rintro ⟨slots, hslots, hp, -⟩
    rw [Set.mem_singleton_iff.mp hd] at hslots
    obtain rfl := Node.dir.inj (hnode.symm.trans hslots)
    exact Option.some_ne_none raw hp.symm
  refine ⟨rfl, ⟨[], hnode⟩, ?_, ?_, ?_, fun d hd p raw hraw => absurd hraw (hnone hd),
    fun d hd _ _ _ _ _ _ hraw => absurd hraw (hnone hd)⟩
  · rintro i rfl
    obtain ⟨-, inode, -, -, hview⟩ := State.view_formatted h
    refine ⟨⟨by decide, by decide⟩, ?_⟩
    rw [State.used_eq, hview]
    dsimp only
    decide
  · rintro i rfl
    rw [hnode]
    exact Node.noConfusion
  · rintro d rfl slots hslots
    obtain rfl := Node.dir.inj (hnode.symm.trans hslots)
    exact fun raw hraw => absurd hraw List.not_mem_nil

theorem formatted_ordered {st : State g} {partSectors : UInt64} {label : Path}
    (h : (State.mkfs st.disk partSectors label).1 = true) :
    Ordered (st.formatted partSectors label) := by
  refine ⟨State.formatted_sound h, ?_, _, linked_formatted h⟩
  obtain ⟨-, inode, -, -, hview⟩ := State.view_formatted h
  rw [State.ready_eq, hview]

section Formatted

variable {st : State g} {partSectors : UInt64} {label : Path}

theorem lookup_formatted (h : (State.mkfs st.disk partSectors label).1 = true) (n : Path)
    (ns : List Path) : (st.formatted partSectors label).files.lookup (n :: ns) = none := by
  rw [Files.lookup, List.foldlM_cons, Files.dirLookup_of_dir (node_formatted h)]
  rfl

theorem available_formatted (h : (State.mkfs st.disk partSectors label).1 = true) :
    Available (st.formatted partSectors label).files 2 := by
  obtain ⟨-, inode, -, -, hview⟩ := State.view_formatted h
  refine ⟨by decide, ⟨by decide, by decide⟩, ?_⟩
  rw [State.used_eq, hview]
  rfl

theorem freeBlocks_formatted (h : (State.mkfs st.disk partSectors label).1 = true) :
    (st.formatted partSectors label).view.freeBlocks = State.blocksOf partSectors - 1 := by
  obtain ⟨hpos, inode, -, -, hview⟩ := State.view_formatted h
  have hfree : ((Finset.range (State.blocksOf partSectors)).filter fun b => (b == 0) = false) =
      (Finset.range (State.blocksOf partSectors)).erase 0 := by
    ext b
    simp only [Finset.mem_filter, Finset.mem_erase, beq_eq_false_iff_ne, and_comm]
  rw [hview, Volume.freeBlocks]
  rw [hfree, Finset.card_erase_of_mem (Finset.mem_range.mpr hpos), Finset.card_range]

theorem room_formatted (h : (State.mkfs st.disk partSectors label).1 = true) {name : Path} {n : ℕ}
    (hname : (pathBytes name).length ≤ 27) (hn : n + 1 < State.blocksOf partSectors) :
    (st.formatted partSectors label).Room inodeRoot name n := by
  obtain ⟨hdir, hzero⟩ := inode_formatted h
  refine ⟨⟨by decide, by decide⟩, hdir, hname, Or.inr ⟨⟨0, hzero 0⟩, ?_⟩⟩
  rw [freeBlocks_formatted h]
  omega

end Formatted

/-! ## Read after write -/

namespace Files

variable {f : Files} {L : Set ℕ}

theorem dirLookup_created {d i : ℕ} {slots slots' : List Data} {name : Path}
    (new : Node) (hi : i ∉ L) (hnode : f.node d = .dir slots)
    (hvalid : ValidIno i) (hname : (pathBytes name).length ≤ 27) (hzero : 0 ∉ pathBytes name)
    (hins : Inserted slots slots' (entryBytes i name)) (hnone : f.dirLookup d name = none) :
    ((f.create i new).set d (.dir slots')).dirLookup d name = some i ∧
      ∀ e ∈ L, ∀ n j, f.dirLookup e n = some j →
        ((f.create i new).set d (.dir slots')).dirLookup e n = some j := by
  have hino := direntIno_entryBytes hvalid.2 hname
  have hnamed (n : Path) : isNamed n (entryBytes i name) = (name == n) := by
    rw [isNamed, hino, direntName_entryBytes i hname hzero, bne_iff_ne.mpr hvalid.1, Bool.true_and]
  rw [dirLookup_of_dir hnode, Option.map_eq_none_iff] at hnone
  constructor
  · rw [dirLookup_of_dir (set_node_self _ d _), hins.find?_new hnone (by rw [hnamed]; simp),
      Option.map_some, hino]
  · intro e he n j hj
    by_cases hed : e = d
    · subst hed
      rw [dirLookup_of_dir hnode] at hj
      have hne : name ≠ n := by
        rintro rfl
        rw [hnone] at hj
        exact Option.some_ne_none j hj.symm
      rw [dirLookup_of_dir (set_node_self _ e _),
        hins.find?_eq (by rw [hnamed]; exact beq_false_of_ne hne), hj]
    · have hei : e ≠ i := fun hei => hi (hei ▸ he)
      rw [dirLookup_eq_of_node (set_node_of_ne _ hed _),
        dirLookup_eq_of_node (create_node_of_ne f hei _), hj]

/-- A node with a new name is found under its path, and all else as before. -/
theorem Linked.lookup_created (h : f.Linked L) {path : Path} {d i : ℕ} {slots slots' : List Data}
    (new : Node) (hpath : f.lookup (names path) = none) (hi : i ∉ L) (hvalid : ValidIno i)
    (hparent : f.lookup (names (splitPath path).1) = some d) (hd : f.node d = .dir slots)
    (hname : (pathBytes (splitPath path).2).length ≤ 27) (hzero : 0 ∉ pathBytes (splitPath path).2)
    (hins : Inserted slots slots' (entryBytes i (splitPath path).2)) :
    ((f.create i new).set d (.dir slots')).lookup (names path) = some i ∧
      ∀ ns j, f.lookup ns = some j →
        ((f.create i new).set d (.dir slots')).lookup ns = some j := by
  have hnames : names path = names (splitPath path).1 ++ [(splitPath path).2] := by
    rcases names_splitPath path with ⟨-, hnil⟩ | ⟨-, hnames, -⟩
    · rw [hnil] at hpath
      exact absurd hpath (Option.some_ne_none _)
    · exact hnames
  have hnone : f.dirLookup d (splitPath path).2 = none := by
    rw [hnames, lookup_append, hparent] at hpath
    exact hpath
  obtain ⟨hnew, hold⟩ := dirLookup_created new hi hd hvalid hname hzero hins hnone
  have hmono {ns : List Path} {j : ℕ} (hj : f.lookup ns = some j) :
      ((f.create i new).set d (.dir slots')).lookup ns = some j :=
    lookup_mono h.root (fun e he n j hj => ⟨h.dirLookup_mem he hj, hold e he n j hj⟩) hj
  refine ⟨?_, fun ns j hj => hmono hj⟩
  rw [hnames, lookup_append, hmono hparent, Option.bind_some, hnew]

theorem content_eq_of_node {f f' : Files} {i : ℕ} (hnode : f'.node i = f.node i) :
    f'.content i = f.content i := by
  unfold content
  rw [hnode]

theorem content_of_file {i : ℕ} {c : Data} (hi : f.node i = .file c) : f.content i = some c := by
  unfold content
  rw [hi]

theorem content_of_dir {i : ℕ} {slots : List Data} (hi : f.node i = .dir slots) :
    f.content i = none := by
  unfold content
  rw [hi]

end Files

/-- A write that succeeds is read back, and the other files are as they were. -/
theorem WriteResult.read {f f' : Files} {L : Set ℕ} {path : Path} {data : Data} {cap : ℕ}
    (hwrite : WriteResult f path data cap true f') (h : f.Linked L)
    (hreg : ∀ i, f.lookup (names path) = some i → ∃ c, f.node i = .file c)
    (hzero : 0 ∉ pathBytes (splitPath path).2) (hcap : data.length ≤ cap) :
    (f'.lookup (names path)).bind f'.content = some data ∧
      ∀ ns i, f.lookup ns = some i → f.lookup (names path) ≠ some i →
        (f'.lookup ns).bind f'.content = (f.lookup ns).bind f.content := by
  cases hwrite with
  | @rewritten _ i content hpath hcontent =>
    obtain ⟨c, hc⟩ := hreg i hpath
    obtain rfl := hcontent rfl hcap
    have hother (d : ℕ) (hd : d ≠ i) := Files.set_node_of_ne f hd (.file content)
    refine ⟨?_, fun ns j hj hne => ?_⟩
    · rw [Files.lookup_of_file hc hother hpath, Option.bind_some,
        Files.content_of_file (Files.set_node_self f i _)]
    · have hji : j ≠ i := by
        rintro rfl
        exact hne hpath
      rw [Files.lookup_of_file hc hother hj, hj, Option.bind_some, Option.bind_some,
        Files.content_eq_of_node (hother j hji)]
  | @created _ i d slots slots' content hpath hi hparent hd hdi hname hins hcontent =>
    obtain rfl := hcontent rfl hcap
    have hiL := h.not_mem_of_available hi
    obtain ⟨hnew, hmono⟩ := h.lookup_created (.file content) hpath hiL hi.valid hparent hd hname hzero
      hins
    refine ⟨?_, fun ns j hj _ => ?_⟩
    · rw [hnew]
      refine Files.content_of_file ?_
      rw [Files.set_node_of_ne _ (Ne.symm hdi), Files.create_node_self]
    · rw [hmono ns j hj, hj, Option.bind_some, Option.bind_some]
      by_cases hjd : j = d
      · subst hjd
        rw [Files.content_of_dir (Files.set_node_self _ j _), Files.content_of_dir hd]
      · have hji : j ≠ i := fun hji => hiL (hji ▸ h.lookup_mem hj)
        refine Files.content_eq_of_node ?_
        rw [Files.set_node_of_ne _ hjd, Files.create_node_of_ne f hji]

theorem Ordered.read_writeFile {st : State g} (h : Ordered st) {path : Path} {data : Data}
    (hname : 0 ∉ pathBytes (splitPath path).2) (hpath : ¬ IsDirectory st path)
    (hdata : data.length ≤ 8 * g.bytes) (hok : (st.writeFile path data).1 = true) :
    (st.writeFile path data).2.readFile path = some data ∧
      ∀ q i, st.lookupPath q = some i → st.lookupPath path ≠ some i →
        (st.writeFile path data).2.readFile q = st.readFile q := by
  obtain ⟨L, hL⟩ := h.linked
  have hwrite := h.writeFile_result hpath data
  rw [hok] at hwrite
  have hready : st.files.ready = true := h.ready
  obtain ⟨hread, hother⟩ := hwrite.read hL (fun _ hi => h.reg_of_not_directory hpath hi) hname hdata
  refine ⟨?_, fun q i hq hne => ?_⟩
  · rw [State.readFile_files, hwrite.ready, hready, if_pos rfl, hread]
  · rw [State.lookupPath_files] at hq hne
    rw [State.readFile_files, State.readFile_files, hwrite.ready, hready, if_pos rfl, if_pos rfl,
      hother (names q) i hq hne]

/-- **Read after write.** After a run of calls that write and remove no directory, a write that
succeeds, to a path that is no directory and whose last name has no zero byte, is read back, and what
other inodes hold is as it was. -/
theorem readFile_writeFile (st₀ : State g) (partSectors : UInt64) (label : Path)
    (hmkfs : (State.mkfs st₀.disk partSectors label).1 = true) (as : List Action)
    (has : EachStep step FileCall (st₀.formatted partSectors label) as) (st : State g)
    (hst : run step (st₀.formatted partSectors label) as = st) (path : Path) (data : Data)
    (hname : 0 ∉ pathBytes (splitPath path).2) (hpath : ¬ IsDirectory st path)
    (hdata : data.length ≤ 8 * g.bytes) (hok : (st.writeFile path data).1 = true) :
    (st.writeFile path data).2.readFile path = some data ∧
      ∀ q i, st.lookupPath q = some i → st.lookupPath path ≠ some i →
        (st.writeFile path data).2.readFile q = st.readFile q := by
  have hordered : Ordered st := by
    have halways := always_of_eachStep (P := Ordered) (formatted_ordered hmkfs)
      (fun st a h ha => h.step ha) has
    rw [← hst]
    exact halways.last
  exact hordered.read_writeFile hname hpath hdata hok

def threeBlocks : State .small :=
  (State.new fun _ => Vector.replicate _ 0).formatted 77 []

theorem mkfs_threeBlocks :
    (State.mkfs (State.new (g := .small) fun _ => Vector.replicate _ 0).disk 77 []).1 = true := by
  rw [(State.mkfs_spec _ 77 []).1]
  decide

theorem lookupPath_threeBlocks {path : Path} (name : Path) (hpath : names path = [name]) :
    threeBlocks.lookupPath path = none := by
  rw [State.lookupPath_files, hpath]
  exact lookup_formatted mkfs_threeBlocks name []

theorem writeFile_threeBlocks : (threeBlocks.writeFile ['/', 'f'] [7]).1 = true := by
  have hordered := formatted_ordered mkfs_threeBlocks
  refine State.writeFile_true hordered.sound hordered.ready (d := inodeRoot)
    (lookupPath_threeBlocks ['f'] (by decide)) (State.lookupPath_root _) ?_
    ⟨2, available_formatted mkfs_threeBlocks⟩
    (room_formatted mkfs_threeBlocks (by decide +kernel) (by decide)) ?_
  · exact ((linked_formatted mkfs_threeBlocks).used inodeRoot rfl).2
  · rw [freeBlocks_formatted mkfs_threeBlocks]
    decide

/-- A first file is read back. -/
theorem readFile_writeFile_threeBlocks :
    (threeBlocks.writeFile ['/', 'f'] [7]).2.readFile ['/', 'f'] = some [7] := by
  have hpath : ¬ IsDirectory threeBlocks ['/', 'f'] := by
    rintro ⟨i, inode, hi, -⟩
    rw [lookupPath_threeBlocks ['f'] (by decide)] at hi
    exact Option.some_ne_none i hi.symm
  exact (readFile_writeFile _ 77 [] mkfs_threeBlocks [] trivial threeBlocks run_nil ['/', 'f'] [7]
    (by decide +kernel) hpath (by decide) writeFile_threeBlocks).1

end Aeterna.Vfs.AeternaFs
