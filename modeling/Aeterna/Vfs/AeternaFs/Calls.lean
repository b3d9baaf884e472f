import Aeterna.Vfs.AeternaFs.Room

/-!
# What the calls of AeternaFS do to files and directories

`WriteResult`, `MkdirResult` and `RemoveResult` list what `write_file`, the last step of `mkdir` and
`remove` can answer together with the files and directories they leave, failures included: an inode
that has been taken stays taken when its entry is refused.
-/

namespace Aeterna.Vfs.AeternaFs

open Lib Lib.Bytes Lib.Buffer

namespace Files

theorem set_set_create (f : Files) {d i : ℕ} (h : d ≠ i) (n n' m : Node) :
    ((f.create i n).set d m).set i n' = (f.create i n').set d m := by
  refine Files.ext rfl rfl ?_
  show Function.update (Function.update (Function.update f.node i n) d m) i n' =
    Function.update (Function.update f.node i n') d m
  rw [Function.update_comm h, Function.update_idem]

theorem set_set (f : Files) (i : ℕ) (n n' : Node) : (f.set i n).set i n' = f.set i n' := by
  refine Files.ext rfl rfl ?_
  exact Function.update_idem ..

theorem set_create (f : Files) (i : ℕ) (n n' : Node) : (f.create i n).set i n' = f.create i n' := by
  refine Files.ext rfl rfl ?_
  exact Function.update_idem ..

end Files

/-- An inode that can be taken: a number above the root's that is not in use. -/
structure Available (f : Files) (i : ℕ) : Prop where
  above_root : inodeRoot < i
  valid : ValidIno i
  unused : f.used i = false

/-- What `write_file` answers and does, with room for `cap` bytes in a file. -/
inductive WriteResult (f : Files) (path : Path) (data : Data) (cap : ℕ) : Bool → Files → Prop
  | rewritten {ok : Bool} {i : ℕ} {content : Data} (hpath : f.lookup (names path) = some i)
      (hcontent : ok = true → data.length ≤ cap → content = data) :
      WriteResult f path data cap ok (f.set i (.file content))
  | refused (hpath : f.lookup (names path) = none) : WriteResult f path data cap false f
  | orphaned {i : ℕ} (hpath : f.lookup (names path) = none) (hi : Available f i) :
      WriteResult f path data cap false (f.create i (.file []))
  | created {ok : Bool} {i d : ℕ} {slots slots' : List Data} {content : Data}
      (hpath : f.lookup (names path) = none) (hi : Available f i)
      (hparent : f.lookup (names (splitPath path).1) = some d) (hd : f.node d = .dir slots)
      (hdi : d ≠ i) (hname : (pathBytes (splitPath path).2).length ≤ 27)
      (hins : Inserted slots slots' (entryBytes i (splitPath path).2))
      (hcontent : ok = true → data.length ≤ cap → content = data) :
      WriteResult f path data cap ok ((f.create i (.file content)).set d (.dir slots'))

/-- The slots of a new directory: its own entry and its parent's, as far as there was room. -/
structure Dots (i parent : ℕ) (s : List Data) : Prop where
  formed : ∀ raw ∈ s, Formed raw
  entries : ∀ raw ∈ s, direntIno raw ≠ 0 →
    raw = entryBytes i ['.'] ∨ raw = entryBytes parent ['.', '.']

theorem Dots.insert {i parent : ℕ} {s s' : List Data} {raw : Data} (h : Dots i parent s)
    (hins : s' = s ∨ Inserted s s' raw) (hi : ValidIno i) (hparent : ValidIno parent)
    (hraw : raw = entryBytes i ['.'] ∨ raw = entryBytes parent ['.', '.']) : Dots i parent s' := by
  have hone : (pathBytes ['.']).length ≤ 27 := by decide +kernel
  have htwo : (pathBytes ['.', '.']).length ≤ 27 := by decide +kernel
  have hformed : Formed raw := by
    rcases hraw with rfl | rfl
    · exact Or.inr ⟨i, _, hi.1, hi.2, hone, rfl⟩
    · exact Or.inr ⟨parent, _, hparent.1, hparent.2, htwo, rfl⟩
  rcases hins with rfl | hins
  · exact h
  · refine ⟨hins.formed h.formed hformed, fun new hnew hne => ?_⟩
    rcases hins.mem hnew with hold | rfl | rfl
    · exact h.entries new hold hne
    · exact absurd direntIno_freeSlot hne
    · exact hraw

/-- What the making of a directory in `parent` answers and does. A parent without `room` leaves the
new directory without an entry. -/
inductive MkdirResult (f : Files) (path : Path) (parent : ℕ) (dirname : Path) (room : Prop) :
    Bool → Files → Prop
  | found (hpath : f.lookup (names path) ≠ none) : MkdirResult f path parent dirname room true f
  | full (hfull : ∀ i, ¬ Available f i) : MkdirResult f path parent dirname room false f
  | orphaned {i : ℕ} {s : List Data} (hpath : f.lookup (names path) = none) (hi : Available f i)
      (hdots : Dots i parent s) (hroom : ¬ room) :
      MkdirResult f path parent dirname room true (f.create i (.dir s))
  | created {i : ℕ} {s slots slots' : List Data} (hpath : f.lookup (names path) = none)
      (hi : Available f i) (hdots : Dots i parent s) (hparent : f.node parent = .dir slots)
      (hname : (pathBytes dirname).length ≤ 27)
      (hins : Inserted slots slots' (entryBytes i dirname)) :
      MkdirResult f path parent dirname room true
        ((f.create i (.dir s)).set parent (.dir slots'))

/-- What `remove` answers and does to a file. -/
inductive RemoveResult (f : Files) (path : Path) : Bool → Files → Prop
  | missing (hpath : f.lookup (names path) = none) : RemoveResult f path false f
  | removed {i d p : ℕ} {slots : List Data} {raw c : Data}
      (hpath : f.lookup (names path) = some i) (hi : f.node i = .file c)
      (hparent : f.lookup (names (splitPath path).1) = some d) (hd : f.node d = .dir slots)
      (hp : slots[p]? = some raw) (hraw : direntIno raw = i) :
      RemoveResult f path true ((f.erase i).set d (.dir (slots.set p freeSlot)))

section Ready

variable {f f' : Files} {path : Path} {ok : Bool}

theorem WriteResult.ready {data : Data} {cap : ℕ} (h : WriteResult f path data cap ok f') :
    f'.ready = f.ready := by
  cases h <;> rfl

theorem MkdirResult.ready {parent : ℕ} {dirname : Path} {room : Prop}
    (h : MkdirResult f path parent dirname room ok f') : f'.ready = f.ready := by
  cases h <;> rfl

theorem RemoveResult.ready (h : RemoveResult f path ok f') : f'.ready = f.ready := by
  cases h <;> rfl

end Ready

namespace State

variable {g : SectorSize} {st : State g}

theorem createFile_result (hv : st.view.Sound) (parentPath filename : Path)
    (hformed : ∀ d slots, st.files.lookup (names parentPath) = some d →
      st.files.node d = .dir slots → ∀ raw ∈ slots, Formed raw) :
    (st.createFile parentPath filename).1 = none ∧
        ((st.createFile parentPath filename).2.files = st.files ∨
          ∃ i, Available st.files i ∧
            (st.createFile parentPath filename).2.files = st.files.create i (.file [])) ∨
      ∃ i d slots slots', (st.createFile parentPath filename).1 = some i ∧ Available st.files i ∧
        st.files.lookup (names parentPath) = some d ∧ st.files.node d = .dir slots ∧ d ≠ i ∧
        (pathBytes filename).length ≤ 27 ∧ Inserted slots slots' (entryBytes i filename) ∧
        (st.createFile parentPath filename).2.files =
          (st.files.create i (.file [])).set d (.dir slots') ∧
        ((st.createFile parentPath filename).2.view.inode i).isReg = true ∧
        ∀ k : Fin 8, ((st.createFile parentPath filename).2.view.inode i).direct.get k = 0 := by
  unfold createFile
  rw [lookupPath_files]
  cases hparent : st.files.lookup (names parentPath) with
  | none => exact Or.inl ⟨rfl, Or.inl rfl⟩
  | some d =>
    rcases newInode_cases st modeReg 1 with
      ⟨halloc, -⟩ | ⟨i, st₁, st₂, halloc, hwrite, hroot, hi, hfree, hsound, hview⟩
    · rw [halloc]
      exact Or.inl ⟨rfl, Or.inl rfl⟩
    rw [halloc]
    dsimp only
    rw [hwrite]
    dsimp only
    have hfiles := files_newInode hview
    have havail : Available st.files i := ⟨hroot, hi, hfree⟩
    have hformed₂ : ∀ slots, st₂.files.node d = .dir slots → ∀ raw ∈ slots, Formed raw := by
      intro slots hd
      have hdi : d ≠ i := by
        rintro rfl
        rw [hfiles, Files.create_node_self] at hd
        exact Node.noConfusion hd
      rw [hfiles, Files.create_node_of_ne _ hdi] at hd
      exact hformed d slots hparent hd
    rcases dirAddEntry_files (hsound hv) filename i hformed₂ with
      hfalse | ⟨hname, htrue, slots, slots', hd, hins, hadd⟩
    · rw [hfalse]
      exact Or.inl ⟨rfl, Or.inr ⟨i, havail, hfiles⟩⟩
    · have hdi : d ≠ i := by
        rintro rfl
        rw [hfiles, Files.create_node_self] at hd
        exact Node.noConfusion hd
      have hinode := dirAddEntry_inode (hsound hv) (Ne.symm hdi) filename i
      have hempty : st₂.view.inode i = .empty modeReg 1 := by
        rw [hview]
        exact Function.update_self i _ _
      rw [hfiles, Files.create_node_of_ne _ hdi] at hd
      rw [hfiles] at hadd
      rw [hempty] at hinode
      generalize st₂.dirAddEntry d filename i = added at *
      obtain ⟨ok, st₃⟩ := added
      obtain rfl : ok = true := htrue
      refine Or.inr ⟨i, d, slots, slots', rfl, havail, rfl, hd, hdi, hname, hins, hadd, ?_, ?_⟩
      · rw [show st₃.view.inode i = _ from hinode]
        decide
      · rw [show st₃.view.inode i = _ from hinode]
        exact fun k => Vector.getElem_replicate _

theorem writeFile_result (hv : st.view.Sound) (hready : st.ready = true) (path : Path) (data : Data)
    (hreg : ∀ i, st.files.lookup (names path) = some i → ∃ c, st.files.node i = .file c)
    (hformed : ∀ d slots, st.files.lookup (names (splitPath path).1) = some d →
      st.files.node d = .dir slots → ∀ raw ∈ slots, Formed raw) :
    WriteResult st.files path data (8 * g.bytes) (st.writeFile path data).1
      (st.writeFile path data).2.files := by
  unfold writeFile
  rw [if_neg (by rw [hready]; decide), lookupPath_files]
  dsimp only
  cases hpath : st.files.lookup (names path) with
  | some i =>
    obtain ⟨c, hc⟩ := hreg i hpath
    have hi : ValidIno i := valid_of_node (by rw [hc]; exact Node.noConfusion)
    obtain ⟨htrunc, hreg', hzero⟩ := truncate_files hv hi (isReg_of_nodeOf hc)
    obtain ⟨content, hfiles, hcontent⟩ :=
      writeData_files (truncate_sound hv i) hi hreg' hzero data
    rw [hfiles, htrunc, Files.set_set]
    exact .rewritten hpath hcontent
  | none =>
    have hsound := createFile_sound hv (splitPath path).1 (splitPath path).2
    have hcreate := createFile_result hv (splitPath path).1 (splitPath path).2 hformed
    generalize st.createFile (splitPath path).1 (splitPath path).2 = created at *
    obtain ⟨out, st'⟩ := created
    rcases hcreate with ⟨rfl, hfiles | ⟨i, hi, hfiles⟩⟩ |
      ⟨i, d, slots, slots', rfl, hi, hparent, hd, hdi, hname, hins, hfiles, hreg', hzero⟩
    · rw [hfiles]
      exact .refused hpath
    · rw [hfiles]
      exact .orphaned hpath hi
    · obtain ⟨content, hdata, hcontent⟩ := writeData_files hsound hi.valid hreg' hzero data
      rw [hdata, hfiles, Files.set_set_create _ hdi]
      exact .created hpath hi hparent hd hdi hname hins hcontent

/-- A file is made when there is an inode for it and its directory has room. -/
theorem createFile_some (hv : st.view.Sound) {parentPath filename : Path} {d : ℕ}
    (hparent : st.lookupPath parentPath = some d) (hused : st.files.used d = true)
    (havail : ∃ i, Available st.files i) (hroom : st.Room d filename 0) :
    ∃ i, (st.createFile parentPath filename).1 = some i ∧ ValidIno i ∧
      st.view.freeBlocks ≤ (st.createFile parentPath filename).2.view.freeBlocks + 1 := by
  unfold createFile
  rw [hparent]
  rcases newInode_cases st modeReg 1 with
    ⟨-, hfull⟩ | ⟨i, st₁, st₂, halloc, hwrite, -, hi, hfree, hsound, hview⟩
  · obtain ⟨i, hi⟩ := havail
    exact absurd (hi.unused.symm.trans (hfull i hi.above_root hi.valid.2)) Bool.false_ne_true
  rw [halloc]
  dsimp only
  rw [hwrite]
  dsimp only
  have hdi : d ≠ i := by
    rintro rfl
    exact Bool.false_ne_true (hfree.symm.trans hused)
  have hblocks : st₂.view.freeBlocks = st.view.freeBlocks := by
    rw [hview]
    rfl
  have hroom₂ : st₂.Room d filename 0 := by
    refine hroom.transport (m := 0) ?_ ?_ hblocks.ge
    · rw [hview]
      exact Function.update_of_ne hdi _ _
    · rw [files_newInode hview, Files.create_node_of_ne _ hdi]
  have htrue := dirAddEntry_true (hsound hv) hroom₂ i
  have hadded := dirAddEntry_freeBlocks (hsound hv) d filename i
  generalize st₂.dirAddEntry d filename i = added at *
  obtain ⟨ok, st₃⟩ := added
  obtain rfl : ok = true := htrue
  refine ⟨i, rfl, hi, ?_⟩
  dsimp only at hadded ⊢
  omega

/-- A new file is written when there is room for it. -/
theorem writeFile_true (hv : st.view.Sound) (hready : st.ready = true) {path : Path} {data : Data}
    {d : ℕ} (hpath : st.lookupPath path = none)
    (hparent : st.lookupPath (splitPath path).1 = some d) (hused : st.files.used d = true)
    (havail : ∃ i, Available st.files i) (hroom : st.Room d (splitPath path).2 0)
    (hdata : data.length ≤ (st.view.freeBlocks - 1) * g.bytes) :
    (st.writeFile path data).1 = true := by
  unfold writeFile
  rw [if_neg (by rw [hready]; decide), hpath]
  dsimp only
  obtain ⟨i, hsome, hi, hblocks⟩ := createFile_some hv hparent hused havail hroom
  have hsound := createFile_sound hv (splitPath path).1 (splitPath path).2
  generalize st.createFile (splitPath path).1 (splitPath path).2 = created at *
  obtain ⟨out, st'⟩ := created
  obtain rfl : out = some i := hsome
  exact writeData_true hsound hi
    (hdata.trans (Nat.mul_le_mul_right _ (Nat.sub_le_of_le_add hblocks)))

/-! ## Directories -/

theorem addEntry_created (hv : st.view.Sound) {f : Files} {i : ℕ} {s : List Data}
    (hfiles : st.files = f.create i (.dir s)) (hs : ∀ raw ∈ s, Formed raw) (name : Path) (c : ℕ) :
    ∃ s', (st.dirAddEntry i name c).2.files = f.create i (.dir s') ∧
      (s' = s ∨ Inserted s s' (entryBytes c name)) := by
  have hnode : st.files.node i = .dir s := by rw [hfiles, Files.create_node_self]
  have hformed : ∀ slots, st.files.node i = .dir slots → ∀ raw ∈ slots, Formed raw := by
    intro slots hslots
    obtain rfl := Node.dir.inj (hnode.symm.trans hslots)
    exact hs
  rcases dirAddEntry_files hv name c hformed with hfalse | ⟨-, -, slots, slots', hslots, hins, hadd⟩
  · exact ⟨s, by rw [hfalse, hfiles], Or.inl rfl⟩
  · obtain rfl := Node.dir.inj (hnode.symm.trans hslots)
    exact ⟨slots', by rw [hadd, hfiles, Files.set_create], Or.inr hins⟩

theorem mkdirAt_result (hv : st.view.Sound) (path : Path) {parent : ℕ} (dirname : Path)
    (hparent : ValidIno parent) (hused : st.files.used parent = true)
    (hformed : ∀ slots, st.files.node parent = .dir slots → ∀ raw ∈ slots, Formed raw) :
    MkdirResult st.files path parent dirname (st.Room parent dirname 1)
      (st.mkdirAt path parent dirname).1 (st.mkdirAt path parent dirname).2.files := by
  unfold mkdirAt
  rw [lookupPath_files]
  cases hpath : st.files.lookup (names path) with
  | some j =>
    exact .found (by rw [hpath]; exact Option.some_ne_none j)
  | none =>
    rw [if_neg (by decide)]
    rcases newInode_cases st modeDir 2 with
      ⟨halloc, hfull⟩ | ⟨i, st₁, st₂, halloc, hwrite, hroot, hi, hfree, hsound, hview⟩
    · rw [halloc]
      refine .full fun i hi => ?_
      have hfull := hfull i hi.above_root hi.valid.2
      exact Bool.false_ne_true (hi.unused.symm.trans hfull)
    rw [halloc]
    dsimp only
    rw [hwrite]
    dsimp only
    have havail : Available st.files i := ⟨hroot, hi, hfree⟩
    have hpi : parent ≠ i := by
      rintro rfl
      exact Bool.false_ne_true (hfree.symm.trans hused)
    have hfiles := files_newInode hview
    rw [nodeOf_emptyDir] at hfiles
    have hnode₂ : st₂.files.node parent = st.files.node parent := by
      rw [hfiles, Files.create_node_of_ne _ hpi]
    have hroom₂ (hroom : st.Room parent dirname 1) : st₂.Room parent dirname (0 + 1) := by
      refine hroom.transport (m := 0) ?_ hnode₂ ?_
      · rw [hview]
        exact Function.update_of_ne hpi _ _
      · rw [hview]
        exact le_rfl
    have hv₂ := hsound hv
    obtain ⟨s₁, hfiles₁, hs₁⟩ := addEntry_created hv₂ hfiles (by simp) ['.'] i
    have hv₃ := dirAddEntry_sound hv₂ i ['.'] i
    have hdots₁ : Dots i parent s₁ :=
      Dots.insert ⟨by simp, by simp⟩ hs₁ hi hparent (Or.inl rfl)
    obtain ⟨s₂, hfiles₂, hs₂⟩ := addEntry_created hv₃ hfiles₁ hdots₁.formed ['.', '.'] parent
    have hv₄ := dirAddEntry_sound hv₃ i ['.', '.'] parent
    have hdots₂ : Dots i parent s₂ := hdots₁.insert hs₂ hi hparent (Or.inr rfl)
    have hroom₄ (hroom : st.Room parent dirname 1) :=
      (hroom₂ hroom).after_two hv₂ hpi ['.'] ['.', '.'] i parent
        (by rw [hfiles₂, hnode₂, Files.create_node_of_ne _ hpi])
    generalize ((st₂.dirAddEntry i ['.'] i).2.dirAddEntry i ['.', '.'] parent).2 = st₄ at *
    have hnode : st₄.files.node parent = st.files.node parent := by
      rw [hfiles₂, Files.create_node_of_ne _ hpi]
    rw [← hnode] at hformed
    rw [files_flush]
    rcases dirAddEntry_files hv₄ dirname i hformed with
      hfalse | ⟨hname, -, slots, slots', hd, hins, hadd⟩
    · have hroom : ¬ st.Room parent dirname 1 := by
        intro hroom
        have htrue := dirAddEntry_true hv₄ (hroom₄ hroom) i
        rw [hfalse] at htrue
        exact Bool.false_ne_true htrue
      rw [hfalse, hfiles₂]
      exact .orphaned hpath havail hdots₂ hroom
    · rw [hadd, hfiles₂]
      exact .created hpath havail hdots₂ (hnode ▸ hd) hname hins

/-- The entry of a file is in the directory of its path. -/
theorem exists_parent {f : Files} {path : Path} {i : ℕ} {c : Data}
    (hroot : ∃ slots, f.node inodeRoot = .dir slots) (hpath : f.lookup (names path) = some i)
    (hi : f.node i = .file c) :
    ∃ d slots raw, f.lookup (names (splitPath path).1) = some d ∧ f.node d = .dir slots ∧
      slots.find? (isNamed (splitPath path).2) = some raw ∧ direntIno raw = i := by
  rcases names_splitPath path with ⟨-, hnil⟩ | ⟨-, hnames, -⟩
  · obtain ⟨slots, hslots⟩ := hroot
    rw [hnil] at hpath
    obtain rfl : inodeRoot = i := Option.some.inj hpath
    exact absurd hi (Files.not_file_of_dir hslots)
  · rw [hnames, Files.lookup_append] at hpath
    obtain ⟨d, hd, hlookup⟩ := Option.bind_eq_some_iff.mp hpath
    unfold Files.dirLookup at hlookup
    split at hlookup
    · obtain ⟨raw, hfind, hraw⟩ := Option.map_eq_some_iff.mp hlookup
      exact ⟨d, _, raw, hd, ‹_›, hfind, hraw⟩
    · exact absurd hlookup.symm (Option.some_ne_none i)

theorem remove_result (hv : st.view.Sound) (hready : st.ready = true) (path : Path)
    (hroot : ∃ slots, st.files.node inodeRoot = .dir slots)
    (hreg : ∀ i, st.files.lookup (names path) = some i → ∃ c, st.files.node i = .file c) :
    RemoveResult st.files path (st.remove path).1 (st.remove path).2.files := by
  unfold remove
  rw [if_neg (by rw [hready]; decide), lookupPath_files]
  cases hpath : st.files.lookup (names path) with
  | none => exact .missing hpath
  | some i =>
    obtain ⟨c, hc⟩ := hreg i hpath
    have hi : ValidIno i := valid_of_node (by rw [hc]; exact Node.noConfusion)
    dsimp only
    rw [readInodeRaw_of_valid st hi]
    dsimp only
    obtain ⟨st₁, hst₁, hsound, used, hview, -⟩ := release_spec hv hi { st.view.inode i with
      direct := Vector.replicate 8 0, mode := modeFree } fun k => Vector.getElem_replicate _
    have hview₂ := view_freeInode st₁ hi.2
    have hv₂ : (st₁.freeInode i).view.Sound := by
      rw [hview₂]
      exact hsound.mono rfl rfl fun _ hb => hb
    rw [hst₁]
    generalize st₁.freeInode i = st₂ at *
    rw [hview] at hview₂
    have hinode : st₂.view.inode i =
        { st.view.inode i with direct := Vector.replicate 8 0, mode := modeFree } := by
      rw [hview₂]
      exact Function.update_self i _ _
    have hfiles : st₂.files = st.files.erase i := by
      rw [files_update st i, hinode, nodeOf_modeFree rfl, hview₂]
      · rfl
      · rw [hview₂]
      · intro j hj
        rw [hview₂]
        exact Function.update_of_ne hj _ _
      · intro j _ k b _
        rw [hview₂]
    obtain ⟨d, slots, raw, hparent, hd, hfind, hraw⟩ := exists_parent hroot hpath hc
    have hdi : d ≠ i := by
      rintro rfl
      exact Files.not_file_of_dir hd hc
    have hd₂ : st₂.files.node d = .dir slots := by
      rw [hfiles, Files.erase_node_of_ne _ hdi, hd]
    obtain ⟨p, hp, hremove⟩ := dirRemoveEntry_files hv₂ hd₂ hfind
    have hparent₂ : st₂.lookupPath (splitPath path).1 = some d := by
      rw [lookupPath_files, hfiles]
      exact Files.lookup_of_file hc (fun _ => Files.erase_node_of_ne _) hparent
    rw [hparent₂, files_flush]
    rw [hremove, hfiles]
    exact .removed hpath hc hparent hd hp hraw

end State

end Aeterna.Vfs.AeternaFs
