import Aeterna.Vfs.AeternaFs.Files

/-!
# The name space of AeternaFS

`Files.Integrity` says what the name space should be: the entries of reachable directories name
allocated files and directories, every directory but the root has one entry besides the dots, and
directories hold nothing but entries. It follows from `Files.Linked` together with `Files.Owned`,
which the changes that calls make to files and directories preserve.
-/

namespace Aeterna.Vfs.AeternaFs

open Lib Lib.Bytes Lib.Buffer

/-- The entries of a directory for itself and for its parent. -/
def IsDot (raw : Data) : Prop := direntName raw = ['.'] ∨ direntName raw = ['.', '.']

namespace Files

/-- What entries lead to from the root. -/
inductive Reachable (f : Files) : ℕ → Prop
  | root : Reachable f inodeRoot
  | entry {d p : ℕ} {raw : Data} (hd : Reachable f d) (hraw : f.Has d p raw) :
      Reachable f (direntIno raw)

/-- Position `e.2` of the allocated directory `e.1` holds an entry for `i` that is no dot. -/
def Names (f : Files) (e : ℕ × ℕ) (i : ℕ) : Prop :=
  ValidIno e.1 ∧ f.used e.1 = true ∧ ∃ raw, f.Has e.1 e.2 raw ∧ direntIno raw = i ∧ ¬ IsDot raw

structure Integrity (f : Files) : Prop where
  entries : ∀ d p raw, f.Reachable d → f.Has d p raw →
    ValidIno (direntIno raw) ∧ f.used (direntIno raw) = true ∧ f.node (direntIno raw) ≠ .other
  named : ∀ i slots, ValidIno i → f.used i = true → f.node i = .dir slots → i ≠ inodeRoot →
    ∃! e, f.Names e i
  formed : ∀ d slots, ValidIno d → f.used d = true → f.node d = .dir slots →
    ∀ raw ∈ slots, Formed raw

/-- Position `p` of the linked directory `d` holds an entry for directory `i` that is no dot. -/
def DirEntry (f : Files) (L : Set ℕ) (d p i : ℕ) : Prop :=
  d ∈ L ∧ (∃ slots, f.node i = .dir slots) ∧
    ∃ raw, f.Has d p raw ∧ direntIno raw = i ∧ ¬ IsDot raw

/-- Allocated directories are linked, and have one entry each. -/
structure Owned (f : Files) (L : Set ℕ) : Prop where
  dirs : ∀ i slots, ValidIno i → f.used i = true → f.node i = .dir slots → i ∈ L
  named : ∀ i ∈ L, ∀ slots, f.node i = .dir slots → i ≠ inodeRoot → ∃ d p, f.DirEntry L d p i
  unique : ∀ d p d' p' i, f.DirEntry L d p i → f.DirEntry L d' p' i → d = d' ∧ p = p'

variable {f f' : Files} {L L' : Set ℕ}

theorem Reachable.mem {d : ℕ} (h : f.Reachable d) (hL : f.Linked L) : d ∈ L := by
  induction h with
  | root => exact hL.root
  | entry _ hraw ih => exact hL.closed _ ih _ _ hraw

theorem DirEntry.mem {d p i : ℕ} (h : f.DirEntry L d p i) (hL : f.Linked L) : i ∈ L := by
  obtain ⟨hd, -, raw, hraw, rfl, -⟩ := h
  exact hL.closed d hd p raw hraw

theorem Linked.integrity (hL : f.Linked L) (h : f.Owned L) : f.Integrity where
  entries d p raw hd hraw := by
    have hmem := hL.closed d (hd.mem hL) p raw hraw
    exact ⟨(hL.used _ hmem).1, (hL.used _ hmem).2, hL.kind _ hmem⟩
  named i slots hi hused hnode hroot := by
    obtain ⟨d, p, hentry⟩ := h.named i (h.dirs i slots hi hused hnode) slots hnode hroot
    have hd := hL.used d hentry.1
    refine ⟨(d, p), ⟨hd.1, hd.2, hentry.2.2⟩, fun e ⟨he, heused, hnames⟩ => ?_⟩
    obtain ⟨raw, ⟨s, hs, -⟩, -⟩ := id hnames
    have hsame := h.unique e.1 e.2 d p i ⟨h.dirs e.1 s he heused hs, ⟨slots, hnode⟩, hnames⟩ hentry
    exact Prod.ext hsame.1 hsame.2
  formed d slots hd hused hnode := hL.formed d (h.dirs d slots hd hused hnode) slots hnode

namespace Owned

/-- A change that makes no directory and no entry for one. -/
theorem frame (h : f.Owned L)
    (hdirs : ∀ i slots, ValidIno i → f'.used i = true → f'.node i = .dir slots → i ∈ L')
    (hkeep : ∀ i ∈ L', ∀ slots, f'.node i = .dir slots → i ∈ L ∧ ∃ s, f.node i = .dir s)
    (hentry : ∀ d p i, f'.DirEntry L' d p i ↔ f.DirEntry L d p i) : f'.Owned L' where
  dirs := hdirs
  named i hi slots hnode hroot := by
    obtain ⟨hmem, s, hs⟩ := hkeep i hi slots hnode
    obtain ⟨d, p, hold⟩ := h.named i hmem s hs hroot
    exact ⟨d, p, (hentry d p i).mpr hold⟩
  unique d p d' p' i hd hd' :=
    h.unique d p d' p' i ((hentry d p i).mp hd) ((hentry d' p' i).mp hd')

theorem setFile (h : f.Owned L) {i : ℕ} {c : Data} (hi : f.node i = .file c) (c' : Data) :
    (f.set i (.file c')).Owned L := by
  refine h.frame (fun j slots hj hused hnode => ?_) (fun j hj slots hnode => ?_) fun d p j => ?_
  · exact h.dirs j slots hj hused ((dir_setFile hi c').mp hnode)
  · exact ⟨hj, slots, (dir_setFile hi c').mp hnode⟩
  · exact and_congr_right fun _ => and_congr (exists_congr fun _ => dir_setFile hi c')
      (exists_congr fun _ => and_congr_left fun _ => has_setFile hi c')

theorem createFile (h : f.Owned L) (hL : f.Linked L) {i : ℕ} (hi : i ∉ L) (c : Data) :
    (f.create i (.file c)).Owned L := by
  have hne {j : ℕ} (hj : j ∈ L) : j ≠ i := fun hji => hi (hji ▸ hj)
  have hnode {j : ℕ} (hj : j ∈ L) : (f.create i (.file c)).node j = f.node j :=
    create_node_of_ne f (hne hj) _
  have hhas {d p : ℕ} {raw : Data} (hd : d ∈ L) :
      (f.create i (.file c)).Has d p raw ↔ f.Has d p raw := Has.congr (hnode hd)
  refine h.frame (fun j slots hj hused hdir => ?_) (fun j hj slots hdir => ?_) fun d p j => ?_
  · by_cases hji : j = i
    · rw [hji] at hdir
      exact absurd (create_node_self f i _) (not_file_of_dir hdir)
    · rw [create_node_of_ne f hji] at hdir
      rw [create_used_of_ne f hji] at hused
      exact h.dirs j slots hj hused hdir
  · exact ⟨hj, slots, hnode hj ▸ hdir⟩
  · constructor
    · rintro ⟨hd, hdir, raw, hraw, rfl, hdot⟩
      have hold := (hhas hd).mp hraw
      rw [hnode (hL.closed d hd p raw hold)] at hdir
      exact ⟨hd, hdir, raw, hold, rfl, hdot⟩
    · intro hentry
      have hmem := hentry.mem hL
      obtain ⟨hd, hdir, raw, hraw, hj, hdot⟩ := hentry
      rw [← hnode hmem] at hdir
      exact ⟨hd, hdir, raw, (hhas hd).mpr hraw, hj, hdot⟩

/-- A new node is linked into a directory; a directory under a name that is no dot and with no
entries but dots. -/
theorem link (h : f.Owned L) (hL : f.Linked L) {d i : ℕ} {slots slots' : List Data} {name : Path}
    {n : Node} (hd : d ∈ L) (hnode : f.node d = .dir slots) (hi : i ∉ L) (hvalid : ValidIno i)
    (hname : (pathBytes name).length ≤ 27) (hins : Inserted slots slots' (entryBytes i name))
    (hdir : ∀ s, n = .dir s → ¬ IsDot (entryBytes i name) ∧
      ∀ raw ∈ s, direntIno raw ≠ 0 → IsDot raw) :
    ((f.create i n).set d (.dir slots')).Owned (insert i L) := by
  have hdi : d ≠ i := fun hdi => hi (hdi ▸ hd)
  have hself : ((f.create i n).set d (.dir slots')).node d = .dir slots' := set_node_self _ d _
  have hnew : ((f.create i n).set d (.dir slots')).node i = n := by
    rw [set_node_of_ne _ (Ne.symm hdi), create_node_self]
  have hother (j : ℕ) (hjd : j ≠ d) (hji : j ≠ i) :
      ((f.create i n).set d (.dir slots')).node j = f.node j := by
    rw [set_node_of_ne _ hjd, create_node_of_ne f hji]
  have hused (j : ℕ) (hji : j ≠ i) : ((f.create i n).set d (.dir slots')).used j = f.used j :=
    create_used_of_ne f hji n
  generalize (f.create i n).set d (.dir slots') = f' at *
  have hino : direntIno (entryBytes i name) = i := direntIno_entryBytes hvalid.2 hname
  obtain ⟨q, hhas⟩ := has_inserted hnode hself hins (hino.symm ▸ hvalid.1)
  have hisDir {j : ℕ} (hj : j ∈ L) :
      (∃ s, f'.node j = .dir s) ↔ ∃ s, f.node j = .dir s := by
    by_cases hjd : j = d
    · subst hjd
      exact ⟨fun _ => ⟨slots, hnode⟩, fun _ => ⟨slots', hself⟩⟩
    · rw [hother j hjd fun hji => hi (hji ▸ hj)]
  -- the entries of linked directories are the old ones and the new one
  have hcases {e p : ℕ} {raw : Data} (he : e ∈ L) :
      f'.Has e p raw ↔ f.Has e p raw ∨ e = d ∧ p = q ∧ raw = entryBytes i name := by
    by_cases hed : e = d
    · subst hed
      rw [hhas p raw]
      exact or_congr_right ⟨fun h => ⟨rfl, h⟩, fun h => h.2⟩
    · rw [Has.congr (hother e hed fun hei => hi (hei ▸ he))]
      exact ⟨Or.inl, fun h => h.resolve_right fun h => hed h.1⟩
  have hentry (e p j : ℕ) : f'.DirEntry (insert i L) e p j ↔
      f.DirEntry L e p j ∨ (e = d ∧ p = q ∧ j = i) ∧ ∃ s, n = .dir s := by
    constructor
    · rintro ⟨he, hjdir, raw, hraw, rfl, hdot⟩
      have heL : e ∈ L := by
        refine (Set.mem_insert_iff.mp he).resolve_left ?_
        rintro rfl
        obtain ⟨s, hs, hp, hne⟩ := hraw
        exact hdot ((hdir s (hnew.symm.trans hs)).2 raw (List.mem_of_getElem? hp) hne)
      rcases (hcases heL).mp hraw with hold | ⟨hed, hp, rfl⟩
      · exact Or.inl ⟨heL, (hisDir (hL.closed e heL p raw hold)).mp hjdir, raw, hold, rfl, hdot⟩
      · rw [hino, hnew] at hjdir
        exact Or.inr ⟨⟨hed, hp, hino⟩, hjdir⟩
    · rintro (hold | ⟨⟨rfl, rfl, rfl⟩, s, hs⟩)
      · have hmem := hold.mem hL
        obtain ⟨he, hjdir, raw, hraw, hj, hdot⟩ := hold
        exact ⟨Set.mem_insert_of_mem i he, (hisDir hmem).mpr hjdir, raw,
          (hcases he).mpr (Or.inl hraw), hj, hdot⟩
      · exact ⟨Set.mem_insert_of_mem j hd, ⟨s, hnew.trans hs⟩, _,
          (hcases hd).mpr (Or.inr ⟨rfl, rfl, rfl⟩), hino, (hdir s hs).1⟩
  refine ⟨fun j s hj hjused hs => ?_, fun j hj s hs hroot => ?_, fun e p e' p' j he he' => ?_⟩
  · by_cases hji : j = i
    · rw [hji]
      exact Set.mem_insert i L
    · refine Set.mem_insert_of_mem i ?_
      by_cases hjd : j = d
      · rw [hjd]
        exact hd
      · exact h.dirs j s hj (hused j hji ▸ hjused) (hother j hjd hji ▸ hs)
  · rcases Set.mem_insert_iff.mp hj with rfl | hj
    · exact ⟨d, q, (hentry d q j).mpr (Or.inr ⟨⟨rfl, rfl, rfl⟩, s, hnew.symm.trans hs⟩)⟩
    · obtain ⟨s', hs'⟩ := (hisDir hj).mp ⟨s, hs⟩
      obtain ⟨e, p, hold⟩ := h.named j hj s' hs' hroot
      exact ⟨e, p, (hentry e p j).mpr (Or.inl hold)⟩
  · rcases (hentry e p j).mp he with hold | ⟨⟨hed, hp, hj⟩, -⟩
    · rcases (hentry e' p' j).mp he' with hold' | ⟨⟨-, -, rfl⟩, -⟩
      · exact h.unique e p e' p' j hold hold'
      · exact absurd (hold.mem hL) hi
    · rcases (hentry e' p' j).mp he' with hold' | ⟨⟨hed', hp', -⟩, -⟩
      · exact absurd (hj ▸ hold'.mem hL) hi
      · exact ⟨hed.trans hed'.symm, hp.trans hp'.symm⟩

theorem unlink (h : f.Owned L) {d i p : ℕ} {slots : List Data} {raw c : Data}
    (hd : d ∈ L) (hnode : f.node d = .dir slots) (hp : slots[p]? = some raw)
    (hraw : direntIno raw = i) (hi : f.node i = .file c) :
    ((f.erase i).set d (.dir (slots.set p freeSlot))).Owned (L \ {i}) := by
  obtain ⟨hdi, hself, hgone, hother, hused'⟩ := unlinked hnode hi p
  generalize (f.erase i).set d (.dir (slots.set p freeSlot)) = f' at *
  have hisDir (j : ℕ) : (∃ s, f'.node j = .dir s) ↔ ∃ s, f.node j = .dir s := by
    by_cases hjd : j = d
    · subst hjd
      exact ⟨fun _ => ⟨slots, hnode⟩, fun _ => ⟨_, hself⟩⟩
    by_cases hji : j = i
    · rw [hji, hgone, hi]
      exact ⟨fun ⟨_, h⟩ => Node.noConfusion h, fun ⟨_, h⟩ => Node.noConfusion h⟩
    · rw [hother j hjd hji]
  have hne {j : ℕ} (hj : ∃ s, f.node j = .dir s) : j ≠ i := by
    rintro rfl
    obtain ⟨s, hs⟩ := hj
    exact not_file_of_dir hs hi
  have hhas {e q : ℕ} {raw' : Data} (he : e ≠ i) :
      f'.Has e q raw' ↔ f.Has e q raw' ∧ (e = d → q ≠ p) := by
    by_cases hed : e = d
    · subst hed
      rw [has_cleared hnode hself]
      exact and_congr_right fun _ => ⟨fun h _ => h, fun h => h rfl⟩
    · rw [Has.congr (hother e hed he)]
      exact ⟨fun h => ⟨h, fun hd => absurd hd hed⟩, And.left⟩
  refine h.frame (fun j s hj hused hs => ?_) (fun j hj s hs => ?_) fun e q j => ?_
  · obtain ⟨s', hs'⟩ := (hisDir j).mp ⟨s, hs⟩
    have hji := hne ⟨s', hs'⟩
    exact ⟨h.dirs j s' hj (hused' j hji ▸ hused) hs', hji⟩
  · exact ⟨hj.1, (hisDir j).mp ⟨s, hs⟩⟩
  · constructor
    · rintro ⟨he, hjdir, raw', hraw', hj, hdot⟩
      exact ⟨he.1, (hisDir j).mp hjdir, raw', ((hhas he.2).mp hraw').1, hj, hdot⟩
    · rintro ⟨he, hjdir, raw', hraw', rfl, hdot⟩
      obtain ⟨s, hs, hq, hlive⟩ := id hraw'
      have hei := hne ⟨s, hs⟩
      -- the entry that was cleared named a file
      have hqp : e = d → q ≠ p := by
        rintro rfl rfl
        obtain rfl := Node.dir.inj (hnode.symm.trans hs)
        rw [Option.some.inj (hq.symm.trans hp)] at hjdir
        exact hne hjdir hraw
      exact ⟨⟨he, hei⟩, (hisDir _).mpr hjdir, raw', (hhas hei).mpr ⟨hraw', hqp⟩, rfl, hdot⟩

end Owned

end Files

end Aeterna.Vfs.AeternaFs
