import Aeterna.Lib.Slots
import Aeterna.Vfs.Image
import Aeterna.Vfs.AeternaFs.Directory

/-!
# Files and directories of AeternaFS

What the inodes mean: a file is its contents and a directory is its list of slots of 32 bytes.
`Files.Linked` is the order that calls keep as long as they write and remove no directories: there is
a set of inodes, with the root in it, that are in use, that entries do not lead out of, and in which
a file has one entry. The lemmas on `Linked` and on lookups are one for each change that a call
makes: the contents of a file, a new node, an entry for it, an entry cleared and its file freed.
-/

namespace Aeterna.Vfs.AeternaFs

open Lib.Bytes Lib.Buffer Lib.Slots

/-! ## Nodes -/

/-- What an inode stands for: the bytes of a file, or the slots of a directory. -/
inductive Node where
  | file (content : Data)
  | dir (slots : List Data)
  | other

/-- The file system as its callers see it. -/
@[ext] structure Files where
  ready : Bool
  used : ℕ → Bool
  node : ℕ → Node

namespace Files

variable (f : Files)

def dirLookup (d : ℕ) (name : Path) : Option ℕ :=
  match f.node d with
  | .dir slots => (slots.find? (isNamed name)).map direntIno
  | _ => none

def lookup (ns : List Path) : Option ℕ := ns.foldlM f.dirLookup inodeRoot

def content (i : ℕ) : Option Data :=
  match f.node i with
  | .file content => some content
  | _ => none

def set (i : ℕ) (n : Node) : Files := { f with node := Function.update f.node i n }

def create (i : ℕ) (n : Node) : Files :=
  ⟨f.ready, Function.update f.used i true, Function.update f.node i n⟩

def erase (i : ℕ) : Files :=
  ⟨f.ready, Function.update f.used i false, Function.update f.node i .other⟩

@[simp] theorem set_node_self (i : ℕ) (n : Node) : (f.set i n).node i = n :=
  Function.update_self i _ _

theorem set_node_of_ne {i j : ℕ} (h : j ≠ i) (n : Node) : (f.set i n).node j = f.node j :=
  Function.update_of_ne h _ _

theorem set_eq_self {i : ℕ} {n : Node} (h : f.node i = n) : f.set i n = f := by
  rw [set, ← h, Function.update_eq_self]

@[simp] theorem create_node_self (i : ℕ) (n : Node) : (f.create i n).node i = n :=
  Function.update_self i _ _

theorem create_node_of_ne {i j : ℕ} (h : j ≠ i) (n : Node) : (f.create i n).node j = f.node j :=
  Function.update_of_ne h _ _

@[simp] theorem create_used_self (i : ℕ) (n : Node) : (f.create i n).used i = true :=
  Function.update_self i _ _

theorem create_used_of_ne {i j : ℕ} (h : j ≠ i) (n : Node) : (f.create i n).used j = f.used j :=
  Function.update_of_ne h _ _

@[simp] theorem erase_node_self (i : ℕ) : (f.erase i).node i = .other :=
  Function.update_self i _ _

theorem erase_node_of_ne {i j : ℕ} (h : j ≠ i) : (f.erase i).node j = f.node j :=
  Function.update_of_ne h _ _

theorem erase_used_of_ne {i j : ℕ} (h : j ≠ i) : (f.erase i).used j = f.used j :=
  Function.update_of_ne h _ _

end Files

/-! ## Entries -/

def freeSlot : Data := List.replicate 32 0

/-- An entry as `dir_add_entry` writes it. -/
def entryBytes (c : ℕ) (name : Path) : Data := Device.fit 32 (leBytes 4 c ++ pathBytes name)

theorem entryBytes_eq (c : ℕ) {name : Path} (h : (pathBytes name).length ≤ 27) :
    entryBytes c name =
      leBytes 4 c ++ (pathBytes name ++ List.replicate (28 - (pathBytes name).length) 0) := by
  have hlen : (leBytes 4 c ++ pathBytes name).length = 4 + (pathBytes name).length := by simp
  rw [entryBytes, Device.fit, List.take_of_length_le (by omega), List.append_assoc]
  congr 3
  omega

theorem splice_freeSlot (c : ℕ) {name : Path} (h : (pathBytes name).length ≤ 27) :
    splice freeSlot 0 (leBytes 4 c ++ pathBytes name) = entryBytes c name := by
  have hlen : (leBytes 4 c ++ pathBytes name).length = 4 + (pathBytes name).length := by simp
  rw [entryBytes_eq c h, splice, freeSlot, List.take_zero, List.nil_append, Nat.zero_add,
    List.drop_replicate, List.append_assoc]
  congr 3
  omega

theorem splice_freeSlot_zero (c : ℕ) {name : Path} (h : (pathBytes name).length ≤ 27) :
    splice freeSlot 0 (leBytes 4 c ++ pathBytes name ++ [0]) = entryBytes c name := by
  have hlen : (leBytes 4 c ++ pathBytes name ++ [0]).length = 5 + (pathBytes name).length := by
    simp
    omega
  have hpad : 28 - (pathBytes name).length = 32 - (5 + (pathBytes name).length) + 1 := by omega
  rw [entryBytes_eq c h, splice, freeSlot, List.take_zero, List.nil_append, Nat.zero_add, hlen,
    List.drop_replicate, hpad, List.replicate_succ]
  simp only [List.append_assoc, List.singleton_append]

theorem direntIno_freeSlot : direntIno freeSlot = 0 := by decide

theorem direntIno_entryBytes {c : ℕ} (hc : c < maxInodes) {name : Path}
    (h : (pathBytes name).length ≤ 27) : direntIno (entryBytes c name) = c := by
  rw [entryBytes_eq c h, direntIno, slice_append_left (by simp), Inode.slice_self (by simp),
    leValue_leBytes_of_lt (lt_trans hc (by decide))]

theorem direntName_entryBytes (c : ℕ) {name : Path} (h : (pathBytes name).length ≤ 27)
    (hzero : 0 ∉ pathBytes name) : direntName (entryBytes c name) = name := by
  have hslice : slice (entryBytes c name) 4 28 =
      pathBytes name ++ List.replicate (28 - (pathBytes name).length) 0 := by
    have hskip : 4 = (leBytes 4 c).length + 0 := by simp
    rw [entryBytes_eq c h, slice_append_right hskip, Inode.slice_self]
    simp
    omega
  have hname : (slice (entryBytes c name) 4 28).takeWhile (· != 0) = pathBytes name := by
    have hpad : 28 - (pathBytes name).length = 27 - (pathBytes name).length + 1 := by omega
    rw [hslice, List.takeWhile_append_of_pos, hpad, List.replicate_succ,
      List.takeWhile_cons_of_neg (by decide), List.append_nil]
    intro b hb
    rw [bne_iff_ne]
    rintro rfl
    exact hzero hb
  rw [direntName, hname, parsePath_pathBytes, Option.getD_some]

/-- A slot that holds nothing, or an entry as directory operations write it. -/
def Formed (raw : Data) : Prop :=
  raw = freeSlot ∨ ∃ c name, c ≠ 0 ∧ c < maxInodes ∧ (pathBytes name).length ≤ 27 ∧
    raw = entryBytes c name

theorem Formed.eq_freeSlot {raw : Data} (h : Formed raw) (hfree : isFree raw = true) :
    raw = freeSlot := by
  rcases h with h | ⟨c, name, hne, hc, hname, rfl⟩
  · exact h
  · rw [isFree, direntIno_entryBytes hc hname, beq_iff_eq] at hfree
    exact absurd hfree hne

/-- `slots'` is the table `slots`, longer by some free slots, with `raw` in a free one. -/
def Inserted (slots slots' : List Data) (raw : Data) : Prop :=
  ∃ m p, (slots ++ List.replicate m freeSlot)[p]? = some freeSlot ∧
    slots' = (slots ++ List.replicate m freeSlot).set p raw

theorem not_isNamed_freeSlot (name : Path) : isNamed name freeSlot = false := by
  rfl

theorem find?_append_freeSlots (slots : List Data) (m : ℕ) (name : Path) :
    (slots ++ List.replicate m freeSlot).find? (isNamed name) = slots.find? (isNamed name) := by
  have hnone : (List.replicate m freeSlot).find? (isNamed name) = none := by
    rw [List.find?_eq_none]
    intro raw hraw
    rw [(List.mem_replicate.mp hraw).2, not_isNamed_freeSlot]
    decide
  rw [List.find?_append, hnone, Option.or_none]

theorem Inserted.find?_eq {slots slots' : List Data} {raw : Data} (h : Inserted slots slots' raw)
    {name : Path} (hraw : isNamed name raw = false) :
    slots'.find? (isNamed name) = slots.find? (isNamed name) := by
  obtain ⟨m, p, hp, rfl⟩ := h
  rw [find?_set_of_not hp (not_isNamed_freeSlot name) hraw, find?_append_freeSlots]

theorem Inserted.find?_new {slots slots' : List Data} {raw : Data} (h : Inserted slots slots' raw)
    {name : Path} (hnone : slots.find? (isNamed name) = none) (hraw : isNamed name raw = true) :
    slots'.find? (isNamed name) = some raw := by
  obtain ⟨m, p, hp, rfl⟩ := h
  rw [← find?_append_freeSlots slots m] at hnone
  exact find?_set_of_none (List.getElem?_eq_some_iff.mp hp).1 hnone hraw

theorem Inserted.mem {slots slots' : List Data} {raw : Data} (h : Inserted slots slots' raw)
    {new : Data} (hnew : new ∈ slots') : new ∈ slots ∨ new = freeSlot ∨ new = raw := by
  obtain ⟨m, p, -, rfl⟩ := h
  rcases List.mem_or_eq_of_mem_set hnew with hold | hraw
  · rcases List.mem_append.mp hold with hold | hold
    · exact Or.inl hold
    · exact Or.inr (Or.inl (List.mem_replicate.mp hold).2)
  · exact Or.inr (Or.inr hraw)

theorem Inserted.formed {slots slots' : List Data} {raw : Data} (h : Inserted slots slots' raw)
    (hslots : ∀ old ∈ slots, Formed old) (hraw : Formed raw) : ∀ new ∈ slots', Formed new := by
  intro new hnew
  rcases h.mem hnew with hold | hfree | rfl
  · exact hslots new hold
  · exact Or.inl hfree
  · exact hraw

/-! ## Linked nodes -/

namespace Files

/-- Directory `d` has the live entry `raw` at position `p`. -/
def Has (f : Files) (d p : ℕ) (raw : Data) : Prop :=
  ∃ slots, f.node d = .dir slots ∧ slots[p]? = some raw ∧ direntIno raw ≠ 0

/-- The nodes of `L` are in use and linked from the root: what an entry of a directory in `L` names
is in `L`, and a file has one entry. -/
structure Linked (f : Files) (L : Set ℕ) : Prop where
  root : inodeRoot ∈ L
  root_dir : ∃ slots, f.node inodeRoot = .dir slots
  used : ∀ i ∈ L, ValidIno i ∧ f.used i = true
  kind : ∀ i ∈ L, f.node i ≠ .other
  formed : ∀ d ∈ L, ∀ slots, f.node d = .dir slots → ∀ raw ∈ slots, Formed raw
  closed : ∀ d ∈ L, ∀ p raw, f.Has d p raw → direntIno raw ∈ L
  once : ∀ d ∈ L, ∀ d' ∈ L, ∀ p p' raw raw', f.Has d p raw → f.Has d' p' raw' →
    direntIno raw = direntIno raw' → (∃ c, f.node (direntIno raw) = .file c) → d = d' ∧ p = p'

variable {f f' : Files} {L : Set ℕ}

theorem not_file_of_dir {i : ℕ} {slots : List Data} {c : Data} (h : f.node i = .dir slots) :
    f.node i ≠ .file c := by
  rw [h]
  exact Node.noConfusion

theorem Has.congr {d p : ℕ} {raw : Data} (hnode : f'.node d = f.node d) :
    f'.Has d p raw ↔ f.Has d p raw := by
  unfold Has
  rw [hnode]

theorem has_inserted {d : ℕ} {slots slots' : List Data} {raw : Data} (hnode : f.node d = .dir slots)
    (hnode' : f'.node d = .dir slots') (hins : Inserted slots slots' raw) (hlive : direntIno raw ≠ 0) :
    ∃ q, ∀ p raw', f'.Has d p raw' ↔ f.Has d p raw' ∨ p = q ∧ raw' = raw := by
  obtain ⟨m, q, hq, rfl⟩ := hins
  have hlt := (List.getElem?_eq_some_iff.mp hq).1
  refine ⟨q, fun p raw' => ⟨?_, ?_⟩⟩
  · rintro ⟨s, hs, hraw', hne⟩
    obtain rfl := Node.dir.inj (hnode'.symm.trans hs)
    by_cases hpq : p = q
    · subst hpq
      rw [List.getElem?_set_self hlt] at hraw'
      exact Or.inr ⟨rfl, (Option.some.inj hraw').symm⟩
    · rw [List.getElem?_set_ne (Ne.symm hpq)] at hraw'
      refine Or.inl ⟨slots, hnode, ?_, hne⟩
      by_cases hp : p < slots.length
      · rwa [List.getElem?_append_left hp] at hraw'
      · rw [List.getElem?_append_right (Nat.le_of_not_lt hp)] at hraw'
        have hfree := (List.mem_replicate.mp (List.mem_of_getElem? hraw')).2
        rw [hfree] at hne
        exact absurd rfl hne
  · rintro (⟨s, hs, hraw', hne⟩ | ⟨rfl, rfl⟩)
    · obtain rfl := Node.dir.inj (hnode.symm.trans hs)
      have hold : (slots ++ List.replicate m freeSlot)[p]? = some raw' := by
        rw [List.getElem?_append_left (List.getElem?_eq_some_iff.mp hraw').1, hraw']
      -- the slot that was taken was free
      have hpq : q ≠ p := by
        rintro rfl
        rw [Option.some.inj (hold.symm.trans hq)] at hne
        exact hne rfl
      exact ⟨_, hnode', by rw [List.getElem?_set_ne hpq, hold], hne⟩
    · exact ⟨_, hnode', List.getElem?_set_self hlt, hlive⟩

theorem has_cleared {d q : ℕ} {slots : List Data} (hnode : f.node d = .dir slots)
    (hnode' : f'.node d = .dir (slots.set q freeSlot)) {p : ℕ} {raw : Data} :
    f'.Has d p raw ↔ f.Has d p raw ∧ p ≠ q := by
  constructor
  · rintro ⟨s, hs, hraw, hne⟩
    obtain rfl := Node.dir.inj (hnode'.symm.trans hs)
    have hpq : p ≠ q := by
      rintro rfl
      rw [List.getElem?_set] at hraw
      simp only [if_true] at hraw
      split_ifs at hraw
      rw [← Option.some.inj hraw] at hne
      exact hne rfl
    rw [List.getElem?_set_ne (Ne.symm hpq)] at hraw
    exact ⟨⟨slots, hnode, hraw, hne⟩, hpq⟩
  · rintro ⟨⟨s, hs, hraw, hne⟩, hpq⟩
    obtain rfl := Node.dir.inj (hnode.symm.trans hs)
    exact ⟨_, hnode', by rw [List.getElem?_set_ne (Ne.symm hpq), hraw], hne⟩

theorem dir_setFile {i : ℕ} {c : Data} (hi : f.node i = .file c) (c' : Data) {d : ℕ}
    {slots : List Data} : (f.set i (.file c')).node d = .dir slots ↔ f.node d = .dir slots := by
  by_cases hd : d = i
  · rw [hd, set_node_self, hi]
    exact ⟨Node.noConfusion, Node.noConfusion⟩
  · rw [set_node_of_ne f hd]

theorem has_setFile {i : ℕ} {c : Data} (hi : f.node i = .file c) (c' : Data) {d p : ℕ} {raw : Data} :
    (f.set i (.file c')).Has d p raw ↔ f.Has d p raw :=
  exists_congr fun _ => and_congr_left fun _ => dir_setFile hi c'

theorem has_of_dirLookup {d j : ℕ} {name : Path} (h : f.dirLookup d name = some j) :
    ∃ p raw, f.Has d p raw ∧ isNamed name raw = true ∧ direntIno raw = j := by
  unfold dirLookup at h
  split at h
  · obtain ⟨raw, hraw, rfl⟩ := Option.map_eq_some_iff.mp h
    obtain ⟨p, hp⟩ := List.mem_iff_getElem?.mp (List.mem_of_find?_eq_some hraw)
    have hnamed := List.find?_some hraw
    refine ⟨p, raw, ⟨_, ‹_›, hp, ?_⟩, hnamed, rfl⟩
    rw [isNamed, Bool.and_eq_true, bne_iff_ne] at hnamed
    exact hnamed.1
  · exact absurd h.symm (Option.some_ne_none j)

theorem unlinked {d i : ℕ} {slots : List Data} {c : Data} (hnode : f.node d = .dir slots)
    (hi : f.node i = .file c) (p : ℕ) :
    let f' := (f.erase i).set d (.dir (slots.set p freeSlot))
    d ≠ i ∧ f'.node d = .dir (slots.set p freeSlot) ∧ f'.node i = .other ∧
      (∀ j, j ≠ d → j ≠ i → f'.node j = f.node j) ∧ ∀ j, j ≠ i → f'.used j = f.used j := by
  have hdi : d ≠ i := by
    rintro rfl
    exact not_file_of_dir hnode hi
  refine ⟨hdi, set_node_self _ d _, ?_, fun j hj hji => ?_, fun j hji => erase_used_of_ne f hji⟩
  · rw [set_node_of_ne _ (Ne.symm hdi), erase_node_self]
  · rw [set_node_of_ne _ hj, erase_node_of_ne f hji]

namespace Linked

theorem congr (h : f.Linked L) (hnode : ∀ i ∈ L, f'.node i = f.node i)
    (hused : ∀ i ∈ L, f'.used i = f.used i) : f'.Linked L where
  root := h.root
  root_dir := by
    rw [hnode _ h.root]
    exact h.root_dir
  used i hi := ⟨(h.used i hi).1, by rw [hused i hi]; exact (h.used i hi).2⟩
  kind i hi := by
    rw [hnode i hi]
    exact h.kind i hi
  formed d hd := by
    rw [hnode d hd]
    exact h.formed d hd
  closed d hd p raw hraw := h.closed d hd p raw ((Has.congr (hnode d hd)).mp hraw)
  once d hd d' hd' p p' raw raw' hraw hraw' heq hfile := by
    rw [Has.congr (hnode d hd)] at hraw
    rw [Has.congr (hnode d' hd')] at hraw'
    rw [hnode _ (h.closed d hd p raw hraw)] at hfile
    exact h.once d hd d' hd' p p' raw raw' hraw hraw' heq hfile

theorem dirLookup_mem (h : f.Linked L) {d j : ℕ} {name : Path} (hd : d ∈ L)
    (hlookup : f.dirLookup d name = some j) : j ∈ L := by
  obtain ⟨p, raw, hhas, -, rfl⟩ := has_of_dirLookup hlookup
  exact h.closed d hd p raw hhas

theorem lookup_mem (h : f.Linked L) {ns : List Path} {i : ℕ} (hlookup : f.lookup ns = some i) :
    i ∈ L := by
  have hfrom : ∀ d ∈ L, ns.foldlM f.dirLookup d = some i → i ∈ L := by
    clear hlookup
    induction ns with
    | nil =>
      intro d hd hi
      obtain rfl := Option.some.inj hi
      exact hd
    | cons n ns ih =>
      intro d hd hi
      obtain ⟨j, hj, hi⟩ := Option.bind_eq_some_iff.mp hi
      exact ih j (h.dirLookup_mem hd hj) hi
  exact hfrom inodeRoot h.root hlookup

theorem setFile (h : f.Linked L) {i : ℕ} {c : Data} (hi : f.node i = .file c) (c' : Data) :
    (f.set i (.file c')).Linked L := by
  refine ⟨h.root, ?_, h.used, fun j hj => ?_, fun d hd slots hslots => ?_, fun d hd p raw hraw => ?_,
    fun d hd d' hd' p p' raw raw' hraw hraw' heq hfile => ?_⟩
  · obtain ⟨slots, hslots⟩ := h.root_dir
    exact ⟨slots, (dir_setFile hi c').mpr hslots⟩
  · by_cases hji : j = i
    · rw [hji, set_node_self]
      exact Node.noConfusion
    · rw [set_node_of_ne f hji]
      exact h.kind j hj
  · exact h.formed d hd slots ((dir_setFile hi c').mp hslots)
  · exact h.closed d hd p raw ((has_setFile hi c').mp hraw)
  · refine h.once d hd d' hd' p p' raw raw' ((has_setFile hi c').mp hraw)
      ((has_setFile hi c').mp hraw') heq ?_
    by_cases hr : direntIno raw = i
    · exact ⟨c, hr ▸ hi⟩
    · rw [set_node_of_ne f hr] at hfile
      exact hfile

/-- A node is linked into a directory. -/
theorem link (h : f.Linked L) {d i : ℕ} {slots slots' : List Data} {name : Path} (hd : d ∈ L)
    (hnode : f.node d = .dir slots) (hi : i ∉ L) (hvalid : ValidIno i) (hused : f.used i = true)
    (hkind : f.node i ≠ .other) (hname : (pathBytes name).length ≤ 27)
    (hins : Inserted slots slots' (entryBytes i name))
    (hformed : ∀ s, f.node i = .dir s → ∀ raw ∈ s, Formed raw)
    (hentries : ∀ p raw, f.Has i p raw → direntIno raw = i ∨ direntIno raw = d) :
    (f.set d (.dir slots')).Linked (insert i L) := by
  have hself : (f.set d (.dir slots')).node d = .dir slots' := set_node_self f d _
  have hother (j : ℕ) (hj : j ≠ d) : (f.set d (.dir slots')).node j = f.node j :=
    set_node_of_ne f hj _
  have hused' : (f.set d (.dir slots')).used = f.used := rfl
  generalize f.set d (.dir slots') = f' at *
  have hnew : direntIno (entryBytes i name) = i := direntIno_entryBytes hvalid.2 hname
  obtain ⟨q, hhas⟩ := has_inserted hnode hself hins (hnew.symm ▸ hvalid.1)
  -- an entry is an old one or the new one
  have hcases {e p : ℕ} {raw : Data} (h : f'.Has e p raw) :
      f.Has e p raw ∨ e = d ∧ p = q ∧ raw = entryBytes i name := by
    by_cases he : e = d
    · subst he
      exact ((hhas p raw).mp h).imp_right fun ⟨hp, hraw⟩ => ⟨rfl, hp, hraw⟩
    · exact Or.inl ((Has.congr (hother e he)).mp h)
  have hfile {r : ℕ} (h : ∃ c, f'.node r = .file c) : ∃ c, f.node r = .file c := by
    obtain ⟨c, hc⟩ := h
    have hr : r ≠ d := by
      rintro rfl
      exact not_file_of_dir hself hc
    exact ⟨c, hother r hr ▸ hc⟩
  -- a directory with an entry for a file is an old one
  have hlinked {e p : ℕ} {raw : Data} (he : e ∈ insert i L) (h : f.Has e p raw)
      (hraw : ∃ c, f.node (direntIno raw) = .file c) : e ∈ L := by
    refine (Set.mem_insert_iff.mp he).resolve_left ?_
    rintro rfl
    obtain ⟨s, hs, -, -⟩ := id h
    obtain ⟨c, hc⟩ := hraw
    rcases hentries p raw h with hr | hr
    · exact not_file_of_dir hs (hr ▸ hc)
    · exact not_file_of_dir hnode (hr ▸ hc)
  refine ⟨Set.mem_insert_of_mem i h.root, ?_, fun j hj => ?_, fun j hj => ?_,
    fun e he s hs => ?_, fun e he p raw hraw => ?_,
    fun e he e' he' p p' raw raw' hraw hraw' heq hc => ?_⟩
  · by_cases hroot : inodeRoot = d
    · exact ⟨slots', hroot ▸ hself⟩
    · rw [hother _ hroot]
      exact h.root_dir
  · rw [hused']
    rcases Set.mem_insert_iff.mp hj with rfl | hj
    · exact ⟨hvalid, hused⟩
    · exact h.used j hj
  · by_cases hjd : j = d
    · rw [hjd, hself]
      exact Node.noConfusion
    · rw [hother j hjd]
      rcases Set.mem_insert_iff.mp hj with rfl | hj
      · exact hkind
      · exact h.kind j hj
  · by_cases hed : e = d
    · subst hed
      obtain rfl := Node.dir.inj (hself.symm.trans hs)
      refine hins.formed (h.formed e hd slots hnode) (Or.inr ⟨i, name, hvalid.1, hvalid.2, hname, rfl⟩)
    · rw [hother e hed] at hs
      rcases Set.mem_insert_iff.mp he with rfl | he
      · exact hformed s hs
      · exact h.formed e he s hs
  · rcases hcases hraw with hold | ⟨-, -, rfl⟩
    · rcases Set.mem_insert_iff.mp he with rfl | he
      · rcases hentries p raw hold with hr | hr
        · rw [hr]
          exact Set.mem_insert e L
        · rw [hr]
          exact Set.mem_insert_of_mem e hd
      · exact Set.mem_insert_of_mem i (h.closed e he p raw hold)
    · rw [hnew]
      exact Set.mem_insert i L
  · have hc' := hfile (heq ▸ hc)
    have hc := hfile hc
    rcases hcases hraw with hold | ⟨hed, hp, rfl⟩
    · have heL := hlinked he hold hc
      rcases hcases hraw' with hold' | ⟨-, -, rfl⟩
      · exact h.once e heL e' (hlinked he' hold' hc') p p' raw raw' hold hold' heq hc
      · rw [hnew] at heq
        exact absurd (heq ▸ h.closed e heL p raw hold) hi
    · rcases hcases hraw' with hold' | ⟨hed', hp', -⟩
      · rw [hnew] at heq
        exact absurd (heq ▸ h.closed e' (hlinked he' hold' hc') p' raw' hold') hi
      · exact ⟨hed.trans hed'.symm, hp.trans hp'.symm⟩

theorem unlink (h : f.Linked L) {d i p : ℕ} {slots : List Data} {raw c : Data} (hd : d ∈ L)
    (hnode : f.node d = .dir slots) (hp : slots[p]? = some raw) (hraw : direntIno raw = i)
    (hi : f.node i = .file c) (hi0 : i ≠ 0) :
    ((f.erase i).set d (.dir (slots.set p freeSlot))).Linked (L \ {i}) := by
  obtain ⟨hdi, hself, hgone, hother, hused'⟩ := unlinked hnode hi p
  generalize (f.erase i).set d (.dir (slots.set p freeSlot)) = f' at *
  have hfile {r : ℕ} (h : ∃ c, f'.node r = .file c) : ∃ c, f.node r = .file c := by
    obtain ⟨c, hc⟩ := h
    have hrd : r ≠ d := by
      rintro rfl
      exact not_file_of_dir hself hc
    have hri : r ≠ i := by
      rintro rfl
      rw [hgone] at hc
      exact Node.noConfusion hc
    exact ⟨c, hother r hrd hri ▸ hc⟩
  -- what is left are the other entries
  have hleft {e q : ℕ} {raw' : Data} (he : e ∈ L \ {i}) (h : f'.Has e q raw') :
      f.Has e q raw' ∧ (e = d → q ≠ p) := by
    by_cases hed : e = d
    · subst hed
      obtain ⟨hold, hqp⟩ := (has_cleared hnode hself).mp h
      exact ⟨hold, fun _ => hqp⟩
    · exact ⟨(Has.congr (hother e hed he.2)).mp h, fun h => absurd h hed⟩
  have hhas : f.Has d p raw := ⟨slots, hnode, hp, hraw ▸ hi0⟩
  have hroot : inodeRoot ≠ i := by
    rintro rfl
    obtain ⟨s, hs⟩ := h.root_dir
    exact not_file_of_dir hs hi
  refine ⟨⟨h.root, hroot⟩, ?_, fun j hj => ?_, fun j hj => ?_, fun e he s hs => ?_,
    fun e he q raw' hraw' => ?_, fun e he e' he' q q' raw₁ raw₂ h₁ h₂ heq hc => ?_⟩
  · by_cases hrd : inodeRoot = d
    · exact ⟨_, hrd ▸ hself⟩
    · rw [hother _ hrd hroot]
      exact h.root_dir
  · rw [hused' j hj.2]
    exact h.used j hj.1
  · by_cases hjd : j = d
    · rw [hjd, hself]
      exact Node.noConfusion
    · rw [hother j hjd hj.2]
      exact h.kind j hj.1
  · by_cases hed : e = d
    · subst hed
      obtain rfl := Node.dir.inj (hself.symm.trans hs)
      intro raw' hraw'
      rcases List.mem_or_eq_of_mem_set hraw' with hold | rfl
      · exact h.formed e hd slots hnode raw' hold
      · exact Or.inl rfl
    · rw [hother e hed he.2] at hs
      exact h.formed e he.1 s hs
  · obtain ⟨hold, hne⟩ := hleft he hraw'
    refine ⟨h.closed e he.1 q raw' hold, fun hr => ?_⟩
    obtain ⟨hed, hqp⟩ := h.once e he.1 d hd q p raw' raw hold hhas (Eq.trans hr hraw.symm)
      ⟨c, hr ▸ hi⟩
    exact hne hed hqp
  · exact h.once e he.1 e' he'.1 q q' raw₁ raw₂ (hleft he h₁).1 (hleft he' h₂).1 heq (hfile hc)

end Linked

/-! ## Lookups after a change -/

theorem lookup_append (ns : List Path) (n : Path) :
    f.lookup (ns ++ [n]) = (f.lookup ns).bind fun d => f.dirLookup d n := by
  rw [lookup, List.foldlM_append]
  congr 1
  funext d
  exact bind_pure _

/-- What is found is still found when the directories of `S`, which lookups do not leave, only gain
names. -/
theorem lookup_mono {S : Set ℕ} (hroot : inodeRoot ∈ S)
    (h : ∀ d ∈ S, ∀ n j, f.dirLookup d n = some j → j ∈ S ∧ f'.dirLookup d n = some j)
    {ns : List Path} {i : ℕ} (hi : f.lookup ns = some i) : f'.lookup ns = some i := by
  have hfrom : ∀ d ∈ S, ns.foldlM f.dirLookup d = some i → ns.foldlM f'.dirLookup d = some i := by
    clear hi
    induction ns with
    | nil => exact fun d _ hd => hd
    | cons n ns ih =>
      intro d hdS hd
      obtain ⟨j, hj, hd⟩ := Option.bind_eq_some_iff.mp hd
      obtain ⟨hjS, hj'⟩ := h d hdS n j hj
      exact Option.bind_eq_some_iff.mpr ⟨j, hj', ih j hjS hd⟩
  exact hfrom inodeRoot hroot hi

theorem dirLookup_eq_of_node {d : ℕ} (hnode : f'.node d = f.node d) (n : Path) :
    f'.dirLookup d n = f.dirLookup d n := by
  unfold dirLookup
  rw [hnode]

theorem dirLookup_of_dir {d : ℕ} {slots : List Data} (hnode : f.node d = .dir slots) (n : Path) :
    f.dirLookup d n = (slots.find? (isNamed n)).map direntIno := by
  unfold dirLookup
  rw [hnode]

theorem dirLookup_of_not_dir {d : ℕ} (hnode : ∀ slots, f.node d ≠ .dir slots) (n : Path) :
    f.dirLookup d n = none := by
  unfold dirLookup
  split
  · exact absurd ‹_› (hnode _)
  · rfl

theorem lookup_of_file {i : ℕ} {c : Data} (hi : f.node i = .file c)
    (hother : ∀ d, d ≠ i → f'.node d = f.node d) {ns : List Path} {j : ℕ}
    (hj : f.lookup ns = some j) : f'.lookup ns = some j := by
  refine lookup_mono (Set.mem_univ _) (fun d _ n j hd => ⟨Set.mem_univ j, ?_⟩) hj
  have hdi : d ≠ i := by
    rintro rfl
    rw [dirLookup_of_not_dir fun slots h => not_file_of_dir h hi] at hd
    exact Option.some_ne_none j hd.symm
  rw [dirLookup_eq_of_node (hother d hdi), hd]

end Files

end Aeterna.Vfs.AeternaFs
