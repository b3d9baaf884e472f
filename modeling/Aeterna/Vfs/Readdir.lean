import Aeterna.Vfs.TreeInvariant

/-!
# Directory listings

`readdir` of the RamFS goes through the whole map and keeps the keys that lie directly below the
directory, by the prefix of their paths. In a well-formed tree these are its children, and the listing
has each of them once, directories first (`readdir_spec`).
-/

namespace Aeterna.Vfs

/-! ## The listing -/

inductive NodeType where
  | file
  | directory
  deriving DecidableEq

structure DirEntry where
  name : Path
  nodeType : NodeType
  size : ℕ
  deriving DecidableEq

def RamNode.nodeType : RamNode → NodeType
  | .file _ => .file
  | .dir => .directory

def RamNode.size : RamNode → ℕ
  | .file data => data.length
  | .dir => 0

/-- The entry for a key that is `pre` and a name. -/
def childEntry (pre : Path) (e : Path × RamNode) : Option DirEntry :=
  if e.1 = rootPath then none
  else if pre.isPrefixOf e.1 then
    let rest := e.1.drop pre.length
    if rest ≠ [] ∧ '/' ∉ rest then some ⟨rest, e.2.nodeType, e.2.size⟩ else none
  else none

/-- The comparison of the sort: directories first, then by name. -/
def entryLe (a b : DirEntry) : Bool :=
  match a.nodeType, b.nodeType with
  | .directory, .file => true
  | .file, .directory => false
  | _, _ => decide (a.name ≤ b.name)

def readdir (tree : Tree) (path : Path) : Option (List DirEntry) :=
  let path := normalize path
  if tree[path]? = some .dir ∨ tree[path]? = none ∧ path = rootPath then
    let pre := if path = rootPath then rootPath else asPrefix path
    some ((tree.toList.filterMap (childEntry pre)).mergeSort entryLe)
  else none

/-! ## Children -/

theorem filename_render (cs : List Component) (c : Component) :
    filename (render (cs ++ [c])) = c.val := by
  have hspell : render (cs ++ [c]) = spell cs ++ '/' :: c.val := by
    rw [render_of_ne_nil (by simp)]
    simp
  have hlen : (spell cs).length < (spell cs ++ '/' :: c.val).length - 1 := by
    have hpos := List.length_pos_iff.mpr c.property.1
    rw [List.length_append, List.length_cons]
    omega
  unfold filename
  rw [hspell, rfind_append c.property.2]
  dsimp only
  rw [if_pos hlen, List.drop_length_add_append]
  rfl

theorem childEntry_render (ds cs : List Component) (node : RamNode) :
    childEntry (spell ds ++ ['/']) (render cs, node) =
      if render cs ≠ rootPath ∧ parent (render cs) = render ds then
        some ⟨filename (render cs), node.nodeType, node.size⟩
      else none := by
  rcases List.eq_nil_or_concat cs with rfl | ⟨cs, c, rfl⟩
  · simp [childEntry]
  have hroot := spell_ne_root (cs ++ [c])
  have hiff : spell (cs ++ [c]) ≠ rootPath ∧ render cs = render ds ↔ cs = ds :=
    ⟨fun h => render_injective h.2, fun h => ⟨hroot, congrArg render h⟩⟩
  rw [List.concat_eq_append, filename_render, parent_render, render_of_ne_nil (by simp)]
  unfold childEntry
  simp only [hiff, if_neg hroot, List.isPrefixOf_iff_prefix]
  by_cases hchild : cs = ds
  · subst hchild
    have hsplit : spell (cs ++ [c]) = spell cs ++ ['/'] ++ c.val := by simp
    rw [if_pos rfl, hsplit, if_pos (List.prefix_append _ _), List.drop_left, if_pos c.property]
  · rw [if_neg hchild]
    split_ifs with hpre hrest
    · -- what follows the prefix would be one name
      obtain ⟨rest, hrest'⟩ := hpre
      rw [← hrest', List.drop_left] at hrest
      rw [List.append_assoc] at hrest'
      obtain ⟨es, hes, hsp⟩ := spell_prefix (Or.inr rfl) hrest'
      cases es with
      | nil => cases hsp
      | cons e es =>
        obtain rfl : rest = e.val ++ spell es := (List.cons.inj hsp).2
        cases es with
        | nil => exact absurd (List.append_inj_left' hes rfl) hchild
        | cons e' es => exact absurd (by simp) hrest.2
    · rfl
    · rfl

def entryOf (e : Path × RamNode) : DirEntry := ⟨filename e.1, e.2.nodeType, e.2.size⟩

/-- The children of a directory, with their paths. -/
def children (tree : Tree) (dir : Path) : List (Path × RamNode) :=
  tree.toList.filter fun e => e.1 ≠ rootPath ∧ parent e.1 = dir

theorem filterMap_childEntry {tree : Tree} (h : WellFormed tree) (ds : List Component) :
    tree.toList.filterMap (childEntry (spell ds ++ ['/'])) =
      (children tree (render ds)).map entryOf := by
  rw [children, ← List.filterMap_eq_map, List.filterMap_filter]
  refine List.filterMap_congr fun e he => ?_
  have hmem : e.1 ∈ tree := mem_iff.mpr (by
    rw [Std.ExtTreeMap.mem_toList_iff_getElem?_eq_some.mp he]
    exact Option.some_ne_none _)
  obtain ⟨cs, hcs⟩ := normal_iff.mp (h.normal e.1 hmem)
  obtain ⟨key, node⟩ := e
  obtain rfl : key = render cs := hcs
  rw [childEntry_render]
  simp [entryOf]

/-! ## Order -/

/-- Directories come before files, and entries of one kind in the order of their names. -/
def Precedes (a b : DirEntry) : Prop :=
  a.nodeType = .directory ∧ b.nodeType = .file ∨ a.nodeType = b.nodeType ∧ a.name ≤ b.name

theorem entryLe_iff (a b : DirEntry) : entryLe a b = true ↔ Precedes a b := by
  unfold entryLe Precedes
  cases a.nodeType <;> cases b.nodeType <;> simp

/-- The listing has each child once and nothing else, in order. -/
structure Lists (tree : Tree) (dir : Path) (entries : List DirEntry) : Prop where
  perm : entries.Perm ((children tree dir).map entryOf)
  order : entries.Pairwise Precedes

/-- **Directory listing.** -/
theorem readdir_spec (tree : Tree) (path : Path) (h : WellFormed tree) :
    (readdir tree path = none ↔
      tree[normalize path]? = none ∨ ∃ data, tree[normalize path]? = some (.file data)) ∧
    ∀ entries, readdir tree path = some entries → Lists tree (normalize path) entries := by
  have hroot : normalize path = rootPath → tree[normalize path]? ≠ none := fun hpath => by
    rw [hpath, h.root]
    exact Option.some_ne_none _
  unfold readdir
  generalize normalize path = dir at hroot
  dsimp only
  cases hnode : tree[dir]? with
  | none =>
    have hne : dir ≠ rootPath := fun hdir => hroot hdir hnode
    simp [hne]
  | some node =>
    cases node with
    | file data => simp
    | dir =>
      rw [if_pos (Or.inl rfl)]
      refine ⟨by simp, fun entries hentries => ?_⟩
      obtain ⟨ds, rfl⟩ := normal_iff.mp (h.normal dir (mem_iff.mpr (by simp [hnode])))
      have hpre : (if render ds = rootPath then rootPath else asPrefix (render ds)) =
          spell ds ++ ['/'] := by
        split_ifs with hds
        · rw [render_eq_root.mp hds]
          rfl
        · rw [asPrefix, render_of_ne_nil fun hnil => hds (render_eq_root.mpr hnil)]
      rw [hpre, filterMap_childEntry h] at hentries
      cases hentries
      refine ⟨List.mergeSort_perm _ _, ?_⟩
      refine (List.pairwise_mergeSort ?_ ?_ _).imp fun {a b} => (entryLe_iff a b).mp
      · intro a b c hab hbc
        rw [entryLe_iff] at hab hbc ⊢
        rcases hab with ⟨ha, hb⟩ | ⟨hab, hle⟩ <;> rcases hbc with ⟨hb', hc⟩ | ⟨hbc, hle'⟩
        · exact Or.inl ⟨ha, hc⟩
        · exact Or.inl ⟨ha, hbc ▸ hb⟩
        · exact Or.inl ⟨hab ▸ hb', hc⟩
        · exact Or.inr ⟨hab.trans hbc, le_trans hle hle'⟩
      · intro a b
        rw [Bool.or_eq_true, entryLe_iff, entryLe_iff]
        unfold Precedes
        have htotal := le_total a.name b.name
        cases a.nodeType <;> cases b.nodeType <;> simp [htotal]

/-- The home directory of a new file system. -/
theorem readdir_spec_init :
    readdir init "/home".toList ≠ none ∧ ∀ entries,
      readdir init "/home".toList = some entries → Lists init (normalize "/home".toList) entries :=
  ⟨by decide +kernel, (readdir_spec init "/home".toList wellFormed_init).2⟩

end Aeterna.Vfs
