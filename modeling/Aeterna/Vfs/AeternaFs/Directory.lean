import Aeterna.Vfs.AeternaFs.Layout

/-!
# Directories and paths of AeternaFS

A directory is a file of entries of 32 bytes, an inode number and a name that ends at the first zero
byte; number 0 marks a free entry. A path is resolved name by name from the root. `names` are the
names on a path, and `split_path` cuts off the last one (`names_splitPath`).
-/

namespace Aeterna.Vfs.AeternaFs

open Lib.Bytes Lib.Buffer

/-! ## Entries -/

def direntIno (raw : Data) : ℕ := leValue (slice raw 0 4)

/-- The name of an entry; bytes that are no text read as the empty name. -/
def direntName (raw : Data) : Path :=
  (parsePath ((slice raw 4 28).takeWhile (· != 0))).getD []

def isFree (raw : Data) : Bool := direntIno raw == 0

def isNamed (name : Path) (raw : Data) : Bool := direntIno raw != 0 && direntName raw == name

def dirent (block : Data) (slot : ℕ) : Data := slice block (slot * 32) 32

/-- The blocks the loops over an inode visit: they stop at the first pointer that is 0. -/
def Inode.liveBlocks (i : Inode) : List ℕ :=
  (i.direct.toList.takeWhile (· != 0)).map UInt32.toNat

namespace State

variable {g : SectorSize}

/-- The first entry of a directory that meets `p`: its block and its number there. -/
def findSlot (st : State g) (inode : Inode) (p : Data → Bool) : Option (ℕ × ℕ) :=
  inode.liveBlocks.findSome? fun blk =>
    ((List.range (g.bytes / 32)).find? fun slot => p (dirent (st.readBlock blk) slot)).map
      fun slot => (blk, slot)

def dirLookup (st : State g) (dirIno : ℕ) (name : Path) : Option ℕ :=
  match st.readInodeRaw dirIno with
  | none => none
  | some inode =>
    if !inode.isDir then none
    else (st.findSlot inode (isNamed name)).map fun (blk, slot) =>
      direntIno (dirent (st.readBlock blk) slot)

/-- Adds an entry to a directory: in its first free slot, or at the start of a new block. -/
def dirAddEntry (st : State g) (dirIno : ℕ) (name : Path) (childIno : ℕ) : Bool × State g :=
  match st.readInodeRaw dirIno with
  | none => (false, st)
  | some inode =>
    if !inode.isDir then (false, st)
    else if (pathBytes name).length > 27 then (false, st)
    else
      let entry := leBytes 4 childIno ++ (pathBytes name).take 27
      match st.findSlot inode isFree with
      | some (blk, slot) =>
        (true, st.writeBlock blk (splice (st.readBlock blk) (slot * 32) (entry ++ [0])))
      | none =>
        match (List.finRange 8).find? fun k => inode.direct.get k == 0 with
        | none => (false, st)
        | some k =>
          match st.allocBlock with
          | (none, st) => (false, st)
          | (some newBlk, st) =>
            let inode := { inode.setDirect k (UInt32.ofNat newBlk) with
              size := inode.size + UInt64.ofNat g.bytes }
            let st := (st.writeInodeRaw dirIno inode).2
            (true, st.writeBlock newBlk (splice (List.replicate g.bytes 0) 0 entry))

/-- Removes the first entry of a name. -/
def dirRemoveEntry (st : State g) (dirIno : ℕ) (name : Path) : Bool × State g :=
  match st.readInodeRaw dirIno with
  | none => (false, st)
  | some inode =>
    if !inode.isDir then (false, st)
    else
      match st.findSlot inode (isNamed name) with
      | some (blk, slot) =>
        (true, st.writeBlock blk (splice (st.readBlock blk) (slot * 32) (List.replicate 32 0)))
      | none => (false, st)

/-! ## Paths -/

/-- Walks the tree from the root to the inode of a path. -/
def lookupPath (st : State g) (path : Path) : Option ℕ :=
  let path := (path.dropWhile (· == '/')).rdropWhile (· == '/')
  if path = [] then some inodeRoot
  else (path.splitOn '/').foldlM
    (fun current component => if component = [] then some current else st.dirLookup current component)
    inodeRoot

end State

/-- Splits a path into the path of its directory and its last name. -/
def splitPath (path : Path) : Path × Path :=
  let path := path.rdropWhile (· == '/')
  if path = [] ∨ path = rootPath then (rootPath, [])
  else match rfind '/' path with
  | some 0 => (rootPath, path.drop 1)
  | some i => (path.take i, path.drop (i + 1))
  | none => (rootPath, path)

def names (path : Path) : List Path := (path.splitOn '/').filter (· != [])

theorem names_append_slash (a b : Path) : names (a ++ '/' :: b) = names a ++ names b := by
  rw [names, List.splitOn_append_cons_self, List.filter_append]
  rfl

@[simp] theorem names_nil : names [] = [] := by decide

theorem names_cons_slash (path : Path) : names ('/' :: path) = names path := by
  rw [← List.nil_append ('/' :: path), names_append_slash, names_nil, List.nil_append]

@[simp] theorem names_root : names rootPath = [] := by
  rw [rootPath, names_cons_slash, names_nil]

theorem names_of_not_mem {name : Path} (h : '/' ∉ name) (hne : name ≠ []) :
    names name = [name] := by
  rw [names, List.splitOn_eq_singleton h, List.filter_cons_of_pos (by simpa using hne)]
  rfl

theorem names_dropWhile (path : Path) : names (path.dropWhile (· == '/')) = names path := by
  induction path with
  | nil => rfl
  | cons c path ih =>
    rw [List.dropWhile_cons]
    split_ifs with h
    · rw [ih, beq_iff_eq.mp h, names_cons_slash]
    · rfl

theorem names_rdropWhile (path : Path) : names (path.rdropWhile (· == '/')) = names path := by
  induction path using List.reverseRecOn with
  | nil => rfl
  | append_singleton path c ih =>
    rw [List.rdropWhile_concat]
    split_ifs with h
    · rw [ih, beq_iff_eq.mp h, names_append_slash, names_nil, List.append_nil]
    · rfl

theorem exists_last_slash (path : Path) :
    '/' ∉ path ∨ ∃ front name, path = front ++ '/' :: name ∧ '/' ∉ name := by
  induction path using List.reverseRecOn with
  | nil => exact Or.inl List.not_mem_nil
  | append_singleton path c ih =>
    by_cases hc : c = '/'
    · exact Or.inr ⟨path, [], by rw [hc], List.not_mem_nil⟩
    · rcases ih with h | ⟨front, name, rfl, h⟩
      · refine Or.inl fun hmem => ?_
        rcases List.mem_append.mp hmem with hmem | hmem
        · exact h hmem
        · exact hc (List.mem_singleton.mp hmem).symm
      · refine Or.inr ⟨front, name ++ [c], by simp, fun hmem => ?_⟩
        rcases List.mem_append.mp hmem with hmem | hmem
        · exact h hmem
        · exact hc (List.mem_singleton.mp hmem).symm

theorem names_splitPath (path : Path) :
    (splitPath path = (rootPath, []) ∧ names path = []) ∨
      (splitPath path).2 ≠ [] ∧ names path = names (splitPath path).1 ++ [(splitPath path).2] ∧
        ((splitPath path).1 = rootPath ∨ (splitPath path).1.length < path.length) := by
  have hnames := names_rdropWhile path
  have hlen : (path.rdropWhile (· == '/')).length ≤ path.length := by
    apply List.IsPrefix.length_le
    exact List.rdropWhile_prefix _ path
  have hlast := List.rdropWhile_last_not (· == '/') path
  unfold splitPath
  dsimp only
  generalize path.rdropWhile (· == '/') = trimmed at hnames hlen hlast ⊢
  rcases exists_last_slash trimmed with hslash | ⟨front, name, rfl, hslash⟩
  · by_cases hne : trimmed = []
    · left
      rw [if_pos (Or.inl hne), ← hnames, hne]
      exact ⟨rfl, names_nil⟩
    · have hroot : trimmed ≠ rootPath := fun h => hslash (h ▸ List.mem_singleton_self _)
      have hfind : rfind '/' trimmed = none := by
        unfold rfind
        rw [Option.map_eq_none_iff, List.findIdx?_eq_none_iff]
        intro c hc
        rw [List.mem_reverse] at hc
        exact beq_false_of_ne fun h => hslash (h ▸ hc)
      right
      rw [if_neg (not_or.mpr ⟨hne, hroot⟩), hfind]
      refine ⟨hne, ?_, Or.inl rfl⟩
      rw [← hnames, names_of_not_mem hslash hne, names_root, List.nil_append]
  · -- the trimmed path does not end in a slash, so there is a name behind the last one
    have hname : name ≠ [] := by
      rintro rfl
      have := hlast (by simp)
      simp at this
    have hroot : front ++ '/' :: name ≠ rootPath := by
      intro h
      have := congrArg List.length h
      have := List.length_pos_iff.mpr hname
      simp [rootPath] at *
      omega
    have hsplit : names path = names front ++ [name] := by
      rw [← hnames, names_append_slash, names_of_not_mem hslash hname]
    right
    rw [if_neg (not_or.mpr ⟨by simp, hroot⟩), rfind_append hslash]
    cases front with
    | nil =>
      refine ⟨hname, ?_, Or.inl rfl⟩
      show names path = names rootPath ++ [name]
      rw [hsplit, names_root, names_nil]
    | cons c front =>
      have htake : (c :: front ++ '/' :: name).take (front.length + 1) = c :: front := by
        rw [← List.length_cons, List.take_left]
      have hdrop : (c :: front ++ '/' :: name).drop (front.length + 1 + 1) = name := by
        rw [List.drop_append]
        simp
      simp only [List.length_cons, htake, hdrop]
      refine ⟨hname, hsplit, Or.inr ?_⟩
      simp only [List.length_append, List.length_cons] at hlen
      omega

namespace State

variable {g : SectorSize} (st : State g)

theorem foldlM_filter (d : ℕ) (cs : List Path) :
    cs.foldlM (fun current component =>
        if component = [] then some current else st.dirLookup current component) d =
      (cs.filter (· != [])).foldlM st.dirLookup d := by
  induction cs generalizing d with
  | nil => rfl
  | cons c cs ih =>
    by_cases hc : c = []
    · rw [List.foldlM_cons, if_pos hc, List.filter_cons_of_neg (by simp [hc])]
      exact ih d
    · rw [List.foldlM_cons, if_neg hc, List.filter_cons_of_pos (by simp [hc]), List.foldlM_cons]
      exact bind_congr fun d' => ih d'

theorem lookupPath_eq (path : Path) :
    st.lookupPath path = (names path).foldlM st.dirLookup inodeRoot := by
  unfold lookupPath
  dsimp only
  have hnames : names ((path.dropWhile (· == '/')).rdropWhile (· == '/')) = names path := by
    rw [names_rdropWhile, names_dropWhile]
  split_ifs with h
  · rw [← hnames, h, names_nil]
    rfl
  · rw [foldlM_filter, ← hnames]
    rfl

end State

end Aeterna.Vfs.AeternaFs
